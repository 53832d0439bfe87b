import SyncFs.TidySessions

/-!
# Origin stamps

A stamp puts an announcement's time on a file by looking at times alone. What
is under it is the announcement's own content as long as nobody has changed
what libtorrent knows to be on disk, and libtorrent has all of it there.
-/

namespace SyncFs

open CharConversions LabelledRuns

/-- The bytes of the torrent not missing are where libtorrent has put them. -/
def Torrent.Backed (t : Torrent) (content : Bytes) : Prop :=
  content.length ≤ t.info.content.length ∧
    ∀ k < t.info.content.length, k ∉ t.missing → content[k]? = t.info.content[k]?

instance (t : Torrent) (content : Bytes) : Decidable (t.Backed content) := by
  unfold Torrent.Backed
  infer_instance

def deletedPaths (v : List Bytes) : List Path :=
  (removedPath v).toList ++
    if verbOf (part v 0) = ascii "digest" then (decodeTombstones (part v 2)).keys else []

section

variable (w : World)

/-- The step changes what libtorrent knows to be in the file, or has it deleted
under another spelling of its path, which leaves its torrent behind. -/
def tampers (n : Node) (e : Event) (p : Path) : Bool :=
  match e with
  | .localWrite q file => q = p && n.replica.session.torrents.any fun t =>
      w.spot t = p && t.opened && !decide (t.Backed file.content)
  | .localDelete q => q = p && n.replica.session.torrents.any fun t => w.spot t = p && t.opened
  | .receive (some v) => (deletedPaths v).any fun q => q ≠ p ∧ w.destination q = p
  | _ => false

/-- The step applies a create for the path that the session does not serve yet. -/
def startsAfresh (n : Node) (e : Event) (p : Path) : Bool :=
  (appliedBy w n e).any fun v => announcedPath v = p &&
    (torrentOf w v).any fun torrent => !heldAlready w n.replica v torrent

/-- The file of a path was tampered with since its torrent was added. -/
def tampered : History Node Event → Path → Bool
  | [], _ => false
  | (n, e) :: h, p =>
    if tampers w n e p then true
    else if startsAfresh w n e p then false
    else tampered h p

/-- An info hash stands for one content. -/
def HashesName : Prop :=
  ∀ b c t u, w.loadTorrentBuffer b = some t → w.loadTorrentBuffer c = some u →
    t.infoHash = u.infoHash → t.content = u.content

/-- A stamp that puts an origin back finds the content of the announcement that
brought it. -/
def CoversItsOwn (h : History Node Event) (n : Node) (e : Event) : Prop :=
  ∀ call ∈ stampCall w n e, Records w call.1 call.2.1 call.2.2 →
    ∀ o ∈ call.1.inbound.origins[call.2.1]?,
      ∃ v ∈ lastApplied w ((n, e) :: h) call.2.1, originOf v = o ∧
        ∃ torrent ∈ torrentOf w v,
          (call.1.find w call.2.1).map File.content = some torrent.content

/-- Creates land where they say, and a stamp that puts an origin back finds its
file untampered with, and whole if it is made for content held already. -/
def StampsWhole (h : History Node Event) (n : Node) (e : Event) : Prop :=
  HonestCreate w n e ∧
    ∀ call ∈ stampCall w n e, Records w call.1 call.2.1 call.2.2 →
      (call.1.inbound.origins[call.2.1]?).isSome = true →
        tampered w h call.2.1 = false ∧ ∀ v ∈ appliedBy w n e,
          ∀ t ∈ n.replica.session.torrentsAt w (announcedPath v), t.complete = true

end

variable {w : World} {n m : Node} {e : Event} {h : History Node Event} {t : Torrent} {p : Path}

theorem Torrent.Backed.eq_of_complete {content : Bytes} (hb : t.Backed content)
    (hc : t.complete = true) : content = t.info.content := by
  obtain ⟨-, hm⟩ := Bool.and_eq_true_iff.mp hc
  apply List.ext_getElem?
  intro k
  by_cases hk : k < t.info.content.length
  · refine hb.2 k hk ?_
    rw [List.isEmpty_iff.mp hm]
    exact List.not_mem_nil
  · rw [not_lt] at hk
    rw [List.getElem?_eq_none (hb.1.trans hk), List.getElem?_eq_none hk]

/-- What libtorrent has been told of a torrent, and what it knows to be on disk
of it. -/
structure Served (w : World) (h : History Node Event) (disk : Disk) (t : Torrent) : Prop where
  announced : ∃ v ∈ lastApplied w h (w.heldPath t), ∃ torrent ∈ torrentOf w v,
    torrent.infoHash = t.info.infoHash ∧ torrent.content = t.info.content
  unopened : t.opened = false → ∀ k < t.info.content.length, k ∈ t.missing
  backed : t.opened = true → tampered w h (w.heldPath t) = false →
    ∃ file, disk[w.heldPath t]? = some file ∧ t.Backed file.content

theorem not_tampered_cons (ht : tampered w ((n, e) :: h) p = false) :
    tampers w n e p = false ∧ (startsAfresh w n e p = false → tampered w h p = false) := by
  rw [tampered] at ht
  split at ht
  · cases ht
  · next hn =>
    refine ⟨Bool.eq_false_iff.mpr hn, fun hf => ?_⟩
    rwa [hf, if_neg Bool.false_ne_true] at ht

namespace Served

variable {disk disk' : Disk}

theorem later (hs : Served w h disk t)
    (ha : ∀ v ∈ appliedBy w n e, announcedPath v ≠ w.heldPath t) :
    Served w ((n, e) :: h) disk t where
  announced := by
    rw [lastApplied_other ha]
    exact hs.announced
  unopened := hs.unopened
  backed ho ht := by
    refine hs.backed ho ((not_tampered_cons ht).2 ?_)
    cases hv : appliedBy w n e with
    | none => rw [startsAfresh, hv, Option.any_none]
    | some v => simp [startsAfresh, hv, ha v hv]

theorem moved (hs : Served w h disk t)
    (hd : t.opened = true → tampered w h (w.heldPath t) = false →
      ∀ file, disk[w.heldPath t]? = some file → t.Backed file.content →
        ∃ file', disk'[w.heldPath t]? = some file' ∧ t.Backed file'.content) :
    Served w h disk' t where
  announced := hs.announced
  unopened := hs.unopened
  backed ho ht := by
    obtain ⟨file, hf, hb⟩ := hs.backed ho ht
    exact hd ho ht file hf hb

theorem content (hs : Served w h disk t)
    (hc : (disk'[w.heldPath t]?).map File.content = (disk[w.heldPath t]?).map File.content) :
    Served w h disk' t := by
  refine hs.moved fun _ _ file hf hb => ?_
  rw [hf, Option.map_some] at hc
  obtain ⟨file', hf', he⟩ := Option.map_eq_some_iff.mp hc
  exact ⟨file', hf', he ▸ hb⟩

theorem opened (hs : Served w h disk t) (now : FileTime)
    (hd : disk'[w.heldPath t]? =
      some (openedFile disk[w.heldPath t]? t.info.content now)) :
    Served w h disk' { t with opened := true } where
  announced := hs.announced
  unopened hf := by cases hf
  backed _ ht := by
    refine ⟨_, hd, ?_⟩
    cases ho : t.opened with
    | true =>
      obtain ⟨file, hf, hb⟩ := hs.backed ho ht
      rw [hf, openedFile, if_neg (not_lt.mpr hb.1)]
      exact hb
    | false =>
      constructor
      · unfold openedFile
        cases disk[w.heldPath t]? with
        | none => exact Nat.zero_le _
        | some file =>
          dsimp only
          split
          · exact List.length_take_le _ _
          · next hl => exact not_lt.mp hl
      · exact fun k hk hm => absurd (hs.unopened ho k hk) hm

private theorem mem_of_notMem_onDisk {offset length k : ℕ}
    (hk : k ∉ (t.onDisk offset length).missing) :
    k ∉ t.missing ∨ offset ≤ k ∧ k < offset + length := by
  simp only [Torrent.onDisk, List.mem_filter, Bool.or_eq_true, decide_eq_true_eq] at hk
  by_cases hm : k ∈ t.missing
  · right
    by_contra hn
    exact hk ⟨hm, by omega⟩
  · exact .inl hm

theorem verified {offset length : ℕ} {file : File} (hs : Served w h disk t)
    (hopen : t.opened = true) (hf : disk[w.heldPath t]? = some file)
    (ha : (file.content.drop offset).take length = (t.info.content.drop offset).take length) :
    Served w h disk (t.onDisk offset length) where
  announced := hs.announced
  unopened ho := by
    rw [show t.opened = false from ho] at hopen
    cases hopen
  backed _ ht := by
    obtain ⟨file', hf', hb⟩ := hs.backed hopen ht
    rw [hf] at hf'
    obtain rfl := Option.some.inj hf'
    refine ⟨file, hf, hb.1, fun k hk hm => ?_⟩
    rcases mem_of_notMem_onDisk hm with hm | ⟨hlo, hhi⟩
    · exact hb.2 k hk hm
    · have hg := congrArg (fun bytes : Bytes => bytes[k - offset]?) ha
      simp only [List.getElem?_take, List.getElem?_drop] at hg
      rw [if_pos (by omega), if_pos (by omega), Nat.add_sub_cancel' hlo] at hg
      exact hg

theorem written {offset length : ℕ} {file : File} (hs : Served w h disk t) (now : FileTime)
    (hopen : t.opened = true) (hf : disk[w.heldPath t]? = some file)
    (hin : offset + length ≤ t.info.content.length)
    (hd : disk'[w.heldPath t]? =
      some ⟨overwrite file.content t.info.content offset length, now⟩) :
    Served w h disk' (t.onDisk offset length) where
  announced := hs.announced
  unopened ho := by
    rw [show t.opened = false from ho] at hopen
    cases hopen
  backed _ ht := by
    obtain ⟨file', hf', hb⟩ := hs.backed hopen ht
    rw [hf] at hf'
    obtain rfl := Option.some.inj hf'
    refine ⟨_, hd, ?_, fun k hk hm => ?_⟩
    · simp only [overwrite, List.length_map, List.length_range]
      exact max_le hb.1 hin
    · have hk : k < t.info.content.length := hk
      by_cases hrange : offset ≤ k ∧ k < offset + length
      · exact getElem?_overwrite_inside hin hrange.1 hrange.2
      · have hg := hb.2 k hk ((mem_of_notMem_onDisk hm).resolve_right hrange)
        have hlen : k < file.content.length := by
          by_contra hge
          rw [List.getElem?_eq_none (not_lt.mp hge), List.getElem?_eq_getElem hk] at hg
          cases hg
        exact (getElem?_overwrite_outside hlen hrange).trans hg

theorem flagged (hs : Served w h disk t) {u : Torrent} (hi : u.info = t.info)
    (hp : u.savePath = t.savePath) (ho : u.opened = t.opened) (hm : u.missing = t.missing) :
    Served w h disk u := by
  have hh : w.heldPath u = w.heldPath t := by rw [World.heldPath, World.heldPath, hi, hp]
  constructor
  · rw [hh, hi]
    exact hs.announced
  · rw [ho, hi, hm]
    exact hs.unopened
  · rw [ho, hh]
    intro hop ht
    obtain ⟨file, hf, hb⟩ := hs.backed hop ht
    refine ⟨file, hf, ?_⟩
    rw [Torrent.Backed, hi, hm]
    exact hb

end Served

def waitingAlerts (n : Node) : List Alert :=
  n.alerts ++ match n.pc with
    | .process alerts => alerts
    | _ => []

/-- Every flush alerted of is of a torrent that is all on disk. -/
def FlushesWhole (alerts : List Alert) (s : Session) : Prop :=
  ∀ alert ∈ alerts, alert.kind = .cacheFlushed → alert.handle < s.nextHandle ∧
    ∀ t ∈ s.torrents, t.handle = alert.handle → t.complete = true

namespace FlushesWhole

variable {alerts : List Alert} {s : Session}

theorem reshaped (hf : FlushesWhole alerts n.replica.session) (hr : Reshaped w n e s) :
    FlushesWhole alerts s := by
  intro alert ha hk
  obtain ⟨hlt, hc⟩ := hf alert ha hk
  cases hr with
  | kept sub next => exact ⟨next ▸ hlt, fun t ht he => hc t (sub t ht) he⟩
  | @modified handle f gentle =>
    refine ⟨hlt, fun t ht he => ?_⟩
    obtain ⟨u, hu, rfl⟩ := Session.mem_modify ht
    split at he
    · next hh =>
      rw [gentle.handle] at he
      rw [if_pos hh]
      exact gentle.complete u (hc u hu he)
    · next hh =>
      rw [if_neg hh]
      exact hc u hu he
  | @added v torrent =>
    refine ⟨lt_of_lt_of_le hlt nextHandle_applied, fun t ht he => ?_⟩
    rcases torrents_applied w n.replica v torrent with
      ⟨left, htor, -, hleft⟩ | ⟨-, hold⟩
    · rw [htor, List.mem_append, List.mem_singleton] at ht
      rcases ht with ht | rfl
      · exact hc t (hleft t ht).1 he
      · exact absurd he hlt.ne'
    · exact hc t (hold t ht).1 he

end FlushesWhole

/-- An alert that waits was waiting before, or libtorrent has it to make and
queues it just now. -/
theorem Stepped.alerted (hs : Stepped w n e m) {alert : Alert}
    (ha : alert ∈ SyncFs.waitingAlerts m) :
    alert ∈ SyncFs.waitingAlerts n ∨
      (e = .post alert.kind alert.handle ∧ alert.timestamp = n.steady) ∧
        mayPost n.replica.session alert.kind alert.handle = true := by
  cases hs with
  | tick | directory | localWrite | localDelete | ltOpen | ltVerify | ltWrite | ltState => exact .inl ha
  | post may =>
    simp only [SyncFs.waitingAlerts, List.mem_append, List.mem_singleton] at ha ⊢
    rcases ha with (ha | rfl) | ha
    · exact .inl (.inl ha)
    · exact .inr ⟨⟨rfl, rfl⟩, may⟩
    · exact .inl (.inr ha)
  | pop hpc | processed hpc | clear hpc | send hpc | idle hpc | list hpc | nothing hpc
  | repair hpc =>
    simp only [SyncFs.waitingAlerts, hpc, sendChanges, listChanges, sendRepairs] at ha ⊢
    exact .inl (by simpa using ha)
  | process hpc =>
    simp only [SyncFs.waitingAlerts, hpc, List.mem_append, List.mem_cons] at ha ⊢
    exact .inl (ha.imp_right .inr)
  | test hpc =>
    left
    rw [SyncFs.waitingAlerts, hpc]
    cases hr : n.alertReady <;> simpa [SyncFs.waitingAlerts, hr] using ha
  | top hpc =>
    left
    rw [SyncFs.waitingAlerts, hpc]
    rw [SyncFs.waitingAlerts, beginPass] at ha
    split at ha <;> simpa using ha
  | round hpc =>
    left
    rw [SyncFs.waitingAlerts, hpc]
    rw [SyncFs.waitingAlerts] at ha
    split at ha <;> simpa [publishState] using ha
  | @receive v hpc =>
    left
    rw [SyncFs.waitingAlerts, hpc]
    rw [SyncFs.waitingAlerts, takeIn] at ha
    split at ha <;> simpa using ha

theorem Stepped.waitingAlerts (hs : Stepped w n e m) {alert : Alert}
    (ha : alert ∈ SyncFs.waitingAlerts m) :
    alert ∈ SyncFs.waitingAlerts n ∨ mayPost n.replica.session alert.kind alert.handle = true :=
  (hs.alerted ha).imp_right And.right

structure Serving (w : World) (h : History Node Event) (n : Node) : Prop where
  tidy : Tidy w n.replica.session
  recalls : Recalls (lastApplied w h) n.replica
  served : ∀ t ∈ n.replica.session.torrents, Served w h n.replica.disk t
  flushes : FlushesWhole (waitingAlerts n) n.replica.session

theorem flushes_step (hs : Serving w h n) (hst : Stepped w n e m) (hl : m.pc ≠ .stopped) :
    FlushesWhole (waitingAlerts m) m.replica.session := by
  refine FlushesWhole.reshaped (fun alert ha hk => ?_) (hst.reshaped hl)
  rcases hst.waitingAlerts ha with ha | hmay
  · exact hs.flushes alert ha hk
  · rw [hk] at hmay
    obtain ⟨t, hf, hc⟩ := (Option.any_eq_true _ _).mp hmay
    obtain ⟨ht, hh⟩ := Session.mem_of_find hf
    refine ⟨hh ▸ hs.tidy.below t ht, fun u hu he => ?_⟩
    rw [hs.tidy.distinct u hu t ht (he.trans hh.symm)]
    exact (Bool.and_eq_true_iff.mp hc).2

theorem Served.other (hs : Served w h n.replica.disk t) (he : ∀ v, e ≠ .receive (some v)) :
    Served w ((n, e) :: h) n.replica.disk t := by
  refine hs.later fun v hv => ?_
  rw [appliedBy_eq_none he] at hv
  cases hv

/-- A local write that does not tamper leaves an opened torrent what it has on disk. -/
theorem backed_of_localWrite {path : Path} {file : File}
    (hf : tampers w n (.localWrite path file) path = false) (ht : t ∈ n.replica.session.torrents)
    (hs : w.spot t = path) (ho : t.opened = true) : t.Backed file.content := by
  by_contra hb
  have htam : tampers w n (.localWrite path file) path = true := by
    simp only [tampers, decide_eq_true_eq, Bool.and_eq_true, List.any_eq_true]
    exact ⟨trivial, t, ht, ⟨hs, ho⟩, by simpa using hb⟩
  rw [hf] at htam
  cases htam

theorem unopened_of_localDelete {path : Path} (hf : tampers w n (.localDelete path) path = false)
    (ht : t ∈ n.replica.session.torrents) (hs : w.spot t = path) : t.opened = false := by
  by_contra ho
  have htam : tampers w n (.localDelete path) path = true := by
    simp only [tampers, decide_eq_true_eq, Bool.and_eq_true, List.any_eq_true]
    exact ⟨trivial, t, ht, hs, by simpa using ho⟩
  rw [hf] at htam
  cases htam

theorem served_touch {u : Torrent} {f : Torrent → Torrent} {disk : Disk}
    (hs : Serving w h n) (hu : u ∈ n.replica.session.torrents)
    (he : ∀ v, e ≠ .receive (some v))
    (hd : ∀ p, p ≠ w.heldPath u → disk[p]? = n.replica.disk[p]?)
    (hself : Served w ((n, e) :: h) disk (f u)) :
    ∀ t ∈ (n.replica.session.modify u.handle f).torrents, Served w ((n, e) :: h) disk t := by
  intro t ht
  obtain ⟨x, hx, rfl⟩ := Session.mem_modify ht
  split
  · next hxh =>
    obtain rfl := hs.tidy.distinct x hx u hu hxh
    exact hself
  · next hxh =>
    refine ((hs.served x hx).other he).content ?_
    rw [hd _ fun hp => hxh ?_]
    rw [hs.tidy.single x hx u hu hp]

theorem served_flag {handle : ℕ} {f : Torrent → Torrent} (hs : Serving w h n)
    (he : ∀ v, e ≠ .receive (some v)) (hi : ∀ t, (f t).info = t.info)
    (hp : ∀ t, (f t).savePath = t.savePath) (ho : ∀ t, (f t).opened = t.opened)
    (hm : ∀ t, (f t).missing = t.missing) :
    ∀ t ∈ (n.replica.session.modify handle f).torrents,
      Served w ((n, e) :: h) n.replica.disk t := by
  intro t ht
  obtain ⟨x, hx, rfl⟩ := Session.mem_modify ht
  have hserved := (hs.served x hx).other (e := e) he
  split
  · exact hserved.flagged (hi x) (hp x) (ho x) (hm x)
  · exact hserved

theorem StampsAs.content {r r' : Replica} {path q : Path} {writtenBy : FileTime}
    (hs : StampsAs w r path writtenBy r') :
    (r'.disk[q]?).map File.content = (r.disk[q]?).map File.content := by
  cases hs with
  | absent | edited | kept => rfl
  | stamped =>
    rw [Replica.remembered, Replica.stamped, Tree.getElem?_stamp]
    split
    · rw [Option.map_map]
      rfl
    · rfl

/-- A deletion takes a file with the torrent that serves it. -/
theorem served_erase {r left : Replica} {path : Path} (he : erase w r path = .ok left)
    (hr : ∀ t ∈ r.session.torrents, Sits w t ∧ Served w h r.disk t)
    (hst : ∀ p, tampered w h p = false → path = p ∨ w.destination path ≠ p) :
    ∀ t ∈ left.session.torrents, Sits w t ∧ Served w h left.disk t := by
  obtain ⟨tree, hd, rfl⟩ := erase_ok he
  intro t hleft
  obtain ⟨ht, hgone⟩ := Session.mem_withdraw.mp hleft
  obtain ⟨hsits, hserved⟩ := hr t ht
  refine ⟨hsits, hserved.moved fun _ hta file hf hb => ⟨file, ?_, hb⟩⟩
  have hne : path ≠ w.heldPath t := by
    rintro rfl
    exact hgone t ((Tidy.mem_torrentsAt hsits ht hsits.1).mpr rfl) rfl
  rw [Tree.getElem?_remove hd, if_neg fun hl => (hst _ hta).resolve_left hne (Tree.locate_eq_some hl)]
  exact hf

theorem content_applied {r : Replica} {v : List Bytes} {torrent : TorrentInfo} {q : Path} :
    ((r.applied w v torrent).disk[q]?).map File.content = (r.disk[q]?).map File.content := by
  obtain ⟨left, he, hl⟩ := applied_cases w r v torrent
  rw [he]
  rcases hl with ⟨-, hs⟩ | ⟨-, rfl⟩
  · exact hs.content
  · rfl

theorem served_applied {v : List Bytes} {torrent : TorrentInfo} (hn : HashesName w)
    (hs : Serving w h n) (ha : appliedBy w n e = some v) (ht : torrentOf w v = some torrent)
    (hl : Lands w (announcedPath v) torrent) :
    ∀ t ∈ (n.replica.applied w v torrent).session.torrents,
      Served w ((n, e) :: h) (n.replica.applied w v torrent).disk t := by
  have hlast : lastApplied w ((n, e) :: h) (announcedPath v) = some v := by
    simp [lastApplied, ha]
  have hother : ∀ t ∈ n.replica.session.torrents, w.heldPath t ≠ announcedPath v →
      Served w ((n, e) :: h) (n.replica.applied w v torrent).disk t := by
    intro t hold hne
    refine ((hs.served t hold).later fun u hu => ?_).content content_applied
    rw [ha] at hu
    obtain rfl := Option.some.inj hu
    exact Ne.symm hne
  have hat : ∀ t ∈ n.replica.session.torrents, (t ∈ n.replica.session.torrentsAt w
      (announcedPath v) ↔ w.heldPath t = announcedPath v) :=
    fun t hold => Tidy.mem_torrentsAt (hs.tidy.sits t hold) hold hl.1
  intro t hmem
  rcases torrents_applied w n.replica v torrent with
    ⟨left, htor, -, hleft⟩ | ⟨-, hold⟩
  · rw [htor, List.mem_append, List.mem_singleton] at hmem
    rcases hmem with hmem | rfl
    · obtain ⟨hold, hnot⟩ := hleft t hmem
      exact hother t hold fun he => hnot ((hat t hold).mpr he)
    · constructor
      · rw [(Tidy.sits_added hl).2]
        exact ⟨v, hlast, torrent, ht, rfl, rfl⟩
      · exact fun _ k hk => List.mem_range.mpr hk
      · intro ho
        cases ho
  · obtain ⟨hold, hhash⟩ := hold t hmem
    by_cases hp : w.heldPath t = announcedPath v
    · have hhash := hhash ((hat t hold).mpr hp)
      have hserved := hs.served t hold
      suffices hkept : Served w ((n, e) :: h) n.replica.disk t from hkept.content content_applied
      constructor
      · obtain ⟨u, -, earlier, hload, hsame, hcontent⟩ := hserved.announced
        refine ⟨v, hp ▸ hlast, torrent, ht, hhash.symm, ?_⟩
        rw [← hcontent]
        exact hn _ _ _ _ ht hload (hhash.symm.trans hsame.symm)
      · exact hserved.unopened
      · intro ho hta
        refine hserved.backed ho ((not_tampered_cons hta).2 ?_)
        have hheld := heldAlready_iff.mpr ⟨t, (hat t hold).mpr hp, hhash⟩
        simp [startsAfresh, ha, ht, hheld]
    · exact hother t hold hp

/-- What a message leaves served: a create makes a torrent of its own path, and a
deletion takes the file of no other torrent. -/
theorem served_received (hn : HashesName w) (hs : Serving w h n) {v : List Bytes} {r : Replica}
    (hpc : n.pc = .receive) (hh : HonestCreate w n (.receive (some v)))
    (hrec : Received w v n.clock n.replica (applies w v n.replica) (.ok r)) :
    ∀ t ∈ r.session.torrents, Served w ((n, .receive (some v)) :: h) r.disk t := by
  have hquiet : applies w v n.replica = false → ∀ t ∈ n.replica.session.torrents,
      Sits w t ∧ Served w ((n, .receive (some v)) :: h) n.replica.disk t := by
    intro ha t ht
    refine ⟨hs.tidy.sits t ht, (hs.served t ht).later fun u hu => ?_⟩
    rw [appliedBy_receive hpc, ha] at hu
    cases hu
  have hstray : ∀ path ∈ deletedPaths v, ∀ p,
      tampered w ((n, .receive (some v)) :: h) p = false → path = p ∨ w.destination path ≠ p := by
    intro path hd p ht
    obtain ⟨htam, -⟩ := not_tampered_cons ht
    rw [tampers, List.any_eq_false] at htam
    have hnot := htam path hd
    simp only [decide_eq_true_eq, not_and_or, ne_eq, not_not] at hnot
    exact hnot
  generalize hb : applies w v n.replica = b at hrec hquiet
  cases hrec with
  | rejected | refused | state => exact fun t ht => (hquiet rfl t ht).2
  | @removed path left removes erased =>
    have hd : path ∈ deletedPaths v := by simp [deletedPaths, removes]
    exact fun t ht => (served_erase erased (hquiet rfl) (hstray path hd) t ht).2
  | @applied torrent _ _ loads _ =>
    exact served_applied hn hs (appliedBy_eq_some.mpr ⟨hpc, rfl, hb⟩) loads
      (hh.receive hpc hb torrent loads)
  | digest addressed adopted _ =>
    have ha := adopt_preserves
      (P := fun r => ∀ t ∈ r.session.torrents,
        Sits w t ∧ Served w ((n, .receive (some v)) :: h) r.disk t)
      (hquiet rfl) (fun _ _ _ _ hr => hr)
      (fun r left path moment hm hr hx => by
        have hd : path ∈ deletedPaths v := by
          rw [deletedPaths, if_pos addressed, List.mem_append]
          exact .inr (Std.ExtTreeMap.mem_keys.mpr (PathMap.mem_iff.mpr ⟨moment, hm⟩))
        have hleft := served_erase (r := r.unlisted path moment) hx hr (hstray path hd)
        exact hleft)
      adopted
    exact fun t ht => (ha t ht).2

theorem served_step (hn : HashesName w) (hs : Serving w h n) (hst : Stepped w n e m)
    (hl : m.pc ≠ .stopped) (hh : HonestCreate w n e) :
    ∀ t ∈ m.replica.session.torrents, Served w ((n, e) :: h) m.replica.disk t := by
  have hself : (∀ v, e ≠ .receive (some v)) →
      ∀ t ∈ n.replica.session.torrents, Served w ((n, e) :: h) n.replica.disk t :=
    fun he t ht => (hs.served t ht).other he
  have hspot : ∀ t ∈ n.replica.session.torrents, w.spot t = w.heldPath t :=
    fun t ht => (hs.tidy.sits t ht).2.2
  cases hst with
  | tick | directory | post | test | pop | processed | clear | send | idle | list | nothing | repair =>
    exact hself (by simp)
  | @localWrite path file =>
    intro t ht
    refine (hself (by simp) t ht).moved fun ho hta old hf hb => ?_
    obtain ⟨htam, -⟩ := not_tampered_cons hta
    by_cases hp : path = w.heldPath t
    · subst hp
      exact ⟨file, by simp, backed_of_localWrite htam ht (hspot t ht) ho⟩
    · exact ⟨old, by simp [hp, hf], hb⟩
  | localDelete path =>
    intro t ht
    refine (hself (by simp) t ht).moved fun ho hta old hf hb => ?_
    obtain ⟨htam, -⟩ := not_tampered_cons hta
    by_cases hp : path = w.heldPath t
    · subst hp
      rw [unopened_of_localDelete htam ht (hspot t ht)] at ho
      cases ho
    · exact ⟨old, by simp [hp, hf], hb⟩
  | @ltOpen handle u found =>
    obtain ⟨hu, -⟩ := Session.mem_of_find found
    refine served_touch hs hu (by simp) (fun p hp => ?_) ?_
    · rw [getElem?_touch, hspot u hu, if_neg (Ne.symm hp)]
    · refine ((hs.served u hu).other (by simp)).opened n.fileClock ?_
      rw [getElem?_touch, hspot u hu, if_pos rfl]
  | @ltVerify handle offset length u file found present opened agrees =>
    obtain ⟨hu, -⟩ := Session.mem_of_find found
    rw [hspot u hu] at present
    exact served_touch hs hu (by simp) (fun _ _ => rfl)
      (((hs.served u hu).other (by simp)).verified opened present agrees)
  | @ltWrite handle offset length u file found present opened inside =>
    obtain ⟨hu, -⟩ := Session.mem_of_find found
    rw [hspot u hu] at present
    refine served_touch hs hu (by simp) (fun p hp => ?_)
      (((hs.served u hu).other (by simp)).written n.fileClock opened present inside ?_)
    · rw [getElem?_touch, hspot u hu, if_neg (Ne.symm hp)]
    · rw [getElem?_touch, hspot u hu, if_pos rfl]
  | ltState handle state =>
    exact served_flag hs (by simp) (fun _ => rfl) (fun _ => rfl) (fun _ => rfl) fun _ => rfl
  | top =>
    rw [beginPass]
    split <;> exact hself (by simp)
  | round => split <;> exact hself (by simp)
  | @process alert rest =>
    have hq := SyncFs.processed w n alert
    change ∀ t ∈ (processAlert w n alert).session.torrents,
      Served w _ (processAlert w n alert).disk t
    generalize processAlert w n alert = r at hq
    cases hq with
    | skipped => exact hself (by simp)
    | finished =>
      exact served_flag hs (by simp) (fun _ => rfl) (fun _ => rfl) (fun _ => rfl) fun _ => rfl
    | flushed _ _ stamps =>
      rw [stamps.session]
      exact fun t ht => (hself (by simp) t ht).content stamps.content
  | @receive v hpc =>
    obtain ⟨r, he, hrec⟩ := takeIn_live hl
    rw [he]
    exact served_received hn hs hpc hh hrec

theorem Serving.step (hn : HashesName w) (hs : Serving w h n) (hh : HonestCreate w n e)
    (hst : Stepped w n e m) (hl : m.pc ≠ .stopped) : Serving w ((n, e) :: h) m where
  tidy := hs.tidy.reshaped hh (hst.reshaped hl)
  recalls := hs.recalls.step hst hl
  served := served_step hn hs hst hl hh
  flushes := flushes_step hs hst hl

/-- What libtorrent has all of, and nobody has tampered with, is the content announced. -/
theorem Serving.content (hs : Serving w h n) (ht : t ∈ n.replica.session.torrents)
    (hc : t.complete = true) (hta : tampered w h (w.heldPath t) = false) :
    (n.replica.disk[w.heldPath t]?).map File.content = some t.info.content := by
  obtain ⟨file, hf, hb⟩ := (hs.served t ht).backed (Bool.and_eq_true_iff.mp hc).1 hta
  rw [hf, Option.map_some, hb.eq_of_complete hc]

theorem Serving.coversItsOwn (hn : HashesName w) (hs : Serving w h n)
    (hc : StampsWhole w h n e) : CoversItsOwn w h n e := by
  intro call hcall hrec o ho
  obtain ⟨hta, hwhole⟩ := hc.2 call hcall hrec (Option.isSome_iff_exists.mpr ⟨o, ho⟩)
  rcases stampCall_cases hcall with ⟨alert, rest, t, hpc, rfl, hk, hfind, rfl⟩ |
    ⟨v, torrent, hpc, rfl, ha, hload, hheld, rfl⟩
  · obtain ⟨ht, hh⟩ := Session.mem_of_find hfind
    have hwait : alert ∈ waitingAlerts n := by simp [waitingAlerts, hpc]
    have hcomplete := (hs.flushes alert hwait hk).2 t ht hh
    have hkey := (hs.tidy.sits t ht).1
    obtain ⟨v, hv, rfl⟩ := hs.recalls.origin _ _ ho
    obtain ⟨u, hu, torrent, hload, -, hcontent⟩ := (hs.served t ht).announced
    rw [hv] at hu
    obtain rfl := Option.some.inj hu
    rw [lastApplied_of_none (appliedBy_eq_none (by simp))]
    refine ⟨v, hv, rfl, torrent, hload, ?_⟩
    rw [Tree.find_key hkey, hs.content ht hcomplete hta, hcontent]
  · have happ : appliedBy w n (.receive (some v)) = some v :=
      appliedBy_eq_some.mpr ⟨hpc, rfl, ha⟩
    obtain ⟨hkey, -, -⟩ := hc.1 v happ torrent hload
    obtain ⟨t, hat, hhash⟩ := heldAlready_iff.mp hheld
    have ht := (Session.mem_torrentsAt.mp hat).1
    have hp := (Tidy.mem_torrentsAt (hs.tidy.sits t ht) ht hkey).mp hat
    have hcontent := hs.content ht (hwhole v happ t hat) (hp ▸ hta)
    obtain ⟨_, _, earlier, hload', hsame, he⟩ := (hs.served t ht).announced
    have ho : some (originOf v) = some o := by
      rw [← Option.mem_def.mp ho]
      simp [Replica.serving, Replica.awaiting]
    refine ⟨v, by simp [lastApplied, happ], Option.some.inj ho, torrent, hload, ?_⟩
    change (n.replica.find w (announcedPath v)).map File.content = _
    rw [Tree.find_key hkey, ← hp, hcontent, ← he]
    exact congrArg some (hn _ _ _ _ hload' hload (hsame.trans hhash))

theorem serving_start (disk : Disk) (clock : TimePoint) (steady : SteadyTime) :
    Serving w [] (.start disk clock steady) := by
  refine ⟨?_, ?_, ?_, ?_⟩
  · constructor <;> simp [Node.start, Session.empty]
  · constructor <;> simp [Node.start]
  · simp [Node.start, Session.empty]
  · simp [FlushesWhole, waitingAlerts, Node.start]

/-- In a run whose creates land where they say and whose origin stamps find
whole files nobody has tampered with, every origin stamp is on the content it
was announced with. -/
theorem coversItsOwn_run {disk : Disk} {clock : TimePoint} {steady : SteadyTime}
    (hn : HashesName w) (hr : Run (step w) (.start disk clock steady) h n)
    (ha : Always (StampsWhole w) h) : Always (CoversItsOwn w) h := by
  refine live_always (I := Serving w) (serving_start disk clock steady) (fun _ _ _ _ hI hc hst hl => hI.step hn hc.1 hst hl)
    (fun _ _ _ hI hc => hI.coversItsOwn hn hc) (fun h n e hp call hcall => ?_) hr ha
  rcases stampCall_cases hcall with ⟨_, _, _, hpc, -⟩ | ⟨_, _, hpc, -⟩ <;>
  · rw [hp] at hpc
    cases hpc

instance (h : History Node Event) (n : Node) (e : Event) : Decidable (CoversItsOwn w h n e) := by
  unfold CoversItsOwn
  infer_instance

instance (h : History Node Event) (n : Node) (e : Event) : Decidable (StampsWhole w h n e) := by
  unfold StampsWhole
  infer_instance

private theorem foldl_digits_injective {b c : Bytes}
    (h : b.foldl (fun n d => n * 257 + d.toNat + 1) 0 =
      c.foldl (fun n d => n * 257 + d.toNat + 1) 0) : b = c := by
  induction b using List.reverseRecOn generalizing c with
  | nil =>
    cases c using List.reverseRecOn with
    | nil => rfl
    | append_singleton c y => simp at h
  | append_singleton b x ih =>
    cases c using List.reverseRecOn with
    | nil => simp at h
    | append_singleton c y =>
      simp only [List.foldl_append, List.foldl_cons, List.foldl_nil] at h
      have hx := x.toNat_lt
      have hy := y.toNat_lt
      rw [ih (c := c) (by omega), UInt8.toNat_inj.mp (by omega : x.toNat = y.toNat)]

theorem sampleWorld_hashesName : HashesName sampleWorld := by
  intro b c t u hb hc hh
  obtain ⟨x, hx, rfl⟩ := Option.map_eq_some_iff.mp hb
  obtain ⟨y, hy, rfl⟩ := Option.map_eq_some_iff.mp hc
  rw [foldl_digits_injective hh, hy] at hx
  obtain rfl := Option.some.inj hx
  rfl

def stampedTwice : List Event :=
  pass false (some (sampleCreate "xy" 900)) ++
    [.ltOpen 0, .ltWrite 0 0 2, .post .torrentFinished 0] ++ drainPass 1 false none ++
    [.post .cacheFlushed 0] ++ drainPass 1 true none ++
    pass false (some (sampleCreate "xy" 950))

theorem stampedTwice_coversItsOwn :
    ∃ h n, Run (step sampleWorld) (.start ∅ 1000 0) h n ∧
      n.replica.former[samplePath]? = some (toFileTime 950) ∧
      Always (CoversItsOwn sampleWorld) h := by
  obtain ⟨h, n, hr, hf, ha⟩ := exists_run (step sampleWorld) (.start ∅ 1000 0) stampedTwice
    (fun h n => n.replica.former[samplePath]? = some (toFileTime 950) ∧
      Always (StampsWhole sampleWorld) h) (by decide +kernel)
  exact ⟨h, n, hr, hf, coversItsOwn_run sampleWorld_hashesName hr ha⟩

def WritesOnTime (n : Node) : Event → Prop
  | .localWrite _ file => file.mtime = n.fileClock
  | _ => True

instance (n : Node) : (e : Event) → Decidable (WritesOnTime n e)
  | .localWrite _ file => inferInstanceAs (Decidable (file.mtime = n.fileClock))
  | .tick _ | .directory .. | .localDelete _ | .ltOpen _ | .ltVerify .. | .ltWrite .. | .ltState .. | .post ..
  | .advance | .woken _ | .round _ | .receive _ => inferInstanceAs (Decidable True)

/-- A whole transfer, a local edit, and only then the alert of its flush. -/
def editedBeforeFlush : List Event :=
  pass false (some (sampleCreate "xy" 900)) ++
    [.ltOpen 0, .ltWrite 0 0 2, .post .torrentFinished 0] ++ drainPass 1 false none ++
    [.tick 10, .localWrite samplePath (sampleFile "zz" 1010), .tick 10, .post .cacheFlushed 0] ++
    List.replicate 4 .advance

theorem editedBeforeFlush_not_coversItsOwn :
    ∃ h n, Run (step sampleWorld) (.start ∅ 1000 0) h n ∧
      Always (fun _ n e => WritesOnTime n e) h ∧
      n.replica.disk[samplePath]? = some (sampleFile "zz" 900) ∧
      ¬ Always (CoversItsOwn sampleWorld) h :=
  exists_run (step sampleWorld) (.start ∅ 1000 0) editedBeforeFlush
    (fun h n => Always (fun _ n e => WritesOnTime n e) h ∧
      n.replica.disk[samplePath]? = some (sampleFile "zz" 900) ∧
      ¬ Always (CoversItsOwn sampleWorld) h) (by decide +kernel)

end SyncFs
