import SyncFs.TidySessions

/-!
# One path, one torrent, one memory of it

The session, the record of what was applied and the cache of announcements are
written in different places and under different spellings of a path. They
agree all the same: what takes a torrent out of the session takes its path out
of both maps, and what puts one in fills both.
-/

namespace SyncFs

open CharConversions LabelledRuns

section

variable (w : World) (named : ℕ → Path × Bytes)

/-- A well-formed message of a peer: it names listing keys, and a torrent lands
at the path it is announced for and has an info hash of that path and content. -/
structure Honest (v : List Bytes) : Prop where
  removes : ∀ p ∈ removedPath v, p.IsKey
  creates : verbOf (part v 0) = ascii "create" → ∀ torrent ∈ torrentOf w v,
    Lands w (announcedPath v) torrent ∧ named torrent.infoHash = (announcedPath v, torrent.content)
  deletes : verbOf (part v 0) = ascii "digest" →
    ∀ e ∈ (decodeTombstones (part v 2)).toList, e.1.IsKey

/-- A torrent with what was applied for it and the announcement it came by. -/
inductive Memory : List Torrent → Option Applied → Option Bytes → Prop
  | nothing : Memory [] none none
  | torrent {t : Torrent} {applied : Applied} {announcement : Bytes} {info : TorrentInfo}
    (content : applied.content = t.info.infoHash)
    (loads : w.loadTorrentBuffer announcement = some info)
    (hash : info.infoHash = t.info.infoHash) :
    Memory [t] (some applied) (some announcement)

/-- Every path is remembered by all three or by none. -/
structure OneMemory (r : Replica) : Prop where
  numbered : Numbered r.session
  sits : ∀ t ∈ r.session.torrents, Sits w t
  named : ∀ t ∈ r.session.torrents, named t.info.infoHash = (w.heldPath t, t.info.content)
  memory : ∀ p : Path, p.IsKey → Memory w (r.session.torrentsAt w p) r.repairs.applied[p]?
    r.repairs.announcements[p]?

end

variable {w : World} {named : ℕ → Path × Bytes} {r r' : Replica} {s : Session} {p q : Path}

namespace Session

theorem removeStaleTorrents_stale {added : TorrentInfo}
    (h : ∀ u ∈ s.torrentsAt w p, u.info.infoHash ≠ added.infoHash) :
    removeStaleTorrents w s p added = (s.withdraw w p, false) := by
  have hf : ∀ (us : List Torrent) (s : Session), (∀ u ∈ us, u.info.infoHash ≠ added.infoHash) →
      us.foldl (fun (a : Session × Bool) u =>
        if u.info.infoHash = added.infoHash then (a.1, true)
        else (a.1.removeTorrent u.handle, a.2)) (s, false) =
        (us.foldl (fun s u => s.removeTorrent u.handle) s, false) := by
    intro us
    induction us with
    | nil => exact fun _ _ => rfl
    | cons u us ih =>
      intro s h
      obtain ⟨hu, hus⟩ := List.forall_mem_cons.mp h
      rw [List.foldl_cons, if_neg hu, ih _ hus, List.foldl_cons]
  exact hf _ s h

theorem removeStaleTorrents_held {added : TorrentInfo} {t : Torrent}
    (h : s.torrentsAt w p = [t]) (he : t.info.infoHash = added.infoHash) :
    removeStaleTorrents w s p added = (s, true) := by
  rw [removeStaleTorrents, h, List.foldl_cons, List.foldl_nil]
  exact if_pos he

theorem torrentsAt_append {us : List Torrent} {t : Torrent} (hs : s.torrents = us ++ [t])
    (hp : p.IsKey) (hq : q.IsKey) (ht : w.join t.savePath t.info = p.lexicallyNormal) :
    s.torrentsAt w q = (us.filter fun u => w.join u.savePath u.info = q.lexicallyNormal) ++
      if p = q then [t] else [] := by
  rw [torrentsAt, hs, List.filter_append]
  refine congrArg (List.append _) ?_
  split
  · next he => rw [List.filter_singleton, ht, he, decide_eq_true rfl, cond_true]
  · next hne =>
    refine List.filter_eq_nil_iff.mpr fun u hu hj => hne ?_
    obtain rfl := List.mem_singleton.mp hu
    exact hp.eq_of_lexicallyNormal hq (ht.symm.trans (of_decide_eq_true hj))

end Session

theorem Memory.map {ts : List Torrent} {applied : Option Applied} {announcement : Option Bytes}
    (h : Memory w ts applied announcement) {f : Torrent → Torrent} (hf : ∀ t, (f t).info = t.info) :
    Memory w (ts.map f) applied announcement := by
  cases h with
  | nothing => exact .nothing
  | torrent content loads hash => exact .torrent (by rw [hf, content]) loads (by rw [hf, hash])

theorem Memory.eq_singleton {ts : List Torrent} {applied : Option Applied}
    {announcement : Option Bytes} (h : Memory w ts applied announcement) {t : Torrent}
    (ht : t ∈ ts) : ts = [t] := by
  cases h with
  | nothing => cases ht
  | torrent =>
    obtain rfl := List.mem_singleton.mp ht
    rfl

namespace OneMemory

theorem congr (h : OneMemory w named r) (hs : r'.session = r.session)
    (ha : r'.repairs.applied = r.repairs.applied)
    (hb : r'.repairs.announcements = r.repairs.announcements) : OneMemory w named r' where
  numbered := hs ▸ h.numbered
  sits := hs ▸ h.sits
  named := hs ▸ h.named
  memory p hp := by
    rw [hs, ha, hb]
    exact h.memory p hp

theorem modified (h : OneMemory w named r) {handle : ℕ} {f : Torrent → Torrent} (hf : Gentle f)
    (hs : r'.session = r.session.modify handle f) (ha : r'.repairs = r.repairs) :
    OneMemory w named r' where
  numbered := hs ▸ h.numbered.modify hf
  sits t ht := by
    rw [hs] at ht
    obtain ⟨u, hu, -, -, hi, hp⟩ := Session.mem_modify_gentle hf ht
    have hsame : w.heldPath t = w.heldPath u ∧ w.spot t = w.spot u := by
      rw [World.heldPath, World.heldPath, World.spot, World.spot, hi, hp]
      exact ⟨rfl, rfl⟩
    rw [Sits, hsame.1, hsame.2, hi, hp]
    exact h.sits u hu
  named t ht := by
    rw [hs] at ht
    obtain ⟨u, hu, -, -, hi, hp⟩ := Session.mem_modify_gentle hf ht
    rw [World.heldPath, hi, hp]
    exact h.named u hu
  memory p hp := by
    rw [hs, ha, Session.torrentsAt_modify hf]
    refine (h.memory p hp).map fun t => ?_
    split
    · exact hf.info t
    · rfl

/-- A path withdrawn from the session and forgotten by the repairs is
remembered by nothing, and every other as before. -/
theorem withdrawn (h : OneMemory w named r) (hp : p.IsKey)
    (hs : r'.session = r.session.withdraw w p) (ha : r'.repairs = r.repairs.forget p) :
    OneMemory w named r' where
  numbered := hs ▸ h.numbered.withdraw
  sits t ht := h.sits t (Session.mem_withdraw.mp (hs ▸ ht)).1
  named t ht := h.named t (Session.mem_withdraw.mp (hs ▸ ht)).1
  memory q hq := by
    rw [hs, ha, Session.torrentsAt_withdraw h.numbered.apart hp hq, Repairs.forget,
      PathMap.getElem?_erase, PathMap.getElem?_erase]
    split
    · exact .nothing
    · exact h.memory q hq

theorem heldPath_eq (h : OneMemory w named r) {torrent : TorrentInfo} {t : Torrent}
    (hn : named torrent.infoHash = (p, torrent.content)) (ht : t ∈ r.session.torrents)
    (he : t.info.infoHash = torrent.infoHash) :
    w.heldPath t = p ∧ t.info.content = torrent.content := by
  have hnamed := h.named t ht
  rw [he, hn] at hnamed
  exact Prod.mk.inj hnamed.symm

/-- The torrents an applied create leaves, the stale ones removed first. -/
theorem torrents_applied_eq {v : List Bytes} {torrent : TorrentInfo} :
    (r.applied w v torrent).session.torrents =
      ((removeStaleTorrents w r.session (announcedPath v) torrent).1.addTorrent torrent
        (w.complete (savePathFor (announcedPath v) torrent.filePath))).torrents := by
  rw [session_applied]
  rfl

/-- A torrent of the announced info hash that serves the path stays as it is. -/
theorem torrents_applied_held (h : OneMemory w named r) {v : List Bytes} {torrent : TorrentInfo}
    (hk : (announcedPath v).IsKey) (ht : t ∈ r.session.torrentsAt w (announcedPath v))
    (he : t.info.infoHash = torrent.infoHash) :
    (r.applied w v torrent).session.torrents = r.session.torrents ∧
      r.session.torrentsAt w (announcedPath v) = [t] := by
  have hone := (h.memory (announcedPath v) hk).eq_singleton ht
  have hany : r.session.torrents.any (·.info.infoHash = torrent.infoHash) = true :=
    List.any_eq_true.mpr ⟨t, (Session.mem_torrentsAt.mp ht).1, decide_eq_true he⟩
  rw [torrents_applied_eq, Session.removeStaleTorrents_held hone he, Session.addTorrent,
    if_pos hany]
  exact ⟨rfl, hone⟩

/-- Where no torrent at the path has the announced info hash, none anywhere has,
and the new one takes the place of those that were there. -/
theorem torrents_applied_new (h : OneMemory w named r) {v : List Bytes} {torrent : TorrentInfo}
    (hk : (announcedPath v).IsKey)
    (hn : named torrent.infoHash = (announcedPath v, torrent.content))
    (hstale : ∀ u ∈ r.session.torrentsAt w (announcedPath v), u.info.infoHash ≠ torrent.infoHash) :
    (r.applied w v torrent).session.torrents =
      (r.session.withdraw w (announcedPath v)).torrents ++ [w.added r.session v torrent] := by
  have hnew : ¬ (r.session.withdraw w (announcedPath v)).torrents.any
      (·.info.infoHash = torrent.infoHash) := by
    intro hany
    obtain ⟨u, hu, he⟩ := List.any_eq_true.mp hany
    have hu := (Session.mem_withdraw.mp hu).1
    have he := of_decide_eq_true he
    refine hstale u ?_ he
    exact (Tidy.mem_torrentsAt (h.sits u hu) hu hk).mpr (h.heldPath_eq hn hu he).1
  rw [torrents_applied_eq, Session.removeStaleTorrents_stale hstale, Session.addTorrent,
    if_neg hnew, World.added, Session.newTorrent, Session.newTorrent,
    Session.nextHandle_withdraw]

theorem serves_applied (h : OneMemory w named r) {v : List Bytes} {torrent : TorrentInfo}
    (hl : Lands w (announcedPath v) torrent)
    (hn : named torrent.infoHash = (announcedPath v, torrent.content)) :
    ∃ t, t.info.infoHash = torrent.infoHash ∧ t.info.content = torrent.content ∧
      (∀ u ∈ (r.applied w v torrent).session.torrents, u = t ∨ u ∈ r.session.torrents) ∧
      (t ∈ r.session.torrents ∨ t = w.added r.session v torrent) ∧
      ∀ q : Path, q.IsKey → (r.applied w v torrent).session.torrentsAt w q =
        if announcedPath v = q then [t] else r.session.torrentsAt w q := by
  by_cases hheld : ∃ t ∈ r.session.torrentsAt w (announcedPath v),
      t.info.infoHash = torrent.infoHash
  · obtain ⟨t, ht, he⟩ := hheld
    have hmem := (Session.mem_torrentsAt.mp ht).1
    obtain ⟨htor, hone⟩ := h.torrents_applied_held hl.1 ht he
    refine ⟨t, he, (h.heldPath_eq hn hmem he).2, fun u hu => .inr (htor ▸ hu), .inl hmem,
      fun q _ => ?_⟩
    rw [Session.torrentsAt, htor]
    split
    · next hq => rw [← hq, ← hone, Session.torrentsAt]
    · rfl
  · have htor := h.torrents_applied_new hl.1 hn fun u hu he => hheld ⟨u, hu, he⟩
    refine ⟨w.added r.session v torrent, rfl, rfl, fun u hu => ?_, .inr rfl, fun q hq => ?_⟩
    · rw [htor, List.mem_append, List.mem_singleton] at hu
      exact hu.symm.imp_right fun hu => (Session.mem_withdraw.mp hu).1
    · have hw := Session.torrentsAt_withdraw (w := w) h.numbered.apart hl.1 hq
      rw [Session.torrentsAt] at hw
      rw [Session.torrentsAt_append htor hl.1 hq hl.2.1, hw]
      split
      · rfl
      · exact List.append_nil _

theorem applied (h : OneMemory w named r) {v : List Bytes} {torrent : TorrentInfo}
    (ht : torrentOf w v = some torrent) (hl : Lands w (announcedPath v) torrent)
    (hn : named torrent.infoHash = (announcedPath v, torrent.content)) :
    OneMemory w named (r.applied w v torrent) := by
  obtain ⟨t, he, hc, hsub, hnew, hat⟩ := h.serves_applied hl hn
  obtain ⟨left, hleft, -⟩ := applied_cases w r v torrent
  have hsits : Sits w t ∧ w.heldPath t = announcedPath v := by
    rcases hnew with ht | rfl
    · exact ⟨h.sits t ht, (h.heldPath_eq hn ht he).1⟩
    · exact Tidy.sits_added hl
  constructor
  · exact h.numbered.applied
  · intro u hu
    rcases hsub u hu with rfl | hu
    · exact hsits.1
    · exact h.sits u hu
  · intro u hu
    rcases hsub u hu with rfl | hu
    · rw [he, hn, hsits.2, hc]
    · exact h.named u hu
  · intro q hq
    rw [hat q hq, hleft]
    dsimp only
    rw [Repairs.follow, PathMap.getElem?_insert, PathMap.getElem?_insert]
    split
    · exact .torrent he.symm ht he.symm
    · exact h.memory q hq

/-- A message of an honest peer leaves every path remembered by all three or by
none. -/
theorem received (h : OneMemory w named r) {v : List Bytes} {clock : TimePoint} {b : Bool}
    (hv : Honest w named v) (hr : Received w v clock r b (.ok r')) : OneMemory w named r' := by
  cases hr with
  | rejected => exact h
  | removed removes erased =>
    obtain ⟨disk, -, rfl⟩ := erase_ok erased
    exact h.withdrawn (hv.removes _ removes) rfl rfl
  | refused => exact h.congr rfl rfl rfl
  | applied creates _ loads _ =>
    obtain ⟨hl, hn⟩ := hv.creates creates _ loads
    exact h.applied loads hl hn
  | state => exact h.congr rfl rfl rfl
  | digest addressed adopted pending =>
    have ha := adopt_preserves (P := OneMemory w named) h
      (fun r path moment _ hr => hr.congr rfl rfl rfl)
      (fun r left path moment hm hr he => by
        obtain ⟨disk, -, rfl⟩ := erase_ok he
        have hk := hv.deletes addressed _ (PathMap.mem_toList.mpr hm)
        exact hr.withdrawn hk rfl rfl)
      adopted
    exact ha.congr rfl rfl rfl

end OneMemory

def messageOf : Event → Option (List Bytes)
  | .receive message => message
  | _ => none

def HonestStep (w : World) (named : ℕ → Path × Bytes) (e : Event) : Prop :=
  ∀ v ∈ messageOf e, Honest w named v

theorem OneMemory.step {n m : Node} {e : Event} (h : OneMemory w named n.replica)
    (hh : HonestStep w named e) (hs : Stepped w n e m) (hl : m.pc ≠ .stopped) :
    OneMemory w named m.replica := by
  cases hs with
  | tick | post | test | pop | processed | clear | idle | nothing => exact h
  | ltOpen => exact h.modified gentle_open rfl rfl
  | ltVerify | ltWrite => exact h.modified (gentle_onDisk _ _) rfl rfl
  | ltState => exact h.modified (gentle_state _) rfl rfl
  | top =>
    rw [beginPass]
    split <;> exact h
  | @process alert rest =>
    have hp := SyncFs.processed w n alert
    generalize processAlert w n alert = r at hp
    cases hp with
    | skipped => exact h
    | finished => exact h.modified gentle_flushing rfl rfl
    | flushed _ _ stamps =>
      exact h.congr stamps.session (congrArg _ stamps.repairs) (congrArg _ stamps.repairs)
  | localWrite | localDelete | directory | list | send | repair => exact h.congr rfl rfl rfl
  | round => split <;> exact h.congr rfl rfl rfl
  | @receive v =>
    obtain ⟨r, he, hr⟩ := takeIn_live hl
    rw [he]
    exact h.received (hh v rfl) hr

/-- The session holds one torrent for a path or none, and what was applied and
what was announced are held for just the paths it serves, under its info hash. -/
structure Agrees (w : World) (r : Replica) : Prop where
  single : ∀ p : Path, p.IsKey → (r.session.torrentsAt w p).length ≤ 1
  applied_iff : ∀ p : Path, p.IsKey → (r.session.torrentsAt w p ≠ [] ↔ p ∈ r.repairs.applied)
  announced_iff : ∀ p : Path, p.IsKey →
    (r.session.torrentsAt w p ≠ [] ↔ p ∈ r.repairs.announcements)
  content : ∀ p : Path, p.IsKey → ∀ t ∈ r.session.torrentsAt w p, ∀ a ∈ r.repairs.applied[p]?,
    a.content = t.info.infoHash
  announcement : ∀ p : Path, p.IsKey → ∀ t ∈ r.session.torrentsAt w p,
    ∀ b ∈ r.repairs.announcements[p]?, ∃ info, w.loadTorrentBuffer b = some info ∧
      info.infoHash = t.info.infoHash

theorem Memory.agrees {ts : List Torrent} {applied : Option Applied} {announcement : Option Bytes}
    (h : Memory w ts applied announcement) :
    ts.length ≤ 1 ∧ (ts ≠ [] ↔ applied.isSome = true) ∧ (ts ≠ [] ↔ announcement.isSome = true) ∧
      ∀ t ∈ ts, (∀ a ∈ applied, a.content = t.info.infoHash) ∧
        ∀ b ∈ announcement, ∃ info, w.loadTorrentBuffer b = some info ∧
          info.infoHash = t.info.infoHash := by
  cases h with
  | nothing => simp
  | torrent content loads hash => simp [content, loads, hash]

theorem OneMemory.agrees (h : OneMemory w named r) : Agrees w r where
  single p hp := (h.memory p hp).agrees.1
  applied_iff p hp := by
    rw [Std.ExtTreeMap.mem_iff_isSome_getElem?]
    exact (h.memory p hp).agrees.2.1
  announced_iff p hp := by
    rw [Std.ExtTreeMap.mem_iff_isSome_getElem?]
    exact (h.memory p hp).agrees.2.2.1
  content p hp t ht := ((h.memory p hp).agrees.2.2.2 t ht).1
  announcement p hp t ht := ((h.memory p hp).agrees.2.2.2 t ht).2

theorem oneMemory_start (disk : Disk) (clock : TimePoint) (steady : SteadyTime) :
    OneMemory w named (Node.start disk clock steady).replica where
  numbered := ⟨fun _ h => absurd h List.not_mem_nil, fun _ h => absurd h List.not_mem_nil⟩
  sits _ h := absurd h List.not_mem_nil
  named _ h := absurd h List.not_mem_nil
  memory _ _ := .nothing

/-- As long as a node's loop goes on and its peers are honest, its session, the
creates it has applied and the announcements it keeps agree on every path. -/
theorem session_agrees {disk : Disk} {clock : TimePoint} {steady : SteadyTime}
    {h : History Node Event} {n : Node} (hr : Run (step w) (.start disk clock steady) h n)
    (hh : Always (fun _ _ e => HonestStep w named e) h) : n.pc = .stopped ∨ Agrees w n.replica := by
  exact (live_invariant (I := fun _ n => OneMemory w named n.replica)
    (oneMemory_start disk clock steady) (fun _ _ _ _ hI hc hs hl => hI.step hc hs hl) hr hh).imp_right OneMemory.agrees

instance (w : World) (named : ℕ → Path × Bytes) (v : List Bytes) : Decidable (Honest w named v) :=
  decidable_of_iff ((∀ p ∈ removedPath v, p.IsKey) ∧
    (verbOf (part v 0) = ascii "create" → ∀ torrent ∈ torrentOf w v,
      Lands w (announcedPath v) torrent ∧
        named torrent.infoHash = (announcedPath v, torrent.content)) ∧
    (verbOf (part v 0) = ascii "digest" →
      ∀ e ∈ (decodeTombstones (part v 2)).toList, e.1.IsKey))
    ⟨fun h => ⟨h.1, h.2.1, h.2.2⟩, fun h => ⟨h.removes, h.creates, h.deletes⟩⟩

instance (w : World) (named : ℕ → Path × Bytes) (e : Event) : Decidable (HonestStep w named e) := by
  unfold HonestStep
  infer_instance

def sampleNamed (infoHash : ℕ) : Path × Bytes :=
  (samplePath, if (torrentOf sampleWorld (sampleCreate "x" 900)).any (·.infoHash = infoHash)
    then ascii "x" else ascii "y")

def replacements : List Event :=
  pass false (some (sampleCreate "x" 900)) ++ pass false (some (sampleCreate "y" 950)) ++
    pass false (some (sampleCreate "y" 970))

theorem replacements_agree :
    ∃ h n, Run (step sampleWorld) (.start ∅ 1000 0) h n ∧
      (n.replica.session.torrentsAt sampleWorld samplePath).length = 1 ∧
      Agrees sampleWorld n.replica := by
  obtain ⟨h, n, hr, hp, hl, hh⟩ := exists_run (step sampleWorld) (.start ∅ 1000 0) replacements
    (fun h n => n.pc.goesOn = true ∧
      (n.replica.session.torrentsAt sampleWorld samplePath).length = 1 ∧
      Always (fun _ _ e => HonestStep sampleWorld sampleNamed e) h) (by decide +kernel)
  exact ⟨h, n, hr, hl, (session_agrees hr hh).resolve_left (ne_stopped hp)⟩

end SyncFs
