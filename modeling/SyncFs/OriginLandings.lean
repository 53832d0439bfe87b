import SyncFs.Adoption
import SyncFs.OriginStamps

/-!
# Where the origin time lands

The origin time of a create waits for whichever stamp comes first. It ends up on
the file, in the listing and in what is remembered as long as that stamp finds
the whole of the file there and no time on it that is later than the stamp's.
-/

namespace SyncFs

open CharConversions LabelledRuns

section

variable (w : World)

def drains (n : Node) (e : Event) (handle : ℕ) : Bool :=
  match n.pc, e with
  | .process (alert :: _), .advance => alert.kind = .cacheFlushed && alert.handle = handle
  | _, _ => false

def drained : History Node Event → ℕ → Bool
  | [], _ => false
  | (n, e) :: h, handle => drains n e handle || drained h handle

/-- libtorrent writes to no torrent that has everything on disk. -/
def WritesMissing (n : Node) : Event → Prop
  | .ltWrite handle _ _ => ∀ t ∈ n.replica.session.find handle, t.complete = false
  | _ => True

/-- Nobody but libtorrent and the loop has a hand in the file at a path, creates
land where they say, and libtorrent leaves whole files alone. -/
structure Undisturbed (p : Path) (n : Node) (e : Event) : Prop where
  honest : HonestCreate w n e
  unwritten : writesLocally e p = false
  untampered : tampers w n e p = false
  missing : WritesMissing n e

/-- The stamp that meets an origin waiting for a path, and its file, finds the
torrent whole and the file no newer than the stamp. -/
def SpendsWhole (p : Path) (n : Node) (e : Event) : Prop :=
  ∀ call ∈ stampCall w n e, call.2.1 = p → (call.1.inbound.origins[p]?).isSome = true →
    ∀ time ∈ call.1.lastWriteTime w p, ¬ call.2.2 < time ∧
      ∀ t ∈ n.replica.session.torrentsAt w p, t.complete = true

/-- A listing finds the file of a path that no origin waits for. -/
def Finds (p : Path) (n : Node) (e : Event) : Prop :=
  ∀ current ∈ listed n e, p ∉ n.replica.inbound.origins → p ∈ n.replica.disk.list → p ∈ current

/-- Where the torrent of a path has been flushed, the file, the listing and what
is remembered have the time of the create last applied, and none is waiting. -/
def OriginLanded (h : History Node Event) (n : Node) (p : Path) : Prop :=
  ∀ t ∈ n.replica.session.torrents, w.heldPath t = p → drained h t.handle = true →
    ∃ v ∈ lastApplied w h p, n.replica.lastWriteTime w p = some (originOf v) ∧
      n.replica.former[p]? = some (originOf v) ∧
      n.replica.inbound.written[p]? = some (originOf v) ∧ n.replica.inbound.origins[p]? = none

end

variable {w : World} {n m : Node} {e : Event} {h : History Node Event} {p : Path} {t : Torrent}
variable {o : FileTime}

theorem drains_eq_true {handle : ℕ} (hd : drains n e handle = true) :
    ∃ alert rest, n.pc = .process (alert :: rest) ∧ e = .advance ∧
      alert.kind = .cacheFlushed ∧ alert.handle = handle := by
  unfold drains at hd
  split at hd
  · next alert rest hp =>
    obtain ⟨hk, hh⟩ := Bool.and_eq_true_iff.mp hd
    exact ⟨alert, rest, hp, rfl, of_decide_eq_true hk, of_decide_eq_true hh⟩
  · cases hd

namespace StampsAs

variable {r r' : Replica} {path q : Path} {writtenBy : FileTime}

theorem origins_other (h : StampsAs w r path writtenBy r') (hne : path ≠ q) :
    r'.inbound.origins[q]? = r.inbound.origins[q]? := by
  cases h with
  | absent | kept => rfl
  | edited | stamped => exact PathMap.getElem?_erase.trans (if_neg hne)

end StampsAs

theorem Received.origins_kept {r r' : Replica} {v : List Bytes} {clock : TimePoint} {b : Bool}
    (h : Received w v clock r b (.ok r')) (ha : b = true → announcedPath v ≠ p) :
    r'.inbound.origins[p]? = r.inbound.origins[p]? := by
  cases h with
  | rejected | refused | state => rfl
  | removed _ erased =>
    obtain ⟨disk, -, rfl⟩ := erase_ok erased
    rfl
  | @applied torrent =>
    obtain ⟨left, he, hleft⟩ := applied_cases w r v torrent
    have hserving : (r.serving w v torrent).inbound.origins[p]? = r.inbound.origins[p]? :=
      getElem?_origins_serving.trans (if_neg (ha rfl))
    rw [he]
    rcases hleft with ⟨-, hst⟩ | ⟨-, rfl⟩
    · exact (hst.origins_other (ha rfl)).trans hserving
    · exact hserving
  | digest _ adopted =>
    exact congrArg (fun inbound : Inbound => inbound.origins[p]?) (takesOn adopted).aside.1

theorem Stepped.origins_kept (hs : Stepped w n e m) (hl : m.pc ≠ .stopped)
    (hc : ∀ call ∈ SyncFs.stampCall w n e, call.2.1 ≠ p)
    (ha : ∀ v ∈ appliedBy w n e, announcedPath v ≠ p) :
    m.replica.inbound.origins[p]? = n.replica.inbound.origins[p]? := by
  cases hs with
  | tick | directory | localWrite | localDelete | ltOpen | ltVerify | ltWrite | ltState | post | test | pop
  | processed | clear | send | idle | list | nothing | repair => rfl
  | top =>
    rw [beginPass]
    split <;> rfl
  | round => split <;> rfl
  | @process alert rest hpc =>
    have hq := SyncFs.processed w n alert
    change (processAlert w n alert).inbound.origins[p]? = _
    generalize processAlert w n alert = r at hq
    cases hq with
    | skipped | finished => rfl
    | flushed flushes found stamps =>
      exact stamps.origins_other (hc _ (stampCall_flush hpc flushes found))
  | @receive v hpc =>
    obtain ⟨r, he, hrec⟩ := takeIn_live hl
    rw [he]
    exact hrec.origins_kept fun happ => ha v (appliedBy_eq_some.mpr ⟨hpc, rfl, happ⟩)

/-- A file, the listing and what is remembered of it carry one time, and none waits. -/
structure LandedIn (p : Path) (o : FileTime) (r : Replica) : Prop where
  file : ∀ file, r.disk[p]? = some file → file.mtime = o
  listed : r.former[p]? = some o
  remembered : r.inbound.written[p]? = some o
  spent : r.inbound.origins[p]? = none

/-- So does the listing about to be taken over, if there is one. -/
structure Landed (p : Path) (o : FileTime) (n : Node) : Prop extends LandedIn p o n.replica where
  current : ∀ diff current, n.pc = .sending diff current → current[p]? = some o

namespace LandedIn

variable {r r' : Replica} {writtenBy : FileTime}

theorem congr (hd : LandedIn p o r) (hdisk : r'.disk = r.disk) (hformer : r'.former = r.former)
    (hinbound : r'.inbound = r.inbound) : LandedIn p o r' := by
  constructor
  · rw [hdisk]
    exact hd.file
  · rw [hformer, hd.listed]
  · rw [hinbound, hd.remembered]
  · rw [hinbound, hd.spent]

theorem stamps (hd : LandedIn p o r) (hp : p.IsKey) {file : File} (there : r.disk[p]? = some file)
    (hs : StampsAs w r p writtenBy r') : LandedIn p o r' := by
  cases hs with
  | absent => exact hd
  | edited => exact ⟨hd.file, hd.listed, hd.remembered, PathMap.getElem?_erase.trans (if_pos rfl)⟩
  | @kept time present =>
    rw [Tree.lastWriteTime_of_find ((Tree.find_key hp).trans there)] at present
    obtain rfl := Option.some.inj present
    have ho : some file.mtime = some o := congrArg some (hd.file file there)
    refine ⟨hd.file, ?_, ?_, hd.spent⟩
    all_goals exact PathMap.getElem?_insert.trans ((if_pos rfl).trans ho)
  | stamped _ _ waiting =>
    rw [hd.spent] at waiting
    cases waiting

theorem of_stamps (hp : p.IsKey) {file : File} (present : r.disk[p]? = some file)
    (done : ¬ writtenBy < file.mtime) (waiting : r.inbound.origins[p]? = some o)
    (hs : StampsAs w r p writtenBy r') : LandedIn p o r' := by
  have htime : r.lastWriteTime w p = some file.mtime :=
    Tree.lastWriteTime_of_find ((Tree.find_key hp).trans present)
  cases hs with
  | absent absent =>
    rw [htime] at absent
    cases absent
  | edited present later =>
    rw [htime] at present
    exact absurd (Option.some.inj present ▸ later) done
  | kept _ _ spent =>
    rw [waiting] at spent
    cases spent
  | @stamped time origin _ _ waiting' =>
    obtain rfl := Option.some.inj (waiting.symm.trans waiting')
    constructor
    · intro file' hf
      have hf : (r.stamp w p o).disk[p]? = some file' := hf
      rw [Tree.getElem?_stamp, if_pos (Tree.locate_key hp), present, Option.map_some] at hf
      rw [← Option.some.inj hf]
    · exact PathMap.getElem?_insert.trans (if_pos rfl)
    · exact PathMap.getElem?_insert.trans (if_pos rfl)
    · exact PathMap.getElem?_erase.trans (if_pos rfl)

end LandedIn

/-- A message that leaves a path its torrent leaves it in the listing. -/
theorem Received.memory_kept {r r' : Replica} {v : List Bytes} {clock : TimePoint} {b : Bool}
    (h : Received w v clock r b (.ok r')) (ha : r.session.Apart)
    (hne : b = true → announcedPath v ≠ p) (hserved : r'.session.torrentsAt w p ≠ []) :
    r'.former[p]? = r.former[p]? ∧ r'.inbound.written[p]? = r.inbound.written[p]? := by
  cases h with
  | rejected | refused | state => exact ⟨rfl, rfl⟩
  | removed _ erased =>
    obtain ⟨disk, -, rfl⟩ := erase_ok erased
    exact ⟨rfl, rfl⟩
  | @applied torrent =>
    obtain ⟨left, he, hleft⟩ := applied_cases w r v torrent
    rw [he]
    rcases hleft with ⟨-, hst⟩ | ⟨-, rfl⟩
    · exact hst.memory_other (hne rfl)
    · exact ⟨rfl, rfl⟩
  | @digest left deleted _ adopted pending =>
    have ht := takesOn adopted
    refine ⟨?_, congrArg (fun inbound : Inbound => inbound.written[p]?) ht.aside.1⟩
    change left.former[p]? = _
    rw [ht.former, if_neg]
    intro hd
    have hgone := unserved_adopt ha adopted hd
    exact hserved hgone

namespace Landed

theorem step (hd : Landed p o n) (hs : Stepped w n e m) (hl : m.pc ≠ .stopped) (hp : p.IsKey)
    (hapart : n.replica.session.Apart) (hc : ∀ call ∈ stampCall w n e, call.2.1 ≠ p)
    (ha : ∀ v ∈ appliedBy w n e, announcedPath v ≠ p) (hfind : Finds p n e)
    (hserved : m.replica.session.torrentsAt w p ≠ []) {file : File}
    (hf : m.replica.disk[p]? = some file)
    (hkept : m.replica.disk[p]? = some file → n.replica.disk[p]? = some file) :
    Landed p o m := by
  have htime : file.mtime = o := hd.file file (hkept hf)
  have hmemory : m.replica.former[p]? = some o ∧ m.replica.inbound.written[p]? = some o := by
    cases hs with
    | tick | directory | localWrite | localDelete | ltOpen | ltVerify | ltWrite | ltState | post | test | pop
    | processed | clear | idle | list | nothing | repair => exact ⟨hd.listed, hd.remembered⟩
    | send hpc =>
      have hcur := hd.current _ _ hpc
      refine ⟨hcur, PathMap.getElem?_filter.trans ?_⟩
      rw [hd.remembered, Option.filter_some, PathMap.contains_eq, hcur]
      rfl
    | top =>
      rw [beginPass]
      split <;> exact ⟨hd.listed, hd.remembered⟩
    | round => split <;> exact ⟨hd.listed, hd.remembered⟩
    | @process alert rest hpc =>
      have hq := SyncFs.processed w n alert
      change (processAlert w n alert).former[p]? = some o ∧
        (processAlert w n alert).inbound.written[p]? = some o
      generalize processAlert w n alert = r at hq
      cases hq with
      | skipped | finished => exact ⟨hd.listed, hd.remembered⟩
      | flushed flushes found stamps =>
        obtain ⟨hf, hw⟩ := stamps.memory_other (hc _ (stampCall_flush hpc flushes found))
        rw [hf, hw]
        exact ⟨hd.listed, hd.remembered⟩
    | @receive v hpc =>
      obtain ⟨r, he, hrec⟩ := takeIn_live hl
      rw [he] at hserved ⊢
      obtain ⟨hf, hw⟩ := hrec.memory_kept hapart
        (fun happ => ha v (appliedBy_eq_some.mpr ⟨hpc, rfl, happ⟩)) hserved
      rw [hf, hw]
      exact ⟨hd.listed, hd.remembered⟩
  refine ⟨⟨fun file' hf' => ?_, hmemory.1, hmemory.2, ?_⟩, fun diff current hpc => ?_⟩
  · rw [hf] at hf'
    exact Option.some.inj hf' ▸ htime
  · rw [hs.origins_kept hl hc ha, hd.spent]
  · rcases hs.sending hpc with hpc | hlist
    · exact hd.current diff current hpc
    · have hthere : p ∈ n.replica.disk.list :=
        Disk.mem_list.mpr ⟨hp, PathMap.mem_iff.mpr ⟨file, hkept hf⟩⟩
      have hfound := hfind current hlist (PathMap.notMem_iff.mpr hd.spent) hthere
      obtain ⟨missed, -, -, rfl⟩ := listed_eq_some hlist
      rw [Disk.getElem?_listBut, if_neg (Disk.mem_listBut.mp hfound).2, Disk.getElem?_list,
        if_pos hp, hkept hf, Option.map_some, htime]

end Landed

/-- A torrent after a step is one from before it, unless it was added for a
create of its path. -/
theorem Reshaped.earlier {s : Session} (hr : Reshaped w n e s) (hh : HonestCreate w n e)
    (ht : t ∈ s.torrents) (ha : ∀ v ∈ appliedBy w n e, announcedPath v ≠ w.heldPath t) :
    ∃ u ∈ n.replica.session.torrents, u.handle = t.handle ∧ w.heldPath u = w.heldPath t ∧
      (u.complete = true → t.complete = true) := by
  cases hr with
  | modified gentle =>
    obtain ⟨u, hu, rfl, hhandle, hi, hp⟩ := Session.mem_modify_gentle gentle ht
    refine ⟨u, hu, hhandle.symm, by rw [World.heldPath, World.heldPath, hi, hp], fun hc => ?_⟩
    split
    · exact gentle.complete u hc
    · exact hc
  | kept sub => exact ⟨t, sub t ht, rfl, rfl, id⟩
  | @added v torrent applied loads =>
    rcases torrents_applied w n.replica v torrent with ⟨left, htor, -, hleft⟩ | ⟨-, hold⟩
    · rw [htor, List.mem_append, List.mem_singleton] at ht
      rcases ht with ht | rfl
      · exact ⟨t, (hleft t ht).1, rfl, rfl, id⟩
      · exact absurd (Tidy.sits_added (hh v applied torrent loads)).2.symm (ha v applied)
    · exact ⟨t, (hold t ht).1, rfl, rfl, id⟩

private theorem eq_at {s : Session} (ht : Tidy w s) {t u : Torrent} (hmem : t ∈ s.torrents)
    (hu : w.heldPath u = p) {handle : ℕ} (hat : w.heldPath t = p) (hf : s.find handle = some u) :
    u = t :=
  ht.single u (Session.mem_of_find hf).1 t hmem (hu.trans hat.symm)

/-- What is known of the torrent of an undisturbed path. -/
structure Tracked (w : World) (h : History Node Event) (n : Node) (p : Path) : Prop where
  serving : Serving w h n
  clean : tampered w h p = false
  below : ∀ handle, drained h handle = true → handle < n.replica.session.nextHandle
  lands : ∀ t ∈ n.replica.session.torrents, w.heldPath t = p → ∃ v ∈ lastApplied w h p,
    (n.replica.inbound.origins[p]? = some (originOf v) ∧ drained h t.handle = false) ∨
      (t.complete = true ∧ Landed p (originOf v) n)

namespace Tracked

theorem present (hT : Tracked w h n p) (ht : t ∈ n.replica.session.torrents)
    (hat : w.heldPath t = p) (hc : t.complete = true) :
    ∃ file, n.replica.disk[p]? = some file ∧ file.content.length ≤ t.info.content.length := by
  subst hat
  obtain ⟨file, hf, hb⟩ := (hT.serving.served t ht).backed (Bool.and_eq_true_iff.mp hc).1 hT.clean
  exact ⟨file, hf, hb.1⟩

/-- libtorrent lets the file of a whole torrent be. -/
theorem not_ltTouches (hT : Tracked w h n p) (ht : t ∈ n.replica.session.torrents)
    (hat : w.heldPath t = p) (hc : t.complete = true) (hw : WritesMissing n e) :
    ltTouches w n e p = false := by
  have htidy := hT.serving.tidy
  have hheld : ∀ {handle : ℕ} {u : Torrent}, n.replica.session.find handle = some u →
      w.spot u = p → u = t := by
    intro handle u hf hs
    have hu := (Session.mem_of_find hf).1
    exact htidy.single u hu t ht (((htidy.sits u hu).2.2.symm.trans hs).trans hat.symm)
  cases e with
  | ltOpen handle =>
    rw [ltTouches]
    cases hf : n.replica.session.find handle with
    | none => rfl
    | some u =>
      refine decide_eq_false ?_
      rintro ⟨hs, hne⟩
      obtain rfl := hheld hf hs
      obtain ⟨file, hfile, hlen⟩ := hT.present ht hat hc
      rw [hfile, openedFile, if_neg (not_lt.mpr hlen)] at hne
      exact hne rfl
  | ltWrite handle offset length =>
    rw [ltTouches]
    cases hf : n.replica.session.find handle with
    | none => rfl
    | some u =>
      refine decide_eq_false fun hs => ?_
      have hwhole := hw u hf
      rw [hheld hf hs, hc] at hwhole
      cases hwhole
  | _ => rfl

/-- A step that is neither a stamp nor a create of the path. -/
theorem lands_quiet (hT : Tracked w h n p) (hu : Undisturbed w p n e) (hs : Stepped w n e m)
    (hl : m.pc ≠ .stopped) (ha : ∀ v ∈ appliedBy w n e, announcedPath v ≠ p)
    (hc : ∀ call ∈ stampCall w n e, call.2.1 ≠ p) (hfind : Finds p n e)
    (hS : Serving w ((n, e) :: h) m)
    (hclean : tampered w ((n, e) :: h) p = false) (ht : t ∈ m.replica.session.torrents)
    (hat : w.heldPath t = p) :
    ∃ v ∈ lastApplied w ((n, e) :: h) p,
      (m.replica.inbound.origins[p]? = some (originOf v) ∧
          drained ((n, e) :: h) t.handle = false) ∨
        (t.complete = true ∧ Landed p (originOf v) m) := by
  have htidy := hT.serving.tidy
  have hsits := hS.tidy.sits t ht
  have hp : p.IsKey := hat ▸ hsits.1
  obtain ⟨u, hmem, hhandle, hheld, hcomplete⟩ :=
    (hs.reshaped hl).earlier hu.honest ht (hat.symm ▸ ha)
  rw [hat] at hheld
  obtain ⟨v, hv, hcase⟩ := hT.lands u hmem hheld
  refine ⟨v, (lastApplied_other ha).trans hv, ?_⟩
  rcases hcase with ⟨hwait, hnot⟩ | ⟨hwhole, hland⟩
  · refine .inl ⟨(hs.origins_kept hl hc ha).trans hwait, ?_⟩
    rw [drained, ← hhandle, hnot, Bool.or_false, Bool.eq_false_iff]
    intro hdrains
    obtain ⟨alert, rest, hpc, rfl, hk, hh⟩ := drains_eq_true hdrains
    have hfind : n.replica.session.find alert.handle = some u := by
      rw [hh]
      exact Session.find_of_mem htidy.numbered.apart hmem
    exact hc _ (stampCall_flush hpc hk hfind) hheld
  · refine .inr ⟨hcomplete hwhole, ?_⟩
    have hopen := (Bool.and_eq_true_iff.mp (hcomplete hwhole)).1
    obtain ⟨file, hf, -⟩ := (hS.served t ht).backed hopen (hat ▸ hclean)
    rw [hat] at hf
    refine hland.step hs hl hp htidy.numbered.apart hc ha hfind ?_ hf fun hf => ?_
    · exact List.ne_nil_of_mem ((Tidy.mem_torrentsAt hsits ht hp).mpr hat)
    · refine hs.file_kept hl hu.unwritten
        (hT.not_ltTouches hmem hheld hwhole hu.missing) (fun call hcall => ?_) hf
      rw [Tree.locate_key (htidy.isKey_of_stampCall hu.honest hcall)]
      exact fun he => hc call hcall (Option.some.inj he)

/-- A flush of the path's torrent finds it whole: what waits lands, and what has
landed stays. -/
theorem lands_flush (hT : Tracked w h n p) (hsp : SpendsWhole w p n e) (hs : Stepped w n e m)
    (hl : m.pc ≠ .stopped) {alert : Alert} {rest : List Alert} (hpc : n.pc = .process (alert :: rest))
    (he : e = .advance) (hk : alert.kind = .cacheFlushed)
    (hf : n.replica.session.find alert.handle = some t) (hat : w.heldPath t = p) :
    ∃ v ∈ lastApplied w ((n, e) :: h) p, t.complete = true ∧ Landed p (originOf v) m := by
  subst he
  obtain ⟨hmem, hhandle⟩ := Session.mem_of_find hf
  have hp : p.IsKey := hat ▸ (hT.serving.tidy.sits t hmem).1
  have hwait : alert ∈ waitingAlerts n := by simp [waitingAlerts, hpc]
  have hwhole := (hT.serving.flushes alert hwait hk).2 t hmem hhandle
  obtain ⟨v, hv, hcase⟩ := hT.lands t hmem hat
  have hcall := stampCall_flush (w := w) hpc hk hf
  obtain ⟨hne, r, hst, hdisk, hformer, hinbound⟩ := hs.stampCall hl hcall
  refine ⟨v, ?_, hwhole, ?_, fun diff current h => absurd h (hne diff current)⟩
  · rw [lastApplied_of_none (appliedBy_eq_none (by simp))]
    exact hv
  · rw [hat] at hst
    suffices hland : LandedIn p (originOf v) r from hland.congr hdisk hformer hinbound
    obtain ⟨file, hfile, -⟩ := hT.present hmem hat hwhole
    rcases hcase with ⟨hwaits, -⟩ | ⟨-, hland⟩
    · have htime : n.replica.lastWriteTime w p = some file.mtime :=
        Tree.lastWriteTime_of_find ((Tree.find_key hp).trans hfile)
      have hdone := (hsp _ hcall hat (by rw [hwaits]; rfl) file.mtime htime).1
      exact .of_stamps hp hfile hdone hwaits hst
    · exact hland.toLandedIn.stamps hp hfile hst

/-- An opened torrent has its file, so one whose file is not there is not done. -/
theorem drained_of_absent (hT : Tracked w h n p) (ht : t ∈ n.replica.session.torrents)
    (hat : w.heldPath t = p) (hfile : n.replica.disk[p]? = none) : drained h t.handle = false := by
  obtain ⟨_, -, ⟨-, hnot⟩ | ⟨hwhole, -⟩⟩ := hT.lands t ht hat
  · exact hnot
  · obtain ⟨file, hf, -⟩ := hT.present ht hat hwhole
    rw [hfile] at hf
    cases hf

/-- Where the content was not held, the torrent of the path is the one added. -/
theorem drained_of_fresh (hT : Tracked w h n p) {v : List Bytes} {torrent : TorrentInfo}
    (hlands : Lands w (announcedPath v) torrent) (hpath : announcedPath v = p)
    (hheld : heldAlready w n.replica v torrent = false)
    (ht : t ∈ (n.replica.applied w v torrent).session.torrents) (hat : w.heldPath t = p) :
    drained h t.handle = false := by
  have hnot : ∀ u ∈ n.replica.session.torrentsAt w (announcedPath v),
      u.info.infoHash ≠ torrent.infoHash := by
    intro u hu hhash
    rw [heldAlready_iff.mpr ⟨u, hu, hhash⟩] at hheld
    cases hheld
  have hmine : ∀ u ∈ n.replica.session.torrents, w.heldPath u = p →
      u ∈ n.replica.session.torrentsAt w (announcedPath v) :=
    fun u hu hup => (Tidy.mem_torrentsAt (hT.serving.tidy.sits u hu) hu hlands.1).mpr
      (hup.trans hpath.symm)
  rcases torrents_applied w n.replica v torrent with ⟨old, htor, -, hold⟩ | ⟨-, hold⟩
  · have ht : t ∈ old ++ [w.added n.replica.session v torrent] := htor ▸ ht
    rw [List.mem_append, List.mem_singleton] at ht
    rcases ht with ht | rfl
    · exact absurd (hmine t (hold t ht).1 hat) (hold t ht).2
    · exact Bool.eq_false_iff.mpr fun hd => lt_irrefl _ (hT.below _ hd)
  · obtain ⟨hmem, hhash⟩ := hold t ht
    have htat := hmine t hmem hat
    exact absurd (hhash htat) (hnot t htat)

/-- A create of the path that is applied: its torrent is new and its origin
waits, or the content was held and the stamp made at once settles it. -/
theorem lands_applied (hT : Tracked w h n p) (hu : Undisturbed w p n e)
    (hsp : SpendsWhole w p n e) (hs : Stepped w n e m) (hl : m.pc ≠ .stopped) {v : List Bytes}
    (hv : appliedBy w n e = some v) (hpath : announcedPath v = p)
    (ht : t ∈ m.replica.session.torrents) (hat : w.heldPath t = p) :
    (m.replica.inbound.origins[p]? = some (originOf v) ∧ drained ((n, e) :: h) t.handle = false) ∨
      (t.complete = true ∧ Landed p (originOf v) m) := by
  obtain ⟨hpc, rfl, happ⟩ := appliedBy_eq_some.mp hv
  have htidy := hT.serving.tidy
  have hdrained : drained ((n, .receive (some v)) :: h) t.handle = drained h t.handle := by
    rw [drained]
    unfold drains
    rw [hpc]
    rfl
  cases hs with
  | receive _ =>
    obtain ⟨r, he, hrec⟩ := takeIn_live hl
    rw [he] at ht ⊢
    rw [happ] at hrec
    generalize hb : true = b at hrec
    cases hrec with
    | rejected | removed | refused | state | digest => cases hb
    | @applied torrent _ _ loads won =>
      have hlands := hu.honest.receive hpc happ torrent loads
      have hp : p.IsKey := hpath ▸ hlands.1
      obtain ⟨left, hleft, hstamp⟩ := applied_cases w n.replica v torrent
      have hwaits : (n.replica.serving w v torrent).inbound.origins[p]? = some (originOf v) :=
        getElem?_origins_serving.trans (if_pos hpath)
      rcases hstamp with ⟨hheld, hst⟩ | ⟨hheld, rfl⟩
      · have hmem : t ∈ n.replica.session.torrents := by
          rw [← htidy.torrents_held hlands hheld]
          exact ht
        rw [hpath] at hst
        have hcall := stampCall_receive hpc happ loads hheld
        have htat := (Tidy.mem_torrentsAt (htidy.sits t hmem) hmem hp).mpr hat
        cases hfile : n.replica.disk[p]? with
        | none =>
          refine .inl ⟨?_, hdrained.trans (drained_of_absent hT hmem hat hfile)⟩
          -- Were a directory there instead, the torrent would have to be whole without its file.
          have hnone : (n.replica.serving w v torrent).lastWriteTime w p = none := by
            refine Option.eq_none_iff_forall_ne_some.mpr fun time htime => ?_
            have hwhole := (hsp _ hcall hpath (by rw [hwaits]; rfl) time htime).2 t htat
            obtain ⟨file, hthere, -⟩ := hT.present hmem hat hwhole
            rw [hfile] at hthere
            cases hthere
          cases hst with
          | absent =>
            rw [hleft]
            exact hwaits
          | edited present | kept present | stamped present =>
            rw [hnone] at present
            cases present
        | some file =>
          have htime : (n.replica.serving w v torrent).lastWriteTime w p = some file.mtime :=
            Tree.lastWriteTime_of_find ((Tree.find_key hp).trans hfile)
          obtain ⟨hdone, hwhole⟩ := hsp _ hcall hpath (by rw [hwaits]; rfl) file.mtime htime
          refine .inr ⟨hwhole t htat, ?_, by rintro _ _ ⟨⟩⟩
          have hland := LandedIn.of_stamps (r := n.replica.serving w v torrent) hp hfile hdone hwaits hst
          rw [hleft]
          exact hland.congr rfl rfl rfl
      · refine .inl ⟨?_, hdrained.trans (drained_of_fresh hT hlands hpath hheld ht hat)⟩
        rw [hleft]
        exact hwaits

theorem step (hn : HashesName w) (hT : Tracked w h n p) (hu : Undisturbed w p n e)
    (hsp : SpendsWhole w p n e) (hfind : Finds p n e) (hs : Stepped w n e m)
    (hl : m.pc ≠ .stopped) : Tracked w ((n, e) :: h) m p := by
  have htidy := hT.serving.tidy
  have hS := hT.serving.step hn hu.honest hs hl
  have hclean : tampered w ((n, e) :: h) p = false := by
    rw [tampered, hu.untampered, hT.clean]
    simp
  refine ⟨hS, hclean, fun handle hd => ?_, fun t ht hat => ?_⟩
  · have hnext : n.replica.session.nextHandle ≤ m.replica.session.nextHandle := by
      have hr := hs.reshaped hl
      generalize m.replica.session = s at hr
      cases hr with
      | modified => exact le_rfl
      | kept _ next => exact next.ge
      | added => exact nextHandle_applied
    refine lt_of_lt_of_le ?_ hnext
    rcases Bool.or_eq_true_iff.mp hd with hd | hd
    · obtain ⟨alert, rest, hpc, -, hk, rfl⟩ := drains_eq_true hd
      have hwait : alert ∈ waitingAlerts n := by simp [waitingAlerts, hpc]
      exact (hT.serving.flushes alert hwait hk).1
    · exact hT.below handle hd
  · by_cases happ : ∃ v ∈ appliedBy w n e, announcedPath v = p
    · obtain ⟨v, hv, hpath⟩ := happ
      refine ⟨v, ?_, hT.lands_applied hu hsp hs hl hv hpath ht hat⟩
      rw [lastApplied, hv]
      exact if_pos hpath
    · have ha : ∀ v ∈ appliedBy w n e, announcedPath v ≠ p := fun v hv hpath => happ ⟨v, hv, hpath⟩
      by_cases hcalls : ∃ call ∈ stampCall w n e, call.2.1 = p
      · obtain ⟨call, hcall, hpath⟩ := hcalls
        rcases stampCall_cases hcall with ⟨alert, rest, u, hpc, he, hk, hf, rfl⟩ |
          ⟨v, torrent, hpc, rfl, happ, -, -, rfl⟩
        · obtain ⟨v, hv, hwhole, hland⟩ := hT.lands_flush hsp hs hl hpc he hk hf hpath
          obtain ⟨x, hx, -, hheld, hcomplete⟩ :=
            (hs.reshaped hl).earlier hu.honest ht (hat.symm ▸ ha)
          obtain rfl := eq_at htidy hx hpath (hheld.trans hat) hf
          exact ⟨v, hv, .inr ⟨hcomplete hwhole, hland⟩⟩
        · exact absurd hpath (ha v (appliedBy_eq_some.mpr ⟨hpc, rfl, happ⟩))
      · exact hT.lands_quiet hu hs hl ha (fun call hcall hpath => hcalls ⟨call, hcall, hpath⟩)
          hfind hS hclean ht hat

theorem originLanded (hT : Tracked w h n p) : OriginLanded w h n p := by
  intro t ht hat hd
  obtain ⟨v, hv, ⟨-, hnot⟩ | ⟨hwhole, hland⟩⟩ := hT.lands t ht hat
  · rw [hd] at hnot
    cases hnot
  · obtain ⟨file, hf, -⟩ := hT.present ht hat hwhole
    refine ⟨v, hv, ?_, hland.listed, hland.remembered, hland.spent⟩
    have hfind : n.replica.find w p = some file :=
      (Tree.find_key (hat ▸ (hT.serving.tidy.sits t ht).1)).trans hf
    rw [Tree.lastWriteTime_of_find hfind, hland.file file hf]

end Tracked

/-- In a run that leaves a path's file to libtorrent, whose stamps find it whole and
in time and whose listings find it, the origin of the create last applied is where it belongs
once the torrent of the path has been flushed. -/
theorem origin_lands {disk : Disk} {clock : TimePoint} {steady : SteadyTime} (hn : HashesName w)
    (hr : Run (step w) (.start disk clock steady) h n)
    (ha : Always (fun _ n e => Undisturbed w p n e ∧ SpendsWhole w p n e ∧ Finds p n e) h) :
    n.pc = .stopped ∨ OriginLanded w h n p := by
  have hi : Tracked w [] (.start disk clock steady) p :=
    ⟨serving_start disk clock steady, rfl, nofun, fun t ht => absurd ht List.not_mem_nil⟩
  exact (live_invariant (I := fun h n => Tracked w h n p) hi
    (fun _ _ _ _ hI hc hs hl => hI.step hn hc.1 hc.2.1 hc.2.2 hs hl) hr ha).imp_right Tracked.originLanded

instance (n : Node) : (e : Event) → Decidable (WritesMissing n e)
  | .ltWrite handle _ _ =>
    inferInstanceAs (Decidable (∀ t ∈ n.replica.session.find handle, t.complete = false))
  | .tick _ | .directory .. | .localWrite .. | .localDelete _ | .ltOpen _ | .ltVerify .. | .ltState .. | .post ..
  | .advance | .woken _ | .round _ | .receive _ => inferInstanceAs (Decidable True)

instance (p : Path) (n : Node) (e : Event) : Decidable (Undisturbed w p n e) :=
  decidable_of_iff (HonestCreate w n e ∧ writesLocally e p = false ∧ tampers w n e p = false ∧
      WritesMissing n e)
    ⟨fun h => ⟨h.1, h.2.1, h.2.2.1, h.2.2.2⟩,
      fun h => ⟨h.honest, h.unwritten, h.untampered, h.missing⟩⟩

instance (p : Path) (n : Node) (e : Event) : Decidable (SpendsWhole w p n e) := by
  unfold SpendsWhole
  infer_instance

instance (p : Path) (n : Node) (e : Event) : Decidable (Finds p n e) := by
  unfold Finds
  infer_instance

instance (h : History Node Event) (n : Node) (p : Path) : Decidable (OriginLanded w h n p) := by
  unfold OriginLanded
  infer_instance

theorem stampedTwice_lands :
    ∃ h n, Run (step sampleWorld) (.start ∅ 1000 0) h n ∧
      (∃ t ∈ n.replica.session.torrents, sampleWorld.heldPath t = samplePath ∧
        drained h t.handle = true) ∧ OriginLanded sampleWorld h n samplePath := by
  obtain ⟨h, n, hr, hp, hd, ha⟩ := exists_run (step sampleWorld) (.start ∅ 1000 0) stampedTwice
    (fun h n => n.pc.goesOn = true ∧ (∃ t ∈ n.replica.session.torrents,
        sampleWorld.heldPath t = samplePath ∧ drained h t.handle = true) ∧
      Always (fun _ n e => Undisturbed sampleWorld samplePath n e ∧
        SpendsWhole sampleWorld samplePath n e ∧ Finds samplePath n e) h) (by decide +kernel)
  exact ⟨h, n, hr, hd, (origin_lands sampleWorld_hashesName hr ha).resolve_left (ne_stopped hp)⟩

/-- A create, half of its transfer, the same content announced again at a later
origin, and the rest of the transfer. -/
def stampedHalfway : List Event :=
  pass false (some (sampleCreate "xy" 900)) ++ [.ltOpen 0, .ltWrite 0 0 1, .tick 200] ++
    pass false (some (sampleCreate "xy" 1100)) ++ [.ltWrite 0 1 1, .post .torrentFinished 0] ++
    drainPass 1 false none ++ [.post .cacheFlushed 0] ++ drainPass 1 true none

theorem stampedHalfway_strays :
    ∃ h n, Run (step sampleWorld) (.start ∅ 1000 0) h n ∧ n.pc.goesOn = true ∧
      Always (fun _ n e => Undisturbed sampleWorld samplePath n e) h ∧
      ¬ OriginLanded sampleWorld h n samplePath :=
  exists_run (step sampleWorld) (.start ∅ 1000 0) stampedHalfway
    (fun h n => n.pc.goesOn = true ∧
      Always (fun _ n e => Undisturbed sampleWorld samplePath n e) h ∧
      ¬ OriginLanded sampleWorld h n samplePath) (by decide +kernel)

end SyncFs
