import SyncFs.Transfers

/-!
# Echoes of transfers

A file libtorrent has written is told from a local edit by what it looked like
when the stamp went through. A listing taken while libtorrent's last write is
not yet remembered sees a file at a time nobody has recorded.
-/

namespace SyncFs

open CharConversions LabelledRuns

section

variable (w : World)

/-- The file at a path has been written since it was last listed or remembered, or
the last listing has missed it. -/
def unrecorded : History Node Event → Path → Bool
  | [], _ => false
  | (n, e) :: h, p =>
    if ltTouches w n e p || writesLocally e p || restamps w n e p then true
    else if recordsAt w n e p then false
    else
      match listed n e with
      | some current => decide (p ∉ current)
      | none => unrecorded h p

/-- A local process has written the file after a create for it was applied. -/
def rewritten : History Node Event → Path → Bool
  | [], _ => false
  | (_, e) :: h, p => rewritten h p || ((lastApplied w h p).isSome && writesLocally e p)

/-- A create was applied and nobody but libtorrent has written the file since. -/
def OnlyTransferred (h : History Node Event) (p : Path) : Prop :=
  (lastApplied w h p).isSome = true ∧ rewritten w h p = false

instance (h : History Node Event) (p : Path) : Decidable (OnlyTransferred w h p) := by
  unfold OnlyTransferred
  infer_instance

/-- A listing that finds changes has no create said for a file only libtorrent
has written, whatever has become of the directory by the time they are said. -/
def AnnouncesNoTransfer (h : History Node Event) (n : Node) (e : Event) : Prop :=
  ∀ current ∈ listed n e, ∀ p, OnlyTransferred w h p → ∀ tree current' now,
    ∀ v ∈ send w tree (changesAt n current).1 current' now, ¬ CreatesFor p v

/-- No listing finds such a file written and not remembered, or missed before, at a
time that is new and that no tombstone beats. -/
def ListsRecorded (h : History Node Event) (n : Node) (e : Event) : Prop :=
  ∀ current ∈ listed n e, ∀ p ∈ current.keys, OnlyTransferred w h p →
    unrecorded w h p = true → ∀ t ∈ current[p]?,
      n.replica.former[p]? = some t ∨ n.replica.inbound.written[p]? = some t ∨
        ∃ grave ∈ n.replica.tombstones[p]?, beats grave t = true

end

variable {w : World} {n m : Node} {e : Event} {h : History Node Event} {p : Path}

/-- The copy at a path is as it was listed or remembered. -/
def Known (r : Replica) (p : Path) : Prop :=
  ∀ file, r.disk[p]? = some file →
    r.former[p]? = some file.mtime ∨ r.inbound.written[p]? = some file.mtime

/-- The copy at a path is known, or as the listing about to be taken over has it. -/
def KnownAt (n : Node) (p : Path) : Prop :=
  match n.pc with
  | .sending _ current => ∀ file, n.replica.disk[p]? = some file → current[p]? = some file.mtime
  | _ => Known n.replica p

namespace Known

variable {r r' : Replica}

theorem congr (hk : Known r p) (hd : ∀ file, r'.disk[p]? = some file → r.disk[p]? = some file)
    (hf : r'.former[p]? = r.former[p]?)
    (hw : r'.inbound.written[p]? = r.inbound.written[p]?) : Known r' p := by
  intro file h
  rw [hf, hw]
  exact hk file (hd file h)

theorem absent (h : r.disk[p]? = none) : Known r p := by
  intro file hf
  rw [h] at hf
  cases hf

theorem recorded {time : FileTime} (hp : p.IsKey) (ht : r.lastWriteTime w p = some time)
    (hf : r.former[p]? = some time) : Known r p := by
  intro file hfile
  rw [Tree.lastWriteTime_of_find ((Tree.find_key (w := w) hp).trans hfile)] at ht
  exact .inl (ht ▸ hf)

theorem stamps {path : Path} {writtenBy : FileTime} (hk : Known r p) (hp : p.IsKey)
    (hs : StampsAs w r path writtenBy r')
    (hl : path = p ∨ r.locate w path ≠ some (w.destination p)) : Known r' p := by
  rw [Tree.destination_key hp] at hl
  by_cases hq : path = p
  · subst hq
    rcases hs.at_self with ⟨-, hd, hf, hw⟩ | ⟨-, here, time, -, ht, hf, -⟩
    · exact hk.congr (fun _ h => hd ▸ h) (by rw [hf]) (by rw [hw])
    · exact .recorded hp ht hf
  · have hd := hs.disk_other (hl.resolve_left hq)
    obtain ⟨hf, hw⟩ := hs.memory_other hq
    exact hk.congr (fun _ h => hd ▸ h) hf hw

theorem erase {path : Path} {left : Replica} (hk : Known r p)
    (he : SyncFs.erase w r path = .ok left) : Known left p := by
  obtain ⟨tree, hd, rfl⟩ := erase_ok he
  refine hk.congr (fun file h => ?_) rfl rfl
  rw [Tree.getElem?_remove hd] at h
  split at h
  · cases h
  · exact h

end Known

theorem Known.received {r r' : Replica} {v : List Bytes} {clock : TimePoint} {b : Bool}
    (hp : p.IsKey) (hk : Known r p) (h : Received w v clock r b (.ok r'))
    (hl : b = true → ∀ torrent ∈ torrentOf w v, heldAlready w r v torrent = true →
      announcedPath v = p ∨ r.locate w (announcedPath v) ≠ some (w.destination p)) : Known r' p := by
  cases h with
  | rejected | refused | state => exact hk
  | removed _ erased =>
    have he := hk.erase erased
    exact he
  | @applied torrent _ _ loads _ =>
    have hs : Known (r.serving w v torrent) p := hk
    obtain ⟨left, he, hleft⟩ := applied_cases w r v torrent
    rw [he]
    rcases hleft with ⟨hh, hst⟩ | ⟨-, rfl⟩
    · have hkl := hs.stamps hp hst (hl rfl _ loads hh)
      exact hkl
    · exact hs
  | digest _ adopted _ =>
    have ha := adopt_preserves (P := fun r => Known r p) hk (fun _ _ _ _ hr => hr)
      (fun r left path moment _ hr he => by
        obtain ⟨tree, hd, rfl⟩ := erase_ok he
        by_cases hq : (r.unlisted path moment).locate w path = some p
        · exact Known.absent (by rw [Tree.getElem?_remove hd, if_pos hq])
        · have hne : path ≠ p := fun h => hq (by rw [h, Tree.locate_key hp])
          refine hr.congr (fun file h => ?_) (by simp [Replica.unlisted, hne]) rfl
          rwa [Tree.getElem?_remove hd, if_neg hq] at h)
      adopted
    exact ha

theorem knownAt_iff (h : ∀ diff current, n.pc ≠ .sending diff current) :
    KnownAt n p ↔ Known n.replica p := by
  unfold KnownAt
  split
  · next diff current hp => exact absurd hp (h diff current)
  · rfl

namespace KnownAt

theorem congr (hk : KnownAt n p) (hpc : m.pc = n.pc)
    (hd : ∀ file, m.replica.disk[p]? = some file → n.replica.disk[p]? = some file)
    (hf : m.replica.former[p]? = n.replica.former[p]?)
    (hw : m.replica.inbound.written[p]? = n.replica.inbound.written[p]?) : KnownAt m p := by
  unfold KnownAt at hk ⊢
  rw [hpc]
  split at hk
  · exact fun file h => hk file (hd file h)
  · exact Known.congr hk hd hf hw

theorem list {missed : List Path} (hp : p.IsKey) (hm : p ∈ n.replica.disk.listBut missed) :
    KnownAt (listChanges n (n.replica.disk.listBut missed)) p := by
  intro file h
  have hl : n.replica.disk[p]? = some file := h
  rw [Disk.getElem?_listBut, if_neg (Disk.mem_listBut.mp hm).2, Disk.getElem?_list, if_pos hp, hl,
    Option.map_some]

/-- What is known stays known through every step that is no write of the file. -/
theorem step (hp : p.IsKey) (hk : KnownAt n p) (hs : Stepped w n e m) (hl : m.pc ≠ .stopped)
    (ht : ltTouches w n e p = false) (hw : writesLocally e p = false)
    (hst : restamps w n e p = false) (hlist : listed n e = none) : KnownAt m p := by
  have hrest : ∀ {pc : Pc}, n.pc = pc → (∀ diff current, pc ≠ .sending diff current) →
      Known n.replica p := fun hpc hne => (knownAt_iff (hpc ▸ hne)).mp hk
  have hd : stampCall w n e = none → ∀ file, m.replica.disk[p]? = some file →
      n.replica.disk[p]? = some file := by
    intro hc file hf
    refine hs.file_kept hl hw ht (fun call h => ?_) hf
    rw [hc] at h
    cases h
  cases hs with
  | tick | directory | ltState | ltVerify | post | localWrite | localDelete | ltOpen | ltWrite =>
    exact hk.congr rfl (hd (by simp [stampCall])) rfl rfl
  | top hpc =>
    have hk := hrest hpc (by simp)
    rw [beginPass]
    split <;> exact hk
  | test hpc =>
    have hk := hrest hpc (by simp)
    rw [knownAt_iff]
    · exact hk
    · intro _ _
      dsimp only
      split <;> simp
  | pop hpc | processed hpc | clear hpc | idle hpc | nothing hpc | repair hpc =>
    have hk := hrest hpc (by simp)
    exact hk
  | round hpc =>
    have hk := hrest hpc (by simp)
    split <;> exact hk
  | list hpc =>
    rw [listed_list hpc] at hlist
    cases hlist
  | @send diff current hpc =>
    have hk : ∀ file, n.replica.disk[p]? = some file → current[p]? = some file.mtime := by
      unfold KnownAt at hk
      rw [hpc] at hk
      exact hk
    exact fun file h => .inl (hk file h)
  | @process alert rest hpc =>
    have hk := hrest hpc (by simp)
    have hq := processed w n alert
    generalize processAlert w n alert = r at hq
    cases hq with
    | skipped | finished => exact hk
    | flushed flushes found stamps =>
      have hs := hk.stamps hp stamps (eq_or_locate_ne hst (stampCall_flush hpc flushes found))
      exact hs
  | @receive v hpc =>
    have hk := hrest hpc (by simp)
    obtain ⟨r, he, hrec⟩ := takeIn_live hl
    rw [he]
    refine hk.received hp hrec fun ha torrent ht hh => ?_
    exact eq_or_locate_ne hst (stampCall_receive hpc ha ht hh)

/-- A listing makes every copy known that it does not miss. -/
theorem of_listed {current : FileMap} (hp : p.IsKey) (hlist : listed n e = some current)
    (hm : p ∈ current) (hs : Stepped w n e m) : KnownAt m p := by
  obtain ⟨missed, hpc, rfl, rfl⟩ := listed_eq_some hlist
  cases hs with
  | list => exact .list hp hm

theorem of_recordsAt (hp : p.IsKey) (hr : recordsAt w n e p) (hs : Stepped w n e m)
    (hl : m.pc ≠ .stopped) : KnownAt m p := by
  obtain ⟨call, hc, rfl, hrec⟩ := hr
  obtain ⟨hpc, r, hst, hd, hf, hinbound⟩ := hs.stampCall hl hc
  rw [knownAt_iff hpc]
  rcases hst.at_self with ⟨hn, -⟩ | ⟨-, here, time, -, ht, hformer, -⟩
  · exact absurd hrec hn
  · have hknown : Known r call.2.1 := .recorded hp ht hformer
    exact hknown.congr (fun _ h => hd ▸ h) (by rw [hf]) (by rw [hinbound])

end KnownAt

def Accounted (w : World) (h : History Node Event) (n : Node) : Prop :=
  ∀ p, p.IsKey → unrecorded w h p = true ∨ KnownAt n p

theorem Accounted.step (ha : Accounted w h n) (hs : Stepped w n e m) (hl : m.pc ≠ .stopped) :
    Accounted w ((n, e) :: h) m := by
  intro p hp
  rw [unrecorded]
  split
  · exact .inl rfl
  · next ht =>
    obtain ⟨ht, hst⟩ := Bool.or_eq_false_iff.mp (Bool.eq_false_iff.mpr ht)
    obtain ⟨ht, hw⟩ := Bool.or_eq_false_iff.mp ht
    split
    · next hrec => exact .inr (.of_recordsAt hp hrec hs hl)
    · split
      · next current hlist =>
        by_cases hm : p ∈ current
        · exact .inr (.of_listed hp hlist hm hs)
        · exact .inl (decide_eq_true hm)
      · next hlist => exact (ha p hp).imp_right fun hk => hk.step hp hs hl ht hw hst hlist

/-- Every copy is accounted for, as long as the loop goes on. -/
theorem accounted {disk : Disk} {clock : TimePoint} {steady : SteadyTime}
    (hr : Run (step w) (.start disk clock steady) h n) : n.pc = .stopped ∨ Accounted w h n := by
  have hi : Accounted w [] (.start disk clock steady) := by
    intro p hp
    right
    intro file hf
    left
    change disk.list[p]? = _
    rw [Disk.getElem?_list, if_pos hp]
    exact congrArg _ hf
  exact live_invariant hi (fun _ _ _ _ hI _ hs hl => hI.step hs hl) hr (always_true h)

theorem createsFor_changes {current : FileMap} (hkeys : ∀ q ∈ current, q.IsKey) (tree : Tree)
    (current' : FileMap) (now : TimePoint) :
    (∃ v ∈ send w tree (changesAt n current).1 current' now, CreatesFor p v) ↔
      (p ∈ (changesAt n current).1.created ∨ p ∈ (changesAt n current).1.modified) ∧
        (tree.find w p).isSome = true :=
  createsFor_send (fun q hq => hkeys q (listed_of_announced (.inl hq)))
    (fun q hq => hkeys q (listed_of_announced (.inr hq)))

theorem announcesNoTransfer_iff (ha : Accounted w h n) :
    AnnouncesNoTransfer w h n e ↔ ListsRecorded w h n e := by
  refine forall₂_congr fun current hl => ?_
  obtain ⟨missed, hpc, -, rfl⟩ := listed_eq_some hl
  have hkeys : ∀ q ∈ n.replica.disk.listBut missed, q.IsKey :=
    fun q hq => Disk.isKey_of_mem_list (Disk.mem_listBut.mp hq).1
  constructor
  · intro hn p hp ho hu t ht
    by_contra hc
    simp only [not_or, not_exists, not_and, Bool.not_eq_true] at hc
    have hm := (localChanges_announced n.clock ht).mpr hc
    have hk := hkeys p (Std.ExtTreeMap.mem_keys.mp hp)
    have hf : (n.replica.find w p).isSome = true := by
      have ht := Disk.list_of_listBut ht
      rw [Disk.getElem?_list, if_pos hk] at ht
      obtain ⟨file, hf, -⟩ := Option.map_eq_some_iff.mp ht
      rw [Tree.find_key hk, hf]
      rfl
    obtain ⟨v, hv, hcr⟩ := (createsFor_changes hkeys n.replica.toTree ∅ 0).mpr ⟨hm, hf⟩
    exact hn p ho _ _ _ v hv hcr
  · intro hr p ho tree current' now v hv hcr
    obtain ⟨hm, -⟩ := (createsFor_changes hkeys _ _ _).mp ⟨v, hv, hcr⟩
    have hp := listed_of_announced hm
    have hk := hkeys p hp
    obtain ⟨t, ht⟩ := PathMap.mem_iff.mp hp
    obtain ⟨hf, hw, hg⟩ := (localChanges_announced _ ht).mp hm
    rcases ha p hk with hu | hkn
    · rcases hr p (Std.ExtTreeMap.mem_keys.mpr hp) ho hu t ht with h | h | ⟨grave, hm, hb⟩
      · exact hf h
      · exact hw h
      · rw [hg grave hm] at hb
        cases hb
    · have hkn := (knownAt_iff (by simp [hpc])).mp hkn
      have ht := Disk.list_of_listBut ht
      rw [Disk.getElem?_list, if_pos hk] at ht
      obtain ⟨file, hfile, rfl⟩ := Option.map_eq_some_iff.mp ht
      exact (hkn file hfile).elim hf hw

/-- No file only libtorrent has written is announced in a run exactly when no
listing of it sees one written and neither stamped nor listed since. -/
theorem announcesNoTransfer_run {disk : Disk} {clock : TimePoint} {steady : SteadyTime}
    (hr : Run (step w) (.start disk clock steady) h n) :
    Always (AnnouncesNoTransfer w) h ↔ Always (ListsRecorded w) h := by
  apply hr.always_iff
  intro h n e m hr hs
  rcases accounted hr with hp | ha
  · have hl : listed n e = none := by
      unfold listed
      rw [hp]
    simp [AnnouncesNoTransfer, ListsRecorded, hl]
  · exact announcesNoTransfer_iff ha

instance (h : History Node Event) (n : Node) (e : Event) : Decidable (ListsRecorded w h n e) := by
  unfold ListsRecorded
  infer_instance

def quietTransfer : List Event :=
  pass false (some (sampleCreate "xy" 900)) ++
    [.ltOpen 0, .ltWrite 0 0 2, .post .torrentFinished 0] ++ drainPass 1 false none ++
    [.post .cacheFlushed 0] ++ drainPass 1 true none ++ pass true none

theorem quietTransfer_not_announced :
    ∃ h n, Run (step sampleWorld) (.start ∅ 1000 0) h n ∧
      OnlyTransferred sampleWorld h samplePath ∧
      n.replica.former[samplePath]? = some (toFileTime 900) ∧
      Always (AnnouncesNoTransfer sampleWorld) h := by
  obtain ⟨h, n, hr, ho, hf, hl⟩ := exists_run (step sampleWorld) (.start ∅ 1000 0) quietTransfer
    (fun h n => OnlyTransferred sampleWorld h samplePath ∧
      n.replica.former[samplePath]? = some (toFileTime 900) ∧
      Always (ListsRecorded sampleWorld) h) (by decide +kernel)
  exact ⟨h, n, hr, ho, hf, (announcesNoTransfer_run hr).mpr hl⟩

/-- A create, half of its transfer, and an event on some other path. -/
def listedTransfer : List Event :=
  pass false (some (sampleCreate "xy" 900)) ++
    [.ltOpen 0, .ltWrite 0 0 1, .advance, .advance, .woken (some [])]

/-- The half that is there is announced, as of the receiver's own clock. -/
def SpreadsHalf (h : History Node Event) (n : Node) (e : Event) : Prop :=
  OnlyTransferred sampleWorld h samplePath ∧ ∃ current ∈ listed n e,
    sampleCreate "x" 1000 ∈ send sampleWorld n.replica.toTree (changesAt n current).1 current n.clock

instance (h : History Node Event) (n : Node) (e : Event) : Decidable (SpreadsHalf h n e) := by
  unfold SpreadsHalf
  infer_instance

theorem listedTransfer_announced :
    ∃ h n, Run (step sampleWorld) (.start ∅ 1000 0) h n ∧
      ¬ Always (AnnouncesNoTransfer sampleWorld) h := by
  obtain ⟨h, n, hr, hs⟩ := exists_run (step sampleWorld) (.start ∅ 1000 0) listedTransfer
    (fun h _ => ∃ x ∈ h.head?, SpreadsHalf h.tail x.1 x.2) (by decide +kernel)
  obtain ⟨⟨s, e⟩, hx, ho, current, hl, hm⟩ := hs
  obtain ⟨t, rfl⟩ := List.head?_eq_some_iff.mp hx
  refine ⟨_, n, hr, fun ha => ?_⟩
  exact ha.1 current hl samplePath ho _ _ _ _ hm (by decide)

end SyncFs
