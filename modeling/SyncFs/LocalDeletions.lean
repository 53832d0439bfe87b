import SyncFs.SyncLoop

/-!
# Local deletions

A path that has left the listing and has a tombstone is taken for the echo of a
deletion a peer asked for. Whether that tombstone is newer than the copy that
went is not asked, so one the copy had already defeated swallows the deletion.
-/

namespace SyncFs

open CharConversions LabelledRuns

def ClockAhead (n : Node) : Prop :=
  ∀ p ∈ n.replica.former.keys, ∀ t ∈ n.replica.former[p]?, t.toTicks < n.clock

def Defeated (n : Node) (p : Path) (t : FileTime) : Prop :=
  ∃ grave ∈ n.replica.tombstones[p]?, beats grave t = true

instance (n : Node) : Decidable (ClockAhead n) := by unfold ClockAhead; infer_instance

section

variable (w : World)

/-- The removal is among the changes, is said whenever they are, and its
tombstone beats the copy that went. -/
def Travels (n : Node) (current : FileMap) (p : Path) (t : FileTime) : Prop :=
  (changesAt n current).1.removed[p]? = some t ∧
    (∀ tree current' now,
      Source.remove p now ∈ send w tree (changesAt n current).1 current' now) ∧
    ∃ grave ∈ (changesAt n current).2[p]?, beats grave t = true

def DeletionsTravel (n : Node) (e : Event) : Prop :=
  ∀ current ∈ listed n e, ClockAhead n → ∀ p ∈ n.replica.former.keys,
    ∀ t ∈ n.replica.former[p]?, p ∉ current → ¬ Defeated n p t → Travels w n current p t

/-- No tombstone is held for a path that went whose copy it does not beat. -/
def TombstonesBeat (n : Node) (e : Event) : Prop :=
  ∀ current ∈ listed n e, ClockAhead n → ∀ p ∈ n.replica.former.keys,
    ∀ t ∈ n.replica.former[p]?, p ∉ current →
      ∀ grave ∈ n.replica.tombstones[p]?, beats grave t = true

instance (n : Node) (e : Event) : Decidable (TombstonesBeat n e) := by
  unfold TombstonesBeat
  infer_instance

end

variable {w : World}

private theorem remove_mem_send {diff : Diff} {p : Path} {t : FileTime}
    (h : diff.removed[p]? = some t) (tree : Tree) (current : FileMap) (now : TimePoint) :
    Source.remove p now ∈ send w tree diff current now := by
  apply List.mem_append_left
  apply List.mem_append_left
  exact List.mem_map.mpr ⟨(p, t), PathMap.mem_toList.mpr h, rfl⟩

theorem travels_iff {n : Node} {current : FileMap} {p : Path} {t : FileTime} (ha : ClockAhead n)
    (ht : n.replica.former[p]? = some t) (hg : p ∉ current) :
    (¬ Defeated n p t → Travels w n current p t) ↔
      ∀ grave ∈ n.replica.tombstones[p]?, beats grave t = true := by
  have hr := @localChanges_removed n.replica.former current n.replica.inbound.written
    n.replica.tombstones n.clock p hg
  have hd := @localChanges_tombstones n.replica.former current n.replica.inbound.written
    n.replica.tombstones n.clock p hg
  have hp : p ∈ n.replica.former := PathMap.mem_iff.mpr ⟨t, ht⟩
  constructor
  · intro h grave hm
    by_contra hb
    -- The tombstone stands, so the removal is dropped as an echo.
    have hn : ¬ Defeated n p t := by
      rintro ⟨other, ho, hbo⟩
      rw [Option.mem_def.mp hm] at ho
      obtain rfl := Option.some.inj ho
      exact hb hbo
    obtain ⟨hrem, -, -⟩ := h hn
    rw [changesAt, hr, PathMap.contains_eq, Option.mem_def.mp hm] at hrem
    simp [ht] at hrem
  · intro h hn
    have hnone : n.replica.tombstones[p]? = none := by
      cases hg : n.replica.tombstones[p]? with
      | none => rfl
      | some grave => exact absurd ⟨grave, hg, h grave hg⟩ hn
    have hrem : (changesAt n current).1.removed[p]? = some t := by
      rw [changesAt, hr, PathMap.contains_eq, hnone, ht]
      rfl
    refine ⟨hrem, remove_mem_send hrem, ?_⟩
    refine ⟨n.clock, ?_, beats_iff.mpr (ha p (Std.ExtTreeMap.mem_keys.mpr hp) t ht)⟩
    rw [Option.mem_def, changesAt, hd]
    have hnt : p ∉ n.replica.tombstones := by
      rw [Std.ExtTreeMap.mem_iff_isSome_getElem?, hnone]
      exact Bool.false_ne_true
    simp [hp, hnt]

/-- Every local deletion of a run travels exactly when no path goes while a
tombstone its copy has defeated is held for it. -/
theorem deletionsTravel_iff {disk : Disk} {clock : TimePoint} {steady : SteadyTime}
    {h : History Node Event} {n : Node} (hr : Run (step w) (.start disk clock steady) h n) :
    Always (fun _ n e => DeletionsTravel w n e) h ↔
      Always (fun _ n e => TombstonesBeat n e) h := by
  apply hr.always_iff
  intro _ n e _ _ _
  refine forall₂_congr fun current _ => forall_congr' fun ha => ?_
  refine forall₂_congr fun p _ => forall₂_congr fun t ht => ?_
  exact forall_congr' fun hg => travels_iff ha ht hg

def plainDeletion : List Event :=
  [.localWrite samplePath (sampleFile "x" 900)] ++ pass true none ++
    [.localDelete samplePath, .tick 10] ++ pass true none

theorem plainDeletion_travels :
    ∃ h n, Run (step sampleWorld) (.start ∅ 1000 0) h n ∧
      n.replica.tombstones[samplePath]? = some 1010 ∧
      Always (fun _ n e => DeletionsTravel sampleWorld n e) h := by
  obtain ⟨h, n, hr, ht, hb⟩ := exists_run (step sampleWorld) (.start ∅ 1000 0) plainDeletion
    (fun h n => n.replica.tombstones[samplePath]? = some 1010 ∧
      Always (fun _ n e => TombstonesBeat n e) h) (by decide +kernel)
  exact ⟨h, n, hr, ht, (deletionsTravel_iff hr).mpr hb⟩

/-- A create, a digest with an older deletion while its transfer is under way,
the transfer finished and stamped, and the file deleted by its user. -/
def swallowedDeletion : List Event :=
  pass false (some (sampleCreate "x" 900)) ++
    pass false (some (Source.digest sampleWorld.endpoint []
      (encodeTombstones (.ofList [(samplePath, 800)] compare)))) ++
    [.ltOpen 0, .ltWrite 0 0 1, .post .torrentFinished 0] ++ drainPass 1 false none ++
    [.post .cacheFlushed 0] ++ drainPass 1 true none ++
    [.localDelete samplePath, .tick 10, .advance, .advance, .woken (some [])]

/-- The deletion is not among the changes, though the only tombstone held for
the path is older than the copy that went. -/
def Swallows (n : Node) (e : Event) : Prop :=
  ∃ current ∈ listed n e, ClockAhead n ∧
    n.replica.former[samplePath]? = some (toFileTime 900) ∧ samplePath ∉ current ∧
    n.replica.tombstones[samplePath]? = some 800 ∧
    (changesAt n current).1.removed[samplePath]? = none

instance (n : Node) (e : Event) : Decidable (Swallows n e) := by unfold Swallows; infer_instance

theorem Swallows.not_deletionsTravel {n : Node} {e : Event} (hs : Swallows n e) :
    ¬ DeletionsTravel w n e := by
  obtain ⟨current, hl, ha, hf, hg, ht, hr⟩ := hs
  intro hd
  have hk := Std.ExtTreeMap.mem_keys.mpr (PathMap.mem_iff.mpr ⟨_, hf⟩)
  have hn : ¬ Defeated n samplePath (toFileTime 900) := by
    rintro ⟨grave, hm, hb⟩
    rw [ht] at hm
    obtain rfl := Option.some.inj hm
    exact absurd hb (by decide)
  obtain ⟨hrem, -⟩ := hd current hl ha samplePath hk (toFileTime 900) hf hg hn
  rw [hr] at hrem
  cases hrem

theorem swallowedDeletion_not_travels :
    ∃ h n, Run (step sampleWorld) (.start ∅ 1000 0) h n ∧
      ¬ Always (fun _ n e => DeletionsTravel sampleWorld n e) h := by
  obtain ⟨h, n, hr, hs⟩ := exists_run (step sampleWorld) (.start ∅ 1000 0) swallowedDeletion
    (fun h _ => (h.head?.any fun x => Swallows x.1 x.2) = true) (by decide +kernel)
  obtain ⟨⟨s, e⟩, hx, hs⟩ := (Option.any_eq_true _ _).mp hs
  obtain ⟨t, rfl⟩ := List.head?_eq_some_iff.mp hx
  exact ⟨_, n, hr, fun ha => (of_decide_eq_true hs).not_deletionsTravel ha.1⟩

end SyncFs
