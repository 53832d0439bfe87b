import SyncFs.AppliedCreates

/-!
# The time of a repair

A repair says a cached announcement again, under the time the listing has for
the path. The announcement moves when a create is applied and the listing with
every traversal and every stamp, so the two need not be of one version.
-/

namespace SyncFs

open CharConversions LabelledRuns

def Repairing (n : Node) (e : Event) : Bool :=
  match n.pc, e with
  | .repair, .advance => true
  | _, _ => false

def duePaths (n : Node) : List Path := (due n.replica.repairs.pending n.now).1

section

variable (w : World)

/-- Every repair made from the cache is on the wire as some one create last
applied for the path announced it. -/
def RepairsAsApplied (h : History Node Event) (n : Node) (e : Event) : Prop :=
  Repairing n e = true → ∀ p ∈ duePaths n, ∀ t ∈ n.replica.former[p]?,
    ∀ b ∈ n.replica.repairs.announcements[p]?,
      Source.repair p t b ∈ (publishRepairs w n.replica n.now).2 ∧
      ∃ v ∈ lastApplied w h p, Source.repair p t b = announce (part v 1) (originOf v) p

/-- The listing has every due path it repairs from the cache at the time the
path's create was applied with. -/
def ListedAsApplied (n : Node) (e : Event) : Prop :=
  Repairing n e = true → ∀ p ∈ duePaths n, ∀ t ∈ n.replica.former[p]?,
    p ∈ n.replica.repairs.announcements → ∀ a ∈ n.replica.repairs.applied[p]?, t = a.origin

end

variable {w : World} {n : Node} {e : Event} {h : History Node Event}

theorem announce_inj {b c : Bytes} {t o : FileTime} {p : Path}
    (h : announce b t p = announce c o p) : b = c ∧ t = o := by
  simp only [announce, List.cons.injEq, and_true, true_and] at h
  exact ⟨h.1, FileTime.toTicks_inj.mp (printInt_injective h.2)⟩

/-- A pass over the due paths says every one that is listed and cached. -/
theorem repair_mem_publishRepairs {r : Replica} {now : SteadyTime} {p : Path} {t : FileTime}
    {b : Bytes} (hp : p ∈ (due r.repairs.pending now).1) (ht : r.former[p]? = some t)
    (hb : r.repairs.announcements[p]? = some b) :
    Source.repair p t b ∈ (publishRepairs w r now).2 := by
  have hmono : ∀ (ps : List Path) (s : Publishing) (m : List Bytes), m ∈ s.said →
      m ∈ (ps.foldl (publishOne (Source.create w r.toTree) r) s).said := by
    intro ps
    induction ps with
    | nil => exact fun _ _ hm => hm
    | cons q ps ih =>
      intro s m hm
      apply ih
      unfold publishOne
      split
      · exact hm
      · split
        · exact List.mem_append_left _ hm
        · split
          · exact hm
          · exact List.mem_append_left _ hm
  have hsay : ∀ (ps : List Path) (s : Publishing), p ∈ ps →
      Source.repair p t b ∈ (ps.foldl (publishOne (Source.create w r.toTree) r) s).said := by
    intro ps
    induction ps with
    | nil => exact fun _ hm => absurd hm List.not_mem_nil
    | cons q ps ih =>
      intro s hm
      rcases List.mem_cons.mp hm with rfl | hm
      · refine hmono ps _ _ ?_
        simp [publishOne, ht, hb]
      · exact ih _ hm
  exact hsay _ _ hp

theorem repairsAsApplied_iff (hr : Recalls (lastApplied w h) n.replica) :
    RepairsAsApplied w h n e ↔ ListedAsApplied n e := by
  refine forall_congr' fun _ => forall₂_congr fun p hp => forall₂_congr fun t ht => ?_
  constructor
  · intro hs hm a ha
    obtain ⟨b, hb⟩ := PathMap.mem_iff.mp hm
    obtain ⟨-, v, hv, he⟩ := hs b hb
    obtain ⟨u, hu, ho⟩ := hr.applied p a ha
    rw [Option.mem_def, hu] at hv
    obtain rfl := Option.some.inj hv
    exact (announce_inj he).2.trans ho.symm
  · intro hl b hb
    refine ⟨repair_mem_publishRepairs hp ht hb, ?_⟩
    have hm := PathMap.mem_iff.mpr ⟨b, hb⟩
    obtain ⟨a, ha⟩ := PathMap.mem_iff.mp (hr.both p hm)
    obtain ⟨v, hv, ho⟩ := hr.applied p a ha
    obtain ⟨u, hu, rfl⟩ := hr.announced p b hb
    rw [hv] at hu
    obtain rfl := Option.some.inj hu
    exact ⟨v, hv, by rw [hl hm a ha, ho]; rfl⟩

/-- Every repair of a run is of one version exactly when the listing has what is
repaired from the cache at the time it was applied with. -/
theorem repairsAsApplied_run {disk : Disk} {clock : TimePoint} {steady : SteadyTime}
    (hr : Run (step w) (.start disk clock steady) h n) :
    Always (RepairsAsApplied w) h ↔ Always (fun _ n e => ListedAsApplied n e) h := by
  apply hr.always_iff
  intro h n e m hr hs
  rcases recalls hr with hp | hI
  · have hn : Repairing n e = false := by
      unfold Repairing
      rw [hp]
    simp [RepairsAsApplied, ListedAsApplied, hn]
  · exact repairsAsApplied_iff hI

instance (h : History Node Event) (n : Node) (e : Event) : Decidable (RepairsAsApplied w h n e) := by
  unfold RepairsAsApplied
  infer_instance

instance (n : Node) (e : Event) : Decidable (ListedAsApplied n e) := by
  unfold ListedAsApplied
  infer_instance

def plainRepair : List Event :=
  [.localWrite samplePath (sampleFile "x" 1000)] ++ pass true none ++
    pass false (some (sampleCreate "x" 1000)) ++
    pass false (some (Source.digest sampleWorld.endpoint [] [])) ++ pass false none

theorem plainRepair_asApplied :
    ∃ h n, Run (step sampleWorld) (.start ∅ 1000 0) h n ∧
      n.sent.count (sampleCreate "x" 1000) = 2 ∧ Always (RepairsAsApplied sampleWorld) h := by
  obtain ⟨h, n, hr, hc, hl⟩ := exists_run (step sampleWorld) (.start ∅ 1000 0) plainRepair
    (fun h n => n.sent.count (sampleCreate "x" 1000) = 2 ∧
      Always (fun _ n e => ListedAsApplied n e) h) (by decide +kernel)
  exact ⟨h, n, hr, hc, (repairsAsApplied_run hr).mpr hl⟩

/-- The file edited and listed, the create for the edit lost, and the digest of a
peer that holds the version before. -/
def editedRepair : List Event :=
  [.localWrite samplePath (sampleFile "x" 1000)] ++ pass true none ++
    pass false (some (sampleCreate "x" 1000)) ++
    [.tick 10, .localWrite samplePath (sampleFile "y" 1010)] ++
    pass true (some (Source.digest sampleWorld.endpoint
      (encodeHeld (.ofList [(samplePath, toFileTime 1000)] compare)) [])) ++ pass false none

/-- The old content goes out under the time of the edit. -/
theorem editedRepair_not_asApplied :
    ∃ h n, Run (step sampleWorld) (.start ∅ 1000 0) h n ∧ sampleCreate "x" 1010 ∈ n.sent ∧
      ¬ Always (RepairsAsApplied sampleWorld) h :=
  exists_run (step sampleWorld) (.start ∅ 1000 0) editedRepair
    (fun h n => sampleCreate "x" 1010 ∈ n.sent ∧ ¬ Always (RepairsAsApplied sampleWorld) h)
    (by decide +kernel)

end SyncFs
