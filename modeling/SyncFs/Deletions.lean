import SyncFs.SyncLoop

/-!
# Deletions against newer copies

A deletion reaches the disk by two routes. A remove is carried out as it comes;
a tombstone out of a digest is weighed, but against the last listing. Neither
looks at the copy on disk, so a copy written since can be older than neither
and go all the same.
-/

namespace SyncFs

open CharConversions LabelledRuns

/-- A deletion as the node processes it: the replica before and after, and
whether it is one the node carries out. -/
structure Deletion where
  before : Replica
  path : Path
  moment : TimePoint
  carriedOut : Bool
  after : Replica

section

variable (w : World)

def adoptions : List (Path × TimePoint) → Replica × List Path → List Deletion
  | [], _ => []
  | e :: es, s =>
    match adoptOne w s e with
    | .error r => [⟨s.1, e.1, e.2, s.1.former.contains e.1, r⟩]
    | .ok t => ⟨s.1, e.1, e.2, s.1.former.contains e.1, t.1⟩ :: adoptions es t

def deletions (v : List Bytes) (clock : TimePoint) (r : Replica) : List Deletion :=
  match removedPath v, act w v r with
  | some path, .ok (r', _) => [⟨r, path, fromTicks (part v 2), true, r'⟩]
  | some path, .error r' => [⟨r, path, fromTicks (part v 2), true, r'⟩]
  | none, .ok (r, .ok outcome) =>
    if outcome.verb = ascii "digest" then
      let theirs := decodeTombstones (part v 2)
      adoptions w (adoptable theirs r.former r.tombstones clock).toList (r, [])
    else []
  | none, _ => []

def NewerCopy (r : Replica) (path : Path) (moment : TimePoint) : Prop :=
  ∃ file, r.find w path = some file ∧ moment ≤ file.mtime.toTicks

/-- A copy no older than the deletion stays on disk and in the session. -/
def Spares (d : Deletion) : Prop :=
  ∀ file, d.before.find w d.path = some file → d.moment ≤ file.mtime.toTicks →
    d.after.find w d.path = some file ∧
      ∀ t ∈ d.before.session.torrentsAt w d.path, t ∈ d.after.session.torrents

def stepDeletions (n : Node) (e : Event) : List Deletion :=
  match n.pc, e with
  | .receive, .receive (some v) => deletions w v n.clock n.replica
  | _, _ => []

/-- Every deletion the step processes spares a copy no older than it. -/
def SparesNewer (n : Node) (e : Event) : Prop := ∀ d ∈ stepDeletions w n e, Spares w d

/-- No deletion the step carries out finds a copy as new as it on disk. -/
def FindsOlder (n : Node) (e : Event) : Prop :=
  ∀ d ∈ stepDeletions w n e, d.carriedOut = true → ¬ NewerCopy w d.before d.path d.moment

instance (r : Replica) (path : Path) (moment : TimePoint) : Decidable (NewerCopy w r path moment) :=
  decidable_of_iff (((r.find w path).any fun file => moment ≤ file.mtime.toTicks) = true)
    (by cases h : r.find w path <;> simp [NewerCopy, h])

instance (d : Deletion) : Decidable (Spares w d) :=
  decidable_of_iff (∀ file ∈ d.before.find w d.path, d.moment ≤ file.mtime.toTicks →
    d.after.find w d.path = some file ∧
      ∀ t ∈ d.before.session.torrentsAt w d.path, t ∈ d.after.session.torrents) Iff.rfl

instance (n : Node) (e : Event) : Decidable (SparesNewer w n e) := by
  unfold SparesNewer
  infer_instance

instance (n : Node) (e : Event) : Decidable (FindsOlder w n e) := by
  unfold FindsOlder
  infer_instance

end

variable {w : World} {d : Deletion}

/-- The deletion has gone through the session and the disk, or touched neither. -/
structure Deletion.Erases (w : World) (d : Deletion) : Prop where
  erased : d.carriedOut = true → ∀ file, d.before.find w d.path = some file →
    d.after.find w d.path = none
  untouched : d.carriedOut = false →
    d.after.toTree = d.before.toTree ∧ d.after.session = d.before.session

theorem Deletion.Erases.spares_iff (he : d.Erases w) :
    Spares w d ↔ (d.carriedOut = true → ¬ NewerCopy w d.before d.path d.moment) := by
  constructor
  · rintro hs hc ⟨file, hf, hm⟩
    obtain ⟨ha, -⟩ := hs file hf hm
    rw [he.erased hc file hf] at ha
    cases ha
  · intro hn file hf hm
    cases hc : d.carriedOut with
    | true => exact absurd ⟨file, hf, hm⟩ (hn hc)
    | false =>
      obtain ⟨hd, hs⟩ := he.untouched hc
      rw [hd, hs]
      exact ⟨hf, fun t ht => (Session.mem_torrentsAt.mp ht).1⟩

theorem erase_find {r r' : Replica} {path : Path} {file : File}
    (he : erase w r path = .ok r' ∨ erase w r path = .error r')
    (hf : r.find w path = some file) : r'.find w path = none := by
  obtain ⟨spot, hl, -, hr⟩ := erase_of_find hf
  rw [hr] at he
  obtain rfl := Except.ok.inj (he.resolve_right (by simp))
  exact Tree.find_erase hl r.directories

/-- Each deletion of a digest is carried out exactly when the path is listed. -/
theorem adoptions_erases {es : List (Path × TimePoint)} {s : Replica × List Path}
    (hd : d ∈ adoptions w es s) : d.Erases w := by
  induction es generalizing s with
  | nil => cases hd
  | cons e es ih =>
    obtain ⟨r, deleted⟩ := s
    obtain ⟨path, moment⟩ := e
    rw [adoptions] at hd
    cases hc : r.former.contains path with
    | false =>
      rw [adoptOne_unheld hc] at hd
      rcases List.mem_cons.mp hd with rfl | hd
      · exact ⟨fun h => by simp [hc] at h, fun _ => ⟨rfl, rfl⟩⟩
      · exact ih hd
    | true =>
      rw [adoptOne_held hc] at hd
      cases he : erase w (r.unlisted path moment) path with
      | error r' =>
        rw [he] at hd
        obtain rfl := List.mem_singleton.mp hd
        exact ⟨fun _ file hf => erase_find (r := r.unlisted path moment) (.inr he) hf,
          fun h => by simp [hc] at h⟩
      | ok r' =>
        rw [he] at hd
        rcases List.mem_cons.mp hd with rfl | hd
        · exact ⟨fun _ file hf => (erase_find (Or.inl he) hf :),
            fun h => by simp [hc] at h⟩
        · exact ih hd

theorem deletions_erases {v : List Bytes} {clock : TimePoint} {r : Replica}
    (hd : d ∈ deletions w v clock r) : d.Erases w := by
  rw [deletions] at hd
  split at hd
  · next path r' verdict hr ha =>
    obtain rfl := List.mem_singleton.mp hd
    rw [act_of_removedPath hr] at ha
    obtain ⟨left, he, rfl, -⟩ := actRemove_ok ha
    exact ⟨fun _ file hf => (erase_find (Or.inl he) hf :), fun h => by cases h⟩
  · next path r' hr ha =>
    obtain rfl := List.mem_singleton.mp hd
    rw [act_of_removedPath hr] at ha
    exact ⟨fun _ file hf => erase_find (.inr (actRemove_error ha)) hf, fun h => by cases h⟩
  · split at hd
    · exact adoptions_erases hd
    · cases hd
  · cases hd

theorem stepDeletions_erases {n : Node} {e : Event} (hd : d ∈ stepDeletions w n e) :
    d.Erases w := by
  unfold stepDeletions at hd
  split at hd
  · exact deletions_erases hd
  · cases hd

/-- A run spares every copy no older than a deletion exactly when no deletion it
carries out finds one. -/
theorem sparesNewer_iff {disk : Disk} {clock : TimePoint} {steady : SteadyTime}
    {h : History Node Event} {n : Node} (hr : Run (step w) (.start disk clock steady) h n) :
    Always (fun _ n e => SparesNewer w n e) h ↔ Always (fun _ n e => FindsOlder w n e) h := by
  apply hr.always_iff
  intro _ n e _ _ _
  exact forall₂_congr fun d hd => (stepDeletions_erases hd).spares_iff

/-- A peer's remove, newer than the copy listed here. -/
def timelyRemove : List Event :=
  [.localWrite samplePath (sampleFile "x" 1000), .tick 10] ++ pass true none ++
    [.tick 20] ++ pass false (some (Source.remove samplePath 1020))

theorem timelyRemove_spares :
    ∃ h n, Run (step sampleWorld) (.start ∅ 1000 0) h n ∧ n.replica.disk = ∅ ∧
      Always (fun _ n e => SparesNewer sampleWorld n e) h := by
  obtain ⟨h, n, hr, hd, ho⟩ := exists_run (step sampleWorld) (.start ∅ 1000 0) timelyRemove
    (fun h n => n.replica.disk = ∅ ∧ Always (fun _ n e => FindsOlder sampleWorld n e) h)
    (by decide +kernel)
  exact ⟨h, n, hr, hd, (sparesNewer_iff hr).mpr ho⟩

/-- A file deleted and written again before the node's own remove comes back. -/
def lateRemove : List Event :=
  [.localWrite samplePath (sampleFile "x" 1000), .tick 10] ++ pass true none ++
    [.localDelete samplePath, .tick 10] ++ pass true none ++
    [.tick 10, .localWrite samplePath (sampleFile "y" 1030)] ++
    pass true (some (Source.remove samplePath 1020))

/-- A file edited since the last listing, and a digest that remembers it deleted
before the edit. -/
def staleListing : List Event :=
  [.localWrite samplePath (sampleFile "x" 1000), .tick 10] ++ pass true none ++
    [.tick 20, .localWrite samplePath (sampleFile "y" 1030)] ++
    pass false (some (Source.digest sampleWorld.endpoint []
      (encodeTombstones (.ofList [(samplePath, 1020)] compare))))

theorem lateRemove_destroys :
    (∃ h n, Run (step sampleWorld) (.start ∅ 1000 0) h n ∧
      Source.remove samplePath 1020 ∈ n.sent ∧
      ¬ Always (fun _ n e => SparesNewer sampleWorld n e) h) ∧
    ∃ h n, Run (step sampleWorld) (.start ∅ 1000 0) h n ∧
      ¬ Always (fun _ n e => SparesNewer sampleWorld n e) h := by
  constructor
  · exact exists_run (step sampleWorld) (.start ∅ 1000 0) lateRemove
      (fun h n => Source.remove samplePath 1020 ∈ n.sent ∧
        ¬ Always (fun _ n e => SparesNewer sampleWorld n e) h) (by decide +kernel)
  · exact exists_run (step sampleWorld) (.start ∅ 1000 0) staleListing
      (fun h _ => ¬ Always (fun _ n e => SparesNewer sampleWorld n e) h) (by decide +kernel)

end SyncFs
