import SyncFs.Paths
import SyncFs.SortedSets

/-!
# Times and listings

A time on the system clock is the count of nanoseconds since the Unix epoch.
A file time counts from the epoch of the file clock instead, and the two only
compare once one has been converted. Counts are exact integers here: whether
they stay inside the machine's word is a matter of its own.
-/

namespace SyncFs

open CharConversions

/-- `std::chrono::system_clock::time_point`. -/
abbrev TimePoint := ℤ

/-- `std::filesystem::file_time_type`. -/
structure FileTime where
  count : ℤ
  deriving DecidableEq

def fileEpoch : ℤ := 6437664000 * 10 ^ 9

namespace FileTime

instance : Ord FileTime where
  compare s t := compare s.count t.count

instance : Std.TransOrd FileTime :=
  inferInstanceAs (Std.TransCmp (compareOn FileTime.count))

instance : Std.LawfulEqOrd FileTime where
  eq_of_compare {s t} h := by
    have hc : compare s.count t.count = .eq := h
    cases s
    cases t
    exact congrArg FileTime.mk (Std.LawfulEqCmp.eq_of_compare hc)

instance : LT FileTime where
  lt s t := s.count < t.count

instance (s t : FileTime) : Decidable (s < t) := inferInstanceAs (Decidable (s.count < t.count))

/-- `to_ticks` of a file time, by way of the system clock. -/
def toTicks (t : FileTime) : ℤ := t.count + fileEpoch

theorem lt_iff_toTicks {s t : FileTime} : s < t ↔ s.toTicks < t.toTicks := by
  change s.count < t.count ↔ _
  rw [toTicks, toTicks]
  omega

theorem toTicks_inj {s t : FileTime} : s.toTicks = t.toTicks ↔ s = t := by
  constructor
  · intro h
    rw [toTicks, toTicks] at h
    cases s
    cases t
    exact congrArg FileTime.mk (by simpa using h)
  · rintro rfl
    rfl

end FileTime

def toTicks (t : TimePoint) : ℤ := t

@[simp] theorem toTicks_eq (t : TimePoint) : toTicks t = t := rfl

def toFileTime (t : TimePoint) : FileTime := ⟨t - fileEpoch⟩

@[simp] theorem toTicks_toFileTime (t : TimePoint) : (toFileTime t).toTicks = t := by
  simp [toFileTime, FileTime.toTicks]

@[simp] theorem toFileTime_toTicks (t : FileTime) : toFileTime t.toTicks = t := by
  simp [toFileTime, FileTime.toTicks]

def int64Min : ℤ := -2 ^ 63
def int64Max : ℤ := 2 ^ 63 - 1

/-- What a 64-bit tick count can be. -/
def InInt64 (n : ℤ) : Prop := int64Min ≤ n ∧ n ≤ int64Max

instance (n : ℤ) : Decidable (InInt64 n) := by unfold InInt64; infer_instance

/-- A count that is not a decimal integer, all of it, reads as the epoch. -/
def fromTicks (s : Bytes) : TimePoint :=
  match fromChars int64Min int64Max s with
  | .ok (ticks, []) => ticks
  | _ => 0

theorem fromTicks_printInt {n : ℤ} (h : InInt64 n) : fromTicks (printInt n) = n := by
  rw [fromTicks, fromChars_printInt h]

namespace PathMap

variable {β : Type} {m : PathMap β} {p q : Path} {v : β} {ps : List Path}

@[simp] theorem getElem?_insert : (m.insert p v)[q]? = if p = q then some v else m[q]? := by
  simp [Std.ExtTreeMap.getElem?_insert]

@[simp] theorem getElem?_erase : (m.erase p)[q]? = if p = q then none else m[q]? := by
  simp [Std.ExtTreeMap.getElem?_erase]

@[simp] theorem getElem?_filter {f : Path → β → Bool} :
    (m.filter f)[q]? = m[q]?.filter (f q) := by
  rw [Std.ExtTreeMap.getElem?_filter']

/-- What is gone by one of the later paths or by the first is gone by one of all. -/
theorem ite_mem_cons {o : Option β} :
    (if q ∈ ps then none else if p = q then none else o) = if q ∈ p :: ps then none else o := by
  by_cases hp : p = q
  · simp [hp]
  · simp only [hp, if_false, List.mem_cons, Ne.symm hp, false_or]

theorem getElem?_foldl_erase :
    (ps.foldl (fun m p => m.erase p) m)[q]? = if q ∈ ps then none else m[q]? := by
  induction ps generalizing m with
  | nil => rfl
  | cons p ps ih => rw [List.foldl_cons, ih, getElem?_erase, ite_mem_cons]

theorem mem_iff : p ∈ m ↔ ∃ v, m[p]? = some v := by
  rw [Std.ExtTreeMap.mem_iff_isSome_getElem?, Option.isSome_iff_exists]

theorem notMem_iff : p ∉ m ↔ m[p]? = none := by
  rw [mem_iff, Option.eq_none_iff_forall_ne_some, not_exists]

theorem getElem?_empty_ne {b : β} : (∅ : PathMap β)[p]? ≠ some b := by
  rw [Std.ExtTreeMap.getElem?_empty]
  exact Option.some_ne_none b ∘ Eq.symm

theorem mem_insert : q ∈ m.insert p v ↔ p = q ∨ q ∈ m := by
  rw [Std.ExtTreeMap.mem_insert, Std.compare_eq_iff_eq]

theorem mem_erase : q ∈ m.erase p ↔ p ≠ q ∧ q ∈ m := by
  rw [Std.ExtTreeMap.mem_erase, ne_eq, Std.compare_eq_iff_eq]

theorem contains_eq : m.contains p = m[p]?.isSome := Std.ExtTreeMap.contains_eq_isSome_getElem?

theorem mem_toList : (p, v) ∈ m.toList ↔ m[p]? = some v :=
  Std.ExtTreeMap.mem_toList_iff_getElem?_eq_some

end PathMap

/-- A listing: every regular file and when it was last written. -/
abbrev FileMap := PathMap FileTime

namespace FileMap

open SortedSets

/-- The entries of the left listing that the right one does not hold, time
included. -/
def diff (left right : FileMap) : FileMap :=
  .ofList (setDifference byEntry left.toList right.toList) compare

/-- The entries of the left listing whose path the right one does not hold. -/
def diffName (left right : FileMap) : FileMap :=
  .ofList (setDifference byKey left.toList right.toList) compare

/-- The entries of the left listing whose path the right one holds as well. -/
def intersectionName (left right : FileMap) : FileMap :=
  .ofList (setIntersection byKey left.toList right.toList) compare

variable (left right : FileMap) (p : Path)

@[simp] theorem getElem?_diff :
    (diff left right)[p]? = left[p]?.filter fun t => right[p]? ≠ some t := by
  rw [diff, setDifference_eq (sorted_byEntry left) (sorted_byEntry right)]
  simp only [occurs_byEntry]
  rw [ofList_filter_toList left fun q t => !decide (right[q]? = some t), PathMap.getElem?_filter]
  simp

@[simp] theorem getElem?_diffName :
    (diffName left right)[p]? = left[p]?.filter fun _ => !right.contains p := by
  rw [diffName, setDifference_eq (sorted_byKey left) (sorted_byKey right)]
  simp only [occurs_byKey]
  rw [ofList_filter_toList left fun q _ => !right.contains q, PathMap.getElem?_filter]

@[simp] theorem getElem?_intersectionName :
    (intersectionName left right)[p]? = left[p]?.filter fun _ => right.contains p := by
  rw [intersectionName, setIntersection_eq (sorted_byKey left) (sorted_byKey right)]
  simp only [occurs_byKey]
  rw [ofList_filter_toList left fun q _ => right.contains q, PathMap.getElem?_filter]

end FileMap

end SyncFs
