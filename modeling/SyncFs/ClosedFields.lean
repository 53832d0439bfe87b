import Mathlib.Data.List.Basic

/-!
# Fields closed by a separator

A sequence of pairs written as fields, each closed by a byte that stands in
none of them, and the scan that reads the pairs back.
-/

namespace ClosedFields

universe u

variable {α : Type u} [DecidableEq α] (sep : α)

def cut : List α → Option (List α × List α)
  | [] => none
  | a :: s => if a = sep then some ([], s) else (cut s).map fun r => (a :: r.1, r.2)

variable {sep}

theorem cut_append {f rest : List α} (h : sep ∉ f) : cut sep (f ++ sep :: rest) = some (f, rest) := by
  induction f with
  | nil => simp [cut]
  | cons a f ih =>
    obtain ⟨ha, hf⟩ := not_or.mp (mt List.mem_cons.mpr h)
    simp [cut, Ne.symm ha, ih hf]

theorem cut_eq_none {s : List α} (h : sep ∉ s) : cut sep s = none := by
  induction s with
  | nil => rfl
  | cons a s ih =>
    obtain ⟨ha, hs⟩ := not_or.mp (mt List.mem_cons.mpr h)
    simp [cut, Ne.symm ha, ih hs]

theorem cut_length {s : List α} {r : List α × List α} (h : cut sep s = some r) :
    r.2.length < s.length := by
  induction s generalizing r with
  | nil => cases h
  | cons a s ih =>
    rw [cut] at h
    split at h
    · obtain rfl := Option.some.inj h
      simp
    · obtain ⟨q, hq, rfl⟩ := Option.map_eq_some_iff.mp h
      have := ih hq
      simp only [List.length_cons]
      omega

variable (sep)

/-- Reads two fields at a time until one of them is not closed. -/
def readPairs (s : List α) : List (List α × List α) :=
  match _hf : cut sep s with
  | none => []
  | some (first, rest) =>
    match _hs : cut sep rest with
    | none => []
    | some (second, next) => (first, second) :: readPairs next
termination_by s.length
decreasing_by exact Nat.lt_trans (cut_length _hs) (cut_length _hf)

def writePair (p : List α × List α) : List α := p.1 ++ sep :: (p.2 ++ [sep])

def writePairs (ps : List (List α × List α)) : List α := ps.flatMap (writePair sep)

variable {sep}

@[simp] theorem readPairs_nil : readPairs sep [] = [] := by rw [readPairs]; rfl

theorem readPairs_cons {p : List α × List α} {rest : List α} (h₁ : sep ∉ p.1) (h₂ : sep ∉ p.2) :
    readPairs sep (writePair sep p ++ rest) = p :: readPairs sep rest := by
  have hf : cut sep (writePair sep p ++ rest) = some (p.1, p.2 ++ sep :: rest) := by
    rw [← cut_append h₁, writePair]
    simp
  rw [readPairs]
  split
  next hn => rw [hf] at hn; cases hn
  next first tail hs =>
    rw [hf, Option.some.injEq, Prod.mk.injEq] at hs
    obtain ⟨rfl, rfl⟩ := hs
    split
    next hn => rw [cut_append h₂] at hn; cases hn
    next second next hs =>
      rw [cut_append h₂, Option.some.injEq, Prod.mk.injEq] at hs
      obtain ⟨rfl, rfl⟩ := hs
      rfl

/-- Reading what was written gives the pairs back. -/
theorem readPairs_writePairs {ps : List (List α × List α)}
    (h : ∀ p ∈ ps, sep ∉ p.1 ∧ sep ∉ p.2) : readPairs sep (writePairs sep ps) = ps := by
  induction ps with
  | nil => exact readPairs_nil
  | cons p ps ih =>
    obtain ⟨h₁, h₂⟩ := h p List.mem_cons_self
    rw [writePairs, List.flatMap_cons, readPairs_cons h₁ h₂]
    exact congrArg (p :: ·) (ih fun q hq => h q (List.mem_cons_of_mem p hq))

theorem readPairs_cut {p : List α × List α} (h₁ : sep ∉ p.1) (h₂ : sep ∉ p.2) {n : ℕ}
    (hn : n < (writePair sep p).length) : readPairs sep ((writePair sep p).take n) = [] := by
  simp only [writePair, List.length_append, List.length_cons, List.length_nil] at hn
  by_cases hfirst : n ≤ p.1.length
  · have hcut : cut sep ((writePair sep p).take n) = none := by
      apply cut_eq_none
      rw [writePair, List.take_append_of_le_length hfirst]
      exact fun hm => h₁ (List.mem_of_mem_take hm)
    rw [readPairs]
    split
    · rfl
    next hs => rw [hcut] at hs; cases hs
  · obtain ⟨m, rfl⟩ : ∃ m, n = p.1.length + (m + 1) := ⟨n - p.1.length - 1, by omega⟩
    have hfield : (p.2 ++ [sep]).take m = p.2.take m :=
      List.take_append_of_le_length (by omega)
    have hcut : cut sep ((writePair sep p).take (p.1.length + (m + 1))) =
        some (p.1, p.2.take m) := by
      rw [writePair, List.take_length_add_append, List.take_succ_cons, hfield, cut_append h₁]
    have hopen : cut sep (p.2.take m) = none :=
      cut_eq_none fun hm => h₂ (List.mem_of_mem_take hm)
    rw [readPairs]
    split
    · rfl
    next first rest hs =>
      rw [hcut, Option.some.injEq, Prod.mk.injEq] at hs
      obtain ⟨rfl, rfl⟩ := hs
      split
      · rfl
      next ht => rw [hopen] at ht; cases ht

variable (sep) in
/-- How many of the pairs are written wholly within the first elements. -/
def wholePairs (ps : List (List α × List α)) (n : ℕ) : ℕ :=
  (List.range ps.length).countP fun i => (writePairs sep (ps.take (i + 1))).length ≤ n

omit [DecidableEq α] in
private theorem wholePairs_range (p : List α × List α) (ps : List (List α × List α)) (n : ℕ) :
    wholePairs sep (p :: ps) n =
      (if (writePair sep p).length ≤ n then 1 else 0) + (List.range ps.length).countP fun i =>
        (writePair sep p).length + (writePairs sep (ps.take (i + 1))).length ≤ n := by
  rw [wholePairs, List.length_cons, List.range_succ_eq_map, List.countP_cons, List.countP_map,
    Nat.add_comm]
  simp [writePairs, Function.comp_def]

omit [DecidableEq α] in
theorem wholePairs_cons {p : List α × List α} (ps : List (List α × List α)) {n : ℕ}
    (h : (writePair sep p).length ≤ n) :
    wholePairs sep (p :: ps) n = wholePairs sep ps (n - (writePair sep p).length) + 1 := by
  have hrest : ∀ m, (writePair sep p).length + m ≤ n ↔ m ≤ n - (writePair sep p).length := by
    intro m
    omega
  rw [wholePairs_range, if_pos h, Nat.add_comm]
  simp only [hrest]
  rfl

omit [DecidableEq α] in
theorem wholePairs_cut {p : List α × List α} (ps : List (List α × List α)) {n : ℕ}
    (h : n < (writePair sep p).length) : wholePairs sep (p :: ps) n = 0 := by
  rw [wholePairs_range, if_neg (by omega), Nat.zero_add, List.countP_eq_zero]
  intro i _
  simp only [decide_eq_true_eq]
  omega

/-- Reading what was written and cut off gives the pairs that lie before the cut. -/
theorem readPairs_take {ps : List (List α × List α)} (h : ∀ p ∈ ps, sep ∉ p.1 ∧ sep ∉ p.2)
    (n : ℕ) : readPairs sep ((writePairs sep ps).take n) = ps.take (wholePairs sep ps n) := by
  induction ps generalizing n with
  | nil => simp [writePairs]
  | cons p ps ih =>
    obtain ⟨h₁, h₂⟩ := h p List.mem_cons_self
    rw [writePairs, List.flatMap_cons]
    rcases Nat.lt_or_ge n (writePair sep p).length with hn | hn
    · rw [List.take_append_of_le_length (by omega), readPairs_cut h₁ h₂ hn, wholePairs_cut ps hn]
      rfl
    · obtain ⟨m, rfl⟩ := Nat.exists_eq_add_of_le hn
      rw [List.take_length_add_append, readPairs_cons h₁ h₂, wholePairs_cons ps hn,
        List.take_succ_cons, Nat.add_sub_cancel_left]
      exact congrArg (p :: ·) (ih (fun q hq => h q (List.mem_cons_of_mem p hq)) m)

theorem writePairs_injective {ps qs : List (List α × List α)}
    (hp : ∀ p ∈ ps, sep ∉ p.1 ∧ sep ∉ p.2) (hq : ∀ q ∈ qs, sep ∉ q.1 ∧ sep ∉ q.2)
    (h : writePairs sep ps = writePairs sep qs) : ps = qs := by
  rw [← readPairs_writePairs hp, h, readPairs_writePairs hq]

end ClosedFields
