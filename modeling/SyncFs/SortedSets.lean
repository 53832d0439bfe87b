import Std.Data.ExtTreeMap
import Mathlib.Tactic.Common

/-!
# Set operations on sorted sequences

The two-pointer walks of the standard library, and what they come to on
sequences without two equivalent elements: a filter of the left one. Over the
entries of ordered maps a filter is again a map.
-/

namespace SortedSets

universe u v

variable {α : Type u}

/-- `std::ranges::set_difference` under a three-way comparison. -/
def setDifference (cmp : α → α → Ordering) : List α → List α → List α
  | [], _ => []
  | as, [] => as
  | a :: as, b :: bs => match cmp a b with
    | .lt => a :: setDifference cmp as (b :: bs)
    | .gt => setDifference cmp (a :: as) bs
    | .eq => setDifference cmp as bs
termination_by as bs => as.length + bs.length

/-- `std::ranges::set_intersection`: what it copies comes from the left. -/
def setIntersection (cmp : α → α → Ordering) : List α → List α → List α
  | [], _ => []
  | _, [] => []
  | a :: as, b :: bs => match cmp a b with
    | .lt => setIntersection cmp as (b :: bs)
    | .gt => setIntersection cmp (a :: as) bs
    | .eq => a :: setIntersection cmp as bs
termination_by as bs => as.length + bs.length

def occurs (cmp : α → α → Ordering) (bs : List α) (a : α) : Bool :=
  bs.any fun b => cmp a b == .eq

def Sorted (cmp : α → α → Ordering) (as : List α) : Prop := as.Pairwise fun a b => cmp a b = .lt

variable {cmp : α → α → Ordering} [Std.TransCmp cmp]

private theorem occurs_of_lt {a b : α} {bs : List α} (hb : Sorted cmp (b :: bs))
    (h : cmp a b = .lt) : occurs cmp (b :: bs) a = false := by
  simp only [occurs, List.any_eq_false, beq_iff_eq]
  intro c hc he
  rcases List.mem_cons.mp hc with rfl | hc
  · rw [h] at he
    cases he
  · have hlt := Std.TransCmp.lt_trans h (List.rel_of_pairwise_cons hb hc)
    rw [hlt] at he
    cases he

private theorem filter_occurs_cons {a b : α} {as : List α} (bs : List α) (ha : Sorted cmp (a :: as))
    (h : cmp b a ≠ .gt) (p : Bool → Bool) :
    as.filter (fun c => p (occurs cmp (b :: bs) c)) = as.filter (fun c => p (occurs cmp bs c)) := by
  refine List.filter_congr fun c hc => ?_
  have hac := List.rel_of_pairwise_cons ha hc
  have hbc : cmp b c = .lt := by
    cases hba : cmp b a with
    | lt => exact Std.TransCmp.lt_trans hba hac
    | eq => exact Std.TransCmp.lt_of_eq_of_lt hba hac
    | gt => exact absurd hba h
  have hcb : cmp c b = .gt := Std.OrientedCmp.gt_iff_lt.mpr hbc
  simp [occurs, hcb]

theorem setDifference_eq {as bs : List α} (ha : Sorted cmp as) (hb : Sorted cmp bs) :
    setDifference cmp as bs = as.filter fun a => !occurs cmp bs a := by
  induction as, bs using setDifference.induct cmp with
  | case1 => simp [setDifference]
  | case2 as h =>
    cases as with
    | nil => exact absurd rfl h
    | cons a as =>
      have ht : ∀ c ∈ a :: as, (!occurs cmp [] c) = true := by simp [occurs]
      rw [setDifference, List.filter_eq_self.mpr ht]
      exact h
  | case3 a as b bs h ih =>
    rw [setDifference, h, ih ha.of_cons hb]
    simp [occurs_of_lt hb h]
  | case4 a as b bs h ih =>
    have hba : cmp b a ≠ .gt := by
      rw [Std.OrientedCmp.gt_iff_lt.mp h]
      decide
    have hf := filter_occurs_cons bs ha hba (!·)
    have ho : occurs cmp (b :: bs) a = occurs cmp bs a := by simp [occurs, h]
    rw [setDifference, h, ih ha hb.of_cons, List.filter_cons, List.filter_cons, hf, ho]
  | case5 a as b bs h ih =>
    have hba : cmp b a ≠ .gt := by
      rw [Std.OrientedCmp.eq_symm h]
      decide
    have hf := filter_occurs_cons bs ha hba (!·)
    have ho : occurs cmp (b :: bs) a = true := by simp [occurs, h]
    rw [setDifference, h, ih ha.of_cons hb.of_cons, List.filter_cons, ho, hf]
    rfl

theorem setIntersection_eq {as bs : List α} (ha : Sorted cmp as) (hb : Sorted cmp bs) :
    setIntersection cmp as bs = as.filter fun a => occurs cmp bs a := by
  induction as, bs using setIntersection.induct cmp with
  | case1 => simp [setIntersection]
  | case2 as h =>
    cases as with
    | nil => exact absurd rfl h
    | cons a as => simp [setIntersection, occurs]
  | case3 a as b bs h ih =>
    rw [setIntersection, h, ih ha.of_cons hb]
    simp [occurs_of_lt hb h]
  | case4 a as b bs h ih =>
    have hba : cmp b a ≠ .gt := by
      rw [Std.OrientedCmp.gt_iff_lt.mp h]
      decide
    have hf := filter_occurs_cons bs ha hba id
    simp only [id] at hf
    have ho : occurs cmp (b :: bs) a = occurs cmp bs a := by simp [occurs, h]
    rw [setIntersection, h, ih ha hb.of_cons, List.filter_cons, List.filter_cons, hf, ho]
  | case5 a as b bs h ih =>
    have hba : cmp b a ≠ .gt := by
      rw [Std.OrientedCmp.eq_symm h]
      decide
    have hf := filter_occurs_cons bs ha hba id
    simp only [id] at hf
    have ho : occurs cmp (b :: bs) a = true := by simp [occurs, h]
    rw [setIntersection, h, ih ha.of_cons hb.of_cons, List.filter_cons, ho, hf]
    rfl

section Maps

open Std

variable {κ : Type u} {β : Type v} [Ord κ] [TransOrd κ]

def byKey (a b : κ × β) : Ordering := compare a.1 b.1

def byEntry [Ord β] (a b : κ × β) : Ordering := (compare a.1 b.1).then (compare a.2 b.2)

instance : TransCmp (byKey : κ × β → κ × β → Ordering) :=
  inferInstanceAs (TransCmp (compareOn Prod.fst))

instance [Ord β] [TransOrd β] : TransCmp (byEntry : κ × β → κ × β → Ordering) :=
  inferInstanceAs (TransCmp (compareLex (compareOn Prod.fst) (compareOn Prod.snd)))

theorem sorted_byKey (m : ExtTreeMap κ β compare) : Sorted byKey m.toList :=
  m.ordered_keys_toList

theorem sorted_byEntry [Ord β] (m : ExtTreeMap κ β compare) : Sorted byEntry m.toList :=
  m.ordered_keys_toList.imp fun {a b} h => by simp [byEntry, h]

variable [LawfulEqOrd κ]

theorem occurs_byKey (m : ExtTreeMap κ β compare) (a : κ × β) :
    occurs byKey m.toList a = m.contains a.1 := by
  rw [Bool.eq_iff_iff, occurs, List.any_eq_true, ExtTreeMap.contains_iff_mem,
    ExtTreeMap.mem_iff_isSome_getElem?, Option.isSome_iff_exists]
  constructor
  · rintro ⟨⟨k, v⟩, hm, hk⟩
    have hk : a.1 = k := LawfulEqCmp.eq_of_compare (beq_iff_eq.mp hk)
    exact ⟨v, hk ▸ ExtTreeMap.mem_toList_iff_getElem?_eq_some.mp hm⟩
  · rintro ⟨v, hv⟩
    exact ⟨(a.1, v), ExtTreeMap.mem_toList_iff_getElem?_eq_some.mpr hv, by simp [byKey]⟩

theorem occurs_byEntry [Ord β] [TransOrd β] [LawfulEqOrd β] [DecidableEq β]
    (m : ExtTreeMap κ β compare) (a : κ × β) :
    occurs byEntry m.toList a = decide (m[a.1]? = some a.2) := by
  rw [Bool.eq_iff_iff, occurs, List.any_eq_true, decide_eq_true_iff]
  constructor
  · rintro ⟨⟨k, v⟩, hm, hk⟩
    obtain ⟨hk, hv⟩ := Ordering.then_eq_eq.mp (beq_iff_eq.mp hk)
    obtain rfl : a.1 = k := LawfulEqCmp.eq_of_compare hk
    obtain rfl : a.2 = v := LawfulEqCmp.eq_of_compare hv
    exact ExtTreeMap.mem_toList_iff_getElem?_eq_some.mp hm
  · intro hv
    exact ⟨a, ExtTreeMap.mem_toList_iff_getElem?_eq_some.mpr hv, by simp [byEntry]⟩

theorem ofList_toList [DecidableEq κ] (m : ExtTreeMap κ β compare) :
    ExtTreeMap.ofList m.toList compare = m := by
  refine ExtTreeMap.ext_getElem? fun k => ?_
  cases hk : m[k]? with
  | none =>
    refine ExtTreeMap.getElem?_ofList_of_contains_eq_false ?_
    rw [ExtTreeMap.map_fst_toList_eq_keys, ← Bool.not_eq_true, List.contains_iff_mem,
      ExtTreeMap.mem_keys, ExtTreeMap.mem_iff_isSome_getElem?, hk]
    exact Bool.false_ne_true
  | some v =>
    exact ExtTreeMap.getElem?_ofList_of_mem compare_self ExtTreeMap.distinct_keys_toList
      (ExtTreeMap.mem_toList_iff_getElem?_eq_some.mpr hk)

/-- Rebuilding a map from a filter of its entries filters the map. -/
theorem ofList_filter_toList [DecidableEq κ] (m : ExtTreeMap κ β compare) (f : κ → β → Bool) :
    ExtTreeMap.ofList (m.toList.filter fun e => f e.1 e.2) compare = m.filter f := by
  rw [← ExtTreeMap.toList_filter, ofList_toList]

end Maps

end SortedSets
