import Mathlib

/-!
# Replication by joins

Every node holds an element of a join semilattice. It says what it holds, or
less, and joins in what has been said, in any order, any number of times and
with anything left out. No node then ever holds less than it did, and none
holds more than the nodes held together at the start.
-/

namespace JoinReplication

universe u v

@[ext] structure State (ι : Type u) (α : Type v) where
  nodes : ι → α
  said : Set α

section

variable {ι : Type u} {α : Type v} [DecidableEq ι] [SemilatticeSup α]

inductive Step (i : ι) (s : State ι α) : State ι α → Prop
  | say {x : α} (le : x ≤ s.nodes i) : Step i s { s with said := insert x s.said }
  | take {x : α} (mem : x ∈ s.said) :
    Step i s { s with nodes := Function.update s.nodes i (s.nodes i ⊔ x) }

def Steps (K : Set ι) : State ι α → State ι α → Prop :=
  Relation.ReflTransGen fun s t => ∃ i ∈ K, Step i s t

variable {s t : State ι α} {i : ι} {K : Set ι} {x : α}

theorem Step.nodes_le (h : Step i s t) : s.nodes ≤ t.nodes := by
  cases h with
  | say => exact le_rfl
  | take =>
    intro j
    dsimp only
    by_cases hj : j = i
    · subst hj
      rw [Function.update_self]
      exact le_sup_left
    · rw [Function.update_of_ne hj]

theorem Steps.nodes_le (h : Steps K s t) : s.nodes ≤ t.nodes := by
  induction h with
  | refl => exact le_rfl
  | tail _ hs ih =>
    obtain ⟨_, -, hs⟩ := hs
    exact ih.trans hs.nodes_le

/-- Neither what the nodes of a set hold nor what has been said exceeds a bound. -/
structure Below (K : Set ι) (x : α) (s : State ι α) : Prop where
  nodes : ∀ i ∈ K, s.nodes i ≤ x
  said : ∀ y ∈ s.said, y ≤ x

theorem Below.step (hb : Below K x s) (hi : i ∈ K) (h : Step i s t) : Below K x t := by
  cases h with
  | say le =>
    refine ⟨hb.nodes, fun y hy => ?_⟩
    rcases Set.mem_insert_iff.mp hy with rfl | hy
    · exact le.trans (hb.nodes i hi)
    · exact hb.said y hy
  | @take y mem =>
    refine ⟨fun j hj => ?_, hb.said⟩
    dsimp only
    by_cases he : j = i
    · subst he
      rw [Function.update_self]
      exact sup_le (hb.nodes j hj) (hb.said y mem)
    · rw [Function.update_of_ne he]
      exact hb.nodes j hj

theorem Below.steps (hb : Below K x s) (h : Steps K s t) : Below K x t := by
  induction h with
  | refl => exact hb
  | tail _ hs ih =>
    obtain ⟨_, hi, hs⟩ := hs
    exact ih.step hi hs

theorem Steps.trans {r : State ι α} (h : Steps K r s) (h' : Steps K s t) : Steps K r t :=
  Relation.ReflTransGen.trans h h'

theorem Steps.mono {L : Set ι} (h : Steps K s t) (hK : K ⊆ L) : Steps L s t := by
  induction h with
  | refl => exact .refl
  | tail _ hs ih =>
    obtain ⟨i, hi, hs⟩ := hs
    exact ih.tail ⟨i, hK hi, hs⟩

theorem Steps.single (hi : i ∈ K) (h : Step i s t) : Steps K s t :=
  Relation.ReflTransGen.single ⟨i, hi, h⟩

theorem Steps.sayAll {xs : List α} (hi : i ∈ K) (hle : ∀ x ∈ xs, x ≤ s.nodes i) :
    Steps K s { s with said := s.said ∪ {x | x ∈ xs} } := by
  induction xs generalizing s with
  | nil =>
    have he : s.said ∪ {x | x ∈ ([] : List α)} = s.said := by simp
    rw [he]
    exact Relation.ReflTransGen.refl
  | cons x xs ih =>
    have hx : Step i s { s with said := insert x s.said } := .say (hle x List.mem_cons_self)
    have hxs := ih (s := { s with said := insert x s.said })
      fun y hy => hle y (List.mem_cons_of_mem _ hy)
    have he : insert x s.said ∪ {y | y ∈ xs} = s.said ∪ {y | y ∈ x :: xs} := by
      ext y
      simp only [Set.mem_union, Set.mem_insert_iff, Set.mem_ofPred_eq, List.mem_cons]
      tauto
    have h := (Steps.single hi hx).trans hxs
    dsimp only at h
    rwa [he] at h

end

/-- A state that stands for an element, and has each thing it takes joined in,
stands in the end for the greatest of all. -/
theorem foldl_isGreatest {σ : Type u} {δ : Type v} {α : Type*} [LinearOrder α] {f : σ → δ → σ}
    {rank : δ → α} {S : σ → α → Prop} {ds : List δ}
    (hs : ∀ d ∈ ds, ∀ s x, S s x → S (f s d) (x ⊔ rank d)) {s : σ} {x : α}
    (h : S s x) :
    ∃ y, S (ds.foldl f s) y ∧ IsGreatest (insert x {z | ∃ d ∈ ds, rank d = z}) y := by
  induction ds generalizing s x with
  | nil =>
    refine ⟨x, h, Set.mem_insert x _, fun z hz => ?_⟩
    rcases Set.mem_insert_iff.mp hz with rfl | ⟨d, hd, -⟩
    · exact le_rfl
    · exact absurd hd List.not_mem_nil
  | cons d ds ih =>
    obtain ⟨hd, hds⟩ := List.forall_mem_cons.mp hs
    obtain ⟨y, hy, hmem, hle⟩ := ih hds (hd s x h)
    refine ⟨y, hy, ?_, fun z hz => ?_⟩
    · rcases Set.mem_insert_iff.mp hmem with rfl | ⟨e, he, rfl⟩
      · rcases le_total x (rank d) with hx | hx
        · rw [sup_eq_right.mpr hx]
          exact Set.mem_insert_of_mem _ ⟨d, List.mem_cons_self, rfl⟩
        · rw [sup_eq_left.mpr hx]
          exact Set.mem_insert x _
      · exact Set.mem_insert_of_mem _ ⟨e, List.mem_cons_of_mem d he, rfl⟩
    · have htop := hle (Set.mem_insert _ _)
      rcases Set.mem_insert_iff.mp hz with rfl | ⟨e, he, rfl⟩
      · exact le_sup_left.trans htop
      · rcases List.mem_cons.mp he with rfl | he
        · exact le_sup_right.trans htop
        · exact hle (Set.mem_insert_of_mem _ ⟨e, he, rfl⟩)

/-! ### The last write wins

A thing is unheard of, dead since some time or held as of some time, and at the
same time it counts as held. -/

section

variable {τ : Type u} {s t : τ}

abbrev Standing (τ : Type u) := WithBot (τ ×ₗ Bool)

def dead (t : τ) : Standing τ := ↑(toLex (t, false))

def held (t : τ) : Standing τ := ↑(toLex (t, true))

theorem standing_cases (x : Standing τ) : x = ⊥ ∨ (∃ t, x = dead t) ∨ ∃ t, x = held t := by
  induction x using WithBot.recBotCoe with
  | bot => exact .inl rfl
  | coe rank =>
    obtain ⟨t, isHeld⟩ := rank
    cases isHeld with
    | false => exact .inr (.inl ⟨t, rfl⟩)
    | true => exact .inr (.inr ⟨t, rfl⟩)

@[simp] theorem held_ne_bot : held s ≠ ⊥ := WithBot.coe_ne_bot

@[simp] theorem dead_ne_bot : dead s ≠ ⊥ := WithBot.coe_ne_bot

@[simp] theorem held_inj : held s = held t ↔ s = t := by simp [held]

@[simp] theorem dead_inj : dead s = dead t ↔ s = t := by simp [dead]

@[simp] theorem held_ne_dead : held s ≠ dead t := by simp [held, dead]

variable [LinearOrder τ]

@[simp] theorem held_le_held : held s ≤ held t ↔ s ≤ t := by
  rw [held, held, WithBot.coe_le_coe, Prod.Lex.toLex_le_toLex]
  simp [le_iff_lt_or_eq]

@[simp] theorem dead_le_dead : dead s ≤ dead t ↔ s ≤ t := by
  rw [dead, dead, WithBot.coe_le_coe, Prod.Lex.toLex_le_toLex]
  simp [le_iff_lt_or_eq]

@[simp] theorem dead_le_held : dead s ≤ held t ↔ s ≤ t := by
  rw [dead, held, WithBot.coe_le_coe, Prod.Lex.toLex_le_toLex]
  simp [le_iff_lt_or_eq]

@[simp] theorem held_le_dead : held s ≤ dead t ↔ s < t := by
  rw [held, dead, WithBot.coe_le_coe, Prod.Lex.toLex_le_toLex]
  simp

@[simp] theorem held_lt_dead : held s < dead t ↔ s < t := by
  rw [lt_iff_le_not_ge, held_le_dead, dead_le_held, not_le, and_self]

@[simp] theorem dead_lt_dead : dead s < dead t ↔ s < t := by
  rw [lt_iff_le_not_ge, dead_le_dead, dead_le_dead, lt_iff_le_not_ge]

end

end JoinReplication
