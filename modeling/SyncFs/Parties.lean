import Mathlib.Data.Fintype.Basic
import Mathlib.Logic.Function.Basic
import SyncFs.LabelledRuns

/-!
# Parties that hear one another

Each party takes steps of its own and keeps everything it has said. What a step
hears somebody has said: whoever it was, however long ago and however often it
was heard before. What is said may as well never be heard.
-/

namespace Parties

open LabelledRuns

universe u v

/-- The steps of one party, all it has said, what a step hears and which
messages reach the party at all. -/
structure Party (σ : Type u) (ε : Type v) (μ : Type v) where
  step : σ → ε → Option σ
  said : σ → List μ
  hears : ε → Option μ
  reached : μ → Bool

section

variable {ι : Type v} {σ : Type u} {ε μ : Type v} (party : ι → Party σ ε μ)

def InAir (s : ι → σ) (m : μ) : Prop := ∃ i, m ∈ (party i).said (s i)

def Heard (s : ι → σ) (i : ι) (e : ε) : Prop :=
  ∀ m ∈ (party i).hears e, InAir party s m ∧ (party i).reached m = true

instance [Fintype ι] [DecidableEq μ] (s : ι → σ) (m : μ) : Decidable (InAir party s m) := by
  unfold InAir
  infer_instance

instance [Fintype ι] [DecidableEq μ] (s : ι → σ) (i : ι) (e : ε) :
    Decidable (Heard party s i e) := by
  unfold Heard
  infer_instance

variable {start s : ι → σ} {h : History (ι → σ) (ι × ε)}

theorem always_of_forall {c : (ι → σ) → ι × ε → Prop} (hc : ∀ x ∈ h, c x.1 x.2) :
    Always (fun _ s e => c s e) h := by
  induction h with
  | nil => trivial
  | cons x h ih =>
    obtain ⟨hx, hh⟩ := List.forall_mem_cons.mp hc
    exact ⟨hx, ih hh⟩

variable [DecidableEq ι]

/-- The steps one party has taken, out of those of all. -/
def own (i : ι) : History (ι → σ) (ι × ε) → History σ ε
  | [] => []
  | (s, (j, e)) :: h => if j = i then (s i, e) :: own i h else own i h

variable [Fintype ι] [DecidableEq μ]

def step (s : ι → σ) : ι × ε → Option (ι → σ)
  | (i, e) => if Heard party s i e then ((party i).step (s i) e).map (Function.update s i) else none

variable {party}

theorem step_eq_some {s s' : ι → σ} {i : ι} {e : ε} :
    step party s (i, e) = some s' ↔
      Heard party s i e ∧ ∃ t, (party i).step (s i) e = some t ∧ Function.update s i t = s' := by
  rw [step, Option.ite_none_right_eq_some, Option.map_eq_some_iff]

/-- What every party relies on of the messages it hears and guarantees of those
it says holds of all that is ever said, and with it what each keeps to itself. -/
theorem rely_guarantee {I : ι → σ → Prop} {M : μ → Prop} {c : (ι → σ) → ι × ε → Prop}
    (hi : ∀ i, I i (start i)) (hm : ∀ i, ∀ m ∈ (party i).said (start i), M m)
    (hs : ∀ s i e t, I i (s i) → (∀ m ∈ (party i).hears e, M m) → c s (i, e) →
      (party i).step (s i) e = some t →
      I i t ∧ ∀ m ∈ (party i).said t, m ∈ (party i).said (s i) ∨ M m)
    (hr : Run (step party) start h s) (hc : Always (fun _ s e => c s e) h) :
    (∀ i, I i (s i)) ∧ ∀ m, InAir party s m → M m := by
  refine hr.invariant (I := fun _ s => (∀ i, I i (s i)) ∧ ∀ m, InAir party s m → M m)
    ⟨hi, fun m ⟨i, h⟩ => hm i m h⟩ ?_ hc
  rintro h s ⟨i, e⟩ s' - ⟨hI, hM⟩ hce he
  obtain ⟨hheard, t, ht, rfl⟩ := step_eq_some.mp he
  obtain ⟨hIt, hsaid⟩ := hs s i e t (hI i) (fun m hme => hM m (hheard m hme).1) hce ht
  have hMt : ∀ m ∈ (party i).said t, M m := fun m hm =>
    (hsaid m hm).elim (fun hold => hM m ⟨i, hold⟩) id
  refine ⟨(Function.forall_update_iff s (p := fun j u => I j u)).mpr ⟨hIt, fun j _ => hI j⟩, ?_⟩
  rintro m ⟨j, hmj⟩
  have hall : ∀ j, ∀ m ∈ (party j).said (Function.update s i t j), M m :=
    (Function.forall_update_iff s (p := fun j u => ∀ m ∈ (party j).said u, M m)).mpr
      ⟨hMt, fun j _ m hm => hM m ⟨j, hm⟩⟩
  exact hall j m hmj

theorem kept_since {I : ι → σ → Prop} {M : μ → Prop} {c : (ι → σ) → ι × ε → Prop}
    {R : ι → σ → σ → Prop} (hrefl : ∀ i s, R i s s)
    (htrans : ∀ i s t u, R i s t → R i t u → R i s u)
    (hi : ∀ i, I i (start i)) (hm : ∀ i, ∀ m ∈ (party i).said (start i), M m)
    (hs : ∀ s i e t, I i (s i) → (∀ m ∈ (party i).hears e, M m) → c s (i, e) →
      (party i).step (s i) e = some t →
      R i (s i) t ∧ I i t ∧ ∀ m ∈ (party i).said t, m ∈ (party i).said (s i) ∨ M m)
    (hr : Run (step party) start h s) (hc : Always (fun _ s e => c s e) h) :
    ∀ x ∈ h, ∀ i, R i (x.1 i) (s i) := by
  induction hr with
  | refl => exact fun x hx => absurd hx List.not_mem_nil
  | @snoc h s e s' hr he ih =>
    obtain ⟨hI, hM⟩ := rely_guarantee hi hm (fun s i e t hI hM hc ht => (hs s i e t hI hM hc ht).2)
      hr hc.2
    obtain ⟨i, e⟩ := e
    obtain ⟨hheard, t, ht, rfl⟩ := step_eq_some.mp he
    have hstep := hs s i e t (hI i) (fun m hme => hM m (hheard m hme).1) hc.1 ht
    have hkept : ∀ j, R j (s j) (Function.update s i t j) :=
      (Function.forall_update_iff s (p := fun j u => R j (s j) u)).mpr
        ⟨hstep.1, fun j _ => hrefl j (s j)⟩
    refine List.forall_mem_cons.mpr ⟨hkept, fun x hx j => ?_⟩
    exact htrans j _ _ _ (ih hc.2 x hx j) (hkept j)

/-- Seen from one party, a run of all is a run of its own. -/
theorem run_own (hr : Run (step party) start h s) (i : ι) :
    Run (party i).step (start i) (own i h) (s i) := by
  induction hr with
  | refl => exact .refl
  | @snoc h s e s' hr he ih =>
    obtain ⟨j, e⟩ := e
    obtain ⟨-, t, ht, rfl⟩ := step_eq_some.mp he
    rw [own]
    by_cases hj : j = i
    · subst hj
      rw [if_pos rfl, Function.update_self]
      exact ih.snoc ht
    · rw [if_neg hj, Function.update_of_ne (Ne.symm hj)]
      exact ih

end

end Parties
