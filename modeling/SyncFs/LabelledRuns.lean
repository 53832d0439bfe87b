import Mathlib.Init

/-!
# Runs of a partial step function

A step function says which state an event leads to, or that the event cannot
happen. A run carries its whole history, most recent step first, so a condition
may look back at everything that led to a step.
-/

namespace LabelledRuns

universe u v

/-- Every step taken: the state it was taken from and the event. -/
abbrev History (σ : Type u) (ε : Type v) := List (σ × ε)

inductive Run {σ : Type u} {ε : Type v} (step : σ → ε → Option σ) (start : σ) :
    History σ ε → σ → Prop
  | refl : Run step start [] start
  | snoc {h s e t} : Run step start h s → step s e = some t → Run step start ((s, e) :: h) t

/-- Every step of the history meets the condition, given the history before it. -/
def Always {σ : Type u} {ε : Type v} (c : History σ ε → σ → ε → Prop) : History σ ε → Prop
  | [] => True
  | (s, e) :: h => c h s e ∧ Always c h

variable {σ : Type u} {ε : Type v} {step : σ → ε → Option σ} {start : σ}
variable {c d : History σ ε → σ → ε → Prop}

@[simp] theorem always_nil : Always c [] := trivial

@[simp] theorem always_cons {s : σ} {e : ε} {h : History σ ε} :
    Always c ((s, e) :: h) ↔ c h s e ∧ Always c h := Iff.rfl

theorem always_true (h : History σ ε) : Always (fun _ _ _ => True) h := by
  induction h with
  | nil => trivial
  | cons x h ih => exact ⟨trivial, ih⟩

instance [∀ h s e, Decidable (c h s e)] : (h : History σ ε) → Decidable (Always c h)
  | [] => inferInstanceAs (Decidable True)
  | (s, e) :: h =>
    have : Decidable (Always c h) := instDecidableAlways h
    inferInstanceAs (Decidable (c h s e ∧ Always c h))

/-- A step that starts it has been taken, and none that ends it since. -/
def Since {σ : Type u} {ε : Type v} (starts ends : σ → ε → Prop) : History σ ε → Prop
  | [] => False
  | (s, e) :: h => starts s e ∨ (Since starts ends h ∧ ¬ ends s e)

instance {starts ends : σ → ε → Prop} [∀ s e, Decidable (starts s e)]
    [∀ s e, Decidable (ends s e)] : (h : History σ ε) → Decidable (Since starts ends h)
  | [] => inferInstanceAs (Decidable False)
  | (s, e) :: h =>
    have : Decidable (Since starts ends h) := instDecidableSince h
    inferInstanceAs (Decidable (starts s e ∨ (Since starts ends h ∧ ¬ ends s e)))

theorem Always.mono {h : History σ ε} (hc : ∀ h s e, c h s e → d h s e) (ha : Always c h) :
    Always d h := by
  induction h with
  | nil => trivial
  | cons x h ih => exact ⟨hc _ _ _ ha.1, ih ha.2⟩

/-- What holds at the start and survives every step that meets the condition
holds at the end of every run whose steps all meet it. -/
theorem Run.invariant {I : History σ ε → σ → Prop} (hi : I [] start)
    (hs : ∀ h s e t, Run step start h s → I h s → c h s e → step s e = some t →
      I ((s, e) :: h) t)
    {h : History σ ε} {s : σ} (hr : Run step start h s) (ha : Always c h) : I h s := by
  induction hr with
  | refl => exact hi
  | snoc hr he ih => exact hs _ _ _ _ hr (ih ha.2) ha.1 he

theorem Run.preserved {I : σ → Prop} (hi : I start)
    (hs : ∀ s e t, I s → step s e = some t → I t)
    {h : History σ ε} {s : σ} (hr : Run step start h s) : I s := by
  induction hr with
  | refl => exact hi
  | snoc _ he ih => exact hs _ _ _ ih he

/-- A property of single steps that follows from an invariant and the condition
holds of every step of the run. -/
theorem Run.always_of_invariant {I : History σ ε → σ → Prop} (hi : I [] start)
    (hs : ∀ h s e t, Run step start h s → I h s → c h s e → step s e = some t →
      I ((s, e) :: h) t)
    (hd : ∀ h s e t, Run step start h s → I h s → c h s e → step s e = some t → d h s e)
    {h : History σ ε} {s : σ} (hr : Run step start h s) (ha : Always c h) : Always d h := by
  induction hr with
  | refl => trivial
  | snoc hr he ih => exact ⟨hd _ _ _ _ hr (hr.invariant hi hs ha.2) ha.1 he, ih ha.2⟩

/-- Two step properties that agree on every step a run can take agree on the run. -/
theorem Run.always_iff
    (hcd : ∀ h s e t, Run step start h s → step s e = some t → (c h s e ↔ d h s e))
    {h : History σ ε} {s : σ} (hr : Run step start h s) : Always c h ↔ Always d h := by
  induction hr with
  | refl => exact Iff.rfl
  | snoc hr he ih => exact and_congr (hcd _ _ _ _ hr he) ih

/-- Takes the listed events in order, remembering every state on the way. -/
def trace (step : σ → ε → Option σ) : List ε → History σ ε → σ → Option (History σ ε × σ)
  | [], h, s => some (h, s)
  | e :: es, h, s => (step s e).bind (trace step es ((s, e) :: h))

theorem Run.trace {es : List ε} {h k : History σ ε} {s t : σ} (hr : Run step start h s)
    (ht : trace step es h s = some (k, t)) : Run step start k t := by
  induction es generalizing h s with
  | nil =>
    obtain ⟨rfl, rfl⟩ := Prod.mk.inj (Option.some.inj ht)
    exact hr
  | cons e es ih =>
    obtain ⟨u, hu, hk⟩ := Option.bind_eq_some_iff.mp ht
    exact ih (hr.snoc hu) hk

/-- A run found by taking the listed events. -/
theorem exists_run (step : σ → ε → Option σ) (start : σ) (es : List ε)
    (P : History σ ε → σ → Prop) [∀ h s, Decidable (P h s)]
    (h : (trace step es [] start).any (fun x => decide (P x.1 x.2)) = true) :
    ∃ k t, Run step start k t ∧ P k t := by
  obtain ⟨⟨k, t⟩, ht, hp⟩ := (Option.any_eq_true _ _).mp h
  exact ⟨k, t, Run.refl.trace ht, of_decide_eq_true hp⟩

end LabelledRuns
