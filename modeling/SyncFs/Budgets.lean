import Mathlib.Algebra.Order.Monoid.Defs
import SyncFs.LabelledRuns

/-!
# What a run can pay for

Each step costs something and may bring something in. Where every step can pay
for itself out of what was saved up before it, the run as a whole can.
-/

namespace LabelledRuns

universe u v w

def total {σ : Type u} {ε : Type v} {α : Type w} [AddMonoid α] (cost : σ → ε → α) :
    History σ ε → α
  | [] => 0
  | (s, e) :: h => total cost h + cost s e

section

variable {σ : Type u} {ε : Type v} {α : Type w} {step : σ → ε → Option σ} {start s : σ}
variable {h : History σ ε}

@[simp] theorem total_nil [AddMonoid α] (cost : σ → ε → α) : total cost [] = 0 := rfl

@[simp] theorem total_cons [AddMonoid α] (cost : σ → ε → α) (s : σ) (e : ε) (h : History σ ε) :
    total cost ((s, e) :: h) = total cost h + cost s e := rfl

theorem total_zero [AddMonoid α] (h : History σ ε) : total (fun _ _ => (0 : α)) h = 0 := by
  induction h with
  | nil => rfl
  | cons x h ih =>
    obtain ⟨s, e⟩ := x
    rw [total_cons, ih, add_zero]

variable [AddCommMonoid α] [PartialOrder α] [IsOrderedAddMonoid α]

/-- Steps that pay for themselves, from where an invariant holds. -/
theorem Run.total_le {cost gain : σ → ε → α} {saved : σ → α} {I : σ → Prop} (hi : I start)
    (hs : ∀ s e t, I s → step s e = some t → I t ∧ cost s e + saved t ≤ saved s + gain s e)
    (hr : Run step start h s) : I s ∧ total cost h + saved s ≤ saved start + total gain h := by
  induction hr with
  | refl => exact ⟨hi, by simp⟩
  | @snoc h s e t hr he ih =>
    obtain ⟨hI, hle⟩ := ih
    obtain ⟨hI', hpay⟩ := hs s e t hI he
    refine ⟨hI', ?_⟩
    calc total cost h + cost s e + saved t = total cost h + (cost s e + saved t) := add_assoc ..
      _ ≤ total cost h + (saved s + gain s e) := by gcongr
      _ = total cost h + saved s + gain s e := (add_assoc ..).symm
      _ ≤ saved start + total gain h + gain s e := by gcongr
      _ = saved start + (total gain h + gain s e) := add_assoc ..

end

end LabelledRuns
