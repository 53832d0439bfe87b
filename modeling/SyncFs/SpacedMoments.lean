import Mathlib.Algebra.Order.Group.Unbundled.Int
import Mathlib.Data.Finset.Card
import Mathlib.Data.Finset.Range
import Mathlib.Tactic.Common

/-!
# Moments kept apart

Keys with a moment each, no two of them nearer to each other than a given
distance. An interval then holds no more of them than its length allows.
-/

namespace SpacedMoments

universe u

variable {κ : Type u} {d : ℤ} {moment moment' : κ → Option ℤ}

def Spaced (d : ℤ) (moment : κ → Option ℤ) : Prop :=
  ∀ p q a b, p ≠ q → moment p = some a → moment q = some b → d ≤ |a - b|

theorem Spaced.mono (h : Spaced d moment) (hle : ∀ p a, moment' p = some a → moment p = some a) :
    Spaced d moment' :=
  fun p q a b hne ha hb => h p q a b hne (hle p a ha) (hle q b hb)

theorem Spaced.snoc (h : Spaced d moment) {k : κ} {m : ℤ}
    (hm : ∀ p a, moment p = some a → a + d ≤ m)
    (hk : ∀ p a, moment' p = some a → (p = k ∧ a = m) ∨ moment p = some a) :
    Spaced d moment' := by
  have hbehind : ∀ {p a}, moment p = some a → d ≤ |a - m| ∧ d ≤ |m - a| := by
    intro p a ha
    have := hm p a ha
    rw [abs_sub_comm]
    exact ⟨le_trans (by omega) (le_abs_self _), le_trans (by omega) (le_abs_self _)⟩
  intro p q a b hne ha hb
  rcases hk p a ha with ⟨rfl, rfl⟩ | ha
  · rcases hk q b hb with ⟨rfl, rfl⟩ | hb
    · exact absurd rfl hne
    · exact (hbehind hb).2
  · rcases hk q b hb with ⟨rfl, rfl⟩ | hb
    · exact (hbehind ha).1
    · exact h p q a b hne ha hb

/-- An interval holds at most one more than its length has room for. -/
theorem Spaced.length_le (h : Spaced d moment) (hd : 0 < d) {lo hi : ℤ} (hle : lo ≤ hi)
    {keys : List κ} (hnodup : keys.Nodup)
    (hin : ∀ p ∈ keys, ∃ a, moment p = some a ∧ lo ≤ a ∧ a ≤ hi) :
    (keys.length : ℤ) ≤ (hi - lo) / d + 1 := by
  classical
  -- Each key falls into the slot of width `d` that its moment stands in.
  let slot : κ → ℕ := fun p => (((moment p).getD lo - lo) / d).toNat
  have hmem : ∀ p ∈ keys.toFinset, slot p ∈ Finset.range (((hi - lo) / d).toNat + 1) := by
    intro p hp
    obtain ⟨a, ha, hlo, hhi⟩ := hin p (List.mem_toFinset.mp hp)
    have hslot : (a - lo) / d ≤ (hi - lo) / d := Int.ediv_le_ediv hd (by omega)
    simp only [slot, ha, Option.getD_some, Finset.mem_range]
    omega
  have hinj : Set.InjOn slot keys.toFinset := by
    intro p hp q hq hslot
    by_contra hne
    obtain ⟨a, ha, hloa, -⟩ := hin p (List.mem_toFinset.mp hp)
    obtain ⟨b, hb, hlob, -⟩ := hin q (List.mem_toFinset.mp hq)
    have hapart := h p q a b hne ha hb
    simp only [slot, ha, hb, Option.getD_some] at hslot
    have hna : 0 ≤ (a - lo) / d := Int.ediv_nonneg (by omega) (by omega)
    have hnb : 0 ≤ (b - lo) / d := Int.ediv_nonneg (by omega) (by omega)
    have hsame : (a - lo) / d = (b - lo) / d := by omega
    have hma := Int.mul_ediv_add_emod (a - lo) d
    have hmb := Int.mul_ediv_add_emod (b - lo) d
    have hra := Int.emod_nonneg (a - lo) (ne_of_gt hd)
    have hrb := Int.emod_nonneg (b - lo) (ne_of_gt hd)
    have hua := Int.emod_lt_of_pos (a - lo) hd
    have hub := Int.emod_lt_of_pos (b - lo) hd
    rw [hsame] at hma
    exact absurd (abs_lt.mpr ⟨by omega, by omega⟩) (not_lt.mpr hapart)
  have hcard := Finset.card_le_card_of_injOn slot hmem hinj
  rw [List.toFinset_card_of_nodup hnodup, Finset.card_range] at hcard
  have hroom : 0 ≤ (hi - lo) / d := Int.ediv_nonneg (by omega) (by omega)
  omega

end SpacedMoments
