import Mathlib.Data.List.TakeWhile
import Mathlib.Data.Nat.Digits.Lemmas

/-!
# Decimal numerals in bytes

Printing as `std::to_string` does, and reading as `std::from_chars` and
`std::stoi` do. Reading what was printed gives the number back, and a numeral
without a leading zero is printed again as it was written.
-/

namespace CharConversions

abbrev Bytes := List UInt8

def ascii (s : String) : Bytes := s.toList.map fun c => UInt8.ofNat c.toNat

def minus : UInt8 := 45
def plus : UInt8 := 43
def zero : UInt8 := 48

def isDigit (c : UInt8) : Bool := 48 ≤ c && c ≤ 57

def digit (d : ℕ) : UInt8 := UInt8.ofNat (48 + d)

def digitValue (c : UInt8) : ℕ := c.toNat - 48

def value (ds : Bytes) : ℕ := Nat.ofDigits 10 (ds.reverse.map digitValue)

def printNat (n : ℕ) : Bytes :=
  if n = 0 then [zero] else ((Nat.digits 10 n).map digit).reverse

def printInt : ℤ → Bytes
  | .ofNat n => printNat n
  | .negSucc n => minus :: printNat (n + 1)

theorem toNat_digit {d : ℕ} (h : d < 10) : (digit d).toNat = 48 + d := by
  rw [digit, UInt8.toNat_ofNat']
  omega

theorem digitValue_digit {d : ℕ} (h : d < 10) : digitValue (digit d) = d := by
  rw [digitValue, toNat_digit h]
  omega

theorem isDigit_iff (c : UInt8) : isDigit c = true ↔ 48 ≤ c.toNat ∧ c.toNat ≤ 57 := by
  simp [isDigit, UInt8.le_iff_toNat_le]

theorem isDigit_digit {d : ℕ} (h : d < 10) : isDigit (digit d) = true := by
  rw [isDigit_iff, toNat_digit h]
  omega

theorem digit_digitValue {c : UInt8} (h : isDigit c = true) : digit (digitValue c) = c := by
  obtain ⟨hl, -⟩ := (isDigit_iff c).mp h
  apply UInt8.toNat_inj.mp
  have hc : 48 + (c.toNat - 48) = c.toNat := by omega
  rw [digit, digitValue, hc]
  simp

theorem digitValue_lt {c : UInt8} (h : isDigit c = true) : digitValue c < 10 := by
  obtain ⟨hl, hu⟩ := (isDigit_iff c).mp h
  rw [digitValue]
  omega

theorem printNat_ne_nil (n : ℕ) : printNat n ≠ [] := by
  rw [printNat]
  split
  · simp
  · next h => simpa [Nat.digits_eq_nil_iff_eq_zero] using h

theorem isDigit_of_mem_printNat {n : ℕ} {c : UInt8} (h : c ∈ printNat n) : isDigit c = true := by
  rw [printNat] at h
  split at h
  · simp only [List.mem_singleton] at h
    subst h
    decide
  · obtain ⟨d, hd, rfl⟩ := List.mem_map.mp (List.mem_reverse.mp h)
    exact isDigit_digit (Nat.digits_lt_base (by decide) hd)

theorem notMem_printInt {n : ℤ} {c : UInt8} (hd : isDigit c = false) (hm : c ≠ minus) :
    c ∉ printInt n := by
  have hp : ∀ k, c ∉ printNat k := fun k hk => by simp [isDigit_of_mem_printNat hk] at hd
  cases n with
  | ofNat k => exact hp k
  | negSucc k => exact fun hc => (List.mem_cons.mp hc).elim hm (hp (k + 1))

theorem value_printNat (n : ℕ) : value (printNat n) = n := by
  rw [printNat]
  split
  · next h => subst h; decide
  · have hd : ((Nat.digits 10 n).map digit).map digitValue = Nat.digits 10 n := by
      rw [List.map_map]
      conv_rhs => rw [← List.map_id (Nat.digits 10 n)]
      exact List.map_congr_left fun d hd => digitValue_digit (Nat.digits_lt_base (by decide) hd)
    rw [value, List.reverse_reverse, hd, Nat.ofDigits_digits]

theorem head_printNat_ne_zero {n : ℕ} (h : n ≠ 0) : (printNat n).head? ≠ some zero := by
  have hne : Nat.digits 10 n ≠ [] := Nat.digits_ne_nil_iff_ne_zero.mpr h
  rw [printNat, if_neg h, List.head?_reverse, List.getLast?_map,
    List.getLast?_eq_getLast_of_ne_nil hne]
  intro he
  have hd := Nat.digits_lt_base (b := 10) (by decide) (List.getLast_mem hne)
  have hz := digitValue_digit hd
  rw [Option.map_some, Option.some.injEq] at he
  rw [he] at hz
  exact Nat.getLast_digit_ne_zero 10 h hz.symm

/-- A numeral without a leading zero is the one that printing its value gives. -/
theorem printNat_value {ds : Bytes} (hne : ds ≠ []) (hd : ∀ c ∈ ds, isDigit c = true)
    (hz : ds.head? ≠ some zero) : printNat (value ds) = ds := by
  have hlast : ∀ hm, (ds.reverse.map digitValue).getLast hm ≠ 0 := by
    intro hm hv
    obtain ⟨c, cs, rfl⟩ := List.exists_cons_of_ne_nil hne
    simp only [List.reverse_cons, List.map_append, List.map_cons, List.map_nil,
      List.getLast_append_singleton] at hv
    have hc := digit_digitValue (hd c List.mem_cons_self)
    rw [hv] at hc
    exact hz (by rw [List.head?_cons, ← hc]; rfl)
  have hdigits : Nat.digits 10 (value ds) = ds.reverse.map digitValue := by
    refine Nat.digits_ofDigits 10 (by decide) _ ?_ hlast
    intro d hm
    obtain ⟨c, hc, rfl⟩ := List.mem_map.mp hm
    exact digitValue_lt (hd c (List.mem_reverse.mp hc))
  have hpos : value ds ≠ 0 := by
    intro h0
    rw [h0, Nat.digits_zero] at hdigits
    exact hne (by simpa using hdigits.symm)
  rw [printNat, if_neg hpos, hdigits, List.map_map, ← List.map_reverse, List.reverse_reverse]
  conv_rhs => rw [← List.map_id ds]
  exact List.map_congr_left fun c hc => digit_digitValue (hd c hc)

/-- What `from_chars` and the `stoi` family report instead of a number. -/
inductive Errc | invalidArgument | resultOutOfRange
  deriving DecidableEq

def takeMinus : Bytes → Bool × Bytes
  | [] => (false, [])
  | c :: s => if c = minus then (true, s) else (false, c :: s)

def signed (negative : Bool) (n : ℕ) : ℤ := if negative then -n else n

/-- `std::from_chars` in base ten for an integer type of the given range: the
number and the bytes after it, or the error. -/
def fromChars (lo hi : ℤ) (s : Bytes) : Except Errc (ℤ × Bytes) :=
  let ds := (takeMinus s).2.takeWhile isDigit
  let n := signed (takeMinus s).1 (value ds)
  if ds = [] then .error .invalidArgument
  else if lo ≤ n ∧ n ≤ hi then .ok (n, (takeMinus s).2.dropWhile isDigit)
  else .error .resultOutOfRange

def isSpace (c : UInt8) : Bool := c == 32 || (9 ≤ c && c ≤ 13)

/-- An optional sign of either kind, as `strtol` takes it. -/
def takeSign : Bytes → Bool × Bytes
  | [] => (false, [])
  | c :: s => if c = minus then (true, s) else if c = plus then (false, s) else (false, c :: s)

/-- `std::stoi`: leading blanks and a sign are skipped and whatever follows the
digits is ignored. The error is the exception it throws. -/
def stoi (lo hi : ℤ) (s : Bytes) : Except Errc ℤ :=
  let r := takeSign (s.dropWhile isSpace)
  let ds := r.2.takeWhile isDigit
  let n := signed r.1 (value ds)
  if ds = [] then .error .invalidArgument
  else if lo ≤ n ∧ n ≤ hi then .ok n
  else .error .resultOutOfRange

theorem takeWhile_digits {ds : Bytes} (hd : ∀ c ∈ ds, isDigit c = true) :
    ds.takeWhile isDigit = ds ∧ ds.dropWhile isDigit = [] :=
  ⟨List.takeWhile_eq_self_iff.mpr hd, List.dropWhile_eq_nil_iff.mpr hd⟩

theorem takeMinus_digits {ds : Bytes} (hd : ∀ c ∈ ds, isDigit c = true) :
    takeMinus ds = (false, ds) := by
  cases ds with
  | nil => rfl
  | cons c cs =>
    have hc : c ≠ minus := by
      rintro rfl
      exact absurd (hd minus List.mem_cons_self) (by decide)
    simp [takeMinus, hc]

theorem fromChars_digits {lo hi : ℤ} {ds : Bytes} (hne : ds ≠ [])
    (hd : ∀ c ∈ ds, isDigit c = true) (hr : lo ≤ value ds ∧ (value ds : ℤ) ≤ hi) :
    fromChars lo hi ds = .ok (value ds, []) := by
  have ht := takeWhile_digits hd
  simp [fromChars, takeMinus_digits hd, ht, hne, signed, hr]

/-- Reading a printed number, with nothing after it, gives the number back. -/
theorem fromChars_printInt {lo hi n : ℤ} (hr : lo ≤ n ∧ n ≤ hi) :
    fromChars lo hi (printInt n) = .ok (n, []) := by
  cases n with
  | ofNat n =>
    have hv := value_printNat n
    have h : fromChars lo hi (printNat n) = .ok ((value (printNat n) : ℕ), []) :=
      fromChars_digits (printNat_ne_nil n) (fun c hc => isDigit_of_mem_printNat hc)
        (by rw [hv]; exact hr)
    rw [hv] at h
    exact h
  | negSucc n =>
    have hd : ∀ c ∈ printNat (n + 1), isDigit c = true := fun c hc => isDigit_of_mem_printNat hc
    have ht := takeWhile_digits hd
    have hv : signed true (n + 1) = Int.negSucc n := by simp [signed, Int.negSucc_eq]
    simp [fromChars, printInt, takeMinus, ht, printNat_ne_nil, value_printNat, hv, hr]

theorem printInt_injective : Function.Injective printInt := by
  intro m n h
  have hm := fromChars_printInt (n := m) ⟨min_le_left m n, le_max_left m n⟩
  have hn := fromChars_printInt (n := n) ⟨min_le_right m n, le_max_right m n⟩
  rw [h, hn] at hm
  exact (Prod.mk.inj (Except.ok.inj hm)).1.symm

theorem fromChars_nonneg {lo hi n : ℤ} {s : Bytes} (h : fromChars lo hi s = .ok (n, []))
    (hn : 0 < n) : s ≠ [] ∧ (∀ c ∈ s, isDigit c = true) ∧ n = value s := by
  simp only [fromChars] at h
  split at h
  · cases h
  next hds =>
  split at h
  · simp only [Except.ok.injEq, Prod.mk.injEq] at h
    obtain ⟨hv, hrest⟩ := h
    have hall : (takeMinus s).2.takeWhile isDigit = (takeMinus s).2 := by
      have := List.takeWhile_append_dropWhile (p := isDigit) (l := (takeMinus s).2)
      rwa [hrest, List.append_nil] at this
    rw [hall] at hv hds
    have hneg : (takeMinus s).1 = false := by
      cases hm : (takeMinus s).1 with
      | false => rfl
      | true =>
        simp only [hm, signed, if_true] at hv
        omega
    have hs : takeMinus s = (false, s) := by
      cases s with
      | nil => rfl
      | cons c cs =>
        by_cases hc : c = minus
        · simp [takeMinus, hc] at hneg
        · simp [takeMinus, hc]
    rw [hs] at hv hds hall
    refine ⟨hds, ?_, by simpa [signed] using hv.symm⟩
    exact List.takeWhile_eq_self_iff.mp hall
  · cases h

theorem stoi_digits {lo hi : ℤ} {ds : Bytes} (hne : ds ≠ [])
    (hd : ∀ c ∈ ds, isDigit c = true) (hr : lo ≤ value ds ∧ (value ds : ℤ) ≤ hi) :
    stoi lo hi ds = .ok (value ds : ℤ) := by
  obtain ⟨c, cs, rfl⟩ := List.exists_cons_of_ne_nil hne
  have hc := hd c List.mem_cons_self
  have hsp : isSpace c = false := by
    rw [isDigit_iff] at hc
    simp only [isSpace, Bool.or_eq_false_iff, beq_eq_false_iff_ne, Bool.and_eq_false_iff,
      decide_eq_false_iff_not, ne_eq]
    refine ⟨?_, .inr ?_⟩
    · rintro rfl
      simp at hc
    · rw [UInt8.le_iff_toNat_le]
      have : (13 : UInt8).toNat = 13 := rfl
      omega
  have hm : c ≠ minus := by rintro rfl; exact absurd hc (by decide)
  have hp : c ≠ plus := by rintro rfl; exact absurd hc (by decide)
  have ht := takeWhile_digits hd
  have hsign : takeSign ((c :: cs).dropWhile isSpace) = (false, c :: cs) := by
    simp [hsp, takeSign, hm, hp]
  simp [stoi, hsign, ht, signed, hr]

end CharConversions
