import SyncFs.Reconciliation

/-!
# Ticks of the wire in 64 bits

The times of the other modules are integers. Here they are the 64-bit counts
the clocks keep, whose sums and differences wrap, and the two are compared on
every count a peer can spell.
-/

namespace SyncFs

open CharConversions

/-- What a 64-bit register keeps of a sum or a difference. The overflow of a
signed count is undefined in the source, and this is what the hardware leaves. -/
def wrap64 (n : ℤ) : ℤ := Int.bmod n (2 ^ 64)

theorem wrap64_eq {n : ℤ} (h : InInt64 n) : wrap64 n = n := by
  obtain ⟨hl, hu⟩ := h
  simp only [int64Min, int64Max] at hl hu
  exact Int.bmod_eq_of_le (by omega) (by omega)

def toFileTime64 (t : TimePoint) : FileTime := ⟨wrap64 (t - fileEpoch)⟩

def FileTime.toTicks64 (t : FileTime) : ℤ := wrap64 (t.count + fileEpoch)

def beats64 (deleted : TimePoint) (written : FileTime) : Bool :=
  toTicks deleted > written.toTicks64

def age64 (now moment : TimePoint) : ℤ := wrap64 (now - moment)

def expire64 (tombstones : TombstoneMap) (now : TimePoint) : TombstoneMap :=
  tombstones.filter fun _ moment => !decide (age64 now moment > tombstoneTtl)

def adoptable64 (theirs : TombstoneMap) (held : FileMap) (mine : TombstoneMap) (now : TimePoint) :
    TombstoneMap :=
  theirs.filter fun path moment =>
    if (mine[path]?).any fun ours => ours ≥ moment then false
    else if age64 now moment > tombstoneTtl then false
    else (held[path]?).all fun written => beats64 moment written

/-- Nothing computed from one tick count of the wire leaves the 64 bits, and what
goes by its age goes by the age in integers. -/
structure StaysInside (t now : ℤ) : Prop where
  shifted : InInt64 (t - fileEpoch)
  shiftedBack : InInt64 ((toFileTime64 t).count + fileEpoch)
  age : InInt64 (now - t)
  compares : ∀ deleted : TimePoint, beats64 deleted (toFileTime64 t) = beats deleted (toFileTime t)
  expires : ∀ (tombstones : TombstoneMap) (path : Path), tombstones[path]? = some t →
    ((expire64 tombstones now)[path]? = none ↔ now - t > tombstoneTtl)
  declines : ∀ (theirs mine : TombstoneMap) (held : FileMap) (path : Path),
    theirs[path]? = some t →
    ((adoptable64 theirs held mine now)[path]? = none ↔ now - t > tombstoneTtl ∨
      (∃ ours, mine[path]? = some ours ∧ t ≤ ours) ∨
      ∃ written, held[path]? = some written ∧ beats64 t written = false)

variable {t now : ℤ}

theorem inInt64_fromChars {s rest : Bytes} {n : ℤ}
    (h : fromChars int64Min int64Max s = .ok (n, rest)) : InInt64 n := by
  simp only [fromChars] at h
  split_ifs at h with hds hr
  obtain ⟨rfl, -⟩ := Prod.mk.inj (Except.ok.inj h)
  exact hr

theorem fromTicks_of_fromChars {s : Bytes} (h : fromChars int64Min int64Max s = .ok (t, [])) :
    fromTicks s = t := by
  rw [fromTicks, h]

theorem getElem?_expire64 {tombstones : TombstoneMap} {path : Path}
    (h : tombstones[path]? = some t) :
    (expire64 tombstones now)[path]? = none ↔ age64 now t > tombstoneTtl := by
  rw [expire64, PathMap.getElem?_filter, h]
  simp [Option.filter]

theorem getElem?_adoptable64 {theirs mine : TombstoneMap} {held : FileMap} {path : Path}
    (h : theirs[path]? = some t) :
    (adoptable64 theirs held mine now)[path]? = none ↔ age64 now t > tombstoneTtl ∨
      (∃ ours, mine[path]? = some ours ∧ t ≤ ours) ∨
      ∃ written, held[path]? = some written ∧ beats64 t written = false := by
  rw [adoptable64, PathMap.getElem?_filter, h]
  cases hm : mine[path]? with
  | none =>
    cases hw : held[path]? with
    | none => simp [Option.filter]
    | some written => simp [Option.filter, or_iff_not_imp_left]
  | some ours =>
    cases hw : held[path]? with
    | none => simp [Option.filter]; grind
    | some written => simp [Option.filter]; grind

/-- The age of a count fits as long as the count is not too far back. -/
theorem inInt64_age_iff (ht : InInt64 t) (hnow : 0 ≤ now ∧ now ≤ int64Max) :
    InInt64 (now - t) ↔ now - int64Max ≤ t := by
  simp only [InInt64, int64Min, int64Max] at *
  omega

theorem toTicks64_eq {t : FileTime} (h : InInt64 t.toTicks) : t.toTicks64 = t.toTicks :=
  wrap64_eq h

/-- Where every age fits, the deletions forgotten are those of the integers. -/
theorem expire64_eq_expire {tombstones : TombstoneMap}
    (hages : ∀ (path : Path) (t : ℤ), tombstones[path]? = some t → InInt64 (now - t)) :
    expire64 tombstones now = expire tombstones now := by
  refine Std.ExtTreeMap.ext_getElem? fun path => ?_
  rw [expire64, expire, PathMap.getElem?_filter, PathMap.getElem?_filter]
  cases ht : tombstones[path]? with
  | none => rfl
  | some t =>
    have hage : age64 now t = now - t := wrap64_eq (hages path t ht)
    simp only [Option.filter, hage]

/-- Where the file times fit as well, so are the deletions taken on. -/
theorem adoptable64_eq_adoptable {theirs mine : TombstoneMap} {held : FileMap}
    (hages : ∀ (path : Path) (t : ℤ), theirs[path]? = some t → InInt64 (now - t))
    (hheld : ∀ (path : Path) (t : FileTime), held[path]? = some t → InInt64 t.toTicks) :
    adoptable64 theirs held mine now = adoptable theirs held mine now := by
  refine Std.ExtTreeMap.ext_getElem? fun path => ?_
  rw [adoptable64, adoptable, PathMap.getElem?_filter, PathMap.getElem?_filter]
  cases ht : theirs[path]? with
  | none => rfl
  | some t =>
    have hage : age64 now t = now - t := wrap64_eq (hages path t ht)
    have hbeats : (held[path]?).all (beats64 t) = (held[path]?).all (beats t) := by
      cases hw : held[path]? with
      | none => rfl
      | some written =>
        simp only [Option.all_some, beats64, beats, toTicks64_eq (hheld path written hw)]
    simp only [Option.filter, hage, hbeats]

/-- The tick arithmetic on a count of the wire stays inside 64 bits, and the
deletions that are forgotten and declined are those too old, exactly when the
shift to the epoch of the file clock and the age of the count fit. -/
theorem staysInside_iff {s : Bytes} (hs : fromChars int64Min int64Max s = .ok (t, []))
    (hnow : 0 ≤ now ∧ now ≤ int64Max) :
    StaysInside (fromTicks s) now ↔
      int64Min + fileEpoch ≤ fromTicks s ∧ now - int64Max ≤ fromTicks s := by
  have ht := inInt64_fromChars hs
  rw [fromTicks_of_fromChars hs]
  constructor
  · intro h
    exact ⟨by have := h.shifted.1; omega, (inInt64_age_iff ht hnow).mp h.age⟩
  · rintro ⟨hshift, hage⟩
    have hshifted : InInt64 (t - fileEpoch) := by
      have hepoch : 0 ≤ fileEpoch := by decide
      exact ⟨by omega, by have := ht.2; omega⟩
    have hfile : toFileTime64 t = toFileTime t := by
      rw [toFileTime64, toFileTime, wrap64_eq hshifted]
    have hfits : InInt64 (now - t) := (inInt64_age_iff ht hnow).mpr hage
    have hage64 : age64 now t = now - t := wrap64_eq hfits
    have hback : InInt64 (toFileTime t).toTicks := by
      rw [toTicks_toFileTime]
      exact ht
    refine ⟨hshifted, ?_, hfits, ?_, ?_, ?_⟩
    · rw [hfile]
      exact hback
    · intro deleted
      rw [beats64, beats, hfile, toTicks64_eq hback]
    · intro tombstones path h
      rw [getElem?_expire64 h, hage64]
    · intro theirs mine held path h
      rw [getElem?_adoptable64 h, hage64]

/-- Five nanoseconds into the epoch, read a while later. -/
theorem staysInside_five :
    fromChars int64Min int64Max (ascii "5") = .ok (5, []) ∧
      StaysInside (fromTicks (ascii "5")) 1700000000000000000 := by
  have hs : fromChars int64Min int64Max (ascii "5") = .ok (5, []) := by decide
  refine ⟨hs, (staysInside_iff hs (by decide)).mpr ?_⟩
  rw [fromTicks_of_fromChars hs]
  decide

/-- The lowest count that can be spelled leaves the 64 bits, and a deletion that
has it is remembered though it is far too old. -/
theorem lowest_outlives :
    fromChars int64Min int64Max (ascii "-9223372036854775808") = .ok (int64Min, []) ∧
      ¬ StaysInside (fromTicks (ascii "-9223372036854775808")) 1700000000000000000 ∧
      1700000000000000000 - int64Min > tombstoneTtl ∧
      (expire64 ((∅ : TombstoneMap).insert (Path.ofNative (ascii "./a")) int64Min)
        1700000000000000000)[Path.ofNative (ascii "./a")]? ≠ none := by
  have hs : fromChars int64Min int64Max (ascii "-9223372036854775808") = .ok (int64Min, []) := by
    decide
  refine ⟨hs, ?_, by decide, ?_⟩
  · intro h
    have hage := h.age.2
    rw [fromTicks_of_fromChars hs] at hage
    revert hage
    decide
  · intro h
    have hold := (getElem?_expire64 (t := int64Min) (by simp)).mp h
    revert hold
    decide

end SyncFs
