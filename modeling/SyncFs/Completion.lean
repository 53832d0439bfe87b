import Mathlib.Init

/-!
# Computations that complete

A computation that may raise completes if it hands back a value. Whether one put
together from others does is told by what completes of its parts.
-/

namespace Completion

universe u v

variable {ε : Type u} {α β σ : Type v}

def Completes (x : Except ε α) : Prop := ∃ a, x = .ok a

def raisedBy : Except ε α → Option ε
  | .ok _ => none
  | .error e => some e

theorem eq_error_of_raisedBy {x : Except ε α} {e : ε} (h : raisedBy x = some e) :
    x = .error e := by
  cases x with
  | ok a => cases h
  | error e' => exact congrArg Except.error (Option.some.inj h)

theorem eq_ok_of_toOption {x : Except ε α} {a : α} (h : x.toOption = some a) : x = .ok a := by
  cases x with
  | ok b => exact congrArg Except.ok (Option.some.inj h)
  | error e => cases h

@[simp] theorem completes_ok (a : α) : Completes (.ok a : Except ε α) := ⟨a, rfl⟩

@[simp] theorem completes_pure (a : α) : Completes (pure a : Except ε α) := ⟨a, rfl⟩

@[simp] theorem not_completes_error (e : ε) : ¬ Completes (.error e : Except ε α) := nofun

theorem completes_bind {x : Except ε α} {f : α → Except ε β} :
    Completes (x >>= f) ↔ ∃ a, x = .ok a ∧ Completes (f a) := by
  cases x with
  | error e => exact iff_of_false (not_completes_error e) nofun
  | ok a => exact ⟨fun h => ⟨a, rfl, h⟩, fun ⟨_, ha, h⟩ => Except.ok.inj ha ▸ h⟩

theorem completes_bind_of_forall {x : Except ε α} {f : α → Except ε β} {P : Prop}
    (hf : ∀ a, x = .ok a → (Completes (f a) ↔ P)) : Completes (x >>= f) ↔ Completes x ∧ P := by
  rw [completes_bind]
  constructor
  · rintro ⟨a, ha, h⟩
    exact ⟨⟨a, ha⟩, (hf a ha).mp h⟩
  · rintro ⟨⟨a, ha⟩, h⟩
    exact ⟨a, ha, (hf a ha).mpr h⟩

theorem completes_bind_pure {x : Except ε α} {g : α → β} :
    Completes (x >>= fun a => pure (g a)) ↔ Completes x :=
  (completes_bind_of_forall fun _ _ => iff_of_true ⟨_, rfl⟩ trivial).trans (and_iff_left trivial)

theorem completes_map {x : Except ε α} {f : α → β} : Completes (f <$> x) ↔ Completes x := by
  rw [map_eq_pure_bind]
  exact completes_bind_pure

theorem completes_mapM {f : α → Except ε β} {xs : List α} :
    Completes (xs.mapM f) ↔ ∀ x ∈ xs, Completes (f x) := by
  induction xs with
  | nil => exact iff_of_true ⟨[], rfl⟩ nofun
  | cons x xs ih =>
    rw [List.mapM_cons, completes_bind_of_forall fun _ _ => completes_bind_pure, ih,
      List.forall_mem_cons]

/-- A fold completes if each of its steps does, as long as whether one does can
be told from where the fold began. -/
theorem completes_foldlM {f : σ → α → Except ε σ} {I : List α → σ → Prop} {P : α → Prop}
    {xs : List α} {s : σ} (hi : I xs s)
    (hs : ∀ x xs s, I (x :: xs) s → (Completes (f s x) ↔ P x) ∧ ∀ s', f s x = .ok s' → I xs s') :
    Completes (xs.foldlM f s) ↔ ∀ x ∈ xs, P x := by
  induction xs generalizing s with
  | nil => exact iff_of_true ⟨s, rfl⟩ nofun
  | cons x xs ih =>
    obtain ⟨hx, hrest⟩ := hs x xs s hi
    rw [List.foldlM_cons, completes_bind_of_forall fun s' h => ih (hrest s' h), hx,
      List.forall_mem_cons]

/-- What a computation hands back that completes in each of its parts as a
function tells. -/
theorem map_of_mapM {f : α → Except ε β} {g : α → β} (hf : ∀ a b, f a = .ok b → b = g a)
    {xs : List α} {ys : List β} (h : xs.mapM f = .ok ys) : ys = xs.map g := by
  induction xs generalizing ys with
  | nil => exact (Except.ok.inj h).symm
  | cons x xs ih =>
    rw [List.mapM_cons] at h
    cases hx : f x with
    | error e =>
      rw [hx] at h
      cases h
    | ok y =>
      cases hrest : xs.mapM f with
      | error e =>
        rw [hx, hrest] at h
        cases h
      | ok rest =>
        rw [hx, hrest] at h
        rw [← Except.ok.inj h, hf x y hx, ih hrest, List.map_cons]

theorem error_of_mapM {f : α → Except ε β} {xs : List α} {e : ε} (h : xs.mapM f = .error e) :
    ∃ x ∈ xs, f x = .error e := by
  induction xs with
  | nil => cases h
  | cons x xs ih =>
    rw [List.mapM_cons] at h
    cases hx : f x with
    | error e' =>
      rw [hx] at h
      obtain rfl : e' = e := Except.error.inj h
      exact ⟨x, List.mem_cons_self, hx⟩
    | ok y =>
      cases hrest : xs.mapM f with
      | ok rest =>
        rw [hx, hrest] at h
        cases h
      | error e' =>
        rw [hx, hrest] at h
        obtain rfl : e' = e := Except.error.inj h
        obtain ⟨z, hz, hraised⟩ := ih hrest
        exact ⟨z, List.mem_cons_of_mem x hz, hraised⟩

theorem foldl_of_foldlM {f : σ → α → Except ε σ} {g : σ → α → σ}
    (hf : ∀ s x s', f s x = .ok s' → s' = g s x) {xs : List α} {s s' : σ}
    (h : xs.foldlM f s = .ok s') : s' = xs.foldl g s := by
  induction xs generalizing s with
  | nil => exact (Except.ok.inj h).symm
  | cons x xs ih =>
    rw [List.foldlM_cons] at h
    cases hx : f s x with
    | error e =>
      rw [hx] at h
      cases h
    | ok next =>
      rw [hx] at h
      rw [List.foldl_cons, ← hf s x next hx]
      exact ih h

/-- However the computation ends: with such a value, or raising such an error. -/
def Ends (P : α → Prop) (Q : ε → Prop) : Except ε α → Prop
  | .ok a => P a
  | .error e => Q e

theorem Ends.mono {P P' : α → Prop} {Q Q' : ε → Prop} {x : Except ε α} (h : Ends P Q x)
    (hp : ∀ a, P a → P' a) (hq : ∀ e, Q e → Q' e) : Ends P' Q' x := by
  cases x with
  | ok a => exact hp a h
  | error e => exact hq e h

/-- One computation after another: what it raises either of them has raised. -/
theorem Ends.bind {P : α → Prop} {P' : β → Prop} {Q : ε → Prop} {x : Except ε α}
    {f : α → Except ε β} (h : Ends P Q x) (hf : ∀ a, P a → Ends P' Q (f a)) :
    Ends P' Q (x >>= f) := by
  cases x with
  | ok a => exact hf a h
  | error e => exact h

/-- What holds where a fold begins and what each of its steps keeps holds where
the fold ends; what it raises one of its steps has raised. -/
theorem ends_foldlM {f : σ → α → Except ε σ} {P : σ → Prop} {Q : ε → Prop} {xs : List α} {s : σ}
    (hs : P s) (hf : ∀ x ∈ xs, ∀ s, P s → Ends P Q (f s x)) : Ends P Q (xs.foldlM f s) := by
  induction xs generalizing s with
  | nil => exact hs
  | cons x xs ih =>
    obtain ⟨hx, hrest⟩ := List.forall_mem_cons.mp hf
    have hstep := hx s hs
    rw [List.foldlM_cons]
    cases hfx : f s x with
    | error e =>
      rw [hfx] at hstep
      exact hstep
    | ok s' =>
      rw [hfx] at hstep
      exact ih hstep hrest

end Completion
