import Mathlib.Data.Fintype.Card
import SyncFs.Budgets
import SyncFs.MonitorWaits

/-!
# Who holds a descriptor

A monitor closes its descriptor when it goes, and a move hands the descriptor
on. What a move finds in its way, its own fresh descriptor or the one of the
monitor assigned to, is written over and not closed.
-/

namespace SyncFs.MonitorHandles

open LabelledRuns
open MonitorWaits (Monitor Resync resyncWatches)

/-- A monitor object; one that was moved from has no descriptor. -/
structure Object where
  fd : Option ℕ
  monitor : Monitor
  deriving DecidableEq

def Object.empty : Object := ⟨none, ⟨[], []⟩⟩

/-- The open descriptors of the process and the monitors that live in it. -/
structure Handles (ι : Type) where
  opened : Finset ℕ
  object : ι → Option Object

/-- What a program can do with its monitors, and how the system answers: the
descriptor `inotify_init` gives, and the watch on the root. -/
inductive Event (ι : Type)
  | construct (i : ι) (init : Option ℕ) (root : Option ℤ) (found : Resync)
  | moveConstruct (i source : ι) (init : Option ℕ)
  | moveAssign (i source : ι)
  | destroy (i : ι)

section

variable {ι : Type} [DecidableEq ι]

def opens (s : Handles ι) : Option ℕ → Option (Finset ℕ)
  | none => some s.opened
  | some fd => if fd ∈ s.opened then none else some (insert fd s.opened)

def assign (object : ι → Option Object) (i source : ι) (m : Object) : ι → Option Object :=
  Function.update (Function.update object i (some m)) source (some .empty)

/-- The monitors after one more is made. A constructor that throws leaves none
to close what it opened. -/
def made (object : ι → Option Object) (i : ι) (found : Resync) :
    Option ℕ → Option ℤ → ι → Option Object
  | some fd, some wd =>
    Function.update object i (some ⟨some fd, ⟨resyncWatches found [(wd, Path.here)], []⟩⟩)
  | _, _ => object

def close (opened : Finset ℕ) : Option ℕ → Finset ℕ
  | none => opened
  | some fd => opened.erase fd

def step (s : Handles ι) : Event ι → Option (Handles ι)
  | .construct i init root found =>
    match s.object i, opens s init with
    | none, some opened => some ⟨opened, made s.object i found init root⟩
    | _, _ => none
  | .moveConstruct i source init =>
    match s.object i, s.object source, opens s init with
    | none, some m, some opened => some ⟨opened, assign s.object i source m⟩
    | _, _, _ => none
  | .moveAssign i source =>
    match s.object i, s.object source with
    | some _, some m => some ⟨s.opened, assign s.object i source m⟩
    | _, _ => none
  | .destroy i =>
    match s.object i with
    | some m => some ⟨close s.opened m.fd, Function.update s.object i none⟩
    | none => none

def fds (object : ι → Option Object) (i : ι) : Option ℕ := (object i).bind Object.fd

def noHandles : Handles ι := ⟨∅, fun _ => none⟩

/-- The descriptors an event leaves open with nobody to close them. -/
def lost (s : Handles ι) : Event ι → ℕ
  | .construct _ (some _) none _ => 1
  | .moveConstruct _ _ (some _) => 1
  | .moveAssign i _ => if (fds s.object i).isSome then 1 else 0
  | _ => 0

def owners [Fintype ι] (fds : ι → Option ℕ) : Finset ι := Finset.univ.filter fun i => (fds i).isSome

def Apart (fds : ι → Option ℕ) : Prop := ∀ i j fd, fds i = some fd → fds j = some fd → i = j

/-- What is held is open and held once, and a monitor that was moved from has
nothing left. -/
structure Owned (s : Handles ι) : Prop where
  opened : ∀ i fd, fds s.object i = some fd → fd ∈ s.opened
  apart : Apart (fds s.object)
  bare : ∀ i m, s.object i = some m → m.fd = none → m = .empty

inductive Stepped (s : Handles ι) : Event ι → Handles ι → Prop
  | constructed {i : ι} {fd : ℕ} {wd : ℤ} {found : Resync} (fresh : fd ∉ s.opened)
    (unborn : s.object i = none) :
    Stepped s (.construct i (some fd) (some wd) found) ⟨insert fd s.opened,
      Function.update s.object i
        (some ⟨some fd, ⟨resyncWatches found [(wd, Path.here)], []⟩⟩)⟩
  | unwatched {i : ι} {fd : ℕ} {found : Resync} (fresh : fd ∉ s.opened) :
    Stepped s (.construct i (some fd) none found) ⟨insert fd s.opened, s.object⟩
  | refused {i : ι} {root : Option ℤ} {found : Resync} :
    Stepped s (.construct i none root found) s
  | moved {i source : ι} {m : Object} {init : Option ℕ} {opened : Finset ℕ}
    (unborn : s.object i = none) (live : s.object source = some m)
    (opens : opens s init = some opened) :
    Stepped s (.moveConstruct i source init) ⟨opened, assign s.object i source m⟩
  | assigned {i source : ι} {old m : Object} (target : s.object i = some old)
    (live : s.object source = some m) :
    Stepped s (.moveAssign i source) ⟨s.opened, assign s.object i source m⟩
  | destroyed {i : ι} {m : Object} (live : s.object i = some m) :
    Stepped s (.destroy i) ⟨close s.opened m.fd, Function.update s.object i none⟩

variable {s t : Handles ι} {e : Event ι} {i j source : ι} {fd : ℕ}

omit [DecidableEq ι] in
theorem opens_some {opened : Finset ℕ} (h : opens s (some fd) = some opened) :
    fd ∉ s.opened ∧ opened = insert fd s.opened := by
  obtain ⟨hfresh, h⟩ := Option.ite_none_left_eq_some.mp h
  exact ⟨hfresh, (Option.some.inj h).symm⟩

theorem stepped (h : step s e = some t) : Stepped s e t := by
  cases e with
  | construct i init root found =>
    rw [step] at h
    split at h
    · next opened hunborn hopens =>
      obtain rfl := Option.some.inj h
      cases init with
      | none =>
        obtain rfl := Option.some.inj hopens
        exact .refused
      | some fd =>
        obtain ⟨hfresh, rfl⟩ := opens_some hopens
        cases root with
        | none => exact .unwatched hfresh
        | some wd => exact .constructed hfresh hunborn
    · cases h
  | moveConstruct i source init =>
    rw [step] at h
    split at h
    · next m opened hunborn hlive hopens =>
      obtain rfl := Option.some.inj h
      exact .moved hunborn hlive hopens
    · cases h
  | moveAssign i source =>
    rw [step] at h
    split at h
    · next old m htarget hlive =>
      obtain rfl := Option.some.inj h
      exact .assigned htarget hlive
    · cases h
  | destroy i =>
    rw [step] at h
    split at h
    · next m hlive =>
      obtain rfl := Option.some.inj h
      exact .destroyed hlive
    · cases h

theorem fds_update (object : ι → Option Object) (i : ι) (x : Option Object) :
    fds (Function.update object i x) = Function.update (fds object) i (x.bind Object.fd) := by
  funext j
  by_cases hj : j = i
  · rw [hj, fds, Function.update_self, Function.update_self]
  · rw [fds, Function.update_of_ne hj, Function.update_of_ne hj, fds]

theorem fds_assign {object : ι → Option Object} {m : Object} (hm : object source = some m) :
    fds (assign object i source m) =
      Function.update (Function.update (fds object) i (fds object source)) source none := by
  rw [assign, fds_update, fds_update, fds, hm]
  rfl

section Updates

variable {g : ι → Option ℕ}

theorem Apart.erase (h : Apart g) (i : ι) : Apart (Function.update g i none) := by
  intro j k fd hj hk
  rw [Function.update_apply] at hj hk
  split at hj
  · cases hj
  · split at hk
    · cases hk
    · exact h j k fd hj hk

theorem Apart.insert (h : Apart g) (hfresh : ∀ j, g j ≠ some fd) (i : ι) :
    Apart (Function.update g i (some fd)) := by
  intro j k fd' hj hk
  rw [Function.update_apply] at hj hk
  split at hj
  · next hji =>
    obtain rfl := Option.some.inj hj
    split at hk
    · next hki => exact hji.trans hki.symm
    · exact absurd hk (hfresh k)
  · split at hk
    · obtain rfl := Option.some.inj hk
      exact absurd hj (hfresh j)
    · exact h j k fd' hj hk

theorem Apart.assign (h : Apart g) (i source : ι) :
    Apart (Function.update (Function.update g i (g source)) source none) := by
  have heq : ∀ j fd, Function.update (Function.update g i (g source)) source none j = some fd →
      j ≠ source ∧ (j = i ∧ g source = some fd ∨ g j = some fd) := by
    intro j fd hj
    rw [Function.update_apply] at hj
    split at hj
    · cases hj
    · next hne =>
      rw [Function.update_apply] at hj
      split at hj
      · next hji => exact ⟨hne, .inl ⟨hji, hj⟩⟩
      · exact ⟨hne, .inr hj⟩
  intro j k fd hj hk
  obtain ⟨hjs, hfrom⟩ := heq j fd hj
  obtain ⟨hks, hfrom'⟩ := heq k fd hk
  rcases hfrom with ⟨hji, hs⟩ | hg
  · rcases hfrom' with ⟨hki, -⟩ | hg'
    · exact hji.trans hki.symm
    · exact absurd (h k source fd hg' hs) hks
  · rcases hfrom' with ⟨-, hs⟩ | hg'
    · exact absurd (h j source fd hg hs) hjs
    · exact h j k fd hg hg'

variable [Fintype ι]

theorem card_owners_update (g : ι → Option ℕ) (i : ι) (x : Option ℕ) :
    (owners (Function.update g i x)).card + (if (g i).isSome then 1 else 0) =
      (owners g).card + if x.isSome then 1 else 0 := by
  have hcard : ∀ g : ι → Option ℕ, (owners g).card =
      (if (g i).isSome then 1 else 0) + ∑ j ∈ Finset.univ.erase i, if (g j).isSome then 1 else 0 := by
    intro g
    rw [owners, Finset.card_filter]
    exact (Finset.add_sum_erase _ _ (Finset.mem_univ i)).symm
  have hrest : (∑ j ∈ Finset.univ.erase i, if (Function.update g i x j).isSome then 1 else 0) =
      ∑ j ∈ Finset.univ.erase i, if (g j).isSome then 1 else 0 := by
    refine Finset.sum_congr rfl fun j hj => ?_
    rw [Function.update_of_ne (Finset.ne_of_mem_erase hj)]
  rw [hcard, hcard g, hrest, Function.update_self]
  omega

theorem card_owners_assign (g : ι → Option ℕ) (i source : ι) :
    (owners (Function.update (Function.update g i (g source)) source none)).card +
      (if (g i).isSome then 1 else 0) = (owners g).card := by
  have hover := card_owners_update g i (g source)
  have hclear := card_owners_update (Function.update g i (g source)) source none
  have hsource : Function.update g i (g source) source = g source := by
    rw [Function.update_apply]
    split <;> rfl
  rw [hsource] at hclear
  simp only [Option.isSome_none, Bool.false_eq_true, if_false] at hclear
  omega

end Updates

omit [DecidableEq ι] in
theorem owned_noHandles : Owned (noHandles : Handles ι) :=
  ⟨by rintro i fd ⟨⟩, by rintro i j fd ⟨⟩, by rintro i m ⟨⟩⟩

omit [DecidableEq ι] in
theorem Owned.fresh (h : Owned s) (hfd : fd ∉ s.opened) (j : ι) : fds s.object j ≠ some fd :=
  fun hj => hfd (h.opened j fd hj)

theorem Owned.assign (h : Owned s) {m : Object} (hm : s.object source = some m)
    {opened : Finset ℕ} (hsub : s.opened ⊆ opened) :
    Owned ⟨opened, assign s.object i source m⟩ where
  opened j fd hj := by
    rw [fds_assign hm, Function.update_apply] at hj
    split at hj
    · cases hj
    · rw [Function.update_apply] at hj
      split at hj
      · exact hsub (h.opened source fd hj)
      · exact hsub (h.opened j fd hj)
  apart := by
    rw [fds_assign hm]
    exact h.apart.assign i source
  bare j m' hj hfd := by
    change MonitorHandles.assign s.object i source m j = some m' at hj
    rw [MonitorHandles.assign, Function.update_apply] at hj
    split at hj
    · exact (Option.some.inj hj).symm
    · rw [Function.update_apply] at hj
      split at hj
      · obtain rfl := Option.some.inj hj
        exact h.bare source m hm hfd
      · exact h.bare j m' hj hfd

theorem Owned.step (h : Owned s) (hs : Stepped s e t) : Owned t := by
  cases hs with
  | @constructed i fd wd found hfresh hunborn =>
    refine ⟨fun j fd' hj => ?_, ?_, fun j m hj hfd => ?_⟩
    · rw [fds_update, Function.update_apply] at hj
      split at hj
      · obtain rfl := Option.some.inj hj
        exact Finset.mem_insert_self _ _
      · exact Finset.mem_insert_of_mem (h.opened j fd' hj)
    · rw [fds_update]
      exact h.apart.insert (h.fresh hfresh) i
    · dsimp only at hj
      rw [Function.update_apply] at hj
      split at hj
      · obtain rfl := Option.some.inj hj
        cases hfd
      · exact h.bare j m hj hfd
  | unwatched hfresh =>
    exact { h with opened := fun j fd' hj => Finset.mem_insert_of_mem (h.opened j fd' hj) }
  | refused => exact h
  | @moved i source m init opened hunborn hlive hopens =>
    refine h.assign hlive ?_
    cases init with
    | none =>
      obtain rfl := Option.some.inj hopens
      exact Finset.Subset.refl _
    | some fd =>
      obtain ⟨-, rfl⟩ := opens_some hopens
      exact Finset.subset_insert _ _
  | assigned htarget hlive => exact h.assign hlive (Finset.Subset.refl _)
  | @destroyed i m hlive =>
    refine ⟨fun j fd' hj => ?_, ?_, fun j m' hj hfd => ?_⟩
    · rw [fds_update, Function.update_apply] at hj
      split at hj
      · cases hj
      · next hne =>
        have hkept := h.opened j fd' hj
        cases hm : m.fd with
        | none => exact hkept
        | some fd =>
          refine Finset.mem_erase.mpr ⟨fun heq => hne ?_, hkept⟩
          subst heq
          exact h.apart j i _ hj (by rw [fds, hlive]; exact hm)
    · rw [fds_update]
      exact h.apart.erase i
    · dsimp only at hj
      rw [Function.update_apply] at hj
      split at hj
      · cases hj
      · exact h.bare j m' hj hfd

variable [Fintype ι]

/-- What is open changes by what is held and by what is lost. -/
theorem Owned.balance (h : Owned s) (hs : Stepped s e t) :
    t.opened.card + (owners (fds s.object)).card =
      s.opened.card + (owners (fds t.object)).card + lost s e := by
  cases hs with
  | @constructed i fd wd found hfresh hunborn =>
    have hcard := card_owners_update (fds s.object) i (some fd)
    have hnone : fds s.object i = none := by rw [fds, hunborn]; rfl
    rw [hnone] at hcard
    rw [fds_update, Finset.card_insert_of_notMem hfresh]
    simp only [Option.isSome_none, Option.isSome_some, Bool.false_eq_true, if_false, if_true] at hcard
    change _ = s.opened.card + (owners (Function.update (fds s.object) i (some fd))).card + 0
    omega
  | unwatched hfresh =>
    rw [Finset.card_insert_of_notMem hfresh]
    change _ = _ + 1
    dsimp only
    omega
  | refused => rfl
  | @moved i source m init opened hunborn hlive hopens =>
    have hcard := card_owners_assign (fds s.object) i source
    have hnone : fds s.object i = none := by rw [fds, hunborn]; rfl
    rw [hnone] at hcard
    simp only [Option.isSome_none, Bool.false_eq_true, if_false] at hcard
    rw [fds_assign hlive]
    cases init with
    | none =>
      obtain rfl := Option.some.inj hopens
      change s.opened.card + _ = s.opened.card + _ + 0
      omega
    | some fd =>
      obtain ⟨hfresh, rfl⟩ := opens_some hopens
      rw [Finset.card_insert_of_notMem hfresh]
      change _ = _ + 1
      omega
  | @assigned i source old m htarget hlive =>
    have hcard := card_owners_assign (fds s.object) i source
    rw [fds_assign hlive, lost]
    dsimp only
    omega
  | @destroyed i m hlive =>
    have hcard := card_owners_update (fds s.object) i none
    have hm : fds s.object i = m.fd := by rw [fds, hlive]; rfl
    rw [fds_update]
    change (close s.opened m.fd).card + _ = _ + 0
    cases hfd : m.fd with
    | none =>
      rw [hm, hfd] at hcard
      simp only [Option.isSome_none, Bool.false_eq_true, if_false] at hcard
      change s.opened.card + _ = s.opened.card + (owners (Function.update _ _ none)).card + 0
      omega
    | some fd =>
      rw [hm, hfd] at hcard
      have hin : fd ∈ s.opened := h.opened i fd (hm.trans hfd)
      have herase := Finset.card_erase_add_one hin
      simp only [Option.isSome_none, Option.isSome_some, Bool.false_eq_true, if_false, if_true]
        at hcard
      change (s.opened.erase fd).card + _ =
        s.opened.card + (owners (Function.update _ _ none)).card + 0
      omega

/-- Descriptors are never shared and never closed twice: what a monitor holds is
open, held by it alone and still open when it closes it, and a monitor that was
moved from has neither watches nor events left. What is open is what is held and
what was lost: one for each construction that fails at the root, for each move
into a new monitor and for each assignment over one that held its own. -/
theorem descriptors_kept {h : History (Handles ι) (Event ι)}
    (hr : Run MonitorHandles.step noHandles h s) :
    Owned s ∧ (∀ x ∈ h, ∀ i fd, x.2 = .destroy i → fds x.1.object i = some fd → fd ∈ x.1.opened) ∧
      s.opened.card = (owners (fds s.object)).card + total lost h := by
  induction hr with
  | refl =>
    refine ⟨owned_noHandles, fun x hx => absurd hx List.not_mem_nil, ?_⟩
    simp [noHandles, owners, fds]
  | @snoc h s e t hr he ih =>
    obtain ⟨howned, hcloses, hcard⟩ := ih
    have hs := stepped he
    have hbalance := howned.balance hs
    refine ⟨howned.step hs, List.forall_mem_cons.mpr ⟨fun i fd _ hfd => howned.opened i fd hfd,
      hcloses⟩, ?_⟩
    rw [total_cons]
    omega

def handedOn : List (Event Bool) :=
  [.construct false (some 3) (some 1) ⟨[], 1, []⟩, .moveConstruct true false (some 4),
    .destroy true, .destroy false]

theorem handedOn_loses :
    ∃ h s, Run MonitorHandles.step (noHandles : Handles Bool) h s ∧ total lost h = 1 ∧
      s.opened.card = 1 := by
  obtain ⟨h, s, hr, hlost, howners⟩ := exists_run MonitorHandles.step (noHandles : Handles Bool)
    handedOn (fun h s => total lost h = 1 ∧ (owners (fds s.object)).card = 0) (by decide +kernel)
  refine ⟨h, s, hr, hlost, ?_⟩
  rw [(descriptors_kept hr).2.2, howners, hlost]

end

end SyncFs.MonitorHandles
