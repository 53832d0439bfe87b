import SyncFs.LabelledRuns
import SyncFs.Reconciliation
import SyncFs.SpacedMoments

/-!
# The pace of repairs

Gaps are armed, handed out once their moment has come and dropped one by one,
in any order. Each arming puts its gaps behind whatever is waiting, so what
comes due between two looks at the clock is bounded by the time between them.
-/

namespace SyncFs

open LabelledRuns SpacedMoments

/-- Any two repairs waited for are due a pace apart. -/
def PendingMap.Apart (pending : PendingMap) : Prop := Spaced pace fun p : Path => pending[p]?

section Ladder

variable {missing : List Path} {pending : PendingMap} {now : ℤ} {p : Path}
variable {a : ℤ}

/-- The cursor of `arm` stands a pace behind every repair waited for. -/
private def Behind (s : PendingMap × ℤ) : Prop :=
  ∀ (p : Path) (a : ℤ), s.1[p]? = some a → a + pace ≤ s.2

private theorem behind_foldl_max (es : List (Path × ℤ)) (next : ℤ) :
    next ≤ es.foldl (fun next e => max next (e.2 + pace)) next ∧
      ∀ e ∈ es, e.2 + pace ≤ es.foldl (fun next e => max next (e.2 + pace)) next := by
  induction es generalizing next with
  | nil => exact ⟨le_refl next, by simp⟩
  | cons e es ih =>
    obtain ⟨hnext, hall⟩ := ih (max next (e.2 + pace))
    rw [List.foldl_cons]
    refine ⟨le_trans (le_max_left _ _) hnext, ?_⟩
    intro f hf
    rcases List.mem_cons.mp hf with rfl | hf
    · exact le_trans (le_max_right _ _) hnext
    · exact hall f hf

private theorem armOne_cases (s : PendingMap × ℤ) (q : Path) :
    (q ∈ s.1 ∧ armOne s q = s) ∨
      (s.1[q]? = none ∧ armOne s q = (s.1.insert q s.2, s.2 + pace)) := by
  obtain ⟨pending, next⟩ := s
  rw [armOne]
  split
  · next hc => exact Or.inl ⟨Std.ExtTreeMap.contains_iff_mem.mp hc, rfl⟩
  · next hc =>
    exact Or.inr ⟨PathMap.notMem_iff.mp fun hm => hc (Std.ExtTreeMap.contains_iff_mem.mpr hm), rfl⟩

private theorem behind_armOne {s : PendingMap × ℤ} (hb : Behind s) (q : Path) :
    Behind (armOne s q) := by
  have hpace : 0 < pace := by decide
  rcases armOne_cases s q with ⟨-, he⟩ | ⟨-, he⟩
  · rw [he]
    exact hb
  · rw [he]
    intro p a ha
    simp only [PathMap.getElem?_insert] at ha ⊢
    split at ha
    · obtain rfl := Option.some.inj ha
      omega
    · have := hb p a ha
      omega

private theorem getElem?_armOne_of_some {s : PendingMap × ℤ} {q : Path} (ha : s.1[p]? = some a) :
    (armOne s q).1[p]? = some a := by
  rcases armOne_cases s q with ⟨-, he⟩ | ⟨hq, he⟩
  · rwa [he]
  · have hqp : q ≠ p := by
      rintro rfl
      rw [hq] at ha
      cases ha
    rwa [he, PathMap.getElem?_insert, if_neg hqp]

private theorem armOne_new {s : PendingMap × ℤ} {q : Path} (ha : (armOne s q).1[p]? = some a) :
    (s.1[p]? = none ∧ p = q ∧ a = s.2) ∨ s.1[p]? = some a := by
  rcases armOne_cases s q with ⟨-, he⟩ | ⟨hq, he⟩
  · rw [he] at ha
    exact Or.inr ha
  · rw [he, PathMap.getElem?_insert] at ha
    split at ha
    · next hqp =>
      subst hqp
      exact Or.inl ⟨hq, rfl, (Option.some.inj ha).symm⟩
    · exact Or.inr ha

private theorem le_armOne (s : PendingMap × ℤ) (q : Path) : s.2 ≤ (armOne s q).2 := by
  have hpace : 0 < pace := by decide
  rcases armOne_cases s q with ⟨-, he⟩ | ⟨-, he⟩
  · rw [he]
  · rw [he]
    simp only
    omega

private theorem getElem?_foldl_armOne_of_some {s : PendingMap × ℤ} (ha : s.1[p]? = some a) :
    (missing.foldl armOne s).1[p]? = some a := by
  induction missing generalizing s with
  | nil => exact ha
  | cons q missing ih => exact ih (getElem?_armOne_of_some ha)

private theorem foldl_armOne_cases {s : PendingMap × ℤ}
    (ha : (missing.foldl armOne s).1[p]? = some a) :
    s.1[p]? = some a ∨ (s.1[p]? = none ∧ p ∈ missing ∧ s.2 ≤ a) := by
  induction missing generalizing s with
  | nil => exact Or.inl ha
  | cons q missing ih =>
    rcases ih ha with h | ⟨hn, hm, hl⟩
    · rcases armOne_new h with ⟨hn, rfl, rfl⟩ | h
      · exact Or.inr ⟨hn, List.mem_cons_self, le_refl _⟩
      · exact Or.inl h
    · refine Or.inr ⟨?_, List.mem_cons_of_mem q hm, le_trans (le_armOne s q) hl⟩
      cases hs : s.1[p]? with
      | none => rfl
      | some b =>
        rw [getElem?_armOne_of_some hs] at hn
        cases hn

private theorem apart_foldl_armOne {s : PendingMap × ℤ} (hb : Behind s) (hs : s.1.Apart) :
    (missing.foldl armOne s).1.Apart := by
  induction missing generalizing s with
  | nil => exact hs
  | cons q missing ih =>
    refine ih (behind_armOne hb q) (Spaced.snoc (k := q) hs hb fun p a ha => ?_)
    exact (armOne_new ha).imp_left And.right

private theorem behind_arm (pending : PendingMap) (now : ℤ) :
    Behind (pending, pending.foldl (fun next _ moment => max next (moment + pace)) now) ∧
      now ≤ pending.foldl (fun next _ moment => max next (moment + pace)) now := by
  rw [Std.ExtTreeMap.foldl_eq_foldl_toList]
  obtain ⟨hnow, hall⟩ := behind_foldl_max pending.toList now
  exact ⟨fun p a ha => hall (p, a) (PathMap.mem_toList.mpr ha), hnow⟩

theorem apart_arm (hs : pending.Apart) (missing : List Path) (now : ℤ) :
    (arm pending missing now).Apart :=
  apart_foldl_armOne (behind_arm pending now).1 hs

/-- Arming again does not push a moment back. -/
theorem getElem?_arm_of_some (ha : pending[p]? = some a) :
    (arm pending missing now)[p]? = some a :=
  getElem?_foldl_armOne_of_some ha

/-- What is waited for after arming was waited for before, or is one of the gaps
taken on, no earlier than now. -/
theorem arm_cases (ha : (arm pending missing now)[p]? = some a) :
    pending[p]? = some a ∨ (pending[p]? = none ∧ p ∈ missing ∧ now ≤ a) := by
  rcases foldl_armOne_cases ha with h | ⟨hn, hm, hl⟩
  · exact Or.inl h
  · exact Or.inr ⟨hn, hm, le_trans (behind_arm pending now).2 hl⟩

/-- Taken on when nothing is waited for, so many are due within so many paces. -/
theorem le_of_arm_empty (ha : (arm ∅ missing now)[p]? = some a) :
    a + pace ≤ now + pace * missing.length := by
  have hpace : 0 < pace := by decide
  have hfold : ∀ (missing : List Path) (s : PendingMap × ℤ), Behind s →
      Behind (missing.foldl armOne s) ∧
        (missing.foldl armOne s).2 ≤ s.2 + pace * missing.length := by
    intro missing
    induction missing with
    | nil => exact fun s hb => ⟨hb, by simp⟩
    | cons q missing ih =>
      intro s hb
      obtain ⟨hbehind, hle⟩ := ih (armOne s q) (behind_armOne hb q)
      refine ⟨hbehind, le_trans hle ?_⟩
      have hstep : (armOne s q).2 ≤ s.2 + pace := by
        rcases armOne_cases s q with ⟨-, he⟩ | ⟨-, he⟩
        · rw [he]
          exact le_add_of_nonneg_right hpace.le
        · rw [he]
      calc (armOne s q).2 + pace * missing.length
          ≤ s.2 + pace + pace * missing.length := by gcongr
        _ = s.2 + pace * (q :: missing).length := by
          rw [List.length_cons, Nat.cast_succ]
          ring
  obtain ⟨hbehind, hle⟩ := hfold missing (∅, now) fun p a h => by
    rw [Std.ExtTreeMap.getElem?_empty] at h
    cases h
  exact le_trans (hbehind p a ha) hle

theorem mem_due : p ∈ (due pending now).1 ↔ ∃ a, pending[p]? = some a ∧ a ≤ now := by
  simp only [due, List.mem_map, List.mem_filter, Prod.exists, decide_eq_true_eq, exists_and_right,
    exists_eq_right, PathMap.mem_toList]

theorem sorted_due : (due pending now).1.Pairwise fun p q => compare p q = .lt := by
  have hentries : (pending.toList.filter fun e => e.2 ≤ now).Pairwise
      fun a b => compare a.1 b.1 = .lt := Std.ExtTreeMap.ordered_keys_toList.filter _
  exact List.pairwise_map.mpr hentries

theorem nodup_due : (due pending now).1.Nodup := by
  have hkeys : ((pending.toList.filter fun e => e.2 ≤ now).map Prod.fst).Sublist
      (pending.toList.map Prod.fst) := (List.filter_sublist).map Prod.fst
  rw [Std.ExtTreeMap.map_fst_toList_eq_keys] at hkeys
  exact hkeys.nodup Std.ExtTreeMap.nodup_keys

theorem getElem?_due : (due pending now).2[p]? = pending[p]?.filter fun a => !decide (a ≤ now) := by
  have herase : (due pending now).2[p]? = if p ∈ (due pending now).1 then none else pending[p]? :=
    PathMap.getElem?_foldl_erase
  rw [herase]
  simp only [mem_due]
  cases h : pending[p]? with
  | none => simp
  | some a => by_cases ha : a ≤ now <;> simp [ha, Option.filter]

end Ladder

namespace RepairPacing

/-- The repairs waited for, and what the clock showed at the last call. -/
structure Queue where
  pending : PendingMap
  clock : ℤ

/-- The calls that touch what is waited for. `cancel` and `forget` erase. -/
inductive Call
  | arm (missing : List Path) (now : ℤ)
  | due (now : ℤ)
  | erase (path : Path)
  deriving DecidableEq

def start (clock : ℤ) : Queue := ⟨∅, clock⟩

/-- The clock does not go back. -/
def step (s : Queue) : Call → Option Queue
  | .arm missing now =>
    if now < s.clock then none else some ⟨SyncFs.arm s.pending missing now, now⟩
  | .due now => if now < s.clock then none else some ⟨(SyncFs.due s.pending now).2, now⟩
  | .erase path => some { s with pending := s.pending.erase path }

def handed (s : Queue) : Call → List Path
  | .due now => (SyncFs.due s.pending now).1
  | _ => []

def Hands (p : Path) (s : Queue) (e : Call) : Prop := p ∈ handed s e

def Arms (p : Path) (s : Queue) : Call → Prop
  | .arm missing _ => p ∈ missing ∧ p ∉ s.pending
  | _ => False

/-- What one call does to the moments and hands out, given the calls before it. -/
structure Paced (h : History Queue Call) (s : Queue) (e : Call) : Prop where
  keeps : ∀ t, step s e = some t → ∀ (p : Path) (a b : ℤ),
    s.pending[p]? = some a → t.pending[p]? = some b → b = a
  nodup : (handed s e).Nodup
  /-- No path is handed out twice without being armed in between. -/
  armed : ∀ p ∈ handed s e, Since (Arms p) (Hands p) h
  come : ∀ now, e = .due now → ∀ p ∈ handed s e, ∃ a, s.pending[p]? = some a ∧ a ≤ now
  few : ∀ now, e = .due now → ∀ u prev, (u, Call.due prev) ∈ h →
    ((handed s e).length : ℤ) ≤ (now - prev) / pace + 1

structure Good (h : History Queue Call) (s : Queue) : Prop where
  apart : s.pending.Apart
  behind : ∀ u prev, (u, Call.due prev) ∈ h →
    prev ≤ s.clock ∧ ∀ (p : Path) (a : ℤ), s.pending[p]? = some a → prev ≤ a
  armed : ∀ p ∈ s.pending, Since (Arms p) (Hands p) h

variable {h : History Queue Call} {s t : Queue} {e : Call}

/-- The calls that can be made and what each of them leaves. -/
theorem call_cases (he : step s e = some t) :
    (∃ missing now, e = .arm missing now ∧ s.clock ≤ now ∧
      t = ⟨SyncFs.arm s.pending missing now, now⟩) ∨
    (∃ now, e = .due now ∧ s.clock ≤ now ∧ t = ⟨(SyncFs.due s.pending now).2, now⟩) ∨
    ∃ path, e = .erase path ∧ t = { s with pending := s.pending.erase path } := by
  cases e with
  | arm missing now =>
    rw [step] at he
    split at he
    · cases he
    next hclock =>
    exact Or.inl ⟨missing, now, rfl, not_lt.mp hclock, (Option.some.inj he).symm⟩
  | due now =>
    rw [step] at he
    split at he
    · cases he
    next hclock =>
    exact Or.inr (Or.inl ⟨now, rfl, not_lt.mp hclock, (Option.some.inj he).symm⟩)
  | erase path => exact Or.inr (Or.inr ⟨path, rfl, (Option.some.inj he).symm⟩)

theorem step_cases (he : step s e = some t) {p : Path} {a : ℤ}
    (ha : t.pending[p]? = some a) :
    (s.pending[p]? = some a ∧ p ∉ handed s e ∧ ∀ now, e = .due now → now ≤ a) ∨
      (Arms p s e ∧ s.clock ≤ a) := by
  rcases call_cases he with ⟨missing, now, rfl, hclock, rfl⟩ | ⟨now, rfl, -, rfl⟩ | ⟨path, rfl, rfl⟩
  · rcases arm_cases ha with h | ⟨hn, hm, hl⟩
    · exact Or.inl ⟨h, List.not_mem_nil, by rintro now ⟨⟩⟩
    · exact Or.inr ⟨⟨hm, PathMap.notMem_iff.mpr hn⟩, le_trans hclock hl⟩
  · obtain ⟨ha, hlate⟩ := Option.filter_eq_some_iff.mp (getElem?_due.symm.trans ha)
    simp only [Bool.not_eq_true', decide_eq_false_iff_not] at hlate
    refine Or.inl ⟨ha, ?_, ?_⟩
    · intro hp
      obtain ⟨b, hb, hle⟩ := mem_due.mp hp
      rw [ha, Option.some.injEq] at hb
      exact hlate (hb ▸ hle)
    · rintro now ⟨⟩
      omega
  · rw [PathMap.getElem?_erase] at ha
    split at ha
    · cases ha
    · exact Or.inl ⟨ha, List.not_mem_nil, by rintro now ⟨⟩⟩

theorem clock_step (he : step s e = some t) :
    s.clock ≤ t.clock ∧ ∀ now, e = .due now → t.clock = now := by
  rcases call_cases he with ⟨missing, now, rfl, hclock, rfl⟩ | ⟨now, rfl, hclock, rfl⟩ |
    ⟨path, rfl, rfl⟩
  · exact ⟨hclock, by rintro now ⟨⟩⟩
  · refine ⟨hclock, ?_⟩
    rintro now ⟨⟩
    rfl
  · exact ⟨le_refl _, by rintro now ⟨⟩⟩

theorem apart_step (hs : s.pending.Apart) (he : step s e = some t) : t.pending.Apart := by
  rcases call_cases he with ⟨missing, now, rfl, -, rfl⟩ | ⟨now, rfl, -, rfl⟩ | ⟨path, rfl, rfl⟩
  · exact apart_arm hs missing now
  · apply Spaced.mono hs
    intro p a ha
    exact (Option.filter_eq_some_iff.mp (getElem?_due.symm.trans ha)).1
  · apply Spaced.mono hs
    intro p a ha
    rw [PathMap.getElem?_erase] at ha
    split at ha
    · cases ha
    · exact ha

theorem good_step (hg : Good h s) (he : step s e = some t) : Good ((s, e) :: h) t := by
  obtain ⟨hclock, hnow⟩ := clock_step he
  refine ⟨apart_step hg.apart he, ?_, ?_⟩
  · intro u prev hmem
    rcases List.mem_cons.mp hmem with heq | hmem
    · obtain ⟨rfl, rfl⟩ := Prod.mk.inj heq
      refine ⟨(hnow prev rfl).ge, fun p a ha => ?_⟩
      rcases step_cases he ha with ⟨-, -, hlate⟩ | ⟨harms, -⟩
      · exact hlate prev rfl
      · exact harms.elim
    · obtain ⟨hprev, hall⟩ := hg.behind u prev hmem
      refine ⟨le_trans hprev hclock, fun p a ha => ?_⟩
      rcases step_cases he ha with ⟨ha, -, -⟩ | ⟨-, hlate⟩
      · exact hall p a ha
      · exact le_trans hprev hlate
  · intro p hp
    obtain ⟨a, ha⟩ := PathMap.mem_iff.mp hp
    rcases step_cases he ha with ⟨hold, hnot, -⟩ | ⟨harms, -⟩
    · exact Or.inr ⟨hg.armed p (PathMap.mem_iff.mpr ⟨a, hold⟩), hnot⟩
    · exact Or.inl harms

theorem paced_of_good (hg : Good h s) (he : step s e = some t) : Paced h s e := by
  have hmem : ∀ p ∈ handed s e, ∃ a, s.pending[p]? = some a ∧ ∀ now, e = .due now → a ≤ now := by
    intro p hp
    cases e with
    | arm missing now => exact absurd hp List.not_mem_nil
    | erase path => exact absurd hp List.not_mem_nil
    | due now =>
      obtain ⟨a, ha, hle⟩ := mem_due.mp hp
      refine ⟨a, ha, ?_⟩
      rintro now ⟨⟩
      exact hle
  have hnodup : (handed s e).Nodup := by
    cases e with
    | arm missing now => exact List.nodup_nil
    | erase path => exact List.nodup_nil
    | due now => exact nodup_due
  refine ⟨?_, hnodup, ?_, ?_, ?_⟩
  · intro u hu p a b ha hb
    rcases step_cases hu hb with ⟨hold, -, -⟩ | ⟨harms, -⟩
    · rw [ha, Option.some.injEq] at hold
      exact hold.symm
    · cases e with
      | arm missing now => exact absurd (PathMap.mem_iff.mpr ⟨a, ha⟩) harms.2
      | due now => exact harms.elim
      | erase path => exact harms.elim
  · intro p hp
    obtain ⟨a, ha, -⟩ := hmem p hp
    exact hg.armed p (PathMap.mem_iff.mpr ⟨a, ha⟩)
  · intro now hdue p hp
    obtain ⟨a, ha, hle⟩ := hmem p hp
    exact ⟨a, ha, hle now hdue⟩
  · intro now hdue u prev hprev
    obtain ⟨hclock, hbehind⟩ := hg.behind u prev hprev
    obtain ⟨hmono, hnow⟩ := clock_step he
    have hpn : prev ≤ now := hnow now hdue ▸ le_trans hclock hmono
    refine Spaced.length_le hg.apart (by decide) hpn hnodup fun p hp => ?_
    obtain ⟨a, ha, hle⟩ := hmem p hp
    exact ⟨a, ha, hbehind p a ha, hle now hdue⟩

/-- In every run of calls the repairs waited for stay a pace apart, none is
pushed back or handed out early or twice, and two looks at the clock hand out no
more than the time between them allows. -/
theorem repairs_paced {clock : ℤ} (hr : Run step (start clock) h s) :
    s.pending.Apart ∧ Always Paced h := by
  have hstart : Good [] (start clock) :=
    ⟨fun p q a b _ ha _ => by simp [start] at ha, by simp, by simp [start]⟩
  have hgood : Good h s :=
    hr.invariant hstart (fun _ _ _ _ _ hg _ he => good_step hg he) (always_true h)
  have hpaced : Always Paced h :=
    hr.always_of_invariant hstart (fun _ _ _ _ _ hg _ he => good_step hg he)
      (fun _ _ _ _ _ hg _ he => paced_of_good hg he) (always_true h)
  exact ⟨hgood.apart, hpaced⟩

/-- Two gaps are armed, one of them twice; the first comes due at once, the
other is armed again in vain and handed out by the next look. -/
theorem repairs_paced_two :
    let a := Path.ofNative (CharConversions.ascii "./a")
    let b := Path.ofNative (CharConversions.ascii "./b")
    ∃ h s, Run step (start 0) h s ∧
      h.reverse.map (fun call => handed call.1 call.2) = [[], [a], [], [b]] ∧
      s.pending.Apart ∧ Always Paced h := by
  intro a b
  obtain ⟨h, s, hr, hhanded⟩ := exists_run step (start 0)
    [.arm [a, b, a] 0, .due 0, .arm [b] 5, .due pace]
    (fun h _ => h.reverse.map (fun call => handed call.1 call.2) = [[], [a], [], [b]])
    (by decide +kernel)
  exact ⟨h, s, hr, hhanded, repairs_paced hr⟩

end RepairPacing

end SyncFs
