import SyncFs.RepairBatches
import SyncFs.SyncLoop

/-!
# Repairs that come to an end

Calls of `publish_repairs` one after the other, each with what the one before has
left waiting. Whatever their moments, every path that stops waiting has had its
one turn, and no more calls find anything to do than there were repairs.
-/

namespace SyncFs

open CharConversions

section

variable (w : World)

/-- What is said for a path when its turn comes: a create at the time it is listed
with, out of the cache or off the disk, and nothing for a path that is in neither
or no longer listed. -/
def repairFor (r : Replica) (p : Path) : Option (List Bytes) :=
  match r.former[p]? with
  | none => none
  | some mtime =>
    match r.repairs.announcements[p]? with
    | some announcement =>
      some [ascii "create", announcement, printInt mtime.toTicks, p.native]
    | none => (r.find w p).map fun file =>
      [ascii "create", w.generateBuf p file.content, printInt mtime.toTicks, p.native]

def repairCalls (r : Replica) : List SteadyTime → Replica × List (List Bytes)
  | [] => (r, [])
  | now :: later =>
    let (left, said) := publishRepairs w r now
    let (last, more) := repairCalls left later
    (last, said ++ more)

def busyCalls (r : Replica) : List SteadyTime → ℕ
  | [] => 0
  | now :: later =>
    (if (due r.repairs.pending now).1.isEmpty then 0 else 1) +
      busyCalls (publishRepairs w r now).1 later

end

variable {w : World} {r : Replica} {now : SteadyTime} {p : Path}

theorem repairFor_eq (r : Replica) (p : Path) :
    repairFor w r p = answerTo (Source.create w r.toTree) r (some p) p := by
  simp only [answerTo, if_true]
  rfl

theorem publishRepairs_fst (r : Replica) (now : SteadyTime) :
    ∃ pending, (publishRepairs w r now).1 =
      { r with repairs := { r.repairs with pending := pending } } := ⟨_, rfl⟩

theorem publishRepairs_said (r : Replica) (now : SteadyTime) :
    ∃ ps : List Path, ps.Nodup ∧
      (∀ p, p ∈ ps ↔ p ∈ r.repairs.pending ∧ p ∉ (publishRepairs w r now).1.repairs.pending) ∧
      (publishRepairs w r now).2 = ps.filterMap (repairFor w r) := by
  -- The cold ones but the first wait on, and nothing is said for them.
  let waits : Path → Prop := fun p =>
    Cold r p ∧ (due r.repairs.pending now).1.find? (Cold r ·) ≠ some p
  have hpending : ∀ p, DueAt r now p → p ∈ r.repairs.pending := by
    rintro p ⟨moment, hm, -⟩
    exact PathMap.mem_iff.mpr ⟨moment, hm⟩
  have hwaiting : ∀ p, waits p →
      answerTo (Source.create w r.toTree) r ((due r.repairs.pending now).1.find? (Cold r ·)) p =
        none := by
    rintro p ⟨hc, hne⟩
    rw [answerTo_of_ne hne, answerTo_none hc]
  have hanswered : ∀ p, ¬ waits p →
      answerTo (Source.create w r.toTree) r ((due r.repairs.pending now).1.find? (Cold r ·)) p =
        repairFor w r p := by
    intro p hn
    rw [repairFor_eq]
    by_cases hc : Cold r p
    · rw [not_not.mp fun hne => hn ⟨hc, hne⟩]
    · exact (answerTo_of_not_cold hc).trans (answerTo_of_not_cold hc).symm
  have hsaid : ∀ ps : List Path,
      ps.filterMap (answerTo (Source.create w r.toTree) r
          ((due r.repairs.pending now).1.find? (Cold r ·))) =
        (ps.filter (¬ waits ·)).filterMap (repairFor w r) := by
    intro ps
    induction ps with
    | nil => rfl
    | cons p ps ih =>
      by_cases hw : waits p
      · rw [List.filterMap_cons_none (hwaiting p hw), ih,
          List.filter_cons_of_neg (by simpa using hw)]
      · rw [List.filter_cons_of_pos (by simpa using hw), List.filterMap_cons, List.filterMap_cons,
          hanswered p hw, ih]
  refine ⟨(due r.repairs.pending now).1.filter (¬ waits ·), nodup_due.filter _, fun p => ?_,
    (publishRepairs_eq r now).1.trans (hsaid _)⟩
  have hdue : p ∈ (due r.repairs.pending now).1 ↔ DueAt r now p := mem_due
  rw [List.mem_filter, hdue, (publishRepairs_eq r now).2, mem_pendingAfter, decide_eq_true_eq]
  constructor
  · rintro ⟨hd, hn⟩
    refine ⟨hpending p hd, ?_⟩
    rintro (⟨-, hnot⟩ | ⟨-, hw⟩)
    · exact hnot hd
    · exact hn hw
  · rintro ⟨hin, hleft⟩
    have hd : DueAt r now p := not_not.mp fun hd => hleft (.inl ⟨hin, hd⟩)
    exact ⟨hd, fun hw => hleft (.inr ⟨hd, hw⟩)⟩

theorem mem_of_mem_publishRepairs (h : p ∈ (publishRepairs w r now).1.repairs.pending) :
    p ∈ r.repairs.pending := by
  rw [(publishRepairs_eq r now).2] at h
  rcases mem_pendingAfter.mp h with ⟨hin, -⟩ | ⟨⟨moment, hm, -⟩, -⟩
  · exact hin
  · exact PathMap.mem_iff.mpr ⟨moment, hm⟩

theorem repairCalls_said (r : Replica) (nows : List SteadyTime) :
    (∃ pending, (repairCalls w r nows).1 =
      { r with repairs := { r.repairs with pending := pending } }) ∧
    (∀ p ∈ (repairCalls w r nows).1.repairs.pending, p ∈ r.repairs.pending) ∧
    ∃ ps : List Path, ps.Nodup ∧
      (∀ p, p ∈ ps ↔ p ∈ r.repairs.pending ∧ p ∉ (repairCalls w r nows).1.repairs.pending) ∧
      (repairCalls w r nows).2 = ps.filterMap (repairFor w r) := by
  induction nows generalizing r with
  | nil => exact ⟨⟨_, rfl⟩, fun _ hp => hp, [], List.nodup_nil, by simp [repairCalls], rfl⟩
  | cons now later ih =>
    obtain ⟨left, hleft⟩ := publishRepairs_fst (w := w) r now
    obtain ⟨ps, hnd, hps, hsaid⟩ := publishRepairs_said (w := w) r now
    obtain ⟨⟨last, hlast⟩, hsub, qs, hnd', hqs, hmore⟩ := ih (publishRepairs w r now).1
    have hsame : repairFor w (publishRepairs w r now).1 = repairFor w r := by
      rw [hleft]
      rfl
    refine ⟨⟨last, ?_⟩, fun p hp => mem_of_mem_publishRepairs (hsub p hp), ps ++ qs, ?_,
      fun p => ?_, ?_⟩
    · rw [repairCalls, hlast, hleft]
    · refine List.nodup_append.mpr ⟨hnd, hnd', ?_⟩
      rintro p hp q hq rfl
      exact ((hps p).mp hp).2 ((hqs p).mp hq).1
    · have hin : p ∈ (publishRepairs w r now).1.repairs.pending → p ∈ r.repairs.pending :=
        mem_of_mem_publishRepairs
      have hin' := hsub p
      rw [List.mem_append, hps, hqs]
      simp only [repairCalls]
      tauto
    · simp only [repairCalls]
      rw [hsaid, hmore, hsame, List.filterMap_append]

theorem busyCalls_le (r : Replica) (nows : List SteadyTime) :
    busyCalls w r nows + (repairCalls w r nows).1.repairs.pending.size ≤ r.repairs.pending.size := by
  induction nows generalizing r with
  | nil => simp [busyCalls, repairCalls]
  | cons now later ih =>
    have hrest := ih (publishRepairs w r now).1
    simp only [busyCalls, repairCalls]
    split
    · next hempty =>
      have hsame : (publishRepairs w r now).1.repairs.pending = r.repairs.pending := by
        have hready : (due r.repairs.pending now).2 =
            (due r.repairs.pending now).1.foldl (fun pending path => pending.erase path)
              r.repairs.pending := rfl
        rw [(publishRepairs_eq r now).2, pendingAfter, hready, List.isEmpty_iff.mp hempty]
        rfl
      rw [hsame] at hrest
      omega
    · next hdue =>
      obtain ⟨p, hp⟩ := List.exists_mem_of_ne_nil _ fun h => hdue (List.isEmpty_iff.mpr h)
      have hlt := size_pendingAfter (mem_due.mp hp)
      rw [(publishRepairs_eq r now).2] at hrest
      omega

theorem le_of_publishRepairs {k : ℕ} (hk : r.repairs.pending.size ≤ k)
    (hall : ∀ (p : Path) m, r.repairs.pending[p]? = some m → m ≤ now) {m : SteadyTime}
    (hm : (publishRepairs w r now).1.repairs.pending[p]? = some m) : m ≤ now + pace * k := by
  have hpace : 0 < pace := by decide
  have hleft : (due r.repairs.pending now).2 = ∅ := by
    refine Std.ExtTreeMap.ext_getElem? fun q => ?_
    rw [getElem?_due, Std.ExtTreeMap.getElem?_empty, Option.filter_eq_none_iff]
    intro a ha
    simp [hall q a ha]
  have hlength : ((due r.repairs.pending now).1.filter (Cold r ·)).tail.length ≤ k := by
    refine ((List.tail_sublist _).length_le.trans (List.length_filter_le _ _)).trans ?_
    rw [due, List.length_map]
    exact ((List.length_filter_le _ _).trans Std.ExtTreeMap.length_toList.le).trans hk
  rw [(publishRepairs_eq r now).2, pendingAfter, hleft] at hm
  have hle := le_of_arm_empty hm
  have hpaces : pace * ((due r.repairs.pending now).1.filter (Cold r ·)).tail.length ≤ pace * k := by
    gcongr
  linarith

/-- Calls far enough apart all find something due, as long as anything is waited for. -/
theorem drained_of_unhurried {nows : List SteadyTime} {k : ℕ} (hk : r.repairs.pending.size ≤ k)
    (hn : r.repairs.pending.size ≤ nows.length)
    (hall : ∀ (p : Path) m, r.repairs.pending[p]? = some m → ∀ now ∈ nows, m ≤ now)
    (hfar : nows.Pairwise fun now next => now + pace * k ≤ next) :
    (repairCalls w r nows).1.repairs.pending = ∅ := by
  induction nows generalizing r with
  | nil =>
    exact Std.ExtTreeMap.eq_empty_iff_size_eq_zero.mpr (Nat.le_zero.mp hn)
  | cons now later ih =>
    obtain ⟨hnext, hfar⟩ := List.pairwise_cons.mp hfar
    have hnow : ∀ (p : Path) m, r.repairs.pending[p]? = some m → m ≤ now :=
      fun p m hm => hall p m hm now List.mem_cons_self
    have hless : (publishRepairs w r now).1.repairs.pending.size ≤ r.repairs.pending.size ∧
        (publishRepairs w r now).1.repairs.pending.size ≤ later.length := by
      have hle := (Nat.le_add_left _ _).trans (busyCalls_le (w := w) r [now])
      refine ⟨hle, ?_⟩
      rcases Nat.eq_zero_or_pos r.repairs.pending.size with hz | hpos
      · exact (hle.trans hz.le).trans (Nat.zero_le _)
      · obtain ⟨p, hp⟩ : ∃ p, p ∈ r.repairs.pending := by
          by_contra hnone
          rw [not_exists] at hnone
          rw [Std.ExtTreeMap.eq_empty_iff_forall_not_mem.mpr hnone,
            Std.ExtTreeMap.size_empty] at hpos
          exact absurd hpos (lt_irrefl 0)
        obtain ⟨m, hm⟩ := PathMap.mem_iff.mp hp
        have hlt := size_pendingAfter ⟨m, hm, hnow p m hm⟩
        rw [List.length_cons] at hn
        rw [(publishRepairs_eq r now).2]
        omega
    refine ih (hless.1.trans hk) hless.2 (fun p m hm next hin => ?_) hfar
    exact (le_of_publishRepairs hk hnow hm).trans (hnext next hin)

/-- Repairs come to an end: whatever the moments of the calls, each path that no
longer waits has had its turn once and the others not at all, no more calls
find anything due than there were repairs, and calls far enough apart leave
none waiting. -/
theorem repairs_drain (w : World) (r : Replica) (nows : List SteadyTime) :
    (∃ ps : List Path, ps.Nodup ∧
      (∀ p, p ∈ ps ↔ p ∈ r.repairs.pending ∧ p ∉ (repairCalls w r nows).1.repairs.pending) ∧
      (repairCalls w r nows).2 = ps.filterMap (repairFor w r)) ∧
    busyCalls w r nows + (repairCalls w r nows).1.repairs.pending.size ≤
      r.repairs.pending.size ∧
    (r.repairs.pending.size ≤ nows.length →
      (∀ (p : Path) m, r.repairs.pending[p]? = some m → ∀ now ∈ nows, m ≤ now) →
      (nows.Pairwise fun now next => now + pace * r.repairs.pending.size ≤ next) →
      (repairCalls w r nows).1.repairs.pending = ∅) :=
  ⟨(repairCalls_said r nows).2.2, busyCalls_le r nows, drained_of_unhurried le_rfl⟩

def sampleArmed : Replica :=
  let r := (Node.start (.ofList [(Path.ofNative (ascii "./a"), sampleFile "x" 900),
    (Path.ofNative (ascii "./b"), sampleFile "y" 900)] compare) 1000 0).replica
  { r with repairs := { r.repairs with pending := arm ∅ r.former.keys 0 } }

theorem sampleArmed_drains :
    sampleArmed.repairs.pending.size = 2 ∧
      (repairCalls sampleWorld sampleArmed [pace, 3 * pace]).1.repairs.pending = ∅ := by
  have hall : ∀ e ∈ sampleArmed.repairs.pending.toList, ∀ now ∈ [pace, 3 * pace], e.2 ≤ now := by
    decide +kernel
  refine ⟨by decide +kernel, ?_⟩
  exact (repairs_drain sampleWorld sampleArmed [pace, 3 * pace]).2.2 (by decide +kernel)
    (fun p m hm => hall (p, m) (PathMap.mem_toList.mpr hm)) (by decide +kernel)

end SyncFs
