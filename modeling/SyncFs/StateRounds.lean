import SyncFs.Budgets
import SyncFs.DigestExchange

/-!
# How often a node says where it stands

A round says where the node stands and asks one peer at most. It waits for the
tree to be quiet, or else for the ceiling, and no pass goes by the ceiling
without one.
-/

namespace SyncFs

open CharConversions LabelledRuns

/-- Every torrent has stopped moving bytes and nothing was listed for a while. -/
def quiescent (n : Node) : Bool := n.settled && n.now - n.lastChange ≥ quiescenceWindow

def Rounds (n : Node) : Event → Bool
  | .round _ => stateDue n
  | _ => false

/-- What a round has to wait for after the one before it. -/
def roundWait (n : Node) : ℤ := if quiescent n then period else stateCeiling

def saidWith (verb : Bytes) (vs : List (List Bytes)) : ℕ :=
  vs.countP fun v => verbOf (part v 0) = verb

theorem stateDue_iff {n : Node} : stateDue n = true ↔
    stateCeiling ≤ n.now - n.lastState ∨ quiescent n = true ∧ period ≤ n.now - n.lastState := by
  simp [stateDue, quiescent]

theorem roundWait_le {n : Node} (h : stateDue n = true) : roundWait n ≤ n.now - n.lastState := by
  have hceiling : period ≤ stateCeiling := by decide
  rw [roundWait]
  rcases stateDue_iff.mp h with hc | ⟨hq, hp⟩
  · split
    · exact hceiling.trans hc
    · exact hc
  · rw [if_pos hq]
    exact hp

@[simp] theorem saidWith_append (verb : Bytes) (vs us : List (List Bytes)) :
    saidWith verb (vs ++ us) = saidWith verb vs + saidWith verb us := List.countP_append

@[simp] theorem saidWith_cons (verb : Bytes) (v : List Bytes) (vs : List (List Bytes)) :
    saidWith verb (v :: vs) = saidWith verb vs + if verbOf (part v 0) = verb then 1 else 0 := by
  rw [saidWith, List.countP_cons]
  simp [saidWith]

theorem saidWith_eq_zero {verb : Bytes} {vs : List (List Bytes)}
    (h : ∀ v ∈ vs, verbOf (part v 0) ≠ verb) : saidWith verb vs = 0 := by
  rw [saidWith, List.countP_eq_zero]
  exact fun v hv => by simpa using h v hv

variable {w : World} {n m : Node} {e : Event}

/-- Local changes are said in creates and removes. -/
theorem part_send {tree : Tree} {diff : Diff} {current : FileMap} {now : TimePoint}
    {v : List Bytes} (hv : v ∈ send w tree diff current now) :
    part v 0 = ascii "create" ∨ part v 0 = ascii "remove" := by
  rcases List.mem_append.mp hv with hv | hv
  · rcases List.mem_append.mp hv with hv | hv
    · obtain ⟨e, -, rfl⟩ := List.mem_map.mp hv
      exact .inr rfl
    · obtain ⟨e, -, file, -, rfl⟩ := mem_announceAll.mp hv
      exact .inl rfl
  · obtain ⟨e, -, file, -, rfl⟩ := mem_announceAll.mp hv
    exact .inl rfl

theorem verbOf_send {tree : Tree} {diff : Diff} {current : FileMap} {now : TimePoint}
    {v : List Bytes} (hv : v ∈ send w tree diff current now) :
    verbOf (part v 0) = ascii "create" ∨ verbOf (part v 0) = ascii "remove" := by
  rcases part_send hv with h | h
  · rw [h]
    exact .inl rfl
  · rw [h]
    exact .inr rfl

theorem verbOf_state {hashes : Bytes} :
    verbOf (part (Source.state w hashes) 0) = ascii "state" := rfl

inductive RoundStep (w : World) (n : Node) (e : Event) (m : Node) : Prop
  | round {hashes : Bytes} {asked : List (List Bytes)} (rounds : Rounds n e = true)
    (due : stateDue n = true) (sent : m.sent = n.sent ++ Source.state w hashes :: asked)
    (one : asked.length ≤ 1) (digests : ∀ v ∈ asked, verbOf (part v 0) = ascii "digest")
    (last : m.lastState = n.now) (now : m.now = n.now) (steady : m.steady = n.steady)
  | other {more : List (List Bytes)} (rounds : Rounds n e = false) (sent : m.sent = n.sent ++ more)
    (verbs : ∀ v ∈ more, verbOf (part v 0) = ascii "create" ∨ verbOf (part v 0) = ascii "remove")
    (last : m.lastState = n.lastState) (now : m.now = n.now ∨ m.now = m.steady)
    (steady : n.steady ≤ m.steady)
    (repairs : m.pc = .repair → m.now = n.now ∧ (n.pc = .repair ∨ stateDue n = false))

theorem RoundStep.unsaid (hr : Rounds n e = false) (hs : m.sent = n.sent)
    (hl : m.lastState = n.lastState) (hn : m.now = n.now ∨ m.now = m.steady)
    (ht : n.steady ≤ m.steady)
    (hp : m.pc = .repair → m.now = n.now ∧ (n.pc = .repair ∨ stateDue n = false)) :
    RoundStep w n e m := by
  have hsent : m.sent = n.sent ++ [] := by rw [hs, List.append_nil]
  exact .other hr hsent (fun v hv => absurd hv List.not_mem_nil) hl hn ht hp

theorem RoundStep.silent (hr : Rounds n e = false) (hs : m.sent = n.sent)
    (hl : m.lastState = n.lastState) (hn : m.now = n.now) (ht : n.steady ≤ m.steady)
    (hp : m.pc = .repair → n.pc = .repair) : RoundStep w n e m :=
  .unsaid hr hs hl (.inl hn) ht fun h => ⟨hn, .inl (hp h)⟩

theorem roundStep (h : Stepped w n e m) : RoundStep w n e m := by
  cases h with
  | tick =>
    have hle : ∀ elapsed : ℕ, n.steady ≤ n.steady + elapsed := fun elapsed =>
      le_add_of_nonneg_right (Int.natCast_nonneg elapsed)
    exact .silent rfl rfl rfl rfl (hle _) id
  | localWrite | localDelete | directory | ltOpen | ltVerify | ltWrite | ltState | post =>
    exact .silent rfl rfl rfl rfl le_rfl id
  | top hp =>
    rw [beginPass]
    split
    all_goals exact .unsaid rfl rfl rfl (.inr rfl) le_rfl (by rintro ⟨⟩)
  | test hp =>
    refine .silent rfl rfl rfl rfl le_rfl fun h => ?_
    dsimp only at h
    split at h <;> cases h
  | pop hp | processed hp | process hp | clear hp | idle hp | nothing hp | list hp =>
    exact .silent rfl rfl rfl rfl le_rfl (by rintro ⟨⟩)
  | send hp =>
    exact .other rfl rfl (fun v hv => verbOf_send hv) rfl (.inl rfl) le_rfl
      (by rintro ⟨⟩)
  | repair hp =>
    refine .other rfl rfl (fun v hv => ?_) rfl (.inl rfl) le_rfl (by rintro ⟨⟩)
    obtain ⟨p, t, b, -, rfl, -⟩ := mem_publishRepairs hv
    exact .inl rfl
  | @round draw hp =>
    cases hd : stateDue n with
    | false => exact .unsaid hd rfl rfl (.inl rfl) le_rfl fun _ => ⟨rfl, .inr hd⟩
    | true =>
      refine .round hd hd rfl ?_ (fun v hv => ?_) rfl rfl rfl
      · rw [List.length_map]
        exact Option.length_toList_le
      · obtain ⟨target, -, rfl⟩ := List.mem_map.mp hv
        exact verbOf_address (by decide)
  | @receive v hp =>
    rw [takeIn]
    split
    all_goals exact .silent rfl rfl rfl rfl le_rfl (by rintro ⟨⟩)

/-- The loop's times are in order, and a pass that has gone by a round has none due. -/
structure Timed (n : Node) : Prop where
  last : n.lastState ≤ n.now
  now : n.now ≤ n.steady
  recent : n.pc = .repair → n.now - n.lastState < stateCeiling

theorem timed_start (disk : Disk) (clock : TimePoint) (steady : SteadyTime) :
    Timed (.start disk clock steady) := ⟨le_rfl, le_rfl, by rintro ⟨⟩⟩

theorem Timed.step (h : Timed n) (hs : RoundStep w n e m) :
    Timed m ∧ (if Rounds n e then roundWait n else 0) + -m.lastState ≤ -n.lastState := by
  cases hs with
  | round rounds due _ _ _ last now steady =>
    have hwait := roundWait_le due
    refine ⟨⟨(last.trans now.symm).le, ?_, fun _ => ?_⟩, ?_⟩
    · rw [now, steady]
      exact h.now
    · rw [last, now, sub_self]
      decide
    · rw [if_pos rounds, last]
      linarith
  | other rounds _ _ last now steady repairs =>
    refine ⟨⟨?_, ?_, fun hp => ?_⟩, ?_⟩
    · rw [last]
      rcases now with hn | hn
      · rw [hn]
        exact h.last
      · rw [hn]
        exact (h.last.trans h.now).trans steady
    · rcases now with hn | hn
      · rw [hn]
        exact h.now.trans steady
      · exact hn.le
    · obtain ⟨hn, hrecent⟩ := repairs hp
      rw [hn, last]
      rcases hrecent with hpc | hdue
      · exact h.recent hpc
      · by_contra hlate
        rw [stateDue_iff.mpr (.inl (not_lt.mp hlate))] at hdue
        cases hdue
    · rw [rounds, last]
      simp

section Runs

variable {disk : Disk} {clock : TimePoint} {steady : SteadyTime} {h : History Node Event}

def rounds (h : History Node Event) : ℕ := total (fun n e => if Rounds n e then 1 else 0) h

/-- A step says where the node stands and asks a peer only in a round: the one
exactly once, the other at most. -/
theorem RoundStep.said (hs : RoundStep w n e m) :
    ∃ more, m.sent = n.sent ++ more ∧
      saidWith (ascii "state") more = (if Rounds n e then 1 else 0) ∧
      saidWith (ascii "digest") more ≤ if Rounds n e then 1 else 0 := by
  cases hs with
  | @round hashes asked rounds _ sent one digests =>
    have hsilent : saidWith (ascii "state") asked = 0 :=
      saidWith_eq_zero fun v hv => by
        rw [digests v hv]
        decide
    have hasked : saidWith (ascii "digest") asked ≤ 1 := List.countP_le_length.trans one
    refine ⟨_, sent, ?_, ?_⟩
    · rw [saidWith_cons, verbOf_state, hsilent, rounds]
      rfl
    · rw [saidWith_cons, verbOf_state, if_neg (by decide), rounds]
      exact hasked
  | @other more rounds sent verbs =>
    have hsilent : ∀ verb, verb ≠ ascii "create" → verb ≠ ascii "remove" →
        saidWith verb more = 0 := fun verb hc hr => saidWith_eq_zero fun v hv => by
      rcases verbs v hv with h | h
      · rw [h]
        exact hc.symm
      · rw [h]
        exact hr.symm
    refine ⟨more, sent, ?_, ?_⟩
    · rw [hsilent _ (by decide) (by decide), rounds]
      rfl
    · rw [hsilent _ (by decide) (by decide)]
      exact Nat.zero_le _

theorem said_of_run (hr : Run (step w) (.start disk clock steady) h n) :
    saidWith (ascii "state") n.sent = rounds h ∧ saidWith (ascii "digest") n.sent ≤ rounds h := by
  induction hr with
  | refl => exact ⟨rfl, le_rfl⟩
  | @snoc h n e m _ he ih =>
    obtain ⟨hstates, hdigests⟩ := ih
    have hcons : rounds ((n, e) :: h) = rounds h + if Rounds n e then 1 else 0 := rfl
    obtain ⟨more, sent, hstate, hdigest⟩ := (roundStep (stepped w he)).said
    rw [hcons, sent, saidWith_append, saidWith_append, hstates, hstate]
    exact ⟨rfl, Nat.add_le_add hdigests hdigest⟩

theorem waited_of_run (hr : Run (step w) (.start disk clock steady) h n) :
    Timed n ∧ total (fun n e => if Rounds n e then roundWait n else 0) h ≤ n.steady - steady := by
  have hpays : ∀ n e m, Timed n → step w n e = some m → Timed m ∧
      (if Rounds n e then roundWait n else 0) + -m.lastState ≤ -n.lastState + 0 := by
    intro n e m ht he
    rw [add_zero]
    exact ht.step (roundStep (stepped w he))
  obtain ⟨ht, hle⟩ := hr.total_le (timed_start disk clock steady) hpays
  have hstart : (Node.start disk clock steady).lastState = steady := rfl
  have hspent := ht.last.trans ht.now
  rw [total_zero, hstart] at hle
  refine ⟨ht, ?_⟩
  linarith

theorem period_mul_rounds_le (h : History Node Event) :
    period * rounds h ≤ total (fun n e => if Rounds n e then roundWait n else 0) h := by
  induction h with
  | nil => exact (mul_zero period).le
  | cons x h ih =>
    obtain ⟨n, e⟩ := x
    have hcons : rounds ((n, e) :: h) = rounds h + if Rounds n e then 1 else 0 := rfl
    rw [hcons, total_cons]
    split
    · have hwait : period ≤ roundWait n := by
        rw [roundWait]
        split
        · exact le_rfl
        · decide
      push_cast
      linarith
    · simpa using ih

/-- A node says where it stands once in every round, asks one peer at most there,
and does neither in any other step. The rounds of a run have each waited for the
tree to be quiet and a period, or for the ceiling, all within the time the run
has taken; and whenever a pass comes to its repairs, the last round is less than
the ceiling ago. -/
theorem rounds_paced (hr : Run (step w) (.start disk clock steady) h n) :
    total (fun n e => if Rounds n e then roundWait n else 0) h ≤ n.steady - steady ∧
      Always (fun _ n e => ∀ m, step w n e = some m → ∃ more, m.sent = n.sent ++ more ∧
        saidWith (ascii "state") more = (if Rounds n e then 1 else 0) ∧
        saidWith (ascii "digest") more ≤ if Rounds n e then 1 else 0) h ∧
      (saidWith (ascii "state") n.sent = rounds h ∧
        saidWith (ascii "digest") n.sent ≤ rounds h) ∧
      (n.pc = .repair → n.now - n.lastState < stateCeiling) := by
  obtain ⟨ht, hwaited⟩ := waited_of_run hr
  exact ⟨hwaited, (always_true h).mono fun _ _ _ _ _ hs => (roundStep (stepped w hs)).said,
    said_of_run hr, ht.recent⟩

theorem sampleRounds_paced :
    ∃ h n, Run (step sampleWorld) (.start ∅ 1000 0) h n ∧ rounds h = 2 ∧
      saidWith (ascii "state") n.sent = 2 ∧
      total (fun n e => if Rounds n e then roundWait n else 0) h ≤ 2 * seconds 60 := by
  obtain ⟨h, n, hr, hrounds, hsteady⟩ := exists_run (step sampleWorld) (.start ∅ 1000 0)
    (.tick (seconds 60).toNat :: pass true none ++ .tick (seconds 60).toNat :: pass true none)
    (fun h n => rounds h = 2 ∧ n.steady = 2 * seconds 60) (by decide +kernel)
  obtain ⟨htotal, -, ⟨hstates, -⟩, -⟩ := rounds_paced hr
  rw [hsteady, sub_zero] at htotal
  exact ⟨h, n, hr, hrounds, hstates.trans hrounds, htotal⟩

end Runs

end SyncFs
