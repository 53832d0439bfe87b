import SyncFs.AlertWakeups
import SyncFs.Budgets

/-!
# How a daemon ends

A signal only sets a flag, and the loop reads it at the top of a pass. What is
left of the pass is still done, so how long a stop takes is how far the pass has
to go and what libtorrent queues meanwhile.
-/

namespace SyncFs

open LabelledRuns

inductive ExitCode
  | success
  | failure
  deriving DecidableEq

inductive Process
  | running (node : Node) (stopRequested : Bool)
  | exited (code : ExitCode)

inductive ProcessEvent
  | requestStop
  | loop (event : Event)
  -- The loop's condition fails, and `main` returns.
  | leave
  -- What the loop raised is caught in `main`.
  | caught

def Pc.isTop : Pc → Bool
  | .top => true
  | _ => false

def Pc.isStopped : Pc → Bool
  | .stopped => true
  | _ => false

/-- The loop's own steps, as opposed to what comes in between them. -/
def Event.isOwn : Event → Bool
  | .advance | .woken _ | .round _ | .receive _ => true
  | _ => false

variable (w : World)

def processStep : Process → ProcessEvent → Option Process
  | .exited _, _ => none
  | .running n _, .requestStop => some (.running n true)
  | .running n stopRequested, .loop e =>
    if stopRequested && n.pc.isTop && e.isOwn then none
    else (step w n e).map (.running · stopRequested)
  | .running n stopRequested, .leave =>
    if stopRequested && n.pc.isTop then some (.exited .success) else none
  | .running n _, .caught => if n.pc.isStopped then some (.exited .failure) else none

def ProcessEvent.isOwn : ProcessEvent → Bool
  | .requestStop => false
  | .loop e => e.isOwn
  | .leave | .caught => true

def ProcessEvent.isPost : ProcessEvent → Bool
  | .loop e => e.isPost
  | _ => false

/-- How many places of a pass are still ahead, the end of it included. -/
def Pc.rank : Pc → ℕ
  | .stopped | .top => 1
  | .receive => 2
  | .repair => 3
  | .round => 4
  | .sending _ _ => 5
  | .wait => 6
  | .clear => 7
  | .process _ => 8
  | .pop => 9
  | .test => 10

def Pc.ahead (queued : ℕ) : Pc → ℕ
  | .process alerts => alerts.length
  | .pop | .test => queued
  | _ => 0

/-- The steps the loop has still to take to the end of its pass. -/
def Node.toGo (n : Node) : ℕ := n.pc.rank + n.pc.ahead n.alerts.length

def Process.toGo : Process → ℕ
  | .running n _ => n.toGo
  | .exited _ => 0

def Process.stopping : Process → Bool
  | .running _ stopRequested => stopRequested
  | .exited _ => true

def Process.failed : Process → Bool
  | .running n _ => n.pc.isStopped
  | .exited code => code = .failure

def Process.rank : Process → ℕ
  | .running n _ => n.pc.rank
  | .exited _ => 0

/-- The step ends the loop on an exception. -/
def Raises (p : Process) (e : ProcessEvent) : Prop :=
  ∃ n s event m, p = .running n s ∧ e = .loop event ∧ step w n event = some m ∧
    n.pc ≠ .stopped ∧ m.pc = .stopped

def ownSteps (h : History Process ProcessEvent) : ℕ :=
  total (fun _ e => if e.isOwn then 1 else 0) h

def postsIn (h : History Process ProcessEvent) : ℕ :=
  total (fun _ e => if e.isPost then 1 else 0) h

def passesBy (rank : ℕ) (h : History Process ProcessEvent) : ℕ :=
  total (fun p e => if e.isOwn && p.rank == rank then 1 else 0) h

variable {w} {n m : Node} {e : Event}

theorem Pc.ahead_succ (pc : Pc) (queued : ℕ) : pc.ahead (queued + 1) ≤ pc.ahead queued + 1 := by
  cases pc with
  | pop | test => exact le_rfl
  | process | top | clear | wait | sending | round | repair | receive | stopped =>
    exact Nat.le_succ _

/-- What the loop's own steps do to its place and to the queue. -/
theorem Stepped.own (hs : Stepped w n e m) (ho : e.isOwn = true) (ht : n.pc ≠ .top) :
    m.pc.rank < n.pc.rank ∧ m.pc.ahead m.alerts.length ≤ n.pc.ahead n.alerts.length ∨
      ∃ alert rest, n.pc = .process (alert :: rest) ∧ m.pc = .process rest := by
  cases hs with
  | tick | directory | localWrite | localDelete | ltOpen | ltVerify | ltWrite | ltState | post => cases ho
  | top hp => exact absurd hp ht
  | test hp =>
    rw [hp]
    cases n.alertReady with
    | false => exact .inl ⟨Nat.le_of_ble_eq_true rfl, Nat.zero_le _⟩
    | true => exact .inl ⟨Nat.le_of_ble_eq_true rfl, le_rfl⟩
  | pop hp =>
    rw [hp]
    exact .inl ⟨Nat.le_of_ble_eq_true rfl, le_rfl⟩
  | processed hp | clear hp | send hp | repair hp | idle hp | list hp | nothing hp | round hp =>
    rw [hp]
    exact .inl ⟨Nat.le_of_ble_eq_true rfl, Nat.zero_le _⟩
  | process hp => exact .inr ⟨_, _, hp, rfl⟩
  | receive hp =>
    rw [takeIn, hp]
    split
    all_goals exact .inl ⟨Nat.le_of_ble_eq_true rfl, Nat.zero_le _⟩

theorem Stepped.between (hs : Stepped w n e m) (ho : e.isOwn = false) :
    m.pc = n.pc ∧ m.alerts.length = n.alerts.length + if e.isPost then 1 else 0 := by
  cases hs with
  | tick | directory | localWrite | localDelete | ltOpen | ltVerify | ltWrite | ltState => exact ⟨rfl, rfl⟩
  | post => exact ⟨rfl, List.length_append⟩
  | top | test | pop | processed | process | clear | send | repair | idle | list | nothing | round
  | receive => cases ho

/-- A step of the loop brings the pass on, and what comes in between does not
set it back but for an alert that is queued. -/
theorem Stepped.toGo (hs : Stepped w n e m) (ht : e.isOwn = true → n.pc ≠ .top) :
    (if e.isOwn then 1 else 0) + m.toGo ≤ n.toGo + if e.isPost then 1 else 0 := by
  rw [Node.toGo, Node.toGo]
  cases ho : e.isOwn with
  | true =>
    rw [if_pos rfl]
    rcases hs.own ho (ht ho) with ⟨hrank, hahead⟩ | ⟨alert, rest, hn, hm⟩
    · omega
    · rw [hn, hm]
      simp only [Pc.rank, Pc.ahead, List.length_cons]
      omega
  | false =>
    obtain ⟨hpc, hqueued⟩ := hs.between ho
    rw [hpc, hqueued]
    cases e.isPost with
    | true =>
      have hle := n.pc.ahead_succ n.alerts.length
      simp only [Bool.false_eq_true, if_false, if_true]
      omega
    | false => exact (Nat.zero_add _).le

inductive ProcessStepped (w : World) : Process → ProcessEvent → Process → Prop
  | requestStop (n : Node) (s : Bool) :
    ProcessStepped w (.running n s) .requestStop (.running n true)
  | loop {n m : Node} {s : Bool} {e : Event} (steps : step w n e = some m)
    (goes_on : s = true → e.isOwn = true → n.pc ≠ .top) :
    ProcessStepped w (.running n s) (.loop e) (.running m s)
  | leave {n : Node} (at_top : n.pc = .top) :
    ProcessStepped w (.running n true) .leave (.exited .success)
  | caught {n : Node} {s : Bool} (raised : n.pc = .stopped) :
    ProcessStepped w (.running n s) .caught (.exited .failure)

theorem Pc.isTop_iff {pc : Pc} : pc.isTop = true ↔ pc = .top := by
  cases pc <;> simp [isTop]

theorem Pc.isStopped_iff {pc : Pc} : pc.isStopped = true ↔ pc = .stopped := by
  cases pc <;> simp [isStopped]

theorem processStepped {p q : Process} {e : ProcessEvent} (h : processStep w p e = some q) :
    ProcessStepped w p e q := by
  cases p with
  | exited code => cases h
  | running n s =>
    cases e with
    | requestStop =>
      obtain rfl := Option.some.inj h
      exact .requestStop n s
    | loop event =>
      obtain ⟨hcond, hmap⟩ := Option.ite_none_left_eq_some.mp h
      obtain ⟨m, hm, rfl⟩ := Option.map_eq_some_iff.mp hmap
      refine .loop hm fun hs ho ht => hcond ?_
      rw [hs, ho, Pc.isTop_iff.mpr ht]
      rfl
    | leave =>
      obtain ⟨hcond, hm⟩ := Option.ite_none_right_eq_some.mp h
      obtain rfl := Option.some.inj hm
      obtain ⟨rfl, ht⟩ := Bool.and_eq_true_iff.mp hcond
      exact .leave (Pc.isTop_iff.mp ht)
    | caught =>
      obtain ⟨hcond, hm⟩ := Option.ite_none_right_eq_some.mp h
      obtain rfl := Option.some.inj hm
      exact .caught (Pc.isStopped_iff.mp hcond)

section

variable {p q : Process} {x : ProcessEvent}

theorem ProcessStepped.stopping (hs : ProcessStepped w p x q) (hp : p.stopping = true) :
    q.stopping = true := by
  cases hs with
  | requestStop | leave | caught => rfl
  | loop => exact hp

theorem ProcessStepped.toGo (hs : ProcessStepped w p x q) (hp : p.stopping = true) :
    (if x.isOwn then 1 else 0) + q.toGo ≤ p.toGo + if x.isPost then 1 else 0 := by
  cases hs with
  | requestStop => exact (Nat.zero_add _).le
  | loop steps goes_on => exact (stepped w steps).toGo (goes_on hp)
  | leave ht =>
    have hpos : 1 ≤ Pc.rank .top := le_rfl
    rw [← ht] at hpos
    exact hpos.trans (Nat.le_add_right _ _)
  | caught ht =>
    have hpos : 1 ≤ Pc.rank .stopped := le_rfl
    rw [← ht] at hpos
    exact hpos.trans (Nat.le_add_right _ _)

/-- The pass never goes back, and every step but that from one alert to the next
leaves its place behind. -/
theorem ProcessStepped.rank (hs : ProcessStepped w p x q) (hp : p.stopping = true) :
    q.rank ≤ p.rank ∧ (x.isOwn = true → p.rank ≠ (Pc.process []).rank → q.rank < p.rank) := by
  cases hs with
  | requestStop => exact ⟨le_rfl, by rintro ⟨⟩⟩
  | @loop n m s e steps goes_on =>
    cases ho : e.isOwn with
    | true =>
      rcases (stepped w steps).own ho (goes_on hp ho) with ⟨hrank, -⟩ | ⟨alert, rest, hn, hm⟩
      · exact ⟨hrank.le, fun _ _ => hrank⟩
      · have hsame : m.pc.rank = n.pc.rank := by
          rw [hn, hm]
          rfl
        refine ⟨hsame.le, fun _ hne => absurd ?_ hne⟩
        change n.pc.rank = _
        rw [hn]
        rfl
    | false =>
      obtain ⟨hpc, -⟩ := (stepped w steps).between ho
      refine ⟨(congrArg Pc.rank hpc).le, fun h => ?_⟩
      rw [ProcessEvent.isOwn, ho] at h
      cases h
  | leave ht | caught ht =>
    refine ⟨Nat.zero_le _, fun _ _ => ?_⟩
    change 0 < Pc.rank _
    rw [ht]
    exact Nat.one_pos

theorem exists_own_step (hp : n.pc ≠ .stopped) : ∃ e m, e.isOwn = true ∧ step w n e = some m := by
  cases hpc : n.pc with
  | wait => exact ⟨.woken none, _, rfl, by simp only [step, hpc]; rfl⟩
  | round => exact ⟨.round 0, _, rfl, by simp only [step, hpc]; rfl⟩
  | receive => exact ⟨.receive none, { n with pc := .top }, rfl, by simp only [step, hpc]⟩
  | stopped => exact absurd hpc hp
  | process alerts =>
    cases alerts with
    | nil => exact ⟨.advance, _, rfl, by simp only [step, advance, hpc]; rfl⟩
    | cons => exact ⟨.advance, _, rfl, by simp only [step, advance, hpc]; rfl⟩
  | top | test | pop | clear | sending | repair =>
    exact ⟨.advance, _, rfl, by simp only [step, advance, hpc]; rfl⟩

theorem exists_process_step (n : Node) (s : Bool) :
    ∃ x q, x.isOwn = true ∧ processStep w (.running n s) x = some q := by
  by_cases hstopped : n.pc = .stopped
  · refine ⟨.caught, .exited .failure, rfl, ?_⟩
    rw [processStep, if_pos (Pc.isStopped_iff.mpr hstopped)]
  · cases ht : s && n.pc.isTop with
    | true =>
      refine ⟨.leave, .exited .success, rfl, ?_⟩
      rw [processStep, if_pos ht]
    | false =>
      obtain ⟨e, m, ho, hs⟩ := exists_own_step (w := w) hstopped
      refine ⟨.loop e, .running m s, ho, ?_⟩
      rw [processStep, ht, Bool.false_and, if_neg Bool.false_ne_true, hs]
      rfl

end

section Runs

variable {h : History Process ProcessEvent} {p : Process}

theorem raised_of_failed {stop : Bool} (hr : Run (processStep w) (.running n stop) h p)
    (hp : p.failed = true) : n.pc = .stopped ∨ ∃ x ∈ h, Raises w x.1 x.2 := by
  induction hr with
  | refl => exact .inl (Pc.isStopped_iff.mp hp)
  | @snoc h p x q hr hs ih =>
    have hkeep : p.failed = true → n.pc = .stopped ∨ ∃ y ∈ (p, x) :: h, Raises w y.1 y.2 := by
      intro hfailed
      refine (ih hfailed).imp_right fun hraise => ?_
      obtain ⟨y, hy, hraise⟩ := hraise
      exact ⟨y, List.mem_cons_of_mem _ hy, hraise⟩
    cases processStepped hs with
    | requestStop => exact hkeep hp
    | @loop m m' s e steps _ =>
      by_cases hm : m.pc = .stopped
      · exact hkeep (Pc.isStopped_iff.mpr hm)
      · exact .inr ⟨_, List.mem_cons_self,
          m, s, e, m', rfl, rfl, steps, hm, Pc.isStopped_iff.mp hp⟩
    | leave => cases hp
    | caught hstopped => exact hkeep (Pc.isStopped_iff.mpr hstopped)

/-- Once it is to stop, the pass goes by no place twice. -/
theorem passesBy_le_one {rank : ℕ} (hne : rank ≠ (Pc.process []).rank)
    (hr : Run (processStep w) (.running n true) h p) : passesBy rank h ≤ 1 := by
  have hpays : ∀ p x q, p.stopping = true → processStep w p x = some q → q.stopping = true ∧
      (if x.isOwn && p.rank == rank then 1 else 0) + (if rank ≤ q.rank then 1 else 0) ≤
        (if rank ≤ p.rank then 1 else 0) + 0 := by
    intro p x q hp hs
    have hs := processStepped hs
    refine ⟨hs.stopping hp, ?_⟩
    obtain ⟨hle, hlt⟩ := hs.rank hp
    by_cases hat : x.isOwn = true ∧ p.rank = rank
    · have hleft := hlt hat.1 (by rw [hat.2]; exact hne)
      rw [if_pos (by simp [hat]), if_neg (by omega), if_pos hat.2.ge]
    · rw [if_neg (by simpa using hat), Nat.zero_add, Nat.add_zero]
      split
      · next hq => rw [if_pos (hq.trans hle)]
      · exact Nat.zero_le _
  obtain ⟨-, hle⟩ := hr.total_le (I := fun p => p.stopping = true) rfl hpays
  rw [total_zero] at hle
  have hsaved : (if rank ≤ (Process.running n true).rank then 1 else 0) ≤ 1 := by
    split <;> decide
  rw [passesBy]
  omega

/-- A stop is prompt. From the signal on, a daemon takes at most ten steps of
its own and one for each alert it has still to go through or is given on the
way; it lists, says where it stands, repairs and takes a message in at most
once more; and it is never stuck short of its end, which is a success unless a
step raises. -/
theorem stops_promptly (hr : Run (processStep w) (.running n true) h p) :
    ownSteps h + p.toGo ≤ 10 + n.pc.ahead n.alerts.length + postsIn h ∧
      (∀ rank, rank ≠ (Pc.process []).rank → passesBy rank h ≤ 1) ∧
      (p = .exited .failure → n.pc = .stopped ∨ ∃ x ∈ h, Raises w x.1 x.2) ∧
      (p = .exited .success ∨ p = .exited .failure ∨
        ∃ x q, x.isOwn = true ∧ processStep w p x = some q) := by
  obtain ⟨-, hle⟩ := hr.total_le (I := fun p => p.stopping = true) rfl fun p x q hp hs =>
    ⟨(processStepped hs).stopping hp, (processStepped hs).toGo hp⟩
  have hstart : (Process.running n true).toGo ≤ 10 + n.pc.ahead n.alerts.length := by
    have hrank : n.pc.rank ≤ 10 := by cases n.pc <;> exact Nat.le_of_ble_eq_true rfl
    exact Nat.add_le_add_right hrank _
  refine ⟨?_, fun rank hne => passesBy_le_one hne hr, ?_, ?_⟩
  · rw [ownSteps, postsIn]
    omega
  · rintro rfl
    exact raised_of_failed hr rfl
  · cases p with
    | running m s => exact .inr (.inr (exists_process_step m s))
    | exited code =>
      cases code with
      | success => exact .inl rfl
      | failure => exact .inr (.inl rfl)

/-- What is left of a pass that the signal came in the middle of. -/
def lastPass : List ProcessEvent :=
  (.advance :: afterAlerts true none).map .loop ++ [.leave]

theorem lastPass_ends :
    ∃ h p, Run (processStep sampleWorld)
        (.running { Node.start ∅ 1000 0 with pc := .test } true) h p ∧
      p.toGo = 0 ∧ passesBy Pc.receive.rank h = 1 ∧ ownSteps h ≤ 10 := by
  obtain ⟨h, p, hr, hgo, hpasses, hposts⟩ := exists_run (processStep sampleWorld)
    (.running { Node.start ∅ 1000 0 with pc := .test } true) lastPass
    (fun h p => p.toGo = 0 ∧ passesBy Pc.receive.rank h = 1 ∧ postsIn h = 0) (by decide +kernel)
  obtain ⟨hle, -, -, -⟩ := stops_promptly hr
  rw [hgo, hposts] at hle
  exact ⟨h, p, hr, hgo, hpasses, hle⟩

end Runs

end SyncFs
