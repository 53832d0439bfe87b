import SyncFs.DigestAddresses

/-!
# Messages off the socket

A message of several parts stands in the socket one part after the other, each
saying whether more of it follow. Only a message whose first part begins as one
of the subscriptions asks gets that far. A read takes parts until one says that
none follow, or until it has taken as many as it was asked for; then it fails
and leaves the rest of the message for the next read.
-/

namespace SyncFs

open CharConversions LabelledRuns

structure Frame where
  part : Bytes
  more : Bool
  deriving DecidableEq

def frames : List Bytes → List Frame
  | [] => []
  | [last] => [⟨last, false⟩]
  | part :: next :: rest => ⟨part, true⟩ :: frames (next :: rest)

/-- `recv_multipart_n`: the parts taken, or nothing once so many are taken and
more remain, and what is left in the socket. -/
def recvMultipartN : ℕ → List Frame → Option (List Bytes) × List Frame
  | 0, queue => (none, queue)
  | _ + 1, [] => (some [], [])
  | n + 1, frame :: queue =>
    if frame.more then
      let (taken, rest) := recvMultipartN n queue
      (taken.map (frame.part :: ·), rest)
    else (some [frame.part], queue)

/-- A part vector handed to `act`, and when. -/
structure Handed where
  parts : List Bytes
  clock : TimePoint
  steady : SteadyTime
  deriving DecidableEq

/-- The socket, what has been read off it and what became of the replica. -/
structure Intake where
  queue : List Frame
  handed : List Handed
  errors : ℕ
  outcome : Except Replica Replica

namespace Intake

inductive Event
  | arrive (message : List Bytes)
  | receive (clock : TimePoint) (steady : SteadyTime)

def start (r : Replica) : Intake := ⟨[], [], 0, .ok r⟩

section

variable (w : World)

/-- `Sink::receive` and what `receive_one` does with it. -/
def receive (n : Intake) (r : Replica) (clock : TimePoint) (steady : SteadyTime) : Intake :=
  match recvMultipartN maxParts n.queue with
  | (none, rest) => { n with queue := rest, errors := n.errors + 1 }
  | (some v, rest) =>
    { n with
      queue := rest
      handed := n.handed ++ [⟨v, clock, steady⟩]
      outcome := receiveOne w v clock steady r }

/-- The subscriptions let a message in by its first part, whatever its others,
and nothing is read off an empty socket. -/
def step (n : Intake) : Event → Option Intake
  | .arrive message =>
    if delivers (subscribe w.endpoint) message then
      some { n with queue := n.queue ++ frames message }
    else none
  | .receive clock steady =>
    match n.outcome with
    | .error _ => none
    | .ok r => if n.queue = [] then none else some (receive w n r clock steady)

def arrived : History Intake Event → List (List Bytes)
  | [] => []
  | (_, .arrive message) :: h => arrived h ++ [message]
  | (_, .receive ..) :: h => arrived h

def replay (r : Replica) (handed : List Handed) : Except Replica Replica :=
  handed.foldlM (fun r x => receiveOne w x.parts x.clock x.steady r) r

def short (message : List Bytes) : Bool := message.length ≤ maxParts

/-- The socket stands between two messages. Of those before it the short ones
have been handed over, complete and in order, and each other one has been
one error; the replica is what the ones handed over have made of it. -/
def Whole (r : Replica) (messages : List (List Bytes)) (n : Intake) : Prop :=
  ∃ before after, messages = before ++ after ∧ n.queue = after.flatMap frames ∧
    n.handed.map Handed.parts = before.filter short ∧
    n.errors = (before.filter fun m => !short m).length ∧ n.outcome = replay w r n.handed

def FindsShort (n : Intake) (e : Event) : Prop :=
  ∀ clock steady, e = .receive clock steady → (n.queue.takeWhile Frame.more).length < maxParts

end

variable {w : World} {r : Replica} {m : List Bytes} {queue : List Frame} {k : ℕ}

theorem length_frames (m : List Bytes) : (frames m).length = m.length := by
  induction m with
  | nil => rfl
  | cons part m ih =>
    cases m with
    | nil => rfl
    | cons next rest => rw [frames, List.length_cons, ih, List.length_cons, List.length_cons, List.length_cons]

theorem takeWhile_frames (hm : m ≠ []) :
    ((frames m ++ queue).takeWhile Frame.more).length + 1 = m.length := by
  induction m with
  | nil => exact absurd rfl hm
  | cons part m ih =>
    cases m with
    | nil => rfl
    | cons next rest =>
      rw [frames, List.cons_append, List.takeWhile_cons_of_pos rfl, List.length_cons,
        ih (List.cons_ne_nil next rest)]
      rfl

theorem recvMultipartN_short (hm : m ≠ []) (hk : m.length ≤ k) :
    recvMultipartN k (frames m ++ queue) = (some m, queue) := by
  induction m generalizing k with
  | nil => exact absurd rfl hm
  | cons part m ih =>
    obtain ⟨k, rfl⟩ : ∃ j, k = j + 1 := Nat.exists_eq_add_one_of_ne_zero (by simp at hk; omega)
    cases m with
    | nil => rfl
    | cons next rest =>
      have hrest : (next :: rest).length ≤ k := by simpa using hk
      rw [frames, List.cons_append, recvMultipartN]
      simp [ih (List.cons_ne_nil next rest) hrest]

/-- Of a longer one as many parts are taken, and the others left. -/
theorem recvMultipartN_long (hk : k < m.length) :
    recvMultipartN k (frames m ++ queue) = (none, (frames m).drop k ++ queue) := by
  induction k generalizing m with
  | zero => rw [recvMultipartN, List.drop_zero]
  | succ k ih =>
    match m, hk with
    | part :: next :: rest, hk =>
      have hrest : k < (next :: rest).length := by simpa using hk
      rw [frames, List.cons_append, recvMultipartN]
      simp [ih hrest]

theorem countP_drop_frames (hk : k < m.length) :
    ((frames m).drop k).countP (fun frame => !frame.more) = 1 := by
  induction k generalizing m with
  | zero =>
    rw [List.drop_zero]
    induction m with
    | nil => cases hk
    | cons part m ih =>
      cases m with
      | nil => rfl
      | cons next rest => simpa [frames] using ih (by simp)
  | succ k ih =>
    match m, hk with
    | part :: next :: rest, hk => exact ih (m := next :: rest) (by simpa using hk)

theorem countP_flatMap_frames {ms : List (List Bytes)} (hms : ∀ m ∈ ms, m ≠ []) :
    (ms.flatMap frames).countP (fun frame => !frame.more) = ms.length := by
  induction ms with
  | nil => rfl
  | cons m ms ih =>
    obtain ⟨hm, hms⟩ := List.forall_mem_cons.mp hms
    have hone := countP_drop_frames (k := 0) (List.length_pos_of_ne_nil hm)
    rw [List.drop_zero] at hone
    rw [List.flatMap_cons, List.countP_append, ih hms, hone, List.length_cons, Nat.add_comm]

theorem arrived_ne_nil {h : History Intake Event} {n : Intake}
    (hr : Run (step w) (start r) h n) : ∀ m ∈ arrived h, m ≠ [] := by
  induction hr with
  | refl => exact fun m hm => absurd hm List.not_mem_nil
  | @snoc _ _ e _ _ he ih =>
    cases e with
    | arrive message =>
      obtain ⟨hin, -⟩ := Option.ite_none_right_eq_some.mp he
      intro m hm
      rcases List.mem_append.mp hm with hm | hm
      · exact ih m hm
      · exact List.mem_singleton.mp hm ▸ ne_nil_of_delivers hin
    | receive clock steady => exact ih

theorem replay_append {handed : List Handed} {x : Handed} {r r' : Replica}
    (h : replay w r handed = .ok r') :
    replay w r (handed ++ [x]) = receiveOne w x.parts x.clock x.steady r' := by
  rw [replay, List.foldlM_append, ← replay, h]
  change List.foldlM (fun r x => receiveOne w x.parts x.clock x.steady r) r' [x] = _
  rw [List.foldlM_cons]
  exact bind_pure _

theorem Whole.arrive {messages : List (List Bytes)} {n : Intake} (h : Whole w r messages n)
    (m : List Bytes) :
    Whole w r (messages ++ [m]) { n with queue := n.queue ++ frames m } := by
  obtain ⟨before, after, rfl, hq, hh, he, ho⟩ := h
  refine ⟨before, after ++ [m], List.append_assoc _ _ _, ?_, hh, he, ho⟩
  simp [hq]

/-- A short message at the front is handed over and leaves the socket between
two messages. -/
theorem Whole.receive {before after : List (List Bytes)} {n : Intake} {r' : Replica}
    (hm : m ≠ []) (hs : m.length ≤ maxParts) (hq : n.queue = frames m ++ after.flatMap frames)
    (hh : n.handed.map Handed.parts = before.filter short)
    (he : n.errors = (before.filter fun m => !short m).length)
    (ho : n.outcome = replay w r n.handed) (hok : n.outcome = .ok r') (clock : TimePoint)
    (steady : SteadyTime) :
    Whole w r (before ++ m :: after) (Intake.receive w n r' clock steady) := by
  have hshort : short m = true := decide_eq_true hs
  refine ⟨before ++ [m], after, by simp, ?_⟩
  rw [Intake.receive, hq, recvMultipartN_short hm hs]
  refine ⟨rfl, ?_, ?_, ?_⟩
  · simp [hh, hshort]
  · simp [he, hshort]
  · exact (replay_append (x := ⟨m, clock, steady⟩) (ho.symm.trans hok)).symm

/-- The read of a longer message leaves the socket between no two messages. -/
theorem not_whole_receive {before after : List (List Bytes)} {n : Intake} {r' : Replica}
    (hms : ∀ a ∈ before ++ m :: after, a ≠ []) (hl : maxParts < m.length)
    (hq : n.queue = frames m ++ after.flatMap frames) (clock : TimePoint) (steady : SteadyTime) :
    ¬ Whole w r (before ++ m :: after) (Intake.receive w n r' clock steady) := by
  rintro ⟨before', after', hsplit, hq', -⟩
  rw [Intake.receive, hq, recvMultipartN_long hl] at hq'
  have hafter : ∀ m ∈ after, m ≠ [] := fun a ha => hms a (by simp [ha])
  have hafter' : ∀ a ∈ after', a ≠ [] := fun a ha =>
    hms a (hsplit ▸ List.mem_append_right before' ha)
  -- The last parts left over are those of just as many messages as before the read.
  have hcount := congrArg (List.countP fun frame => !frame.more) hq'
  rw [List.countP_append, countP_drop_frames hl, countP_flatMap_frames hafter,
    countP_flatMap_frames hafter'] at hcount
  have hsame : m :: after = after' := by
    refine (List.append_inj' hsplit ?_).2
    rw [← hcount, List.length_cons, Nat.add_comm]
  have hlen := congrArg List.length hq'
  rw [← hsame, List.flatMap_cons, List.length_append, List.length_append, List.length_drop,
    length_frames] at hlen
  have hpos : 0 < maxParts := by decide
  omega

/-- The front message as a call finds it. -/
theorem findsShort_iff {after : List (List Bytes)} {n : Intake} (hm : m ≠ [])
    (hq : n.queue = frames m ++ after.flatMap frames) {clock : TimePoint} {steady : SteadyTime} :
    FindsShort n (.receive clock steady) ↔ m.length ≤ maxParts := by
  have hlen : ((frames m ++ after.flatMap frames).takeWhile Frame.more).length + 1 = m.length :=
    takeWhile_frames hm
  rw [← hq] at hlen
  constructor
  · intro hf
    have hlt := hf clock steady rfl
    omega
  · intro hle _ _ _
    omega

/-- A step out of a state between two messages ends in one exactly when the
message it reads, if any, is short. -/
theorem whole_step {h : History Intake Event} {n m : Intake} {e : Event}
    (hms : ∀ m ∈ arrived h, m ≠ []) (hw : Whole w r (arrived h) n) (he : step w n e = some m) :
    Whole w r (arrived ((n, e) :: h)) m ↔ FindsShort n e := by
  cases e with
  | arrive message =>
    obtain ⟨-, hm⟩ := Option.ite_none_right_eq_some.mp he
    obtain rfl := Option.some.inj hm
    exact iff_of_true (hw.arrive message) fun _ _ h => by cases h
  | receive clock steady =>
    simp only [step] at he
    split at he
    · cases he
    · next r' hok =>
      obtain ⟨hne, hm⟩ := Option.ite_none_left_eq_some.mp he
      obtain rfl := Option.some.inj hm
      obtain ⟨before, after, hsplit, hq, hh, herr, ho⟩ := hw
      cases after with
      | nil => exact absurd hq hne
      | cons front after =>
        have hfront : front ≠ [] := hms front (by rw [hsplit]; simp)
        rw [List.flatMap_cons] at hq
        rw [findsShort_iff hfront hq, arrived, hsplit]
        constructor
        · intro hw
          by_contra hl
          exact not_whole_receive (hsplit ▸ hms) (not_le.mp hl) hq clock steady hw
        · exact fun hs => Whole.receive hfront hs hq hh herr ho hok clock steady

/-- The reads of a run stop between two messages every time, and long ones leave
no trace but an error, exactly when no read has a long one before it. -/
theorem whole_iff {h : History Intake Event} {n : Intake} (hr : Run (step w) (start r) h n) :
    (Always (fun h n _ => Whole w r (arrived h) n) h ∧ Whole w r (arrived h) n) ↔
      Always (fun _ n e => FindsShort n e) h := by
  induction hr with
  | refl => exact iff_of_true ⟨trivial, [], [], rfl, rfl, rfl, rfl, rfl⟩ trivial
  | snoc hr he ih =>
    rw [always_cons, always_cons, ← ih]
    constructor
    · rintro ⟨⟨hw, ha⟩, hm⟩
      exact ⟨(whole_step (arrived_ne_nil hr) hw he).mp hm, ha, hw⟩
    · rintro ⟨hs, ha, hw⟩
      exact ⟨⟨hw, ha⟩, (whole_step (arrived_ne_nil hr) hw he).mpr hs⟩

instance (n : Intake) (e : Event) : Decidable (FindsShort n e) := by
  unfold FindsShort
  cases e with
  | arrive => exact isTrue fun _ _ h => by cases h
  | receive clock steady =>
    exact decidable_of_iff ((n.queue.takeWhile Frame.more).length < maxParts)
      ⟨fun h _ _ _ => h, fun h => h clock steady rfl⟩

def listing : Replica :=
  (Node.start (.ofList [(samplePath, sampleFile "x" 10)] compare) 30 0).replica

/-- Two messages, one of them a create without its parts, read in turn. -/
def twoMessages : List Event :=
  [.arrive [ascii "create"], .arrive (Source.remove samplePath 20), .receive 30 0, .receive 40 10]

theorem twoMessages_whole :
    ∃ h n, Run (step sampleWorld) (start listing) h n ∧ n.queue = [] ∧
      n.handed.map Handed.parts = [[ascii "create"], Source.remove samplePath 20] ∧
      Always (fun h n _ => Whole sampleWorld listing (arrived h) n) h ∧
      Whole sampleWorld listing (arrived h) n := by
  obtain ⟨h, n, hr, hq, hh, hs⟩ := exists_run (step sampleWorld) (start listing) twoMessages
    (fun h n => n.queue = [] ∧
      n.handed.map Handed.parts = [[ascii "create"], Source.remove samplePath 20] ∧
      Always (fun _ n e => FindsShort n e) h) (by decide +kernel)
  exact ⟨h, n, hr, hq, hh, (whole_iff hr).mpr hs⟩

/-- A create of four parts with a remove behind them. -/
def overlong : List Bytes :=
  [ascii "create", ascii "x", ascii "20", samplePath.native] ++ Source.remove samplePath 20

theorem overlong_executed :
    ∃ h n, Run (step sampleWorld) (start listing) h n ∧ arrived h = [overlong] ∧
      n.handed.map Handed.parts = [Source.remove samplePath 20] ∧
      n.outcome.toOption.any (fun r => r.disk.isEmpty) = true ∧
      ¬ (Always (fun h n _ => Whole sampleWorld listing (arrived h) n) h ∧
        Whole sampleWorld listing (arrived h) n) := by
  obtain ⟨h, n, hr, ha, hh, hd⟩ := exists_run (step sampleWorld) (start listing)
    [.arrive overlong, .receive 30 0, .receive 40 10]
    (fun h n => arrived h = [overlong] ∧
      n.handed.map Handed.parts = [Source.remove samplePath 20] ∧
      n.outcome.toOption.any (fun r => r.disk.isEmpty) = true)
    (by decide +kernel)
  refine ⟨h, n, hr, ha, hh, hd, ?_⟩
  rintro ⟨-, before, after, hsplit, -, hparts, -⟩
  have hone : Source.remove samplePath 20 ∈ before.filter short := by
    rw [← hparts, hh]
    exact List.mem_singleton_self _
  have hmem : Source.remove samplePath 20 ∈ [overlong] := by
    rw [← ha, hsplit]
    exact List.mem_append_left after (List.mem_filter.mp hone).1
  exact absurd (List.mem_singleton.mp hmem) (by decide +kernel)

end Intake

end SyncFs
