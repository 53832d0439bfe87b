import SyncFs.InotifyBuffers
import SyncFs.Paths

/-!
# The monitor in the sync loop

`wait`, `next_event` and `discard` share one batch. The system answers each of
their calls in any way it likes, and every call with its answer is logged.
-/

namespace SyncFs.MonitorWaits

open CharConversions InotifyBuffers LabelledRuns
open Monitor (Mask closeWrite created isDir ignored drivesSync reshapesTree)

structure InotifyEvent where
  name : Option Bytes
  mask : Mask
  deriving DecidableEq

abbrev Watches := List (ℤ × Path)

def insertOrAssign (watches : Watches) (wd : ℤ) (path : Path) : Watches :=
  (wd, path) :: watches.filter fun x => x.1 ≠ wd

structure Monitor where
  watches : Watches
  batch : List InotifyEvent
  deriving DecidableEq

/-! ### System calls -/

/-- How `poll` comes back on the one descriptor it is given. -/
inductive Poll
  | failed (reason : Bytes)
  /-- `EINTR`. -/
  | interrupted
  | timedOut
  | available (err hup nval : Bool)
  deriving DecidableEq

/-- An entry of the traversal, and what `inotify_add_watch` would give for it. -/
structure Entry where
  path : Path
  isDirectory : Bool
  isSymlink : Bool
  wd : ℤ
  deriving DecidableEq

/-- What one resync is told: which paths are directories still, the descriptor
of the root, and the entries up to the end or an error. -/
structure Resync where
  directories : List Path
  root : ℤ
  entries : List Entry
  deriving DecidableEq

/-- The answers to one call of the monitor, by the number of system calls it has
made. -/
structure Kernel where
  poll : ℕ → Poll
  read : ℕ → Read
  resync : ℕ → Resync

/-- A read is logged with the watches its events are named by. -/
inductive Syscall
  | poll (timeout : ℤ) (answer : Poll)
  | read (watches : Watches) (answer : Read)
  | resync (answer : Resync)
  deriving DecidableEq

structure Frame extends Monitor where
  log : List Syscall

def timeoutMs : ℤ := 0

def waitFd : Poll → Except Bytes ℤ
  | .failed reason => .error (ascii "Failed to poll on inotify fd " ++ reason)
  | .interrupted => .ok 0
  | .timedOut => .ok 0
  | .available err hup nval =>
    if err then .error (ascii "Error condition on inotify fd")
    else if hup then .error (ascii "Hang  up on inotify fd")
    else if nval then .error (ascii "Inotify fd not open")
    else .ok 1

/-! ### The monitor -/

def addWatch (watches : Watches) (dir : Path) (wd : ℤ) : Watches :=
  if wd = -1 then watches else insertOrAssign watches wd dir

def resyncWatches (answer : Resync) (watches : Watches) : Watches :=
  answer.entries.foldl
    (fun watches e =>
      if e.isDirectory && !e.isSymlink then addWatch watches e.path e.wd else watches)
    (addWatch (watches.filter fun x => x.2 ∈ answer.directories) Path.here answer.root)

def expand (watches : Watches) (r : RawEvent) : InotifyEvent where
  name :=
    if r.name = [] then none
    else
      let base := ((watches.find? fun x => x.1 = r.wd).map (·.2)).getD Path.here
      some (base / Path.ofNative r.name).native
  mask := r.mask

namespace Frame

def resync (k : Kernel) (f : Frame) : Frame :=
  let answer := k.resync f.log.length
  { f with watches := resyncWatches answer f.watches, log := f.log ++ [.resync answer] }

/-- The part of `next_event` that reads. -/
def refill (k : Kernel) (f : Frame) : Except Bytes Unit × Frame :=
  let answer := k.read f.log.length
  let g := { f with log := f.log ++ [.read f.watches answer] }
  match readFd answer with
  | .error e => (.error e, g)
  | .ok raw =>
    let g := { g with
      batch := f.batch ++ raw.map (expand f.watches)
      watches := f.watches.filter fun x => raw.all fun r => !(r.mask &&& ignored != 0 && r.wd = x.1) }
    (.ok (), if raw.any fun r => reshapesTree r.mask then g.resync k else g)

def topUp (k : Kernel) (f : Frame) : Except Bytes Unit × Frame :=
  if f.batch = [] then f.refill k else (.ok (), f)

end Frame

def nextEvent (k : Kernel) (f : Frame) : Except Bytes InotifyEvent × Frame :=
  match f.topUp k with
  | (.error e, g) => (.error e, g)
  | (.ok _, g) =>
    match g.batch with
    | [] => (.error (ascii "Read no inotify event"), g)
    | ev :: batch => (.ok ev, { g with batch := batch })

def waitLoop (k : Kernel) : ℕ → Frame → Option (Bool × Frame)
  | 0, _ => none
  | rounds + 1, f =>
    match nextEvent k f with
    | (.error _, g) => some (false, g)
    | (.ok ev, g) =>
      if drivesSync ev.mask then some (true, { g with batch := ev :: g.batch })
      else if g.batch = [] then some (false, g)
      else waitLoop k rounds g

def wait (k : Kernel) (rounds : ℕ) (m : Monitor) : Option (Except Bytes Bool × Frame) :=
  let f : Frame := ⟨m, []⟩
  if m.batch = [] then
    let answer := k.poll f.log.length
    let g := { f with log := f.log ++ [.poll timeoutMs answer] }
    match waitFd answer with
    | .error e => some (.error e, g)
    | .ok avail =>
      if avail ≤ 0 then some (.ok false, g)
      else (waitLoop k rounds g).map fun x => (.ok x.1, x.2)
  else (waitLoop k rounds f).map fun x => (.ok x.1, x.2)

def discard (k : Kernel) (m : Monitor) : Except Bytes Unit × Frame :=
  let consumed := nextEvent k ⟨m, []⟩
  (consumed.1.map fun _ => (), { consumed.2 with batch := [] }.resync k)

/-! ### The loop -/

inductive Pc
  | wait
  | discard
  /-- An error of the poll ends the loop. -/
  | stopped
  deriving DecidableEq

structure Loop where
  monitor : Monitor
  pc : Pc
  deriving DecidableEq

inductive Event
  | wait (k : Kernel) (rounds : ℕ)
  | discard (k : Kernel)

def after : Except Bytes Bool → Pc
  | .ok true => .discard
  | .ok false => .wait
  | .error _ => .stopped

def step (s : Loop) : Event → Option Loop
  | .wait k rounds =>
    if s.pc = .wait then
      (wait k rounds s.monitor).map fun x => ⟨x.2.toMonitor, after x.1⟩
    else none
  | .discard k =>
    if s.pc = .discard then some ⟨(discard k s.monitor).2.toMonitor, .wait⟩ else none

/-- What a wait returned, or threw. -/
def returned (s : Loop) : Event → Option (Except Bytes Bool)
  | .wait k rounds => (wait k rounds s.monitor).map (·.1)
  | .discard _ => none

def logOf (s : Loop) : Event → List Syscall
  | .wait k rounds => ((wait k rounds s.monitor).map (·.2.log)).getD []
  | .discard k => (discard k s.monitor).2.log

/-! ### What is promised -/

def Syscall.events : Syscall → List InotifyEvent
  | .read watches answer =>
    match readFd answer with
    | .error _ => []
    | .ok raw => raw.map (expand watches)
  | .poll _ _ => []
  | .resync _ => []

def fetchedBy (s : Loop) (e : Event) : List InotifyEvent := (logOf s e).flatMap Syscall.events

/-- Every event read so far, the oldest first. -/
def fetched (m : Monitor) : History Loop Event → List InotifyEvent
  | [] => m.batch
  | (s, e) :: h => fetched m h ++ fetchedBy s e

def InBatch (m : Monitor) (h : History Loop Event) (s : Loop) (i : ℕ) : Prop :=
  i < (fetched m h).length ∧ (fetched m h).length ≤ i + s.monitor.batch.length

/-- A system call that cannot block, given the one before it. -/
def Syscall.Prompt (before : Option Syscall) : Syscall → Prop
  | .poll timeout _ => timeout = 0
  | .read _ _ => before = some (.poll 0 (.available false false false))
  | .resync _ => True

def Prompt : Option Syscall → List Syscall → Prop
  | _, [] => True
  | before, call :: calls => call.Prompt before ∧ Prompt (some call) calls

/-- A wait never blocks, and a discard does not read at all. -/
def Unblocked (s : Loop) : Event → Prop
  | .wait k rounds => Prompt none (logOf s (.wait k rounds))
  | .discard k => ∀ call ∈ logOf s (.discard k), ∀ watches answer, call ≠ .read watches answer

/-- The bare creation of something that is no directory. -/
def InotifyEvent.Bare (ev : InotifyEvent) : Prop :=
  ev.mask &&& created ≠ 0 ∧ ev.mask &&& isDir = 0

/-- What a step drops off the front of the batch. -/
def Drops (s : Loop) (e : Event) (t : Loop) (dropped : List InotifyEvent) : Prop :=
  s.monitor.batch ++ fetchedBy s e = dropped ++ t.monitor.batch

/-- The position was in the batch of a wait that returned true, and a discard
followed. -/
def Discarded (m : Monitor) (h : History Loop Event) (i : ℕ) : Prop :=
  ∃ (later before : History Loop Event) (s t : Loop) (k l : Kernel) (rounds : ℕ),
    h = later ++ (t, .discard l) :: (s, .wait k rounds) :: before ∧
      returned s (.wait k rounds) = some (.ok true) ∧
      InBatch m ((s, .wait k rounds) :: before) t i

structure Watchful (m : Monitor) (h : History Loop Event) (s : Loop) : Prop where
  unblocked : Always (fun _ s e => Unblocked s e) h
  terminates : ∀ k, ∃ enough x, ∀ rounds, enough ≤ rounds → wait k rounds s.monitor = some x
  idle : Always (fun _ s e => ∀ t, step s e = some t → returned s e = some (.ok false) →
    ∃ dropped, Drops s e t dropped ∧ ∀ ev ∈ dropped, ev.Bare) h
  suffix : s.monitor.batch <:+ fetched m h
  kept : ∀ i ev, (fetched m h)[i]? = some ev → drivesSync ev.mask = true →
    InBatch m h s i ∨ Discarded m h i

/-! ### One wait -/

/-- What a wait leaves of a batch: all of it from the first event that drives
the loop. -/
def driving (batch : List InotifyEvent) : List InotifyEvent :=
  batch.dropWhile fun ev => !drivesSync ev.mask

variable {k : Kernel} {m : Monitor} {f g : Frame} {ev : InotifyEvent} {batch : List InotifyEvent}
variable {rounds : ℕ}

theorem driving_cons_of_drives (h : drivesSync ev.mask = true) :
    driving (ev :: batch) = ev :: batch :=
  List.dropWhile_cons_of_neg (by simp [h])

theorem driving_cons_of_idle (h : ¬ drivesSync ev.mask = true) :
    driving (ev :: batch) = driving batch :=
  List.dropWhile_cons_of_pos (by simp [h])

theorem InotifyEvent.bare (h : ¬ drivesSync ev.mask = true) : ev.Bare := by
  simp only [drivesSync, Bool.or_eq_true, beq_iff_eq, bne_iff_ne, not_or, not_not] at h
  exact h

theorem exists_eq_append_driving (batch : List InotifyEvent) :
    ∃ dropped, batch = dropped ++ driving batch ∧
      ∀ ev ∈ dropped, ¬ drivesSync ev.mask = true := by
  refine ⟨batch.takeWhile fun ev => !drivesSync ev.mask, List.takeWhile_append_dropWhile.symm, ?_⟩
  intro ev hev
  have hidle := List.mem_takeWhile_imp hev
  simpa using hidle

def Resyncs (calls : List Syscall) : Prop := ∀ call ∈ calls, ∃ found, call = .resync found

theorem resyncs_nil : Resyncs [] := fun _ hc => absurd hc List.not_mem_nil

theorem resyncs_singleton (found : Resync) : Resyncs [.resync found] := by
  intro call hc
  exact ⟨found, List.mem_singleton.mp hc⟩

theorem Frame.refill_of_error {e : Bytes} (hr : readFd (k.read f.log.length) = .error e) :
    f.refill k =
      (.error e, { f with log := f.log ++ [.read f.watches (k.read f.log.length)] }) := by
  simp only [Frame.refill, hr]

theorem Frame.refill_of_ok {raw : List RawEvent} (hr : readFd (k.read f.log.length) = .ok raw) :
    ∃ watches tail, f.refill k = (.ok (), ⟨⟨watches, f.batch ++ raw.map (expand f.watches)⟩,
        f.log ++ .read f.watches (k.read f.log.length) :: tail⟩) ∧ Resyncs tail := by
  simp only [Frame.refill, hr]
  split_ifs
  · refine ⟨_, [.resync _], Prod.ext rfl (congrArg (Frame.mk _) (List.append_assoc ..)), ?_⟩
    exact resyncs_singleton _
  · exact ⟨_, [], rfl, resyncs_nil⟩

/-- What became of a batch before an event is taken from it: a read that failed
leaves none, one that did not leaves its events. -/
inductive ToppedUp (k : Kernel) (f : Frame) : Except Bytes Unit × Frame → Prop
  | kept (hf : f.batch ≠ []) : ToppedUp k f (.ok (), f)
  | failed {e : Bytes} {answer : Read} (hf : f.batch = []) (hr : readFd answer = .error e) :
    ToppedUp k f (.error e, { f with log := f.log ++ [.read f.watches answer] })
  | filled {answer : Read} {raw : List RawEvent} {watches : Watches} {tail : List Syscall}
    (hf : f.batch = []) (hr : readFd answer = .ok raw) (ht : Resyncs tail) :
    ToppedUp k f (.ok (),
      ⟨⟨watches, raw.map (expand f.watches)⟩, f.log ++ .read f.watches answer :: tail⟩)

theorem toppedUp (k : Kernel) (f : Frame) : ToppedUp k f (f.topUp k) := by
  unfold Frame.topUp
  split_ifs with hf
  · cases hr : readFd (k.read f.log.length) with
    | error e =>
      rw [Frame.refill_of_error hr]
      exact .failed hf hr
    | ok raw =>
      obtain ⟨watches, tail, hg, ht⟩ := Frame.refill_of_ok hr
      rw [hg, hf, List.nil_append]
      exact .filled hf hr ht
  · exact .kept hf

/-- Only where there was nothing can there be nothing but an error. -/
theorem batch_of_topUp_error {e : Bytes} (h : f.topUp k = (.error e, g)) : g.batch = [] := by
  have ht := toppedUp k f
  rw [h] at ht
  cases ht with
  | failed hf hr => exact hf

theorem topUp_of_ne_nil (hf : f.batch ≠ []) : f.topUp k = (.ok (), f) := if_neg hf

theorem nextEvent_of_error {e : Bytes} (h : f.topUp k = (.error e, g)) :
    nextEvent k f = (.error e, g) := by
  rw [nextEvent, h]

theorem nextEvent_of_nil (h : f.topUp k = (.ok (), g)) (hg : g.batch = []) :
    nextEvent k f = (.error (ascii "Read no inotify event"), g) := by
  simp only [nextEvent, h, hg]

theorem nextEvent_of_cons (h : f.topUp k = (.ok (), g)) (hg : g.batch = ev :: batch) :
    nextEvent k f = (.ok ev, { g with batch := batch }) := by
  simp only [nextEvent, h, hg]

theorem waitLoop_of_ne_nil (hf : f.batch ≠ []) (hn : f.batch.length ≤ rounds) :
    waitLoop k rounds f =
      some (decide (driving f.batch ≠ []), { f with batch := driving f.batch }) := by
  induction rounds generalizing f with
  | zero => exact absurd (List.length_eq_zero_iff.mp (Nat.le_zero.mp hn)) hf
  | succ rounds ih =>
    cases hb : f.batch with
    | nil => exact absurd hb hf
    | cons ev batch =>
      rw [waitLoop, nextEvent_of_cons (topUp_of_ne_nil hf) hb]
      dsimp only
      split_ifs with hd he
      · rw [driving_cons_of_drives hd, decide_eq_true (List.cons_ne_nil ev batch)]
      · rw [driving_cons_of_idle hd, he]
        rfl
      · rw [driving_cons_of_idle hd]
        rw [hb, List.length_cons] at hn
        exact ih he (Nat.le_of_succ_le_succ hn)

/-- What is left of a batch is left of it whichever round it was filled in. -/
theorem waitLoop_eq (hn : (f.topUp k).2.batch.length < rounds) :
    waitLoop k rounds f = some (decide (driving (f.topUp k).2.batch ≠ []),
      { (f.topUp k).2 with batch := driving (f.topUp k).2.batch }) := by
  obtain ⟨rounds, rfl⟩ := Nat.exists_eq_add_one.mpr (Nat.zero_lt_of_lt hn)
  obtain ⟨⟨outcome, g⟩, htop⟩ : ∃ x, f.topUp k = x := ⟨_, rfl⟩
  rw [htop] at hn ⊢
  cases hb : g.batch with
  | nil =>
    -- Neither an error nor an empty batch leaves anything to go on with.
    have hsome : waitLoop k (rounds + 1) f = some (false, g) := by
      cases outcome with
      | error e => rw [waitLoop, nextEvent_of_error htop]
      | ok => rw [waitLoop, nextEvent_of_nil htop hb]
    rw [hsome]
    obtain ⟨⟨watches, batch⟩, log⟩ := g
    cases hb
    rfl
  | cons ev batch =>
    have hok : outcome = .ok () := by
      cases outcome with
      | error e => rw [batch_of_topUp_error htop] at hb; cases hb
      | ok => rfl
    have hne : g.batch ≠ [] := by
      rw [hb]
      exact List.cons_ne_nil ev batch
    have hsame : waitLoop k (rounds + 1) f = waitLoop k (rounds + 1) g := by
      rw [waitLoop, waitLoop, nextEvent_of_cons (hok ▸ htop) hb,
        nextEvent_of_cons (topUp_of_ne_nil hne) hb]
    rw [hsame, waitLoop_of_ne_nil hne hn.le, hb]

theorem waitLoop_mono {enough : ℕ} {x : Bool × Frame} (h : waitLoop k rounds f = some x)
    (hn : rounds ≤ enough) : waitLoop k enough f = some x := by
  induction rounds generalizing f enough with
  | zero => cases h
  | succ rounds ih =>
    obtain ⟨enough, rfl⟩ := Nat.exists_eq_add_one.mpr (Nat.zero_lt_of_lt hn)
    rw [waitLoop] at h ⊢
    split at h
    · exact h
    · split_ifs at h ⊢
      · exact h
      · exact h
      · exact ih h (Nat.le_of_succ_le_succ hn)

theorem waitLoop_spec {x : Bool × Frame} (h : waitLoop k rounds f = some x) :
    x = (decide (driving (f.topUp k).2.batch ≠ []),
      { (f.topUp k).2 with batch := driving (f.topUp k).2.batch }) := by
  have henough := waitLoop_mono h (le_max_left rounds ((f.topUp k).2.batch.length + 1))
  rw [waitLoop_eq (Nat.lt_of_succ_le (le_max_right ..))] at henough
  exact (Option.some.inj henough).symm

/-- Nothing but a descriptor that is ready counts as one event. -/
theorem ready_of_waitFd {answer : Poll} {avail : ℤ} (h : waitFd answer = .ok avail)
    (hpos : ¬ avail ≤ 0) : answer = .available false false false := by
  cases answer with
  | failed reason => cases h
  | interrupted => exact absurd (Except.ok.inj h).ge hpos
  | timedOut => exact absurd (Except.ok.inj h).ge hpos
  | available err hup nval => cases err <;> cases hup <;> cases nval <;> first | rfl | cases h

theorem prompt_of_resyncs {before : Option Syscall} {tail : List Syscall} (ht : Resyncs tail) :
    Prompt before tail := by
  induction tail generalizing before with
  | nil => trivial
  | cons call tail ih =>
    obtain ⟨found, rfl⟩ := ht call List.mem_cons_self
    exact ⟨trivial, ih fun c hc => ht c (List.mem_cons_of_mem _ hc)⟩

theorem events_of_resyncs {tail : List Syscall} (ht : Resyncs tail) :
    tail.flatMap Syscall.events = [] := by
  rw [List.flatMap_eq_nil_iff]
  intro call hc
  obtain ⟨found, rfl⟩ := ht call hc
  rfl

theorem Syscall.events_of_error {watches : Watches} {answer : Read} {e : Bytes}
    (hr : readFd answer = .error e) : (Syscall.read watches answer).events = [] := by
  simp only [Syscall.events, hr]

theorem Syscall.events_of_ok {watches : Watches} {answer : Read} {raw : List RawEvent}
    (hr : readFd answer = .ok raw) :
    (Syscall.read watches answer).events = raw.map (expand watches) := by
  simp only [Syscall.events, hr]

/-- Whatever is topped up, the batch grows by what the calls bring in. There are
such only where the batch was empty, and they are a read and resyncs. -/
theorem ToppedUp.calls {x : Except Bytes Unit × Frame} (h : ToppedUp k f x) :
    ∃ calls, x.2.log = f.log ++ calls ∧
      x.2.batch = f.batch ++ calls.flatMap Syscall.events ∧
      (f.batch ≠ [] ∧ calls = [] ∨ f.batch = [] ∧ ∃ watches answer tail,
        calls = .read watches answer :: tail ∧ Resyncs tail) := by
  cases h with
  | kept hf => exact ⟨[], (List.append_nil _).symm, (List.append_nil _).symm, .inl ⟨hf, rfl⟩⟩
  | failed hf hr =>
    refine ⟨[.read _ _], rfl, ?_, .inr ⟨hf, _, _, [], rfl, resyncs_nil⟩⟩
    rw [List.flatMap_cons, List.flatMap_nil, Syscall.events_of_error hr]
    exact (List.append_nil _).symm
  | filled hf hr ht =>
    refine ⟨.read _ _ :: _, rfl, ?_, .inr ⟨hf, _, _, _, rfl, ht⟩⟩
    rw [List.flatMap_cons, Syscall.events_of_ok hr, events_of_resyncs ht, hf,
      List.append_nil, List.nil_append]

/-- All that a wait can have done. -/
structure Waited (m : Monitor) (verdict : Except Bytes Bool) (f : Frame) : Prop where
  prompt : Prompt none f.log
  batch : f.batch = driving (m.batch ++ f.log.flatMap Syscall.events)
  verdict : ∀ b, verdict = .ok b → (b = true ↔ f.batch ≠ [])

theorem waited_of_poll {verdict : Except Bytes Bool} {answer : Poll} (hm : m.batch = [])
    (hv : verdict ≠ .ok true) : Waited m verdict ⟨m, [.poll timeoutMs answer]⟩ where
  prompt := ⟨rfl, trivial⟩
  batch := by
    change m.batch = driving (m.batch ++ [])
    rw [hm]
    rfl
  verdict := by
    intro b hb
    have hfalse : b ≠ true := fun h => hv (h ▸ hb)
    exact iff_of_false hfalse (not_not_intro hm)

/-- A wait that got as far as its loop: the batch was there, or the poll found
the descriptor ready. -/
theorem waited_of_waitLoop {log : List Syscall} {b : Bool}
    (hlog : m.batch ≠ [] ∧ log = [] ∨
      m.batch = [] ∧ log = [.poll timeoutMs (.available false false false)])
    (h : waitLoop k rounds ⟨m, log⟩ = some (b, g)) : Waited m (.ok b) g := by
  obtain ⟨rfl, rfl⟩ := Prod.mk.inj (waitLoop_spec h)
  obtain ⟨calls, hcalls, hbatch, hread⟩ := (toppedUp k ⟨m, log⟩).calls
  refine ⟨?_, ?_, ?_⟩
  · change Prompt none (Frame.topUp k ⟨m, log⟩).2.log
    rw [hcalls]
    rcases hlog with ⟨hm, rfl⟩ | ⟨hm, rfl⟩
    · rcases hread with ⟨-, rfl⟩ | ⟨hm', -⟩
      · trivial
      · exact absurd hm' hm
    · rcases hread with ⟨hm', -⟩ | ⟨-, watches, answer, tail, rfl, ht⟩
      · exact absurd hm hm'
      · exact ⟨rfl, rfl, prompt_of_resyncs ht⟩
  · have hevents : log.flatMap Syscall.events = [] := by
      rcases hlog with ⟨-, rfl⟩ | ⟨-, rfl⟩ <;> rfl
    change driving (Frame.topUp k ⟨m, log⟩).2.batch = _
    rw [hbatch]
    change _ = driving (m.batch ++ (Frame.topUp k ⟨m, log⟩).2.log.flatMap Syscall.events)
    rw [hcalls, List.flatMap_append, hevents, List.nil_append]
  · intro c hc
    rw [← Except.ok.inj hc, decide_eq_true_eq]

/-- What a wait leaves and says, whatever it is told. -/
theorem waited {verdict : Except Bytes Bool} (h : wait k rounds m = some (verdict, g)) :
    Waited m verdict g := by
  simp only [wait, List.length_nil, List.nil_append] at h
  split_ifs at h with hm
  · split at h
    · obtain ⟨rfl, rfl⟩ := Prod.mk.inj (Option.some.inj h)
      exact waited_of_poll hm (fun h => by cases h)
    · next avail havail =>
      split_ifs at h with hpos
      · obtain ⟨rfl, rfl⟩ := Prod.mk.inj (Option.some.inj h)
        exact waited_of_poll hm (fun h => by cases h)
      · obtain ⟨x, hx, hw⟩ := Option.map_eq_some_iff.mp h
        obtain ⟨rfl, rfl⟩ := Prod.mk.inj hw
        rw [ready_of_waitFd havail hpos] at hx
        exact waited_of_waitLoop (.inr ⟨hm, rfl⟩) hx
  · obtain ⟨x, hx, hw⟩ := Option.map_eq_some_iff.mp h
    obtain ⟨rfl, rfl⟩ := Prod.mk.inj hw
    exact waited_of_waitLoop (.inl ⟨hm, rfl⟩) hx

/-- However the system answers, so many rounds are enough and more make no
difference. -/
theorem wait_terminates (k : Kernel) (m : Monitor) :
    ∃ enough x, ∀ rounds, enough ≤ rounds → wait k rounds m = some x := by
  have hloop : ∀ f : Frame, ∃ enough x, ∀ rounds, enough ≤ rounds →
      waitLoop k rounds f = some x :=
    fun f => ⟨_, _, fun rounds hn => waitLoop_eq (Nat.lt_of_succ_le hn)⟩
  unfold wait
  dsimp only
  split_ifs with hm
  · split
    · exact ⟨0, _, fun _ _ => rfl⟩
    · split_ifs
      · exact ⟨0, _, fun _ _ => rfl⟩
      · obtain ⟨enough, x, hx⟩ := hloop ⟨m, [] ++ [.poll timeoutMs (k.poll 0)]⟩
        refine ⟨enough, (.ok x.1, x.2), ?_⟩
        intro rounds hn
        exact congrArg (Option.map _) (hx rounds hn)
  · obtain ⟨enough, x, hx⟩ := hloop ⟨m, []⟩
    refine ⟨enough, (.ok x.1, x.2), ?_⟩
    intro rounds hn
    exact congrArg (Option.map _) (hx rounds hn)

/-- With a batch at hand a discard reads nothing. -/
theorem log_of_discard (hm : m.batch ≠ []) :
    (discard k m).2.log = [.resync (k.resync 0)] ∧ (discard k m).2.batch = [] := by
  obtain ⟨ev, batch, hb⟩ := List.exists_cons_of_ne_nil hm
  have hnext : nextEvent k ⟨m, []⟩ = (.ok ev, ⟨{ m with batch := batch }, []⟩) :=
    nextEvent_of_cons (topUp_of_ne_nil hm) hb
  rw [discard, hnext]
  exact ⟨rfl, rfl⟩

/-! ### Runs -/

variable {s t : Loop} {e : Event} {h : History Loop Event}

inductive Stepped (s : Loop) : Event → Loop → Prop
  | wait {k : Kernel} {rounds : ℕ} {verdict : Except Bytes Bool} {f : Frame} (hp : s.pc = .wait)
    (hw : wait k rounds s.monitor = some (verdict, f)) :
    Stepped s (.wait k rounds) ⟨f.toMonitor, after verdict⟩
  | discard {k : Kernel} (hp : s.pc = .discard) :
    Stepped s (.discard k) ⟨(discard k s.monitor).2.toMonitor, .wait⟩

theorem stepped (h : step s e = some t) : Stepped s e t := by
  cases e with
  | wait k rounds =>
    obtain ⟨hp, hw⟩ := Option.ite_none_right_eq_some.mp h
    obtain ⟨⟨verdict, f⟩, hf, rfl⟩ := Option.map_eq_some_iff.mp hw
    exact .wait hp hf
  | discard k =>
    obtain ⟨hp, ht⟩ := Option.ite_none_right_eq_some.mp h
    exact Option.some.inj ht ▸ .discard hp

theorem after_eq_discard {verdict : Except Bytes Bool} (h : after verdict = .discard) :
    verdict = .ok true := by
  cases verdict with
  | error e => cases h
  | ok b =>
    cases b with
    | false => cases h
    | true => rfl

theorem logOf_wait {verdict : Except Bytes Bool} (hw : wait k rounds s.monitor = some (verdict, f)) :
    logOf s (.wait k rounds) = f.log := by
  rw [logOf, hw]
  rfl

def Held (s : Loop) : Prop := s.pc = .discard → s.monitor.batch ≠ []

theorem held_of_step (hs : step s e = some t) : Held t := by
  cases stepped hs with
  | wait hp hw => exact fun hd => ((waited hw).verdict true (after_eq_discard hd)).mp rfl
  | discard hp => exact fun hd => by cases hd

theorem held_of_run (hr : Run step ⟨m, .wait⟩ h s) : Held s := by
  refine hr.preserved (fun hd => by cases hd) ?_
  intro s e t _ hs
  exact held_of_step hs

theorem unblocked (hh : Held s) (hs : step s e = some t) : Unblocked s e := by
  cases stepped hs with
  | wait hp hw =>
    rw [Unblocked, logOf_wait hw]
    exact (waited hw).prompt
  | discard hp =>
    intro call hc watches answer hread
    rw [logOf, (log_of_discard (hh hp)).1, List.mem_singleton, hread] at hc
    cases hc

theorem drops_of_wait (hs : step s (.wait k rounds) = some t) :
    ∃ dropped, Drops s (.wait k rounds) t dropped ∧
      ∀ ev ∈ dropped, ¬ drivesSync ev.mask = true := by
  cases stepped hs with
  | wait hp hw =>
    obtain ⟨dropped, heq, hidle⟩ :=
      exists_eq_append_driving (s.monitor.batch ++ fetchedBy s (.wait k rounds))
    refine ⟨dropped, ?_, hidle⟩
    have hbatch := (waited hw).batch
    rw [← logOf_wait hw] at hbatch
    rw [Drops, hbatch]
    exact heq

theorem fetchedBy_discard (hh : Held s) (hs : step s (.discard k) = some t) :
    fetchedBy s (.discard k) = [] ∧ t.monitor.batch = [] := by
  cases stepped hs with
  | discard hp =>
    obtain ⟨hlog, hbatch⟩ := log_of_discard (k := k) (hh hp)
    refine ⟨?_, hbatch⟩
    rw [fetchedBy, logOf, hlog]
    rfl

theorem Discarded.cons {i : ℕ} (hd : Discarded m h i) (s : Loop) (e : Event) :
    Discarded m ((s, e) :: h) i := by
  obtain ⟨later, before, u, v, k, l, rounds, rfl, hv⟩ := hd
  exact ⟨(s, e) :: later, before, u, v, k, l, rounds, rfl, hv⟩

/-- The step before a discard is a wait that returned true. -/
def Woken (h : History Loop Event) : Prop :=
  ∃ (before : History Loop Event) (s : Loop) (k : Kernel) (rounds : ℕ),
    h = (s, .wait k rounds) :: before ∧ returned s (.wait k rounds) = some (.ok true)

theorem woken (hr : Run step ⟨m, .wait⟩ h s) (hp : s.pc = .discard) : Woken h := by
  cases hr with
  | refl => cases hp
  | snoc hr hs =>
    cases stepped hs with
    | wait hp' hw =>
      refine ⟨_, _, _, _, rfl, ?_⟩
      rw [returned, hw, ← after_eq_discard hp]
      rfl
    | discard hp' => cases hp

theorem suffix_of_drops {dropped : List InotifyEvent} (hs : s.monitor.batch <:+ fetched m h)
    (hd : Drops s e t dropped) : t.monitor.batch <:+ fetched m ((s, e) :: h) := by
  obtain ⟨pre, hpre⟩ := hs
  refine ⟨pre ++ dropped, ?_⟩
  rw [fetched, ← hpre, List.append_assoc, List.append_assoc, hd]

/-- What a step does not drop stays in the batch, and what was gone stays gone. -/
theorem kept_of_drops {dropped : List InotifyEvent} {i : ℕ} {ev : InotifyEvent}
    (hs : s.monitor.batch <:+ fetched m h) (hd : Drops s e t dropped)
    (hev : (fetched m ((s, e) :: h))[i]? = some ev) :
    InBatch m ((s, e) :: h) t i ∨ ev ∈ dropped ∨
      (fetched m h)[i]? = some ev ∧ ¬ InBatch m h s i := by
  obtain ⟨pre, hpre⟩ := hs
  have hwhole : fetched m ((s, e) :: h) = pre ++ (dropped ++ t.monitor.batch) := by
    rw [fetched, ← hpre, List.append_assoc, hd]
  rw [hwhole] at hev
  rcases Nat.lt_or_ge i pre.length with hlt | hge
  · refine .inr (.inr ⟨?_, ?_⟩)
    · rw [List.getElem?_append_left hlt] at hev
      rw [← hpre, List.getElem?_append_left hlt, hev]
    · rintro ⟨-, hle⟩
      rw [← hpre, List.length_append] at hle
      omega
  · have hlen : i < (pre ++ (dropped ++ t.monitor.batch)).length :=
      (List.getElem?_eq_some_iff.mp hev).1
    rw [List.getElem?_append_right hge] at hev
    rcases Nat.lt_or_ge (i - pre.length) dropped.length with hlt | hge'
    · rw [List.getElem?_append_left hlt] at hev
      exact .inr (.inl (List.mem_of_getElem? hev))
    · refine .inl ⟨hwhole ▸ hlen, ?_⟩
      rw [hwhole, List.length_append, List.length_append]
      omega

/-- Every driving event is in the batch or was discarded: the step. -/
theorem kept_of_step (hr : Run step ⟨m, .wait⟩ h s) (hs : step s e = some t)
    (hsuffix : s.monitor.batch <:+ fetched m h)
    (ih : ∀ i ev, (fetched m h)[i]? = some ev → drivesSync ev.mask = true →
      InBatch m h s i ∨ Discarded m h i)
    (i : ℕ) (ev : InotifyEvent) (hev : (fetched m ((s, e) :: h))[i]? = some ev)
    (hdrives : drivesSync ev.mask = true) :
    InBatch m ((s, e) :: h) t i ∨ Discarded m ((s, e) :: h) i := by
  cases e with
  | wait k rounds =>
    obtain ⟨dropped, hd, hidle⟩ := drops_of_wait hs
    rcases kept_of_drops hsuffix hd hev with hin | hmem | ⟨hold, hgone⟩
    · exact .inl hin
    · exact absurd hdrives (hidle ev hmem)
    · exact .inr (((ih i ev hold hdrives).resolve_left hgone).cons s _)
  | discard k =>
    have hpc : s.pc = .discard := by
      cases stepped hs with
      | discard hp => exact hp
    obtain ⟨hnone, -⟩ := fetchedBy_discard (held_of_run hr) hs
    rw [fetched, hnone, List.append_nil] at hev
    rcases ih i ev hev hdrives with hin | hgone
    · obtain ⟨before, u, l, rounds, rfl, hret⟩ := woken hr hpc
      exact .inr ⟨[], before, u, s, l, k, rounds, rfl, hret, hin⟩
    · exact .inr (hgone.cons s _)

theorem suffix_of_step (hh : Held s) (hs : step s e = some t)
    (hsuffix : s.monitor.batch <:+ fetched m h) :
    t.monitor.batch <:+ fetched m ((s, e) :: h) := by
  cases e with
  | wait k rounds =>
    obtain ⟨dropped, hd, -⟩ := drops_of_wait hs
    exact suffix_of_drops hsuffix hd
  | discard k =>
    rw [(fetchedBy_discard hh hs).2]
    exact List.nil_suffix

theorem suffix_of_run (hr : Run step ⟨m, .wait⟩ h s) : s.monitor.batch <:+ fetched m h := by
  induction hr with
  | refl => exact List.suffix_refl m.batch
  | snoc hr hs ih => exact suffix_of_step (held_of_run hr) hs ih

theorem kept_of_run (hr : Run step ⟨m, .wait⟩ h s) (i : ℕ) (ev : InotifyEvent)
    (hev : (fetched m h)[i]? = some ev) (hdrives : drivesSync ev.mask = true) :
    InBatch m h s i ∨ Discarded m h i := by
  induction hr generalizing i ev with
  | refl => exact .inl ⟨(List.getElem?_eq_some_iff.mp hev).1, Nat.le_add_left ..⟩
  | snoc hr hs ih => exact kept_of_step hr hs (suffix_of_run hr) ih i ev hev hdrives

theorem always_of_held {d : Loop → Event → Prop} (hr : Run step ⟨m, .wait⟩ h s)
    (hd : ∀ s e t, Held s → step s e = some t → d s e) : Always (fun _ s e => d s e) h := by
  induction hr with
  | refl => trivial
  | snoc hr hs ih => exact ⟨hd _ _ _ (held_of_run hr) hs, ih⟩

/-- The monitor never blocks the loop and swallows nothing that drives it. -/
theorem watchful_of_run (hr : Run step ⟨m, .wait⟩ h s) : Watchful m h s where
  unblocked := always_of_held hr fun _ _ _ hh hs => unblocked hh hs
  terminates := fun k => wait_terminates k s.monitor
  idle := by
    refine always_of_held hr ?_
    intro s e _ _ _ t hs hret
    cases e with
    | wait k rounds =>
      obtain ⟨dropped, hd, hidle⟩ := drops_of_wait hs
      exact ⟨dropped, hd, fun ev hev => InotifyEvent.bare (hidle ev hev)⟩
    | discard k => cases hret
  suffix := suffix_of_run hr
  kept := kept_of_run hr

def rootOnly : Monitor := ⟨[(1, Path.here)], []⟩

/-- A poll that finds the descriptor ready, and one event in the root to read. -/
def one (mask : Mask) : Kernel where
  poll _ := .available false false false
  read _ := .filled (layout 0 ⟨ascii "a", 1, mask⟩)
  resync _ := ⟨[Path.here], 1, []⟩

/-- A file is created, and by the next wait it is closed. -/
theorem fileWritten_watchful :
    ∃ h s, Run step ⟨rootOnly, .wait⟩ h s ∧
      fetched rootOnly h = [⟨some (ascii "./a"), created⟩, ⟨some (ascii "./a"), closeWrite⟩] ∧
      Discarded rootOnly h 1 ∧ Watchful rootOnly h s := by
  obtain ⟨h, s, hr, hf, hs⟩ := exists_run step ⟨rootOnly, .wait⟩
    [.wait (one created) 2, .wait (one closeWrite) 2, .discard (one closeWrite)]
    (fun h s => fetched rootOnly h =
      [⟨some (ascii "./a"), created⟩, ⟨some (ascii "./a"), closeWrite⟩] ∧ s.monitor.batch = [])
    (by decide +kernel)
  have hw := watchful_of_run hr
  refine ⟨h, s, hr, hf, ?_, hw⟩
  refine (hw.kept 1 ⟨some (ascii "./a"), closeWrite⟩ (by rw [hf]; rfl) (by decide)).resolve_left ?_
  rintro ⟨hlt, hle⟩
  rw [hs, List.length_nil] at hle
  omega

end SyncFs.MonitorWaits
