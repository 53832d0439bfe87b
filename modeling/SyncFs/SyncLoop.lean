import SyncFs.Announcements
import SyncFs.LabelledRuns

/-!
# The sync loop

A node is its replica, the alerts libtorrent queues for it and the place its
loop has reached. Everything else that moves it comes in between two of the
loop's own steps: the clock, the processes that write in the directory and
libtorrent's threads.
-/

namespace SyncFs

open CharConversions LabelledRuns

inductive AlertKind
  | torrentFinished
  | cacheFlushed
  | other
  deriving DecidableEq

structure Alert where
  kind : AlertKind
  handle : ℕ
  timestamp : SteadyTime
  deriving DecidableEq

/-- Where the loop is: what it does next. -/
inductive Pc
  | top
  | test
  | pop
  | process (alerts : List Alert)
  | clear
  | wait
  | sending (diff : Diff) (current : FileMap)
  | round
  | repair
  | receive
  | stopped

structure Node where
  replica : Replica
  alerts : List Alert
  alertReady : Bool
  pc : Pc
  clock : TimePoint
  steady : SteadyTime
  now : SteadyTime
  lastStats : SteadyTime
  lastChange : SteadyTime
  lastState : SteadyTime
  settled : Bool
  sent : List (List Bytes)

inductive Event
  -- Time passes, on both clocks.
  | tick (elapsed : ℕ)
  -- Another process puts a file in place, or takes one away.
  | localWrite (path : Path) (file : File)
  | localDelete (path : Path)
  -- A directory is made or touched, by libtorrent or another process, or taken away.
  | directory (path : Path) (time : Option FileTime)
  -- libtorrent works on the file of a torrent.
  | ltOpen (handle : ℕ)
  | ltVerify (handle offset length : ℕ)
  | ltWrite (handle offset length : ℕ)
  | ltState (handle : ℕ) (state : TorrentState)
  | post (kind : AlertKind) (handle : ℕ)
  -- The loop takes its next step.
  | advance
  -- The monitor has returned. Where a change drives a sync the tree is listed, but
  -- for what the walk has missed.
  | woken (missed : Option (List Path))
  | round (draw : ℕ)
  | receive (message : Option (List Bytes))
  deriving DecidableEq

section

variable (w : World)

/-- The wall clock instant an alert was made at. -/
def alertTime (n : Node) (alert : Alert) : FileTime :=
  toFileTime (n.clock - (n.steady - alert.timestamp))

def processAlert (n : Node) (alert : Alert) : Replica :=
  match n.replica.session.find alert.handle with
  | none => n.replica
  | some t =>
    match alert.kind with
    | .torrentFinished =>
      { n.replica with
        session := n.replica.session.modify alert.handle fun t => { t with flushing := true } }
    | .cacheFlushed => stampAndRemember w n.replica (w.heldPath t) (alertTime n alert)
    | .other => n.replica

def allSettled (s : Session) : Bool :=
  s.torrents.all fun t => t.state = .seeding || t.state = .finished

def stateDue (n : Node) : Bool :=
  let sinceState := n.now - n.lastState
  let quiescent := n.settled && n.now - n.lastChange ≥ quiescenceWindow
  sinceState ≥ stateCeiling || (quiescent && sinceState ≥ period)

def statsInterval : ℤ := seconds 2

/-- The root hash, and the one peer that is sent a digest. -/
def publishState (n : Node) (draw : ℕ) : Node :=
  let r := n.replica
  let mine := hash w.sha256 r.former r.tombstones
  let peers := forgetSilent r.peers n.now
  let asked := (pick draw peers mine).toList.map fun target =>
    Source.digest target (encodeHeld r.former) (encodeTombstones r.tombstones)
  { n with
    lastState := n.now
    replica := { r with peers := peers }
    sent := n.sent ++ Source.state w mine :: asked }

/-- The top of the loop: the time of the pass, and the statistics when they are due. -/
def beginPass (n : Node) : Node :=
  let n := { n with pc := .test, now := n.steady }
  if n.now - n.lastStats ≥ statsInterval then
    { n with lastStats := n.lastStats + statsInterval, settled := allSettled n.replica.session }
  else n

/-- The changes said, the listing taken over and the spent marks dropped. -/
def sendChanges (n : Node) (diff : Diff) (current : FileMap) : Node :=
  let (written, tombstones) :=
    forgetSpentMarks current n.replica.inbound.written n.replica.tombstones n.clock
  { n with
    pc := .round
    sent := n.sent ++ send w n.replica.toTree diff current n.clock
    replica := { n.replica with
      former := current
      tombstones := tombstones
      inbound := { n.replica.inbound with written := written } } }

def sendRepairs (n : Node) : Node :=
  let (r, said) := publishRepairs w n.replica n.now
  { n with pc := .receive, replica := r, sent := n.sent ++ said }

def advance (n : Node) : Option Node :=
  match n.pc with
  | .top => some (beginPass n)
  | .test => some { n with pc := if n.alertReady then .pop else .wait }
  | .pop => some { n with pc := .process n.alerts, alerts := [] }
  | .process [] => some { n with pc := .clear }
  | .process (alert :: rest) => some { n with pc := .process rest, replica := processAlert w n alert }
  | .clear => some { n with pc := .wait, alertReady := false }
  | .sending diff current => some (sendChanges w n diff current)
  | .repair => some (sendRepairs w n)
  | _ => none

/-- The changes worth announcing in a listing, and the tombstones it leaves. -/
def changesAt (n : Node) (current : FileMap) : Diff × TombstoneMap :=
  localChanges n.replica.former current n.replica.inbound.written n.replica.tombstones n.clock

def listChanges (n : Node) (current : FileMap) : Node :=
  { n with
    pc := .sending (changesAt n current).1 current
    lastChange := n.now
    replica := { n.replica with tombstones := (changesAt n current).2 } }

def takeIn (n : Node) (v : List Bytes) : Node :=
  match receiveOne w v n.clock n.steady n.replica with
  | .error r => { n with pc := .stopped, replica := r }
  | .ok r => { n with pc := .top, replica := r }

def Node.fileClock (n : Node) : FileTime := toFileTime n.clock

/-- libtorrent's hand on one torrent of the session and its file. -/
def Node.touch (n : Node) (t : Torrent) (file : File) (f : Torrent → Torrent) : Node :=
  { n with replica := { n.replica with
    disk := n.replica.disk.insert (w.spot t) file
    session := n.replica.session.modify t.handle f } }

def Node.verified (n : Node) (t : Torrent) (offset length : ℕ) : Node :=
  { n with replica := { n.replica with
    session := n.replica.session.modify t.handle (Torrent.onDisk offset length) } }

def ltOpen (n : Node) (t : Torrent) : Option Node :=
  if n.replica.blocked (w.spot t) || !n.replica.houses (w.spot t) then none
  else
    some (n.touch w t
      (openedFile n.replica.disk[w.spot t]? t.info.content n.fileClock)
      fun t => { t with opened := true })

def ltVerify (n : Node) (t : Torrent) (offset length : ℕ) : Option Node :=
  match n.replica.disk[w.spot t]? with
  | none => none
  | some file =>
    if t.opened ∧ (file.content.drop offset).take length = (t.info.content.drop offset).take length
    then some (n.verified t offset length)
    else none

/-- A range written; the file takes the time of the write. -/
def ltWrite (n : Node) (t : Torrent) (offset length : ℕ) : Option Node :=
  match n.replica.disk[w.spot t]? with
  | none => none
  | some file =>
    if t.opened ∧ offset + length ≤ t.info.content.length then
      some (n.touch w t ⟨overwrite file.content t.info.content offset length, n.fileClock⟩
        (Torrent.onDisk offset length))
    else none

/-- Whether libtorrent has this alert to make: a flush only once one was asked
for and everything is on disk. -/
def mayPost (s : Session) (kind : AlertKind) (handle : ℕ) : Bool :=
  match kind with
  | .cacheFlushed => (s.find handle).any fun t => t.flushing && t.complete
  | .torrentFinished => (s.find handle).isSome
  | .other => true

/-- An alert queued, and the callback it runs when the queue was empty. -/
def post (n : Node) (kind : AlertKind) (handle : ℕ) : Option Node :=
  if mayPost n.replica.session kind handle then
    some { n with
      alerts := n.alerts ++ [⟨kind, handle, n.steady⟩]
      alertReady := n.alertReady || n.alerts.isEmpty }
  else none

def step (n : Node) : Event → Option Node
  | .tick elapsed => some { n with clock := n.clock + elapsed, steady := n.steady + elapsed }
  | .localWrite path file =>
    if path.IsKey ∧ ¬ n.replica.blocked path ∧ n.replica.houses path then
      some { n with replica := { n.replica with disk := n.replica.disk.insert path file } }
    else none
  | .localDelete path =>
    some { n with replica := { n.replica with disk := n.replica.disk.erase path } }
  | .directory path time =>
    (n.replica.changeDirectory path time).map fun directories =>
      { n with replica := { n.replica with directories := directories } }
  | .ltOpen handle => (n.replica.session.find handle).bind (ltOpen w n)
  | .ltVerify handle offset length =>
    (n.replica.session.find handle).bind fun t => ltVerify w n t offset length
  | .ltWrite handle offset length =>
    (n.replica.session.find handle).bind fun t => ltWrite w n t offset length
  | .ltState handle state =>
    some { n with replica := { n.replica with
      session := n.replica.session.modify handle fun t => { t with state := state } } }
  | .post kind handle => post n kind handle
  | .advance => advance w n
  | .woken missed =>
    match n.pc with
    | .wait =>
      some (match missed with
        | none => { n with pc := .round }
        | some missed => listChanges n (n.replica.disk.listBut missed))
    | _ => none
  | .round draw =>
    match n.pc with
    | .round =>
      some { if stateDue n then publishState w n draw else n with pc := .repair }
    | _ => none
  | .receive message =>
    match n.pc with
    | .receive =>
      some (match message with
        | none => { n with pc := .top }
        | some v => takeIn w n v)
    | _ => none

/-- Where an event keeps a file from being found: a directory is put there, or a
listing misses it. -/
def Event.hides : Event → List Path
  | .directory path (some _) => [path]
  | .woken (some missed) => missed
  | _ => []

/-- What the step lists, if it lists the tree. -/
def listed (n : Node) (e : Event) : Option FileMap :=
  match n.pc, e with
  | .wait, .woken (some missed) => some (n.replica.disk.listBut missed)
  | _, _ => none

theorem listed_eq_some {n : Node} {e : Event} {current : FileMap} (h : listed n e = some current) :
    ∃ missed, n.pc = .wait ∧ e = .woken (some missed) ∧ current = n.replica.disk.listBut missed := by
  unfold listed at h
  split at h
  · next missed hp => exact ⟨missed, hp, rfl, (Option.some.inj h).symm⟩
  · cases h

theorem listed_list {n : Node} {missed : List Path} (h : n.pc = .wait) :
    listed n (.woken (some missed)) = some (n.replica.disk.listBut missed) := by
  unfold listed
  rw [h]

theorem getElem?_touch {n : Node} {t : Torrent} {file : File} {f : Torrent → Torrent} {p : Path} :
    (n.touch w t file f).replica.disk[p]? =
      if w.spot t = p then some file else n.replica.disk[p]? :=
  PathMap.getElem?_insert

/-- What each event can do, with all it asks for. -/
inductive Stepped (n : Node) : Event → Node → Prop
  | tick (elapsed : ℕ) :
    Stepped n (.tick elapsed) { n with clock := n.clock + elapsed, steady := n.steady + elapsed }
  | localWrite {path : Path} {file : File} (key : path.IsKey)
    (housed : n.replica.houses path = true) :
    Stepped n (.localWrite path file)
      { n with replica := { n.replica with disk := n.replica.disk.insert path file } }
  | localDelete (path : Path) :
    Stepped n (.localDelete path)
      { n with replica := { n.replica with disk := n.replica.disk.erase path } }
  | directory {path : Path} {time : Option FileTime} {directories : PathMap FileTime}
    (changes : n.replica.changeDirectory path time = some directories) :
    Stepped n (.directory path time)
      { n with replica := { n.replica with directories := directories } }
  | ltOpen {handle : ℕ} {t : Torrent} (found : n.replica.session.find handle = some t)
    (housed : n.replica.houses (w.spot t) = true) :
    Stepped n (.ltOpen handle)
      (n.touch w t (openedFile n.replica.disk[w.spot t]? t.info.content n.fileClock)
        fun t => { t with opened := true })
  | ltVerify {handle offset length : ℕ} {t : Torrent} {file : File}
    (found : n.replica.session.find handle = some t) (present : n.replica.disk[w.spot t]? = some file)
    (opened : t.opened = true)
    (agrees : (file.content.drop offset).take length = (t.info.content.drop offset).take length) :
    Stepped n (.ltVerify handle offset length) (n.verified t offset length)
  | ltWrite {handle offset length : ℕ} {t : Torrent} {file : File}
    (found : n.replica.session.find handle = some t) (present : n.replica.disk[w.spot t]? = some file)
    (opened : t.opened = true) (inside : offset + length ≤ t.info.content.length) :
    Stepped n (.ltWrite handle offset length)
      (n.touch w t ⟨overwrite file.content t.info.content offset length, n.fileClock⟩
        (Torrent.onDisk offset length))
  | ltState (handle : ℕ) (state : TorrentState) :
    Stepped n (.ltState handle state)
      { n with replica := { n.replica with
        session := n.replica.session.modify handle fun t => { t with state := state } } }
  | post {kind : AlertKind} {handle : ℕ} (may : mayPost n.replica.session kind handle = true) :
    Stepped n (.post kind handle)
      { n with
        alerts := n.alerts ++ [⟨kind, handle, n.steady⟩]
        alertReady := n.alertReady || n.alerts.isEmpty }
  | top (at_top : n.pc = .top) : Stepped n .advance (beginPass n)
  | test (at_test : n.pc = .test) :
    Stepped n .advance { n with pc := if n.alertReady then .pop else .wait }
  | pop (at_pop : n.pc = .pop) : Stepped n .advance { n with pc := .process n.alerts, alerts := [] }
  | processed (at_process : n.pc = .process []) : Stepped n .advance { n with pc := .clear }
  | process {alert : Alert} {rest : List Alert} (at_process : n.pc = .process (alert :: rest)) :
    Stepped n .advance { n with pc := .process rest, replica := processAlert w n alert }
  | clear (at_clear : n.pc = .clear) :
    Stepped n .advance { n with pc := .wait, alertReady := false }
  | send {diff : Diff} {current : FileMap} (at_sending : n.pc = .sending diff current) :
    Stepped n .advance (sendChanges w n diff current)
  | repair (at_repair : n.pc = .repair) : Stepped n .advance (sendRepairs w n)
  | idle (at_wait : n.pc = .wait) : Stepped n (.woken none) { n with pc := .round }
  | list {missed : List Path} (at_wait : n.pc = .wait) :
    Stepped n (.woken (some missed)) (listChanges n (n.replica.disk.listBut missed))
  | round {draw : ℕ} (at_round : n.pc = .round) :
    Stepped n (.round draw) { if stateDue n then publishState w n draw else n with pc := .repair }
  | nothing (at_receive : n.pc = .receive) : Stepped n (.receive none) { n with pc := .top }
  | receive {v : List Bytes} (at_receive : n.pc = .receive) :
    Stepped n (.receive (some v)) (takeIn w n v)

theorem stepped {n m : Node} {e : Event} (h : step w n e = some m) : Stepped w n e m := by
  cases e with
  | tick elapsed => obtain rfl := Option.some.inj h; exact .tick elapsed
  | localWrite path file =>
    obtain ⟨⟨hk, -, hh⟩, hm⟩ := Option.ite_none_right_eq_some.mp h
    obtain rfl := Option.some.inj hm
    exact .localWrite hk hh
  | localDelete path => obtain rfl := Option.some.inj h; exact .localDelete path
  | directory path time =>
    obtain ⟨directories, hd, rfl⟩ := Option.map_eq_some_iff.mp h
    exact .directory hd
  | ltOpen handle =>
    obtain ⟨t, ht, hm⟩ := Option.bind_eq_some_iff.mp h
    obtain ⟨hh, hm⟩ := Option.ite_none_left_eq_some.mp hm
    obtain rfl := Option.some.inj hm
    simp only [Bool.or_eq_true, not_or, Bool.not_eq_true, Bool.not_eq_false'] at hh
    exact .ltOpen ht hh.2
  | ltVerify handle offset length =>
    obtain ⟨t, ht, hm⟩ := Option.bind_eq_some_iff.mp h
    rw [ltVerify] at hm
    split at hm
    · cases hm
    · next file hf =>
      obtain ⟨⟨ho, ha⟩, hm⟩ := Option.ite_none_right_eq_some.mp hm
      obtain rfl := Option.some.inj hm
      exact .ltVerify ht hf ho ha
  | ltWrite handle offset length =>
    obtain ⟨t, ht, hm⟩ := Option.bind_eq_some_iff.mp h
    rw [ltWrite] at hm
    split at hm
    · cases hm
    · next file hf =>
      obtain ⟨⟨ho, hi⟩, hm⟩ := Option.ite_none_right_eq_some.mp hm
      obtain rfl := Option.some.inj hm
      exact .ltWrite ht hf ho hi
  | ltState handle state => obtain rfl := Option.some.inj h; exact .ltState handle state
  | post kind handle =>
    obtain ⟨hp, hm⟩ := Option.ite_none_right_eq_some.mp h
    obtain rfl := Option.some.inj hm
    exact .post hp
  | advance =>
    change advance w n = some m at h
    rw [advance] at h
    split at h
    all_goals first | (obtain rfl := Option.some.inj h) | cases h
    · next hp => exact .top hp
    · next hp => exact .test hp
    · next hp => exact .pop hp
    · next hp => exact .processed hp
    · next hp => exact .process hp
    · next hp => exact .clear hp
    · next hp => exact .send hp
    · next hp => exact .repair hp
  | woken missed =>
    simp only [step] at h
    split at h
    · next hp =>
      obtain rfl := Option.some.inj h
      cases missed with
      | none => exact .idle hp
      | some missed => exact .list hp
    · cases h
  | round draw =>
    simp only [step] at h
    split at h
    · next hp => obtain rfl := Option.some.inj h; exact .round hp
    · cases h
  | receive message =>
    simp only [step] at h
    split at h
    · next hp =>
      obtain rfl := Option.some.inj h
      cases message with
      | none => exact .nothing hp
      | some v => exact .receive hp
    · cases h

inductive Processed (n : Node) (alert : Alert) : Replica → Prop
  | skipped : Processed n alert n.replica
  | finished : Processed n alert { n.replica with
      session := n.replica.session.modify alert.handle fun t => { t with flushing := true } }
  | flushed {t : Torrent} {r : Replica} (flushes : alert.kind = .cacheFlushed)
    (found : n.replica.session.find alert.handle = some t)
    (stamps : StampsAs w n.replica (w.heldPath t) (alertTime n alert) r) : Processed n alert r

theorem processed (n : Node) (alert : Alert) : Processed w n alert (processAlert w n alert) := by
  rw [processAlert]
  cases hf : n.replica.session.find alert.handle with
  | none => exact .skipped
  | some t =>
    cases hk : alert.kind with
    | torrentFinished => exact .finished
    | cacheFlushed => exact .flushed hk hf (stampsAs w _ _ _)
    | other => exact .skipped

/-- A node at the top of its first iteration. The times its directories have, and
the directories with no file in them, are the first events of its run. -/
def Node.start (disk : Disk) (clock : TimePoint) (steady : SteadyTime) : Node where
  replica :=
    { disk := disk
      directories := disk.directories (toFileTime clock)
      session := .empty
      former := disk.list
      tombstones := ∅
      inbound := ⟨∅, ∅⟩
      repairs := ⟨∅, ∅, ∅⟩
      peers := ∅ }
  alerts := []
  alertReady := false
  pc := .top
  clock := clock
  steady := steady
  now := steady
  lastStats := steady
  lastChange := steady
  lastState := steady
  settled := true
  sent := []

end

/-- A machine whose torrents are the path and the content themselves. -/
def sampleWorld : World where
  root := Path.ofNative (ascii "/home/sync")
  root_rooted := by decide
  root_plain := by decide
  endpoint := ascii "tcp://10.0.0.1:5555"
  sha256 := sampleSha256
  loadTorrentBuffer b := (ClosedFields.cut nul b).map fun e =>
    ⟨b.foldl (fun n c => n * 257 + c.toNat + 1) 0, Path.ofNative e.1, e.2, []⟩
  generateBuf path content := path.lexicallyNormal.native ++ nul :: content

/-- The rest of a pass once the alerts are dealt with. -/
def afterAlerts (driven : Bool) (message : Option (List Bytes)) : List Event :=
  [.woken (if driven then some [] else none)] ++ (if driven then [.advance] else []) ++
    [.round 0, .advance, .receive message]

def pass (driven : Bool) (message : Option (List Bytes)) : List Event :=
  [.advance, .advance] ++ afterAlerts driven message

def drainPass (alerts : ℕ) (driven : Bool) (message : Option (List Bytes)) : List Event :=
  List.replicate (alerts + 5) .advance ++ afterAlerts driven message

def samplePath : Path := Path.ofNative (ascii "./a")

def sampleFile (content : String) (ticks : ℤ) : File := ⟨ascii content, toFileTime ticks⟩

def sampleCreate (content : String) (ticks : ℤ) : List Bytes :=
  announce (sampleWorld.generateBuf samplePath (ascii content)) (toFileTime ticks) samplePath

end SyncFs
