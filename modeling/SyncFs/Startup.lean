import SyncFs.Completion
import SyncFs.DigestAddresses
import SyncFs.DigestPartners
import SyncFs.ListenAddresses
import SyncFs.PeersFile
import SyncFs.StateRounds

/-!
# From the command line to the loop

`main` judges its arguments before it opens a socket, sets up what it hears and
what it publishes on, and reads the listen address a second time for the loop.
-/

namespace SyncFs.Startup

open CharConversions ClosedFields LabelledRuns ListenAddresses Completion

def announcementBacklog : ℕ := 100000

/-- What a socket queues that was told nothing. -/
def defaultHwm : ℕ := 1000

/-- An address and the high water mark its socket had by then, which is the one
that counts for it. -/
structure Attached where
  address : Bytes
  hwm : ℕ
  deriving DecidableEq

structure Listener where
  subscriptions : List Bytes
  rcvhwm : ℕ
  connections : List Attached
  deriving DecidableEq

structure Client where
  sndhwm : ℕ
  bindings : List Attached
  deriving DecidableEq

inductive Call
  | context
  | listener
  | subscribe (beginning : Bytes)
  | rcvhwm (hwm : ℕ)
  | connect (address : Bytes)
  | client
  | sndhwm (hwm : ℕ)
  | bind (address : Bytes)
  deriving DecidableEq

/-- The two sockets, and every call made for them so far. -/
structure Sockets where
  calls : List Call
  listener : Listener
  client : Client
  deriving DecidableEq

inductive Fatal
  | usage
  | critical (line : Bytes)
  | zmq (calls : List Call)
  | exception (thrown : Thrown)
  deriving DecidableEq

structure Started where
  sockets : Sockets
  host : Bytes
  port : ℕ
  deriving DecidableEq

-- which calls throw, by all the calls up to and with this one
variable (throws : List Call → Bool)

def Sockets.call (s : Sockets) (call : Call) (does : Sockets → Sockets) : Except Fatal Sockets :=
  let calls := s.calls ++ [call]
  if throws calls then .error (.zmq calls) else .ok { does s with calls := calls }

def Sockets.subscribe (s : Sockets) (beginning : Bytes) : Except Fatal Sockets :=
  s.call throws (.subscribe beginning) fun s =>
    { s with listener := { s.listener with
      subscriptions := s.listener.subscriptions ++ [beginning] } }

def Sockets.connect (s : Sockets) (address : Bytes) : Except Fatal Sockets :=
  s.call throws (.connect address) fun s =>
    { s with listener := { s.listener with
      connections := s.listener.connections ++ [⟨address, s.listener.rcvhwm⟩] } }

def Sockets.bind (s : Sockets) (address : Bytes) : Except Fatal Sockets :=
  s.call throws (.bind address) fun s =>
    { s with client := { s.client with
      bindings := s.client.bindings ++ [⟨address, s.client.sndhwm⟩] } }

def Sockets.setRcvhwm (s : Sockets) (hwm : ℕ) : Except Fatal Sockets :=
  s.call throws (.rcvhwm hwm) fun s => { s with listener := { s.listener with rcvhwm := hwm } }

def Sockets.setSndhwm (s : Sockets) (hwm : ℕ) : Except Fatal Sockets :=
  s.call throws (.sndhwm hwm) fun s => { s with client := { s.client with sndhwm := hwm } }

def noSockets : Sockets := ⟨[], ⟨[], defaultHwm, []⟩, ⟨defaultHwm, []⟩⟩

def openSockets (peers : List Bytes) (address : Bytes) : Except Fatal Sockets := do
  let s ← noSockets.call throws .context id
  let s ← s.call throws .listener id
  let s ← (SyncFs.subscribe address).foldlM (Sockets.subscribe throws) s
  let s ← s.setRcvhwm throws announcementBacklog
  let s ← peers.foldlM (Sockets.connect throws) s
  let s ← s.connect throws address
  let s ← s.call throws .client id
  let s ← s.setSndhwm throws announcementBacklog
  s.bind throws address

-- what stands at a path
variable (files : Bytes → PeersFile.File)

/-- The peers `main` goes on with, or what it says on its way out. -/
def checkArguments (peersFile listen : Bytes) : Except Fatal (List Bytes) := do
  let peers ← (PeersFile.parse peersFile (files peersFile)).mapError .critical
  if peers = [] then
    throw (.critical (ascii "No peers in \"" ++ peersFile ++ ascii "\""))
  (checkListenAddress listen).mapError fun unusable =>
    .critical (ascii "Unusable listen address: " ++ unusable)
  return peers

def startUp (args : List Bytes) : Except Fatal Started :=
  match args with
  | _ :: peersFile :: listen :: _ => do
    let peers ← checkArguments files peersFile listen
    let sockets ← openSockets throws peers (myAddress listen)
    let (host, port) ← (parseHostPort listen).mapError .exception
    return ⟨sockets, host, unsignedShort port⟩
  | _ => .error .usage

def Started.endpoint (d : Started) : Bytes := ListenAddresses.endpoint d.host d.port

def Started.libtorrentPort (d : Started) : ℕ := (d.port + 2000) % 65536

variable {throws files}

def Threw (throws : List Call → Bool) (e : Fatal) : Prop :=
  ∃ calls, e = .zmq calls ∧ throws calls = true

theorem ends_call (s : Sockets) (call : Call) (does : Sockets → Sockets) :
    Ends (fun t => t.listener = (does s).listener ∧ t.client = (does s).client) (Threw throws)
      (s.call throws call does) := by
  rw [Sockets.call]
  dsimp only
  split
  · next hthrows => exact ⟨_, rfl, hthrows⟩
  · exact ⟨rfl, rfl⟩

theorem ends_subscribes (beginnings : List Bytes) (s : Sockets) :
    Ends (fun t => t.listener = { s.listener with
        subscriptions := s.listener.subscriptions ++ beginnings } ∧ t.client = s.client)
      (Threw throws) (beginnings.foldlM (Sockets.subscribe throws) s) := by
  induction beginnings generalizing s with
  | nil =>
    rw [List.append_nil]
    exact ⟨rfl, rfl⟩
  | cons beginning beginnings ih =>
    rw [List.foldlM_cons]
    refine (ends_call s _ _).bind fun t ht => (ih t).mono (fun u hu => ?_) fun _ => id
    obtain ⟨hl, hc⟩ := ht
    obtain ⟨hul, huc⟩ := hu
    rw [hul, huc, hl, hc]
    exact ⟨by simp, rfl⟩

theorem ends_connects (peers : List Bytes) (s : Sockets) :
    Ends (fun t => t.listener = { s.listener with
        connections := s.listener.connections ++ peers.map (⟨·, s.listener.rcvhwm⟩) } ∧
        t.client = s.client)
      (Threw throws) (peers.foldlM (Sockets.connect throws) s) := by
  induction peers generalizing s with
  | nil =>
    rw [List.map_nil, List.append_nil]
    exact ⟨rfl, rfl⟩
  | cons peer peers ih =>
    rw [List.foldlM_cons]
    refine (ends_call s _ _).bind fun t ht => (ih t).mono (fun u hu => ?_) fun _ => id
    obtain ⟨hl, hc⟩ := ht
    obtain ⟨hul, huc⟩ := hu
    rw [hul, huc, hl, hc]
    exact ⟨by simp, rfl⟩

structure Opened (peers : List Bytes) (address : Bytes) (s : Sockets) : Prop where
  subscriptions : s.listener.subscriptions = SyncFs.subscribe address
  connections : s.listener.connections = (peers ++ [address]).map (⟨·, announcementBacklog⟩)
  bindings : s.client.bindings = [⟨address, announcementBacklog⟩]

theorem ends_openSockets (peers : List Bytes) (address : Bytes) :
    Ends (Opened peers address) (Threw throws) (openSockets throws peers address) := by
  rw [openSockets]
  refine (ends_call _ _ _).bind fun s₁ h₁ => ?_
  refine (ends_call _ _ _).bind fun s₂ h₂ => ?_
  refine (ends_subscribes _ _).bind fun s₃ h₃ => ?_
  refine (ends_call _ _ _).bind fun s₄ h₄ => ?_
  refine (ends_connects _ _).bind fun s₅ h₅ => ?_
  refine (ends_call _ _ _).bind fun s₆ h₆ => ?_
  refine (ends_call _ _ _).bind fun s₇ h₇ => ?_
  refine (ends_call _ _ _).bind fun s₈ h₈ => ?_
  refine (ends_call _ _ _).mono (fun s₉ h₉ => ?_) fun _ => id
  have hlistener : s₉.listener = ⟨SyncFs.subscribe address, announcementBacklog,
      (peers ++ [address]).map (⟨·, announcementBacklog⟩)⟩ := by
    rw [h₉.1]
    simp [h₈.1, h₇.1, h₆.1, h₅.1, h₄.1, h₃.1, h₂.1, h₁.1, noSockets]
  have hclient : s₉.client = ⟨announcementBacklog, [⟨address, announcementBacklog⟩]⟩ := by
    rw [h₉.2]
    simp [h₈.2, h₇.2, h₆.2, h₅.2, h₄.2, h₃.2, h₂.2, h₁.2, noSockets]
  exact ⟨congrArg Listener.subscriptions hlistener, congrArg Listener.connections hlistener,
    congrArg Client.bindings hclient⟩

/-- One colon, and no zero leads the port. -/
def Plain (listen : Bytes) : Prop :=
  listen.count colon = 1 ∧ (portOf listen).bind List.head? ≠ some zero

instance (listen : Bytes) : Decidable (Plain listen) := by
  unfold Plain
  infer_instance

def peersOf (files : Bytes → PeersFile.File) (args : List Bytes) : List Bytes :=
  (PeersFile.parse (part args 1) (files (part args 1))).toOption.getD []

/-- What the arguments are of a daemon that is let through. -/
structure Checked (files : Bytes → PeersFile.File) (args : List Bytes) : Prop where
  peers : peersOf files args ≠ []
  listen : checkListenAddress (part args 2) = .ok ()

theorem ends_checkArguments (program peersFile listen : Bytes) (rest : List Bytes) :
    Ends (fun peers => Checked files (program :: peersFile :: listen :: rest) ∧
        peers = peersOf files (program :: peersFile :: listen :: rest))
      (fun e => ¬ Checked files (program :: peersFile :: listen :: rest) ∧
        ∃ line, e = .critical line)
      (checkArguments files peersFile listen) := by
  have hpeers : peersOf files (program :: peersFile :: listen :: rest) =
      (PeersFile.parse peersFile (files peersFile)).toOption.getD [] := rfl
  rw [checkArguments]
  cases hparse : PeersFile.parse peersFile (files peersFile) with
  | error e =>
    rw [hparse] at hpeers
    exact ⟨fun h => h.peers hpeers, _, rfl⟩
  | ok peers =>
    rw [hparse] at hpeers
    change Ends _ _ (if peers = [] then _ else _)
    split
    · next hempty =>
      exact ⟨fun h => h.peers (hpeers.trans hempty), _, rfl⟩
    · next hnonempty =>
      cases hcheck : checkListenAddress listen with
      | error e =>
        refine ⟨fun h => ?_, _, rfl⟩
        have hok := h.listen
        change checkListenAddress listen = .ok () at hok
        rw [hcheck] at hok
        cases hok
      | ok _ => exact ⟨⟨fun h => hnonempty (hpeers.symm.trans h), hcheck⟩, hpeers.symm⟩

/-- The loop is entered with its sockets open, on arguments that passed. -/
structure Enters (files : Bytes → PeersFile.File) (args : List Bytes) (d : Started) : Prop where
  checked : Checked files args
  opened : Opened (peersOf files args) (myAddress (part args 2)) d.sockets
  parsed : ∃ port, parseHostPort (part args 2) = .ok (d.host, port) ∧ d.port = unsignedShort port

/-- What keeps a daemon from the loop: arguments that do not pass, a call that
throws, or an address that passes and cannot be read a second time. -/
def Stops (throws : List Call → Bool) (files : Bytes → PeersFile.File) (args : List Bytes)
    (e : Fatal) : Prop :=
  ¬ Checked files args ∧ (e = .usage ∨ ∃ line, e = .critical line) ∨
    Checked files args ∧ (Threw throws e ∨
      ∃ thrown, e = .exception thrown ∧ parseHostPort (part args 2) = .error thrown)

theorem ends_startUp (args : List Bytes) :
    Ends (Enters files args) (Stops throws files args) (startUp throws files args) := by
  have hfew : part args 2 = [] → ¬ Checked files args := by
    intro hnone h
    have hok := h.listen
    rw [hnone] at hok
    exact absurd hok (by decide)
  match args with
  | [] | [_] | [_, _] => exact .inl ⟨hfew rfl, .inl rfl⟩
  | program :: peersFile :: listen :: rest =>
    rw [startUp]
    refine ((ends_checkArguments program peersFile listen rest).mono (fun _ => id)
      fun e he => .inl ⟨he.1, .inr he.2⟩).bind ?_
    rintro _ ⟨hchecked, rfl⟩
    refine ((ends_openSockets _ _).mono (fun _ => id)
      fun e he => .inr ⟨hchecked, .inl he⟩).bind fun s hopened => ?_
    cases hparse : parseHostPort listen with
    | error thrown => exact .inr ⟨hchecked, .inr ⟨thrown, rfl, hparse⟩⟩
    | ok parsed =>
      obtain ⟨host, port⟩ := parsed
      exact ⟨hchecked, hopened, port, hparse, rfl⟩

section

variable {args : List Bytes} {d : Started}

theorem enters_of_eq_ok (hd : startUp throws files args = .ok d) : Enters files args d := by
  have hends : Ends (Enters files args) (Stops throws files args) (startUp throws files args) :=
    ends_startUp args
  rw [hd] at hends
  exact hends

/-- What passed the check has a port, behind the first colon or a later one. -/
theorem Checked.split (h : Checked files args) : ∃ a b port n, part args 2 = a ++ colon :: b ∧
    colon ∉ a ∧ portOf (a ++ colon :: b) = some port ∧
    fromChars intMin intMax port = .ok (n, []) ∧ 0 < n ∧ n ≤ highest ∧
    anywhere (hostOf (a ++ colon :: b)) = false := by
  obtain ⟨hhost, port, n, hport, hn, h0, hhi⟩ := checkListenAddress_ok h.listen
  obtain ⟨a, b, hsplit, ha⟩ := List.eq_append_cons_of_mem (colon_mem_of_portOf hport)
  rw [hsplit] at hport hhost
  exact ⟨a, b, port, n, hsplit, ha, hport, hn, h0, hhi, hhost⟩

theorem Checked.publishesItself (h : Checked files args) (hp : Plain (part args 2)) :
    PublishesItself (part args 2) := by
  obtain ⟨a, b, port, n, hsplit, ha, hport, hn, h0, hhi, hhost⟩ := h.split
  obtain ⟨hcount, hzero⟩ := hp
  rw [hsplit] at hcount hzero ⊢
  have hcb : colon ∉ b := by
    intro hb
    have hpos := List.count_pos_iff.mpr hb
    rw [List.count_append, List.count_cons_self] at hcount
    omega
  rw [portOf_append hcb] at hport
  obtain rfl := Option.some.inj hport
  rw [portOf_append hcb, Option.bind_some] at hzero
  exact publishesItself_of_plain ha hcb hhost hn h0 hhi hzero

theorem Enters.endpoint_eq_iff (h : Enters files args d) :
    d.endpoint = myAddress (part args 2) ↔ Plain (part args 2) := by
  obtain ⟨port, hparse, hport⟩ := h.parsed
  rw [Started.endpoint, hport]
  constructor
  · intro hend
    obtain ⟨a, b, _, _, hsplit, ha, hportOf, hn, h0, -, -⟩ := h.checked.split
    rw [Plain]
    rw [hsplit] at hparse hend ⊢
    exact plain_of_endpoint_eq ha hportOf hn h0 hparse hend
  · intro hplain
    obtain ⟨host, n, hparse', -, -, -, hend⟩ := h.checked.publishesItself hplain
    rw [hparse, Except.ok.injEq, Prod.mk.injEq] at hparse'
    rw [hparse'.1, hparse'.2]
    exact hend

theorem Enters.libtorrentPort_eq (h : Enters files args d) (hp : Plain (part args 2)) :
    0 < d.port ∧ d.libtorrentPort = d.port + 2000 := by
  obtain ⟨port, hparse, hport⟩ := h.parsed
  obtain ⟨host, n, hparse', -, hpos, hroom, -⟩ := h.checked.publishesItself hp
  rw [hparse, Except.ok.injEq, Prod.mk.injEq] at hparse'
  rw [Started.libtorrentPort, hport, unsignedShort, hparse'.2]
  omega

/-- On arguments that pass, with a plain address, only a call that throws keeps
a daemon from its loop. It is entered with every connection and the binding
under the raised high water mark, and with libtorrent's port two thousand above
the one that is published, which is the one that was listened on. -/
theorem plain_starts (hc : Checked files args) (hp : Plain (part args 2)) :
    Ends (fun d => Opened (peersOf files args) (myAddress (part args 2)) d.sockets ∧
        d.endpoint = myAddress (part args 2) ∧ 0 < d.port ∧ d.libtorrentPort = d.port + 2000)
      (Threw throws) (startUp throws files args) := by
  refine (ends_startUp args).mono (fun d hd => ?_) fun e he => ?_
  · exact ⟨hd.opened, hd.endpoint_eq_iff.mpr hp, hd.libtorrentPort_eq hp⟩
  · rcases he with ⟨hn, -⟩ | ⟨-, hthrew | ⟨thrown, -, herror⟩⟩
    · exact absurd hc hn
    · exact hthrew
    · obtain ⟨host, n, hparse, -⟩ := hc.publishesItself hp
      rw [hparse] at herror
      cases herror

end

section

variable {w : World} {n m : Node} {e : Event} {v : List Bytes} {r r' : Replica}
variable {clock : TimePoint} {steady : SteadyTime}

theorem StampsAs.peers {path : Path} {writtenBy : FileTime} (h : StampsAs w r path writtenBy r') :
    r'.peers = r.peers := by
  cases h <;> rfl

theorem Processed.peers {alert : Alert} (h : Processed w n alert r') :
    r'.peers = n.replica.peers := by
  cases h with
  | skipped | finished => rfl
  | flushed _ _ stamps => exact StampsAs.peers stamps

theorem peers_applied {torrent : TorrentInfo} : (r.applied w v torrent).peers = r.peers := by
  obtain ⟨left, happlied, ⟨-, hs⟩ | ⟨-, rfl⟩⟩ := applied_cases w r v torrent
  · rw [happlied]
    have hleft : left.peers = (r.serving w v torrent).peers := StampsAs.peers hs
    exact hleft
  · rw [happlied]
    rfl

theorem peers_readDigest (h : readDigest w v clock steady r = .ok r') : r'.peers = r.peers := by
  rw [readDigest] at h
  cases had : adopt w (decodeTombstones (part v 2)) clock r with
  | error left =>
    rw [had] at h
    cases h
  | ok x =>
    obtain ⟨left, deleted⟩ := x
    have hleft : left.peers = r.peers := adopt_preserves (P := fun s => s.peers = r.peers) rfl
      (fun s p m _ hs => hs) (fun s left p m _ hs he => by
        obtain ⟨disk, -, rfl⟩ := erase_ok he
        exact hs) had
    rw [had] at h
    rw [← Except.ok.inj h]
    split
    · exact hleft
    · exact hleft

/-- A message that is no state leaves the record of the peers alone. -/
theorem peers_receiveOne (hs : verbOf (part v 0) ≠ ascii "state")
    (h : receiveOne w v clock steady r = .ok r') : r'.peers = r.peers := by
  rcases act_cases w v r with ⟨_, ha⟩ | ⟨path, hr, -⟩ | ⟨hn, -, ha⟩ | ⟨hn, -, message, ha⟩
  · rw [receiveOne, ha] at h
    rw [← Except.ok.inj h]
  · rw [receiveOne_remove hr] at h
    cases he : erase w r path with
    | error left =>
      rw [he] at h
      cases h
    | ok left =>
      obtain ⟨disk, -, rfl⟩ := erase_ok he
      rw [he] at h
      rw [← Except.ok.inj h]
      rfl
  · have hcreate : ∀ r, reconcileMessage w (ascii "create") v clock steady r = .ok r := fun r =>
      reconcileMessage_other (by decide) (by decide)
    rw [receiveOne, ha] at h
    rcases actCreate_cases w (ascii "create") (part v 1) (originOf v) (announcedPath v) r with
      ⟨-, _, hc⟩ | ⟨-, -, hc⟩ | ⟨-, _, -, -, _, hc⟩ | ⟨-, torrent, -, -, hc⟩
    · rw [hc] at h
      simp only [hn, hcreate] at h
      rw [← Except.ok.inj h]
    · rw [hc] at h
      cases h
    · rw [hc] at h
      simp only [hn, hcreate] at h
      rw [← Except.ok.inj h]
      rfl
    · rw [hc] at h
      simp only [hn] at h
      have happlied : Except.ok (r.applied w v torrent) = Except.ok r' := (hcreate _).symm.trans h
      rw [← Except.ok.inj happlied]
      exact peers_applied
  · rw [receiveOne, ha] at h
    simp only [hn] at h
    by_cases hd : verbOf (part v 0) = ascii "digest"
    · rw [reconcileMessage, if_neg hs, if_pos hd] at h
      exact peers_readDigest h
    · rw [reconcileMessage_other hs hd] at h
      rw [← Except.ok.inj h]

theorem mem_of_getElem?_peers {peers : StateMap} {endpoint : Bytes} {heard : Heard}
    (h : peers[endpoint]? = some heard) : endpoint ∈ peers :=
  Std.ExtTreeMap.mem_iff_isSome_getElem?.mpr (Option.isSome_iff_exists.mpr ⟨heard, h⟩)

theorem mem_insert_peers {peers : StateMap} {sender endpoint : Bytes} {heard : Heard} :
    endpoint ∈ peers.insert sender heard ↔ sender = endpoint ∨ endpoint ∈ peers := by
  rw [Std.ExtTreeMap.mem_insert, Std.compare_eq_iff_eq]

/-- A state was taken in that gave the endpoint for its sender's. -/
def HeardFrom (endpoint : Bytes) (h : History Node Event) : Prop :=
  ∃ x ∈ h, ∃ v, x.2 = .receive (some v) ∧ verbOf (part v 0) = ascii "state" ∧ part v 2 = endpoint

theorem HeardFrom.cons {t : Bytes} {h : History Node Event} (ht : HeardFrom t h)
    (x : Node × Event) : HeardFrom t (x :: h) := by
  obtain ⟨y, hy, hv⟩ := ht
  exact ⟨y, List.mem_cons_of_mem x hy, hv⟩

/-- A verb that goes to everybody, or a digest for somebody else who was heard. -/
def Addressed (w : World) (h : History Node Event) (v : List Bytes) : Prop :=
  part v 0 ∈ [ascii "create", ascii "remove", ascii "state"] ∨
    ∃ t held deleted, v = Source.digest t held deleted ∧ t ≠ w.endpoint ∧ HeardFrom t h

theorem Addressed.cons {h : History Node Event} (hv : Addressed w h v) (x : Node × Event) :
    Addressed w (x :: h) v := by
  rcases hv with hv | ⟨t, held, deleted, hv, hne, ht⟩
  · exact .inl hv
  · exact .inr ⟨t, held, deleted, hv, hne, ht.cons x⟩

/-- The peers on record were heard, and what was said went to everybody or to them. -/
structure Spoken (w : World) (h : History Node Event) (n : Node) : Prop where
  peers : n.pc ≠ .stopped → ∀ t ∈ n.replica.peers, t ≠ w.endpoint ∧ HeardFrom t h
  said : ∀ v ∈ n.sent, Addressed w h v

namespace Spoken

variable {h : History Node Event}

theorem start (w : World) (disk : Disk) (clock : TimePoint) (steady : SteadyTime) :
    Spoken w [] (.start disk clock steady) where
  peers _ _ ht := absurd ht Std.ExtTreeMap.not_mem_empty
  said _ hv := absurd hv List.not_mem_nil

theorem spread (hs : Spoken w h n) (hpc : m.pc ≠ .stopped → n.pc ≠ .stopped)
    (hp : m.replica.peers = n.replica.peers)
    (hv : ∀ v ∈ m.sent, v ∈ n.sent ∨ part v 0 ∈ [ascii "create", ascii "remove", ascii "state"]) :
    Spoken w ((n, e) :: h) m where
  peers hm t ht := by
    rw [hp] at ht
    obtain ⟨hne, hheard⟩ := hs.peers (hpc hm) t ht
    exact ⟨hne, hheard.cons _⟩
  said v hin := by
    rcases hv v hin with hin | hv
    · exact (hs.said v hin).cons _
    · exact .inl hv

theorem silent (hs : Spoken w h n) (hpc : m.pc ≠ .stopped → n.pc ≠ .stopped)
    (hp : m.replica.peers = n.replica.peers) (hv : m.sent = n.sent) :
    Spoken w ((n, e) :: h) m :=
  hs.spread hpc hp fun _ hin => .inl (hv ▸ hin)

theorem published (hs : Spoken w h n) (draw : ℕ) (hrunning : n.pc ≠ .stopped) :
    Spoken w ((n, .round draw) :: h) { publishState w n draw with pc := .repair } where
  peers _ t ht := by
    obtain ⟨heard, ht⟩ := Std.ExtTreeMap.mem_iff_isSome_getElem?.mp ht |> Option.isSome_iff_exists.mp
    have hin := (DigestPartners.getElem?_forgetSilent.mp ht).1
    obtain ⟨hne, hheard⟩ := hs.peers hrunning t (mem_of_getElem?_peers hin)
    exact ⟨hne, hheard.cons _⟩
  said v hv := by
    rcases List.mem_append.mp hv with hv | hv
    · exact (hs.said v hv).cons _
    · rcases List.mem_cons.mp hv with rfl | hv
      · exact .inl (by simp [Source.state, part])
      · obtain ⟨t, ht, rfl⟩ := List.mem_map.mp hv
        obtain ⟨heard, ht, -⟩ := (DigestPartners.pick_cases _ _ _).1 t (Option.mem_toList.mp ht)
        have hin := (DigestPartners.getElem?_forgetSilent.mp ht).1
        obtain ⟨hne, hheard⟩ := hs.peers hrunning t (mem_of_getElem?_peers hin)
        exact .inr ⟨t, _, _, rfl, hne, hheard.cons _⟩

/-- What a message says goes on record only if it is a state. -/
theorem received (hs : Spoken w h n) (hrunning : n.pc ≠ .stopped) :
    Spoken w ((n, .receive (some v)) :: h) (takeIn w n v) := by
  have hsaid : ∀ u ∈ n.sent, Addressed w ((n, .receive (some v)) :: h) u := fun u hu =>
    (hs.said u hu).cons _
  have hpeers : ∀ t ∈ n.replica.peers,
      t ≠ w.endpoint ∧ HeardFrom t ((n, .receive (some v)) :: h) := by
    intro t ht
    obtain ⟨hne, hheard⟩ := hs.peers hrunning t ht
    exact ⟨hne, hheard.cons _⟩
  rw [takeIn]
  split
  · exact ⟨fun h => absurd rfl h, hsaid⟩
  next r hr =>
  refine ⟨fun _ t ht => ?_, hsaid⟩
  by_cases hstate : verbOf (part v 0) = ascii "state"
  · by_cases hl : v.length = 3
    · rw [receiveOne_state_eq hstate hl] at hr
      rw [← Except.ok.inj hr] at ht
      split at ht
      · exact hpeers t ht
      · next hother =>
        rcases mem_insert_peers.mp ht with rfl | ht
        · exact ⟨hother, _, List.mem_cons_self, v, rfl, hstate, rfl⟩
        · exact hpeers t ht
    · have hparts := partsFor_of_verbOf hstate (show (ascii "state", 3) ∈ verbs by decide)
      have hbad : partsFor (part v 0) ≠ some v.length := by
        rw [hparts]
        exact fun h => hl (Option.some.inj h).symm
      rw [receiveOne_malformed hbad] at hr
      rw [← Except.ok.inj hr] at ht
      exact hpeers t ht
  · rw [peers_receiveOne hstate hr] at ht
    exact hpeers t ht

theorem step (hs : Spoken w h n) (he : Stepped w n e m) : Spoken w ((n, e) :: h) m := by
  cases he with
  | tick | directory | localWrite | localDelete | ltOpen | ltVerify | ltWrite | ltState | post =>
    exact hs.silent id rfl rfl
  | top hp =>
    rw [beginPass]
    split
    all_goals exact hs.silent (fun _ => by rw [hp]; rintro ⟨⟩) rfl rfl
  | test hp | pop hp | processed hp | clear hp | idle hp | nothing hp | list hp =>
    exact hs.silent (fun _ => by rw [hp]; rintro ⟨⟩) rfl rfl
  | @process alert rest hp =>
    exact hs.silent (fun _ => by rw [hp]; rintro ⟨⟩) (Processed.peers (processed w n alert)) rfl
  | send hp =>
    refine hs.spread (fun _ => by rw [hp]; rintro ⟨⟩) rfl fun v hv => ?_
    rcases List.mem_append.mp hv with hv | hv
    · exact .inl hv
    · rcases part_send hv with hverb | hverb
      · rw [hverb]
        exact .inr (by decide)
      · rw [hverb]
        exact .inr (by decide)
  | repair hp =>
    refine hs.spread (fun _ => by rw [hp]; rintro ⟨⟩) rfl fun v hv => ?_
    rcases List.mem_append.mp hv with hv | hv
    · exact .inl hv
    · obtain ⟨p, t, b, -, rfl, -⟩ := mem_publishRepairs hv
      exact .inr List.mem_cons_self
  | @round draw hp =>
    have hrunning : n.pc ≠ .stopped := by
      rw [hp]
      rintro ⟨⟩
    cases stateDue n with
    | false => exact hs.silent (fun _ => hrunning) rfl rfl
    | true => exact hs.published draw hrunning
  | @receive v hp => exact hs.received (by rw [hp]; rintro ⟨⟩)

theorem of_run {disk : Disk} (hr : Run (SyncFs.step w) (.start disk clock steady) h n) :
    Spoken w h n :=
  hr.invariant (c := fun _ _ _ => True) (start w disk clock steady)
    (fun _ _ _ _ _ hs _ he => hs.step (stepped w he)) (always_true h)

end Spoken

theorem Enters.nul_notMem_endpoint {args : List Bytes} {d : Started} (hd : Enters files args d)
    (hnul : nul ∉ part args 2) : nul ∉ d.endpoint := by
  obtain ⟨port, hparse, -⟩ := hd.parsed
  obtain ⟨a, b, _, _, hsplit, ha, -⟩ := hd.checked.split
  have hhost : d.host = a := by
    rw [hsplit, parseHostPort_append ha] at hparse
    split at hparse
    · cases hparse
    split at hparse
    · exact (Prod.mk.inj (Except.ok.inj hparse)).1.symm
    · cases hparse
    · cases hparse
  rw [hsplit] at hnul
  have hdigits : nul ∉ printNat d.port := fun h => absurd (isDigit_of_mem_printNat h) (by decide)
  have hscheme : nul ∉ ascii "tcp://" := by decide
  have hcolon : nul ∉ ascii ":" := by decide
  simp only [Started.endpoint, ListenAddresses.endpoint, hhost, List.mem_append, not_or]
  exact ⟨⟨⟨hscheme, fun h => hnul (List.mem_append_left _ h)⟩, hcolon⟩, hdigits⟩

/-- A daemon whose peers file lists another is connected to where the other
publishes, with room for a whole backlog, and everything the other's loop says
reaches it but for the digests addressed at somebody else who was heard. The
digests addressed at what it publishes itself as reach it exactly when its
listen address is plain. -/
theorem hears_listed {args args' : List Bytes} {d d' : Started}
    {throws' : List Call → Bool} {files' : Bytes → PeersFile.File} {disk : Disk}
    {h : History Node Event} (hd : startUp throws files args = .ok d)
    (hd' : startUp throws' files' args' = .ok d') (hnul : nul ∉ part args 2)
    (hlisted : myAddress (part args' 2) ∈ peersOf files args) (hw : w.endpoint = d'.endpoint)
    (hr : Run (SyncFs.step w) (.start disk clock steady) h n) (hv : v ∈ n.sent) :
    (∃ c ∈ d.sockets.listener.connections, c ∈ d'.sockets.client.bindings ∧
        c.hwm = announcementBacklog) ∧
      (delivers d.sockets.listener.subscriptions v = true ∨
        ∃ t held deleted, v = Source.digest t held deleted ∧ t ≠ d'.endpoint ∧ HeardFrom t h) ∧
      ∀ held deleted, v = Source.digest d.endpoint held deleted →
        (delivers d.sockets.listener.subscriptions v = true ↔ Plain (part args 2)) := by
  have henters := enters_of_eq_ok hd
  have henters' := enters_of_eq_ok hd'
  have hspoken : Spoken w h n := .of_run hr
  refine ⟨⟨⟨myAddress (part args' 2), announcementBacklog⟩, ?_, ?_, rfl⟩, ?_, ?_⟩
  · rw [henters.opened.connections]
    exact List.mem_map_of_mem (List.mem_append_left _ hlisted)
  · rw [henters'.opened.bindings]
    exact List.mem_singleton_self _
  · rw [henters.opened.subscriptions]
    rcases hspoken.said v hv with hverb | ⟨t, held, deleted, hv, hne, hheard⟩
    · exact .inl (delivers_broadcast hverb)
    · exact .inr ⟨t, held, deleted, hv, hw ▸ hne, hheard⟩
  · rintro held deleted rfl
    have hmine : nul ∉ myAddress (part args 2) := by
      rw [myAddress, List.mem_append, not_or]
      exact ⟨by decide, hnul⟩
    rw [henters.opened.subscriptions,
      delivers_digest_iff hmine (henters.nul_notMem_endpoint hnul) held deleted, eq_comm]
    exact henters.endpoint_eq_iff

/-- Two peers that list one another and themselves. -/
def sampleFiles (_ : Bytes) : PeersFile.File :=
  .text (ascii "tcp://10.0.0.1:5555\ntcp://10.0.0.2:5555")

def sampleArgs (listen : String) : List Bytes := [ascii "syncfs", ascii "peers", ascii listen]

theorem samplePeers (listen : String) : peersOf sampleFiles (sampleArgs listen) =
    [ascii "tcp://10.0.0.1:5555", ascii "tcp://10.0.0.2:5555"] := by
  have hparse := PeersFile.readLines_text (ascii "peers")
    (ascii "tcp://10.0.0.1:5555\ntcp://10.0.0.2:5555") (List.replicate PeersFile.maxLineLen 0) []
    List.length_replicate (by decide)
  have hpeers : PeersFile.parse (ascii "peers") (sampleFiles (ascii "peers")) =
      .ok [ascii "tcp://10.0.0.1:5555", ascii "tcp://10.0.0.2:5555"] :=
    hparse.trans (by decide)
  change (PeersFile.parse (ascii "peers") (sampleFiles (ascii "peers"))).toOption.getD [] = _
  rw [hpeers]
  rfl

theorem checked_sample {listen : String} (h : checkListenAddress (ascii listen) = .ok ()) :
    Checked sampleFiles (sampleArgs listen) := by
  refine ⟨?_, h⟩
  rw [samplePeers]
  decide

theorem plain_starts_sample :
    Ends (fun d => d.endpoint = ascii "tcp://10.0.0.1:5555" ∧ d.libtorrentPort = d.port + 2000)
      (Threw fun _ => false) (startUp (fun _ => false) sampleFiles (sampleArgs "10.0.0.1:5555")) :=
  (plain_starts (checked_sample (by decide +kernel)) (by decide +kernel)).mono
    (fun d hd => ⟨hd.2.1.trans (by decide), hd.2.2.2⟩) fun _ => id

theorem exists_enters_sample (listen : String) (hc : checkListenAddress (ascii listen) = .ok ())
    (hp : Plain (ascii listen)) : ∃ d,
      startUp (fun _ => false) sampleFiles (sampleArgs listen) = .ok d ∧
        Enters sampleFiles (sampleArgs listen) d := by
  have hends : Ends (Enters sampleFiles (sampleArgs listen))
      (Stops (fun _ => false) sampleFiles (sampleArgs listen))
      (startUp (fun _ => false) sampleFiles (sampleArgs listen)) := ends_startUp _
  cases hs : startUp (fun _ => false) sampleFiles (sampleArgs listen) with
  | ok d =>
    rw [hs] at hends
    exact ⟨d, rfl, hends⟩
  | error e =>
    rw [hs] at hends
    rcases hends with ⟨hn, -⟩ | ⟨hchecked, ⟨_, -, hthrows⟩ | ⟨_, -, herror⟩⟩
    · exact absurd (checked_sample hc) hn
    · cases hthrows
    · obtain ⟨host, n, hparse, -⟩ := hchecked.publishesItself hp
      rw [hparse] at herror
      cases herror

/-- A peer says that it stands elsewhere, and the next round asks it. -/
def askingRound : List Event :=
  pass false (some (Source.state { sampleWorld with endpoint := ascii "tcp://10.0.0.2:5555" }
      (ascii "elsewhere"))) ++
    .tick (seconds 60).toNat :: pass false none

theorem askingRound_heard : ∃ d v,
    startUp (fun _ => false) sampleFiles (sampleArgs "10.0.0.2:5555") = .ok d ∧
      (∃ held deleted, v = Source.digest d.endpoint held deleted) ∧
      delivers d.sockets.listener.subscriptions v = true := by
  obtain ⟨d, hd, henters⟩ := exists_enters_sample "10.0.0.2:5555"
    (by decide +kernel) (by decide +kernel)
  obtain ⟨d', hd', henters'⟩ := exists_enters_sample "10.0.0.1:5555"
    (by decide +kernel) (by decide +kernel)
  have hendpoint : d.endpoint = ascii "tcp://10.0.0.2:5555" :=
    henters.endpoint_eq_iff.mpr (by decide +kernel)
  have hendpoint' : d'.endpoint = ascii "tcp://10.0.0.1:5555" :=
    henters'.endpoint_eq_iff.mpr (by decide +kernel)
  obtain ⟨h, n, hr, hv⟩ := exists_run (SyncFs.step sampleWorld) (.start ∅ 1000 0) askingRound
    (fun _ n => Source.digest (ascii "tcp://10.0.0.2:5555") [] [] ∈ n.sent) (by decide +kernel)
  have hlisted : myAddress (part (sampleArgs "10.0.0.1:5555") 2) ∈
      peersOf sampleFiles (sampleArgs "10.0.0.2:5555") := by
    rw [samplePeers]
    decide
  obtain ⟨-, -, hdigest⟩ := hears_listed hd hd' (by decide) hlisted hendpoint'.symm hr hv
  have hsaid : Source.digest (ascii "tcp://10.0.0.2:5555") [] [] =
      Source.digest d.endpoint [] [] := by rw [hendpoint]
  exact ⟨d, _, hd, ⟨[], [], hsaid⟩, (hdigest [] [] hsaid).mpr (by decide +kernel)⟩

end

end SyncFs.Startup
