import SyncFs.Announcements
import SyncFs.LabelledRuns
import SyncFs.Standings

/-!
# The digest exchange

Nodes show one another what they hold and what they remember deleted, and
answer with creates for what the other lacks. Taken a step at a time this is
replication by joins, where the last write wins on every path.
-/

namespace SyncFs

open CharConversions LabelledRuns JoinReplication

/-- Some nodes, and all that was said and by whom. Nothing is taken off again,
so what was said can come late, twice or not at all. -/
structure Net (ι : Type) where
  replicas : ι → Replica
  sent : List (ι × List Bytes)

inductive NetEvent (ι : Type)
  | digest (node : ι) (target : Bytes)
  | repair (node : ι) (steady : SteadyTime)
  | deliver (node sender : ι) (message : List Bytes) (steady : SteadyTime) (written : FileTime)

def NetEvent.node {ι : Type} : NetEvent ι → ι
  | .digest node _ | .repair node _ | .deliver node .. => node

section

variable {ι : Type} (w : ι → World) (now : TimePoint) (plays : Path → Bytes → Prop)

/-- Every node loads the buffer, and has its file land at the path, with a
content in play there. -/
def Fits (p : Path) (b : Bytes) : Prop :=
  ∀ i, ∃ torrent, (w i).loadTorrentBuffer b = some torrent ∧ Lands (w i) p torrent ∧
    plays p torrent.content

/-- What a node generates for a file in play fits the path it generates it for. -/
def GeneratesFit : Prop :=
  ∀ i (p : Path) content, p.IsKey → plays p content →
    Fits w plays p ((w i).generateBuf p content)

inductive Says (r : Replica) : List Bytes → Prop
  | digest (target : Bytes) :
    Says r (Source.digest target (encodeHeld r.former) (encodeTombstones r.tombstones))
  | create {p : Path} {t : FileTime} {b : Bytes} (listed : r.former[p]? = some t)
    (fit : Fits w plays p b) : Says r (announce b t p)

variable [DecidableEq ι]

/-- What one event leads to. A create that is applied has its transfer done and
listed by the time the next event comes. -/
def netStep (net : Net ι) : NetEvent ι → Option (Net ι)
  | .digest i target =>
    let r := net.replicas i
    some { net with
      sent := net.sent ++
        [(i, Source.digest target (encodeHeld r.former) (encodeTombstones r.tombstones))] }
  | .repair i steady =>
    let (r, said) := publishRepairs (w i) (net.replicas i) steady
    some
      { replicas := Function.update net.replicas i r
        sent := net.sent ++ said.map fun v => (i, v) }
  | .deliver i sender v steady written =>
    if (sender, v) ∈ net.sent then
      some { net with
        replicas := Function.update net.replicas i
          (take (w i) v now steady written (net.replicas i)) }
    else none

def digestRead (reader sender : ι) : NetEvent ι → Option (List Bytes)
  | .deliver i j v _ _ =>
    if i = reader ∧ j = sender ∧ verbOf (part v 0) = ascii "digest" then some v else none
  | _ => none

def TakesRepair (reader sender : ι) (p : Path) : NetEvent ι → Prop
  | .deliver i j v _ _ => i = reader ∧ j = sender ∧ CreatesFor p v
  | _ => False

/-- The second node has read a digest of the first, and the first has taken in
every repair that asked for. -/
def Answered (i j : ι) (h : History (Net ι) (NetEvent ι)) : Prop :=
  ∃ x ∈ h, ∃ v ∈ digestRead j i x.2,
    ∀ p ∈ missing (w j) v now (x.1.replicas j), ∃ y ∈ h, TakesRepair i j p y.2

instance (reader sender : ι) (p : Path) : (e : NetEvent ι) → Decidable (TakesRepair reader sender p e)
  | .deliver i j v _ _ => inferInstanceAs (Decidable (i = reader ∧ j = sender ∧ CreatesFor p v))
  | .digest .. | .repair .. => inferInstanceAs (Decidable False)

instance (i j : ι) (h : History (Net ι) (NetEvent ι)) : Decidable (Answered w now i j h) := by
  unfold Answered
  infer_instance

/-- No node stands lower on any path after the step, and every replica is still settled. -/
def RaisesStandings (n : Net ι) (e : NetEvent ι) : Prop :=
  ∀ m, netStep w now n e = some m →
    (∀ i p, standing (n.replicas i) p ≤ standing (m.replicas i) p) ∧
      ∀ i, Settled now plays (Fits w plays) (m.replicas i)

end

def carried (v : List Bytes) (p : Path) : Standing TimePoint :=
  if verbOf (part v 0) = ascii "digest" then grave (decodeTombstones (part v 2)) p
  else if announcedPath v = p then held (originOf v).toTicks else ⊥

variable {ι : Type} {w : ι → World} {now : TimePoint}
variable {plays fits : Path → Bytes → Prop} {r s : Replica} {v : List Bytes} {p : Path}

theorem Settled.spelled (hs : Settled now plays fits r) : ∀ q ∈ r.former, q.Spelled := by
  intro q hq
  obtain ⟨t, ht⟩ := PathMap.mem_iff.mp hq
  exact (hs.isKey ht).spelled

theorem Settled.decodeHeld (hs : Settled now plays fits r) :
    SyncFs.decodeHeld (encodeHeld r.former) = r.former :=
  decode_encode hs.spelled (fun p t h => hs.times p t h) toFileTime_toTicks

theorem Settled.decodeTombstones (hs : Settled now plays fits r) :
    SyncFs.decodeTombstones (encodeTombstones r.tombstones) = r.tombstones := by
  refine decode_encode (fun q hq => ?_) (fun p m h => (hs.graves p m h).2.1) fun _ => rfl
  obtain ⟨m, hm⟩ := PathMap.mem_iff.mp hq
  exact (hs.graves q m hm).1

theorem verbOf_address {verb endpoint : Bytes} (hv : nul ∉ verb) :
    verbOf (address verb endpoint) = verb := by
  have hb : ∀ b ∈ verb, decide (b ≠ nul) = true := by
    intro b hb
    rw [decide_eq_true_iff]
    rintro rfl
    exact hv hb
  rw [verbOf, address, List.append_assoc, List.append_assoc, List.takeWhile_append_of_pos hb]
  simp

theorem verbOf_digest {target held deleted : Bytes} :
    verbOf (part (Source.digest target held deleted) 0) = ascii "digest" :=
  verbOf_address (by decide)

theorem carried_digest {target : Bytes} (hs : Settled now plays fits r) :
    carried (Source.digest target (encodeHeld r.former) (encodeTombstones r.tombstones)) =
      grave r.tombstones := by
  funext q
  rw [carried, if_pos verbOf_digest]
  exact congrArg (grave · q) hs.decodeTombstones

theorem Settled.announcedPath_announce (hs : Settled now plays fits r) {t : FileTime} {b : Bytes}
    (ht : r.former[p]? = some t) : announcedPath (announce b t p) = p :=
  (hs.isKey ht).ofNative_native

theorem Settled.originOf_announce (hs : Settled now plays fits r) {t : FileTime} {b : Bytes}
    (ht : r.former[p]? = some t) : originOf (announce b t p) = t := by
  change toFileTime (fromTicks (printInt t.toTicks)) = t
  rw [fromTicks_printInt (hs.times p t ht), toFileTime_toTicks]

theorem carried_announce {t : FileTime} {b : Bytes} (hs : Settled now plays fits r)
    (ht : r.former[p]? = some t) :
    carried (announce b t p) = fun q => if p = q then held t.toTicks else ⊥ := by
  funext q
  have hv : verbOf (part (announce b t p) 0) ≠ ascii "digest" := by
    change verbOf (ascii "create") ≠ _
    decide
  rw [carried, if_neg hv, hs.announcedPath_announce ht, hs.originOf_announce ht]

theorem Says.carried_le (hs : Settled now plays (Fits w plays) r) (hv : Says w plays r v) :
    carried v ≤ standing r := by
  cases hv with
  | digest target =>
    rw [carried_digest hs]
    intro q
    rw [grave]
    cases hm : r.tombstones[q]? with
    | none => exact bot_le
    | some m => exact (hs.standing_eq_dead.mpr hm).ge
  | @create p t b listed fit =>
    rw [carried_announce hs listed]
    intro q
    dsimp only
    split
    · next he =>
      subst he
      exact (standing_of_held listed).ge
    · exact bot_le

theorem Says.take (hs : Settled now plays (Fits w plays) s) (hv : Says w plays s v)
    (hr : Settled now plays (Fits w plays) r) (i : ι) (steady : SteadyTime) (written : FileTime) :
    Settled now plays (Fits w plays) (SyncFs.take (w i) v now steady written r) ∧
      standing (SyncFs.take (w i) v now steady written r) = standing r ⊔ carried v := by
  cases hv with
  | digest target =>
    have hfresh : ∀ (q : Path) k, (SyncFs.decodeTombstones (part (Source.digest target
        (encodeHeld s.former) (encodeTombstones s.tombstones)) 2))[q]? = some k →
        Fresh now q k := by
      intro q k hk
      have hk : (SyncFs.decodeTombstones (encodeTombstones s.tombstones))[q]? = some k := hk
      rw [hs.decodeTombstones] at hk
      exact hs.graves q k hk
    obtain ⟨hset, hstand, -⟩ := hr.digest (w i) verbOf_digest rfl hfresh steady written
    refine ⟨hset, ?_⟩
    rw [carried_digest hs]
    funext q
    rw [hstand q]
    exact congrArg (standing r q ⊔ grave · q) hs.decodeTombstones
  | @create p t b listed fit =>
    obtain ⟨torrent, hload, hl, hplay⟩ := fit i
    have hpath := hs.announcedPath_announce (b := b) listed
    have horigin := hs.originOf_announce (b := b) listed
    obtain ⟨hset, hstand⟩ := hr.create (w := w i) (v := announce b t p) (by rfl) rfl hload (hpath.symm ▸ hl)
      (horigin.symm ▸ hs.times p t listed) (hpath.symm ▸ fit) (hpath.symm ▸ hplay) steady written
    refine ⟨hset, ?_⟩
    rw [carried_announce hs listed]
    funext q
    rw [hstand q, hpath, horigin]
    rfl

/-- All that is published as a repair is for a file held, and fits its path. -/
theorem says_of_publishRepairs (hg : GeneratesFit w plays) {i : ι} {steady : SteadyTime}
    (hs : Settled now plays (Fits w plays) r) (hv : v ∈ (publishRepairs (w i) r steady).2) : Says w plays r v := by
  obtain ⟨p, t, b, ht, rfl, hb⟩ := mem_publishRepairs hv
  refine .create ht ?_
  rcases hb with hb | ⟨file, hf, rfl⟩
  · exact hs.cached p b hb
  · have hk := hs.isKey ht
    rw [Tree.find_key hk] at hf
    exact hg i p file.content hk (hs.inPlay p file hf hk)

def Net.standings (net : Net ι) : JoinReplication.State ι (Path → Standing TimePoint) :=
  ⟨fun i => standing (net.replicas i), {x | ∃ m ∈ net.sent, x = carried m.2}⟩

variable [DecidableEq ι] {net net' : Net ι} {e : NetEvent ι}

structure Net.Sound (w : ι → World) (now : TimePoint) (plays : Path → Bytes → Prop) (net : Net ι) : Prop where
  settled : ∀ i, Settled now plays (Fits w plays) (net.replicas i)
  said : ∀ m ∈ net.sent, ∃ r, Settled now plays (Fits w plays) r ∧ Says w plays r m.2

private theorem Net.standings_say {i : ι} (said : List (List Bytes))
    (hr : ∀ j, standing (net'.replicas j) = standing (net.replicas j))
    (hsent : net'.sent = net.sent ++ said.map fun v => (i, v))
    (hle : ∀ v ∈ said, carried v ≤ standing (net.replicas i)) :
    Steps {i} net.standings net'.standings := by
  have he : net'.standings = { net.standings with
      said := net.standings.said ∪ {x | x ∈ said.map carried} } := by
    refine JoinReplication.State.ext (funext hr) (Set.ext fun x => ?_)
    · simp only [Net.standings, hsent, List.mem_append, List.mem_map, Set.mem_union, Set.mem_ofPred_eq, or_and_right,
        exists_or]
      refine or_congr Iff.rfl ⟨?_, ?_⟩
      · rintro ⟨_, ⟨v, hv, rfl⟩, rfl⟩
        exact ⟨v, hv, rfl⟩
      · rintro ⟨v, hv, rfl⟩
        exact ⟨_, ⟨v, hv, rfl⟩, rfl⟩
  rw [he]
  refine Steps.sayAll rfl fun x hx => ?_
  obtain ⟨v, hv, rfl⟩ := List.mem_map.mp hx
  exact hle v hv

private theorem Net.Sound.update (hn : net.Sound w now plays) {i : ι} {r : Replica}
    (hset : Settled now plays (Fits w plays) r) (j : ι) :
    Settled now plays (Fits w plays) (Function.update net.replicas i r j) ∧
      standing (Function.update net.replicas i r j) =
        Function.update net.standings.nodes i (standing r) j := by
  by_cases hj : j = i
  · subst hj
    rw [Function.update_self, Function.update_self]
    exact ⟨hset, rfl⟩
  · rw [Function.update_of_ne hj, Function.update_of_ne hj]
    exact ⟨hn.settled j, rfl⟩

theorem Net.Sound.digest (hn : net.Sound w now plays) {i : ι} {target : Bytes}
    (he : netStep w now net (.digest i target) = some net') :
    net'.Sound w now plays ∧ Steps {i} net.standings net'.standings := by
  obtain rfl := Option.some.inj he
  have hsays : Says w plays (net.replicas i) (Source.digest target
      (encodeHeld (net.replicas i).former) (encodeTombstones (net.replicas i).tombstones)) :=
    .digest target
  refine ⟨⟨hn.settled, fun m hm => ?_⟩, standings_say [_] (fun _ => rfl) rfl ?_⟩
  · rcases List.mem_append.mp hm with hm | hm
    · exact hn.said m hm
    · obtain rfl := List.mem_singleton.mp hm
      exact ⟨_, hn.settled i, hsays⟩
  · intro v hv
    obtain rfl := List.mem_singleton.mp hv
    exact hsays.carried_le (hn.settled i)

theorem Net.Sound.repair (hg : GeneratesFit w plays) (hn : net.Sound w now plays) {i : ι} {steady : SteadyTime}
    (he : netStep w now net (.repair i steady) = some net') :
    net'.Sound w now plays ∧ Steps {i} net.standings net'.standings := by
  obtain rfl := Option.some.inj he
  have hs := hn.settled i
  have hset : Settled now plays (Fits w plays) (publishRepairs (w i) (net.replicas i) steady).1 :=
    ⟨hs.listed, hs.apart, hs.times, hs.graves, hs.cached, hs.inPlay, hs.clear⟩
  have hstands : Function.update net.standings.nodes i
      (standing (publishRepairs (w i) (net.replicas i) steady).1) = net.standings.nodes :=
    Function.update_eq_self i net.standings.nodes
  refine ⟨⟨fun j => (hn.update hset j).1, fun m hm => ?_⟩,
    standings_say (publishRepairs (w i) (net.replicas i) steady).2
      (fun j => (hn.update hset j).2.trans (congrFun hstands j)) rfl ?_⟩
  · rcases List.mem_append.mp hm with hm | hm
    · exact hn.said m hm
    · obtain ⟨v, hv, rfl⟩ := List.mem_map.mp hm
      exact ⟨_, hn.settled i, says_of_publishRepairs hg (hn.settled i) hv⟩
  · exact fun v hv =>
      (says_of_publishRepairs hg (hn.settled i) hv).carried_le (hn.settled i)

theorem Net.Sound.deliver (hn : net.Sound w now plays) {i sender : ι} {v : List Bytes}
    {steady : SteadyTime} {written : FileTime}
    (he : netStep w now net (.deliver i sender v steady written) = some net') :
    net'.Sound w now plays ∧ Steps {i} net.standings net'.standings := by
  obtain ⟨hm, he⟩ := Option.ite_none_right_eq_some.mp he
  obtain rfl := Option.some.inj he
  obtain ⟨s, hs, hsays⟩ := hn.said _ hm
  obtain ⟨hset, hjoin⟩ := hsays.take hs (hn.settled i) i steady written
  have hstands : ∀ j, standing (Function.update net.replicas i
      (take (w i) v now steady written (net.replicas i)) j) =
        Function.update net.standings.nodes i (net.standings.nodes i ⊔ carried v) j := by
    intro j
    rw [(hn.update hset j).2, hjoin]
    rfl
  refine ⟨⟨fun j => (hn.update hset j).1, hn.said⟩, Steps.single rfl ?_⟩
  have htake := Step.take (s := net.standings) (i := i) (x := carried v) ⟨_, hm, rfl⟩
  have heq : Net.standings { net with
      replicas := Function.update net.replicas i
        (take (w i) v now steady written (net.replicas i)) } =
      { net.standings with
        nodes := Function.update net.standings.nodes i
          (net.standings.nodes i ⊔ carried v) } :=
    JoinReplication.State.ext (funext hstands) rfl
  rw [← heq] at htake
  exact htake

/-- A step of the net is steps of replication by joins. -/
theorem Net.Sound.step (hg : GeneratesFit w plays) (hn : net.Sound w now plays)
    (he : netStep w now net e = some net') :
    net'.Sound w now plays ∧ Steps {e.node} net.standings net'.standings := by
  cases e with
  | digest i target => exact hn.digest he
  | repair i steady => exact hn.repair hg he
  | deliver i sender v steady written => exact hn.deliver he

/-- A message was said along a run, by its sender as it stood then. -/
def Spoken (w : ι → World) (now : TimePoint) (plays : Path → Bytes → Prop) (K : Set ι) (start net : Net ι)
    (h : History (Net ι) (NetEvent ι)) (m : ι × List Bytes) : Prop :=
  ∃ y ∈ h, y.1.Sound w now plays ∧ Steps K start.standings y.1.standings ∧
    Steps K y.1.standings net.standings ∧ Says w plays (y.1.replicas m.1) m.2

/-- What is known of a step of a run: where it was taken from, where it led and
that whatever had been said by then was said along the run. -/
structure Past (w : ι → World) (now : TimePoint) (plays : Path → Bytes → Prop) (K : Set ι) (start net : Net ι)
    (h : History (Net ι) (NetEvent ι)) (x : Net ι × NetEvent ι) (after : Net ι) : Prop where
  led : netStep w now x.1 x.2 = some after
  sound : x.1.Sound w now plays
  before : Steps K start.standings x.1.standings
  since : Steps K after.standings net.standings
  said : ∀ m ∈ x.1.sent, Spoken w now plays K start net h m

/-- What a run of the net amounts to. -/
structure Exchange (w : ι → World) (now : TimePoint) (plays : Path → Bytes → Prop) (K : Set ι) (start : Net ι)
    (h : History (Net ι) (NetEvent ι)) (net : Net ι) : Prop where
  sound : net.Sound w now plays
  steps : Steps K start.standings net.standings
  said : ∀ m ∈ net.sent, Spoken w now plays K start net h m
  past : ∀ x ∈ h, ∃ after, Past w now plays K start net h x after

theorem Spoken.later {K : Set ι} {start : Net ι} {h : History (Net ι) (NetEvent ι)}
    {m : ι × List Bytes} (hm : Spoken w now plays K start net h m)
    (hn : Steps K net.standings net'.standings) (x : Net ι × NetEvent ι) :
    Spoken w now plays K start net' (x :: h) m := by
  obtain ⟨y, hy, hsound, hbefore, hsince, hsays⟩ := hm
  exact ⟨y, List.mem_cons_of_mem _ hy, hsound, hbefore, hsince.trans hn, hsays⟩

/-- A message in the net was said by the node it is from, as it stood then. -/
theorem says_of_netStep (hg : GeneratesFit w plays) (hn : net.Sound w now plays)
    (he : netStep w now net e = some net') {m : ι × List Bytes} (hm : m ∈ net'.sent) :
    m ∈ net.sent ∨ Says w plays (net.replicas m.1) m.2 := by
  cases e with
  | digest i target =>
    obtain rfl := Option.some.inj he
    rcases List.mem_append.mp hm with hm | hm
    · exact .inl hm
    · obtain rfl := List.mem_singleton.mp hm
      exact .inr (.digest target)
  | repair i steady =>
    obtain rfl := Option.some.inj he
    rcases List.mem_append.mp hm with hm | hm
    · exact .inl hm
    · obtain ⟨v, hv, rfl⟩ := List.mem_map.mp hm
      exact .inr (says_of_publishRepairs hg (hn.settled i) hv)
  | deliver i sender v steady written =>
    obtain ⟨-, he⟩ := Option.ite_none_right_eq_some.mp he
    obtain rfl := Option.some.inj he
    exact .inl hm

theorem exchange (hg : GeneratesFit w plays) {K : Set ι} {start : Net ι}
    {h : History (Net ι) (NetEvent ι)} (hs : start.Sound w now plays) (hempty : start.sent = [])
    (hr : Run (netStep w now) start h net) (hK : ∀ x ∈ h, x.2.node ∈ K) :
    Exchange w now plays K start h net := by
  induction hr with
  | refl =>
    refine ⟨hs, .refl, fun m hm => ?_, fun x hx => absurd hx List.not_mem_nil⟩
    rw [hempty] at hm
    cases hm
  | @snoc h n e t _ he ih =>
    have ih := ih fun x hx => hK x (List.mem_cons_of_mem _ hx)
    obtain ⟨hsound, hsteps⟩ := ih.sound.step hg he
    have hnext := hsteps.mono (Set.singleton_subset_iff.mpr (hK _ List.mem_cons_self))
    have hsaid : ∀ m ∈ n.sent, Spoken w now plays K start t ((n, e) :: h) m :=
      fun m hm => (ih.said m hm).later hnext _
    refine ⟨hsound, ih.steps.trans hnext, fun m hm => ?_, fun x hx => ?_⟩
    · rcases says_of_netStep hg ih.sound he hm with hm | hsays
      · exact hsaid m hm
      · exact ⟨(n, e), List.mem_cons_self, ih.sound, ih.steps, hnext, hsays⟩
    · rcases List.mem_cons.mp hx with rfl | hx
      · exact ⟨t, he, ih.sound, ih.steps, .refl, hsaid⟩
      · obtain ⟨after, hp⟩ := ih.past x hx
        exact ⟨after, hp.led, hp.sound, hp.before, hp.since.trans hnext,
          fun m hm => (hp.said m hm).later hnext _⟩

section

variable {K : Set ι} {start : Net ι} {h : History (Net ι) (NetEvent ι)} {i j : ι}

/-- A message taken in: what its sender stood for then is between the start and
the end, and the reader has it joined in by the end. -/
private theorem Exchange.delivered (hx : Exchange w now plays K start h net)
    {x : Net ι × NetEvent ι} (hxh : x ∈ h) {steady : SteadyTime} {written : FileTime}
    (he : x.2 = .deliver j i v steady written) :
    ∃ r left, Settled now plays (Fits w plays) r ∧ Says w plays r v ∧
      standing (start.replicas i) ≤ standing r ∧ standing r ≤ standing (net.replicas i) ∧
      Settled now plays (Fits w plays) (x.1.replicas j) ∧
      left = take (w j) v now steady written (x.1.replicas j) ∧
      standing (start.replicas j) ≤ standing left ∧ standing left ≤ standing (net.replicas j) ∧
      carried v ≤ standing left := by
  obtain ⟨after, hp⟩ := hx.past x hxh
  have hled := hp.led
  rw [he] at hled
  obtain ⟨hm, hafter⟩ := Option.ite_none_right_eq_some.mp hled
  obtain rfl := Option.some.inj hafter
  obtain ⟨y, -, hsound, hbefore, hsince, hsays⟩ := hp.said _ hm
  have hs := hsound.settled i
  have hr := hp.sound.settled j
  obtain ⟨-, hjoin⟩ := hsays.take hs hr j steady written
  refine ⟨_, _, hs, hsays, hbefore.nodes_le i, hsince.nodes_le i, hr, rfl, ?_, ?_, ?_⟩
  · rw [hjoin]
    exact (hp.before.nodes_le j).trans le_sup_left
  · have hle := hp.since.nodes_le j
    simpa [Net.standings] using hle
  · rw [hjoin]
    exact le_sup_right

private theorem digestRead_eq_some {e : NetEvent ι} (hv : v ∈ digestRead j i e) :
    verbOf (part v 0) = ascii "digest" ∧
      ∃ steady written, e = .deliver j i v steady written := by
  unfold digestRead at hv
  split at hv
  · next u steady written =>
    obtain ⟨⟨rfl, rfl, hverb⟩, hu⟩ := Option.ite_none_right_eq_some.mp hv
    obtain rfl := Option.some.inj hu
    exact ⟨hverb, steady, written, rfl⟩
  · cases hv

private theorem verbOf_announce {t : FileTime} {b : Bytes} :
    verbOf (part (announce b t p) 0) = ascii "create" := rfl

/-- What a digest read leaves: its deletions are joined in, and what the reader
holds and the sender did not, or not as new, it is left to repair. -/
private theorem Exchange.read (hx : Exchange w now plays K start h net)
    {x : Net ι × NetEvent ι} (hxh : x ∈ h) (hv : v ∈ digestRead j i x.2) :
    ∃ r left, Settled now plays (Fits w plays) r ∧
      standing (start.replicas i) ≤ standing r ∧ standing r ≤ standing (net.replicas i) ∧
      standing (start.replicas j) ≤ standing left ∧ standing left ≤ standing (net.replicas j) ∧
      grave r.tombstones ≤ standing left ∧
      ∀ q t, standing left q = held t → (∀ peer ∈ r.former[q]?, peer.toTicks < t) →
        q ∈ missing (w j) v now (x.1.replicas j) := by
  obtain ⟨hverb, steady, written, he⟩ := digestRead_eq_some hv
  obtain ⟨r, left, hs, hsays, hbefore, hsince, hr, rfl, hup, hdown, hcarried⟩ := hx.delivered hxh he
  cases hsays with
  | digest target =>
    refine ⟨r, _, hs, hbefore, hsince, hup, hdown, (carried_digest hs).ge.trans hcarried,
      fun q t hq hpeer => ?_⟩
    have hfresh : ∀ (q : Path) k, (SyncFs.decodeTombstones (part (Source.digest target
        (encodeHeld r.former) (encodeTombstones r.tombstones)) 2))[q]? = some k →
        Fresh now q k := by
      intro q k hk
      have hk : (SyncFs.decodeTombstones (encodeTombstones r.tombstones))[q]? = some k := hk
      rw [hs.decodeTombstones] at hk
      exact hs.graves q k hk
    refine (hr.digest (w j) verbOf_digest rfl hfresh steady written).2.2 q t hq fun peer hp => hpeer peer ?_
    have hp : peer ∈ (SyncFs.decodeHeld (encodeHeld r.former))[q]? := hp
    rwa [hs.decodeHeld] at hp
  | create => rw [verbOf_announce] at hverb; exact absurd hverb (by decide)

private theorem Exchange.repaired (hx : Exchange w now plays K start h net)
    {x : Net ι × NetEvent ι} (hxh : x ∈ h) (ht : TakesRepair i j p x.2) :
    ∃ r t, r.former[p]? = some t ∧ standing (start.replicas j) ≤ standing r ∧
      standing r ≤ standing (net.replicas j) ∧ held t.toTicks ≤ standing (net.replicas i) p := by
  unfold TakesRepair at ht
  split at ht
  · next i' j' u steady written he =>
    obtain ⟨rfl, rfl, hverb, hpath⟩ := ht
    obtain ⟨r, left, hs, hsays, hbefore, hsince, -, -, -, hdown, hcarried⟩ := hx.delivered hxh he
    cases hsays with
    | digest target => rw [verbOf_digest] at hverb; exact absurd hverb (by decide)
    | @create q t b listed fit =>
      rw [hs.announcedPath_announce listed] at hpath
      subst hpath
      refine ⟨r, t, listed, hbefore, hsince, ?_⟩
      have hle := (hcarried.trans hdown) q
      rw [carried_announce hs listed] at hle
      simpa using hle
  · exact ht.elim

/-- Once each has answered the other, the first node stands as high as the
second did, as long as the second is no higher than the two were together. -/
theorem Exchange.reaches (hx : Exchange w now plays K start h net)
    (hij : Answered w now i j h) (hji : Answered w now j i h) (p : Path)
    (hle : standing (net.replicas j) p ≤
      standing (start.replicas i) p ⊔ standing (start.replicas j) p) :
    standing (start.replicas j) p ≤ standing (net.replicas i) p := by
  rcases le_total (standing (start.replicas j) p) (standing (start.replicas i) p) with hlow | hhigh
  · exact hlow.trans (hx.steps.nodes_le i p)
  · -- The second node is the higher one, and has stood where it stands all along.
    rw [sup_eq_right.mpr hhigh] at hle
    have hsame : ∀ {x : Path → Standing TimePoint}, standing (start.replicas j) ≤ x →
        x ≤ standing (net.replicas j) → x p = standing (start.replicas j) p :=
      fun hlo hhi => le_antisymm ((hhi p).trans hle) (hlo p)
    rcases standing_cases (standing (start.replicas j) p) with hb | ⟨m, hb⟩ | ⟨t, hb⟩
    · rw [hb]
      exact bot_le
    · obtain ⟨x, hxh, v, hv, -⟩ := hji
      obtain ⟨r, left, hs, hbefore, hsince, -, hdown, hgrave, -⟩ := hx.read hxh hv
      have hr := (hsame hbefore hsince).trans hb
      have hle := (hgrave.trans hdown) p
      rw [grave, hs.standing_eq_dead.mp hr] at hle
      rw [hb]
      exact hle
    · obtain ⟨x, hxh, v, hv, hrepairs⟩ := hij
      obtain ⟨r, left, hs, -, hsince, hup, hdown, -, hmissing⟩ := hx.read hxh hv
      rw [hb]
      by_cases hpeer : ∀ peer ∈ r.former[p]?, peer.toTicks < t
      · have hleft := (hsame hup hdown).trans hb
        obtain ⟨y, hyh, hy⟩ := hrepairs p (hmissing p t hleft hpeer)
        obtain ⟨r', t', hf, hbefore', hsince', hle⟩ := hx.repaired hyh hy
        have hr' := (hsame hbefore' hsince').trans hb
        rw [standing_of_held hf] at hr'
        rwa [hr'] at hle
      · simp only [not_forall, not_lt] at hpeer
        obtain ⟨peer, hf, hle⟩ := hpeer
        have hr := hsince p
        rw [standing_of_held hf] at hr
        exact (held_le_held.mpr hle).trans hr

/-- Nobody is ever left with less than the nodes of the exchange had together. -/
private theorem Exchange.le_sup (hx : Exchange w now plays K start h net) (hempty : start.sent = [])
    (hK : ∀ k ∈ K, k = i ∨ k = j) {k : ι} (hk : k ∈ K) (p : Path) :
    standing (net.replicas k) p ≤ standing (start.replicas i) p ⊔ standing (start.replicas j) p := by
  have hbelow : Below K (standing (start.replicas i) ⊔ standing (start.replicas j))
      start.standings := by
    refine ⟨fun k hk => ?_, ?_⟩
    · rcases hK k hk with rfl | rfl
      · exact le_sup_left
      · exact le_sup_right
    · rintro y ⟨m, hm, -⟩
      rw [hempty] at hm
      cases hm
  exact (hbelow.steps hx.steps).nodes k hk p

theorem Settled.eq_of_standing (hr : Settled now plays fits r) (hs : Settled now plays fits s)
    (he : ∀ q, standing r q = standing s q) :
    r.former = s.former ∧ r.tombstones = s.tombstones := by
  refine ⟨Std.ExtTreeMap.ext_getElem? fun q => Option.ext fun t => ?_,
    Std.ExtTreeMap.ext_getElem? fun q => Option.ext fun m => ?_⟩
  · rw [← toFileTime_toTicks (t := t), ← standing_eq_held, ← standing_eq_held, he q]
  · rw [← hr.standing_eq_dead, ← hs.standing_eq_dead, he q]

/-- In any exchange of digests and repairs no node is ever set back on a path,
and once two nodes alone have answered each other they know the same, the best
either knew of every path. -/
theorem digestExchange_joins (hg : GeneratesFit w plays)
    (hs : ∀ k, Settled now plays (Fits w plays) (start.replicas k)) (hempty : start.sent = [])
    (hr : Run (netStep w now) start h net) :
    Always (fun _ n e => RaisesStandings w now plays n e) h ∧
      ∀ i j, (∀ x ∈ h, x.2.node = i ∨ x.2.node = j) → Answered w now i j h →
        Answered w now j i h →
        (net.replicas i).former = (net.replicas j).former ∧
          (net.replicas i).tombstones = (net.replicas j).tombstones ∧
          ∀ p, standing (net.replicas i) p =
            standing (start.replicas i) p ⊔ standing (start.replicas j) p := by
  have hsound : start.Sound w now plays := by
    refine ⟨hs, fun m hm => ?_⟩
    rw [hempty] at hm
    cases hm
  refine ⟨?_, fun i j hnodes hij hji => ?_⟩
  · refine Run.always_of_invariant (c := fun _ _ _ => True) (I := fun _ n => n.Sound w now plays) hsound
      (fun _ _ _ _ _ hn _ he => (hn.step hg he).1) (fun _ n e m _ hn _ he m' he' => ?_) hr
      (always_true h)
    obtain ⟨hm, hsteps⟩ := hn.step hg he'
    exact ⟨hsteps.nodes_le, hm.settled⟩
  · have hx := exchange (K := {i, j}) hg hsound hempty hr hnodes
    have hle := fun {k : ι} (hk : k ∈ ({i, j} : Set ι)) (p : Path) =>
      hx.le_sup (i := i) (j := j) hempty (fun _ hk => hk) hk p
    have hi : ∀ p, standing (net.replicas i) p =
        standing (start.replicas i) p ⊔ standing (start.replicas j) p := by
      intro p
      refine le_antisymm (hle (.inl rfl) p) (sup_le (hx.steps.nodes_le i p) ?_)
      exact hx.reaches hij hji p (hle (.inr rfl) p)
    have hj : ∀ p, standing (net.replicas j) p =
        standing (start.replicas i) p ⊔ standing (start.replicas j) p := by
      intro p
      refine le_antisymm (hle (.inr rfl) p) (sup_le ?_ (hx.steps.nodes_le j p))
      exact hx.reaches hji hij p ((hle (.inl rfl) p).trans_eq (sup_comm _ _))
    obtain ⟨hf, ht⟩ := (hx.sound.settled i).eq_of_standing (hx.sound.settled j)
      fun q => (hi q).trans (hj q).symm
    exact ⟨hf, ht, hi⟩

end

def startedWith (disk : Disk) (tombstones : TombstoneMap) : Replica :=
  { (Node.start disk 0 0).replica with tombstones := tombstones }

theorem settled_startedWith {disk : Disk} {tombstones : TombstoneMap}
    (hd : ∀ e ∈ disk.toList, InInt64 e.2.mtime.toTicks ∧ e.1 ∉ tombstones ∧
      plays e.1 e.2.content ∧ e.1.above = [])
    (ht : ∀ e ∈ tombstones.toList, Fresh now e.1 e.2) :
    Settled now plays fits (startedWith disk tombstones) := by
  have hfile : ∀ (q : Path) t, disk.list[q]? = some t → InInt64 t.toTicks ∧ q ∉ tombstones := by
    intro q t h
    rw [Disk.getElem?_list, Option.ite_none_right_eq_some] at h
    obtain ⟨file, hf, rfl⟩ := Option.map_eq_some_iff.mp h.2
    obtain ⟨htime, hgrave, -⟩ := hd (q, file) (PathMap.mem_toList.mpr hf)
    exact ⟨htime, hgrave⟩
  refine ⟨fun _ => rfl, fun q hq => ?_, fun q t h => (hfile q t h).1, fun q m h => ?_,
    fun q b h => ?_, fun q file h _ => (hd (q, file) (PathMap.mem_toList.mpr h)).2.2.1,
    fun q _ _ hq => ?_⟩
  · obtain ⟨t, h⟩ := PathMap.mem_iff.mp hq
    exact (hfile q t h).2
  · exact ht (q, m) (PathMap.mem_toList.mpr h)
  · change (∅ : PathMap Bytes)[q]? = some b at h
    simp at h
  · obtain ⟨p, hp, hqp⟩ := Tree.mem_directories.mp hq
    obtain ⟨file, hf⟩ := PathMap.mem_iff.mp hp
    rw [(hd (p, file) (PathMap.mem_toList.mpr hf)).2.2.2] at hqp
    cases hqp

def samplePath' : Path := Path.ofNative (ascii "./b")

/-- Each of two nodes holds one file; the one it remembers deleted longer ago
than the other has it, the other it remembers deleted since. -/
def sampleNet : Net Bool where
  replicas i :=
    if i then startedWith (.ofList [(samplePath', sampleFile "y" 920)]) (.ofList [(samplePath, (800 : ℤ))])
    else startedWith (.ofList [(samplePath, sampleFile "x" 900)]) (.ofList [(samplePath', (950 : ℤ))])
  sent := []

def sampleDigest (held : FileMap) (tombstones : TombstoneMap) : List Bytes :=
  Source.digest [] (encodeHeld held) (encodeTombstones tombstones)

/-- Each node reads the other's digest, and takes in the one repair asked for. -/
def mutualDigests : List (NetEvent Bool) :=
  [.digest false [],
    .deliver true false (sampleDigest (.ofList [(samplePath, toFileTime 900)])
      (.ofList [(samplePath', (950 : ℤ))])) 0 (toFileTime 0),
    .digest true [],
    .deliver false true (sampleDigest ∅
      (.ofList [(samplePath, (800 : ℤ)), (samplePath', (950 : ℤ))])) 0 (toFileTime 0),
    .repair false (10 ^ 12),
    .deliver true false (sampleCreate "x" 900) 0 (toFileTime 0)]

/-- What the sample machine generates names its file from the sync root down. -/
theorem sampleWorld_generatesFit : GeneratesFit (fun _ : Bool => sampleWorld) fun _ _ => True := by
  intro _ q content hq _ _
  have hnames : ∀ c ∈ q.parts.tail, c ≠ [] ∧ slash ∉ c ∧ nul ∉ c := by
    intro c hc
    obtain ⟨hne, -, -, hslash, hnul⟩ := hq.2.2.2 c hc
    exact ⟨hne, hslash, hnul⟩
  have hn := hq.lexicallyNormal
  have hnul : nul ∉ q.lexicallyNormal.native := by
    rw [hn]
    exact Path.nul_notMem_native fun c hc => (hnames c hc).2.2
  have hload : sampleWorld.loadTorrentBuffer (sampleWorld.generateBuf q content) = some
      ⟨(sampleWorld.generateBuf q content).foldl (fun n c => n * 257 + c.toNat + 1) 0,
        Path.ofNative q.lexicallyNormal.native, content, []⟩ := by
    change (ClosedFields.cut nul (q.lexicallyNormal.native ++ nul :: content)).map _ = _
    rw [ClosedFields.cut_append hnul]
    rfl
  refine ⟨_, hload, lands_of_filePath hq ?_, trivial⟩
  rw [hn]
  exact Path.ofNative_native hq.2.2.1 fun c hc => ⟨(hnames c hc).1, (hnames c hc).2.1⟩

theorem mutualDigests_join :
    ∃ h net, Run (netStep (fun _ => sampleWorld) 1000) sampleNet h net ∧
      Always (fun _ n e => RaisesStandings (fun _ => sampleWorld) 1000 (fun _ _ => True) n e) h ∧
      (net.replicas false).former = (net.replicas true).former ∧
      (net.replicas false).tombstones = (net.replicas true).tombstones ∧
      ∀ p, standing (net.replicas false) p =
        standing (sampleNet.replicas false) p ⊔ standing (sampleNet.replicas true) p := by
  have hs : ∀ k, Settled 1000 (fun _ _ => True)
      (Fits (fun _ : Bool => sampleWorld) fun _ _ => True) (sampleNet.replicas k) := by
    intro k
    cases k with
    | false => exact settled_startedWith (by decide +kernel) (by decide +kernel)
    | true => exact settled_startedWith (by decide +kernel) (by decide +kernel)
  obtain ⟨h, net, hr, hnodes, hij, hji⟩ := exists_run (netStep (fun _ => sampleWorld) 1000)
    sampleNet mutualDigests (fun h _ => (∀ x ∈ h, x.2.node = false ∨ x.2.node = true) ∧
      Answered (fun _ => sampleWorld) 1000 false true h ∧
      Answered (fun _ => sampleWorld) 1000 true false h) (by decide +kernel)
  obtain ⟨halways, hjoin⟩ := digestExchange_joins sampleWorld_generatesFit hs rfl hr
  exact ⟨h, net, hr, halways, hjoin false true hnodes hij hji⟩

end SyncFs
