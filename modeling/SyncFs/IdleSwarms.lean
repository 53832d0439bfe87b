import SyncFs.DigestPartners
import SyncFs.StateRounds
import SyncFs.Swarms

/-!
# A swarm with nothing to do

Nodes that start on equal trees, whose files nobody touches and whose listings miss
nothing, agree for ever: they say where they stand, and nothing else is ever said.
-/

namespace SyncFs

open CharConversions LabelledRuns Parties

variable {ι : Type}

/-- A process other than the node changes a file, or a listing ends early. -/
def Event.disturbs : Event → Bool
  | .localWrite _ _ | .localDelete _ => true
  | .woken (some missed) => !missed.isEmpty
  | _ => false

/-- Where a node stands that holds this listing and remembers no deletion. -/
def hashHolding (w : World) (tree : FileMap) : Bytes := hash w.sha256 tree ∅

def Diff.IsEmpty (diff : Diff) : Prop := diff.removed = ∅ ∧ diff.created = ∅ ∧ diff.modified = ∅

/-- The node holds the tree it found, remembers no deletion, serves and awaits
nothing, and has heard nothing but that its peers stand where it does. -/
structure Idle (w : World) (found : Disk) (n : Node) : Prop where
  running : n.pc ≠ .stopped
  disk : n.replica.disk = found
  former : n.replica.former = found.list
  tombstones : n.replica.tombstones = ∅
  torrents : n.replica.session.torrents = []
  written : n.replica.inbound.written = ∅
  pending : n.replica.repairs.pending = ∅
  peers : ∀ (endpoint : Bytes) (heard : Heard), n.replica.peers[endpoint]? = some heard →
    heard.hashes = hashHolding w found.list
  sending : ∀ diff current, n.pc = .sending diff current → diff.IsEmpty ∧ current = found.list
  said : ∀ v ∈ n.sent, v = Source.state w (hashHolding w found.list)

/-- A listing as it was last time is no change. -/
theorem localChanges_same (listing : FileMap) (noticed : TimePoint) :
    (localChanges listing listing ∅ ∅ noticed).1.IsEmpty ∧
      (localChanges listing listing ∅ ∅ noticed).2 = ∅ := by
  have hempty : ∀ {β : Type} {m : PathMap β}, (∀ p : Path, p ∉ m) → m = ∅ := by
    intro β m h
    refine Std.ExtTreeMap.ext_getElem? fun p => ?_
    rw [PathMap.notMem_iff.mp (h p), Std.ExtTreeMap.getElem?_empty]
  have hquiet : ∀ p, ¬ (p ∈ (localChanges listing listing ∅ ∅ noticed).1.created ∨
      p ∈ (localChanges listing listing ∅ ∅ noticed).1.modified) := by
    intro p h
    obtain ⟨t, ht⟩ := PathMap.mem_iff.mp (listed_of_announced h)
    exact ((localChanges_announced noticed ht).mp h).1 ht
  refine ⟨⟨hempty fun p h => ?_, hempty fun p h => hquiet p (.inl h),
    hempty fun p h => hquiet p (.inr h)⟩, hempty fun p => ?_⟩
  · obtain ⟨hf, hc⟩ := gone_of_removed h
    exact hc hf
  · rw [PathMap.notMem_iff]
    by_cases hc : p ∈ listing
    · obtain ⟨t, ht⟩ := PathMap.mem_iff.mp hc
      rw [localChanges_tombstones_listed ht, Std.ExtTreeMap.getElem?_empty]
      rfl
    · rw [localChanges_tombstones hc, if_neg fun h => hc h.1, Std.ExtTreeMap.getElem?_empty]

theorem send_empty {w : World} {tree : Tree} {diff : Diff} {current : FileMap} {now : TimePoint}
    (h : diff.IsEmpty) : send w tree diff current now = [] := by
  obtain ⟨hr, hc, hm⟩ := h
  simp [send, announceAll, hr, hc, hm]

theorem publishRepairs_empty {w : World} {r : Replica} (h : r.repairs.pending = ∅)
    (now : SteadyTime) : publishRepairs w r now = (r, []) := by
  obtain ⟨disk, session, former, tombstones, inbound, ⟨pending, applied, announcements⟩, peers⟩ := r
  subst h
  rfl

theorem pick_eq_none {draw : ℕ} {peers : StateMap} {mine : Bytes}
    (h : ∀ (endpoint : Bytes) (heard : Heard), peers[endpoint]? = some heard → heard.hashes = mine) :
    pick draw peers mine = none := by
  cases hp : pick draw peers mine with
  | none => rfl
  | some endpoint =>
    obtain ⟨heard, hin, hne⟩ := (DigestPartners.pick_cases draw peers mine).1 endpoint hp
    exact absurd (h endpoint heard hin) hne

namespace Idle

variable {w : World} {found : Disk} {n m : Node} {e : Event}

theorem start (w : World) (found : Disk) (clock : TimePoint) (steady : SteadyTime) :
    Idle w found (.start found clock steady) where
  running := by rintro ⟨⟩
  disk := rfl
  former := rfl
  tombstones := rfl
  torrents := rfl
  written := rfl
  pending := rfl
  peers endpoint heard h := by
    have h : (∅ : StateMap)[endpoint]? = some heard := h
    rw [Std.ExtTreeMap.getElem?_empty] at h
    cases h
  sending := by rintro diff current ⟨⟩
  said v hv := absurd hv List.not_mem_nil

theorem find (h : Idle w found n) (handle : ℕ) : n.replica.session.find handle = none := by
  cases hf : n.replica.session.find handle with
  | none => rfl
  | some t =>
    have ht := (Session.mem_of_find hf).1
    rw [h.torrents] at ht
    exact absurd ht List.not_mem_nil

theorem processed (h : Idle w found n) (alert : Alert) : processAlert w n alert = n.replica := by
  rw [processAlert, h.find]

theorem listed (h : Idle w found n) : Idle w found (listChanges n n.replica.disk.list) := by
  have hsame : changesAt n n.replica.disk.list =
      localChanges found.list found.list ∅ ∅ n.clock := by
    rw [changesAt, h.former, h.disk, h.written, h.tombstones]
  obtain ⟨hdiff, htombs⟩ := localChanges_same found.list n.clock
  rw [← hsame] at hdiff htombs
  exact { h with
    running := by rintro ⟨⟩
    tombstones := htombs
    sending := by
      rintro diff current ⟨⟩
      exact ⟨hdiff, by rw [h.disk]⟩ }

theorem sent (h : Idle w found n) {diff : Diff} {current : FileMap}
    (hp : n.pc = .sending diff current) : Idle w found (sendChanges w n diff current) := by
  obtain ⟨hdiff, rfl⟩ := h.sending diff current hp
  have htombs : expire n.replica.tombstones n.clock = ∅ := by
    rw [h.tombstones, expire, Std.ExtTreeMap.filter_eq_empty_iff]
    exact fun k hk => absurd hk Std.ExtTreeMap.not_mem_empty
  have hwritten : (n.replica.inbound.written.filter fun path _ => found.list.contains path) = ∅ := by
    rw [h.written, Std.ExtTreeMap.filter_eq_empty_iff]
    exact fun k hk => absurd hk Std.ExtTreeMap.not_mem_empty
  exact { h with
    running := by rintro ⟨⟩
    former := rfl
    tombstones := htombs
    written := hwritten
    sending := by rintro diff current ⟨⟩
    said := fun v hv => by
      rw [sendChanges, send_empty hdiff, List.append_nil] at hv
      exact h.said v hv }

theorem repaired (h : Idle w found n) : Idle w found (sendRepairs w n) := by
  rw [sendRepairs, publishRepairs_empty h.pending]
  dsimp only
  rw [List.append_nil]
  exact { h with
    running := by rintro ⟨⟩
    sending := by rintro diff current ⟨⟩ }

theorem published (h : Idle w found n) (draw : ℕ) :
    Idle w found { publishState w n draw with pc := .repair } := by
  have hpeers : ∀ (endpoint : Bytes) (heard : Heard),
      (forgetSilent n.replica.peers n.now)[endpoint]? = some heard →
        heard.hashes = hashHolding w found.list := fun endpoint heard hp =>
    h.peers endpoint heard (DigestPartners.getElem?_forgetSilent.mp hp).1
  have hmine : hash w.sha256 n.replica.former n.replica.tombstones = hashHolding w found.list := by
    rw [h.former, h.tombstones, hashHolding]
  have hsaid : (publishState w n draw).sent =
      n.sent ++ [Source.state w (hashHolding w found.list)] := by
    rw [publishState, hmine, pick_eq_none hpeers]
    rfl
  exact { h with
    running := by rintro ⟨⟩
    peers := hpeers
    sending := by rintro diff current ⟨⟩
    said := fun v hv => by
      have hv : v ∈ (publishState w n draw).sent := hv
      rw [hsaid, List.mem_append, List.mem_singleton] at hv
      exact hv.elim (h.said v) id }

theorem began (h : Idle w found n) : Idle w found (beginPass n) := by
  rw [beginPass]
  split <;>
  · exact { h with
      running := by rintro ⟨⟩
      sending := by rintro diff current ⟨⟩ }

theorem received (h : Idle w found n) {v : World} :
    Idle w found (takeIn w n (Source.state v (hashHolding w found.list))) := by
  rw [takeIn, receiveOne_state_eq (by rfl) rfl]
  dsimp only
  split
  · exact { h with
      running := by rintro ⟨⟩
      sending := by rintro diff current ⟨⟩ }
  · exact { h with
      running := by rintro ⟨⟩
      sending := by rintro diff current ⟨⟩
      peers := fun endpoint heard hp => by
        rw [DigestPartners.getElem?_insert_heard] at hp
        split at hp
        · obtain rfl := Option.some.inj hp
          rfl
        · exact h.peers endpoint heard hp }

theorem step (h : Idle w found n) (hs : Stepped w n e m) (hq : e.disturbs = false)
    (hv : ∀ v ∈ messageOf e, ∃ v', v = Source.state v' (hashHolding w found.list)) :
    Idle w found m := by
  cases hs with
  | tick | directory | post => exact { h with }
  | localWrite | localDelete => cases hq
  | ltOpen hf | ltVerify hf | ltWrite hf =>
    rw [h.find] at hf
    cases hf
  | ltState =>
    refine { h with torrents := ?_ }
    dsimp only
    rw [Session.modify, h.torrents, List.map_nil]
  | top => exact h.began
  | test =>
    refine { h with running := ?_, sending := ?_ }
    · dsimp only
      split <;> rintro ⟨⟩
    · intro diff current hp
      dsimp only at hp
      split at hp <;> cases hp
  | pop | processed | clear | idle | nothing =>
    exact { h with
      running := by rintro ⟨⟩
      sending := by rintro diff current ⟨⟩ }
  | process =>
    rw [h.processed]
    exact { h with
      running := by rintro ⟨⟩
      sending := by rintro diff current ⟨⟩ }
  | send hp => exact h.sent hp
  | repair => exact h.repaired
  | list =>
    obtain rfl := List.isEmpty_iff.mp ((Bool.not_eq_false' _).mp hq)
    rw [Disk.listBut_nil]
    exact h.listed
  | round =>
    split
    · exact h.published _
    · exact { h with
        running := by rintro ⟨⟩
        sending := by rintro diff current ⟨⟩ }
  | receive =>
    obtain ⟨v', rfl⟩ := hv _ rfl
    exact h.received

end Idle

section Runs

variable [DecidableEq ι] [Fintype ι] {w : ι → World} {disks : ι → Disk}
variable {clocks : ι → TimePoint} {steadies : ι → SteadyTime}
variable {h : History (ι → Node) (ι × Event)} {s : ι → Node}

/-- Nodes that start on equal trees and are left alone are idle, all of them. -/
theorem idle_of_run {sha256 : Bytes → Bytes} {tree : FileMap} (hsha : ∀ i, (w i).sha256 = sha256)
    (htree : ∀ i, (disks i).list = tree)
    (hr : Run (swarmStep w) (swarmStart disks clocks steadies) h s)
    (hq : ∀ x ∈ h, x.2.2.disturbs = false) (i : ι) : Idle (w i) (disks i) (s i) := by
  have hstands : ∀ i, hashHolding (w i) (disks i).list = hash sha256 tree ∅ := by
    intro i
    rw [hashHolding, hsha, htree]
  have hsaid : ∀ i, ∀ v ∈ ((w i).party).said (swarmStart disks clocks steadies i),
      ∃ j, v = Source.state (w j) (hash sha256 tree ∅) := fun i v hv => absurd hv List.not_mem_nil
  have hstep : ∀ (s : ι → Node) (i : ι) (e : Event) (m : Node), Idle (w i) (disks i) (s i) →
      (∀ v ∈ messageOf e, ∃ j, v = Source.state (w j) (hash sha256 tree ∅)) →
      e.disturbs = false → SyncFs.step (w i) (s i) e = some m → Idle (w i) (disks i) m ∧
        ∀ v ∈ m.sent, v ∈ (s i).sent ∨ ∃ j, v = Source.state (w j) (hash sha256 tree ∅) := by
    intro s i e m hI hv hq hs
    have hm := hI.step (stepped (w i) hs) hq fun v he => by
      obtain ⟨j, rfl⟩ := hv v he
      exact ⟨w j, by rw [hstands]⟩
    refine ⟨hm, fun v hv => .inr ⟨i, ?_⟩⟩
    rw [hm.said v hv, hstands]
  exact (rely_guarantee (c := fun _ e => Event.disturbs e.2 = false)
    (fun i => Idle.start (w i) (disks i) _ _) hsaid hstep hr (always_of_forall hq)).1 i

/-- Nodes that start on equal trees and are left alone keep them and say where
they stand, nothing else: no create, no remove and no digest, whatever wakes
them and whatever they hear of one another, late, again or never. -/
theorem idle_swarm_is_quiet {sha256 : Bytes → Bytes} {tree : FileMap}
    (hsha : ∀ i, (w i).sha256 = sha256) (htree : ∀ i, (disks i).list = tree)
    (hr : Run (swarmStep w) (swarmStart disks clocks steadies) h s)
    (hq : ∀ x ∈ h, x.2.2.disturbs = false) (i : ι) :
    (s i).pc ≠ .stopped ∧ (s i).replica.disk = disks i ∧ (s i).replica.former = tree ∧
      (s i).replica.tombstones = ∅ ∧ (s i).replica.session.torrents = [] ∧
      ∀ v ∈ (s i).sent, v = Source.state (w i) (hash sha256 tree ∅) := by
  have hi := idle_of_run hsha htree hr hq i
  rw [← htree i, ← hsha i]
  exact ⟨hi.running, hi.disk, hi.former, hi.tombstones, hi.torrents, hi.said⟩

/-- What such nodes say is no more than a message a period each, whatever they
hear and however often they are woken. -/
theorem idle_swarm_is_cheap {sha256 : Bytes → Bytes} {tree : FileMap}
    (hsha : ∀ i, (w i).sha256 = sha256) (htree : ∀ i, (disks i).list = tree)
    (hr : Run (swarmStep w) (swarmStart disks clocks steadies) h s)
    (hq : ∀ x ∈ h, x.2.2.disturbs = false) (i : ι) :
    period * (s i).sent.length ≤ (s i).steady - steadies i := by
  have hi := idle_of_run hsha htree hr hq i
  have hown : Run (SyncFs.step (w i)) (.start (disks i) (clocks i) (steadies i)) (own i h) (s i) :=
    run_own hr i
  have hall : saidWith (ascii "state") (s i).sent = (s i).sent.length := by
    rw [saidWith, List.countP_eq_length]
    intro v hv
    rw [hi.said v hv, verbOf_state]
    exact decide_eq_true rfl
  rw [← hall, (said_of_run hown).1]
  exact (period_mul_rounds_le _).trans (waited_of_run hown).2

def minute : List (Bool × Event) :=
  does false (.tick (seconds 60).toNat :: pass true none) ++
    does true (pass false (some (Source.state (samplePair false)
      (hash sampleSha256 (Disk.list sampleTree) ∅))))

theorem minute_is_quiet :
    ∃ h s, Run (swarmStep samplePair)
        (swarmStart (fun _ => sampleTree) (fun _ => 1000) (fun _ => 0)) h s ∧
      (s false).sent ≠ [] ∧ (s true).replica.disk = sampleTree := by
  obtain ⟨h, s, hr, hsaid, hq⟩ := exists_run (swarmStep samplePair)
    (swarmStart (fun _ => sampleTree) (fun _ => 1000) (fun _ => 0)) minute
    (fun h s => (s false).sent ≠ [] ∧ ∀ x ∈ h, x.2.2.disturbs = false) (by decide +kernel)
  have hsha : ∀ second, (samplePair second).sha256 = sampleSha256 := fun _ => rfl
  exact ⟨h, s, hr, hsaid, (idle_swarm_is_quiet hsha (fun _ => rfl) hr hq true).2.1⟩

theorem minute_is_cheap :
    ∃ h s, Run (swarmStep samplePair)
        (swarmStart (fun _ => sampleTree) (fun _ => 1000) (fun _ => 0)) h s ∧
      (s false).sent.length = 1 ∧ period * (s false).sent.length ≤ seconds 60 := by
  obtain ⟨h, s, hr, hsaid, hsteady, hq⟩ := exists_run (swarmStep samplePair)
    (swarmStart (fun _ => sampleTree) (fun _ => 1000) (fun _ => 0)) minute
    (fun h s => (s false).sent.length = 1 ∧ (s false).steady = seconds 60 ∧
      ∀ x ∈ h, x.2.2.disturbs = false) (by decide +kernel)
  have hsha : ∀ second, (samplePair second).sha256 = sampleSha256 := fun _ => rfl
  have hcheap := idle_swarm_is_cheap hsha (fun _ => rfl) hr hq false
  rw [hsteady, sub_zero] at hcheap
  exact ⟨h, s, hr, hsaid, hcheap⟩

end Runs

end SyncFs
