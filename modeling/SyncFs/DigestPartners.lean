import SyncFs.SyncLoop

/-!
# The peer a round asks

Root hashes are filed under the endpoint that said them. A round forgets the
peers that have fallen silent and draws one of those whose hash is not its own.
-/

namespace SyncFs.DigestPartners

open CharConversions LabelledRuns

/-- The node, and what the clock showed at the last message or round. -/
structure Rounds where
  replica : Replica
  clock : ℤ

inductive Event
  | state (hashes sender : Bytes) (clock : TimePoint) (steady : ℤ)
  | round (now : ℤ)
  deriving DecidableEq

section

variable (w : World)

/-- The steady clock does not go back. -/
def step (s : Rounds) : Event → Option Rounds
  | .state hashes sender clock steady =>
    if steady < s.clock then none
    else match reconcileMessage w (ascii "state") [ascii "state", hashes, sender] clock steady
        s.replica with
      | .error _ => none
      | .ok r => some ⟨r, steady⟩
  | .round now =>
    if now < s.clock then none
    else some ⟨{ s.replica with peers := forgetSilent s.replica.peers now }, now⟩

/-- Where a peer stood when it last said so, and when that was. -/
def lastHeard (endpoint : Bytes) : History Rounds Event → Option Heard
  | [] => none
  | (_, .state hashes sender _ steady) :: h =>
    if sender = endpoint then some ⟨hashes, steady⟩ else lastHeard endpoint h
  | (_, .round _) :: h => lastHeard endpoint h

/-- Not this node, standing elsewhere when last heard, and heard lately. -/
def Candidate (h : History Rounds Event) (now : ℤ) (mine endpoint : Bytes) : Prop :=
  endpoint ≠ w.endpoint ∧ ∃ heard, lastHeard endpoint h = some heard ∧
    heard.hashes ≠ mine ∧ now - heard.moment ≤ peerSilence

/-- The record is what was last heard, except of peers silent for too long. -/
structure Recorded (h : History Rounds Event) (s : Rounds) : Prop where
  heard : ∀ (endpoint : Bytes) (heard : Heard), s.replica.peers[endpoint]? = some heard →
    endpoint ≠ w.endpoint ∧ lastHeard endpoint h = some heard
  kept : ∀ (endpoint : Bytes) (heard : Heard), endpoint ≠ w.endpoint →
    lastHeard endpoint h = some heard →
    s.replica.peers[endpoint]? = some heard ∨ s.clock - heard.moment > peerSilence

end

variable {w : World} {h : History Rounds Event} {s t : Rounds} {e : Event}

theorem getElem?_forgetSilent {peers : StateMap} {now : ℤ} {endpoint : Bytes} {heard : Heard} :
    (forgetSilent peers now)[endpoint]? = some heard ↔
      peers[endpoint]? = some heard ∧ now - heard.moment ≤ peerSilence := by
  rw [forgetSilent, Std.ExtTreeMap.getElem?_filter', Option.filter_eq_some_iff]
  simp

theorem getElem?_insert_heard {peers : StateMap} {sender endpoint : Bytes} {heard : Heard} :
    (peers.insert sender heard)[endpoint]? =
      if sender = endpoint then some heard else peers[endpoint]? := by
  simp [Std.ExtTreeMap.getElem?_insert]

theorem Recorded.later (hg : Recorded w h s) {now : ℤ} (hclock : ¬ now < s.clock) {endpoint : Bytes}
    {heard : Heard} (hne : endpoint ≠ w.endpoint) (hl : lastHeard endpoint h = some heard) :
    s.replica.peers[endpoint]? = some heard ∨ now - heard.moment > peerSilence := by
  have hmono : s.clock - heard.moment > peerSilence → now - heard.moment > peerSilence := by
    intro hm
    omega
  exact (hg.kept endpoint heard hne hl).imp_right hmono

/-- Its own hash came back to the node. -/
theorem Recorded.own (hg : Recorded w h s) {hashes : Bytes} {clock : TimePoint} {steady : ℤ}
    (hclock : ¬ steady < s.clock) :
    Recorded w ((s, .state hashes w.endpoint clock steady) :: h) ⟨s.replica, steady⟩ := by
  refine ⟨fun endpoint heard hp => ?_, fun endpoint heard hne hl => ?_⟩
  · obtain ⟨hne, hl⟩ := hg.heard endpoint heard hp
    exact ⟨hne, (if_neg hne.symm).trans hl⟩
  · exact hg.later hclock hne ((if_neg hne.symm).symm.trans hl)

/-- A peer said where it stands. -/
theorem Recorded.peer (hg : Recorded w h s) {hashes sender : Bytes} {clock : TimePoint} {steady : ℤ}
    (hclock : ¬ steady < s.clock) (hown : sender ≠ w.endpoint) :
    Recorded w ((s, .state hashes sender clock steady) :: h)
      ⟨{ s.replica with peers := s.replica.peers.insert sender ⟨hashes, steady⟩ }, steady⟩ := by
  refine ⟨fun endpoint heard hp => ?_, fun endpoint heard hne hl => ?_⟩
  · simp only [getElem?_insert_heard] at hp
    rw [lastHeard]
    split at hp
    · next heq =>
      subst heq
      exact ⟨hown, by rw [if_pos rfl, hp]⟩
    · next hne =>
      rw [if_neg hne]
      exact hg.heard endpoint heard hp
  · simp only [getElem?_insert_heard]
    rw [lastHeard] at hl
    split at hl
    · next heq =>
      rw [if_pos heq]
      exact Or.inl hl
    · next hother =>
      rw [if_neg hother]
      exact hg.later hclock hne hl

/-- A round forgot the silent. -/
theorem Recorded.round (hg : Recorded w h s) {now : ℤ} (hclock : ¬ now < s.clock) :
    Recorded w ((s, .round now) :: h)
      ⟨{ s.replica with peers := forgetSilent s.replica.peers now }, now⟩ := by
  refine ⟨fun endpoint heard hp => ?_, fun endpoint heard hne hl => ?_⟩
  · exact hg.heard endpoint heard (getElem?_forgetSilent.mp hp).1
  · simp only [getElem?_forgetSilent]
    by_cases hlate : now - heard.moment ≤ peerSilence
    · rcases hg.later hclock hne hl with hp | hsilent
      · exact Or.inl ⟨hp, hlate⟩
      · exact absurd hlate (not_le.mpr hsilent)
    · exact Or.inr (not_le.mp hlate)

theorem recorded_step (hg : Recorded w h s) (he : step w s e = some t) :
    Recorded w ((s, e) :: h) t := by
  cases e with
  | state hashes sender clock steady =>
    rw [step] at he
    split at he
    · cases he
    next hclock =>
    have hmessage : reconcileMessage w (ascii "state") [ascii "state", hashes, sender] clock steady
        s.replica = .ok (if sender = w.endpoint then s.replica else
          { s.replica with peers := s.replica.peers.insert sender ⟨hashes, steady⟩ }) := rfl
    rw [hmessage] at he
    obtain rfl := Option.some.inj he
    by_cases hown : sender = w.endpoint
    · subst hown
      rw [if_pos rfl]
      exact hg.own hclock
    · rw [if_neg hown]
      exact hg.peer hclock hown
  | round now =>
    rw [step] at he
    split at he
    · cases he
    next hclock =>
    obtain rfl := Option.some.inj he
    exact hg.round hclock

/-- The draw is one of the endpoints whose hash differs, and there is one as
long as there are any. -/
theorem pick_cases (draw : ℕ) (peers : StateMap) (mine : Bytes) :
    (∀ endpoint, pick draw peers mine = some endpoint →
      ∃ heard : Heard, peers[endpoint]? = some heard ∧ heard.hashes ≠ mine) ∧
    (pick draw peers mine = none → ∀ (endpoint : Bytes) (heard : Heard),
      peers[endpoint]? = some heard → heard.hashes = mine) := by
  have hmem : ∀ endpoint, endpoint ∈ (peers.toList.filter fun e => e.2.hashes ≠ mine).map Prod.fst ↔
      ∃ heard : Heard, peers[endpoint]? = some heard ∧ heard.hashes ≠ mine := by
    intro endpoint
    simp only [List.mem_map, List.mem_filter, Prod.exists, exists_and_right, exists_eq_right,
      decide_eq_true_eq, Std.ExtTreeMap.mem_toList_iff_getElem?_eq_some]
  simp only [pick]
  constructor
  · intro endpoint hp
    exact (hmem endpoint).mp (List.mem_of_getElem? hp)
  · intro hnone endpoint heard hp
    by_contra hne
    have hin := (hmem endpoint).mpr ⟨heard, hp, hne⟩
    have hlt := Nat.mod_lt draw (List.length_pos_of_mem hin)
    rw [List.getElem?_eq_none_iff] at hnone
    omega

/-- In every run of messages and rounds the next round asks a candidate, and
nobody only where there is none. -/
theorem asks_candidate {r : Replica} {clock now : ℤ} (hr : Run (step w) ⟨r, clock⟩ h s)
    (hempty : r.peers = ∅) (hnow : s.clock ≤ now) (draw : ℕ) (mine : Bytes) :
    (∀ endpoint, pick draw (forgetSilent s.replica.peers now) mine = some endpoint →
      Candidate w h now mine endpoint) ∧
    (pick draw (forgetSilent s.replica.peers now) mine = none →
      ∀ endpoint, ¬ Candidate w h now mine endpoint) := by
  have hstart : Recorded w [] ⟨r, clock⟩ :=
    ⟨fun endpoint heard hp => by simp [hempty] at hp, fun endpoint heard _ hl => by cases hl⟩
  have hg : Recorded w h s :=
    hr.invariant hstart (fun _ _ _ _ _ hg _ he => recorded_step hg he) (always_true h)
  obtain ⟨hsome, hnone⟩ := pick_cases draw (forgetSilent s.replica.peers now) mine
  constructor
  · intro endpoint hp
    obtain ⟨heard, hin, hdiffers⟩ := hsome endpoint hp
    obtain ⟨hin, hlate⟩ := getElem?_forgetSilent.mp hin
    obtain ⟨hne, hl⟩ := hg.heard endpoint heard hin
    exact ⟨hne, heard, hl, hdiffers, hlate⟩
  · rintro hp endpoint ⟨hne, heard, hl, hdiffers, hlate⟩
    rcases hg.kept endpoint heard hne hl with hin | hsilent
    · exact hdiffers (hnone hp endpoint heard (getElem?_forgetSilent.mpr ⟨hin, hlate⟩))
    · omega

/-- Its own hash, a peer that stands where it does and one that has moved on. -/
theorem asks_candidate_moved : ∃ h s,
    Run (step sampleWorld) ⟨(Node.start ∅ 0 0).replica, 0⟩ h s ∧ h.length = 4 ∧
      Candidate sampleWorld h (seconds 181) (ascii "x") (ascii "tcp://10.0.0.3:5555") := by
  have own : Run (step sampleWorld) ⟨(Node.start ∅ 0 0).replica, 0⟩ _ _ :=
    Run.refl.snoc (e := .state (ascii "y") sampleWorld.endpoint 0 1) rfl
  have agrees : Run (step sampleWorld) ⟨(Node.start ∅ 0 0).replica, 0⟩ _ _ :=
    own.snoc (e := .state (ascii "x") (ascii "tcp://10.0.0.2:5555") 0 1) rfl
  have round : Run (step sampleWorld) ⟨(Node.start ∅ 0 0).replica, 0⟩ _ _ :=
    agrees.snoc (e := .round (seconds 1)) rfl
  have moved : Run (step sampleWorld) ⟨(Node.start ∅ 0 0).replica, 0⟩ _ _ :=
    round.snoc (e := .state (ascii "y") (ascii "tcp://10.0.0.3:5555") 0 (seconds 2)) rfl
  have later : seconds 2 ≤ seconds 181 := by decide
  refine ⟨_, _, moved, rfl, (asks_candidate moved rfl later 7 (ascii "x")).1 _ ?_⟩
  decide +kernel

end SyncFs.DigestPartners
