import SyncFs.SyncLoop

/-!
# The creates a run applies

Which create was applied last for a path is read off the history of the run.
What a node keeps about a path by way of its creates, the origin waiting for
the stamp, the announcement in the cache and what it was applied with, all
comes from that one message.
-/

namespace SyncFs

open CharConversions LabelledRuns

section

variable (w : World)

def appliedBy (n : Node) (e : Event) : Option (List Bytes) :=
  match n.pc, e with
  | .receive, .receive (some v) => if applies w v n.replica then some v else none
  | _, _ => none

def lastApplied : History Node Event → Path → Option (List Bytes)
  | [], _ => none
  | (n, e) :: h, p =>
    match appliedBy w n e with
    | some v => if announcedPath v = p then some v else lastApplied h p
    | none => lastApplied h p

end

variable {w : World} {n m : Node} {e : Event} {h : History Node Event}

theorem appliedBy_eq_none (he : ∀ v, e ≠ .receive (some v)) : appliedBy w n e = none := by
  unfold appliedBy
  split
  · next v _ => exact absurd rfl (he v)
  · rfl

theorem appliedBy_receive {v : List Bytes} (hp : n.pc = .receive) :
    appliedBy w n (.receive (some v)) = if applies w v n.replica then some v else none := by
  unfold appliedBy
  rw [hp]

theorem appliedBy_eq_some {v : List Bytes} :
    appliedBy w n e = some v ↔
      n.pc = .receive ∧ e = .receive (some v) ∧ applies w v n.replica = true := by
  constructor
  · intro h
    unfold appliedBy at h
    split at h
    · next u hp =>
      obtain ⟨ha, hu⟩ := Option.ite_none_right_eq_some.mp h
      obtain rfl := Option.some.inj hu
      exact ⟨hp, rfl, ha⟩
    · cases h
  · rintro ⟨hp, rfl, ha⟩
    rw [appliedBy_receive hp, if_pos ha]

theorem lastApplied_other {p : Path} (ha : ∀ v ∈ appliedBy w n e, announcedPath v ≠ p) :
    lastApplied w ((n, e) :: h) p = lastApplied w h p := by
  rw [lastApplied]
  cases hv : appliedBy w n e with
  | none => rfl
  | some v => exact if_neg (ha v hv)

theorem lastApplied_of_none (hn : appliedBy w n e = none) :
    lastApplied w ((n, e) :: h) = lastApplied w h := by
  funext p
  rw [lastApplied, hn]

/-- A step of a loop that goes on, as far as the replica is concerned. -/
theorem takeIn_live {v : List Bytes} (hl : (takeIn w n v).pc ≠ .stopped) :
    ∃ r, takeIn w n v = { n with pc := .top, replica := r } ∧
      Received w v n.clock n.replica (applies w v n.replica) (.ok r) := by
  have hr := received w v n.clock n.steady n.replica
  cases ho : receiveOne w v n.clock n.steady n.replica with
  | error r =>
    rw [takeIn, ho] at hl
    exact absurd rfl hl
  | ok r =>
    rw [ho] at hr
    exact ⟨r, by rw [takeIn, ho], hr⟩

def Pc.goesOn : Pc → Bool
  | .stopped => false
  | _ => true

theorem ne_stopped (h : n.pc.goesOn = true) : n.pc ≠ .stopped := by
  intro hp
  rw [hp] at h
  cases h

/-- A loop that has ended stays ended. -/
theorem Stepped.stopped (hs : Stepped w n e m) (hn : n.pc = .stopped) : m.pc = .stopped := by
  cases hs with
  | tick | directory | localWrite | localDelete | ltOpen | ltVerify | ltWrite | ltState | post => exact hn
  | top hp | test hp | pop hp | processed hp | process hp | clear hp | send hp | repair hp
  | idle hp | list hp | round hp | nothing hp | receive hp =>
    rw [hn] at hp
    cases hp

/-- What holds at the start and survives every step the loop survives holds for
as long as the loop goes on. -/
theorem live_invariant {start : Node} {c : History Node Event → Node → Event → Prop}
    {I : History Node Event → Node → Prop} (hi : I [] start)
    (hs : ∀ h n e m, I h n → c h n e → Stepped w n e m → m.pc ≠ .stopped → I ((n, e) :: h) m)
    (hr : Run (step w) start h n) (ha : Always c h) : n.pc = .stopped ∨ I h n := by
  refine hr.invariant (I := fun h n => n.pc = .stopped ∨ I h n) (.inr hi) ?_ ha
  intro h n e m _ hI hc he
  have hst := stepped w he
  by_cases hm : m.pc = .stopped
  · exact .inl hm
  · rcases hI with hn | hI
    · exact absurd (hst.stopped hn) hm
    · exact .inr (hs h n e m hI hc hst hm)

/-- What holds of every step an invariant allows and of the steps of a loop that
has ended holds of every step of a run. -/
theorem live_always {start : Node} {c d : History Node Event → Node → Event → Prop}
    {I : History Node Event → Node → Prop} (hi : I [] start)
    (hs : ∀ h n e m, I h n → c h n e → Stepped w n e m → m.pc ≠ .stopped → I ((n, e) :: h) m)
    (hd : ∀ h n e, I h n → c h n e → d h n e) (hstop : ∀ h n e, n.pc = .stopped → d h n e)
    (hr : Run (step w) start h n) (ha : Always c h) : Always d h := by
  induction hr with
  | refl => trivial
  | snoc hr _ ih =>
    refine ⟨?_, ih ha.2⟩
    rcases live_invariant hi hs hr ha.2 with hp | hI
    · exact hstop _ _ _ hp
    · exact hd _ _ _ hI ha.1

/-- All a node keeps about a path by way of its creates comes from the last one
applied. -/
structure Recalls (last : Path → Option (List Bytes)) (r : Replica) : Prop where
  applied : ∀ p a, r.repairs.applied[p]? = some a → ∃ v, last p = some v ∧ a.origin = originOf v
  announced : ∀ p b, r.repairs.announcements[p]? = some b →
    ∃ v, last p = some v ∧ b = part v 1
  both : ∀ p, p ∈ r.repairs.announcements → p ∈ r.repairs.applied
  origin : ∀ p o, r.inbound.origins[p]? = some o → ∃ v, last p = some v ∧ o = originOf v

namespace Recalls

variable {last : Path → Option (List Bytes)} {r r' : Replica}

theorem congr (hr : Recalls last r) (ha : r'.repairs.applied = r.repairs.applied)
    (hb : r'.repairs.announcements = r.repairs.announcements)
    (ho : ∀ (p : Path) (o : FileTime), r'.inbound.origins[p]? = some o →
      r.inbound.origins[p]? = some o) : Recalls last r' where
  applied p a h := hr.applied p a (ha ▸ h)
  announced p b h := hr.announced p b (hb ▸ h)
  both p h := ha ▸ hr.both p (hb ▸ h)
  origin p o h := hr.origin p o (ho p o h)

theorem forget (hr : Recalls last r) (path : Path)
    (ha : r'.repairs = r.repairs.forget path) (ho : r'.inbound = r.inbound) :
    Recalls last r' where
  applied p a h := by
    rw [ha, Repairs.forget, PathMap.getElem?_erase] at h
    split at h
    · cases h
    · exact hr.applied p a h
  announced p b h := by
    rw [ha, Repairs.forget, PathMap.getElem?_erase] at h
    split at h
    · cases h
    · exact hr.announced p b h
  both p h := by
    rw [ha, Repairs.forget, Std.ExtTreeMap.mem_erase] at h ⊢
    exact ⟨h.1, hr.both p h.2⟩
  origin p o h := hr.origin p o (ho ▸ h)

theorem apply (hr : Recalls last r) (v : List Bytes) (torrent : TorrentInfo) :
    Recalls (fun p => if announcedPath v = p then some v else last p) (r.applied w v torrent) := by
  obtain ⟨left, he, hl⟩ := applied_cases w r v torrent
  have ho : ∀ (p : Path) (o : FileTime), left.inbound.origins[p]? = some o →
      (r.serving w v torrent).inbound.origins[p]? = some o := by
    intro p o h
    rcases hl with ⟨-, hs⟩ | ⟨-, rfl⟩
    · exact hs.origins h
    · exact h
  rw [he]
  constructor
  · intro p a h
    rw [Repairs.follow, PathMap.getElem?_insert] at h
    split at h
    · next hp =>
      obtain rfl := Option.some.inj h
      exact ⟨v, if_pos hp, rfl⟩
    · next hp =>
      rw [if_neg hp]
      exact hr.applied p a h
  · intro p b h
    rw [Repairs.follow, PathMap.getElem?_insert] at h
    split at h
    · next hp =>
      obtain rfl := Option.some.inj h
      exact ⟨v, if_pos hp, rfl⟩
    · next hp =>
      rw [if_neg hp]
      exact hr.announced p b h
  · intro p h
    rw [Repairs.follow, Std.ExtTreeMap.mem_insert] at h ⊢
    exact h.imp_right (hr.both p)
  · intro p o h
    have h := ho p o h
    rw [Replica.serving, Replica.awaiting, PathMap.getElem?_insert] at h
    split at h
    · next hp =>
      obtain rfl := Option.some.inj h
      exact ⟨v, if_pos hp, rfl⟩
    · next hp =>
      rw [if_neg hp]
      exact hr.origin p o h

end Recalls

theorem erase_repairs {r left : Replica} {path : Path} (h : erase w r path = .ok left) :
    left.repairs = r.repairs ∧ left.inbound = r.inbound := by
  obtain ⟨disk, -, rfl⟩ := erase_ok h
  exact ⟨rfl, rfl⟩

theorem Recalls.received {last : Path → Option (List Bytes)} {r r' : Replica} {v : List Bytes}
    {clock : TimePoint} {b : Bool} (hr : Recalls last r)
    (h : Received w v clock r b (.ok r')) :
    Recalls (if b then fun p => if announcedPath v = p then some v else last p else last) r' := by
  cases h with
  | rejected => exact hr
  | removed removes erased =>
    obtain ⟨hp, hi⟩ := erase_repairs erased
    exact hr.forget _ (congrArg (Repairs.forget · _) hp) hi
  | refused => exact hr.congr rfl rfl fun _ _ h => h
  | applied => exact hr.apply v _
  | state => exact hr.congr rfl rfl fun _ _ h => h
  | digest _ adopted pending =>
    have ha := adopt_preserves (P := Recalls last) hr
      (fun r path moment _ hr => hr.congr rfl rfl fun _ _ h => h)
      (fun r left path moment _ hr he => by
        obtain ⟨hp, hi⟩ := erase_repairs he
        exact hr.forget path (congrArg (Repairs.forget · path) hp) hi)
      adopted
    exact ha.congr rfl rfl fun _ _ h => h

theorem lastApplied_receive {v : List Bytes} (hp : n.pc = .receive) :
    lastApplied w ((n, .receive (some v)) :: h) =
      if applies w v n.replica then
        fun p => if announcedPath v = p then some v else lastApplied w h p
      else lastApplied w h := by
  funext p
  rw [lastApplied, appliedBy_receive hp]
  cases applies w v n.replica <;> rfl

private theorem Recalls.other (hr : Recalls (lastApplied w h) n.replica)
    (he : ∀ v, e ≠ .receive (some v)) (ha : m.replica.repairs.applied = n.replica.repairs.applied)
    (hb : m.replica.repairs.announcements = n.replica.repairs.announcements)
    (ho : ∀ (p : Path) (o : FileTime), m.replica.inbound.origins[p]? = some o →
      n.replica.inbound.origins[p]? = some o) :
    Recalls (lastApplied w ((n, e) :: h)) m.replica := by
  rw [lastApplied_of_none (appliedBy_eq_none he)]
  exact hr.congr ha hb ho

theorem Recalls.step (hr : Recalls (lastApplied w h) n.replica) (hs : Stepped w n e m)
    (hl : m.pc ≠ .stopped) : Recalls (lastApplied w ((n, e) :: h)) m.replica := by
  cases hs with
  | tick | directory | localWrite | localDelete | ltOpen | ltVerify | ltWrite | ltState | post | test | pop
  | processed | clear | send | idle | list | nothing | repair =>
    exact hr.other (by simp) rfl rfl fun _ _ h => h
  | top =>
    refine hr.other (by simp) ?_ ?_ ?_ <;> rw [beginPass] <;> split
    all_goals first | rfl | exact fun _ _ h => h
  | round =>
    refine hr.other (by simp) ?_ ?_ ?_ <;> split
    all_goals first | rfl | exact fun _ _ h => h
  | @process alert rest =>
    have hp := SyncFs.processed w n alert
    generalize processAlert w n alert = r at hp
    cases hp with
    | skipped => exact hr.other (by simp) rfl rfl fun _ _ h => h
    | finished => exact hr.other (by simp) rfl rfl fun _ _ h => h
    | flushed _ _ stamps =>
      exact hr.other (by simp) (congrArg Repairs.applied stamps.repairs)
        (congrArg Repairs.announcements stamps.repairs) fun _ _ h => stamps.origins h
  | @receive v hp =>
    obtain ⟨r, he, hrec⟩ := takeIn_live hl
    rw [he, lastApplied_receive hp]
    exact hr.received hrec

/-- What a node keeps comes from the last create applied, as long as its loop goes on. -/
theorem recalls {disk : Disk} {clock : TimePoint} {steady : SteadyTime}
    (hr : Run (step w) (.start disk clock steady) h n) :
    n.pc = .stopped ∨ Recalls (lastApplied w h) n.replica := by
  have hi : Recalls (lastApplied w []) (Node.start disk clock steady).replica := by
    constructor <;> simp [Node.start]
  exact live_invariant (I := fun h n => Recalls (lastApplied w h) n.replica) hi
    (fun _ _ _ _ hI _ hs hl => hI.step hs hl) hr (always_true h)

end SyncFs
