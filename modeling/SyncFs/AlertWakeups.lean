import SyncFs.SyncLoop

/-!
# Alert wake-ups

The callback runs only when the alert queue goes from empty to non-empty, and
the loop clears the flag after it has emptied the queue. An alert queued in
between raises the flag and the clear takes it down again, and from then on no
alert raises it: the queue never empties.
-/

namespace SyncFs

open CharConversions LabelledRuns

/-- The loop is in its drain section, from before the pop to the clear. -/
def Pc.drains : Pc → Bool
  | .pop | .process _ | .clear => true
  | _ => false

def Pc.popped : Pc → Bool
  | .process _ | .clear => true
  | _ => false

def Event.isPost : Event → Bool
  | .post _ _ => true
  | _ => false

/-- Outside the drain section, what is queued has the flag set. -/
def Awake (n : Node) : Prop := n.pc.drains = false → n.alerts ≠ [] → n.alertReady = true

/-- Alerts are queued, the flag is clear and the loop is past its drain. -/
def Deaf (n : Node) : Prop := n.pc.drains = false ∧ n.alerts ≠ [] ∧ n.alertReady = false

def QuietDrain (n : Node) (e : Event) : Prop := ¬ (n.pc.popped = true ∧ e.isPost = true)

instance (n : Node) : Decidable (Deaf n) := by unfold Deaf; infer_instance

instance (n : Node) (e : Event) : Decidable (QuietDrain n e) := by
  unfold QuietDrain
  infer_instance

theorem not_awake_iff {n : Node} : ¬ Awake n ↔ Deaf n := by
  simp [Awake, Deaf]

variable {w : World} {n m : Node} {e : Event}

theorem Stepped.alert_cases (hs : Stepped w n e m) :
    (e.isPost = true ∧ m.pc = n.pc ∧ m.alerts ≠ [] ∧
      m.alertReady = (n.alertReady || n.alerts.isEmpty)) ∨
    (e.isPost = false ∧ (
      (n.pc = .test ∧ m.pc = (if n.alertReady then .pop else .wait) ∧ m.alerts = n.alerts ∧
        m.alertReady = n.alertReady) ∨
      (n.pc = .pop ∧ m.pc = .process n.alerts ∧ m.alerts = []) ∨
      (n.pc = .clear ∧ m.pc = .wait ∧ m.alerts = n.alerts ∧ m.alertReady = false) ∨
      (m.pc.drains = n.pc.drains ∧ m.pc.popped = n.pc.popped ∧ m.alerts = n.alerts ∧
        m.alertReady = n.alertReady))) := by
  cases hs with
  | post => exact .inl ⟨rfl, rfl, by simp, rfl⟩
  | test hp => exact .inr ⟨rfl, .inl ⟨hp, rfl, rfl, rfl⟩⟩
  | pop hp => exact .inr ⟨rfl, .inr (.inl ⟨hp, rfl, rfl⟩)⟩
  | clear hp => exact .inr ⟨rfl, .inr (.inr (.inl ⟨hp, rfl, rfl, rfl⟩))⟩
  | top hp =>
    refine .inr ⟨rfl, .inr (.inr (.inr ?_))⟩
    rw [beginPass, hp]
    split <;> exact ⟨rfl, rfl, rfl, rfl⟩
  | round hp =>
    refine .inr ⟨rfl, .inr (.inr (.inr ?_))⟩
    rw [hp]
    split <;> exact ⟨rfl, rfl, rfl, rfl⟩
  | receive hp =>
    refine .inr ⟨rfl, .inr (.inr (.inr ?_))⟩
    rw [takeIn, hp]
    split <;> exact ⟨rfl, rfl, rfl, rfl⟩
  | processed hp | process hp | send hp | repair hp | idle hp | list hp | nothing hp =>
    refine .inr ⟨rfl, .inr (.inr (.inr ?_))⟩
    rw [hp]
    exact ⟨rfl, rfl, rfl, rfl⟩
  | tick | directory | localWrite | localDelete | ltOpen | ltVerify | ltWrite | ltState =>
    exact .inr ⟨rfl, .inr (.inr (.inr ⟨rfl, rfl, rfl, rfl⟩))⟩

theorem Pc.drains_of_popped {pc : Pc} (h : pc.popped = true) : pc.drains = true := by
  cases pc <;> first | rfl | cases h

theorem Deaf.step (hd : Deaf n) (hs : step w n e = some m) : Deaf m := by
  obtain ⟨ho, hq, hf⟩ := hd
  rcases (stepped w hs).alert_cases with ⟨-, hpc, hm, hr⟩ | ⟨-, ht | hp | hc | ⟨hpc, -, hm, hr⟩⟩
  · refine ⟨hpc ▸ ho, hm, ?_⟩
    rw [hr, hf, Bool.false_or]
    simpa using hq
  · obtain ⟨-, hpc, hm, hr⟩ := ht
    rw [hf] at hpc
    exact ⟨by rw [hpc]; rfl, hm ▸ hq, hr.trans hf⟩
  · rw [hp.1] at ho
    cases ho
  · rw [hc.1] at ho
    cases ho
  · exact ⟨hpc.trans ho, hm ▸ hq, hr.trans hf⟩

theorem Deaf.run (hd : Deaf n) {h : History Node Event} (hr : Run (SyncFs.step w) n h m) :
    Deaf m :=
  hr.preserved hd fun _ _ _ => Deaf.step

/-- The queue is empty from the pop on, and the node is awake elsewhere. -/
structure Attentive (n : Node) : Prop where
  drained : n.pc.popped = true → n.alerts = []
  awake : Awake n

theorem Attentive.start (disk : Disk) (clock : TimePoint) (steady : SteadyTime) :
    Attentive (.start disk clock steady) where
  drained _ := rfl
  awake _ h := absurd rfl h

theorem Attentive.step (ha : Attentive n) (hq : QuietDrain n e) (hs : step w n e = some m) :
    Attentive m := by
  rcases (stepped w hs).alert_cases with ⟨he, hpc, -, hr⟩ | ⟨-, ht | hp | hc | ⟨hpc, hpp, hm, hr⟩⟩
  · refine ⟨fun h => absurd ⟨hpc ▸ h, he⟩ hq, fun ho _ => ?_⟩
    rw [hpc] at ho
    rw [hr, Bool.or_eq_true, List.isEmpty_iff]
    by_cases hn : n.alerts = []
    · exact .inr hn
    · exact .inl (ha.awake ho hn)
  · obtain ⟨hn, hpc, hm, hr⟩ := ht
    refine ⟨fun h => ?_, fun _ hq => hr.trans (ha.awake (by rw [hn]; rfl) (hm ▸ hq))⟩
    rw [hpc] at h
    split at h <;> cases h
  · exact ⟨fun _ => hp.2.2, fun _ h => absurd hp.2.2 h⟩
  · have hn := ha.drained (by rw [hc.1]; rfl)
    exact ⟨fun _ => hc.2.2.1.trans hn, fun _ h => absurd (hc.2.2.1.trans hn) h⟩
  · exact ⟨fun h => hm.trans (ha.drained (hpp ▸ h)),
      fun ho h => hr.trans (ha.awake (hpc ▸ ho) (hm ▸ h))⟩

/-- What is queued after the pop is still queued at the clear, which loses it. -/
theorem Stepped.overheard (hs : Stepped w n e m) (hp : n.pc.popped = true) (hq : n.alerts ≠ []) :
    (m.pc.popped = true ∧ m.alerts ≠ []) ∨ Deaf m := by
  rcases hs.alert_cases with ⟨-, hpc, hm, -⟩ | ⟨-, ht | hn | hc | ⟨-, hpp, hm, -⟩⟩
  · exact .inl ⟨hpc ▸ hp, hm⟩
  · rw [ht.1] at hp
    cases hp
  · rw [hn.1] at hp
    cases hp
  · exact .inr ⟨by rw [hc.2.1]; rfl, hc.2.2.1 ▸ hq, hc.2.2.2⟩
  · exact .inl ⟨hpp.trans hp, hm ▸ hq⟩

theorem overheard {start : Node} {h : History Node Event} (hr : Run (SyncFs.step w) start h n)
    (ha : Always (fun _ n _ => Awake n) h) :
    Always (fun _ n e => QuietDrain n e) h ∨ (n.pc.popped = true ∧ n.alerts ≠ []) ∨ Deaf n := by
  induction hr with
  | refl => exact .inl trivial
  | @snoc h n e m _ hs ih =>
    by_cases hq : QuietDrain n e
    · rcases ih ha.2 with ih | ⟨hp, hne⟩ | hd
      · exact .inl ⟨hq, ih⟩
      · exact .inr ((stepped w hs).overheard hp hne)
      · exact absurd ha.1 (not_awake_iff.mpr hd)
    · obtain ⟨hp, he⟩ := not_not.mp hq
      rcases (stepped w hs).alert_cases with ⟨-, hpc, hm, -⟩ | ⟨hne, -⟩
      · exact .inr (.inl ⟨hpc ▸ hp, hm⟩)
      · rw [he] at hne
        cases hne

/-- No wake-up is lost in a run exactly when no alert is queued between a pop
and the clear that follows it. -/
theorem awake_iff_quietDrain {disk : Disk} {clock : TimePoint} {steady : SteadyTime}
    {h : History Node Event} (hr : Run (step w) (.start disk clock steady) h n)
    (ho : n.pc.drains = false) :
    (Always (fun _ n _ => Awake n) h ∧ Awake n) ↔ Always (fun _ n e => QuietDrain n e) h := by
  constructor
  · rintro ⟨ha, hn⟩
    rcases overheard hr ha with hq | ⟨hp, -⟩ | hd
    · exact hq
    · rw [Pc.drains_of_popped hp] at ho
      cases ho
    · exact absurd hn (not_awake_iff.mpr hd)
  · intro hq
    have hs : ∀ h n e m, Run (step w) (.start disk clock steady) h n → Attentive n →
        QuietDrain n e → step w n e = some m → Attentive m := fun _ _ _ _ _ => Attentive.step
    refine ⟨hr.always_of_invariant (I := fun _ => Attentive) (.start disk clock steady) hs
      (fun _ _ _ _ _ ha _ _ => ha.awake) hq, ?_⟩
    exact (hr.invariant (I := fun _ => Attentive) (.start disk clock steady) hs hq).awake

/-- An alert is posted while another is being processed. -/
def interruptedDrain : List Event :=
  [.post .other 0, .advance, .advance, .advance, .advance, .post .other 0, .advance, .advance]

/-- One alert posted during the drain leaves the node deaf for the rest of its life. -/
theorem interruptedDrain_deaf :
    ∃ h n, Run (step sampleWorld) (.start ∅ 0 0) h n ∧ Deaf n ∧
      ∀ k m, Run (step sampleWorld) n k m → Deaf m := by
  obtain ⟨h, n, hr, hd⟩ := exists_run (step sampleWorld) (.start ∅ 0 0) interruptedDrain
    (fun _ n => Deaf n) (by decide +kernel)
  exact ⟨h, n, hr, hd, fun _ _ => hd.run⟩

def wholeDrain : List Event :=
  [.post .other 0, .advance, .advance, .post .other 0, .advance, .advance, .advance, .advance,
    .advance]

theorem wholeDrain_awake :
    ∃ h n, Run (step sampleWorld) (.start ∅ 0 0) h n ∧ n.pc.drains = false ∧
      Always (fun _ n _ => Awake n) h ∧ Awake n := by
  obtain ⟨h, n, hr, ho, hq⟩ := exists_run (step sampleWorld) (.start ∅ 0 0) wholeDrain
    (fun h n => n.pc.drains = false ∧ Always (fun _ n e => QuietDrain n e) h) (by decide +kernel)
  exact ⟨h, n, hr, ho, (awake_iff_quietDrain hr ho).mpr hq⟩

end SyncFs
