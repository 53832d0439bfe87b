import SyncFs.PassFailures
import SyncFs.RepairPacing

/-!
# One batch of repairs

Everything due is off the list before the loop of `publish_repairs` decides
what becomes of it. What it neither drops nor repairs, nor tries to rebuild, it
puts back. A file that is gone when its announcement is to be rebuilt has had its
turn.
-/

namespace SyncFs

open CharConversions Completion

section Batches

variable {create : Path → FileTime → Option (List Bytes)}
variable {w : World} {r : Replica} {now : SteadyTime} {p q : Path}

def DueAt (r : Replica) (now : SteadyTime) (p : Path) : Prop :=
  ∃ moment, r.repairs.pending[p]? = some moment ∧ moment ≤ now

/-- Listed here, with no announcement in hand. -/
def Cold (r : Replica) (p : Path) : Prop := p ∈ r.former ∧ p ∉ r.repairs.announcements

instance (r : Replica) (p : Path) : Decidable (Cold r p) := by unfold Cold; infer_instance

/-- What one due path is answered with, where this cold one is rebuilt. -/
def answerTo (create : Path → FileTime → Option (List Bytes)) (r : Replica)
    (first : Option Path) (p : Path) : Option (List Bytes) :=
  match r.former[p]? with
  | none => none
  | some mtime =>
    match r.repairs.announcements[p]? with
    | some announcement =>
      some [ascii "create", announcement, printInt mtime.toTicks, p.native]
    | none => if first = some p then create p mtime else none

private theorem publishOne_eq (s : Publishing) (p : Path) :
    publishOne create r s p =
      if Cold r p then
        if s.rebuilt then { s with waiting := s.waiting ++ [p] }
        else { s with said := s.said ++ (answerTo create r (some p) p).toList, rebuilt := true }
      else { s with said := s.said ++ (answerTo create r none p).toList } := by
  unfold publishOne answerTo
  simp only [Cold, Std.ExtTreeMap.mem_iff_isSome_getElem?]
  cases r.former[p]? with
  | none => simp
  | some mtime =>
    cases r.repairs.announcements[p]? with
    | none => cases s.rebuilt <;> simp
    | some announcement => simp [Source.repair, announce]

theorem answerTo_of_ne {first : Option Path} (h : first ≠ some p) :
    answerTo create r first p = answerTo create r none p := by
  unfold answerTo
  simp [h]

theorem answerTo_of_not_cold {first : Option Path} (h : ¬ Cold r p) :
    answerTo create r first p = answerTo create r none p := by
  unfold answerTo
  simp only [Cold, Std.ExtTreeMap.mem_iff_isSome_getElem?] at h
  cases hf : r.former[p]? with
  | none => rfl
  | some mtime =>
    cases ha : r.repairs.announcements[p]? with
    | none => simp [hf, ha] at h
    | some announcement => rfl

theorem answerTo_none (h : Cold r p) : answerTo create r none p = none := by
  unfold answerTo
  obtain ⟨mtime, ht⟩ := PathMap.mem_iff.mp h.1
  rw [ht, PathMap.notMem_iff.mp h.2]
  simp

/-- Once one has been rebuilt every other cold path waits. -/
private theorem foldl_publishOne_rebuilt (ps : List Path) {s : Publishing} (hs : s.rebuilt = true) :
    ps.foldl (publishOne create r) s =
      ⟨s.said ++ ps.filterMap (answerTo create r none), s.waiting ++ ps.filter (Cold r ·), true⟩ := by
  induction ps generalizing s with
  | nil =>
    obtain ⟨said, waiting, rebuilt⟩ := s
    simp only at hs
    simp [hs]
  | cons p ps ih =>
    rw [List.foldl_cons, publishOne_eq]
    by_cases hc : Cold r p
    · simp only [hc, hs, if_true]
      rw [ih rfl]
      simp [hc, answerTo_none hc]
    · simp only [hc, if_false]
      rw [ih (s := { s with said := s.said ++ (answerTo create r none p).toList }) hs]
      cases ha : answerTo create r none p <;> simp [hc, ha]

/-- The whole loop: the first cold path is rebuilt and the others wait. -/
private theorem foldl_publishOne {ps : List Path} (hnd : ps.Nodup) {s : Publishing}
    (hs : s.rebuilt = false) :
    (ps.foldl (publishOne create r) s).said =
        s.said ++ ps.filterMap (answerTo create r (ps.find? (Cold r ·))) ∧
      (ps.foldl (publishOne create r) s).waiting = s.waiting ++ (ps.filter (Cold r ·)).tail := by
  induction ps generalizing s with
  | nil => simp
  | cons p ps ih =>
    obtain ⟨hp, hnd⟩ := List.nodup_cons.mp hnd
    rw [List.foldl_cons, publishOne_eq]
    by_cases hc : Cold r p
    · have hrest : ps.filterMap (answerTo create r (some p)) =
          ps.filterMap (answerTo create r none) := by
        refine List.filterMap_congr fun q hq => answerTo_of_ne ?_
        rintro ⟨⟩
        exact hp hq
      simp only [hc, hs, if_true]
      rw [if_neg Bool.false_ne_true, foldl_publishOne_rebuilt ps rfl]
      cases ha : answerTo create r (some p) p <;> simp [hc, hrest, ha]
    · simp only [hc, if_false]
      obtain ⟨hsaid, hwaiting⟩ := ih hnd
        (s := { s with said := s.said ++ (answerTo create r none p).toList }) hs
      rw [hsaid, hwaiting]
      have hsame : answerTo create r (ps.find? (Cold r ·)) p = answerTo create r none p :=
        answerTo_of_not_cold hc
      cases ha : answerTo create r none p <;> simp [hc, hsame, ha]

theorem find?_cold_iff :
    (due r.repairs.pending now).1.find? (Cold r ·) = some p ↔
      (DueAt r now p ∧ Cold r p) ∧
        ∀ q, DueAt r now q → Cold r q → q ≠ p → compare p q = .lt := by
  have hmem : ∀ q, DueAt r now q ↔ q ∈ (due r.repairs.pending now).1 := fun q => mem_due.symm
  simp only [hmem]
  have hsorted : (due r.repairs.pending now).1.Pairwise fun p q => compare p q = .lt := sorted_due
  rw [List.find?_eq_some_iff_append]
  simp only [decide_eq_true_eq, Bool.not_eq_true', decide_eq_false_iff_not]
  constructor
  · rintro ⟨hc, as, bs, hlist, has⟩
    rw [hlist] at hsorted ⊢
    refine ⟨⟨by simp, hc⟩, fun q hq hqc hne => ?_⟩
    rcases List.mem_append.mp hq with hq | hq
    · exact absurd hqc (has q hq)
    · rcases List.mem_cons.mp hq with rfl | hq
      · exact absurd rfl hne
      · exact List.rel_of_pairwise_cons (List.pairwise_append.mp hsorted).2.1 hq
  · rintro ⟨⟨hp, hc⟩, hfirst⟩
    obtain ⟨as, bs, hlist⟩ := List.append_of_mem hp
    refine ⟨hc, as, bs, hlist, fun q hq hqc => ?_⟩
    rw [hlist] at hsorted
    have hlt : compare q p = .lt :=
      (List.pairwise_append.mp hsorted).2.2 q hq p List.mem_cons_self
    have hne : q ≠ p := by
      rintro rfl
      rw [Std.compare_self] at hlt
      cases hlt
    have hqd : q ∈ (due r.repairs.pending now).1 := by rw [hlist]; exact List.mem_append_left _ hq
    have hgt := hfirst q hqd hqc hne
    have hgt' : compare q p = .gt := Std.OrientedCmp.gt_iff_lt.mpr hgt
    rw [hgt'] at hlt
    cases hlt

/-- A whole batch: what is said, and what is waited for afterwards. -/
theorem batch_eq (create : Path → FileTime → Option (List Bytes)) (r : Replica)
    (now : SteadyTime) :
    let p := (due r.repairs.pending now).1.foldl (publishOne create r) ⟨[], [], false⟩
    p.said = (due r.repairs.pending now).1.filterMap
        (answerTo create r ((due r.repairs.pending now).1.find? (Cold r ·))) ∧
      p.waiting = ((due r.repairs.pending now).1.filter (Cold r ·)).tail :=
  foldl_publishOne nodup_due rfl

def pendingAfter (r : Replica) (now : SteadyTime) : PendingMap :=
  arm (due r.repairs.pending now).2 ((due r.repairs.pending now).1.filter (Cold r ·)).tail now

theorem publishRepairs_eq (r : Replica) (now : SteadyTime) :
    (publishRepairs w r now).2 = (due r.repairs.pending now).1.filterMap
        (answerTo (Source.create w r.toTree) r ((due r.repairs.pending now).1.find? (Cold r ·))) ∧
      (publishRepairs w r now).1.repairs.pending = pendingAfter r now := by
  obtain ⟨hsaid, hwaiting⟩ := batch_eq (Source.create w r.toTree) r now
  simp only [publishRepairs]
  rw [hsaid, hwaiting]
  exact ⟨rfl, rfl⟩

private theorem mem_tail_filter {ps : List Path} (hnd : ps.Nodup) :
    p ∈ (ps.filter (Cold r ·)).tail ↔ p ∈ ps ∧ Cold r p ∧ ps.find? (Cold r ·) ≠ some p := by
  rw [← List.head?_filter]
  have hmem : p ∈ ps ∧ Cold r p ↔ p ∈ ps.filter (Cold r ·) := by simp
  rw [← and_assoc, hmem]
  have hnd := hnd.filter (Cold r ·)
  cases hf : ps.filter (Cold r ·) with
  | nil => simp
  | cons q qs =>
    rw [hf] at hnd
    obtain ⟨hq, -⟩ := List.nodup_cons.mp hnd
    simp only [List.tail_cons, List.mem_cons, List.head?_cons, ne_eq, Option.some.injEq]
    constructor
    · intro hp
      refine ⟨Or.inr hp, ?_⟩
      rintro rfl
      exact hq hp
    · rintro ⟨rfl | hp, hne⟩
      · exact absurd rfl hne
      · exact hp

theorem mem_pendingAfter :
    p ∈ pendingAfter r now ↔
      (p ∈ r.repairs.pending ∧ ¬ DueAt r now p) ∨
        (DueAt r now p ∧ Cold r p ∧
          (due r.repairs.pending now).1.find? (Cold r ·) ≠ some p) := by
  have hleft : p ∈ (due r.repairs.pending now).2 ↔ p ∈ r.repairs.pending ∧ ¬ DueAt r now p := by
    rw [PathMap.mem_iff, PathMap.mem_iff, getElem?_due, DueAt]
    cases r.repairs.pending[p]? with
    | none => simp
    | some moment => simp [Option.filter]
  rw [pendingAfter, mem_arm, hleft, mem_tail_filter nodup_due, mem_due]
  rfl

theorem getElem?_pendingAfter (hp : ¬ DueAt r now p) :
    (pendingAfter r now)[p]? = r.repairs.pending[p]? := by
  cases hm : r.repairs.pending[p]? with
  | none =>
    rw [← PathMap.notMem_iff, mem_pendingAfter]
    rintro (⟨hin, -⟩ | ⟨hdue, -⟩)
    · exact PathMap.notMem_iff.mpr hm hin
    · exact hp hdue
  | some moment =>
    have hlate : ¬ moment ≤ now := fun hle => hp ⟨moment, hm, hle⟩
    apply getElem?_arm_of_some
    rw [getElem?_due, hm, Option.filter_eq_some_iff]
    exact ⟨rfl, by simp [hlate]⟩

theorem size_lt {β γ : Type} {m : PathMap β} {n : PathMap γ} (hsub : ∀ q ∈ m, q ∈ n)
    (hp : p ∈ n) (hnot : p ∉ m) : m.size < n.size := by
  have hnodup : (p :: m.keys).Nodup :=
    List.nodup_cons.mpr ⟨mt Std.ExtTreeMap.mem_keys.mp hnot, Std.ExtTreeMap.nodup_keys⟩
  have hkeys : p :: m.keys ⊆ n.keys := by
    intro q hq
    rcases List.mem_cons.mp hq with rfl | hq
    · exact Std.ExtTreeMap.mem_keys.mpr hp
    · exact Std.ExtTreeMap.mem_keys.mpr (hsub q (Std.ExtTreeMap.mem_keys.mp hq))
  have hle := (List.subperm_of_subset hnodup hkeys).length_le
  rw [List.length_cons, Std.ExtTreeMap.length_keys, Std.ExtTreeMap.length_keys] at hle
  omega

/-- A batch that finds anything due leaves less to wait for. -/
theorem size_pendingAfter (hp : DueAt r now p) :
    (pendingAfter r now).size < r.repairs.pending.size := by
  have hpending : ∀ q, DueAt r now q → q ∈ r.repairs.pending := by
    rintro q ⟨moment, hm, -⟩
    exact PathMap.mem_iff.mpr ⟨moment, hm⟩
  have hsub : ∀ q ∈ pendingAfter r now, q ∈ r.repairs.pending := by
    intro q hq
    rcases mem_pendingAfter.mp hq with ⟨hin, -⟩ | ⟨hdue, -⟩
    · exact hin
    · exact hpending q hdue
  -- What leaves is the cold path whose turn it is, or the one found due where none is cold.
  cases hfirst : (due r.repairs.pending now).1.find? (Cold r ·) with
  | some q =>
    obtain ⟨⟨hq, -⟩, -⟩ := find?_cold_iff.mp hfirst
    refine size_lt hsub (hpending q hq) fun hmem => ?_
    rcases mem_pendingAfter.mp hmem with ⟨-, hnot⟩ | ⟨-, -, hne⟩
    · exact hnot hq
    · exact hne hfirst
  | none =>
    have hwarm : ¬ Cold r p := by
      have h := List.find?_eq_none.mp hfirst p (mem_due.mpr hp)
      simpa using h
    refine size_lt hsub (hpending p hp) fun hmem => ?_
    rcases mem_pendingAfter.mp hmem with ⟨-, hnot⟩ | ⟨-, hcold, -⟩
    · exact hnot hp
    · exact hwarm hcold

end Batches

section Reads

variable {w : World} {found : Answers} {r : Replica} {p : Path}

/-- A batch whose reads all go through is one over what they have read. -/
theorem publishOneFound_ok {s t : Publishing} (h : publishOneFound w found r s p = .ok t) :
    t = publishOne (fun p mtime => (found.content p).map fun bytes =>
      announce (w.generateBuf p bytes) mtime p) r s p := by
  rw [publishOneFound] at h
  rw [publishOne]
  cases hf : r.former[p]? with
  | none =>
    rw [hf] at h
    exact (Except.ok.inj h).symm
  | some mtime =>
    rw [hf] at h
    dsimp only at h ⊢
    cases ha : r.repairs.announcements[p]? with
    | some announcement =>
      rw [ha] at h
      exact (Except.ok.inj h).symm
    | none =>
      rw [ha] at h
      dsimp only at h ⊢
      cases hs : s.rebuilt with
      | true =>
        rw [hs] at h
        exact (Except.ok.inj h).symm
      | false =>
        rw [hs] at h
        cases hc : createFound w found p mtime with
        | error raised =>
          rw [hc] at h
          cases h
        | ok said =>
          rw [hc] at h
          rw [← Except.ok.inj h, ← createFound_ok hc]
          rfl

/-- What a batch raises is the read of the one file it reads. -/
theorem foldlM_publishOneFound_error {ps : List Path} {s : Publishing} {raised : Raised}
    (h : ps.foldlM (publishOneFound w found r) s = .error raised) :
    s.rebuilt = false ∧ ∃ p ∈ ps.find? (Cold r ·), ¬ Steady found p ∧
      (raised = .fileSize p ∨ raised = .setPieceHashes p) := by
  induction ps generalizing s with
  | nil => cases h
  | cons q ps ih =>
    rw [List.foldlM_cons] at h
    rw [List.find?_cons]
    cases hq : publishOneFound w found r s q with
    | ok t =>
      rw [hq] at h
      obtain ⟨ht, p, hp, hraised⟩ := ih h
      rw [publishOneFound_ok hq, publishOne] at ht
      have hcold : Cold r q → False := by
        intro hc
        obtain ⟨mtime, hf⟩ := PathMap.mem_iff.mp hc.1
        rw [hf, PathMap.notMem_iff.mp hc.2] at ht
        cases hs : s.rebuilt <;> simp [hs] at ht
      refine ⟨?_, p, by rw [decide_eq_false hcold]; exact hp, hraised⟩
      by_contra hs
      rw [Bool.not_eq_false] at hs
      cases hf : r.former[q]? <;> cases ha : r.repairs.announcements[q]? <;>
        simp [hf, ha, hs] at ht
    | error e =>
      rw [hq] at h
      obtain rfl := Except.error.inj h
      rw [publishOneFound] at hq
      cases hf : r.former[q]? with
      | none =>
        rw [hf] at hq
        cases hq
      | some mtime =>
        rw [hf] at hq
        dsimp only at hq
        cases ha : r.repairs.announcements[q]? with
        | some announcement =>
          rw [ha] at hq
          cases hq
        | none =>
          rw [ha] at hq
          have hc : Cold r q := ⟨PathMap.mem_iff.mpr ⟨mtime, hf⟩, PathMap.notMem_iff.mpr ha⟩
          cases hs : s.rebuilt with
          | true =>
            rw [hs] at hq
            cases hq
          | false =>
            rw [hs] at hq
            cases hcreate : createFound w found q mtime with
            | ok said =>
              rw [hcreate] at hq
              cases hq
            | error e =>
              rw [hcreate] at hq
              obtain rfl := Except.error.inj hq
              exact ⟨rfl, q, by simp [hc], createFound_error hcreate⟩

/-- One batch: every due path is dropped, repaired out of the cache, rebuilt as
the first of the cold ones if its file is there, or put back, and nothing else is
touched. Only the read of that one file can raise. -/
theorem repairs_conserved (w : World) (n : Node) (found : Answers) :
    ∃ first : Option Path,
      (∀ p, first = some p ↔ (DueAt n.replica n.now p ∧ Cold n.replica p) ∧
        ∀ q, DueAt n.replica n.now q → Cold n.replica q → q ≠ p → compare p q = .lt) ∧
      (due n.replica.repairs.pending n.now).1.Nodup ∧
      (∀ p, p ∈ (due n.replica.repairs.pending n.now).1 ↔ DueAt n.replica n.now p) ∧
      Ends
        (fun m =>
          m.sent = n.sent ++ (due n.replica.repairs.pending n.now).1.filterMap
            (answerTo (fun p mtime => (found.content p).map fun bytes =>
              [ascii "create", w.generateBuf p bytes, printInt mtime.toTicks, p.native])
              n.replica first) ∧
          (∀ p, DueAt n.replica n.now p → (p ∈ m.replica.repairs.pending ↔
            Cold n.replica p ∧ first ≠ some p)) ∧
          (∀ p, ¬ DueAt n.replica n.now p →
            m.replica.repairs.pending[p]? = n.replica.repairs.pending[p]?) ∧
          ((∃ p, DueAt n.replica n.now p) →
            m.replica.repairs.pending.size < n.replica.repairs.pending.size))
        (fun raised => ∃ p, first = some p ∧ ¬ Steady found p ∧
          (raised = .fileSize p ∨ raised = .setPieceHashes p))
        (repairsFound w n found) := by
  refine ⟨(due n.replica.repairs.pending n.now).1.find? (Cold n.replica ·), ?_, ?_, ?_, ?_⟩
  · exact fun p => find?_cold_iff
  · exact nodup_due
  · exact fun p => mem_due
  · rw [repairsFound]
    dsimp only
    cases hb : (due n.replica.repairs.pending n.now).1.foldlM
      (publishOneFound w found n.replica) ⟨[], [], false⟩ with
    | error raised => exact (foldlM_publishOneFound_error hb).2
    | ok p =>
      obtain ⟨hsaid, hwaiting⟩ := batch_eq (fun p mtime => (found.content p).map fun bytes =>
        announce (w.generateBuf p bytes) mtime p) n.replica n.now
      rw [← foldl_of_foldlM (fun _ _ _ => publishOneFound_ok) hb] at hsaid hwaiting
      have hpending : arm (due n.replica.repairs.pending n.now).2 p.waiting n.now =
          pendingAfter n.replica n.now := by rw [hwaiting, pendingAfter]
      refine ⟨?_, fun q hq => ?_, fun q hq => ?_, ?_⟩
      · exact congrArg (n.sent ++ ·) hsaid
      · change q ∈ arm _ p.waiting n.now ↔ _
        rw [hpending, mem_pendingAfter]
        simp only [hq, not_true_eq_false, and_false, true_and, false_or]
      · change (arm _ p.waiting n.now)[q]? = _
        rw [hpending, getElem?_pendingAfter hq]
      · rintro ⟨q, hq⟩
        change (arm _ p.waiting n.now).size < _
        rw [hpending]
        exact size_pendingAfter hq

def emptied : Node :=
  let n := Node.start (.ofList [(samplePath, sampleFile "x" 900)]) 1000 0
  { n with replica := { n.replica with
      disk := ∅
      repairs := { n.replica.repairs with pending := n.replica.repairs.pending.insert samplePath 0 } } }

/-- The one path that waits is listed and not cached, and stops waiting with
nothing said. -/
theorem emptied_dropped :
    (∃ moment, emptied.replica.repairs.pending[samplePath]? = some moment ∧ moment ≤ emptied.now) ∧
      samplePath ∈ emptied.replica.former ∧ samplePath ∉ emptied.replica.repairs.announcements ∧
      ∃ m, repairsFound sampleWorld emptied .nothing = .ok m ∧ m.sent = emptied.sent ∧
        samplePath ∉ m.replica.repairs.pending := by
  have hrun : (repairsFound sampleWorld emptied .nothing).toOption.any (fun m =>
      m.sent = emptied.sent ∧ samplePath ∉ m.replica.repairs.pending) = true := by decide +kernel
  obtain ⟨m, hm, hleft⟩ := (Option.any_eq_true _ _).mp hrun
  exact ⟨⟨0, by decide +kernel, by decide +kernel⟩, by decide +kernel, by decide +kernel, m,
    eq_ok_of_toOption hm, of_decide_eq_true hleft⟩

end Reads

end SyncFs
