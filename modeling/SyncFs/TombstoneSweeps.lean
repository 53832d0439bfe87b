import SyncFs.Adoption

/-!
# Sweeping tombstones

Deletions past their time to live are dropped on the pass that lists the
directory, and on no other. What publishes the tombstones and what weighs a
create against them runs on every pass and asks no clock.
-/

namespace SyncFs

open CharConversions LabelledRuns

section

variable (w : World)

inductive Notes (n : Node) : Event → Path → TimePoint → Prop
  | noticed {missed : List Path} {p : Path} (listing : n.pc = .wait)
    (listed : p ∈ n.replica.former) (gone : p ∉ n.replica.disk.listBut missed)
    (unmarked : p ∉ n.replica.tombstones) : Notes n (.woken (some missed)) p n.clock
  | asked {v : List Bytes} {p : Path} (receiving : n.pc = .receive)
    (removes : removedPath v = some p)
    (latest : ∀ ours, n.replica.tombstones[p]? = some ours → ours ≤ fromTicks (part v 2)) :
    Notes n (.receive (some v)) p (fromTicks (part v 2))
  | adopted {v : List Bytes} {p : Path} {moment : TimePoint} (receiving : n.pc = .receive)
    (addressed : verbOf (part v 0) = ascii "digest") (length : v.length = 3)
    (news : (adoptable (decodeTombstones (part v 2)) n.replica.former n.replica.tombstones
      n.clock)[p]? = some moment) :
    Notes n (.receive (some v)) p moment

/-- A file the deletion of its path does not beat comes in or comes back. -/
inductive Lifts (n : Node) : Event → Path → Prop
  | announced {v : List Bytes} (receiving : n.pc = .receive)
    (creates : verbOf (part v 0) = ascii "create") (length : v.length = 4)
    (undefeated : Undefeated n.replica.tombstones (announcedPath v) (originOf v)) :
    Lifts n (.receive (some v)) (announcedPath v)
  | returned {missed : List Path} {p : Path} {t : FileTime} (listing : n.pc = .wait)
    (listed : (n.replica.disk.listBut missed)[p]? = some t)
    (changed : n.replica.former[p]? ≠ some t) (foreign : n.replica.inbound.written[p]? ≠ some t)
    (undefeated : Undefeated n.replica.tombstones p t) : Lifts n (.woken (some missed)) p

def Sweeping (n : Node) (e : Event) : Bool :=
  match n.pc, e with
  | .sending _ _, .advance => true
  | _, _ => false

/-- The step drops what is past its time to live, this moment included. -/
def Sweeps (n : Node) (e : Event) (moment : TimePoint) : Prop :=
  Sweeping n e = true ∧ tombstoneTtl < n.clock - moment

instance (n : Node) (e : Event) (moment : TimePoint) : Decidable (Sweeps n e moment) := by
  unfold Sweeps
  infer_instance

/-- A deletion on record, and since then neither lifted by a file, replaced by a
later one nor swept after its time. -/
inductive Outstanding : History Node Event → Path → TimePoint → Prop
  | noted {n : Node} {e : Event} {h : History Node Event} {p : Path} {moment : TimePoint}
    (notes : Notes n e p moment) : Outstanding ((n, e) :: h) p moment
  | kept {n : Node} {e : Event} {h : History Node Event} {p : Path} {moment : TimePoint}
    (earlier : Outstanding h p moment) (unlifted : ¬ Lifts n e p)
    (latest : ∀ later, Notes n e p later → later ≤ moment) (unswept : ¬ Sweeps n e moment) :
    Outstanding ((n, e) :: h) p moment

end

variable {w : World} {n m : Node} {e : Event} {h : History Node Event} {p : Path}
variable {moment : TimePoint} {r r' : Replica} {v : List Bytes} {clock : TimePoint}
variable {steady : SteadyTime}

theorem not_sweeps_of_event (he : e ≠ .advance) : ¬ Sweeps n e moment := by
  rintro ⟨hs, -⟩
  unfold Sweeping at hs
  split at hs
  · exact he rfl
  · cases hs

theorem not_sweeps_of_pc (hp : ∀ diff current, n.pc ≠ .sending diff current) :
    ¬ Sweeps n e moment := by
  rintro ⟨hs, -⟩
  unfold Sweeping at hs
  split at hs
  · next hsending => exact hp _ _ hsending
  · cases hs

theorem getElem?_expire {tombstones : TombstoneMap} {now : TimePoint} :
    (expire tombstones now)[p]? = some moment ↔
      tombstones[p]? = some moment ∧ now - moment ≤ tombstoneTtl := by
  rw [expire, PathMap.getElem?_filter, Option.filter_eq_some_iff]
  simp

theorem getElem?_mark_eq_some {tombstones : TombstoneMap} {q : Path} {deleted : TimePoint} :
    (mark tombstones q deleted)[p]? = some moment ↔
      (q = p ∧ deleted = moment ∧ ∀ ours, tombstones[p]? = some ours → ours ≤ deleted) ∨
        (tombstones[p]? = some moment ∧ (q = p → deleted ≤ moment)) := by
  rw [getElem?_mark]
  by_cases hq : q = p
  · subst hq
    cases hm : tombstones[q]? with
    | none => simp
    | some ours =>
      simp only [if_true, Option.elim, Option.some.injEq, true_and, forall_eq', true_imp_iff]
      constructor
      · rintro rfl
        rcases le_total ours deleted with hle | hle
        · exact .inl ⟨(max_eq_right hle).symm, hle⟩
        · exact .inr ⟨(max_eq_left hle).symm, hle.trans (le_max_left _ _)⟩
      · rintro (⟨rfl, hle⟩ | ⟨rfl, hle⟩)
        · exact max_eq_right hle
        · exact max_eq_left hle
  · simp [hq]

/-- What a step leaves on record: what it notes, and what was on record unless
it lifts, replaces or sweeps it. -/
def Keeps (n : Node) (e : Event) (p : Path) (moment : TimePoint) (after : TombstoneMap) : Prop :=
  after[p]? = some moment ↔ Notes n e p moment ∨
    (n.replica.tombstones[p]? = some moment ∧ ¬ Lifts n e p ∧
      (∀ later, Notes n e p later → later ≤ moment) ∧ ¬ Sweeps n e moment)

theorem keeps_of_quiet (hn : ∀ later, ¬ Notes n e p later) (hl : ¬ Lifts n e p)
    (hs : ¬ Sweeps n e moment) : Keeps n e p moment n.replica.tombstones := by
  refine ⟨fun h => .inr ⟨h, hl, fun later h => absurd h (hn later), hs⟩, ?_⟩
  rintro (h | h)
  · exact absurd h (hn moment)
  · exact h.1

/-- A listing that does not find the path notes a deletion if it was there before
and no tombstone says so. -/
theorem keeps_unlisted {missed : List Path} (hp : n.pc = .wait)
    (hc : (n.replica.disk.listBut missed)[p]? = none) :
    Keeps n (.woken (some missed)) p moment (changesAt n (n.replica.disk.listBut missed)).2 := by
  have hgone := PathMap.notMem_iff.mpr hc
  have hl : ¬ Lifts n (.woken (some missed)) p := by
    rintro (_ | ⟨_, listed, _, _, _⟩)
    rw [hc] at listed
    cases listed
  rw [Keeps, changesAt, localChanges_tombstones hgone]
  by_cases hm : p ∈ n.replica.former ∧ p ∉ n.replica.tombstones
  · rw [if_pos hm, Option.some.injEq]
    constructor
    · rintro rfl
      exact .inl (.noticed hp hm.1 hgone hm.2)
    · rintro (h | ⟨ht, -⟩)
      · cases h
        rfl
      · rw [PathMap.notMem_iff.mp hm.2] at ht
        cases ht
  · rw [if_neg hm]
    refine keeps_of_quiet (fun later h => hm ?_) hl (not_sweeps_of_event nofun)
    cases h with
    | noticed _ listed _ unmarked => exact ⟨listed, unmarked⟩

theorem not_lifts_woken_iff {missed : List Path} {t : FileTime} (hp : n.pc = .wait)
    (hc : (n.replica.disk.listBut missed)[p]? = some t)
    (hm : n.replica.tombstones[p]? = some moment) :
    ¬ Lifts n (.woken (some missed)) p ↔ (decide (n.replica.former[p]? = some t ∨
      n.replica.inbound.written[p]? = some t) || beats moment t) = true := by
  rw [Bool.or_eq_true, decide_eq_true_eq]
  constructor
  · intro h
    by_contra hno
    rw [not_or, not_or, Bool.not_eq_true] at hno
    refine h (.returned hp hc hno.1.1 hno.1.2 fun grave hg => ?_)
    rw [Option.mem_def, hm] at hg
    exact Option.some.inj hg ▸ hno.2
  · rintro h (_ | ⟨_, listed, changed, foreign, undefeated⟩)
    obtain rfl := Option.some.inj (hc.symm.trans listed)
    rcases h with (h | h) | h
    · exact changed h
    · exact foreign h
    · rw [undefeated moment hm] at h
      cases h

theorem keeps_list {missed : List Path} (hp : n.pc = .wait) :
    Keeps n (.woken (some missed)) p moment (changesAt n (n.replica.disk.listBut missed)).2 := by
  cases hc : (n.replica.disk.listBut missed)[p]? with
  | none => exact keeps_unlisted hp hc
  | some t =>
    have hn : ∀ later, ¬ Notes n (.woken (some missed)) p later := by
      intro later h
      cases h with
      | noticed _ _ gone _ => exact gone (PathMap.mem_iff.mpr ⟨t, hc⟩)
    rw [Keeps, changesAt, localChanges_tombstones_listed hc, Option.filter_eq_some_iff]
    constructor
    · rintro ⟨hm, hb⟩
      refine .inr ⟨hm, (not_lifts_woken_iff hp hc hm).mpr hb, fun later h => ?_, ?_⟩
      · exact absurd h (hn later)
      · exact not_sweeps_of_event nofun
    · rintro (h | ⟨hm, hl, -⟩)
      · exact absurd h (hn moment)
      · exact ⟨hm, (not_lifts_woken_iff hp hc hm).mp hl⟩

theorem keeps_send {diff : Diff} {current : FileMap} (hp : n.pc = .sending diff current) :
    Keeps n .advance p moment (expire n.replica.tombstones n.clock) := by
  have hn : ∀ later, ¬ Notes n .advance p later := fun _ h => nomatch h
  have hl : ¬ Lifts n .advance p := fun h => nomatch h
  have hs : ¬ Sweeps n .advance moment ↔ n.clock - moment ≤ tombstoneTtl := by
    simp [Sweeps, Sweeping, hp]
  rw [Keeps, getElem?_expire]
  constructor
  · exact fun h => .inr ⟨h.1, hl, fun later h => absurd h (hn later), hs.mpr h.2⟩
  · rintro (h | ⟨ht, -, -, hsw⟩)
    · exact absurd h (hn moment)
    · exact ⟨ht, hs.mp hsw⟩

theorem not_notes_of_other (hr : removedPath v = none)
    (hd : ¬ (verbOf (part v 0) = ascii "digest" ∧ v.length = 3)) (later : TimePoint) :
    ¬ Notes n (.receive (some v)) p later := by
  intro h
  cases h with
  | asked _ removes => rw [hr] at removes; cases removes
  | adopted _ addressed length => exact hd ⟨addressed, length⟩

theorem not_lifts_of_other (hc : ¬ (verbOf (part v 0) = ascii "create" ∧ v.length = 4)) :
    ¬ Lifts n (.receive (some v)) p := by
  intro h
  cases h with
  | announced _ creates length => exact hc ⟨creates, length⟩

theorem tombstones_receive_create (hv : verbOf (part v 0) = ascii "create") (hl : v.length = 4)
    (hr : receiveOne w v clock steady r = .ok r') :
    r'.tombstones = if Undefeated r.tombstones (announcedPath v) (originOf v) then
      r.tombstones.erase (announcedPath v) else r.tombstones := by
  cases hload : torrentOf w v with
  | none =>
    rw [receiveOne_unloadable hv hl hload] at hr
    split_ifs at hr with hu
    obtain rfl := Except.ok.inj hr
    rw [if_neg hu]
  | some torrent =>
    rw [receiveOne_create hv hl hload] at hr
    split_ifs at hr with hu hw
    · obtain rfl := Except.ok.inj hr
      obtain ⟨left, he, hleft⟩ := applied_cases w r v torrent
      rw [if_pos hu, he]
      rcases hleft with ⟨-, hst⟩ | ⟨-, rfl⟩
      · exact hst.tombstones
      · rfl
    · obtain rfl := Except.ok.inj hr
      rw [if_pos hu]
      rfl
    · obtain rfl := Except.ok.inj hr
      rw [if_neg hu]

theorem keeps_create (hp : n.pc = .receive) (hv : verbOf (part v 0) = ascii "create")
    (hl : v.length = 4) (hr : receiveOne w v n.clock steady n.replica = .ok r') :
    Keeps n (.receive (some v)) p moment r'.tombstones := by
  have hs : ¬ Sweeps n (.receive (some v)) moment := not_sweeps_of_event nofun
  have hn := not_notes_of_other (n := n) (p := p) (removedPath_of_verb hv (by decide))
    fun h => absurd (h.1.symm.trans hv) (by decide)
  have ht := tombstones_receive_create hv hl hr
  by_cases hu : Undefeated n.replica.tombstones (announcedPath v) (originOf v)
  · rw [if_pos hu] at ht
    rw [Keeps, ht, PathMap.getElem?_erase]
    by_cases hq : announcedPath v = p
    · subst hq
      have hlift : Lifts n (.receive (some v)) (announcedPath v) := .announced hp hv hl hu
      rw [if_pos rfl]
      refine iff_of_false (fun h => nomatch h) ?_
      rintro (h | ⟨-, h, -⟩)
      · exact hn moment h
      · exact h hlift
    · rw [if_neg hq]
      refine keeps_of_quiet hn ?_ hs
      intro h
      cases h with
      | announced => exact hq rfl
  · rw [if_neg hu] at ht
    rw [ht]
    refine keeps_of_quiet hn ?_ hs
    intro h
    cases h with
    | announced _ _ _ undefeated => exact hu undefeated

theorem tombstones_receive_remove {q : Path} (hq : removedPath v = some q)
    (hr : receiveOne w v clock steady r = .ok r') :
    r'.tombstones = mark r.tombstones q (fromTicks (part v 2)) := by
  rw [receiveOne_remove hq] at hr
  cases he : erase w r q with
  | error left => simp [he, Except.map] at hr
  | ok left =>
    rw [he] at hr
    obtain rfl := Except.ok.inj hr
    obtain ⟨disk, -, rfl⟩ := erase_ok he
    rfl

theorem keeps_remove {q : Path} (hp : n.pc = .receive) (hq : removedPath v = some q)
    (hr : receiveOne w v n.clock steady n.replica = .ok r') :
    Keeps n (.receive (some v)) p moment r'.tombstones := by
  have hs : ¬ Sweeps n (.receive (some v)) moment := not_sweeps_of_event nofun
  have hverb := (removedPath_eq_some hq).2
  have hl : ¬ Lifts n (.receive (some v)) p :=
    not_lifts_of_other fun h => absurd (h.1.symm.trans hverb) (by decide)
  have hn : ∀ later, Notes n (.receive (some v)) p later ↔ q = p ∧ fromTicks (part v 2) = later ∧
      ∀ ours, n.replica.tombstones[p]? = some ours → ours ≤ fromTicks (part v 2) := by
    intro later
    constructor
    · intro h
      cases h with
      | asked _ removes latest => exact ⟨Option.some.inj (hq.symm.trans removes), rfl, latest⟩
      | adopted _ addressed => exact absurd (addressed.symm.trans hverb) (by decide)
    · rintro ⟨rfl, rfl, latest⟩
      exact .asked hp hq latest
  rw [Keeps, tombstones_receive_remove hq hr, getElem?_mark_eq_some, hn]
  refine or_congr_right (and_congr_right fun hm => ?_)
  constructor
  · intro hle
    refine ⟨hl, fun later h => ?_, hs⟩
    obtain ⟨he, rfl, -⟩ := (hn later).mp h
    exact hle he
  · rintro ⟨-, hlatest, -⟩ rfl
    by_contra hgt
    refine hgt (hlatest _ ((hn _).mpr ⟨rfl, rfl, fun ours ho => ?_⟩))
    obtain rfl := Option.some.inj (hm.symm.trans ho)
    exact (not_le.mp hgt).le

/-- What a digest teaches comes before what was known. -/
theorem tombstones_receive_digest (hv : verbOf (part v 0) = ascii "digest") (hl : v.length = 3)
    (hr : receiveOne w v clock steady r = .ok r') :
    r'.tombstones[p]? = ((adoptable (decodeTombstones (part v 2)) r.former r.tombstones
      clock)[p]?).or r.tombstones[p]? := by
  rw [(receiveOne_digest hv hl clock steady r).1, readDigest] at hr
  cases ha : adopt w (decodeTombstones (part v 2)) clock r with
  | error left =>
    rw [ha] at hr
    cases hr
  | ok s =>
    obtain ⟨left, deleted⟩ := s
    rw [ha] at hr
    obtain rfl := Except.ok.inj hr
    rw [← tombstones_adopt ha]
    split <;> rfl

theorem keeps_digest (hp : n.pc = .receive) (hv : verbOf (part v 0) = ascii "digest")
    (hlen : v.length = 3) (hr : receiveOne w v n.clock steady n.replica = .ok r') :
    Keeps n (.receive (some v)) p moment r'.tombstones := by
  have hs : ¬ Sweeps n (.receive (some v)) moment := not_sweeps_of_event nofun
  have hl : ¬ Lifts n (.receive (some v)) p :=
    not_lifts_of_other fun h => absurd (h.1.symm.trans hv) (by decide)
  have hremove := removedPath_of_verb hv (by decide)
  have hn : ∀ later, Notes n (.receive (some v)) p later ↔
      (adoptable (decodeTombstones (part v 2)) n.replica.former n.replica.tombstones
        n.clock)[p]? = some later := by
    intro later
    constructor
    · intro h
      cases h with
      | asked _ removes => rw [hremove] at removes; cases removes
      | adopted _ _ _ news => exact news
    · exact fun h => .adopted hp hv hlen h
  rw [Keeps, tombstones_receive_digest hv hlen hr, hn]
  cases ha : (adoptable (decodeTombstones (part v 2)) n.replica.former n.replica.tombstones
      n.clock)[p]? with
  | none =>
    simp only [Option.none_or, reduceCtorEq, false_or]
    refine ⟨fun h => ⟨h, hl, fun later hlater => ?_, hs⟩, And.left⟩
    rw [hn, ha] at hlater
    cases hlater
  | some taken =>
    have hnew := (getElem?_adoptable.mp ha).2.1
    rw [Option.some_or, Option.some.injEq]
    refine ⟨.inl, ?_⟩
    rintro (h | ⟨hm, -, hlatest, -⟩)
    · exact h
    · exact absurd (hlatest taken ((hn taken).mpr ha)) (not_le.mpr (hnew moment hm))

theorem keeps_receive (hp : n.pc = .receive)
    (hr : receiveOne w v n.clock steady n.replica = .ok r') :
    Keeps n (.receive (some v)) p moment r'.tombstones := by
  have hs : ¬ Sweeps n (.receive (some v)) moment := not_sweeps_of_event nofun
  by_cases hw : partsFor (part v 0) = some v.length
  · rcases wellFormed_cases hw with ⟨hv, hl⟩ | ⟨q, hq⟩ | ⟨hv, hl⟩ | ⟨hv, hl⟩
    · exact keeps_create hp hv hl hr
    · exact keeps_remove hp hq hr
    · obtain ⟨peers, he⟩ := receiveOne_state (w := w) hv hl n.clock steady n.replica
      obtain rfl := Except.ok.inj (he.symm.trans hr)
      exact keeps_of_quiet (not_notes_of_other (removedPath_of_verb hv (by decide))
        fun h => absurd (h.1.symm.trans hv) (by decide))
        (not_lifts_of_other fun h => absurd (h.1.symm.trans hv) (by decide)) hs
    · exact keeps_digest hp hv hl hr
  · rw [receiveOne_malformed hw] at hr
    obtain rfl := Except.ok.inj hr
    refine keeps_of_quiet (not_notes_of_other ?_ fun h => hw ?_) (not_lifts_of_other fun h => hw ?_) hs
    · cases h : removedPath v with
      | none => rfl
      | some path =>
        obtain ⟨hl, hv⟩ := removedPath_eq_some h
        exact absurd (hl ▸ partsFor_of_verbOf hv (by decide)) hw
    · exact h.2 ▸ partsFor_of_verbOf h.1 (by decide)
    · exact h.2 ▸ partsFor_of_verbOf h.1 (by decide)

theorem Stepped.keeps (hs : Stepped w n e m) (hl : m.pc ≠ .stopped) (p : Path)
    (moment : TimePoint) : Keeps n e p moment m.replica.tombstones := by
  cases hs with
  | tick | directory | localWrite | localDelete | ltOpen | ltVerify | ltWrite | ltState | post | idle | nothing =>
    exact keeps_of_quiet (fun _ h => nomatch h) (fun h => nomatch h) (not_sweeps_of_event nofun)
  | @process alert rest hp =>
    have hq := SyncFs.processed w n alert
    have ht : (processAlert w n alert).tombstones = n.replica.tombstones := by
      generalize processAlert w n alert = r at hq
      cases hq with
      | skipped | finished => rfl
      | flushed _ _ stamps => exact stamps.tombstones
    rw [ht]
    exact keeps_of_quiet (fun _ h => nomatch h) (fun h => nomatch h) (not_sweeps_of_pc (by simp [hp]))
  | send hp => exact keeps_send hp
  | list hp => exact keeps_list hp
  | @round draw hp =>
    have ht : (if stateDue n then publishState w n draw else n).replica.tombstones =
        n.replica.tombstones := by split <;> rfl
    rw [ht]
    exact keeps_of_quiet (fun _ h => nomatch h) (fun h => nomatch h) (not_sweeps_of_event nofun)
  | @receive v hp =>
    rw [takeIn] at hl ⊢
    cases hr : receiveOne w v n.clock n.steady n.replica with
    | error r =>
      rw [hr] at hl
      exact absurd rfl hl
    | ok r => exact keeps_receive hp hr
  | top hp =>
    have ht : (beginPass n).replica.tombstones = n.replica.tombstones := by
      rw [beginPass]
      split <;> rfl
    rw [ht]
    exact keeps_of_quiet (fun _ h => nomatch h) (fun h => nomatch h) (not_sweeps_of_pc (by simp [hp]))
  | test hp | pop hp | processed hp | clear hp | repair hp =>
    exact keeps_of_quiet (fun _ h => nomatch h) (fun h => nomatch h) (not_sweeps_of_pc (by simp [hp]))

/-- A node holds a tombstone for a path exactly as long as a deletion of it is outstanding. -/
def Ledger (h : History Node Event) (n : Node) : Prop :=
  ∀ (p : Path) (moment : TimePoint), n.replica.tombstones[p]? = some moment ↔ Outstanding h p moment

theorem Ledger.step (hL : Ledger h n) (hs : Stepped w n e m) (hl : m.pc ≠ .stopped) :
    Ledger ((n, e) :: h) m := by
  intro p moment
  have hk : _ ↔ _ := hs.keeps hl p moment
  rw [hk, hL p moment]
  constructor
  · rintro (h | ⟨hm, hlift, hlatest, hsw⟩)
    · exact .noted h
    · exact .kept hm hlift hlatest hsw
  · intro h
    cases h with
    | noted notes => exact .inl notes
    | kept earlier unlifted latest unswept => exact .inr ⟨earlier, unlifted, latest, unswept⟩

theorem ledger {disk : Disk} {clock : TimePoint} {steady : SteadyTime}
    (hr : Run (step w) (.start disk clock steady) h n) : n.pc = .stopped ∨ Ledger h n := by
  refine live_invariant (I := Ledger) (fun p moment => ?_)
    (fun _ _ _ _ hI _ hs hl => hI.step hs hl) hr (always_true h)
  exact iff_of_false (by simp [Node.start]) fun h => nomatch h

def Publishes (n : Node) (e : Event) : Bool :=
  match n.pc, e with
  | .round, .round _ => stateDue n
  | _, _ => false

def weighed (n : Node) (e : Event) : Option (Path × FileTime) :=
  match n.pc, e with
  | .receive, .receive (some v) =>
    if verbOf (part v 0) = ascii "create" ∧ v.length = 4 then some (announcedPath v, originOf v)
    else none
  | _, _ => none

/-- No tombstone past its time to live is published, and none has a create refused. -/
structure Timely (n : Node) (e : Event) : Prop where
  published : Publishes n e = true → ∀ (p : Path) (moment : TimePoint),
    n.replica.tombstones[p]? = some moment → n.clock - moment ≤ tombstoneTtl
  refused : ∀ c ∈ weighed n e, ∀ moment, n.replica.tombstones[c.1]? = some moment →
    beats moment c.2 = true → n.clock - moment ≤ tombstoneTtl

/-- No deletion that has gone past its time to live is still outstanding when the
tombstones are published, nor one that beats a create when that is weighed. -/
structure SweptInTime (h : History Node Event) (n : Node) (e : Event) : Prop where
  published : Publishes n e = true → ∀ p moment, Outstanding h p moment →
    n.clock - moment ≤ tombstoneTtl
  refused : ∀ c ∈ weighed n e, ∀ moment, Outstanding h c.1 moment → beats moment c.2 = true →
    n.clock - moment ≤ tombstoneTtl

theorem timely_iff_swept (hL : n.pc = .stopped ∨ Ledger h n) : Timely n e ↔ SweptInTime h n e := by
  rcases hL with hp | hL
  · have hpub : Publishes n e = false := by
      unfold Publishes
      rw [hp]
    have hweighed : weighed n e = none := by
      unfold weighed
      rw [hp]
    constructor
    · refine fun _ => ⟨fun h => ?_, fun c hc => ?_⟩
      · rw [hpub] at h
        cases h
      · rw [hweighed] at hc
        cases hc
    · refine fun _ => ⟨fun h => ?_, fun c hc => ?_⟩
      · rw [hpub] at h
        cases h
      · rw [hweighed] at hc
        cases hc
  · constructor
    · exact fun ht => ⟨fun hp p moment h => ht.published hp p moment ((hL p moment).mpr h),
        fun c hc moment h => ht.refused c hc moment ((hL c.1 moment).mpr h)⟩
    · exact fun hs => ⟨fun hp p moment h => hs.published hp p moment ((hL p moment).mp h),
        fun c hc moment h => hs.refused c hc moment ((hL c.1 moment).mp h)⟩

/-- What stays of two nodes' tombstones decides the hash they publish when neither
holds one past its time to live. -/
theorem hash_eq_of_timely {n' : Node} {e' : Event} (sha256 : Bytes → Bytes) (hp : Publishes n e = true)
    (ht : Timely n e) (hp' : Publishes n' e' = true) (ht' : Timely n' e')
    (hf : n.replica.former = n'.replica.former)
    (hg : ∀ (p : Path) (moment : TimePoint),
      (n.replica.tombstones[p]? = some moment ∧ n.clock - moment ≤ tombstoneTtl) ↔
        (n'.replica.tombstones[p]? = some moment ∧ n'.clock - moment ≤ tombstoneTtl)) :
    hash sha256 n.replica.former n.replica.tombstones =
      hash sha256 n'.replica.former n'.replica.tombstones := by
  have hsame : n.replica.tombstones = n'.replica.tombstones := by
    refine Std.ExtTreeMap.ext_getElem? fun p => Option.ext fun moment => ?_
    constructor
    · exact fun h => ((hg p moment).mp ⟨h, ht.published hp p moment h⟩).1
    · exact fun h => ((hg p moment).mpr ⟨h, ht'.published hp' p moment h⟩).1
  rw [hf, hsame]

/-- Expired tombstones take no part in a run exactly when each is swept before
the next publication, and before a create it beats comes in; two nodes of which
that holds and that agree on the rest publish one hash. -/
theorem timely_iff {disk : Disk} {clock : TimePoint} {steady : SteadyTime}
    (hr : Run (step w) (.start disk clock steady) h n) :
    (Always (fun _ n e => Timely n e) h ↔ Always SweptInTime h) ∧
      ∀ (n n' : Node) (e e' : Event) (sha256 : Bytes → Bytes), Publishes n e = true → Timely n e →
        Publishes n' e' = true → Timely n' e' → n.replica.former = n'.replica.former →
        (∀ (p : Path) (moment : TimePoint),
          (n.replica.tombstones[p]? = some moment ∧ n.clock - moment ≤ tombstoneTtl) ↔
            (n'.replica.tombstones[p]? = some moment ∧ n'.clock - moment ≤ tombstoneTtl)) →
        hash sha256 n.replica.former n.replica.tombstones =
          hash sha256 n'.replica.former n'.replica.tombstones := by
  constructor
  · exact hr.always_iff fun _ _ _ _ hr _ => timely_iff_swept (ledger hr)
  · exact fun _ _ _ _ sha256 hp ht hp' ht' => hash_eq_of_timely sha256 hp ht hp' ht'

instance (n : Node) (e : Event) : Decidable (Timely n e) :=
  decidable_of_iff ((Publishes n e = true → ∀ x ∈ n.replica.tombstones.toList,
      n.clock - x.2 ≤ tombstoneTtl) ∧
    ∀ c ∈ weighed n e, ∀ moment ∈ n.replica.tombstones[c.1]?, beats moment c.2 = true →
      n.clock - moment ≤ tombstoneTtl)
    ⟨fun h => ⟨fun hp p moment hm => h.1 hp (p, moment) (PathMap.mem_toList.mpr hm), h.2⟩,
      fun h => ⟨fun hp x hx => h.published hp x.1 x.2 (PathMap.mem_toList.mp hx), h.refused⟩⟩

/-- A file comes and goes, and an hour later a peer says where it stands. -/
def idleHour (sweep : Bool) : List Event :=
  [.localWrite samplePath (sampleFile "x" 1000), .tick 10] ++ pass true none ++
    [.localDelete samplePath, .tick 10] ++ pass true none ++
    [.tick 3600000000001] ++ pass sweep (some (sampleCreate "x" 1000))

theorem sweptHour_timely :
    ∃ h n, Run (step sampleWorld) (.start ∅ 1000 0) h n ∧
      n.sent.any (fun v => verbOf (part v 0) = ascii "state") = true ∧ Always SweptInTime h := by
  obtain ⟨h, n, hr, hs, ht⟩ := exists_run (step sampleWorld) (.start ∅ 1000 0) (idleHour true)
    (fun h n => n.sent.any (fun v => verbOf (part v 0) = ascii "state") = true ∧
      Always (fun _ n e => Timely n e) h) (by decide +kernel)
  exact ⟨h, n, hr, hs, (timely_iff hr).1.mp ht⟩

theorem idleHour_late :
    ∃ h n, Run (step sampleWorld) (.start ∅ 1000 0) h n ∧
      ¬ Always (fun _ n e => Timely n e) h := by
  exact exists_run (step sampleWorld) (.start ∅ 1000 0) (idleHour false)
    (fun h _ => ¬ Always (fun _ n e => Timely n e) h) (by decide +kernel)

end SyncFs
