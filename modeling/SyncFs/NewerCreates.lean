import SyncFs.Transfers

/-!
# Newer creates

An announcement is weighed against the time of the file on disk. While a
transfer is under way that time is libtorrent's, of the receiver's own clock,
and a create that is newer than the one in flight can still be older than it.
-/

namespace SyncFs

open CharConversions LabelledRuns

section

variable (w : World)

def putsBack (n : Node) (e : Event) (p : Path) : Prop :=
  ∃ call ∈ stampCall w n e, call.2.1 = p ∧ Records w call.1 p call.2.2 ∧
    (call.1.inbound.origins[p]?).isSome = true

instance (n : Node) (e : Event) (p : Path) : Decidable (putsBack w n e p) := by
  unfold putsBack
  infer_instance

/-- The step applies a create for a path that leads nowhere, while a file stands
where it would lead. -/
def appliesBlind (n : Node) (e : Event) (p : Path) : Bool :=
  (appliedBy w n e).any fun v => announcedPath v = p &&
    (n.replica.locate w p = none && n.replica.disk.contains (w.destination p))

/-- The file of a path has a time that libtorrent left on it, or that no create
for the path was weighed against. -/
def strayTimed : History Node Event → Path → Bool
  | [], _ => false
  | (n, e) :: h, p =>
    if ltTouches w n e (w.destination p) || restamps w n e p || appliesBlind w n e p then true
    else if writesLocally e (w.destination p) || putsBack w n e p then false
    else strayTimed h p

/-- The file of a path was written locally after the last create applied for it. -/
def writtenSince : History Node Event → Path → Bool
  | [], _ => false
  | (n, e) :: h, p =>
    if writesLocally e (w.destination p) then true
    else if (appliedBy w n e).any fun v => announcedPath v = p then false
    else writtenSince h p

/-- The copy here, if any, is of a create applied earlier than this one. -/
def Follows (h : History Node Event) (n : Node) (v : List Bytes) : Prop :=
  match lastApplied w h (announcedPath v) with
  | some earlier => writtenSince w h (announcedPath v) = false ∧
      (originOf earlier).toTicks < (originOf v).toTicks
  | none => n.replica.find w (announcedPath v) = none

def Readable (v : List Bytes) : Prop :=
  verbOf (part v 0) = ascii "create" ∧ v.length = 4 ∧ (torrentOf w v).isSome = true

/-- A create that is newer than all that was applied, and that no tombstone beats. -/
def Newer (h : History Node Event) (n : Node) (v : List Bytes) : Prop :=
  Readable w v ∧ Undefeated n.replica.tombstones (announcedPath v) (originOf v) ∧ Follows w h n v

end

variable {w : World} {n m : Node} {e : Event} {h : History Node Event} {p : Path}

/-- A copy nobody wrote since its create was applied, and whose time is no stray
one, is no newer than the create. -/
def NoNewerAt (w : World) (h : History Node Event) (n : Node) (p : Path) : Prop :=
  ∀ v, lastApplied w h p = some v → writtenSince w h p = false → strayTimed w h p = false →
    ∀ file ∈ n.replica.disk[w.destination p]?, file.mtime.toTicks ≤ (originOf v).toTicks

namespace NoNewerAt

/-- A step that applies no create for the path, puts no time back and brings no
other file than a write does. -/
theorem keep (hk : NoNewerAt w h n p) (ha : ∀ v ∈ appliedBy w n e, announcedPath v ≠ p)
    (hb : ¬ putsBack w n e p)
    (hd : writesLocally e (w.destination p) = false → ltTouches w n e (w.destination p) = false →
      restamps w n e p = false → ∀ file, m.replica.disk[w.destination p]? = some file →
        n.replica.disk[w.destination p]? = some file) : NoNewerAt w ((n, e) :: h) m p := by
  have hl := lastApplied_other (h := h) ha
  have hany : (appliedBy w n e).any (fun v => decide (announcedPath v = p)) = false := by
    cases hv : appliedBy w n e with
    | none => rfl
    | some v => exact decide_eq_false (ha v hv)
  intro v hv hw ht file hf
  rw [writtenSince, hany] at hw
  rw [strayTimed] at ht
  simp only [hb, decide_false, Bool.or_false] at ht
  split at hw
  · cases hw
  · next hlocal =>
    rw [if_neg hlocal] at ht
    split at ht
    · cases ht
    · next htouch =>
      obtain ⟨htouch, -⟩ := Bool.or_eq_false_iff.mp (Bool.eq_false_iff.mpr htouch)
      obtain ⟨htouch, hst⟩ := Bool.or_eq_false_iff.mp htouch
      exact hk v (hl ▸ hv) hw ht file (hd (Bool.eq_false_iff.mpr hlocal) htouch hst file hf)

theorem le_of_wins {r : Replica} {origin here : FileTime} {torrent : TorrentInfo}
    (hw : wins w r p origin torrent = true) (hh : r.lastWriteTime w p = some here) :
    here.toTicks ≤ origin.toTicks := by
  rcases (wins_present hh).mp hw with hlt | ⟨heq, -⟩
  · exact le_of_lt hlt
  · exact le_of_eq heq

theorem stamped_file {r r' : Replica} {writtenBy : FileTime} {file : File}
    (hs : StampsAs w r p writtenBy r') (hf : r'.disk[w.destination p]? = some file) :
    r.disk[w.destination p]? = some file ∧
        ¬ (Records w r p writtenBy ∧ (r.inbound.origins[p]?).isSome = true) ∨
      Records w r p writtenBy ∧ r.inbound.origins[p]? = some file.mtime := by
  cases hs with
  | absent absent =>
    refine .inl ⟨hf, ?_⟩
    rintro ⟨⟨time, ht, -⟩, -⟩
    rw [absent] at ht
    cases ht
  | edited present later =>
    refine .inl ⟨hf, ?_⟩
    rintro ⟨⟨time, ht, hn⟩, -⟩
    rw [present] at ht
    exact hn (Option.some.inj ht ▸ later)
  | kept present done spent => exact .inl ⟨hf, fun h => by simp [spent] at h⟩
  | @stamped time origin present done waiting =>
    obtain ⟨spot, hl, -⟩ := Option.bind_eq_some_iff.mp present
    obtain rfl := Tree.locate_eq_some hl
    rw [Replica.remembered, Replica.stamped, Tree.getElem?_stamp, if_pos hl] at hf
    obtain ⟨old, -, rfl⟩ := Option.map_eq_some_iff.mp hf
    exact .inr ⟨⟨time, present, done⟩, waiting⟩

/-- A create that is applied has won against the copy, and a stamp only puts its
own time on it. -/
theorem applied {v : List Bytes} (ha : appliedBy w n e = some v)
    (hb : appliesBlind w n e (announcedPath v) = false) (hs : Stepped w n e m)
    (hl : m.pc ≠ .stopped) {file : File}
    (hf : m.replica.disk[w.destination (announcedPath v)]? = some file) :
    file.mtime.toTicks ≤ (originOf v).toTicks := by
  -- A file that was there is where the path led.
  have hthere : n.replica.disk[w.destination (announcedPath v)]? = some file →
      n.replica.lastWriteTime w (announcedPath v) = some file.mtime := by
    intro hold
    cases hlocate : n.replica.locate w (announcedPath v) with
    | none => simp [appliesBlind, ha, hlocate, PathMap.contains_eq, hold] at hb
    | some spot =>
      rw [Tree.locate_eq_some hlocate] at hold
      exact Tree.lastWriteTime_of_find (Tree.find_eq_some.mpr ⟨spot, hlocate, hold⟩)
  obtain ⟨hpc, rfl, happ⟩ := appliedBy_eq_some.mp ha
  cases hs with
  | receive _ =>
    obtain ⟨r, he, hrec⟩ := takeIn_live hl
    rw [he] at hf
    rw [happ] at hrec
    generalize hb : true = b at hrec
    cases hrec with
    | @applied torrent _ _ _ won =>
      obtain ⟨left, hleft, hst⟩ := applied_cases w n.replica v torrent
      rw [hleft] at hf
      rcases hst with ⟨-, hst⟩ | ⟨-, rfl⟩
      · rcases stamped_file hst hf with ⟨hold, -⟩ | ⟨-, ho⟩
        · exact le_of_wins won (hthere hold)
        · rw [Replica.serving, Replica.awaiting, PathMap.getElem?_insert, if_pos rfl] at ho
          rw [← Option.some.inj ho]
      · exact le_of_wins won (hthere hf)
    | rejected | removed | refused | state | digest => cases hb

theorem step (hk : NoNewerAt w h n p) (hr : Recalls (lastApplied w h) n.replica)
    (hs : Stepped w n e m) (hl : m.pc ≠ .stopped) : NoNewerAt w ((n, e) :: h) m p := by
  by_cases happ : ∃ v ∈ appliedBy w n e, announcedPath v = p
  · obtain ⟨v, hv, rfl⟩ := happ
    intro u hu _ ht file hf
    obtain rfl : v = u := by simpa [lastApplied, Option.mem_def.mp hv] using hu
    refine applied hv (Bool.eq_false_iff.mpr fun hb => ?_) hs hl hf
    rw [strayTimed, hb, Bool.or_true, if_pos rfl] at ht
    cases ht
  · have ha : ∀ v ∈ appliedBy w n e, announcedPath v ≠ p := fun v hv he => happ ⟨v, hv, he⟩
    by_cases hcall : ∃ call ∈ stampCall w n e, call.2.1 = p
    · obtain ⟨call, hc, rfl⟩ := hcall
      obtain ⟨-, r, hst, hd, -⟩ := hs.stampCall hl hc
      have hr1 : call.1 = n.replica := by
        rcases stampCall_cases hc with ⟨_, _, _, _, _, _, _, rfl⟩ | ⟨v, _, hpc, rfl, hav, _, _, rfl⟩
        · rfl
        · exact absurd rfl (ha v (appliedBy_eq_some.mpr ⟨hpc, rfl, hav⟩))
      by_cases hb : putsBack w n e call.2.1
      · intro v hv _ _ file hf
        obtain ⟨_, hc', -, hrec, hwait⟩ := hb
        rw [hc] at hc'
        obtain rfl := Option.some.inj hc'
        rw [hd] at hf
        rcases stamped_file hst hf with ⟨-, hn⟩ | ⟨-, ho⟩
        · exact absurd ⟨hrec, hwait⟩ hn
        · rw [hr1] at ho
          obtain ⟨u, hu, ho⟩ := hr.origin _ _ ho
          rw [lastApplied_other ha, hu] at hv
          obtain rfl := Option.some.inj hv
          exact le_of_eq (congrArg FileTime.toTicks ho)
      · refine hk.keep ha hb fun _ _ _ file hf => ?_
        rw [hd] at hf
        rcases stamped_file hst hf with ⟨hold, -⟩ | ⟨hrec, ho⟩
        · rwa [hr1] at hold
        · exact absurd ⟨call, hc, rfl, hrec, Option.isSome_iff_exists.mpr ⟨_, ho⟩⟩ hb
    · have hb : ¬ putsBack w n e p := by
        rintro ⟨call, hc, hp, -⟩
        exact hcall ⟨call, hc, hp⟩
      refine hk.keep ha hb fun hw ht hst file hf => hs.file_kept hl hw ht (fun call hc => ?_) hf
      exact (eq_or_locate_ne hst hc).resolve_left fun he => hcall ⟨call, hc, he⟩

end NoNewerAt

theorem noNewer {disk : Disk} {clock : TimePoint} {steady : SteadyTime}
    (hr : Run (step w) (.start disk clock steady) h n) :
    n.pc = .stopped ∨ Recalls (lastApplied w h) n.replica ∧ ∀ p, NoNewerAt w h n p := by
  have hi : Recalls (lastApplied w []) (Node.start disk clock steady).replica ∧
      ∀ p, NoNewerAt w [] (.start disk clock steady) p := by
    refine ⟨by constructor <;> simp [Node.start], fun p v hv => ?_⟩
    cases hv
  refine live_invariant
    (I := fun h n => Recalls (lastApplied w h) n.replica ∧ ∀ p, NoNewerAt w h n p) hi ?_ hr
    (always_true h)
  exact fun h n e m hI _ hs hl => ⟨hI.1.step hs hl, fun p => (hI.2 p).step hI.1 hs hl⟩

/-- In every state a run reaches, a newer create is applied exactly when what
stands at its path is a file with no stray time on it, or is no later. -/
theorem appliesNewer_iff {disk : Disk} {clock : TimePoint} {steady : SteadyTime} {v : List Bytes}
    (hr : Run (step w) (.start disk clock steady) h n) (hn : n.pc ≠ .stopped)
    (hv : Newer w h n v) :
    applies w v n.replica = true ↔
      (strayTimed w h (announcedPath v) = true ∨ n.replica.find w (announcedPath v) = none →
        ∀ here ∈ n.replica.lastWriteTime w (announcedPath v),
          here.toTicks ≤ (originOf v).toTicks) := by
  obtain ⟨hrec, hk⟩ := (noNewer hr).resolve_left hn
  obtain ⟨⟨hverb, hlen, hload⟩, hu, hf⟩ := hv
  obtain ⟨torrent, ht⟩ := Option.isSome_iff_exists.mp hload
  rw [applies_create hverb hlen ht, and_iff_right hu]
  -- What was applied here was applied with an earlier origin, so no tie is broken.
  have hless : ∀ known ∈ n.replica.repairs.applied[announcedPath v]?,
      known.origin.toTicks < (originOf v).toTicks := by
    intro known hm
    obtain ⟨u, hu, ho⟩ := hrec.applied _ _ hm
    rw [Follows, hu] at hf
    rw [ho]
    exact hf.2
  constructor
  · exact fun hw _ here hh => NoNewerAt.le_of_wins hw hh
  · intro hle
    cases hh : n.replica.lastWriteTime w (announcedPath v) with
    | none => exact wins_absent hh
    | some here =>
      rw [wins_present hh]
      have hhere : here.toTicks ≤ (originOf v).toTicks := by
        cases hfile : n.replica.find w (announcedPath v) with
        | none => exact hle (.inr hfile) here hh
        | some file =>
          by_cases hst : strayTimed w h (announcedPath v) = true
          · exact hle (.inl hst) here hh
          · rw [Tree.lastWriteTime_of_find hfile] at hh
            obtain rfl := Option.some.inj hh
            rw [Follows] at hf
            split at hf
            · next earlier hl =>
              have hold := hk _ earlier hl hf.1 (Bool.eq_false_iff.mpr hst) file
                (Tree.find_destination hfile)
              exact hold.trans hf.2.le
            · rw [hf] at hfile
              cases hfile
      rcases lt_or_eq_of_le hhere with hlt | heq
      · exact .inl hlt
      · exact .inr ⟨heq, fun known hm he => absurd (hless known hm) (by omega)⟩

instance (h : History Node Event) (n : Node) (v : List Bytes) : Decidable (Follows w h n v) := by
  unfold Follows
  split <;> infer_instance

instance (h : History Node Event) (n : Node) (v : List Bytes) : Decidable (Newer w h n v) := by
  unfold Newer Readable
  infer_instance

def Receiving (n : Node) : Bool :=
  match n.pc with
  | .receive => true
  | _ => false

theorem Receiving.at_receive (hr : Receiving n = true) : n.pc = .receive := by
  unfold Receiving at hr
  split at hr
  · assumption
  · cases hr

/-- A create half transferred when the clock stands where a later edit of its
origin was made. -/
def youngTransfer : List Event :=
  pass false (some (sampleCreate "xy" 900)) ++
    [.ltOpen 0, .ltWrite 0 0 1, .tick 100, .advance, .advance, .woken none, .round 0, .advance]

theorem youngTransfer_applies :
    ∃ h n, Run (step sampleWorld) (.start ∅ 1000 0) h n ∧ n.clock = 1100 ∧
      strayTimed sampleWorld h samplePath = true ∧
      applies sampleWorld (sampleCreate "z" 1050) n.replica = true := by
  obtain ⟨h, n, hr, hc, ht, hp, hv, hl⟩ := exists_run (step sampleWorld) (.start ∅ 1000 0)
    youngTransfer
    (fun h n => n.clock = 1100 ∧ strayTimed sampleWorld h samplePath = true ∧
      Receiving n = true ∧ Newer sampleWorld h n (sampleCreate "z" 1050) ∧
      n.replica.lastWriteTime sampleWorld (announcedPath (sampleCreate "z" 1050)) =
        some (toFileTime 1000)) (by decide +kernel)
  refine ⟨h, n, hr, hc, ht, (appliesNewer_iff hr ?_ hv).mpr fun _ here hh => ?_⟩
  · rw [Receiving.at_receive hp]
    exact Pc.noConfusion
  · rw [hl] at hh
    obtain rfl := Option.some.inj hh
    decide

/-- A create half transferred when a newer one comes in, older than the writes
of the transfer. -/
def overtakenCreate : List Event :=
  pass false (some (sampleCreate "xy" 900)) ++
    [.ltOpen 0, .ltWrite 0 0 1, .advance, .advance, .woken none, .round 0, .advance]

theorem overtakenCreate_refused :
    ∃ h n v, Run (step sampleWorld) (.start ∅ 1000 0) h n ∧ n.pc = .receive ∧
      Newer sampleWorld h n v ∧ applies sampleWorld v n.replica = false := by
  obtain ⟨h, n, hr, hp, hv, ha⟩ := exists_run (step sampleWorld) (.start ∅ 1000 0)
    overtakenCreate
    (fun h n => Receiving n = true ∧ Newer sampleWorld h n (sampleCreate "z" 950) ∧
      applies sampleWorld (sampleCreate "z" 950) n.replica = false) (by decide +kernel)
  exact ⟨h, n, _, hr, Receiving.at_receive hp, hv, ha⟩

end SyncFs
