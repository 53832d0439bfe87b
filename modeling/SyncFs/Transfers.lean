import SyncFs.AppliedCreates

/-!
# Transfers

What a step does to the file at a path can be told from the step: a local write
puts one in its place, libtorrent writes the file of one of its torrents, a
stamp puts a time on it, and all that is left is a deletion.
-/

namespace SyncFs

open CharConversions LabelledRuns

section

variable (w : World)

/-- The step is a write of libtorrent's to the file at a path. -/
def ltTouches (n : Node) (e : Event) (p : Path) : Bool :=
  match e with
  | .ltOpen handle => (n.replica.session.find handle).any fun t =>
      w.spot t = p ∧
        n.replica.disk[p]? ≠ some (openedFile n.replica.disk[p]? t.info.content n.fileClock)
  | .ltWrite handle _ _ => (n.replica.session.find handle).any fun t => w.spot t = p
  | _ => false

/-- What the step calls `stamp_and_remember` on. -/
def stampCall (n : Node) (e : Event) : Option (Replica × Path × FileTime) :=
  match n.pc, e with
  | .process (alert :: _), .advance =>
    if alert.kind = .cacheFlushed then
      (n.replica.session.find alert.handle).map fun t =>
        (n.replica, w.heldPath t, alertTime n alert)
    else none
  | .receive, .receive (some v) =>
    if applies w v n.replica then
      (torrentOf w v).bind fun torrent =>
        if heldAlready w n.replica v torrent then
          some (n.replica.serving w v torrent, announcedPath v, originOf v)
        else none
    else none
  | _, _ => none

/-- The step's stamp is on the file of a path, under another spelling of it. -/
def restamps (n : Node) (e : Event) (p : Path) : Bool :=
  (stampCall w n e).any fun call => call.2.1 ≠ p ∧ call.1.locate w call.2.1 = some (w.destination p)

def recordsAt (n : Node) (e : Event) (p : Path) : Prop :=
  ∃ call ∈ stampCall w n e, call.2.1 = p ∧ Records w call.1 p call.2.2

instance (r : Replica) (p : Path) (writtenBy : FileTime) : Decidable (Records w r p writtenBy) :=
  decidable_of_iff (∃ time ∈ r.lastWriteTime w p, ¬ writtenBy < time) Iff.rfl

instance (n : Node) (e : Event) (p : Path) : Decidable (recordsAt w n e p) := by
  unfold recordsAt
  infer_instance

end

def writesLocally (e : Event) (p : Path) : Bool :=
  match e with
  | .localWrite q _ => q = p
  | _ => false

variable {w : World} {n m : Node} {e : Event} {h : History Node Event}

theorem stampCall_cases {call : Replica × Path × FileTime} (hc : stampCall w n e = some call) :
    (∃ alert rest t, n.pc = .process (alert :: rest) ∧ e = .advance ∧ alert.kind = .cacheFlushed ∧
      n.replica.session.find alert.handle = some t ∧
      call = (n.replica, w.heldPath t, alertTime n alert)) ∨
    (∃ v torrent, n.pc = .receive ∧ e = .receive (some v) ∧ applies w v n.replica = true ∧
      torrentOf w v = some torrent ∧ heldAlready w n.replica v torrent = true ∧
      call = (n.replica.serving w v torrent, announcedPath v, originOf v)) := by
  unfold stampCall at hc
  split at hc
  · next alert rest hp =>
    obtain ⟨hk, hc⟩ := Option.ite_none_right_eq_some.mp hc
    obtain ⟨t, ht, rfl⟩ := Option.map_eq_some_iff.mp hc
    exact .inl ⟨alert, rest, t, hp, rfl, hk, ht, rfl⟩
  · next v hp =>
    obtain ⟨ha, hc⟩ := Option.ite_none_right_eq_some.mp hc
    obtain ⟨torrent, ht, hc⟩ := Option.bind_eq_some_iff.mp hc
    obtain ⟨hh, hc⟩ := Option.ite_none_right_eq_some.mp hc
    exact .inr ⟨v, torrent, hp, rfl, ha, ht, hh, (Option.some.inj hc).symm⟩
  · cases hc

theorem stampCall_flush {alert : Alert} {rest : List Alert} {t : Torrent}
    (hp : n.pc = .process (alert :: rest)) (hk : alert.kind = .cacheFlushed)
    (ht : n.replica.session.find alert.handle = some t) :
    stampCall w n .advance = some (n.replica, w.heldPath t, alertTime n alert) := by
  unfold stampCall
  rw [hp]
  simp only [hk, if_true, ht, Option.map_some]

theorem stampCall_receive {v : List Bytes} {torrent : TorrentInfo} (hp : n.pc = .receive)
    (ha : applies w v n.replica = true) (ht : torrentOf w v = some torrent)
    (hh : heldAlready w n.replica v torrent = true) :
    stampCall w n (.receive (some v)) =
      some (n.replica.serving w v torrent, announcedPath v, originOf v) := by
  unfold stampCall
  rw [hp]
  simp only [ha, if_true, ht, Option.bind_some, hh]

/-- A stamp that is no stamp under another spelling is of the path or of another file. -/
theorem eq_or_locate_ne {call : Replica × Path × FileTime} {p : Path}
    (hr : restamps w n e p = false) (hc : stampCall w n e = some call) :
    call.2.1 = p ∨ call.1.locate w call.2.1 ≠ some (w.destination p) := by
  rw [restamps, hc] at hr
  have hn := of_decide_eq_false hr
  rw [not_and_or, ne_eq, not_not] at hn
  exact hn

/-- What the stamp of a step leaves is what the step leaves of the disk, the
listing and what is remembered. -/
theorem Stepped.stampCall {call : Replica × Path × FileTime} (hs : Stepped w n e m)
    (hl : m.pc ≠ .stopped) (hc : SyncFs.stampCall w n e = some call) :
    (∀ diff current, m.pc ≠ .sending diff current) ∧
      ∃ r, StampsAs w call.1 call.2.1 call.2.2 r ∧ m.replica.disk = r.disk ∧
        m.replica.former = r.former ∧ m.replica.inbound = r.inbound := by
  rcases stampCall_cases hc with ⟨alert, rest, t, hp, rfl, hk, ht, rfl⟩ |
    ⟨v, torrent, hp, rfl, ha, ht, hh, rfl⟩
  · cases hs with
    | @process alert' rest' hp' =>
      rw [hp] at hp'
      obtain ⟨rfl, rfl⟩ := List.cons.inj (Pc.process.inj hp')
      refine ⟨by simp, _, stampsAs _ _ _ _, ?_⟩
      simp [processAlert, ht, hk]
    | top h | test h | pop h | processed h | clear h | send h | repair h =>
      rw [hp] at h
      cases h
  · cases hs with
    | receive _ =>
      obtain ⟨r, he, hrec⟩ := takeIn_live hl
      rw [he]
      refine ⟨by simp, ?_⟩
      rw [ha] at hrec
      generalize hb : true = b at hrec
      cases hrec with
      | @applied torrent' _ _ loads _ =>
        rw [ht] at loads
        obtain rfl := Option.some.inj loads
        obtain ⟨left, hleft, hst⟩ := applied_cases w n.replica v torrent
        rcases hst with ⟨-, hst⟩ | ⟨hn, -⟩
        · exact ⟨left, hst, by rw [hleft], by rw [hleft], by rw [hleft]⟩
        · rw [hh] at hn
          cases hn
      | rejected | removed | refused | state | digest => cases hb

/-- A message leaves every file it does not stamp as it is, or without it. -/
theorem Received.file_kept {r r' : Replica} {v : List Bytes} {clock : TimePoint} {b : Bool}
    {p : Path} {file : File} (h : Received w v clock r b (.ok r'))
    (hl : b = true → ∀ torrent ∈ torrentOf w v, heldAlready w r v torrent = true →
      r.locate w (announcedPath v) ≠ some p)
    (hf : r'.disk[p]? = some file) : r.disk[p]? = some file := by
  have herase : ∀ {r left : Replica} {path : Path}, erase w r path = .ok left →
      left.disk[p]? = some file → r.disk[p]? = some file := by
    intro r left path he hf
    obtain ⟨disk, hd, rfl⟩ := erase_ok he
    rw [Tree.getElem?_remove hd] at hf
    split at hf
    · cases hf
    · exact hf
  cases h with
  | rejected | refused | state => exact hf
  | removed _ erased => exact herase erased hf
  | @applied torrent _ _ loads _ =>
    obtain ⟨left, he, hleft⟩ := applied_cases w r v torrent
    rw [he] at hf
    rcases hleft with ⟨hh, hst⟩ | ⟨-, rfl⟩
    · exact (hst.disk_other (hl rfl _ loads hh)).symm.trans hf
    · exact hf
  | @digest left _ _ adopted _ =>
    have ha := adopt_preserves (P := fun s => s.disk[p]? = some file → r.disk[p]? = some file)
      id (fun _ _ _ _ hr => hr)
      (fun s left path moment _ hr he hf => hr (herase (r := s.unlisted path moment) he hf)) adopted
    exact ha hf

private theorem find_touched {handle : ℕ} {t : Torrent} {q : Torrent → Bool}
    (hf : n.replica.session.find handle = some t)
    (ht : (n.replica.session.find handle).any q = false) : q t = false := by
  rw [hf] at ht
  exact ht

/-- A step that neither writes nor stamps a file leaves it as it is, or without it. -/
theorem Stepped.file_kept {p : Path} {file : File} (hs : Stepped w n e m) (hl : m.pc ≠ .stopped)
    (hw : writesLocally e p = false) (ht : ltTouches w n e p = false)
    (hc : ∀ call ∈ SyncFs.stampCall w n e, call.1.locate w call.2.1 ≠ some p)
    (hf : m.replica.disk[p]? = some file) : n.replica.disk[p]? = some file := by
  cases hs with
  | tick | directory | ltState | ltVerify | post | test | pop | processed | clear | send | idle | list
  | nothing | repair => exact hf
  | localWrite => rwa [PathMap.getElem?_insert, if_neg (of_decide_eq_false hw)] at hf
  | localDelete =>
    rw [PathMap.getElem?_erase] at hf
    split at hf
    · cases hf
    · exact hf
  | ltOpen found =>
    have hq := find_touched found ht
    rw [getElem?_touch] at hf
    split at hf
    · next hspot =>
      subst hspot
      simp only [decide_eq_false_iff_not, not_not, true_and] at hq
      rw [hq, hf]
    · exact hf
  | ltWrite found =>
    have hq := find_touched found ht
    rwa [getElem?_touch, if_neg (of_decide_eq_false hq)] at hf
  | top =>
    rw [beginPass] at hf
    split at hf <;> exact hf
  | round => split at hf <;> exact hf
  | @process alert rest hpc =>
    have hq := SyncFs.processed w n alert
    have hf : (processAlert w n alert).disk[p]? = some file := hf
    generalize processAlert w n alert = r at hq hf
    cases hq with
    | skipped | finished => exact hf
    | flushed flushes found stamps =>
      have hcall := hc _ (stampCall_flush hpc flushes found)
      exact (stamps.disk_other hcall).symm.trans hf
  | @receive v hpc =>
    obtain ⟨r, he, hrec⟩ := takeIn_live hl
    rw [he] at hf
    refine hrec.file_kept (fun ha torrent ht hh => ?_) hf
    have hcall := hc _ (stampCall_receive hpc ha ht hh)
    exact hcall

theorem Stepped.sending {diff : Diff} {current : FileMap} (hs : Stepped w n e m)
    (hp : m.pc = .sending diff current) :
    n.pc = .sending diff current ∨ listed n e = some current := by
  have hother : ∀ {pc : Pc}, pc = .sending diff current → (∀ diff current, pc ≠ .sending diff current) →
      n.pc = .sending diff current ∨ listed n e = some current :=
    fun h hne => absurd h (hne _ _)
  cases hs with
  | tick | directory | localWrite | localDelete | ltOpen | ltVerify | ltWrite | ltState | post => exact .inl hp
  | list hw =>
    obtain ⟨-, rfl⟩ := Pc.sending.inj hp
    exact .inr (listed_list hw)
  | top =>
    rw [beginPass] at hp
    split at hp <;> exact hother hp (by rintro _ _ ⟨⟩)
  | test =>
    dsimp only at hp
    split at hp <;> exact hother hp (by rintro _ _ ⟨⟩)
  | round => exact hother hp (by rintro _ _ ⟨⟩)
  | receive =>
    rw [takeIn] at hp
    split at hp <;> exact hother hp (by rintro _ _ ⟨⟩)
  | pop | processed | process | clear | send | repair | idle | nothing => exact hother hp (by rintro _ _ ⟨⟩)

theorem Received.former_kept {r r' : Replica} {v : List Bytes} {clock : TimePoint} {b : Bool}
    {p : Path} {t : FileTime} (h : Received w v clock r b (.ok r'))
    (hl : b = true → ∀ torrent ∈ torrentOf w v, heldAlready w r v torrent = true →
      announcedPath v ≠ p)
    (hf : r'.former[p]? = some t) : r.former[p]? = some t := by
  cases h with
  | rejected | refused | state => exact hf
  | removed _ erased =>
    obtain ⟨disk, -, rfl⟩ := erase_ok erased
    exact hf
  | @applied torrent _ _ loads _ =>
    obtain ⟨left, he, hleft⟩ := applied_cases w r v torrent
    rw [he] at hf
    rcases hleft with ⟨hh, hst⟩ | ⟨-, rfl⟩
    · exact (hst.memory_other (hl rfl _ loads hh)).1.symm.trans hf
    · exact hf
  | @digest left _ _ adopted _ =>
    have ha := adopt_preserves (P := fun s => s.former[p]? = some t → r.former[p]? = some t)
      id (fun _ _ _ _ hr => hr)
      (fun s left path moment _ hr he hf => by
        obtain ⟨disk, -, rfl⟩ := erase_ok he
        have hf : (s.former.erase path)[p]? = some t := hf
        rw [PathMap.getElem?_erase] at hf
        split at hf
        · cases hf
        · exact hr hf) adopted
    exact ha hf

/-- A step that neither stamps a path nor takes a listing over lists it only
under the time it was listed under. -/
theorem Stepped.former_kept {p : Path} {t : FileTime} (hs : Stepped w n e m) (hl : m.pc ≠ .stopped)
    (hc : ∀ call ∈ SyncFs.stampCall w n e, call.2.1 ≠ p)
    (hp : ∀ diff current, n.pc = .sending diff current → current[p]? ≠ some t)
    (hf : m.replica.former[p]? = some t) : n.replica.former[p]? = some t := by
  cases hs with
  | tick | directory | localWrite | localDelete | ltOpen | ltVerify | ltWrite | ltState | post | test | pop
  | processed | clear | idle | list | nothing | repair => exact hf
  | send hsending => exact absurd hf (hp _ _ hsending)
  | top =>
    rw [beginPass] at hf
    split at hf <;> exact hf
  | round => split at hf <;> exact hf
  | @process alert rest hpc =>
    have hq := SyncFs.processed w n alert
    have hf : (processAlert w n alert).former[p]? = some t := hf
    generalize processAlert w n alert = r at hq hf
    cases hq with
    | skipped | finished => exact hf
    | flushed flushes found stamps =>
      exact (stamps.memory_other (hc _ (stampCall_flush hpc flushes found))).1.symm.trans hf
  | @receive v hpc =>
    obtain ⟨r, he, hrec⟩ := takeIn_live hl
    rw [he] at hf
    exact hrec.former_kept (fun ha torrent ht hh => hc _ (stampCall_receive hpc ha ht hh)) hf

section

variable {r r' : Replica} {path : Path}

theorem StampsAs.housed {writtenBy : FileTime} (h : StampsAs w r path writtenBy r')
    (hr : r.Housed) : r'.Housed := by
  cases h with
  | absent | edited | kept => exact hr
  | stamped => exact hr.of_samePlaces (Tree.samePlaces_stamp _)

theorem housed_erase (h : erase w r path = .ok r') (hr : r.Housed) : r'.Housed := by
  obtain ⟨tree, ht, rfl⟩ := erase_ok h
  exact hr.remove ht

theorem Received.housed {v : List Bytes} {clock : TimePoint} {b : Bool}
    (h : Received w v clock r b (.ok r')) (hr : r.Housed) : r'.Housed := by
  cases h with
  | rejected | refused | state => exact hr
  | @removed path left _ erased =>
    have hl : left.Housed := housed_erase erased hr
    exact hl
  | @applied torrent _ _ loads _ =>
    obtain ⟨left, he, hleft⟩ := applied_cases w r v torrent
    rw [he]
    rcases hleft with ⟨-, hst⟩ | ⟨-, rfl⟩
    · exact hst.housed hr
    · exact hr
  | @digest left _ _ adopted _ =>
    have ha : left.Housed := by
      refine adopt_preserves (P := fun s => s.Housed) hr (fun _ _ _ _ hs => hs) ?_ adopted
      intro s left path moment _ hs he
      have hl : left.Housed := housed_erase (r := s.unlisted path moment) he hs
      exact hl
    exact ha

theorem Stepped.housed (hs : Stepped w n e m) (hl : m.pc ≠ .stopped) (hn : n.replica.Housed) :
    m.replica.Housed := by
  cases hs with
  | tick | ltState | ltVerify | post | test | pop | processed | clear | send | idle | list
  | nothing | repair => exact hn
  | localWrite _ housed => exact hn.insert housed _
  | localDelete => exact hn.erase
  | directory changes => exact hn.changeDirectory changes
  | ltOpen _ housed => exact hn.insert housed _
  | ltWrite _ present => exact hn.insert (hn.files _ (PathMap.mem_iff.mpr ⟨_, present⟩)) _
  | top =>
    rw [beginPass]
    split <;> exact hn
  | round => split <;> exact hn
  | @process alert rest =>
    have hq := SyncFs.processed w n alert
    change (processAlert w n alert).Housed
    generalize processAlert w n alert = r at hq
    cases hq with
    | skipped | finished => exact hn
    | flushed _ _ stamps => exact stamps.housed hn
  | receive =>
    obtain ⟨r, he, hrec⟩ := takeIn_live hl
    rw [he]
    exact hrec.housed hn

/-- In every state a run reaches, a path that something stands in has a time. -/
theorem directory_timed {disk : Disk} {clock : TimePoint} {steady : SteadyTime}
    (hr : Run (step w) (.start disk clock steady) h n) (hl : n.pc ≠ .stopped) (hk : path.IsKey)
    (hb : n.replica.below path = true) : ∃ t, n.replica.lastWriteTime w path = some t := by
  have hstart : (Node.start disk clock steady).replica.Housed := Tree.housed_ofDisk disk _
  have hh : n.replica.Housed := (live_invariant (I := fun _ n => n.replica.Housed) hstart
    (fun _ _ _ _ hI _ hs hl => hs.housed hl hI) hr (always_true h)).resolve_left hl
  exact hh.lastWriteTime hk hb

end

end SyncFs
