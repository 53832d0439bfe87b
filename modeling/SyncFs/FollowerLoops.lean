import SyncFs.Followers
import SyncFs.OriginLandings

/-!
# A follower's loop

A message is taken in at one moment and its file fetched bit by bit, among alerts,
listings, rounds and repairs. However these come, what is there once nothing is
on its way any more is what one message after the other would have left, each
with its transfer done at once.
-/

namespace SyncFs

open CharConversions LabelledRuns

/-- What a step takes in that tells of files: the roots nodes send one another, its
own among them, do not. -/
def tidingOf (e : Event) : Option (List Bytes) :=
  (messageOf e).filter fun v => verbOf (part v 0) ≠ ascii "state"

def takenIn : History Node Event → List (List Bytes)
  | [] => []
  | (_, e) :: h => takenIn h ++ (tidingOf e).toList

def pathOf (v : List Bytes) : Path := (removedPath v).getD (announcedPath v)

/-- Somebody else has a hand in the directory. -/
def writesHere : Event → Bool
  | .localWrite .. | .localDelete _ => true
  | _ => false

/-- The directory is left to the daemon and whole files to themselves, no message
comes in about a file on its way, of a time still to come or that has a directory
in its way, and a listing finds the files that are there, and of those on their way
the ones it found before. -/
structure LeftAlone (n : Node) (e : Event) : Prop where
  unwritten : writesHere e = false
  missing : WritesMissing n e
  apart : ∀ v ∈ tidingOf e, pathOf v ∉ n.replica.inbound.origins
  past : ∀ v ∈ tidingOf e, (originOf v).toTicks ≤ n.clock
  clear : ∀ v ∈ tidingOf e, removedPath v = none →
    ClearOf n.replica.directories (announcedPath v)
  finds : ∀ current ∈ listed n e,
    (∀ p ∈ n.replica.disk.list, p ∉ n.replica.inbound.origins → p ∈ current) ∧
      ∀ p ∈ n.replica.inbound.origins, p ∈ n.replica.former → p ∈ current

variable {w : World} {n m : Node} {e : Event} {h : History Node Event} {p : Path}

theorem messageOf_eq_some {v : List Bytes} : messageOf e = some v ↔ e = .receive (some v) := by
  cases e with
  | receive message => simp [messageOf]
  | tick | directory | localWrite | localDelete | ltOpen | ltVerify | ltWrite | ltState | post | advance
  | woken | round => simp [messageOf]

theorem messageOf_eq_none : messageOf e = none ↔ ∀ v, e ≠ .receive (some v) := by
  simp only [Option.eq_none_iff_forall_ne_some, ne_eq, messageOf_eq_some]

theorem verbOf_root {v : List Bytes} (h : tidingOf (.receive (some v)) = none) :
    verbOf (part v 0) = ascii "state" := by
  rw [tidingOf, Option.filter_eq_none_iff] at h
  have hv := h v rfl
  rwa [decide_eq_true_eq, not_not] at hv

theorem Tell.tiding {named : ℕ → Path × Bytes} {tree next : Path → Option File}
    {since later : Path → TimePoint} {v : List Bytes} (h : Tell w named tree since v next later) :
    tidingOf (.receive (some v)) = some v := by
  have hv : verbOf (part v 0) ≠ ascii "state" := by
    cases h with
    | remove key =>
      rw [(removedPath_eq_some (removedPath_source key)).2]
      decide
    | create announces =>
      rw [announces.verb]
      decide
  exact Option.filter_eq_some_iff.mpr ⟨rfl, decide_eq_true hv⟩

theorem received_root {v : List Bytes} (hv : verbOf (part v 0) = ascii "state") (clock : TimePoint)
    (steady : SteadyTime) (r : Replica) :
    applies w v r = false ∧ ∃ peers, receiveOne w v clock steady r = .ok { r with peers := peers } := by
  have hrec := received w v clock steady r
  generalize applies w v r = b at hrec
  generalize receiveOne w v clock steady r = result at hrec
  cases hrec with
  | rejected => exact ⟨rfl, r.peers, rfl⟩
  | state peers => exact ⟨rfl, peers, rfl⟩
  | removed removes | removeRaised removes =>
    exact absurd (hv.symm.trans (removedPath_eq_some removes).2) (by decide)
  | loadRaised creates | refused creates | applied creates =>
    exact absurd (hv.symm.trans creates) (by decide)
  | digest addressed | digestRaised addressed =>
    exact absurd (hv.symm.trans addressed) (by decide)

theorem writesLocally_eq_false (he : writesHere e = false) (p : Path) :
    writesLocally e p = false := by
  cases e with
  | localWrite | localDelete => cases he
  | tick | directory | ltOpen | ltVerify | ltWrite | ltState | post | advance | woken | round | receive => rfl

/-- The torrents of one session are those of another, however far they have come. -/
structure SameTorrents (w : World) (s s' : Session) : Prop where
  earlier : ∀ t ∈ s'.torrents, ∃ u ∈ s.torrents,
    u.handle = t.handle ∧ u.info = t.info ∧ w.heldPath u = w.heldPath t
  later : ∀ u ∈ s.torrents, ∃ t ∈ s'.torrents, w.heldPath t = w.heldPath u

theorem SameTorrents.refl (w : World) (s : Session) : SameTorrents w s s :=
  ⟨fun t ht => ⟨t, ht, rfl, rfl, rfl⟩, fun u hu => ⟨u, hu, rfl⟩⟩

theorem SameTorrents.modify (w : World) (s : Session) {handle : ℕ} {f : Torrent → Torrent}
    (gentle : Gentle f) : SameTorrents w s (s.modify handle f) := by
  constructor
  · intro t ht
    obtain ⟨u, hu, -, hhandle, hi, hp⟩ := Session.mem_modify_gentle gentle ht
    exact ⟨u, hu, hhandle.symm, hi.symm, by rw [World.heldPath, World.heldPath, hi, hp]⟩
  · intro u hu
    refine ⟨_, List.mem_map_of_mem hu, ?_⟩
    split
    · rw [World.heldPath, World.heldPath, gentle.info, gentle.savePath]
    · rfl

/-- No step but a message changes what is served. -/
theorem Stepped.sameTorrents (hs : Stepped w n e m) (he : messageOf e = none) :
    SameTorrents w n.replica.session m.replica.session := by
  cases hs with
  | tick | directory | localWrite | localDelete | post | test | pop | processed | clear | send | idle | list
  | nothing | repair => exact .refl _ _
  | ltOpen => exact .modify _ _ gentle_open
  | ltVerify | ltWrite => exact .modify _ _ (gentle_onDisk _ _)
  | ltState => exact .modify _ _ (gentle_state _)
  | top =>
    rw [beginPass]
    split <;> exact .refl _ _
  | round => split <;> exact .refl _ _
  | @process alert rest =>
    have hq := SyncFs.processed w n alert
    change SameTorrents w _ (processAlert w n alert).session
    generalize processAlert w n alert = r at hq
    cases hq with
    | skipped => exact .refl _ _
    | finished => exact .modify _ _ gentle_flushing
    | flushed _ _ stamps => exact stamps.session ▸ .refl _ _
  | receive => cases he

theorem Stepped.running (hs : Stepped w n e m) (he : messageOf e = none) (hn : n.pc ≠ .stopped) :
    m.pc ≠ .stopped := by
  cases hs with
  | tick | directory | localWrite | localDelete | ltOpen | ltVerify | ltWrite | ltState | post => exact hn
  | top =>
    rw [beginPass]
    split <;> simp
  | test =>
    dsimp only
    split <;> simp
  | pop | processed | process | clear | send | idle | list | nothing | repair | round =>
    simp [sendChanges, listChanges, sendRepairs]
  | receive => cases he

theorem Stepped.clocks (hs : Stepped w n e m) :
    n.clock ≤ m.clock ∧ m.clock - m.steady = n.clock - n.steady := by
  cases hs with
  | tick elapsed =>
    exact ⟨le_add_of_nonneg_right (Int.natCast_nonneg elapsed), add_sub_add_right_eq_sub _ _ _⟩
  | top =>
    rw [beginPass]
    split <;> exact ⟨le_rfl, rfl⟩
  | round => split <;> exact ⟨le_rfl, rfl⟩
  | receive =>
    rw [takeIn]
    split <;> exact ⟨le_rfl, rfl⟩
  | directory | localWrite | localDelete | ltOpen | ltVerify | ltWrite | ltState | post | test | pop
  | processed | process | clear | send | idle | list | nothing | repair => exact ⟨le_rfl, rfl⟩

/-- The file of a path no torrent is at is nobody's to touch. -/
theorem Stepped.disk_unserved (hs : Stepped w n e m) (he : messageOf e = none)
    (hl : LeftAlone n e) (ht : Tidy w n.replica.session)
    (hp : ∀ t ∈ n.replica.session.torrents, w.heldPath t ≠ p) :
    m.replica.disk[p]? = n.replica.disk[p]? := by
  have hspot : ∀ {handle : ℕ} {t : Torrent}, n.replica.session.find handle = some t →
      w.spot t ≠ p := by
    intro handle t hf
    have hmem := (Session.mem_of_find hf).1
    rw [(ht.sits t hmem).2.2]
    exact hp t hmem
  cases hs with
  | tick | directory | ltVerify | ltState | post | test | pop | processed | clear | send | idle | list
  | nothing | repair => rfl
  | localWrite | localDelete => cases hl.unwritten
  | ltOpen found | ltWrite found => rw [getElem?_touch, if_neg (hspot found)]
  | top =>
    rw [beginPass]
    split <;> rfl
  | round => split <;> rfl
  | @process alert rest =>
    have hq := SyncFs.processed w n alert
    change (processAlert w n alert).disk[p]? = _
    generalize processAlert w n alert = r at hq
    cases hq with
    | skipped | finished => rfl
    | @flushed t r _ found stamps =>
      have hmem := (Session.mem_of_find found).1
      refine stamps.disk_other ?_
      rw [Tree.locate_key (ht.sits t hmem).1]
      exact fun he => hp t hmem (Option.some.inj he)
  | receive => cases he

theorem Stepped.mtime_touched (hs : Stepped w n e m) (ht : ltTouches w n e p = true) {file : File}
    (hf : m.replica.disk[p]? = some file) : file.mtime = n.fileClock ∧ m.clock = n.clock := by
  cases hs with
  | @ltOpen handle t found =>
    rw [ltTouches, found] at ht
    obtain ⟨rfl, hne⟩ := of_decide_eq_true ht
    rw [getElem?_touch, if_pos rfl] at hf
    obtain rfl := Option.some.inj hf
    refine ⟨?_, rfl⟩
    unfold openedFile at hne ⊢
    cases hold : n.replica.disk[w.spot t]? with
    | none => rfl
    | some old =>
      rw [hold] at hne
      dsimp only at hne ⊢
      split at hne
      · next hlt => rw [if_pos hlt]
      · exact absurd rfl hne
  | @ltWrite handle offset length t file' found =>
    rw [ltTouches, found] at ht
    obtain rfl := of_decide_eq_true ht
    rw [getElem?_touch, if_pos rfl] at hf
    obtain rfl := Option.some.inj hf
    exact ⟨rfl, rfl⟩
  | tick | directory | localWrite | localDelete | ltVerify | ltState | post | top | test | pop | processed
  | process | clear | send | repair | idle | list | round | nothing | receive => cases ht

theorem StampsAs.spent {r r' : Replica} {writtenBy : FileTime}
    (hs : StampsAs w r p writtenBy r') (hp : p.IsKey) {file : File}
    (hf : r'.disk[p]? = some file) : r'.inbound.origins[p]? = none := by
  cases hs with
  | absent absent =>
    have hgone := Tree.find_of_lastWriteTime absent
    rw [Tree.find_key hp, hf] at hgone
    cases hgone
  | kept _ _ spent => exact spent
  | edited | stamped => exact PathMap.getElem?_erase.trans (if_pos rfl)

theorem mem_waitingAlerts_top {r : Replica} {alert : Alert}
    (ha : alert ∈ waitingAlerts { n with pc := .top, replica := r }) :
    alert ∈ waitingAlerts n := by
  rw [waitingAlerts, List.append_nil] at ha
  exact List.mem_append_left _ ha

theorem LeftAlone.undisturbed (hl : LeftAlone n e) (he : messageOf e = none) (p : Path) :
    Undisturbed w p n e where
  honest v hv := by
    rw [appliedBy_eq_none (messageOf_eq_none.mp he)] at hv
    cases hv
  unwritten := writesLocally_eq_false hl.unwritten p
  untampered := by
    cases e with
    | localWrite | localDelete => cases hl.unwritten
    | receive message =>
      cases message with
      | none => rfl
      | some v => cases he
    | tick | directory | ltOpen | ltVerify | ltWrite | ltState | post | advance | woken | round => rfl
  missing := hl.missing

theorem LeftAlone.found (hl : LeftAlone n e) (p : Path) : Finds p n e :=
  fun current hc ho hp => (hl.finds current hc).1 p hp ho

theorem Stepped.waiting (hs : Stepped w n e m) (hm : m.pc ≠ .stopped) (he : messageOf e = none)
    (hp : p ∈ m.replica.inbound.origins) : p ∈ n.replica.inbound.origins := by
  obtain ⟨o, ho⟩ := PathMap.mem_iff.mp hp
  refine PathMap.mem_iff.mpr ⟨o, ?_⟩
  by_cases hstamp : ∃ call ∈ SyncFs.stampCall w n e, call.2.1 = p
  · obtain ⟨call, hcall, -⟩ := hstamp
    obtain ⟨-, r, hst, -, -, hinbound⟩ := hs.stampCall hm hcall
    rcases stampCall_cases hcall with ⟨_, _, _, -, -, -, -, rfl⟩ | ⟨_, _, -, rfl, -⟩
    · exact hst.origins (hinbound ▸ ho)
    · cases he
  · rw [← ho]
    refine (hs.origins_kept hm (fun call hcall hat => hstamp ⟨call, hcall, hat⟩) ?_).symm
    rw [appliedBy_eq_none (messageOf_eq_none.mp he)]
    exact fun v hv => absurd hv (Option.not_mem_none v)

/-- A node that has been told of a tree. Where no torrent is there is what was told,
what is served is what was told, and no deletion is remembered that would be in
the way. Nothing fetched has a later time than the clock, and what was flushed
none that is later than the flush. -/
structure KeepsUp (w : World) (named : ℕ → Path × Bytes) (tree : Path → Option File)
    (since : Path → TimePoint) (h : History Node Event) (n : Node) : Prop where
  running : n.pc ≠ .stopped
  tracked : ∀ p, Tracked w h n p
  remembers : OneMemory w named n.replica
  keys : ∀ p file, tree p = some file → p.IsKey
  serves : ∀ t ∈ n.replica.session.torrents, ∀ v ∈ lastApplied w h (w.heldPath t),
    tree (w.heldPath t) = some ⟨t.info.content, originOf v⟩
  unserved : ∀ p : Path, (∀ t ∈ n.replica.session.torrents, w.heldPath t ≠ p) →
    n.replica.disk[p]? = tree p
  graves : ∀ (p : Path) m, n.replica.tombstones[p]? = some m → m ≤ since p
  known : ∀ p ∈ n.replica.former, tree p = none → p ∈ n.replica.tombstones
  listing : ∀ diff current, n.pc = .sending diff current → ∀ p ∈ current, tree p ≠ none
  past : ∀ p file, tree p = some file → file.mtime.toTicks ≤ n.clock
  awaited : ∀ p ∈ n.replica.inbound.origins, ∃ file, tree p = some file
  fetching : ∀ p ∈ n.replica.inbound.origins, ∀ file, n.replica.disk[p]? = some file →
    file.mtime.toTicks ≤ n.clock
  flushing : ∀ alert ∈ waitingAlerts n, alert.kind = .cacheFlushed →
    ∀ t ∈ n.replica.session.torrents, t.handle = alert.handle →
      w.heldPath t ∈ n.replica.inbound.origins → ∀ file,
        n.replica.disk[w.heldPath t]? = some file →
          file.mtime.toTicks ≤ (alertTime n alert).toTicks

namespace KeepsUp

variable {named : ℕ → Path × Bytes} {tree : Path → Option File} {since : Path → TimePoint}

theorem serving (hk : KeepsUp w named tree since h n) : Serving w h n :=
  (hk.tracked Path.here).serving

theorem told_of_served (hk : KeepsUp w named tree since h n) {t : Torrent}
    (ht : t ∈ n.replica.session.torrents) : ∃ file, tree (w.heldPath t) = some file := by
  obtain ⟨v, hv, -⟩ := (hk.tracked (w.heldPath t)).lands t ht rfl
  exact ⟨_, hk.serves t ht v hv⟩

theorem disk (hk : KeepsUp w named tree since h n) (hp : p ∉ n.replica.inbound.origins) :
    n.replica.disk[p]? = tree p := by
  by_cases hserved : ∃ t ∈ n.replica.session.torrents, w.heldPath t = p
  · obtain ⟨t, ht, rfl⟩ := hserved
    have hT := hk.tracked (w.heldPath t)
    obtain ⟨v, hv, ⟨hwait, -⟩ | ⟨hwhole, hland⟩⟩ := hT.lands t ht rfl
    · exact absurd (PathMap.mem_iff.mpr ⟨_, hwait⟩) hp
    · have hcontent := hT.serving.content ht hwhole hT.clean
      obtain ⟨file, hf, hc⟩ := Option.map_eq_some_iff.mp hcontent
      rw [hf, hk.serves t ht v hv, ← hc, ← hland.file file hf]
  · exact hk.unserved p fun t ht hat => hserved ⟨t, ht, hat⟩

theorem told_of_mem (hk : KeepsUp w named tree since h n) (hp : p ∈ n.replica.disk) :
    ∃ file, tree p = some file := by
  by_cases hwait : p ∈ n.replica.inbound.origins
  · exact hk.awaited p hwait
  · rw [← hk.disk hwait]
    exact PathMap.mem_iff.mp hp

/-- A flush is stamped in time, and finds its torrent whole. -/
theorem spendsWhole (hk : KeepsUp w named tree since h n) (he : messageOf e = none) (p : Path) :
    SpendsWhole w p n e := by
  intro call hcall hp hwait time htime
  rcases stampCall_cases hcall with ⟨alert, rest, t, hpc, rfl, hflush, hf, rfl⟩ |
    ⟨v, torrent, -, rfl, -⟩
  · subst hp
    obtain ⟨ht, hh⟩ := Session.mem_of_find hf
    have htidy := hk.serving.tidy
    have hkey := (htidy.sits t ht).1
    have ha : alert ∈ waitingAlerts n := by simp [waitingAlerts, hpc]
    have hwhole := (hk.serving.flushes alert ha hflush).2 t ht hh
    obtain ⟨file, hfile, -⟩ := (hk.tracked (w.heldPath t)).present ht rfl hwhole
    rw [Option.mem_def, Tree.lastWriteTime_of_find ((Tree.find_key hkey).trans hfile)] at htime
    obtain rfl := Option.some.inj htime
    constructor
    · rw [FileTime.lt_iff_toTicks, not_lt]
      exact hk.flushing alert ha hflush t ht hh
        (Std.ExtTreeMap.mem_iff_isSome_getElem?.mpr hwait) file hfile
    · intro u hu
      have hmem := (Session.mem_torrentsAt.mp hu).1
      have hheld := (Tidy.mem_torrentsAt (htidy.sits u hmem) hmem hkey).mp hu
      rw [htidy.single u hmem t ht hheld]
      exact hwhole
  · cases he

/-- A file on its way is not stamped by the step, which finds it as it leaves it
unless libtorrent had a hand in it. -/
theorem found (hk : KeepsUp w named tree since h n) (hl : LeftAlone n e) (hs : Stepped w n e m)
    (hm : m.pc ≠ .stopped) (hh : HonestCreate w n e) (hp : p ∈ m.replica.inbound.origins)
    (ht : ltTouches w n e p = false) {file : File} (hf : m.replica.disk[p]? = some file) :
    n.replica.disk[p]? = some file := by
  refine hs.file_kept hm (writesLocally_eq_false hl.unwritten p) ht (fun call hcall hlocate => ?_) hf
  have hkey := hk.serving.tidy.isKey_of_stampCall hh hcall
  rw [Tree.locate_key hkey] at hlocate
  obtain ⟨-, r, hst, hdisk, -, hinbound⟩ := hs.stampCall hm hcall
  rw [Option.some.inj hlocate] at hst hkey
  rw [hdisk] at hf
  have hspent := hst.spent hkey hf
  rw [hinbound, Std.ExtTreeMap.mem_iff_isSome_getElem?, hspent] at hp
  cases hp

/-- A deletion is told of only where there was something to tell of. -/
theorem mem_tombstones_changesAt (hk : KeepsUp w named tree since h n) {current : FileMap}
    (hl : ∀ p ∈ n.replica.disk.list, p ∉ n.replica.inbound.origins → p ∈ current)
    (ho : ∀ p ∈ n.replica.inbound.origins, p ∈ n.replica.former → p ∈ current)
    {m : TimePoint} (hm : (changesAt n current).2[p]? = some m) :
    n.replica.tombstones[p]? = some m := by
  rw [changesAt, getElem?_localChanges_tombstones] at hm
  split at hm
  · next hr =>
    obtain ⟨hf, hgone, hdead⟩ := mem_removed.mp hr
    refine absurd (hk.known p hf ?_) hdead
    by_contra hne
    obtain ⟨file, htree⟩ := Option.ne_none_iff_exists'.mp hne
    by_cases hwait : p ∈ n.replica.inbound.origins
    · exact hgone (ho p hwait hf)
    · refine hgone (hl p (Disk.mem_list.mpr ⟨hk.keys p file htree, ?_⟩) hwait)
      exact PathMap.mem_iff.mpr ⟨file, (hk.disk hwait).trans htree⟩
  · split at hm
    · cases hm
    · exact hm

/-- What is remembered of deletions after a step that is no message. -/
theorem deletions (hk : KeepsUp w named tree since h n) (hl : LeftAlone n e) (hs : Stepped w n e m)
    (he : messageOf e = none) :
    (∀ (p : Path) moment, m.replica.tombstones[p]? = some moment → moment ≤ since p) ∧
      ∀ p ∈ m.replica.former, tree p = none → p ∈ m.replica.tombstones := by
  cases hs with
  | tick | directory | localWrite | localDelete | ltOpen | ltVerify | ltWrite | ltState | post | test | pop
  | processed | clear | idle | nothing | repair => exact ⟨hk.graves, hk.known⟩
  | top =>
    rw [beginPass]
    split <;> exact ⟨hk.graves, hk.known⟩
  | round => split <;> exact ⟨hk.graves, hk.known⟩
  | @process alert rest =>
    have hq := SyncFs.processed w n alert
    change (∀ (p : Path) moment, (processAlert w n alert).tombstones[p]? = some moment → _) ∧
      ∀ p ∈ (processAlert w n alert).former, tree p = none → p ∈ (processAlert w n alert).tombstones
    generalize processAlert w n alert = r at hq
    cases hq with
    | skipped | finished => exact ⟨hk.graves, hk.known⟩
    | @flushed t r _ found stamps =>
      rw [stamps.tombstones]
      refine ⟨hk.graves, fun p hp hnone => hk.known p ?_ hnone⟩
      obtain ⟨file, htold⟩ := hk.told_of_served (Session.mem_of_find found).1
      have hne : w.heldPath t ≠ p := by
        rintro rfl
        rw [htold] at hnone
        cases hnone
      obtain ⟨time, htime⟩ := PathMap.mem_iff.mp hp
      exact PathMap.mem_iff.mpr ⟨time, (stamps.memory_other hne).1 ▸ htime⟩
  | @list missed hpc =>
    obtain ⟨hfinds, hbefore⟩ := hl.finds _ (listed_list hpc)
    refine ⟨fun p moment hm =>
      hk.graves p moment (hk.mem_tombstones_changesAt hfinds hbefore hm), fun p hp hnone => ?_⟩
    obtain ⟨moment, hm⟩ := PathMap.mem_iff.mp (hk.known p hp hnone)
    refine PathMap.mem_iff.mpr ⟨moment, ?_⟩
    change (localChanges n.replica.former (n.replica.disk.listBut missed) n.replica.inbound.written
      n.replica.tombstones n.clock).2[p]? = some moment
    have hgone : (n.replica.disk.listBut missed)[p]? = none := by
      rw [← PathMap.notMem_iff, Disk.mem_listBut, Disk.mem_list]
      rintro ⟨⟨-, hmem⟩, -⟩
      obtain ⟨file, hf⟩ := hk.told_of_mem hmem
      rw [hnone] at hf
      cases hf
    rw [getElem?_localChanges_tombstones, if_neg, if_neg, hm]
    · rw [mem_createsSent_fst]
      rintro ⟨t, ht, -⟩
      rw [hgone] at ht
      cases ht
    · exact fun hr => (mem_removed.mp hr).2.2 (PathMap.mem_iff.mpr ⟨moment, hm⟩)
  | send hpc =>
    refine ⟨fun p moment hm => ?_, fun p hp hnone => absurd hnone (hk.listing _ _ hpc p hp)⟩
    have hm : (expire n.replica.tombstones n.clock)[p]? = some moment := hm
    rw [expire, PathMap.getElem?_filter, Option.filter_eq_some_iff] at hm
    exact hk.graves p moment hm.1
  | receive => cases he

theorem quiet (hn : HashesName w) (hk : KeepsUp w named tree since h n) (hl : LeftAlone n e)
    (hs : Stepped w n e m) (he : messageOf e = none) :
    KeepsUp w named tree since ((n, e) :: h) m := by
  have hm := hs.running he hk.running
  have hnone := appliedBy_eq_none (w := w) (n := n) (messageOf_eq_none.mp he)
  have hlast := lastApplied_of_none (h := h) hnone
  have hu : ∀ p, Undisturbed w p n e := fun p => hl.undisturbed he p
  have hT : ∀ p, Tracked w ((n, e) :: h) m p :=
    fun p => (hk.tracked p).step hn (hu p) (hk.spendsWhole he p) (hl.found p) hs hm
  have hsame := hs.sameTorrents he
  have htidy := hk.serving.tidy
  have hhonest : HonestCreate w n e := (hu Path.here).honest
  obtain ⟨hclock, hclocks⟩ := hs.clocks
  have horigins : ∀ p ∈ m.replica.inbound.origins, p ∈ n.replica.inbound.origins :=
    fun p hp => hs.waiting hm he hp
  obtain ⟨hgraves, hknown⟩ := hk.deletions hl hs he
  refine ⟨hm, hT, hk.remembers.step (fun v hv => ?_) hs hm, hk.keys, fun t ht v hv => ?_,
    fun p hp => ?_, hgraves, hknown, fun diff current hpc p hp => ?_,
    fun p file hf => (hk.past p file hf).trans hclock, fun p hp => hk.awaited p (horigins p hp),
    fun p hp file hf => ?_, fun alert ha hflush t ht hh hp file hf => ?_⟩
  · rw [he] at hv
    cases hv
  · obtain ⟨u, hu, -, hi, hheld⟩ := hsame.earlier t ht
    rw [hlast, ← hheld] at hv
    rw [← hheld, ← hi]
    exact hk.serves u hu v hv
  · rw [hs.disk_unserved he hl htidy fun u hu hat => ?_]
    · refine hk.unserved p fun u hu hat => ?_
      obtain ⟨t, ht, hheld⟩ := hsame.later u hu
      exact hp t ht (hheld.trans hat)
    · obtain ⟨t, ht, hheld⟩ := hsame.later u hu
      exact hp t ht (hheld.trans hat)
  · rcases hs.sending hpc with hpc | hlist
    · exact hk.listing diff current hpc p hp
    · obtain ⟨missed, -, -, rfl⟩ := listed_eq_some hlist
      have hthere := (Disk.mem_list.mp (Disk.mem_listBut.mp hp).1).2
      exact Option.ne_none_iff_exists'.mpr (hk.told_of_mem hthere)
  · cases ht : ltTouches w n e p with
    | true =>
      obtain ⟨htime, hsameClock⟩ := hs.mtime_touched ht hf
      rw [htime, hsameClock, Node.fileClock, toTicks_toFileTime]
    | false =>
      exact (hk.fetching p (horigins p hp) file (hk.found hl hs hm hhonest hp ht hf)).trans
        hclock
  · obtain ⟨u, hmem, hhandle, hi, hheld⟩ := hsame.earlier t ht
    rw [← hheld] at hp hf
    have htime : (alertTime m alert).toTicks = (alertTime n alert).toTicks := by
      rw [alertTime, alertTime, toTicks_toFileTime, toTicks_toFileTime]
      linarith only [hclocks]
    rw [htime]
    rcases hs.alerted ha with ha | ⟨⟨rfl, hstamp⟩, -⟩
    · have hwhole := (hk.serving.flushes alert ha hflush).2 u hmem (hhandle.trans hh)
      have htouch := (hk.tracked (w.heldPath u)).not_ltTouches hmem rfl hwhole hl.missing
      exact hk.flushing alert ha hflush u hmem (hhandle.trans hh) (horigins _ hp) file
        (hk.found hl hs hm hhonest hp htouch hf)
    · rw [alertTime, toTicks_toFileTime, hstamp, sub_self, sub_zero]
      exact hk.fetching _ (horigins _ hp) file (hk.found hl hs hm hhonest hp rfl hf)

theorem deletedPaths_remove (hp : p.IsKey) (now : TimePoint) :
    deletedPaths (Source.remove p now) = [p] := by
  have hr : removedPath (Source.remove p now) = some p := removedPath_source hp
  rw [deletedPaths, hr, (removedPath_eq_some hr).2, if_neg (by decide)]
  rfl

theorem stampCall_of_quiet {v : List Bytes} (hpc : n.pc = .receive)
    (hquiet : applies w v n.replica = false) : stampCall w n (.receive (some v)) = none := by
  unfold stampCall
  rw [hpc]
  exact if_neg (Bool.eq_false_iff.mp hquiet)

theorem undisturbed_of_message {v : List Bytes} {p : Path}
    (hh : HonestCreate w n (.receive (some v))) (hdel : ∀ q ∈ deletedPaths v, q.IsKey) :
    Undisturbed w p n (.receive (some v)) where
  honest := hh
  unwritten := rfl
  untampered := by
    rw [tampers, List.any_eq_false]
    intro q hq htam
    obtain ⟨hne, hat⟩ := of_decide_eq_true htam
    exact hne ((Tree.destination_key (hdel q hq)).symm.trans hat)
  missing := trivial

/-- A message that deletes under the file's own spelling and stamps nothing before
its time leaves every path tracked. -/
theorem tracked_takeIn (hn : HashesName w) (hk : KeepsUp w named tree since h n)
    (hpc : n.pc = .receive) {v : List Bytes} (hh : HonestCreate w n (.receive (some v)))
    (hdel : ∀ q ∈ deletedPaths v, q.IsKey)
    (hsp : ∀ q, SpendsWhole w q n (.receive (some v))) (hm : (takeIn w n v).pc ≠ .stopped)
    (q : Path) : Tracked w ((n, .receive (some v)) :: h) (takeIn w n v) q :=
  (hk.tracked q).step hn (undisturbed_of_message hh hdel) (hsp q) (fun _ hc => by simp [listed, hpc] at hc)
    (.receive hpc) hm

/-- The file a create finds where nothing is on its way is whole, and older. -/
theorem spendsWhole_create (hk : KeepsUp w named tree since h n) (hpc : n.pc = .receive)
    (ho : p ∉ n.replica.inbound.origins) {v : List Bytes} (hpath : announcedPath v = p)
    (hp : p.IsKey) (hclear : p ∉ n.replica.directories)
    (hold : ∀ old, tree p = some old → old.mtime.toTicks < (originOf v).toTicks) (q : Path) :
    SpendsWhole w q n (.receive (some v)) := by
  intro call hcall hat _ time ht
  rcases stampCall_cases hcall with ⟨_, _, _, hpc', -⟩ | ⟨u, torrent, -, hu, -, -, -, rfl⟩
  · rw [hpc] at hpc'
    cases hpc'
  · obtain rfl := Option.some.inj (Event.receive.inj hu)
    obtain rfl := hpath.symm.trans hat
    have ht : n.replica.lastWriteTime w p = some time := hat ▸ ht
    rw [Tree.lastWriteTime_clear hp hclear, hk.disk ho] at ht
    obtain ⟨old, hf, rfl⟩ := Option.map_eq_some_iff.mp ht
    refine ⟨?_, fun t ht => ?_⟩
    · rw [FileTime.lt_iff_toTicks, not_lt]
      exact (hold old hf).le
    · have htor := (Session.mem_torrentsAt.mp ht).1
      have hheld := (Tidy.mem_torrentsAt (hk.serving.tidy.sits t htor) htor hp).mp ht
      obtain ⟨u, -, ⟨hwaits, -⟩ | ⟨hwhole, -⟩⟩ := (hk.tracked p).lands t htor hheld
      · exact absurd (PathMap.mem_iff.mpr ⟨_, hwaits⟩) ho
      · exact hwhole

/-- A file told to be gone goes, with its torrent and what is remembered of it. -/
theorem remove (hn : HashesName w) (hk : KeepsUp w named tree since h n) (hpc : n.pc = .receive)
    (ho : p ∉ n.replica.inbound.origins) {now : TimePoint} (hp : p.IsKey) {file : File}
    (hf : tree p = some file) (hle : since p ≤ now) (hnow : InInt64 now) :
    KeepsUp w named (Function.update tree p none) (Function.update since p now)
      ((n, .receive (some (Source.remove p now))) :: h) (takeIn w n (Source.remove p now)) := by
  have hquiet : applies w (Source.remove p now) n.replica = false :=
    applies_of_removedPath (removedPath_source hp)
  have hnone : appliedBy w n (.receive (some (Source.remove p now))) = none := by
    rw [appliedBy_receive hpc, hquiet, if_neg Bool.false_ne_true]
  have hrec := receiveOne_gone (w := w) hp hnow ((hk.disk ho).trans hf) n.clock n.steady
  have he : takeIn w n (Source.remove p now) = { n with
      pc := .top
      replica := ({ n.replica with
        session := n.replica.session.withdraw w p
        disk := n.replica.disk.erase p } : Replica).removed p now } := by
    rw [takeIn, hrec]
  have hlive : (takeIn w n (Source.remove p now)).pc ≠ .stopped := by
    rw [he]
    simp
  have hhonest : HonestCreate w n (.receive (some (Source.remove p now))) := by
    intro v hv
    rw [hnone] at hv
    cases hv
  have hdeleted : ∀ q ∈ deletedPaths (Source.remove p now), q.IsKey := by
    rw [deletedPaths_remove hp]
    exact List.forall_mem_singleton.mpr hp
  have hunstamped : ∀ q, SpendsWhole w q n (.receive (some (Source.remove p now))) := by
    intro q call hcall
    rw [stampCall_of_quiet hpc hquiet] at hcall
    cases hcall
  have hT := hk.tracked_takeIn hn hpc hhonest hdeleted hunstamped hlive
  rw [he] at hT hlive ⊢
  have hat : ∀ t ∈ n.replica.session.torrents,
      (t ∈ n.replica.session.torrentsAt w p ↔ w.heldPath t = p) :=
    fun t ht => Tidy.mem_torrentsAt (hk.serving.tidy.sits t ht) ht hp
  have hleft : ∀ (q : Path) old, (n.replica.disk.erase p)[q]? = some old →
      n.replica.disk[q]? = some old := by
    intro q old hq
    rw [PathMap.getElem?_erase] at hq
    split at hq
    · cases hq
    · exact hq
  refine ⟨hlive, hT, hk.remembers.withdrawn hp rfl rfl, fun q old hq => ?_, fun t ht v hv => ?_,
    fun q hq => ?_, mark_le hk.graves hle, fun q hq hgone => ?_, by simp, fun q old hq => ?_,
    fun q hq => ?_, fun q hq old hold => hk.fetching q hq old (hleft q old hold),
    fun alert hwait hflush t ht hh hq old hold => ?_⟩
  · rw [Function.update_apply] at hq
    split at hq
    · cases hq
    · exact hk.keys q old hq
  · obtain ⟨hmem, hgone⟩ := Session.mem_withdraw.mp ht
    have hne : w.heldPath t ≠ p := fun hpath => hgone t ((hat t hmem).mpr hpath) rfl
    rw [lastApplied_of_none hnone] at hv
    rw [Function.update_of_ne hne]
    exact hk.serves t hmem v hv
  · change (n.replica.disk.erase p)[q]? = _
    rw [PathMap.getElem?_erase, Function.update_apply]
    by_cases hqp : p = q
    · rw [if_pos hqp, if_pos hqp.symm]
    · rw [if_neg hqp, if_neg (Ne.symm hqp)]
      refine hk.unserved q fun t ht hpath => hq t (Session.mem_withdraw.mpr ⟨ht, ?_⟩) hpath
      intro u hu hhandle
      obtain ⟨hmem, -⟩ := Session.mem_torrentsAt.mp hu
      obtain rfl := hk.remembers.numbered.apart t ht u hmem hhandle
      exact hqp (((hat t ht).mp hu).symm.trans hpath)
  · rw [Function.update_apply] at hgone
    change q ∈ mark n.replica.tombstones p now
    rw [PathMap.mem_iff, getElem?_mark]
    split
    · exact ⟨_, rfl⟩
    · next hqp =>
      rw [if_neg (Ne.symm hqp)] at hgone
      exact PathMap.mem_iff.mp (hk.known q hq hgone)
  · rw [Function.update_apply] at hq
    split at hq
    · cases hq
    · exact hk.past q old hq
  · have hq : q ∈ n.replica.inbound.origins := hq
    have hne : q ≠ p := by
      rintro rfl
      exact ho hq
    rw [Function.update_of_ne hne]
    exact hk.awaited q hq
  · have hwait := mem_waitingAlerts_top hwait
    exact hk.flushing alert hwait hflush t (Session.mem_withdraw.mp ht).1 hh hq old (hleft _ old hold)

theorem applied_tombstones (w : World) (r : Replica) (v : List Bytes) (torrent : TorrentInfo) :
    (r.applied w v torrent).tombstones = r.tombstones.erase (announcedPath v) := by
  obtain ⟨left, he, ⟨-, hst⟩ | ⟨-, rfl⟩⟩ := applied_cases w r v torrent
  · rw [he]
    exact hst.tombstones
  · rw [he]
    rfl

theorem applied_elsewhere {v : List Bytes} {torrent : TorrentInfo}
    (ha : Announces w named p v torrent) (r : Replica) {q : Path} (hne : p ≠ q) :
    (r.applied w v torrent).disk[q]? = r.disk[q]? ∧
      (r.applied w v torrent).former[q]? = r.former[q]? ∧
      (r.applied w v torrent).inbound.origins[q]? = r.inbound.origins[q]? := by
  obtain rfl := ha.path
  have hwaiting : (r.serving w v torrent).inbound.origins[q]? = r.inbound.origins[q]? :=
    getElem?_origins_serving.trans (if_neg hne)
  obtain ⟨left, he, ⟨-, hst⟩ | ⟨-, rfl⟩⟩ := applied_cases w r v torrent
  · rw [he]
    exact ⟨hst.disk_other (by rwa [Tree.locate_key ha.lands.1, ne_eq, Option.some_inj]),
      (hst.memory_other hne).1, (hst.origins_other hne).trans hwaiting⟩
  · rw [he]
    exact ⟨rfl, rfl, hwaiting⟩

/-- Where the origin of a create just applied waits for a file that is there, its
torrent is new and the file has not been touched. -/
theorem of_waiting {v : List Bytes} {torrent : TorrentInfo} {r : Replica}
    (ha : Announces w named p v torrent)
    (hwait : p ∈ (r.applied w v torrent).inbound.origins) {file : File}
    (hf : (r.applied w v torrent).disk[p]? = some file) :
    heldAlready w r v torrent = false ∧ r.disk[p]? = some file := by
  obtain rfl := ha.path
  obtain ⟨left, he, hleft⟩ := applied_cases w r v torrent
  rw [he] at hwait hf
  rcases hleft with ⟨-, hst⟩ | ⟨hheld, rfl⟩
  · have hspent := hst.spent ha.lands.1 hf
    rw [PathMap.mem_iff] at hwait
    obtain ⟨o, hwait⟩ := hwait
    rw [hspent] at hwait
    cases hwait
  · exact ⟨hheld, hf⟩

/-- A file announced that is newer than the one here is to be fetched, or is here
already under another time. -/
theorem create (hn : HashesName w) (hk : KeepsUp w named tree since h n) (hpc : n.pc = .receive)
    (ho : p ∉ n.replica.inbound.origins) {v : List Bytes} {torrent : TorrentInfo} {file : File}
    (ha : Announces w named p v torrent) (htime : originOf v = file.mtime)
    (hcontent : torrent.content = file.content) (hclear : p ∉ n.replica.directories)
    (hnew : since p < file.mtime.toTicks)
    (hold : ∀ old, tree p = some old → old.mtime.toTicks < file.mtime.toTicks)
    (hpast : file.mtime.toTicks ≤ n.clock) :
    KeepsUp w named (Function.update tree p (some file)) since
      ((n, .receive (some v)) :: h) (takeIn w n v) := by
  have hdisk : n.replica.disk[p]? = tree p := hk.disk ho
  obtain ⟨-, happ, hrec⟩ := ha.taken hclear
    (fun m hm => htime ▸ (hk.graves p m hm).trans hnew.le)
    (fun old hf => htime ▸ hold old (hdisk.symm.trans hf))
  have he : takeIn w n v = { n with pc := .top, replica := n.replica.applied w v torrent } := by
    rw [takeIn, hrec]
  have hlive : (takeIn w n v).pc ≠ .stopped := by
    rw [he]
    simp
  have hv : appliedBy w n (.receive (some v)) = some v := appliedBy_eq_some.mpr ⟨hpc, rfl, happ⟩
  have hhonest : HonestCreate w n (.receive (some v)) := by
    intro u hu torrent' hload
    rw [hv] at hu
    obtain rfl := Option.some.inj hu
    obtain rfl := Option.some.inj (ha.loads.symm.trans hload)
    exact ha.path.symm ▸ ha.lands
  have hdeleted : deletedPaths v = [] := by
    rw [deletedPaths, removedPath_create ha.length, ha.verb, if_neg (by decide)]
    rfl
  have hT := hk.tracked_takeIn hn hpc hhonest
    (hdeleted ▸ fun q hq => absurd hq List.not_mem_nil)
    (hk.spendsWhole_create hpc ho ha.path ha.lands.1 hclear fun old hf => htime ▸ hold old hf) hlive
  obtain ⟨t₀, hserved, hpath, hsame, hmem, hkept, hfresh⟩ := ha.serves hk.remembers
  have hone := hk.remembers.applied ha.loads (ha.path.symm ▸ ha.lands) (ha.path.symm ▸ ha.names)
  rw [he] at hT hlive ⊢
  have hwaiting : ∀ q ∈ (n.replica.applied w v torrent).inbound.origins, q ≠ p →
      q ∈ n.replica.inbound.origins := by
    intro q hq hne
    rwa [PathMap.mem_iff, (applied_elsewhere ha n.replica (Ne.symm hne)).2.2,
      ← PathMap.mem_iff] at hq
  refine ⟨hlive, hT, hone, fun q f hq => ?_, fun t ht u hu => ?_,
    fun q hq => ?_, fun q m hm => ?_, fun q hq hgone => ?_, by simp, fun q f hq => ?_,
    fun q hq => ?_, fun q hq f hf => ?_, fun alert hwait hflush t ht hh hq f hf => ?_⟩
  · rw [Function.update_apply] at hq
    split at hq
    · next hqp => exact hqp ▸ ha.lands.1
    · exact hk.keys q f hq
  · rcases hmem t ht with rfl | ⟨hold, hne⟩
    · have hlast : lastApplied w ((n, .receive (some v)) :: h) p = some v := by
        rw [lastApplied, hv]
        exact if_pos ha.path
      rw [hpath, hlast] at hu
      obtain rfl := Option.some.inj hu
      rw [hpath, Function.update_self, hsame, hcontent, htime]
    · rw [lastApplied_other fun u' hu' => ?_] at hu
      · rw [Function.update_of_ne hne]
        exact hk.serves t hold u hu
      · rw [hv] at hu'
        obtain rfl := Option.some.inj hu'
        rw [ha.path]
        exact Ne.symm hne
  · have hne : q ≠ p := by
      rintro rfl
      exact hq t₀ hserved hpath
    rw [Function.update_of_ne hne, (applied_elsewhere ha n.replica (Ne.symm hne)).1]
    exact hk.unserved q fun t ht hat => hq t (hkept t ht (hat ▸ hne)) hat
  · rw [applied_tombstones, PathMap.getElem?_erase] at hm
    split at hm
    · cases hm
    · exact hk.graves q m hm
  · have hne : q ≠ p := by
      rintro rfl
      rw [Function.update_self] at hgone
      cases hgone
    rw [Function.update_of_ne hne] at hgone
    rw [applied_tombstones, ha.path, PathMap.mem_iff, PathMap.getElem?_erase, if_neg (Ne.symm hne),
      ← PathMap.mem_iff]
    refine hk.known q ?_ hgone
    rw [PathMap.mem_iff] at hq ⊢
    rwa [(applied_elsewhere ha n.replica (Ne.symm hne)).2.1] at hq
  · rw [Function.update_apply] at hq
    split at hq
    · obtain rfl := Option.some.inj hq
      exact hpast
    · exact hk.past q f hq
  · by_cases hqp : q = p
    · exact ⟨file, by rw [hqp, Function.update_self]⟩
    · rw [Function.update_of_ne hqp]
      exact hk.awaited q (hwaiting q hq hqp)
  · by_cases hqp : q = p
    · subst hqp
      exact hk.past q f (hdisk.symm.trans (of_waiting ha hq hf).2)
    · rw [(applied_elsewhere ha n.replica (Ne.symm hqp)).1] at hf
      exact hk.fetching q (hwaiting q hq hqp) f hf
  · have hwait := mem_waitingAlerts_top hwait
    rcases hmem t ht with rfl | ⟨hold, hne⟩
    · rw [hpath] at hq hf
      have hnew := hfresh (of_waiting ha hq hf).1
      exact absurd (hh.symm.trans hnew) (hk.serving.flushes alert hwait hflush).1.ne
    · rw [(applied_elsewhere ha n.replica (Ne.symm hne)).1] at hf
      exact hk.flushing alert hwait hflush t hold hh (hwaiting _ hq hne) f hf

theorem root (hn : HashesName w) (hk : KeepsUp w named tree since h n) (hpc : n.pc = .receive)
    {v : List Bytes} (hv : verbOf (part v 0) = ascii "state") :
    KeepsUp w named tree since ((n, .receive (some v)) :: h) (takeIn w n v) := by
  obtain ⟨hquiet, peers, hrec⟩ := received_root (w := w) hv n.clock n.steady n.replica
  have hnone : appliedBy w n (.receive (some v)) = none := by
    rw [appliedBy_receive hpc, hquiet, if_neg Bool.false_ne_true]
  have he : takeIn w n v = { n with pc := .top, replica := { n.replica with peers := peers } } := by
    rw [takeIn, hrec]
  have hlive : (takeIn w n v).pc ≠ .stopped := by
    rw [he]
    simp
  have hhonest : HonestCreate w n (.receive (some v)) := by
    intro u hu
    rw [hnone] at hu
    cases hu
  have hdeleted : deletedPaths v = [] := by
    rw [deletedPaths, removedPath_of_verb hv (by decide), hv, if_neg (by decide)]
    rfl
  have hunstamped : ∀ q, SpendsWhole w q n (.receive (some v)) := by
    intro q call hcall
    rw [stampCall_of_quiet hpc hquiet] at hcall
    cases hcall
  have hT := hk.tracked_takeIn hn hpc hhonest (hdeleted ▸ fun q hq => absurd hq List.not_mem_nil)
    hunstamped hlive
  rw [he] at hT hlive ⊢
  refine { hk with
    running := hlive
    tracked := hT
    remembers := hk.remembers.congr rfl rfl rfl
    serves := fun t ht u hu => hk.serves t ht u (lastApplied_of_none hnone ▸ hu)
    listing := by simp
    flushing := fun alert hwait => hk.flushing alert (mem_waitingAlerts_top hwait) }

/-- A message taken in tells what it is told to. -/
theorem tell (hn : HashesName w) (hk : KeepsUp w named tree since h n) {v : List Bytes}
    (hl : LeftAlone n (.receive (some v))) (hpc : n.pc = .receive)
    {next : Path → Option File} {later : Path → TimePoint}
    (ht : Tell w named tree since v next later) :
    KeepsUp w named next later ((n, .receive (some v)) :: h) (takeIn w n v) := by
  have htiding := ht.tiding
  have hapart := hl.apart v htiding
  rw [pathOf] at hapart
  cases ht with
  | @remove p file now key present le ticks =>
    rw [removedPath_source key, Option.getD_some] at hapart
    exact hk.remove hn hpc hapart key present le ticks
  | @create p file v torrent announces time content free newer older =>
    have hnone := removedPath_create announces.length
    rw [hnone, Option.getD_none, announces.path] at hapart
    have hclear := hl.clear v htiding hnone
    rw [announces.path] at hclear
    exact hk.create hn hpc hapart announces time content hclear.notMem newer older
      (time ▸ hl.past v htiding)

end KeepsUp

section Swarm

variable {ι : Type} {w : ι → World} {named : ℕ → Path × Bytes} {i j : ι}

theorem keepsUp_start (v : World) (named : ℕ → Path × Bytes) {disk : Disk} {clock clock' : TimePoint}
    (hdisk : ∀ (p : Path) file, disk[p]? = some file → p.IsKey ∧ file.mtime.toTicks ≤ clock)
    (hclock : clock ≤ clock') (steady : SteadyTime) (since : Path → TimePoint) :
    KeepsUp v named (fun p => disk[p]?) since [] (.start disk clock' steady) where
  running := by simp [Node.start]
  tracked p := ⟨serving_start disk clock' steady, rfl, fun _ hd => absurd hd Bool.false_ne_true,
    fun t ht => absurd ht List.not_mem_nil⟩
  remembers := oneMemory_start _ _ _
  keys p file hf := (hdisk p file hf).1
  serves t ht := absurd ht List.not_mem_nil
  unserved _ _ := rfl
  graves := (mirrors_start v named disk clock' steady since).graves
  known p hp hnone := by
    obtain ⟨file, hf⟩ := PathMap.mem_iff.mp (Disk.mem_list.mp hp).2
    have hnone : disk[p]? = none := hnone
    rw [hnone] at hf
    cases hf
  listing := by simp [Node.start]
  past p file hf := (hdisk p file hf).2.trans hclock
  awaited p hp := absurd hp Std.ExtTreeMap.not_mem_empty
  fetching p hp := absurd hp Std.ExtTreeMap.not_mem_empty
  flushing _ hwait := absurd hwait List.not_mem_nil

/-- What a loop has taken in so far it has been told. -/
theorem KeepsUp.run {v : World} {start : Node} {tree last : Path → Option File}
    {since latest : Path → TimePoint} {vs : List (List Bytes)} (hn : HashesName v)
    (hi : KeepsUp v named tree since [] start) (hr : Run (step v) start h n)
    (ha : Always (fun _ n e => LeftAlone n e) h) (ht : Told v named tree since vs last latest)
    (hf : takenIn h <+: vs) :
    ∃ next later rest, takenIn h ++ rest = vs ∧ Told v named tree since (takenIn h) next later ∧
      Told v named next later rest last latest ∧ KeepsUp v named next later h n := by
  induction hr with
  | refl => exact ⟨tree, since, vs, rfl, .nil, ht, hi⟩
  | @snoc h n e m _ hs ih =>
    obtain ⟨hl, ha⟩ := ha
    obtain ⟨next, later, rest, hrest, hsaid, hleft, hk⟩ := ih ha (List.prefix_append _ _ |>.trans hf)
    have hst := stepped v hs
    cases htiding : tidingOf e with
    | none =>
      have hsame : takenIn ((n, e) :: h) = takenIn h := by
        rw [takenIn, htiding]
        exact List.append_nil _
      rw [hsame]
      refine ⟨next, later, rest, hrest, hsaid, hleft, ?_⟩
      cases hmessage : messageOf e with
      | none => exact hk.quiet hn hl hst hmessage
      | some root =>
        obtain rfl := messageOf_eq_some.mp hmessage
        cases hst with
        | receive hpc => exact hk.root hn hpc (verbOf_root htiding)
    | some message =>
      have hmore : takenIn ((n, e) :: h) = takenIn h ++ [message] := by
        rw [takenIn, htiding]
        rfl
      obtain ⟨us, hus⟩ := hf
      rw [hmore, List.append_assoc, ← hrest] at hus
      obtain rfl := (List.append_cancel_left hus).symm
      obtain rfl := messageOf_eq_some.mp (Option.eq_some_of_filter_eq_some htiding)
      cases hleft with
      | @cons _ mid _ _ moment _ _ _ tell hleft =>
        cases hst with
        | receive hpc =>
          refine ⟨mid, moment, us, ?_, hmore ▸ hsaid.append (.cons tell .nil), hleft,
            hk.tell hn hl hpc tell⟩
          rw [hmore, ← hrest, List.append_assoc]

instance (n : Node) (e : Event) : Decidable (LeftAlone n e) :=
  decidable_of_iff (writesHere e = false ∧ WritesMissing n e ∧
      (∀ v ∈ tidingOf e, pathOf v ∉ n.replica.inbound.origins ∧
        (originOf v).toTicks ≤ n.clock ∧
        (removedPath v = none → ClearOf n.replica.directories (announcedPath v))) ∧
      ∀ current ∈ listed n e,
        (∀ p ∈ n.replica.disk.list.keys, p ∉ n.replica.inbound.origins → p ∈ current) ∧
          ∀ p ∈ n.replica.inbound.origins.keys, p ∈ n.replica.former → p ∈ current)
    ⟨fun ⟨hu, hm, hv, hl⟩ => ⟨hu, hm, fun v he => (hv v he).1, fun v he => (hv v he).2.1,
        fun v he => (hv v he).2.2, fun current hc =>
          ⟨fun p hp => (hl current hc).1 p (Std.ExtTreeMap.mem_keys.mpr hp),
            fun p hp => (hl current hc).2 p (Std.ExtTreeMap.mem_keys.mpr hp)⟩⟩,
      fun h => ⟨h.unwritten, h.missing, fun v he => ⟨h.apart v he, h.past v he, h.clear v he⟩,
        fun current hc => ⟨fun p hp => (h.finds current hc).1 p (Std.ExtTreeMap.mem_keys.mp hp),
          fun p hp => (h.finds current hc).2 p (Std.ExtTreeMap.mem_keys.mp hp)⟩⟩⟩

/-- What has been said, taken in one pass after the other with a root in between,
and then both files fetched at once, with a listing while they are. -/
def heardInPasses (said : List (List Bytes)) : List Event :=
  said.flatMap (fun v => pass false (some v)) ++
    pass false (some (Source.state (samplePair true) (ascii "root"))) ++
    [.directory (Path.ofNative (ascii "./c")) (some (toFileTime 4000)), .ltOpen 0, .ltOpen 1,
      .ltWrite 1 0 2, .ltWrite 0 0 1] ++ pass true none ++
    [.post .torrentFinished 0, .post .torrentFinished 1] ++ drainPass 2 false none ++
    [.post .cacheFlushed 1, .post .cacheFlushed 0] ++ drainPass 2 true none

def toldChanges : Node := publishes (samplePair false) (.start sampleTree 1000 0) sampleChanges

end Swarm

end SyncFs
