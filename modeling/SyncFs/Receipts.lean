import SyncFs.PinnedForm
import SyncFs.Protocol

/-!
# Receiving

One inbound message, from the wire to whatever it asks of this node, and the
stamp that puts a file back on the time it was written at its origin.
-/

namespace SyncFs

open CharConversions

section

variable (w : World)

/-- Puts a waiting origin time on a file and remembers what the file looks
like then, unless it was written after the moment libtorrent was done. -/
def stampAndRemember (r : Replica) (path : Path) (writtenBy : FileTime) : Replica :=
  match r.lastWriteTime w path with
  | none => r
  | some beforeStamp =>
    if writtenBy < beforeStamp then
      { r with inbound := { r.inbound with origins := r.inbound.origins.erase path } }
    else
      let r :=
        match r.inbound.origins[path]? with
        | none => r
        | some origin =>
          { r with
            toTree := r.stamp w path origin
            inbound := { r.inbound with origins := r.inbound.origins.erase path } }
      match r.lastWriteTime w path with
      | none => r
      | some time =>
        { r with
          inbound := { r.inbound with written := r.inbound.written.insert path time }
          former := r.former.insert path time }

/-- The deletions a digest carries first, then the gaps it leaves. -/
def readDigest (v : List Bytes) (clock : TimePoint) (steady : SteadyTime) (r : Replica) :
    Except Replica Replica :=
  let held := decodeHeld (part v 1)
  let deleted := decodeTombstones (part v 2)
  match adopt w deleted clock r with
  | .error r => .error r
  | .ok (r, _) =>
    let missing := gaps r.former r.tombstones held
    .ok (if missing.isEmpty then r
      else { r with repairs := { r.repairs with pending := arm r.repairs.pending missing steady } })

/-- The two verbs the reconciliation reads for itself. -/
def reconcileMessage (verb : Bytes) (v : List Bytes) (clock : TimePoint) (steady : SteadyTime)
    (r : Replica) : Except Replica Replica :=
  if verb = ascii "state" then
    let sender := part v 2
    .ok (if sender = w.endpoint then r
      else { r with peers := r.peers.insert sender ⟨part v 1, steady⟩ })
  else if verb = ascii "digest" then readDigest w v clock steady r
  else .ok r

def Repairs.follow (repairs : Repairs) (created : Path) (announcement : Bytes)
    (applied : Applied) : Repairs where
  announcements := repairs.announcements.insert created announcement
  applied := repairs.applied.insert created applied
  pending := repairs.pending.erase created

def Replica.awaiting (r : Replica) (path : Path) (origin : FileTime) : Replica :=
  { r with inbound := { r.inbound with origins := r.inbound.origins.insert path origin } }

def followCreate (v : List Bytes) (created : Path) (outcome : Outcome) (r : Replica) : Replica :=
  let r := r.awaiting created outcome.origin
  -- Nothing will move for content the session already held.
  let r := if outcome.alreadyHeld then stampAndRemember w r created outcome.origin else r
  { r with
    repairs := r.repairs.follow created (part v 1) ⟨outcome.origin, outcome.content⟩ }

/-- `receive_one`, the message already read off the socket. -/
def receiveOne (v : List Bytes) (clock : TimePoint) (steady : SteadyTime) (r : Replica) :
    Except Replica Replica :=
  match act w v r with
  | .error r => .error r
  | .ok (r, .error _) => .ok r
  | .ok (r, .ok outcome) =>
    let r :=
      match removedPath v with
      | none => r
      | some gone => { r with repairs := r.repairs.forget gone }
    let r :=
      match outcome.created with
      | none => r
      | some created => followCreate w v created outcome r
    reconcileMessage w outcome.verb v clock steady r

def torrentOf (v : List Bytes) : Option TorrentInfo := w.loadTorrentBuffer (part v 1)

def Replica.removed (r : Replica) (path : Path) (deleted : TimePoint) : Replica :=
  { r with
    tombstones := mark r.tombstones path deleted
    repairs := r.repairs.forget path }

def Replica.applied (r : Replica) (v : List Bytes) (torrent : TorrentInfo) : Replica :=
  let (r, outcome) := applyCreate w (ascii "create") (announcedPath v) (originOf v) torrent
    (r.revived (announcedPath v))
  followCreate w v (announcedPath v) outcome r

def applies (v : List Bytes) (r : Replica) : Bool :=
  match act w v r with
  | .ok (_, .ok outcome) => outcome.created.isSome
  | _ => false

inductive Received (v : List Bytes) (clock : TimePoint) (r : Replica) :
    Bool → Except Replica Replica → Prop
  | rejected : Received v clock r false (.ok r)
  | removed {path : Path} {left : Replica} (removes : removedPath v = some path)
    (erased : erase w r path = .ok left) :
    Received v clock r false (.ok (left.removed path (fromTicks (part v 2))))
  | removeRaised {path : Path} {left : Replica} (removes : removedPath v = some path)
    (raised : erase w r path = .error left) : Received v clock r false (.error left)
  | loadRaised (creates : verbOf (part v 0) = ascii "create") (unloadable : torrentOf w v = none) :
    Received v clock r false (.error (r.revived (announcedPath v)))
  | refused (creates : verbOf (part v 0) = ascii "create")
    (undefeated : Undefeated r.tombstones (announcedPath v) (originOf v)) :
    Received v clock r false (.ok (r.revived (announcedPath v)))
  | applied {torrent : TorrentInfo} (creates : verbOf (part v 0) = ascii "create")
    (undefeated : Undefeated r.tombstones (announcedPath v) (originOf v))
    (loads : torrentOf w v = some torrent)
    (won : wins w r (announcedPath v) (originOf v) torrent = true) :
    Received v clock r true (.ok (r.applied w v torrent))
  | state (peers : StateMap) : Received v clock r false (.ok { r with peers := peers })
  | digest {left : Replica} {deleted : List Path} (addressed : verbOf (part v 0) = ascii "digest")
    (adopted : adopt w (decodeTombstones (part v 2)) clock r = .ok (left, deleted))
    (pending : PendingMap) :
    Received v clock r false (.ok { left with repairs := { left.repairs with pending := pending } })
  | digestRaised {left : Replica} (addressed : verbOf (part v 0) = ascii "digest")
    (raised : adopt w (decodeTombstones (part v 2)) clock r = .error left) :
    Received v clock r false (.error left)

end

variable {w : World} {v : List Bytes} {clock : TimePoint} {steady : SteadyTime} {r r' : Replica}

def Replica.remembered (r : Replica) (path : Path) (time : FileTime) : Replica :=
  { r with
    inbound := { r.inbound with written := r.inbound.written.insert path time }
    former := r.former.insert path time }

/-- A replica whose file is back on its origin time. -/
def Replica.stamped (w : World) (r : Replica) (path : Path) (origin : FileTime) : Replica :=
  { r with
    toTree := r.stamp w path origin
    inbound := { r.inbound with origins := r.inbound.origins.erase path } }

/-- The file is there, and nobody has written it since the moment libtorrent was
done with it: the stamp goes through. -/
def Records (w : World) (r : Replica) (path : Path) (writtenBy : FileTime) : Prop :=
  ∃ time, r.lastWriteTime w path = some time ∧ ¬ writtenBy < time

/-- A stamp that puts nothing back and remembers nothing still spends the time
that was waiting. -/
inductive StampsAs (w : World) (r : Replica) (path : Path) (writtenBy : FileTime) : Replica → Prop
  | absent (absent : r.lastWriteTime w path = none) : StampsAs w r path writtenBy r
  | edited {time : FileTime} (present : r.lastWriteTime w path = some time)
    (later : writtenBy < time) :
    StampsAs w r path writtenBy
      { r with inbound := { r.inbound with origins := r.inbound.origins.erase path } }
  | kept {time : FileTime} (present : r.lastWriteTime w path = some time)
    (done : ¬ writtenBy < time) (spent : r.inbound.origins[path]? = none) :
    StampsAs w r path writtenBy (r.remembered path time)
  | stamped {time origin : FileTime} (present : r.lastWriteTime w path = some time)
    (done : ¬ writtenBy < time) (waiting : r.inbound.origins[path]? = some origin) :
    StampsAs w r path writtenBy ((r.stamped w path origin).remembered path origin)

theorem stampsAs (w : World) (r : Replica) (path : Path) (writtenBy : FileTime) :
    StampsAs w r path writtenBy (stampAndRemember w r path writtenBy) := by
  rw [stampAndRemember]
  cases hp : r.lastWriteTime w path with
  | none => exact .absent hp
  | some time =>
    dsimp only
    split
    · next hl => exact .edited hp hl
    · next hl =>
      cases ho : r.inbound.origins[path]? with
      | none =>
        simp only [hp]
        exact .kept hp hl ho
      | some origin =>
        simp only [Tree.lastWriteTime_stamp hp]
        exact .stamped hp hl ho

theorem stampAndRemember_stamped {path : Path} {writtenBy time origin : FileTime}
    (present : r.lastWriteTime w path = some time) (done : ¬ writtenBy < time)
    (waiting : r.inbound.origins[path]? = some origin) :
    stampAndRemember w r path writtenBy = (r.stamped w path origin).remembered path origin := by
  rw [stampAndRemember, present]
  simp only [if_neg done, waiting, Tree.lastWriteTime_stamp present]
  rfl

namespace StampsAs

variable {path q : Path} {writtenBy : FileTime}

theorem repairs (h : StampsAs w r path writtenBy r') : r'.repairs = r.repairs := by
  cases h <;> rfl

theorem session (h : StampsAs w r path writtenBy r') : r'.session = r.session := by
  cases h <;> rfl

theorem tombstones (h : StampsAs w r path writtenBy r') : r'.tombstones = r.tombstones := by
  cases h <;> rfl

/-- A stamp spends what waits for its own path and nothing else. -/
theorem origins (h : StampsAs w r path writtenBy r') {o : FileTime}
    (ho : r'.inbound.origins[q]? = some o) : r.inbound.origins[q]? = some o := by
  have he : (r.inbound.origins.erase path)[q]? = some o → r.inbound.origins[q]? = some o := by
    intro he
    rw [PathMap.getElem?_erase] at he
    split at he
    · cases he
    · exact he
  cases h with
  | absent => exact ho
  | edited => exact he ho
  | kept => exact ho
  | stamped => exact he ho

theorem disk_other (h : StampsAs w r path writtenBy r') (hp : r.locate w path ≠ some q) :
    r'.disk[q]? = r.disk[q]? := by
  cases h with
  | absent | edited | kept => rfl
  | stamped => rw [Replica.remembered, Replica.stamped, Tree.getElem?_stamp, if_neg hp]

theorem memory_other (h : StampsAs w r path writtenBy r') (hne : path ≠ q) :
    r'.former[q]? = r.former[q]? ∧ r'.inbound.written[q]? = r.inbound.written[q]? := by
  cases h with
  | absent | edited => exact ⟨rfl, rfl⟩
  | kept | stamped => simp [Replica.remembered, Replica.stamped, hne]

/-- A stamp that finds its file, and finds it no newer, remembers it under the
time it leaves on it. -/
theorem at_self (h : StampsAs w r path writtenBy r') :
    (¬ Records w r path writtenBy ∧ r'.toTree = r.toTree ∧ r'.former = r.former ∧
      r'.inbound.written = r.inbound.written) ∨
    (Records w r path writtenBy ∧ ∃ here time, r.lastWriteTime w path = some here ∧
      r'.lastWriteTime w path = some time ∧ r'.former[path]? = some time ∧
      r'.inbound.written[path]? = some time ∧
      time = (r.inbound.origins[path]?).getD here) := by
  cases h with
  | absent ha =>
    refine .inl ⟨?_, rfl, rfl, rfl⟩
    rintro ⟨t, ht, -⟩
    rw [ha] at ht
    cases ht
  | edited present later =>
    refine .inl ⟨?_, rfl, rfl, rfl⟩
    rintro ⟨t, ht, hn⟩
    rw [present] at ht
    obtain rfl := Option.some.inj ht
    exact hn later
  | @kept time present done spent =>
    refine .inr ⟨⟨_, present, done⟩, time, time, present, present, ?_, ?_, by rw [spent]; rfl⟩ <;>
    · rw [Replica.remembered, PathMap.getElem?_insert, if_pos rfl]
  | @stamped time origin present done waiting =>
    refine .inr ⟨⟨_, present, done⟩, time, origin, present, Tree.lastWriteTime_stamp present, ?_, ?_,
      by rw [waiting]; rfl⟩
    all_goals rw [Replica.remembered, PathMap.getElem?_insert, if_pos rfl]

end StampsAs

/-- A replica a create's torrent has been added to, its origin time waiting. -/
def Replica.serving (w : World) (r : Replica) (v : List Bytes) (torrent : TorrentInfo) : Replica :=
  (applyCreate w (ascii "create") (announcedPath v) (originOf v) torrent
    (r.revived (announcedPath v))).1.awaiting (announcedPath v) (originOf v)

theorem getElem?_origins_serving {w : World} {r : Replica} {v : List Bytes} {torrent : TorrentInfo}
    {p : Path} : (r.serving w v torrent).inbound.origins[p]? =
      if announcedPath v = p then some (originOf v) else r.inbound.origins[p]? :=
  PathMap.getElem?_insert

/-- Whether the session holds this very announcement for the path already. -/
def heldAlready (w : World) (r : Replica) (v : List Bytes) (torrent : TorrentInfo) : Bool :=
  (removeStaleTorrents w r.session (announcedPath v) torrent).2

theorem applied_eq (w : World) (r : Replica) (v : List Bytes) (torrent : TorrentInfo) :
    r.applied w v torrent =
      let left :=
        if heldAlready w r v torrent then
          stampAndRemember w (r.serving w v torrent) (announcedPath v) (originOf v)
        else r.serving w v torrent
      { left with
        repairs := left.repairs.follow (announcedPath v) (part v 1)
          ⟨originOf v, torrent.infoHash⟩ } := rfl

/-- An applied create: stamped at once for content the session held, and the
three maps of its path filled either way. -/
theorem applied_cases (w : World) (r : Replica) (v : List Bytes) (torrent : TorrentInfo) :
    ∃ left, r.applied w v torrent = { left with
        repairs := r.repairs.follow (announcedPath v) (part v 1) ⟨originOf v, torrent.infoHash⟩ } ∧
      ((heldAlready w r v torrent = true ∧
          StampsAs w (r.serving w v torrent) (announcedPath v) (originOf v) left) ∨
        (heldAlready w r v torrent = false ∧ left = r.serving w v torrent)) := by
  rw [applied_eq]
  cases hh : heldAlready w r v torrent with
  | false => exact ⟨_, rfl, .inr ⟨rfl, rfl⟩⟩
  | true =>
    have hs := stampsAs w (r.serving w v torrent) (announcedPath v) (originOf v)
    refine ⟨_, ?_, .inl ⟨rfl, hs⟩⟩
    simp only [if_true, hs.repairs]
    rfl

theorem removedPath_create (hl : v.length = 4) : removedPath v = none := by
  cases h : removedPath v with
  | none => rfl
  | some path => exact absurd ((removedPath_eq_some h).1.symm.trans hl) (by decide)

theorem actAgainst_create {found : Option FileTime} (hv : verbOf (part v 0) = ascii "create")
    (hl : v.length = 4) :
    actAgainst w found v r =
      actCreateAgainst w found (ascii "create") (part v 1) (originOf v) (announcedPath v) r := by
  have hp : partsFor (part v 0) = some 4 := by
    rw [partsFor, hv]
    decide
  have he : v.isEmpty = false := by
    cases v with
    | nil => cases hl
    | cons => rfl
  simp [actAgainst, he, hp, hl, removedPath_create hl, hv]

theorem act_create (hv : verbOf (part v 0) = ascii "create") (hl : v.length = 4) :
    act w v r = actCreate w (ascii "create") (part v 1) (originOf v) (announcedPath v) r :=
  actAgainst_create hv hl

/-- A well-formed create is applied when no tombstone beats it and it wins. -/
theorem applies_create {torrent : TorrentInfo} (hv : verbOf (part v 0) = ascii "create")
    (hl : v.length = 4) (ht : torrentOf w v = some torrent) :
    applies w v r = true ↔ Undefeated r.tombstones (announcedPath v) (originOf v) ∧
      wins w r (announcedPath v) (originOf v) torrent = true := by
  rw [applies, act_create hv hl]
  rw [torrentOf] at ht
  rcases actCreate_cases w (ascii "create") (part v 1) (originOf v) (announcedPath v) r with
    ⟨hn, _, hc⟩ | ⟨-, hn, -⟩ | ⟨-, t, hs, hw, _, hc⟩ | ⟨hu, t, hs, hw, hc⟩
  · simp [hc, hn]
  · rw [ht] at hn
    cases hn
  · rw [ht] at hs
    obtain rfl := Option.some.inj hs
    simp [hc, hw]
  · rw [ht] at hs
    obtain rfl := Option.some.inj hs
    simp [hc, hu, hw, applyCreate]

theorem reconcileMessage_other {verb : Bytes} (hs : verb ≠ ascii "state")
    (hd : verb ≠ ascii "digest") : reconcileMessage w verb v clock steady r = .ok r := by
  rw [reconcileMessage, if_neg hs, if_neg hd]

private theorem reconcileMessage_remove :
    reconcileMessage w (ascii "remove") v clock steady r = .ok r :=
  reconcileMessage_other (by decide) (by decide)

private theorem reconcileMessage_create :
    reconcileMessage w (ascii "create") v clock steady r = .ok r :=
  reconcileMessage_other (by decide) (by decide)

theorem receiveOne_create {torrent : TorrentInfo} (hv : verbOf (part v 0) = ascii "create")
    (hl : v.length = 4) (ht : torrentOf w v = some torrent) (clock : TimePoint)
    (steady : SteadyTime) (r : Replica) :
    receiveOne w v clock steady r = .ok (
      if Undefeated r.tombstones (announcedPath v) (originOf v) then
        if wins w r (announcedPath v) (originOf v) torrent then r.applied w v torrent
        else r.revived (announcedPath v)
      else r) := by
  rw [receiveOne, act_create hv hl]
  rw [torrentOf] at ht
  rcases actCreate_cases w (ascii "create") (part v 1) (originOf v) (announcedPath v) r with
    ⟨hn, _, hc⟩ | ⟨-, hn, -⟩ | ⟨hu, t, hs, hw, _, hc⟩ | ⟨hu, t, hs, hw, hc⟩
  · rw [hc, if_neg hn]
    simp only [removedPath_create hl, reconcileMessage_create]
  · rw [ht] at hn
    cases hn
  · rw [ht] at hs
    obtain rfl := Option.some.inj hs
    rw [hc, if_pos hu, hw]
    simp only [removedPath_create hl, reconcileMessage_create]
    rfl
  · rw [ht] at hs
    obtain rfl := Option.some.inj hs
    rw [hc, if_pos hu, hw]
    simp only [removedPath_create hl]
    exact reconcileMessage_create

theorem receiveOne_malformed (h : partsFor (part v 0) ≠ some v.length) :
    receiveOne w v clock steady r = .ok r := by
  obtain ⟨error, ha⟩ := act_malformed (w := w) (r := r) h
  rw [receiveOne, ha]

theorem receiveOne_unloadable (hv : verbOf (part v 0) = ascii "create") (hl : v.length = 4)
    (ht : torrentOf w v = none) :
    receiveOne w v clock steady r =
      if Undefeated r.tombstones (announcedPath v) (originOf v) then
        .error (r.revived (announcedPath v))
      else .ok r := by
  rw [receiveOne, act_create hv hl]
  rw [torrentOf] at ht
  rcases actCreate_cases w (ascii "create") (part v 1) (originOf v) (announcedPath v) r with
    ⟨hn, _, hc⟩ | ⟨hu, -, hc⟩ | ⟨-, t, hs, -⟩ | ⟨-, t, hs, -⟩
  · rw [hc, if_neg hn]
    simp only [removedPath_create hl, reconcileMessage_create]
  · rw [hc, if_pos hu]
  · rw [ht] at hs
    cases hs
  · rw [ht] at hs
    cases hs

theorem receiveOne_remove {path : Path} (hr : removedPath v = some path) :
    receiveOne w v clock steady r =
      (erase w r path).map fun left => left.removed path (fromTicks (part v 2)) := by
  rw [receiveOne, act_of_removedPath hr, actRemove, (removedPath_eq_some hr).2]
  cases erase w r path with
  | error left => rfl
  | ok left =>
    simp only [hr, reconcileMessage_remove]
    rfl

theorem receiveOne_state_eq (hv : verbOf (part v 0) = ascii "state") (hl : v.length = 3)
    (clock : TimePoint) (steady : SteadyTime) (r : Replica) :
    receiveOne w v clock steady r = .ok (if part v 2 = w.endpoint then r
      else { r with peers := r.peers.insert (part v 2) ⟨part v 1, steady⟩ }) := by
  obtain ⟨hr, message, ha⟩ := act_left (w := w) (r := r) hv (by decide) hl (by decide) (by decide)
  simp [receiveOne, ha, hr, reconcileMessage]

theorem receiveOne_state (hv : verbOf (part v 0) = ascii "state") (hl : v.length = 3)
    (clock : TimePoint) (steady : SteadyTime) (r : Replica) :
    ∃ peers, receiveOne w v clock steady r = .ok { r with peers := peers } := by
  rw [receiveOne_state_eq hv hl]
  split
  · exact ⟨r.peers, rfl⟩
  · exact ⟨_, rfl⟩

theorem receiveOne_digest (hv : verbOf (part v 0) = ascii "digest") (hl : v.length = 3)
    (clock : TimePoint) (steady : SteadyTime) (r : Replica) :
    receiveOne w v clock steady r = readDigest w v clock steady r ∧ applies w v r = false := by
  obtain ⟨hr, message, ha⟩ := act_left (w := w) (r := r) hv (by decide) hl (by decide) (by decide)
  have hs : ascii "digest" ≠ ascii "state" := by decide
  constructor
  · simp [receiveOne, ha, hr, reconcileMessage, hs]
  · simp [applies, ha]

theorem readDigest_received (ha : verbOf (part v 0) = ascii "digest") :
    Received w v clock r false (readDigest w v clock steady r) := by
  simp only [readDigest]
  cases had : adopt w (decodeTombstones (part v 2)) clock r with
  | error left => exact .digestRaised ha had
  | ok s =>
    obtain ⟨left, deleted⟩ := s
    dsimp only
    split
    · exact .digest ha had left.repairs.pending
    · exact .digest ha had _

theorem received (w : World) (v : List Bytes) (clock : TimePoint) (steady : SteadyTime)
    (r : Replica) : Received w v clock r (applies w v r) (receiveOne w v clock steady r) := by
  rw [receiveOne, applies]
  rcases act_cases w v r with ⟨_, ha⟩ | ⟨path, hr, ha⟩ | ⟨hn, hv, ha⟩ | ⟨hn, hv, message, ha⟩
  · rw [ha]
    exact .rejected
  · obtain ⟨-, hv⟩ := removedPath_eq_some hr
    cases he : erase w r path with
    | error left =>
      rw [ha, actRemove, he]
      exact .removeRaised hr he
    | ok left =>
      rw [ha, actRemove, he, hv]
      simp only [hr, reconcileMessage_remove]
      exact .removed hr he
  · rcases actCreate_cases w (ascii "create") (part v 1) (originOf v) (announcedPath v) r with
      ⟨_, _, hc⟩ | ⟨_, hl, hc⟩ | ⟨hu, _, _, _, _, hc⟩ | ⟨hu, torrent, hl, hw, hc⟩
    · rw [ha, hc]
      simp only [hn, reconcileMessage_create]
      exact .rejected
    · rw [ha, hc]
      exact .loadRaised hv hl
    · rw [ha, hc]
      simp only [hn, reconcileMessage_create]
      exact .refused hv hu
    · rw [ha, hc]
      simp only [hn]
      have hm : ∀ r', reconcileMessage w (ascii "create") v clock steady r' = .ok r' :=
        fun _ => reconcileMessage_create
      exact (congrArg _ (hm _)).mpr (.applied hv hu hl hw)
  · rw [ha]
    simp only [hn]
    by_cases hs : verbOf (part v 0) = ascii "state"
    · rw [reconcileMessage, if_pos hs]
      dsimp only
      split
      · exact .rejected
      · exact .state _
    · by_cases hd : verbOf (part v 0) = ascii "digest"
      · rw [reconcileMessage, if_neg hs, if_pos hd]
        exact readDigest_received hd
      · rw [reconcileMessage_other hs hd]
        exact .rejected

end SyncFs
