import SyncFs.Reconciliation
import SyncFs.Torrents
import SyncFs.Trees

/-!
# What a message does

The part count of a message is a property of its verb, which is read first. A
remove is carried out and recorded; a create is weighed against the tombstone
and then against the copy on disk, and the torrent of an announcement that wins
takes the place of whatever serves the path. Functions that raise hand back the
state they leave behind.
-/

namespace SyncFs

open CharConversions

structure Applied where
  origin : FileTime
  content : ℕ
  deriving DecidableEq

abbrev AppliedMap := PathMap Applied

/-- Everything a node remembers a path by for the sake of repairing a peer. -/
structure Repairs where
  pending : PendingMap
  applied : AppliedMap
  announcements : PathMap Bytes

def Repairs.forget (repairs : Repairs) (path : Path) : Repairs where
  announcements := repairs.announcements.erase path
  applied := repairs.applied.erase path
  pending := repairs.pending.erase path

/-- What a node remembers about the files its peers sent it: the time each was
written at its origin, until it is put back, and what each looked like once
libtorrent was done with it. -/
structure Inbound where
  origins : FileMap
  written : FileMap

/-- One node's copy of the tree and all it knows about it. -/
structure Replica extends Tree where
  session : Session
  former : FileMap
  tombstones : TombstoneMap
  inbound : Inbound
  repairs : Repairs
  peers : StateMap

structure Outcome where
  verb : Bytes
  message : Bytes
  created : Option Path := none
  origin : FileTime := ⟨0⟩
  content : ℕ := 0
  alreadyHeld : Bool := false
  deriving DecidableEq

def removeParts : ℕ := 3

def verbs : List (Bytes × ℕ) :=
  [(ascii "create", 4), (ascii "remove", removeParts), (ascii "state", 3), (ascii "digest", 3)]

def maxParts : ℕ := 4

/-- The verb a first part names: everything up to the first NUL. -/
def verbOf (part0 : Bytes) : Bytes := part0.takeWhile (· ≠ nul)

instance (v : List Bytes) (said : List (List Bytes)) : Decidable (v ∈ said) :=
  List.instDecidableMemOfLawfulBEq v said

/-- The first part of a message addressed at one node. -/
def address (verb endpoint : Bytes) : Bytes := verb ++ [nul] ++ endpoint ++ [nul]

def partsFor (part0 : Bytes) : Option ℕ :=
  (verbs.find? fun verb => verb.1 = verbOf part0).map Prod.snd

/-- The path a message asks to delete. -/
def removedPath : List Bytes → Option Path
  | [part0, path, _] => if verbOf part0 = ascii "remove" then some (Path.ofNative path) else none
  | _ => none

section

variable (w : World)

/-- Takes the stale torrents of a path out, and answers whether one of those
left standing is this very announcement. -/
def removeStaleTorrents (s : Session) (announced : Path) (added : TorrentInfo) : Session × Bool :=
  (s.torrentsAt w announced).foldl
    (fun (s, held) t =>
      if t.info.infoHash = added.infoHash then (s, true) else (s.removeTorrent t.handle, held))
    (s, false)

/-- Whether an announced file beats the copy already here, of the time found. -/
def winsAgainst (found : Option FileTime) (r : Replica) (announced : Path) (origin : FileTime)
    (incoming : TorrentInfo) : Bool :=
  match found with
  | none => true
  | some here =>
    let theirs := origin.toTicks
    let ours := here.toTicks
    if theirs ≠ ours then theirs > ours
    else
      match r.repairs.applied[announced]? with
      | none => true
      | some known =>
        if known.origin.toTicks ≠ ours then true else !(known.content < incoming.infoHash)

def wins (r : Replica) (announced : Path) (origin : FileTime) (incoming : TorrentInfo) : Bool :=
  winsAgainst (r.lastWriteTime w announced) r announced origin incoming

def addNodes (s : Session) (nodes : List (Bytes × ℤ)) : Session × Bytes :=
  ({ s with dhtNodes := s.dhtNodes ++ nodes },
    nodes.foldl (fun added node => added ++ ascii " " ++ node.1 ++ ascii ":" ++ printInt node.2) [])

def quoted (path : Path) : Bytes := ascii "\"" ++ path.native ++ ascii "\""

/-- Takes a path out of the session and off the disk, in that order. -/
def erase (r : Replica) (path : Path) : Except Replica Replica :=
  let r := { r with session := r.session.withdraw w path }
  match r.remove w path with
  | none => .error r
  | some tree => .ok { r with toTree := tree }

def actRemove (verb : Bytes) (removed : Path) (deleted : TimePoint) (r : Replica) :
    Except Replica (Replica × Except Bytes Outcome) :=
  match erase w r removed with
  | .error r => .error r
  | .ok r =>
    .ok ({ r with tombstones := mark r.tombstones removed deleted },
      .ok { verb := verb, message := ascii "Delete " ++ quoted removed })

/-- An announcement that has won takes the place of what serves the path. -/
def applyCreate (verb : Bytes) (announced : Path) (origin : FileTime) (torrent : TorrentInfo)
    (r : Replica) : Replica × Outcome :=
  let savePath := w.complete (savePathFor announced torrent.filePath)
  let (session, held) := removeStaleTorrents w r.session announced torrent
  let (session, nodes) := addNodes (session.addTorrent torrent savePath) torrent.nodes
  ({ r with session := session },
    { verb := verb
      message := ascii "Added nodes for " ++ quoted announced ++ nodes
      created := some announced
      origin := origin
      content := torrent.infoHash
      alreadyHeld := held })

/-- The create branch of `act`, where that time is found at the announced path. -/
def actCreateAgainst (found : Option FileTime) (verb buffer : Bytes) (origin : FileTime)
    (announced : Path) (r : Replica) : Except Replica (Replica × Except Bytes Outcome) :=
  if (r.tombstones[announced]?).any fun grave => beats grave origin then
    .ok (r, .ok
      { verb := verb, message := ascii "Ignore " ++ quoted announced ++ ascii ", deleted since" })
  else
    -- A file that is no older cancels the deletion, whether or not it is taken.
    let r := { r with tombstones := r.tombstones.erase announced }
    match w.loadTorrentBuffer buffer with
    | none => .error r
    | some torrent =>
      if !winsAgainst found r announced origin torrent then
        .ok (r, .ok
          { verb := verb, message := ascii "Ignore " ++ quoted announced ++ ascii ", not newer" })
      else
        let (r, outcome) := applyCreate w verb announced origin torrent r
        .ok (r, .ok outcome)

def actCreate (verb buffer : Bytes) (origin : FileTime) (announced : Path) (r : Replica) :
    Except Replica (Replica × Except Bytes Outcome) :=
  actCreateAgainst w (r.lastWriteTime w announced) verb buffer origin announced r

/-- `v.at(i)`, asked only of parts the verb has. -/
def part (v : List Bytes) (i : ℕ) : Bytes := v.getD i []

def announcedPath (v : List Bytes) : Path := Path.ofNative (part v 3)

/-- The time a create says the file was written at. -/
def originOf (v : List Bytes) : FileTime := toFileTime (fromTicks (part v 2))

/-- `act`, where that time is found at the path of a create. -/
def actAgainst (found : Option FileTime) (v : List Bytes) (r : Replica) :
    Except Replica (Replica × Except Bytes Outcome) :=
  if v.isEmpty then .ok (r, .error (ascii "Wrong protocol length."))
  else
    let verb := verbOf (part v 0)
    match partsFor (part v 0) with
    | none => .ok (r, .error (ascii "Wrong protocol verb."))
    | some parts =>
      if v.length ≠ parts then .ok (r, .error (ascii "Wrong protocol length."))
      else
        match removedPath v with
        | some removed => actRemove w verb removed (fromTicks (part v 2)) r
        | none =>
          if verb = ascii "create" then
            actCreateAgainst w found verb (part v 1) (originOf v) (announcedPath v) r
          else
            .ok (r, .ok
              { verb := verb, message := ascii "Nothing to do for \"" ++ verb ++ ascii "\"" })

def act (v : List Bytes) (r : Replica) : Except Replica (Replica × Except Bytes Outcome) :=
  actAgainst w (r.lastWriteTime w (announcedPath v)) v r

def adoptOne : Replica × List Path → Path × TimePoint → Except Replica (Replica × List Path)
  | (r, deleted), (path, moment) =>
    let r := { r with tombstones := mark r.tombstones path moment }
    if !r.former.contains path then .ok (r, deleted)
    else
      match erase w { r with former := r.former.erase path } path with
      | .error r => .error r
      | .ok r => .ok ({ r with repairs := r.repairs.forget path }, deleted ++ [path])

/-- Takes on the deletions a peer's digest carries, and answers with the paths
whose file was deleted. -/
def adopt (theirs : TombstoneMap) (now : TimePoint) (r : Replica) :
    Except Replica (Replica × List Path) :=
  (adoptable theirs r.former r.tombstones now).toList.foldlM (adoptOne w) (r, [])

end

variable {w : World} {r r' : Replica} {v : List Bytes} {path : Path}

theorem erase_ok (h : erase w r path = .ok r') :
    ∃ tree, r.remove w path = some tree ∧
      r' = { r with session := r.session.withdraw w path, toTree := tree } := by
  simp only [erase] at h
  split at h
  · cases h
  · next tree ht => exact ⟨tree, ht, (Except.ok.inj h).symm⟩

theorem erase_error (h : erase w r path = .error r') :
    r' = { r with session := r.session.withdraw w path } := by
  simp only [erase] at h
  split at h
  · exact (Except.error.inj h).symm
  · cases h

theorem erase_of_find {file : File} (h : r.find w path = some file) :
    ∃ spot, r.locate w path = some spot ∧ r.disk[spot]? = some file ∧ erase w r path =
      .ok { r with session := r.session.withdraw w path, disk := r.disk.erase spot } := by
  obtain ⟨spot, hl, hf, hr⟩ := Tree.remove_of_find h
  refine ⟨spot, hl, hf, ?_⟩
  simp only [erase, hr]

theorem erase_of_file {file : File} (hk : path.IsKey) (h : r.disk[path]? = some file) :
    erase w r path =
      .ok { r with session := r.session.withdraw w path, disk := r.disk.erase path } := by
  obtain ⟨spot, hl, -, he⟩ := erase_of_find ((Tree.find_key (w := w) hk).trans h)
  rw [Tree.locate_key hk] at hl
  obtain rfl := Option.some.inj hl
  exact he

theorem actRemove_ok {verb : Bytes} {deleted : TimePoint} {verdict : Except Bytes Outcome}
    (h : actRemove w verb path deleted r = .ok (r', verdict)) :
    ∃ left, erase w r path = .ok left ∧
      r' = { left with tombstones := mark left.tombstones path deleted } ∧
      verdict = .ok { verb := verb, message := ascii "Delete " ++ quoted path } := by
  rw [actRemove] at h
  cases he : erase w r path with
  | error left =>
    rw [he] at h
    cases h
  | ok left =>
    rw [he] at h
    obtain ⟨rfl, rfl⟩ := Prod.mk.inj (Except.ok.inj h)
    exact ⟨left, rfl, rfl, rfl⟩

theorem actRemove_error {verb : Bytes} {deleted : TimePoint}
    (h : actRemove w verb path deleted r = .error r') : erase w r path = .error r' := by
  rw [actRemove] at h
  cases he : erase w r path with
  | error left =>
    rw [he] at h
    exact congrArg Except.error (Except.error.inj h)
  | ok left =>
    rw [he] at h
    cases h

theorem removedPath_eq_some (h : removedPath v = some path) :
    v.length = removeParts ∧ verbOf (part v 0) = ascii "remove" := by
  match v, h with
  | [part0, spelled, ticks], h => exact ⟨rfl, (Option.ite_none_right_eq_some.mp h).1⟩

theorem removedPath_of_verb {verb : Bytes} (hv : verbOf (part v 0) = verb)
    (hne : verb ≠ ascii "remove") : removedPath v = none := by
  cases h : removedPath v with
  | none => rfl
  | some path => exact absurd (hv.symm.trans (removedPath_eq_some h).2) hne

theorem act_of_removedPath (h : removedPath v = some path) :
    act w v r = actRemove w (verbOf (part v 0)) path (fromTicks (part v 2)) r := by
  obtain ⟨hl, hv⟩ := removedPath_eq_some h
  have hp : partsFor (part v 0) = some removeParts := by
    rw [partsFor, hv]
    decide
  have he : v.isEmpty = false := by
    cases v with
    | nil => cases hl
    | cons => rfl
  simp [act, actAgainst, he, hp, hl, h]

/-- A message that has not the parts its verb fixes is an error and nothing more. -/
theorem actAgainst_malformed (found : Option FileTime) (h : partsFor (part v 0) ≠ some v.length) :
    ∃ error, actAgainst w found v r = .ok (r, .error error) := by
  rw [actAgainst]
  split
  · exact ⟨_, rfl⟩
  · dsimp only
    split
    · exact ⟨_, rfl⟩
    · next parts hp =>
      rw [hp] at h
      rw [if_pos fun hl => h (congrArg some hl.symm)]
      exact ⟨_, rfl⟩

theorem act_malformed (h : partsFor (part v 0) ≠ some v.length) :
    ∃ error, act w v r = .ok (r, .error error) := actAgainst_malformed _ h

theorem partsFor_eq_some {part0 : Bytes} {parts : ℕ} (h : partsFor part0 = some parts) :
    (verbOf part0, parts) ∈ verbs := by
  obtain ⟨verb, hv, rfl⟩ := Option.map_eq_some_iff.mp h
  have hn := List.find?_some hv
  rw [decide_eq_true_eq] at hn
  rw [← hn]
  exact List.mem_of_find?_eq_some hv

theorem partsFor_of_verbOf {part0 verb : Bytes} {parts : ℕ} (hv : verbOf part0 = verb)
    (hm : (verb, parts) ∈ verbs) : partsFor part0 = some parts := by
  rw [partsFor, hv]
  simp only [verbs, List.mem_cons, Prod.mk.injEq, List.not_mem_nil, or_false] at hm
  rcases hm with ⟨rfl, rfl⟩ | ⟨rfl, rfl⟩ | ⟨rfl, rfl⟩ | ⟨rfl, rfl⟩ <;> decide

theorem actAgainst_left (found : Option FileTime) {verb : Bytes}
    (hv : verbOf (part v 0) = verb) (hm : (verb, 3) ∈ verbs) (hl : v.length = 3)
    (hc : verb ≠ ascii "create") (hr : verb ≠ ascii "remove") :
    removedPath v = none ∧ ∃ message, actAgainst w found v r =
      .ok (r, .ok { verb := verb, message := message }) := by
  have hp := partsFor_of_verbOf hv hm
  have hnone := removedPath_of_verb hv hr
  have he : v.isEmpty = false := by
    cases v with
    | nil => cases hl
    | cons => rfl
  exact ⟨hnone, _, by simp [actAgainst, he, hp, hl, hnone, hv, hc]; rfl⟩

theorem act_left {verb : Bytes} (hv : verbOf (part v 0) = verb) (hm : (verb, 3) ∈ verbs)
    (hl : v.length = 3) (hc : verb ≠ ascii "create") (hr : verb ≠ ascii "remove") :
    removedPath v = none ∧
      ∃ message, act w v r = .ok (r, .ok { verb := verb, message := message }) :=
  actAgainst_left _ hv hm hl hc hr

theorem wellFormed_cases (h : partsFor (part v 0) = some v.length) :
    (verbOf (part v 0) = ascii "create" ∧ v.length = 4) ∨ (∃ path, removedPath v = some path) ∨
      (verbOf (part v 0) = ascii "state" ∧ v.length = 3) ∨
      (verbOf (part v 0) = ascii "digest" ∧ v.length = 3) := by
  have hv := partsFor_eq_some h
  simp only [verbs, List.mem_cons, Prod.mk.injEq, List.not_mem_nil, or_false] at hv
  rcases hv with hv | ⟨hv, hl⟩ | hv | hv
  · exact .inl hv
  · match v, hv, hl with
    | [part0, spelled, ticks], hv, _ => exact .inr (.inl ⟨Path.ofNative spelled, if_pos hv⟩)
  · exact .inr (.inr (.inl hv))
  · exact .inr (.inr (.inr hv))

theorem act_cases (w : World) (v : List Bytes) (r : Replica) :
    (∃ error, act w v r = .ok (r, .error error)) ∨
    (∃ path, removedPath v = some path ∧
      act w v r = actRemove w (verbOf (part v 0)) path (fromTicks (part v 2)) r) ∨
    (removedPath v = none ∧ verbOf (part v 0) = ascii "create" ∧
      act w v r = actCreate w (ascii "create") (part v 1) (originOf v) (announcedPath v) r) ∨
    (removedPath v = none ∧ verbOf (part v 0) ≠ ascii "create" ∧
      ∃ message, act w v r = .ok (r, .ok { verb := verbOf (part v 0), message := message })) := by
  cases hr : removedPath v with
  | some path => exact .inr (.inl ⟨path, rfl, act_of_removedPath hr⟩)
  | none =>
    simp only [act, actAgainst, hr]
    split
    · exact .inl ⟨_, rfl⟩
    · split
      · exact .inl ⟨_, rfl⟩
      · split
        · exact .inl ⟨_, rfl⟩
        · split
          · next hv => exact .inr (.inr (.inl ⟨trivial, hv, by rw [hv]; rfl⟩))
          · next hv => exact .inr (.inr (.inr ⟨trivial, hv, _, rfl⟩))

theorem wins_absent {origin : FileTime} {incoming : TorrentInfo}
    (h : r.lastWriteTime w path = none) : wins w r path origin incoming = true := by
  rw [wins, h]
  rfl

/-- An announcement beats a copy that is older, and one of the same time unless
that copy is the greater content's. -/
theorem wins_present {origin here : FileTime} {incoming : TorrentInfo}
    (h : r.lastWriteTime w path = some here) :
    wins w r path origin incoming = true ↔ here.toTicks < origin.toTicks ∨
      here.toTicks = origin.toTicks ∧ ∀ known ∈ r.repairs.applied[path]?,
        known.origin.toTicks = here.toTicks → ¬ known.content < incoming.infoHash := by
  rw [wins, h, winsAgainst]
  split
  · next hne => simp [Ne.symm hne]
  · next he =>
    rw [ne_eq, not_not] at he
    split
    · next ha => simp [ha, he]
    · next known ha =>
      split <;> simp_all

def Replica.revived (r : Replica) (path : Path) : Replica :=
  { r with tombstones := r.tombstones.erase path }

/-- No tombstone held for a path beats a file of that time. -/
def Undefeated (tombstones : TombstoneMap) (path : Path) (t : FileTime) : Prop :=
  ∀ grave ∈ tombstones[path]?, beats grave t = false

instance (tombstones : TombstoneMap) (path : Path) (t : FileTime) :
    Decidable (Undefeated tombstones path t) := by
  unfold Undefeated
  infer_instance

/-- Every way a create can end. -/
theorem actCreateAgainst_cases (w : World) (found : Option FileTime) (verb buffer : Bytes)
    (origin : FileTime) (path : Path) (r : Replica) :
    (¬ Undefeated r.tombstones path origin ∧
      ∃ message, actCreateAgainst w found verb buffer origin path r =
        .ok (r, .ok { verb := verb, message := message })) ∨
    (Undefeated r.tombstones path origin ∧ w.loadTorrentBuffer buffer = none ∧
      actCreateAgainst w found verb buffer origin path r = .error (r.revived path)) ∨
    (Undefeated r.tombstones path origin ∧ ∃ torrent, w.loadTorrentBuffer buffer = some torrent ∧
      winsAgainst found r path origin torrent = false ∧
      ∃ message, actCreateAgainst w found verb buffer origin path r =
        .ok (r.revived path, .ok { verb := verb, message := message })) ∨
    (Undefeated r.tombstones path origin ∧ ∃ torrent, w.loadTorrentBuffer buffer = some torrent ∧
      winsAgainst found r path origin torrent = true ∧
      actCreateAgainst w found verb buffer origin path r =
        .ok ((applyCreate w verb path origin torrent (r.revived path)).1,
          .ok (applyCreate w verb path origin torrent (r.revived path)).2)) := by
  have hu : (r.tombstones[path]?.any fun grave => beats grave origin) = false ↔
      Undefeated r.tombstones path origin := by
    cases h : r.tombstones[path]? <;> simp [Undefeated, h]
  rw [actCreateAgainst]
  split
  · next hb =>
    refine .inl ⟨fun h => ?_, _, rfl⟩
    rw [hu.mpr h] at hb
    cases hb
  · next hb =>
    have hn := hu.mp (Bool.eq_false_iff.mpr hb)
    simp only
    split
    · next hl => exact .inr (.inl ⟨hn, hl, rfl⟩)
    · next torrent hl =>
      refine .inr (.inr ?_)
      cases hw : winsAgainst found r path origin torrent with
      | false => exact .inl ⟨hn, torrent, hl, hw, _, if_pos (by rw [Bool.not_eq_true']; exact hw)⟩
      | true =>
        refine .inr ⟨hn, torrent, hl, hw, if_neg ?_⟩
        rw [Bool.not_eq_true', Bool.not_eq_false]
        exact hw

theorem actCreate_cases (w : World) (verb buffer : Bytes) (origin : FileTime) (path : Path)
    (r : Replica) :
    (¬ Undefeated r.tombstones path origin ∧
      ∃ message, actCreate w verb buffer origin path r =
        .ok (r, .ok { verb := verb, message := message })) ∨
    (Undefeated r.tombstones path origin ∧ w.loadTorrentBuffer buffer = none ∧
      actCreate w verb buffer origin path r = .error (r.revived path)) ∨
    (Undefeated r.tombstones path origin ∧ ∃ torrent, w.loadTorrentBuffer buffer = some torrent ∧
      wins w r path origin torrent = false ∧
      ∃ message, actCreate w verb buffer origin path r =
        .ok (r.revived path, .ok { verb := verb, message := message })) ∨
    (Undefeated r.tombstones path origin ∧ ∃ torrent, w.loadTorrentBuffer buffer = some torrent ∧
      wins w r path origin torrent = true ∧
      actCreate w verb buffer origin path r =
        .ok ((applyCreate w verb path origin torrent (r.revived path)).1,
          .ok (applyCreate w verb path origin torrent (r.revived path)).2)) :=
  actCreateAgainst_cases w _ verb buffer origin path r

/-- A replica that has recorded a deletion and dropped the path from its listing. -/
def Replica.unlisted (r : Replica) (path : Path) (moment : TimePoint) : Replica :=
  { r with tombstones := mark r.tombstones path moment, former := r.former.erase path }

theorem adoptOne_unheld {deleted : List Path} {moment : TimePoint}
    (h : r.former.contains path = false) :
    adoptOne w (r, deleted) (path, moment) =
      .ok ({ r with tombstones := mark r.tombstones path moment }, deleted) := by
  simp [adoptOne, h]

theorem adoptOne_held (h : r.former.contains path = true) (deleted : List Path)
    (moment : TimePoint) :
    adoptOne w (r, deleted) (path, moment) =
      match erase w (r.unlisted path moment) path with
      | .error r => .error r
      | .ok r => .ok ({ r with repairs := r.repairs.forget path }, deleted ++ [path]) := by
  simp [adoptOne, h, Replica.unlisted]

/-- Deletions taken on one after the other, and the paths whose file they deleted. -/
inductive TakesOn (w : World) : List (Path × TimePoint) → Replica → Replica → List Path → Prop
  | nil {r : Replica} : TakesOn w [] r r []
  | unheld {path : Path} {moment : TimePoint} {es : List (Path × TimePoint)} {r r' : Replica}
    {deleted : List Path} (absent : r.former.contains path = false)
    (rest : TakesOn w es { r with tombstones := mark r.tombstones path moment } r' deleted) :
    TakesOn w ((path, moment) :: es) r r' deleted
  | held {path : Path} {moment : TimePoint} {es : List (Path × TimePoint)} {r left r' : Replica}
    {deleted : List Path} (present : r.former.contains path = true)
    (erased : erase w (r.unlisted path moment) path = .ok left)
    (rest : TakesOn w es { left with repairs := left.repairs.forget path } r' deleted) :
    TakesOn w ((path, moment) :: es) r r' (path :: deleted)

theorem takesOn_of_foldlM {es : List (Path × TimePoint)} {deleted all : List Path}
    (h : es.foldlM (adoptOne w) (r, deleted) = .ok (r', all)) :
    ∃ more, all = deleted ++ more ∧ TakesOn w es r r' more := by
  induction es generalizing r deleted with
  | nil =>
    obtain ⟨rfl, rfl⟩ := Prod.mk.inj (Except.ok.inj h)
    exact ⟨[], (List.append_nil _).symm, .nil⟩
  | cons e es ih =>
    obtain ⟨path, moment⟩ := e
    rw [List.foldlM_cons] at h
    cases hc : r.former.contains path with
    | false =>
      rw [adoptOne_unheld hc] at h
      obtain ⟨more, hm, ht⟩ := ih h
      exact ⟨more, hm, .unheld hc ht⟩
    | true =>
      rw [adoptOne_held hc] at h
      cases hx : erase w (r.unlisted path moment) path with
      | error left =>
        rw [hx] at h
        cases h
      | ok left =>
        rw [hx] at h
        obtain ⟨more, hm, ht⟩ := ih h
        exact ⟨path :: more, by rw [hm, List.append_assoc, List.singleton_append], .held hc hx ht⟩

/-- An adoption takes on the deletions that are news, in the order of their paths. -/
theorem takesOn {theirs : TombstoneMap} {now : TimePoint} {deleted : List Path}
    (h : adopt w theirs now r = .ok (r', deleted)) :
    TakesOn w (adoptable theirs r.former r.tombstones now).toList r r' deleted := by
  obtain ⟨more, rfl, ht⟩ := takesOn_of_foldlM h
  exact ht

/-- What every deletion taken on preserves, adoption preserves. -/
theorem adopt_preserves {P : Replica → Prop} {theirs : TombstoneMap} {now : TimePoint}
    {deleted : List Path} (hr : P r)
    (hu : ∀ (r : Replica) (path : Path) (moment : TimePoint), theirs[path]? = some moment → P r →
      P { r with tombstones := mark r.tombstones path moment })
    (hd : ∀ (r left : Replica) (path : Path) (moment : TimePoint), theirs[path]? = some moment →
      P r → erase w (r.unlisted path moment) path = .ok left →
      P { left with repairs := left.repairs.forget path })
    (h : adopt w theirs now r = .ok (r', deleted)) : P r' := by
  have ht := takesOn h
  have hes : ∀ e ∈ (adoptable theirs r.former r.tombstones now).toList, theirs[e.1]? = some e.2 :=
    fun e he => (getElem?_adoptable.mp (PathMap.mem_toList.mp he)).1
  generalize (adoptable theirs r.former r.tombstones now).toList = es at ht hes
  clear h
  induction ht with
  | nil => exact hr
  | unheld _ _ ih =>
    obtain ⟨he, hes⟩ := List.forall_mem_cons.mp hes
    exact ih (hu _ _ _ he hr) hes
  | held _ erased _ ih =>
    obtain ⟨he, hes⟩ := List.forall_mem_cons.mp hes
    exact ih (hd _ _ _ _ he hr erased) hes

end SyncFs
