import SyncFs.Adoption
import SyncFs.Completion

/-!
# What ends the loop

A pass of the loop asks the file system one question at a time, and other
processes may put anything in place of anything between two of them. Most
questions answer with an error the pass carries on from. Three raise: taking a
path away, and the two that read a file to be announced. A torrent that cannot
be loaded raises too.
-/

namespace SyncFs

open CharConversions Completion

/-- An entry a walk of the tree meets, and what it answers when it is asked;
nothing where it answers with an error. -/
structure Seen where
  path : Path
  time : Option FileTime
  regular : Option Bool
  symlink : Option Bool

/-- `files::list`, whatever the walk has met by its end. -/
def listing (walk : List Seen) : FileMap :=
  walk.foldl (fun files entry =>
    match entry.time with
    | none => files
    | some time =>
      if entry.regular = some true ∧ entry.symlink = some false then
        files.insertIfNew entry.path time
      else files) ∅

/-- How a call to take a path away ends: it was there and is taken away, it was
not there, or the call fails. -/
inductive Removal
  | removed
  | absent
  | failed
  deriving DecidableEq

/-- What the calls of a pass answer, each by the path it is about: nothing for a
time that cannot be read, and nothing for a read that raises. -/
structure Answers where
  entry : Path → Bool
  fileSize : Path → Option ℕ
  setPieceHashes : Path → ℕ → Option Bytes
  remove : Path → Removal
  lastWriteTime : Path → Option FileTime
  beforeStamp : Path → Option FileTime
  afterStamp : Path → Option FileTime

/-- What one pass comes upon: what its walk meets, and what its calls answer while
it says its changes, repairs its peers and takes a message in. -/
structure Found where
  walk : List Seen
  sending : Answers
  repairing : Answers
  receiving : Answers

inductive Raised
  | loadTorrentBuffer
  | remove (path : Path)
  | fileSize (path : Path)
  | setPieceHashes (path : Path)
  deriving DecidableEq

section

variable (w : World)

/-- `Source::create`: no entry is an error that is logged, and an entry that can
no longer be read raises. -/
def createFound (found : Answers) (file : Path) (mtime : FileTime) :
    Except Raised (Option (List Bytes)) :=
  if !found.entry file then .ok none
  else
    match found.fileSize file with
    | none => .error (.fileSize file)
    | some size =>
      match found.setPieceHashes file size with
      | none => .error (.setPieceHashes file)
      | some content => .ok (some (announce (w.generateBuf file content) mtime file))

def announceFound (found : Answers) (current set : FileMap) : Except Raised (List (List Bytes)) :=
  List.reduceOption <$> set.toList.mapM fun e =>
    createFound w found e.1 ((current[e.1]?).getD e.2)

def sendFound (found : Answers) (diff : Diff) (current : FileMap) (now : TimePoint) :
    Except Raised (List (List Bytes)) := do
  let created ← announceFound w found current diff.created
  let modified ← announceFound w found current diff.modified
  return diff.removed.toList.map (fun e => Source.remove e.1 now) ++ created ++ modified

def changesIn (n : Node) (current : FileMap) : Diff × TombstoneMap :=
  localChanges n.replica.former current n.replica.inbound.written n.replica.tombstones n.clock

/-- The replica a listing leaves, once its changes are said. -/
def Node.relisted (n : Node) (current : FileMap) : Replica :=
  let (written, tombstones) :=
    forgetSpentMarks current n.replica.inbound.written (changesIn n current).2 n.clock
  { n.replica with
    former := current
    tombstones := tombstones
    inbound := { n.replica.inbound with written := written } }

def listFound (n : Node) (found : Found) : Except Raised Node := do
  let current := listing found.walk
  let said ← sendFound w found.sending (changesIn n current).1 current n.clock
  return { n with
    lastChange := n.now
    sent := n.sent ++ said
    replica := n.relisted current }

def publishOneFound (found : Answers) (r : Replica) (p : Publishing) (path : Path) :
    Except Raised Publishing :=
  match r.former[path]? with
  | none => .ok p
  | some mtime =>
    match r.repairs.announcements[path]? with
    | some announcement => .ok { p with said := p.said ++ [Source.repair path mtime announcement] }
    | none =>
      if p.rebuilt then .ok { p with waiting := p.waiting ++ [path] }
      else
        (fun said => { p with said := p.said ++ said.toList, rebuilt := true }) <$>
          createFound w found path mtime

def repairsFound (n : Node) (found : Answers) : Except Raised Node := do
  let (ready, pending) := due n.replica.repairs.pending n.now
  let p ← ready.foldlM (publishOneFound w found n.replica) ⟨[], [], false⟩
  return { n with
    sent := n.sent ++ p.said
    replica := { n.replica with
      repairs := { n.replica.repairs with pending := arm pending p.waiting n.now } } }

def eraseFound (found : Answers) (r : Replica) (path : Path) : Except Raised Replica :=
  if found.remove path = .failed then .error (.remove path)
  else .ok { r with session := r.session.withdraw w path }

/-- `act`, whose one question to the file system is when the announced file was
written, or the removal. -/
def actFound (found : Answers) (v : List Bytes) (r : Replica) :
    Except Raised (Replica × Except Bytes Outcome) :=
  match removedPath v with
  | some removed => do
    let r ← eraseFound w found r removed
    return ({ r with tombstones := mark r.tombstones removed (fromTicks (part v 2)) },
      .ok { verb := verbOf (part v 0), message := ascii "Delete " ++ quoted removed })
  | none =>
    match actAgainst w (found.lastWriteTime (announcedPath v)) v r with
    | .error _ => .error .loadTorrentBuffer
    | .ok judged => .ok judged

/-- `stamp_and_remember`; the stamp itself may fail and nobody asks. -/
def stampFound (found : Answers) (r : Replica) (path : Path) (writtenBy : FileTime) :
    Replica :=
  match found.beforeStamp path with
  | none => r
  | some beforeStamp =>
    let r := if writtenBy < beforeStamp ∨ path ∈ r.inbound.origins then
        { r with inbound := { r.inbound with origins := r.inbound.origins.erase path } }
      else r
    if writtenBy < beforeStamp then r
    else
      match found.afterStamp path with
      | none => r
      | some time => r.remembered path time

def followFound (found : Answers) (v : List Bytes) (created : Path) (outcome : Outcome)
    (r : Replica) : Replica :=
  let r := r.awaiting created outcome.origin
  let r := if outcome.alreadyHeld then stampFound found r created outcome.origin else r
  { r with
    repairs := r.repairs.follow created (part v 1) ⟨outcome.origin, outcome.content⟩ }

def adoptOneFound (found : Answers) :
    Replica × List Path → Path × TimePoint → Except Raised (Replica × List Path)
  | (r, deleted), (path, moment) =>
    let r := { r with tombstones := mark r.tombstones path moment }
    if !r.former.contains path then .ok (r, deleted)
    else do
      let r ← eraseFound w found { r with former := r.former.erase path } path
      return ({ r with repairs := r.repairs.forget path }, deleted ++ [path])

def readDigestFound (found : Answers) (v : List Bytes) (clock : TimePoint)
    (steady : SteadyTime) (r : Replica) : Except Raised Replica := do
  let theirs := decodeTombstones (part v 2)
  let (r, _) ← (adoptable theirs r.former r.tombstones clock).toList.foldlM
    (adoptOneFound w found) (r, [])
  let missing := gaps r.former r.tombstones (decodeHeld (part v 1))
  return if missing.isEmpty then r
    else { r with repairs := { r.repairs with pending := arm r.repairs.pending missing steady } }

def reconcileFound (found : Answers) (verb : Bytes) (v : List Bytes) (clock : TimePoint)
    (steady : SteadyTime) (r : Replica) : Except Raised Replica :=
  if verb = ascii "state" then
    .ok (if part v 2 = w.endpoint then r
      else { r with peers := r.peers.insert (part v 2) ⟨part v 1, steady⟩ })
  else if verb = ascii "digest" then readDigestFound w found v clock steady r
  else .ok r

/-- `receive_one`; a message that could not be taken whole is an error that is logged. -/
def receiveFound (found : Answers) (received : Except Bytes (List Bytes)) (clock : TimePoint)
    (steady : SteadyTime) (r : Replica) : Except Raised Replica :=
  match received with
  | .error _ => .ok r
  | .ok v => do
    match ← actFound w found v r with
    | (r, .error _) => return r
    | (r, .ok outcome) =>
      let r :=
        match removedPath v with
        | none => r
        | some gone => { r with repairs := r.repairs.forget gone }
      let r :=
        match outcome.created with
        | none => r
        | some created => followFound found v created outcome r
      reconcileFound w found outcome.verb v clock steady r

def wakeFound (n : Node) (found : Found) (driven : Bool) : Except Raised Node :=
  if driven then listFound w n found else .ok n

def answerFound (n : Node) (found : Found) (message : Option (Except Bytes (List Bytes))) :
    Except Raised Node :=
  match message with
  | none => .ok n
  | some received =>
    (fun r => { n with replica := r }) <$>
      receiveFound w found.receiving received n.clock n.steady n.replica

/-- One iteration of the loop from the listing on, with what the monitor, the
partner draw and the socket bring into it. -/
def passFound (n : Node) (found : Found) (driven : Bool) (draw : ℕ)
    (message : Option (Except Bytes (List Bytes))) : Except Raised Node := do
  let n ← wakeFound w n found driven
  let n ← repairsFound w (if stateDue n then publishState w n draw else n) found.repairing
  answerFound w n found message

/-- Asked about to be announced, a file is not there, or can be read. -/
def Steady (found : Answers) (file : Path) : Prop :=
  found.entry file = true → ∃ size content, found.fileSize file = some size ∧
    found.setPieceHashes file size = some content

def Answers.content (found : Answers) (file : Path) : Option Bytes :=
  if found.entry file then (found.fileSize file).bind (found.setPieceHashes file) else none

/-- The path whose announcement a pass makes afresh, to repair a peer with. -/
def rebuilds (r : Replica) (now : SteadyTime) : Option Path :=
  (due r.repairs.pending now).1.find? fun path =>
    r.former.contains path && !r.repairs.announcements.contains path

/-- A create that is not refused can be loaded, and what a message has deleted
can be taken away. -/
structure Harmless (found : Answers) (r : Replica) (clock : TimePoint) (v : List Bytes) :
    Prop where
  loads : verbOf (part v 0) = ascii "create" → v.length = 4 →
    Undefeated r.tombstones (announcedPath v) (originOf v) → (torrentOf w v).isSome = true
  removes : ∀ p ∈ removedPath v, found.remove p ≠ .failed
  adopts : verbOf (part v 0) = ascii "digest" → v.length = 3 → ∀ p ∈ r.former,
    p ∈ adoptable (decodeTombstones (part v 2)) r.former r.tombstones clock →
      found.remove p ≠ .failed

def Node.afterListing (n : Node) (found : Found) (driven : Bool) : Replica :=
  if driven then n.relisted (listing found.walk) else n.replica

/-- Nothing comes in or moves that a pass does not expect. -/
structure Calm (n : Node) (found : Found) (driven : Bool)
    (message : Option (Except Bytes (List Bytes))) : Prop where
  announced : driven = true → ∀ p,
    p ∈ (changesIn n (listing found.walk)).1.created ∨
      p ∈ (changesIn n (listing found.walk)).1.modified → Steady found.sending p
  rebuilt : ∀ p ∈ rebuilds (n.afterListing found driven) n.now, Steady found.repairing p
  message : ∀ v, message = some (.ok v) →
    Harmless w found.receiving (n.afterListing found driven) n.clock v

end

variable {w : World} {found : Answers} {r r' : Replica}
variable {n m : Node} {v : List Bytes} {clock : TimePoint} {steady : SteadyTime} {p : Path}

theorem completes_createFound {mtime : FileTime} :
    Completes (createFound w found p mtime) ↔ Steady found p := by
  rw [createFound, Steady]
  cases found.entry p with
  | false => simp
  | true =>
    cases found.fileSize p with
    | none => simp
    | some size => cases h : found.setPieceHashes p size <;> simp [h]

theorem createFound_ok {mtime : FileTime} {said : Option (List Bytes)}
    (h : createFound w found p mtime = .ok said) :
    said = (found.content p).map fun bytes => announce (w.generateBuf p bytes) mtime p := by
  rw [createFound] at h
  rw [Answers.content]
  cases he : found.entry p with
  | false =>
    rw [he] at h
    exact (Except.ok.inj h).symm
  | true =>
    rw [he] at h
    cases hs : found.fileSize p with
    | none =>
      rw [hs] at h
      cases h
    | some size =>
      rw [hs] at h
      dsimp only at h
      cases hp : found.setPieceHashes p size with
      | none =>
        rw [hp] at h
        cases h
      | some content =>
        rw [hp] at h
        rw [← Except.ok.inj h, if_pos rfl, Option.bind_some, hp, Option.map_some]

theorem completes_announceFound {current set : FileMap} :
    Completes (announceFound w found current set) ↔
      ∀ p ∈ set, Steady found p := by
  rw [announceFound, completes_map, completes_mapM]
  simp only [completes_createFound, Prod.forall, PathMap.mem_toList]
  constructor
  · intro h p hp
    obtain ⟨t, ht⟩ := PathMap.mem_iff.mp hp
    exact h p t ht
  · exact fun h p t ht => h p (PathMap.mem_iff.mpr ⟨t, ht⟩)

theorem completes_sendFound {diff : Diff} {current : FileMap} {now : TimePoint} :
    Completes (sendFound w found diff current now) ↔
      ∀ p, p ∈ diff.created ∨ p ∈ diff.modified → Steady found p := by
  have hrest : ∀ created, Completes (do
      let modified ← announceFound w found current diff.modified
      return diff.removed.toList.map (fun e => Source.remove e.1 now) ++ created ++ modified :
        Except Raised (List (List Bytes))) ↔ ∀ p ∈ diff.modified, Steady found p := by
    intro created
    rw [completes_bind_pure, completes_announceFound]
  rw [sendFound, completes_bind_of_forall fun created _ => hrest created, completes_announceFound]
  simp only [or_imp, forall_and]

/-- What is said of a set in a pass that raises nothing: a create for each file
that is there, and nothing for the others. -/
theorem announceFound_ok {current set : FileMap} {said : List (List Bytes)}
    (h : announceFound w found current set = .ok said) :
    said = set.toList.filterMap fun e => (found.content e.1).map fun bytes =>
      announce (w.generateBuf e.1 bytes) ((current[e.1]?).getD e.2) e.1 := by
  rw [announceFound] at h
  cases hm : set.toList.mapM fun e => createFound w found e.1 ((current[e.1]?).getD e.2) with
  | error raised =>
    rw [hm] at h
    cases h
  | ok each =>
    rw [hm] at h
    rw [← Except.ok.inj h, map_of_mapM (fun _ _ => createFound_ok) hm]
    exact List.filterMap_map

theorem sendFound_ok {diff : Diff} {current : FileMap} {now : TimePoint} {said : List (List Bytes)}
    (h : sendFound w found diff current now = .ok said) :
    said = diff.removed.toList.map (fun e => Source.remove e.1 now) ++
      (diff.created.toList ++ diff.modified.toList).filterMap fun e =>
        (found.content e.1).map fun bytes =>
          announce (w.generateBuf e.1 bytes) ((current[e.1]?).getD e.2) e.1 := by
  rw [sendFound] at h
  cases hc : announceFound w found current diff.created with
  | error raised =>
    rw [hc] at h
    cases h
  | ok created =>
    cases hm : announceFound w found current diff.modified with
    | error raised =>
      rw [hc, hm] at h
      cases h
    | ok modified =>
      rw [hc, hm] at h
      rw [← Except.ok.inj h, announceFound_ok hc, announceFound_ok hm, List.filterMap_append,
        List.append_assoc]

theorem createFound_error {mtime : FileTime} {raised : Raised}
    (h : createFound w found p mtime = .error raised) :
    ¬ Steady found p ∧ (raised = .fileSize p ∨ raised = .setPieceHashes p) := by
  refine ⟨fun hs => ?_, ?_⟩
  · obtain ⟨said, hsaid⟩ := completes_createFound.mpr hs
    rw [h] at hsaid
    cases hsaid
  · rw [createFound] at h
    split at h
    · cases h
    · split at h
      · exact .inl (Except.error.inj h).symm
      · split at h
        · exact .inr (Except.error.inj h).symm
        · cases h

theorem announceFound_error {current set : FileMap} {raised : Raised}
    (h : announceFound w found current set = .error raised) :
    ∃ p ∈ set, ¬ Steady found p ∧ (raised = .fileSize p ∨ raised = .setPieceHashes p) := by
  rw [announceFound] at h
  cases hm : set.toList.mapM fun e => createFound w found e.1 ((current[e.1]?).getD e.2) with
  | ok each =>
    rw [hm] at h
    cases h
  | error other =>
    rw [hm] at h
    obtain rfl : other = raised := Except.error.inj h
    obtain ⟨e, he, hraised⟩ := error_of_mapM hm
    exact ⟨e.1, PathMap.mem_iff.mpr ⟨e.2, PathMap.mem_toList.mp he⟩, createFound_error hraised⟩

theorem sendFound_error {diff : Diff} {current : FileMap} {now : TimePoint} {raised : Raised}
    (h : sendFound w found diff current now = .error raised) :
    ∃ p, (p ∈ diff.created ∨ p ∈ diff.modified) ∧ ¬ Steady found p ∧
      (raised = .fileSize p ∨ raised = .setPieceHashes p) := by
  rw [sendFound] at h
  cases hc : announceFound w found current diff.created with
  | error other =>
    rw [hc] at h
    obtain rfl : other = raised := Except.error.inj h
    obtain ⟨p, hp, hraised⟩ := announceFound_error hc
    exact ⟨p, .inl hp, hraised⟩
  | ok created =>
    cases hm : announceFound w found current diff.modified with
    | ok modified =>
      rw [hc, hm] at h
      cases h
    | error other =>
      rw [hc, hm] at h
      obtain rfl : other = raised := Except.error.inj h
      obtain ⟨p, hp, hraised⟩ := announceFound_error hm
      exact ⟨p, .inr hp, hraised⟩

/-- Where the calls answer with the files of one tree, what is said of a listing is
what the loop's own step says. -/
theorem sendFound_still {tree : Tree} (hs : ∀ p, Steady found p)
    (hf : ∀ p, found.content p = (tree.find w p).map File.content) (diff : Diff)
    (current : FileMap) (now : TimePoint) :
    sendFound w found diff current now = .ok (send w tree diff current now) := by
  obtain ⟨said, h⟩ : Completes (sendFound w found diff current now) :=
    completes_sendFound.mpr fun p _ => hs p
  rw [h, sendFound_ok h, send, announceAll, announceAll, List.append_assoc, ← List.filterMap_append]
  simp only [hf, Option.map_map]
  rfl

/-- Where the call fails at what the tree does not take away, a removal does to the
session what the loop's own does. -/
theorem eraseFound_still {path : Path} (h : found.remove path = .failed ↔ r.remove w path = none) :
    (eraseFound w found r path).toOption.map Replica.session =
      (erase w r path).toOption.map Replica.session := by
  simp only [eraseFound, erase]
  cases hr : r.remove w path with
  | none =>
    rw [if_pos (h.mpr hr)]
    rfl
  | some tree =>
    rw [if_neg fun hf => by simp [h.mp hf] at hr]
    rfl

/-- A pass makes one announcement afresh at most, for the first path it needs one for. -/
theorem completes_foldlM_publishOneFound (ps : List Path) (s : Publishing) :
    Completes (ps.foldlM (publishOneFound w found r) s) ↔
      (s.rebuilt = false → ∀ p ∈ ps.find? fun path =>
        r.former.contains path && !r.repairs.announcements.contains path,
        Steady found p) := by
  induction ps generalizing s with
  | nil => exact iff_of_true ⟨s, rfl⟩ nofun
  | cons q ps ih =>
    rw [List.foldlM_cons, List.find?_cons, publishOneFound, PathMap.contains_eq,
      PathMap.contains_eq]
    cases r.former[q]? with
    | none => exact ih s
    | some mtime =>
      cases r.repairs.announcements[q]? with
      | some announcement => exact ih _
      | none =>
        cases hs : s.rebuilt with
        | true =>
          have hrest := ih { s with waiting := s.waiting ++ [q] }
          rw [hs] at hrest
          refine hrest.trans ?_
          simp
        | false =>
          have hrest : ∀ t,
              ((fun said => { s with said := s.said ++ said.toList, rebuilt := true }) <$>
              createFound w found q mtime) = .ok t →
              (Completes (ps.foldlM (publishOneFound w found r) t) ↔ True) := by
            intro t ht
            refine (ih t).trans (iff_of_true ?_ trivial)
            cases hc : createFound w found q mtime with
            | error raised =>
              rw [hc] at ht
              cases ht
            | ok said =>
              rw [hc] at ht
              rw [← Except.ok.inj ht]
              exact fun h => nomatch h
          simp only [Bool.false_eq_true, if_false]
          rw [completes_bind_of_forall hrest, completes_map, completes_createFound, and_true]
          simp

theorem completes_repairsFound :
    Completes (repairsFound w n found) ↔
      ∀ p ∈ rebuilds n.replica n.now, Steady found p := by
  rw [repairsFound]
  dsimp only
  rw [completes_bind_pure, completes_foldlM_publishOneFound, rebuilds]
  exact ⟨fun h => h rfl, fun h _ => h⟩

theorem completes_eraseFound :
    Completes (eraseFound w found r p) ↔ found.remove p ≠ .failed := by
  rw [eraseFound]
  by_cases hr : found.remove p = .failed <;> simp [hr]

theorem completes_adoptFound {es : List (Path × TimePoint)} (hn : (es.map Prod.fst).Nodup) :
    Completes (es.foldlM (adoptOneFound w found) (r, [])) ↔
      ∀ e ∈ es, e.1 ∈ r.former → found.remove e.1 ≠ .failed := by
  refine completes_foldlM (I := fun es s => (es.map Prod.fst).Nodup ∧
    ∀ e ∈ es, e.1 ∈ s.1.former ↔ e.1 ∈ r.former) ⟨hn, fun _ _ => Iff.rfl⟩ ?_
  rintro ⟨path, moment⟩ es ⟨s, deleted⟩ ⟨hn, hlisted⟩
  obtain ⟨hnot, hn⟩ := List.nodup_cons.mp hn
  obtain ⟨hself, hrest⟩ := List.forall_mem_cons.mp hlisted
  rw [adoptOneFound]
  dsimp only at hself hrest ⊢
  cases hc : s.former.contains path with
  | false =>
    have hout : path ∉ r.former := fun h => by
      rw [Std.ExtTreeMap.contains_iff_mem.mpr (hself.mpr h)] at hc
      cases hc
    refine ⟨iff_of_true (completes_ok _) fun h => absurd h hout, fun s' hs => ⟨hn, ?_⟩⟩
    rw [← Except.ok.inj hs]
    exact hrest
  | true =>
    have hin := hself.mp (Std.ExtTreeMap.contains_iff_mem.mp hc)
    simp only [Bool.not_true, Bool.false_eq_true, if_false]
    rw [completes_bind_pure, completes_eraseFound]
    refine ⟨⟨fun h _ => h, fun h => h hin⟩, fun s' hs => ⟨hn, fun e he => ?_⟩⟩
    rw [eraseFound] at hs
    split at hs
    · cases hs
    · have hne : path ≠ e.1 := fun h => hnot (List.mem_map.mpr ⟨e, he, h.symm⟩)
      rw [← Except.ok.inj hs]
      change e.1 ∈ s.former.erase path ↔ _
      rw [Std.ExtTreeMap.mem_erase, ne_eq, Std.compare_eq_iff_eq, ← hrest e he]
      exact and_iff_right hne

theorem completes_readDigestFound :
    Completes (readDigestFound w found v clock steady r) ↔ ∀ p ∈ r.former,
      p ∈ adoptable (decodeTombstones (part v 2)) r.former r.tombstones clock →
        found.remove p ≠ .failed := by
  rw [readDigestFound]
  dsimp only
  rw [completes_bind_pure, completes_adoptFound nodup_map_fst_toList]
  constructor
  · intro h p hf ha
    obtain ⟨moment, hm⟩ := PathMap.mem_iff.mp ha
    exact h (p, moment) (PathMap.mem_toList.mpr hm) hf
  · exact fun h e he hf => h e.1 hf (PathMap.mem_iff.mpr ⟨e.2, PathMap.mem_toList.mp he⟩)

theorem reconcileFound_other {verb : Bytes} (hs : verb ≠ ascii "state")
    (hd : verb ≠ ascii "digest") : reconcileFound w found verb v clock steady r = .ok r := by
  rw [reconcileFound, if_neg hs, if_neg hd]

theorem completes_receiveFound_remove (hp : removedPath v = some p) :
    Completes (receiveFound w found (.ok v) clock steady r) ↔
      found.remove p ≠ .failed := by
  rw [receiveFound, actFound, hp, (removedPath_eq_some hp).2]
  dsimp only
  by_cases hr : found.remove p = .failed
  · rw [eraseFound, if_pos hr]
    exact iff_of_false (not_completes_error _) fun h => h hr
  · rw [eraseFound, if_neg hr]
    have hother : ∀ r, Completes (reconcileFound w found (ascii "remove") v clock steady r) :=
      fun r => ⟨r, reconcileFound_other (by decide) (by decide)⟩
    exact iff_of_true (hother _) hr

/-- What `act` raises and what it judges reach the message's own reading. -/
theorem receiveFound_judged (hn : removedPath v = none) :
    receiveFound w found (.ok v) clock steady r =
      match actAgainst w (found.lastWriteTime (announcedPath v)) v r with
      | .error _ => .error .loadTorrentBuffer
      | .ok (r, .error _) => .ok r
      | .ok (r, .ok outcome) =>
        reconcileFound w found outcome.verb v clock steady
          (match outcome.created with
          | none => r
          | some created => followFound found v created outcome r) := by
  rw [receiveFound, actFound, hn]
  dsimp only
  generalize actAgainst w (found.lastWriteTime (announcedPath v)) v r = judged
  match judged with
  | .error _ => rfl
  | .ok (_, .error _) => rfl
  | .ok (_, .ok _) => rfl

theorem completes_receiveFound_create (hv : verbOf (part v 0) = ascii "create")
    (hl : v.length = 4) :
    Completes (receiveFound w found (.ok v) clock steady r) ↔
      (Undefeated r.tombstones (announcedPath v) (originOf v) →
        (torrentOf w v).isSome = true) := by
  rw [receiveFound_judged (removedPath_create hl), actAgainst_create hv hl, torrentOf]
  have hother : ∀ r, Completes (reconcileFound w found (ascii "create") v clock steady r) :=
    fun r => ⟨r, reconcileFound_other (by decide) (by decide)⟩
  rcases actCreateAgainst_cases w (found.lastWriteTime (announcedPath v)) (ascii "create")
    (part v 1) (originOf v) (announcedPath v) r with
    ⟨hn, _, hc⟩ | ⟨hu, hload, hc⟩ | ⟨-, torrent, hload, -, _, hc⟩ | ⟨-, torrent, hload, -, hc⟩
  · rw [hc]
    exact iff_of_true (hother _) fun hu => absurd hu hn
  · rw [hc, hload]
    refine iff_of_false (not_completes_error _) fun h => ?_
    cases h hu
  · rw [hc, hload]
    exact iff_of_true (hother _) fun _ => rfl
  · rw [hc, hload]
    exact iff_of_true (hother _) fun _ => rfl

theorem completes_receiveFound_state (hv : verbOf (part v 0) = ascii "state") (hl : v.length = 3) :
    Completes (receiveFound w found (.ok v) clock steady r) := by
  obtain ⟨hn, message, ha⟩ := actAgainst_left (w := w) (r := r)
    (found.lastWriteTime (announcedPath v)) hv (by decide) hl (by decide) (by decide)
  rw [receiveFound_judged hn, ha]
  exact ⟨_, if_pos rfl⟩

theorem completes_receiveFound_digest (hv : verbOf (part v 0) = ascii "digest")
    (hl : v.length = 3) :
    Completes (receiveFound w found (.ok v) clock steady r) ↔ ∀ p ∈ r.former,
      p ∈ adoptable (decodeTombstones (part v 2)) r.former r.tombstones clock →
        found.remove p ≠ .failed := by
  obtain ⟨hn, message, ha⟩ := actAgainst_left (w := w) (r := r)
    (found.lastWriteTime (announcedPath v)) hv (by decide) hl (by decide) (by decide)
  rw [receiveFound_judged hn, ha]
  dsimp only
  rw [reconcileFound, if_neg (by decide), if_pos rfl]
  exact completes_readDigestFound

/-- A message ends the loop by a torrent that cannot be loaded, or by a removal refused. -/
theorem completes_receiveFound :
    Completes (receiveFound w found (.ok v) clock steady r) ↔ Harmless w found r clock v := by
  have hcreate : verbOf (part v 0) = ascii "create" → v.length = 4 →
      partsFor (part v 0) = some v.length :=
    fun hv hl => hl ▸ partsFor_of_verbOf hv (by decide)
  have hdigest : verbOf (part v 0) = ascii "digest" → v.length = 3 →
      partsFor (part v 0) = some v.length :=
    fun hv hl => hl ▸ partsFor_of_verbOf hv (by decide)
  have hremove : ∀ p, removedPath v = some p → partsFor (part v 0) = some v.length := by
    intro p hp
    obtain ⟨hl, hv⟩ := removedPath_eq_some hp
    exact hl ▸ partsFor_of_verbOf hv (by decide)
  by_cases hw : partsFor (part v 0) = some v.length
  · have hnone : ∀ {verb : Bytes}, verbOf (part v 0) = verb → verb ≠ ascii "remove" →
        ∀ p ∈ removedPath v, found.remove p ≠ .failed :=
      fun hv hne p hp => absurd (hv.symm.trans (removedPath_eq_some hp).2) hne
    rcases wellFormed_cases hw with ⟨hv, hl⟩ | ⟨q, hq⟩ | ⟨hv, hl⟩ | ⟨hv, hl⟩
    · rw [completes_receiveFound_create hv hl]
      exact ⟨fun h => ⟨fun _ _ => h, hnone hv (by decide),
        fun hd => absurd (hv.symm.trans hd) (by decide)⟩, fun h => h.loads hv hl⟩
    · have hv := (removedPath_eq_some hq).2
      rw [completes_receiveFound_remove hq]
      refine ⟨fun h => ⟨fun hc => absurd (hv.symm.trans hc) (by decide), fun p hp => ?_,
        fun hd => absurd (hv.symm.trans hd) (by decide)⟩, fun h => h.removes q hq⟩
      obtain rfl := Option.some.inj (hq.symm.trans hp)
      exact h
    · refine iff_of_true (completes_receiveFound_state hv hl) ⟨?_, hnone hv (by decide), ?_⟩
      · exact fun hc => absurd (hv.symm.trans hc) (by decide)
      · exact fun hd => absurd (hv.symm.trans hd) (by decide)
    · rw [completes_receiveFound_digest hv hl]
      exact ⟨fun h => ⟨fun hc => absurd (hv.symm.trans hc) (by decide), hnone hv (by decide),
        fun _ _ => h⟩, fun h => h.adopts hv hl⟩
  · have hn : removedPath v = none := by
      cases h : removedPath v with
      | none => rfl
      | some p => exact absurd (hremove p h) hw
    obtain ⟨error, ha⟩ := actAgainst_malformed (w := w) (r := r)
      (found.lastWriteTime (announcedPath v)) hw
    rw [receiveFound_judged hn, ha]
    refine iff_of_true (completes_ok _) ⟨fun hv hl => absurd (hcreate hv hl) hw, fun p hp => ?_,
      fun hv hl => absurd (hdigest hv hl) hw⟩
    exact absurd (hremove p hp) hw

theorem completes_listFound (found : Found) :
    Completes (listFound w n found) ↔ ∀ p,
      p ∈ (changesIn n (listing found.walk)).1.created ∨
        p ∈ (changesIn n (listing found.walk)).1.modified →
          Steady found.sending p := by
  rw [listFound, completes_bind_pure, completes_sendFound]

theorem listFound_ok {found : Found} (h : listFound w n found = .ok m) :
    m.replica = n.relisted (listing found.walk) ∧ m.now = n.now ∧ m.clock = n.clock := by
  rw [listFound] at h
  cases hs : sendFound w found.sending (changesIn n (listing found.walk)).1
    (listing found.walk) n.clock with
  | error raised =>
    rw [hs] at h
    cases h
  | ok said =>
    rw [hs] at h
    rw [← Except.ok.inj h]
    exact ⟨rfl, rfl, rfl⟩

theorem repairsFound_ok (h : repairsFound w n found = .ok m) :
    m.replica.former = n.replica.former ∧ m.replica.tombstones = n.replica.tombstones ∧
      m.clock = n.clock := by
  rw [repairsFound] at h
  dsimp only at h
  cases hp : (due n.replica.repairs.pending n.now).1.foldlM
    (publishOneFound w found n.replica) ⟨[], [], false⟩ with
  | error raised =>
    rw [hp] at h
    cases h
  | ok p =>
    rw [hp] at h
    rw [← Except.ok.inj h]
    exact ⟨rfl, rfl, rfl⟩

theorem Harmless.congr (h : Harmless w found r clock v) (hf : r'.former = r.former)
    (ht : r'.tombstones = r.tombstones) : Harmless w found r' clock v where
  loads := ht ▸ h.loads
  removes := h.removes
  adopts := by
    rw [hf, ht]
    exact h.adopts

theorem completes_wakeFound {found : Found} {driven : Bool} :
    Completes (wakeFound w n found driven) ↔ (driven = true → ∀ p,
      p ∈ (changesIn n (listing found.walk)).1.created ∨
        p ∈ (changesIn n (listing found.walk)).1.modified →
          Steady found.sending p) := by
  cases driven with
  | true => exact (completes_listFound found).trans ⟨fun h _ => h, fun h => h rfl⟩
  | false => exact iff_of_true ⟨n, rfl⟩ nofun

theorem wakeFound_ok {found : Found} {driven : Bool} (h : wakeFound w n found driven = .ok m) :
    m.replica = n.afterListing found driven ∧ m.now = n.now ∧ m.clock = n.clock := by
  cases driven with
  | true => exact listFound_ok h
  | false =>
    rw [← Except.ok.inj h]
    exact ⟨rfl, rfl, rfl⟩

theorem completes_answerFound {found : Found} {message : Option (Except Bytes (List Bytes))}
    (hf : n.replica.former = r.former) (ht : n.replica.tombstones = r.tombstones) :
    Completes (answerFound w n found message) ↔
      ∀ v, message = some (.ok v) → Harmless w found.receiving r n.clock v := by
  match message with
  | none => exact iff_of_true ⟨n, rfl⟩ nofun
  | some (.error _) => exact iff_of_true ⟨n, rfl⟩ nofun
  | some (.ok v) =>
    rw [answerFound, completes_map, completes_receiveFound]
    constructor
    · intro h v' hv
      obtain rfl := Except.ok.inj (Option.some.inj hv)
      exact h.congr hf.symm ht.symm
    · exact fun h => (h v rfl).congr hf ht

private theorem publishState_kept (draw : ℕ) :
    let m := if stateDue n then publishState w n draw else n
    m.replica.former = n.replica.former ∧ m.replica.tombstones = n.replica.tombstones ∧
      m.replica.repairs = n.replica.repairs ∧ m.now = n.now ∧ m.clock = n.clock := by
  dsimp only
  split
  · exact ⟨rfl, rfl, rfl, rfl, rfl⟩
  · exact ⟨rfl, rfl, rfl, rfl, rfl⟩

def Answers.nothing : Answers where
  entry _ := false
  fileSize _ := none
  setPieceHashes _ _ := none
  remove _ := .absent
  lastWriteTime _ := none
  beforeStamp _ := none
  afterStamp _ := none

def Found.nothing : Found := ⟨[], .nothing, .nothing, .nothing⟩

/-- A pass that is asked to take something away that cannot be. -/
def Found.standing : Found :=
  { Found.nothing with receiving := { Answers.nothing with remove := fun _ => .failed } }

/-- A file that is listed and looked up, and gone before it is read. -/
def Found.vanishing : Found :=
  { Found.nothing with
    walk := [⟨samplePath, some (toFileTime 900), some true, some false⟩]
    sending := { Answers.nothing with entry := fun _ => true } }

end SyncFs
