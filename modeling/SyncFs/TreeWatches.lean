import SyncFs.CharConversions
import SyncFs.DirectoryTrees
import SyncFs.LabelledRuns

/-!
# Watching the tree

The monitor, the two walks of the tree and the part of the sync loop that they
decide, one system call a step, so that other processes come in between any
two. An event is kept as its descriptor and its mask: the name in it is read
nowhere in the loop.
-/

namespace SyncFs.Monitor

open CharConversions DirectoryTrees LabelledRuns

abbrev TreePath := List Bytes

abbrev Mask := UInt32

def closeWrite : Mask := 0x8
def movedFrom : Mask := 0x40
def movedTo : Mask := 0x80
def created : Mask := 0x100
def deleted : Mask := 0x200
def ignored : Mask := 0x8000
def isDir : Mask := 0x40000000

def drivesSync (mask : Mask) : Bool := mask &&& created == 0 || mask &&& isDir != 0

def reshapesTree (mask : Mask) : Bool := mask &&& (isDir ||| ignored) != 0

structure RawEvent where
  wd : ℕ
  mask : Mask
  deriving DecidableEq

/-- What a walk of the tree is for: the first listing, the resync of the
constructor, of `next_event` and of `discard`, and the listing of the loop. -/
inductive Job
  | startList
  | startSync
  | wakeSync
  | discardSync
  | list
  deriving DecidableEq

/-- A resync watches what it walks over, a listing notes it down. -/
def Job.syncs : Job → Bool
  | .startList | .list => false
  | .startSync | .wakeSync | .discardSync => true

inductive Pc
  | construct
  | drop (job : Job) (entries : List (ℕ × TreePath))
  | unwatch (job : Job) (wd : ℕ) (entries : List (ℕ × TreePath))
  | addRoot (job : Job)
  | opening (job : Job)
  | walking (job : Job) (walk : Walk Bytes)
  /-- The entry the walk stands at has been seen to. -/
  | handled (job : Job) (walk : Walk Bytes)
  | enter
  | top
  | sift
  | discard
  deriving DecidableEq

structure State where
  tree : DirTree Bytes
  /-- The kernel's watches: the descriptor and the directory it is on. -/
  table : List (ℕ × ℕ)
  nextWd : ℕ
  queue : List RawEvent
  watches : List (ℕ × TreePath)
  batch : List Mask
  current : List TreePath
  former : List TreePath
  pc : Pc

def start (tree : DirTree Bytes) : State :=
  ⟨tree, [], 1, [], [], [], [], [], .opening .startList⟩

/-! ### Other processes -/

/-- What others do in a directory. It need not be one below the root. -/
inductive Change
  | create (d : ℕ) (n : Bytes)
  | mkdir (d : ℕ) (n : Bytes)
  | close (d : ℕ) (n : Bytes)
  | unlink (d : ℕ) (n : Bytes)
  | rmdir (d : ℕ) (n : Bytes)
  | rename (d : ℕ) (n : Bytes) (e : ℕ) (m : Bytes)
  deriving DecidableEq

/-- The bare creation of a regular file. -/
def Change.bare : Change → Bool
  | .create _ _ => true
  | _ => false

/-- What a change leaves: the tree, the events it queues on the directories that
are watched, and the directory it takes out of existence. -/
structure Effect where
  tree : DirTree Bytes
  notes : List (ℕ × Mask)
  gone : Option ℕ

/-- What the kernel sets in the mask for a directory. -/
def dirBit : Target → Mask
  | .directory _ => isDir
  | .file _ => 0

/-- Whether a name may be renamed over: a file by a file, a directory by a
directory if it is empty. -/
def replaceable (t : DirTree Bytes) (moved : Target) : Option (Link Bytes) → Bool
  | none => true
  | some l =>
    match moved, l.target with
    | .file _, .file _ => true
    | .directory _, .directory i => (t.listing i).isEmpty
    | _, _ => false

/-- A directory is never moved to below itself, and what would then be cut off
is of no concern: the refusal is not modelled. -/
def Change.effect (t : DirTree Bytes) : Change → Option Effect
  | .create d n =>
    if t.lookup d n = none then some ⟨t.put d n (.file false), [(d, created)], none⟩ else none
  | .mkdir d n =>
    if t.lookup d n = none then
      some ⟨t.put d n (.directory t.next), [(d, created ||| isDir)], none⟩
    else none
  | .close d n =>
    match t.lookup d n with
    | some ⟨id, dir, name, .file _⟩ =>
      some ⟨t.set ⟨id, dir, name, .file true⟩, [(d, closeWrite)], none⟩
    | _ => none
  | .unlink d n =>
    match t.lookup d n with
    | some ⟨_, _, _, .file _⟩ => some ⟨t.remove d n, [(d, deleted)], none⟩
    | _ => none
  | .rmdir d n =>
    match t.lookup d n with
    | some ⟨_, _, _, .directory i⟩ =>
      if (t.listing i).isEmpty then
        some ⟨t.remove d n, [(d, deleted ||| isDir)], some i⟩
      else none
    | _ => none
  | .rename d n e m =>
    match t.lookup d n with
    | some l =>
      if ¬ (d = e ∧ n = m) ∧ replaceable t l.target (t.lookup e m) then
        some ⟨(t.remove d n).put e m l.target,
          [(d, movedFrom ||| dirBit l.target), (e, movedTo ||| dirBit l.target)],
          (t.lookup e m).bind fun k => k.target.inode⟩
      else none
    | none => none

namespace State

def watched (n : State) (i : ℕ) : Prop := ∃ wd, (wd, i) ∈ n.table

def notify (n : State) (d : ℕ) (mask : Mask) : State :=
  { n with queue := n.queue ++ (n.table.filter fun x => x.2 = d).map fun x => ⟨x.1, mask⟩ }

/-- Takes watches away, which queues `IN_IGNORED` for each. -/
def unwatch (n : State) (f : ℕ × ℕ → Bool) : State :=
  { n with
    table := n.table.filter fun x => !f x
    queue := n.queue ++ (n.table.filter f).map fun x => ⟨x.1, ignored⟩ }

def apply (n : State) (e : Effect) : State :=
  let noted := e.notes.foldl (fun n x => n.notify x.1 x.2) { n with tree := e.tree }
  match e.gone with
  | some i => noted.unwatch fun x => x.2 = i
  | none => noted

def change (n : State) (c : Change) : Option State := (c.effect n.tree).map n.apply

/-! ### The monitor -/

def mapWatch (n : State) (wd : ℕ) (path : TreePath) : State :=
  { n with watches := (wd, path) :: n.watches.filter fun x => x.1 ≠ wd }

/-- `Monitor::add_watch`. A directory that is watched already keeps its
descriptor, one that has disappeared is passed over. -/
def addWatch (n : State) (path : TreePath) : State :=
  match n.tree.walk root path with
  | none => n
  | some i =>
    match n.table.find? fun x => x.2 = i with
    | some x => n.mapWatch x.1 path
    | none => { n with table := (n.nextWd, i) :: n.table, nextWd := n.nextWd + 1 }.mapWatch
        n.nextWd path

def rmWatch (n : State) (wd : ℕ) : State :=
  let n := n.unwatch fun x => x.1 = wd
  { n with watches := n.watches.filter fun x => x.1 ≠ wd }

/-- `_read` of so many events, which make up the batch. -/
def refill (n : State) (count : ℕ) : State :=
  let raw := n.queue.take count
  { n with
    queue := n.queue.drop count
    batch := raw.map (·.mask)
    watches := n.watches.filter fun x => raw.all fun r => !(r.wd = x.1 && r.mask &&& ignored != 0) }

/-- Notes a path down if the entry was a regular file and its time can still be
read. -/
def record (n : State) (path : TreePath) (l : Link Bytes) : State :=
  if l.target.inode = none ∧ (n.tree.find root path).isSome then
    { n with current := path :: n.current }
  else n

/-- The body of either walk. -/
def handle (n : State) (job : Job) (w : Walk Bytes) (l : Link Bytes) : State :=
  if job.syncs then
    if l.target.inode.isSome then n.addWatch w.here else n
  else n.record w.here l

def finish (n : State) : Job → State
  | .startList => { n with former := n.current, pc := .construct }
  | .startSync => { n with pc := .enter }
  | .wakeSync => { n with pc := .sift }
  | .discardSync => { n with pc := .opening .list }
  | .list => { n with former := n.current, pc := .top }

def resume (n : State) (job : Job) (w : Walk Bytes) : State :=
  if w.stack = [] then n.finish job else { n with pc := .walking job w }

end State

/-! ### The daemon -/

inductive Event
  | others (c : Change)
  /-- The next thing the daemon does, where there is only one. -/
  | advance
  /-- `readdir` gives an entry, or none. -/
  | read (l : Link Bytes)
  | leave
  /-- The events of one `_read`, as many as fit. -/
  | poll (count : ℕ)
  deriving DecidableEq

def State.advance (n : State) : Option State :=
  match n.pc with
  | .construct => some
      { n.addWatch [] with pc := .drop .startSync (n.addWatch []).watches }
  | .drop job [] => some { n with pc := .addRoot job }
  | .drop job ((wd, path) :: entries) =>
    if (n.tree.walk root path).isSome then some { n with pc := .drop job entries }
    else some { n with pc := .unwatch job wd entries }
  | .unwatch job wd entries => some { n.rmWatch wd with pc := .drop job entries }
  | .addRoot job => some { n.addWatch [] with pc := .opening job }
  | .opening job => some { n with current := [], pc := .walking job (.start n.tree) }
  | .walking job w => w.entry.map fun l => { n.handle job w l with pc := .handled job w }
  | .handled job w => (w.descend n.tree).map (n.resume job)
  | .enter => some { n with pc := .top }
  | .top => if n.batch = [] then none else some { n with pc := .sift }
  | .sift =>
    match n.batch with
    | [] => some { n with pc := .top }
    | mask :: batch =>
      -- The event that drives the loop is put back, for `discard` to consume.
      if drivesSync mask then some { n with pc := .discard } else some { n with batch := batch }
  | .discard => if n.batch = [] then none else some
      { n with batch := [], pc := .drop .discardSync n.watches }

def step (n : State) : Event → Option State
  | .others c => n.change c
  | .advance => n.advance
  | .read l =>
    match n.pc with
    | .walking job w => (w.read n.tree l).map fun w => { n with pc := .walking job w }
    | _ => none
  | .leave =>
    match n.pc with
    | .walking job w => (w.leave n.tree).map (n.resume job)
    | _ => none
  | .poll count =>
    match n.pc with
    | .top =>
      if n.batch = [] ∧ 0 < count ∧ count ≤ n.queue.length then
        let m := n.refill count
        some { m with pc :=
          if m.batch.any reshapesTree then .drop .wakeSync m.watches else .sift }
      else none
    | _ => none

inductive Stepped (n : State) : Event → State → Prop
  | others {c : Change} {m : State} (h : n.change c = some m) : Stepped n (.others c) m
  | construct (hp : n.pc = .construct) :
    Stepped n .advance { n.addWatch [] with pc := .drop .startSync (n.addWatch []).watches }
  | dropped {j : Job} (hp : n.pc = .drop j []) : Stepped n .advance { n with pc := .addRoot j }
  | keep {j : Job} {x : ℕ × TreePath} {entries : List (ℕ × TreePath)}
    (hp : n.pc = .drop j (x :: entries)) : Stepped n .advance { n with pc := .drop j entries }
  | lost {j : Job} {x : ℕ × TreePath} {entries : List (ℕ × TreePath)}
    (hp : n.pc = .drop j (x :: entries)) : Stepped n .advance { n with pc := .unwatch j x.1 entries }
  | unwatch {j : Job} {wd : ℕ} {entries : List (ℕ × TreePath)} (hp : n.pc = .unwatch j wd entries) :
    Stepped n .advance { n.rmWatch wd with pc := .drop j entries }
  | addRoot {j : Job} (hp : n.pc = .addRoot j) :
    Stepped n .advance { n.addWatch [] with pc := .opening j }
  | opening {j : Job} (hp : n.pc = .opening j) :
    Stepped n .advance { n with current := [], pc := .walking j (.start n.tree) }
  | handle {j : Job} {w : Walk Bytes} {l : Link Bytes} (hp : n.pc = .walking j w)
    (hl : w.entry = some l) : Stepped n .advance { n.handle j w l with pc := .handled j w }
  | descend {j : Job} {w v : Walk Bytes} (hp : n.pc = .handled j w)
    (hw : w.descend n.tree = some v) : Stepped n .advance (n.resume j v)
  | enter (hp : n.pc = .enter) : Stepped n .advance { n with pc := .top }
  | pass (hp : n.pc = .top) : Stepped n .advance { n with pc := .sift }
  | sifted (hp : n.pc = .sift) (hb : n.batch = []) : Stepped n .advance { n with pc := .top }
  | drives {mask : Mask} (hp : n.pc = .sift) (hb : mask ∈ n.batch) (hd : drivesSync mask = true) :
    Stepped n .advance { n with pc := .discard }
  | idle {mask : Mask} {batch : List Mask} (hp : n.pc = .sift) (hb : n.batch = mask :: batch)
    (hd : drivesSync mask = false) : Stepped n .advance { n with batch := batch }
  | discard (hp : n.pc = .discard) :
    Stepped n .advance { n with batch := [], pc := .drop .discardSync n.watches }
  | read {j : Job} {w v : Walk Bytes} {l : Link Bytes} (hp : n.pc = .walking j w)
    (hw : w.read n.tree l = some v) : Stepped n (.read l) { n with pc := .walking j v }
  | leave {j : Job} {w v : Walk Bytes} (hp : n.pc = .walking j w)
    (hw : w.leave n.tree = some v) : Stepped n .leave (n.resume j v)
  | poll {count : ℕ} {pc : Pc} (hp : n.pc = .top) (hb : n.batch = [])
    (hpc : (∃ watches, pc = .drop .wakeSync watches) ∨ pc = .sift) :
    Stepped n (.poll count) { n.refill count with pc := pc }

theorem stepped {n m : State} {e : Event} (h : step n e = some m) : Stepped n e m := by
  cases e with
  | others c => exact .others h
  | advance =>
    change n.advance = some m at h
    rw [State.advance] at h
    split at h
    · next hp => exact Option.some.inj h ▸ .construct hp
    · next hp => exact Option.some.inj h ▸ .dropped hp
    · next job wd path entries hp =>
      split_ifs at h
      · exact Option.some.inj h ▸ .keep hp
      · exact Option.some.inj h ▸ .lost hp
    · next hp => exact Option.some.inj h ▸ .unwatch hp
    · next hp => exact Option.some.inj h ▸ .addRoot hp
    · next hp => exact Option.some.inj h ▸ .opening hp
    · next hp =>
      obtain ⟨l, hl, rfl⟩ := Option.map_eq_some_iff.mp h
      exact .handle hp hl
    · next hp =>
      obtain ⟨w, hw, rfl⟩ := Option.map_eq_some_iff.mp h
      exact .descend hp hw
    · next hp => exact Option.some.inj h ▸ .enter hp
    · next hp =>
      obtain ⟨-, hm⟩ := Option.ite_none_left_eq_some.mp h
      exact Option.some.inj hm ▸ .pass hp
    · next hp =>
      split at h
      · next hb => exact Option.some.inj h ▸ .sifted hp hb
      · next mask batch hb =>
        split_ifs at h with hd
        · exact Option.some.inj h ▸ .drives hp (hb ▸ List.mem_cons_self) hd
        · exact Option.some.inj h ▸ .idle hp hb (Bool.eq_false_iff.mpr hd)
    · next hp =>
      obtain ⟨-, hm⟩ := Option.ite_none_left_eq_some.mp h
      exact Option.some.inj hm ▸ .discard hp
  | read l =>
    rw [step] at h
    split at h
    · next hp =>
      obtain ⟨w, hw, rfl⟩ := Option.map_eq_some_iff.mp h
      exact .read hp hw
    · cases h
  | leave =>
    rw [step] at h
    split at h
    · next hp =>
      obtain ⟨w, hw, rfl⟩ := Option.map_eq_some_iff.mp h
      exact .leave hp hw
    · cases h
  | poll count =>
    rw [step] at h
    split at h
    · next hp =>
      obtain ⟨⟨hb, -⟩, hm⟩ := Option.ite_none_right_eq_some.mp h
      refine Option.some.inj hm ▸ .poll hp hb ?_
      split_ifs
      · exact .inl ⟨_, rfl⟩
      · exact .inr rfl
    · cases h

end SyncFs.Monitor
