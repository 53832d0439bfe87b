import Mathlib.Data.List.Infix
import SyncFs.Disks

/-!
# What the system finds

A call hands the system its path as a C string, and the system follows it name
by name from the directory it starts in: it reads no further than a NUL, and a
dot or a dot-dot leads on only from a directory that is there. Links, permissions
and limits on the length of a name are left out.
-/

namespace SyncFs

open CharConversions

/-- The regular files under the root, and the directories with the time of each. -/
structure Tree where
  disk : Disk
  directories : PathMap FileTime

/-- The directories a path leads through, but for the root and those above it. -/
def Path.above (p : Path) : List Path :=
  (p.parts.inits.filter fun names => names.length < p.parts.length &&
    names.any fun c => c ≠ dot && c ≠ dotDot).map (⟨false, ·⟩)

/-- The directories that files stand in. -/
def Disk.directories (disk : Disk) (time : FileTime) : PathMap FileTime :=
  .ofList ((disk.keys.flatMap Path.above).map fun path => (path, time)) compare

inductive LookupError
  | missing
  | notDirectory
  deriving DecidableEq

/-- The elements of a path up to its first NUL. -/
def Path.upToNul : List Bytes → List Bytes
  | [] => []
  | c :: cs => if nul ∈ c then [c.takeWhile (· ≠ nul)] else c :: upToNul cs

/-- One element on from a place. -/
def Path.enter (place : List Bytes) (c : Bytes) : List Bytes :=
  if c = [] ∨ c = dot then place else if c = dotDot then place.dropLast else place ++ [c]

namespace World

variable (w : World)

def base (p : Path) : List Bytes := if p.rooted then [] else w.root.parts

/-- The place a path leads to, if it leads anywhere. -/
def destination (p : Path) : Path :=
  w.named ((Path.upToNul p.parts).foldl Path.enter (w.base p))

end World

namespace Tree

def properPrefix (a b : List Bytes) : Bool := a.isPrefixOf b && a.length < b.length

def below (tree : Tree) (spot : Path) : Bool :=
  let holds (p : Path) := properPrefix (Path.dropTrailing spot.parts) p.parts
  tree.disk.keys.any holds || tree.directories.keys.any holds

def through (tree : Tree) (spot : Path) : Bool :=
  tree.disk.keys.any fun p => properPrefix p.parts spot.parts

def obstructed (tree : Tree) (spot : Path) : Bool := tree.below spot || tree.through spot

def blocked (tree : Tree) (spot : Path) : Bool :=
  tree.directories.contains spot || tree.obstructed spot

def houses (tree : Tree) (spot : Path) : Bool := spot.above.all tree.directories.contains

/-- The directories once one of them is given a time, or taken away. One that is
new stands in a directory and where no file is, and what has something in it stays. -/
def changeDirectory (tree : Tree) (path : Path) (time : Option FileTime) :
    Option (PathMap FileTime) :=
  match time with
  | some t =>
    if tree.disk.contains path || tree.through path || !tree.houses path then none
    else some (tree.directories.insert path t)
  | none => if tree.below path then none else some (tree.directories.erase path)

section

variable (w : World)

/-- Whether a place is a directory: one that leads to the root, or one in the tree. -/
def isDirectory (tree : Tree) (place : List Bytes) : Bool :=
  let spot := w.named place
  place.isPrefixOf w.root.parts ||
    !tree.disk.contains spot && (tree.directories.contains spot || tree.below spot)

/-- Follows elements from a place on. A name may be of what is not there; a dot
or a dot-dot may only follow a directory. -/
def walk (tree : Tree) : List Bytes → List Bytes → Except LookupError (List Bytes)
  | place, [] => .ok place
  | place, c :: cs =>
    if c ∉ [[], dot, dotDot] ∨ tree.isDirectory w place then walk tree (Path.enter place c) cs
    else if tree.disk.contains (w.named place) || tree.through (w.named place) then
      .error .notDirectory
    else .error .missing

/-- Where the system finds a path. The empty text leads nowhere. -/
def follow (tree : Tree) (p : Path) : Except LookupError (List Bytes) :=
  let parts := Path.upToNul p.parts
  if p.rooted = false ∧ parts.headD [] = [] then .error .missing
  else tree.walk w (w.base p) parts

/-- The same, named as a listing would name it. -/
def locate (tree : Tree) (p : Path) : Option Path :=
  match tree.follow w p with
  | .error _ => none
  | .ok place => some (w.named place)

def find (tree : Tree) (p : Path) : Option File := (tree.locate w p).bind fun spot => tree.disk[spot]?

/-- `last_write_time`, of a file or a directory; nothing where it reports an error. -/
def lastWriteTime (tree : Tree) (p : Path) : Option FileTime :=
  (tree.locate w p).bind fun spot =>
    ((tree.disk[spot]?).map File.mtime).or tree.directories[spot]?

/-- `stamp`: puts a time on what is there. -/
def stamp (tree : Tree) (p : Path) (t : FileTime) : Tree :=
  match tree.locate w p with
  | none => tree
  | some spot =>
    { disk := tree.disk.modify spot fun file => { file with mtime := t }
      directories := tree.directories.modify spot fun _ => t }

/-- Whether a path ends in a dot or a dot-dot, slashes aside. -/
def endsInDots (p : Path) : Bool :=
  match (Path.dropTrailing (Path.upToNul p.parts)).getLast? with
  | none => false
  | some c => c = dot || c = dotDot

/-- `remove`, of a file or an empty directory. It raises on any failure but the
path not being there. -/
def remove (tree : Tree) (p : Path) : Option Tree :=
  match tree.follow w p with
  | .error .missing => some tree
  | .error .notDirectory => none
  | .ok place =>
    let spot := w.named place
    if tree.disk.contains spot then some { tree with disk := tree.disk.erase spot }
    else if tree.isDirectory w place then
      if place.isPrefixOf w.root.parts || tree.below spot || endsInDots p then none
      else some { tree with directories := tree.directories.erase spot }
    else if tree.through spot then none
    else some tree

end

variable {w : World} {tree tree' : Tree} {p q spot : Path} {file : File}

theorem upToNul_eq_self {cs : List Bytes} (h : ∀ c ∈ cs, nul ∉ c) : Path.upToNul cs = cs := by
  induction cs with
  | nil => rfl
  | cons c cs ih =>
    rw [Path.upToNul, if_neg (h c List.mem_cons_self),
      ih fun x hx => h x (List.mem_cons_of_mem c hx)]

theorem walk_plain {place cs : List Bytes} (h : ∀ c ∈ cs, Path.Plain c) :
    tree.walk w place cs = .ok (place ++ cs) := by
  induction cs generalizing place with
  | nil => rw [walk, List.append_nil]
  | cons c cs ih =>
    obtain ⟨hn, hd, hdd, -, -⟩ := h c List.mem_cons_self
    rw [walk, if_pos (.inl (by simp [hn, hd, hdd])), ih fun x hx => h x (List.mem_cons_of_mem c hx)]
    simp [Path.enter, hn, hd, hdd]

theorem walk_ok {place cs reached : List Bytes} (h : tree.walk w place cs = .ok reached) :
    reached = cs.foldl Path.enter place := by
  induction cs generalizing place with
  | nil => exact (Except.ok.inj h).symm
  | cons c cs ih =>
    rw [walk] at h
    split at h
    · exact ih h
    · split at h <;> cases h

/-- The tree decides whether a path leads anywhere, and not where to. -/
theorem locate_eq_some (h : tree.locate w p = some q) : w.destination p = q := by
  rw [locate, follow] at h
  split at h
  · cases h
  · next place hf =>
    split at hf
    · cases hf
    · rw [← Option.some.inj h, walk_ok hf, World.destination]

/-- A listing key is followed to its place whatever the tree. -/
theorem follow_key (h : p.IsKey) : tree.follow w p = .ok (w.root.parts ++ p.parts.tail) := by
  have hdot : tree.isDirectory w w.root.parts = true := by simp [isDirectory]
  have hhead : ¬ (p.rooted = false ∧ p.parts.headD [] = []) := by
    rw [h.parts_eq]
    exact fun he => absurd he.2 (List.cons_ne_nil _ _)
  have hwalk : tree.walk w w.root.parts p.parts = .ok (w.root.parts ++ p.parts.tail) := by
    rw [h.parts_eq, walk, if_pos (.inr hdot), Path.enter, if_pos (.inr rfl), walk_plain h.2.2.2,
      List.tail_cons]
  rw [follow, upToNul_eq_self fun c hc => (h.mem_parts hc).2.2, if_neg hhead, World.base,
    if_neg (by rw [h.1]; exact Bool.false_ne_true), hwalk]

theorem locate_key (h : p.IsKey) : tree.locate w p = some p := by
  rw [locate, follow_key h]
  exact congrArg some (w.named_key h)

theorem destination_key (h : p.IsKey) : w.destination p = p :=
  locate_eq_some (locate_key h : locate w ⟨∅, ∅⟩ p = some p)

theorem find_key (h : p.IsKey) : tree.find w p = tree.disk[p]? := by
  rw [find, locate_key h, Option.bind_some]

theorem find_eq_some : tree.find w p = some file ↔
    ∃ spot, tree.locate w p = some spot ∧ tree.disk[spot]? = some file := by
  rw [find, Option.bind_eq_some_iff]

/-- A file that is found is the one at the place the path leads to. -/
theorem find_destination (h : tree.find w p = some file) :
    tree.disk[w.destination p]? = some file := by
  obtain ⟨spot, hl, hf⟩ := find_eq_some.mp h
  rw [locate_eq_some hl, hf]

theorem lastWriteTime_key (h : p.IsKey) :
    tree.lastWriteTime w p = ((tree.disk[p]?).map File.mtime).or tree.directories[p]? := by
  rw [lastWriteTime, locate_key h, Option.bind_some]

theorem lastWriteTime_clear (h : p.IsKey) (hd : p ∉ tree.directories) :
    tree.lastWriteTime w p = (tree.disk[p]?).map File.mtime := by
  rw [lastWriteTime_key h, PathMap.notMem_iff.mp hd, Option.or_none]

theorem lastWriteTime_of_find (h : tree.find w p = some file) :
    tree.lastWriteTime w p = some file.mtime := by
  obtain ⟨spot, hl, hf⟩ := find_eq_some.mp h
  rw [lastWriteTime, hl, Option.bind_some, hf]
  rfl

theorem find_of_lastWriteTime (h : tree.lastWriteTime w p = none) : tree.find w p = none := by
  rw [← Option.not_isSome_iff_eq_none, Option.isSome_iff_exists]
  rintro ⟨file, hf⟩
  rw [lastWriteTime_of_find hf] at h
  cases h

section

/-- Two trees with a file, and with a directory, in the same places. -/
structure SamePlaces (tree tree' : Tree) : Prop where
  disk : ∀ q, q ∈ tree.disk ↔ q ∈ tree'.disk
  directories : ∀ q, q ∈ tree.directories ↔ q ∈ tree'.directories

private theorem contains_congr {β : Type} {m m' : PathMap β} (h : ∀ q, q ∈ m ↔ q ∈ m')
    (q : Path) : m.contains q = m'.contains q := by
  rw [Bool.eq_iff_iff, Std.ExtTreeMap.contains_iff_mem, Std.ExtTreeMap.contains_iff_mem, h]

private theorem any_keys_congr {β : Type} {m m' : PathMap β} (h : ∀ q, q ∈ m ↔ q ∈ m')
    (f : Path → Bool) : m.keys.any f = m'.keys.any f := by
  rw [Bool.eq_iff_iff, List.any_eq_true, List.any_eq_true]
  simp only [Std.ExtTreeMap.mem_keys, h]

theorem SamePlaces.isDirectory (h : SamePlaces tree tree') (place : List Bytes) :
    tree.isDirectory w place = tree'.isDirectory w place := by
  simp only [Tree.isDirectory, below, contains_congr h.disk, contains_congr h.directories,
    any_keys_congr h.disk, any_keys_congr h.directories]

theorem SamePlaces.walk (h : SamePlaces tree tree') (place cs : List Bytes) :
    tree.walk w place cs = tree'.walk w place cs := by
  induction cs generalizing place with
  | nil => rfl
  | cons c cs ih =>
    simp only [Tree.walk, ih, h.isDirectory, through, contains_congr h.disk,
      any_keys_congr h.disk]
    rfl

theorem SamePlaces.locate (h : SamePlaces tree tree') (p : Path) :
    tree.locate w p = tree'.locate w p := by
  rw [Tree.locate, Tree.locate, follow, follow]
  simp only [h.walk (w := w)]

end

theorem samePlaces_stamp (t : FileTime) : SamePlaces (tree.stamp w p t) tree := by
  rw [stamp]
  cases tree.locate w p with
  | none => exact ⟨fun _ => Iff.rfl, fun _ => Iff.rfl⟩
  | some spot => exact ⟨fun _ => Std.ExtTreeMap.mem_modify, fun _ => Std.ExtTreeMap.mem_modify⟩

@[simp] theorem locate_stamp {t : FileTime} : (tree.stamp w p t).locate w q = tree.locate w q :=
  (samePlaces_stamp t).locate q

theorem lastWriteTime_stamp {time t : FileTime} (h : tree.lastWriteTime w p = some time) :
    (tree.stamp w p t).lastWriteTime w p = some t := by
  rw [lastWriteTime, locate_stamp]
  rw [lastWriteTime] at h
  obtain ⟨spot, hl, ht⟩ := Option.bind_eq_some_iff.mp h
  rw [stamp, hl]
  simp only [Option.bind_some, Std.ExtTreeMap.getElem?_modify_self]
  cases hf : tree.disk[spot]? with
  | some file => rfl
  | none =>
    rw [hf, Option.map_none, Option.none_or] at ht
    rw [ht]
    rfl

@[simp] theorem getElem?_stamp {t : FileTime} :
    (tree.stamp w p t).disk[q]? =
      if tree.locate w p = some q then (tree.disk[q]?).map fun file => { file with mtime := t }
      else tree.disk[q]? := by
  rw [stamp]
  cases tree.locate w p with
  | none => rfl
  | some spot =>
    by_cases h : spot = q <;> simp [Std.ExtTreeMap.getElem?_modify, h]

theorem getElem?_stamp_key (hk : p.IsKey) {t : FileTime} :
    (tree.stamp w p t).disk[q]? =
      if p = q then (tree.disk[q]?).map fun file => { file with mtime := t } else tree.disk[q]? := by
  rw [getElem?_stamp, locate_key hk]
  exact if_congr Option.some_inj rfl rfl

theorem remove_cases (w : World) (tree : Tree) (p : Path) :
    (∃ spot file, tree.locate w p = some spot ∧ tree.disk[spot]? = some file ∧
      tree.remove w p = some { tree with disk := tree.disk.erase spot }) ∨
    tree.find w p = none ∧ (tree.remove w p = none ∨ ∃ directories : PathMap FileTime,
      (directories = tree.directories ∨
        ∃ spot, tree.below spot = false ∧ directories = tree.directories.erase spot) ∧
      tree.remove w p = some { tree with directories := directories }) := by
  rw [find, remove, locate]
  cases tree.follow w p with
  | error e => cases e with
    | missing => exact .inr ⟨rfl, .inr ⟨_, .inl rfl, rfl⟩⟩
    | notDirectory => exact .inr ⟨rfl, .inl rfl⟩
  | ok place =>
    dsimp only
    rw [PathMap.contains_eq]
    cases hf : tree.disk[w.named place]? with
    | some file => exact .inl ⟨_, file, rfl, hf, if_pos rfl⟩
    | none =>
      refine .inr ⟨hf, ?_⟩
      rw [if_neg (by simp)]
      split
      · split
        · exact .inl rfl
        · next hb =>
          simp only [Bool.or_eq_true, not_or] at hb
          exact .inr ⟨_, .inr ⟨_, Bool.eq_false_iff.mpr hb.1.2, rfl⟩, rfl⟩
      · split
        · exact .inl rfl
        · exact .inr ⟨_, .inl rfl, rfl⟩

/-- A removal that does not raise takes the file and no other. -/
theorem getElem?_remove (h : tree.remove w p = some tree') :
    tree'.disk[q]? = if tree.locate w p = some q then none else tree.disk[q]? := by
  rcases remove_cases w tree p with ⟨spot, file, hl, -, hr⟩ | ⟨hf, hr | ⟨directories, -, hr⟩⟩
  · rw [hr] at h
    obtain rfl := Option.some.inj h
    simp [hl]
  · rw [hr] at h
    cases h
  · rw [hr] at h
    obtain rfl := Option.some.inj h
    split
    · next hl =>
      rw [find, hl, Option.bind_some] at hf
      exact hf
    · rfl

theorem getElem?_remove_key (hk : p.IsKey) (h : tree.remove w p = some tree') (q : Path) :
    tree'.disk[q]? = if p = q then none else tree.disk[q]? := by
  rw [getElem?_remove h, locate_key hk]
  exact if_congr Option.some_inj rfl rfl

theorem disk_remove (h : tree.remove w p = some tree') : ∀ q ∈ tree'.disk, q ∈ tree.disk := by
  intro q hq
  obtain ⟨file, hf⟩ := PathMap.mem_iff.mp hq
  rw [getElem?_remove h, Option.ite_none_left_eq_some] at hf
  exact PathMap.mem_iff.mpr ⟨file, hf.2⟩

theorem directories_remove (h : tree.remove w p = some tree') :
    ∀ q ∈ tree'.directories, q ∈ tree.directories := by
  rcases remove_cases w tree p with ⟨spot, file, -, -, hr⟩ | ⟨-, hr | ⟨directories, hd, hr⟩⟩
  all_goals rw [hr] at h
  · obtain rfl := Option.some.inj h
    exact fun _ hq => hq
  · cases h
  · obtain rfl := Option.some.inj h
    rcases hd with rfl | ⟨spot, -, rfl⟩
    · exact fun _ hq => hq
    · exact fun _ hq => (PathMap.mem_erase.mp hq).2

/-- A change of directories makes the one it gives a time to and no other. -/
theorem mem_changeDirectory {time : Option FileTime} {directories : PathMap FileTime}
    (h : tree.changeDirectory p time = some directories) (hq : q ∈ directories) :
    q ∈ tree.directories ∨ p = q ∧ ∃ t, time = some t := by
  cases time with
  | none =>
    obtain ⟨-, h⟩ := Option.ite_none_left_eq_some.mp h
    obtain rfl := Option.some.inj h
    exact .inl (PathMap.mem_erase.mp hq).2
  | some t =>
    obtain ⟨-, h⟩ := Option.ite_none_left_eq_some.mp h
    obtain rfl := Option.some.inj h
    exact (PathMap.mem_insert.mp hq).symm.imp_right fun he => ⟨he, t, rfl⟩

theorem remove_of_find (h : tree.find w p = some file) :
    ∃ spot, tree.locate w p = some spot ∧ tree.disk[spot]? = some file ∧
      tree.remove w p = some { tree with disk := tree.disk.erase spot } := by
  rcases remove_cases w tree p with ⟨spot, held, hl, hh, hr⟩ | ⟨hf, -⟩
  · rw [find, hl, Option.bind_some] at h
    exact ⟨spot, hl, h, hr⟩
  · rw [hf] at h
    cases h

theorem find_erase (h : tree.locate w p = some spot) (directories : PathMap FileTime) :
    Tree.find w ⟨tree.disk.erase spot, directories⟩ p = none := by
  rw [find, Option.bind_eq_none_iff]
  intro q hq
  obtain rfl : q = spot := (locate_eq_some hq).symm.trans (locate_eq_some h)
  simp

private theorem any_keys_of_sub {β : Type} {m m' : PathMap β} (hsub : ∀ q ∈ m', q ∈ m)
    {f : Path → Bool} (h : m'.keys.any f = true) : m.keys.any f = true := by
  obtain ⟨e, he, hb⟩ := List.any_eq_true.mp h
  exact List.any_eq_true.mpr
    ⟨e, Std.ExtTreeMap.mem_keys.mpr (hsub e (Std.ExtTreeMap.mem_keys.mp he)), hb⟩

/-- What fewer files and directories stand in the way of more do. -/
theorem obstructed_of_sub (hf : ∀ q ∈ tree'.disk, q ∈ tree.disk)
    (hd : ∀ q ∈ tree'.directories, q ∈ tree.directories) (h : tree'.obstructed spot = true) :
    tree.obstructed spot = true := by
  simp only [obstructed, below, through, Bool.or_eq_true] at h ⊢
  rcases h with (h | h) | h
  · exact .inl (.inl (any_keys_of_sub hf h))
  · exact .inl (.inr (any_keys_of_sub hd h))
  · exact .inr (any_keys_of_sub hf h)

theorem blocked_of_sub (hf : ∀ q ∈ tree'.disk, q ∈ tree.disk)
    (hd : ∀ q ∈ tree'.directories, q ∈ tree.directories) (h : tree'.blocked spot = true) :
    tree.blocked spot = true := by
  rw [blocked, Bool.or_eq_true, Std.ExtTreeMap.contains_iff_mem] at h ⊢
  exact h.imp (hd spot) (obstructed_of_sub hf hd)

theorem blocked_iff : tree.blocked spot = true ↔
    blocked ⟨tree.disk, ∅⟩ spot = true ∨ blocked ⟨∅, tree.directories⟩ spot = true := by
  have hfiles : (∅ : Disk).keys = [] := rfl
  have hdirs : (∅ : PathMap FileTime).keys = [] := rfl
  have hempty : (∅ : PathMap FileTime).contains spot = false := rfl
  simp only [blocked, obstructed, below, through, hfiles, hdirs, hempty, List.any_nil,
    Bool.or_eq_true, Bool.false_eq_true, false_or, or_false]
  grind

section

/-- What stands in a directory stands in one that is there. -/
structure Housed (tree : Tree) : Prop where
  files : ∀ p ∈ tree.disk, tree.houses p = true
  directories : ∀ p ∈ tree.directories, tree.houses p = true

theorem mem_above {d : Path} : d ∈ p.above ↔ d.rooted = false ∧ d.parts <+: p.parts ∧
    d.parts.length < p.parts.length ∧ ∃ c ∈ d.parts, c ≠ dot ∧ c ≠ dotDot := by
  obtain ⟨rooted, names⟩ := d
  simp only [Path.above, List.mem_map, List.mem_filter, List.mem_inits, Bool.and_eq_true,
    decide_eq_true_eq, List.any_eq_true, Path.mk.injEq]
  constructor
  · rintro ⟨names', ⟨hp, hl, hc⟩, rfl, rfl⟩
    exact ⟨rfl, hp, hl, hc⟩
  · rintro ⟨rfl, hp, hl, hc⟩
    exact ⟨names, ⟨hp, hl, hc⟩, rfl, rfl⟩

theorem above_trans {d : Path} (hd : d ∈ q.above) (hq : q ∈ p.above) : d ∈ p.above := by
  obtain ⟨hr, hp, hl, hc⟩ := mem_above.mp hd
  obtain ⟨-, hp', hl', -⟩ := mem_above.mp hq
  exact mem_above.mpr ⟨hr, hp.trans hp', hl.trans hl', hc⟩

theorem mem_directories {disk : Disk} {time : FileTime} {d : Path} :
    d ∈ disk.directories time ↔ ∃ p ∈ disk, d ∈ p.above := by
  rw [Disk.directories, Std.ExtTreeMap.mem_ofList, List.contains_iff_mem]
  simp

theorem properPrefix_iff {as bs : List Bytes} :
    properPrefix as bs = true ↔ as <+: bs ∧ as.length < bs.length := by
  simp [properPrefix]

theorem below_iff : tree.below spot = true ↔ ∃ p, (p ∈ tree.disk ∨ p ∈ tree.directories) ∧
    properPrefix (Path.dropTrailing spot.parts) p.parts = true := by
  simp only [below, Bool.or_eq_true, List.any_eq_true, Std.ExtTreeMap.mem_keys]
  constructor
  · rintro (⟨p, hp, h⟩ | ⟨p, hp, h⟩)
    · exact ⟨p, .inl hp, h⟩
    · exact ⟨p, .inr hp, h⟩
  · rintro ⟨p, hp | hp, h⟩
    · exact .inl ⟨p, hp, h⟩
    · exact .inr ⟨p, hp, h⟩

theorem below_of_above {d : Path} (hp : p ∈ tree.disk ∨ p ∈ tree.directories) (hd : d ∈ p.above) :
    tree.below d = true := by
  obtain ⟨-, hpre, hl, -⟩ := mem_above.mp hd
  have hdrop : Path.dropTrailing d.parts <+: d.parts := by
    rw [Path.dropTrailing]
    split
    · exact List.dropLast_prefix d.parts
    · exact List.prefix_rfl
  exact below_iff.mpr ⟨p, hp, properPrefix_iff.mpr
    ⟨hdrop.trans hpre, hdrop.length_le.trans_lt hl⟩⟩

theorem dropTrailing_key (h : p.IsKey) : Path.dropTrailing p.parts = p.parts := by
  refine if_neg fun he => ?_
  exact (h.mem_parts (List.mem_of_getLast? he)).1 rfl

theorem above_of_properPrefix (hk : spot.IsKey)
    (h : properPrefix (Path.dropTrailing spot.parts) p.parts = true) : spot ∈ p.above := by
  rw [dropTrailing_key hk, properPrefix_iff] at h
  obtain ⟨c, hc⟩ := List.exists_mem_of_ne_nil _ hk.2.2.1
  obtain ⟨-, hd, hdd, -, -⟩ := hk.2.2.2 c hc
  exact mem_above.mpr ⟨hk.1, h.1, h.2, c, List.mem_of_mem_tail hc, hd, hdd⟩

theorem houses_iff : tree.houses p = true ↔ ∀ d ∈ p.above, d ∈ tree.directories := by
  simp only [houses, List.all_eq_true, Std.ExtTreeMap.contains_iff_mem]

theorem housed_ofDisk (disk : Disk) (time : FileTime) : Housed ⟨disk, disk.directories time⟩ where
  files p hp := houses_iff.mpr fun d hd => mem_directories.mpr ⟨p, hp, hd⟩
  directories p hp := by
    obtain ⟨q, hq, hpq⟩ := mem_directories.mp hp
    exact houses_iff.mpr fun d hd => mem_directories.mpr ⟨q, hq, above_trans hd hpq⟩

namespace Housed

theorem insert (h : tree.Housed) (hp : tree.houses p = true) (file : File) :
    Housed { tree with disk := tree.disk.insert p file } where
  files q hq := by
    rcases PathMap.mem_insert.mp hq with rfl | hq
    · exact hp
    · exact h.files q hq
  directories := h.directories

theorem erase (h : tree.Housed) : Housed { tree with disk := tree.disk.erase p } where
  files q hq := h.files q (PathMap.mem_erase.mp hq).2
  directories := h.directories

theorem of_samePlaces (h : tree.Housed) (hs : SamePlaces tree' tree) : Housed tree' where
  files q hq := houses_iff.mpr fun d hd =>
    (hs.directories d).mpr (houses_iff.mp (h.files q ((hs.disk q).mp hq)) d hd)
  directories q hq := houses_iff.mpr fun d hd =>
    (hs.directories d).mpr (houses_iff.mp (h.directories q ((hs.directories q).mp hq)) d hd)

/-- A directory with nothing in it houses nothing. -/
theorem eraseDirectory (h : tree.Housed) (hb : tree.below p = false) :
    Housed { tree with directories := tree.directories.erase p } := by
  have hkept : ∀ q, (q ∈ tree.disk ∨ q ∈ tree.directories) → tree.houses q = true →
      Tree.houses { tree with directories := tree.directories.erase p } q = true := by
    intro q hq hh
    refine houses_iff.mpr fun d hd => PathMap.mem_erase.mpr ⟨?_, houses_iff.mp hh d hd⟩
    rintro rfl
    rw [below_of_above hq hd] at hb
    cases hb
  exact ⟨fun q hq => hkept q (.inl hq) (h.files q hq),
    fun q hq => hkept q (.inr (PathMap.mem_erase.mp hq).2) (h.directories q (PathMap.mem_erase.mp hq).2)⟩

theorem changeDirectory (h : tree.Housed) {time : Option FileTime} {directories : PathMap FileTime}
    (hc : tree.changeDirectory p time = some directories) :
    Housed { tree with directories := directories } := by
  cases time with
  | none =>
    obtain ⟨hb, hc⟩ := Option.ite_none_left_eq_some.mp hc
    obtain rfl := Option.some.inj hc
    exact h.eraseDirectory (Bool.eq_false_iff.mpr hb)
  | some t =>
    obtain ⟨hb, hc⟩ := Option.ite_none_left_eq_some.mp hc
    obtain rfl := Option.some.inj hc
    have hp : tree.houses p = true := by
      simp only [Bool.or_eq_true, not_or, Bool.not_eq_true, Bool.not_eq_false'] at hb
      exact hb.2
    have hkept : ∀ q, tree.houses q = true →
        Tree.houses { tree with directories := tree.directories.insert p t } q = true :=
      fun q hq => houses_iff.mpr fun d hd => PathMap.mem_insert.mpr (.inr (houses_iff.mp hq d hd))
    refine ⟨fun q hq => hkept q (h.files q hq), fun q hq => ?_⟩
    rcases PathMap.mem_insert.mp hq with rfl | hq
    · exact hkept p hp
    · exact hkept q (h.directories q hq)

theorem remove (h : tree.Housed) (hr : tree.remove w p = some tree') : tree'.Housed := by
  rcases remove_cases w tree p with ⟨spot, file, -, -, he⟩ | ⟨-, he | ⟨directories, hd, he⟩⟩
  all_goals rw [he] at hr
  · obtain rfl := Option.some.inj hr
    exact h.erase
  · cases hr
  · obtain rfl := Option.some.inj hr
    rcases hd with rfl | ⟨spot, hb, rfl⟩
    · exact h
    · exact h.eraseDirectory hb

/-- What something stands in has a time. -/
theorem lastWriteTime (h : tree.Housed) (hk : p.IsKey) (hb : tree.below p = true) :
    ∃ t, tree.lastWriteTime w p = some t := by
  obtain ⟨q, hq, hpre⟩ := below_iff.mp hb
  have hh : tree.houses q = true := hq.elim (h.files q) (h.directories q)
  obtain ⟨t, ht⟩ := PathMap.mem_iff.mp (houses_iff.mp hh p (above_of_properPrefix hk hpre))
  rw [lastWriteTime_key hk, ht]
  cases tree.disk[p]? with
  | none => exact ⟨t, rfl⟩
  | some file => exact ⟨file.mtime, rfl⟩

end Housed

/-- The directories that files stand in are in the way of no more than the files. -/
theorem blocked_ofDisk {disk : Disk} {time : FileTime} :
    blocked ⟨disk, disk.directories time⟩ spot = true ↔ blocked ⟨disk, ∅⟩ spot = true := by
  have hbelow : below ⟨disk, disk.directories time⟩ spot = true → below ⟨disk, ∅⟩ spot = true := by
    intro h
    obtain ⟨q, hq, hpre⟩ := below_iff.mp h
    rcases hq with hq | hq
    · exact below_iff.mpr ⟨q, .inl hq, hpre⟩
    · obtain ⟨p, hp, hqp⟩ := mem_directories.mp hq
      obtain ⟨-, hle, hl, -⟩ := mem_above.mp hqp
      obtain ⟨hpre, hlt⟩ := properPrefix_iff.mp hpre
      exact below_iff.mpr ⟨p, .inl hp, properPrefix_iff.mpr ⟨hpre.trans hle, hlt.trans hl⟩⟩
  constructor
  · intro h
    rw [blocked, obstructed, Bool.or_eq_true, Bool.or_eq_true] at h ⊢
    right
    rcases h with h | h | h
    · obtain ⟨p, hp, hd⟩ := mem_directories.mp (Std.ExtTreeMap.contains_iff_mem.mp h)
      exact .inl (below_of_above (.inl hp) hd)
    · exact .inl (hbelow h)
    · exact .inr h
  · exact blocked_of_sub (fun _ hq => hq) fun q hq => absurd hq Std.ExtTreeMap.not_mem_empty

end

theorem endsInDots_key (h : p.IsKey) : endsInDots p = false := by
  obtain ⟨last, hl⟩ := Option.ne_none_iff_exists'.mp
    (mt List.getLast?_eq_none_iff.mp h.2.2.1)
  obtain ⟨hne, hd, hdd, -, -⟩ := h.2.2.2 last (List.mem_of_getLast? hl)
  have hlast : p.parts.getLast? = some last := by
    rw [h.parts_eq, List.getLast?_cons, hl]
    rfl
  rw [endsInDots, upToNul_eq_self fun c hc => (h.mem_parts hc).2.2, dropTrailing_key h, hlast]
  simp [hd, hdd]

/-- A key that cannot be removed is of a directory with something in it, or leads
through a file. -/
theorem obstructed_of_remove (hp : p.IsKey) (h : tree.remove w p = none) :
    tree.obstructed p = true := by
  have hprefix : (w.root.parts ++ p.parts.tail).isPrefixOf w.root.parts = false := by
    rw [Bool.eq_false_iff, ne_eq, List.isPrefixOf_iff_prefix]
    intro hle
    have hlen := hle.length_le
    have hpos := List.length_pos_of_ne_nil hp.2.2.1
    rw [List.length_append] at hlen
    omega
  rw [remove, follow_key hp] at h
  simp only [w.named_key hp, hprefix, endsInDots_key hp, Bool.false_or, Bool.or_false] at h
  rw [obstructed, Bool.or_eq_true]
  split at h
  · cases h
  · split at h
    · split at h
      · exact .inl ‹_›
      · cases h
    · split at h
      · exact .inr ‹_›
      · cases h

end Tree

end SyncFs
