import Mathlib.Data.List.Basic
import Mathlib.Data.Nat.Notation
import Mathlib.Tactic.SplitIfs

/-!
# Directory trees

A tree is the set of its links: which directory holds which name, and what the
name stands for. Nothing makes every directory reachable from the root, so a
link may come from outside or lead there. Others change the tree while it is
read: what a reader may rely on is stated for a set of directories whose names
all keep what they stand for, new files not yet closed aside.
-/

namespace DirectoryTrees

universe u

inductive Target
  | directory (inode : ℕ)
  | file (closed : Bool)
  deriving DecidableEq

namespace Target

def inode : Target → Option ℕ
  | .directory i => some i
  | .file _ => none

def closed : Target → Option Bool
  | .directory _ => none
  | .file c => some c

end Target

/-- A name in a directory. The number tells it from every other link there has
been, whatever it was called. -/
structure Link (ν : Type u) where
  id : ℕ
  dir : ℕ
  name : ν
  target : Target
  deriving DecidableEq

structure DirTree (ν : Type u) where
  links : List (Link ν)
  /-- Neither a link nor a directory has this number yet. -/
  next : ℕ
  named : links.Pairwise fun l k => ¬ (l.dir = k.dir ∧ l.name = k.name)

def root : ℕ := 0

variable {ν : Type u} [DecidableEq ν]

namespace DirTree

def lookup (t : DirTree ν) (d : ℕ) (n : ν) : Option (Link ν) :=
  t.links.find? fun l => l.dir = d ∧ l.name = n

def listing (t : DirTree ν) (d : ℕ) : List (Link ν) := t.links.filter fun l => l.dir = d

def set (t : DirTree ν) (l : Link ν) : DirTree ν where
  links := l :: t.links.filter fun k => ¬ (l.dir = k.dir ∧ l.name = k.name)
  next := t.next
  named := by
    refine List.pairwise_cons.mpr ⟨fun k hk => ?_, t.named.filter _⟩
    exact of_decide_eq_true (List.mem_filter.mp hk).2

def put (t : DirTree ν) (d : ℕ) (n : ν) (target : Target) : DirTree ν :=
  { t.set ⟨t.next, d, n, target⟩ with next := t.next + 1 }

def remove (t : DirTree ν) (d : ℕ) (n : ν) : DirTree ν where
  links := t.links.filter fun k => ¬ (d = k.dir ∧ n = k.name)
  next := t.next
  named := t.named.filter _

def child (t : DirTree ν) (d : ℕ) (n : ν) : Option ℕ := (t.lookup d n).bind fun l => l.target.inode

def walk (t : DirTree ν) : ℕ → List ν → Option ℕ
  | d, [] => some d
  | d, n :: p => (t.child d n).bind fun i => t.walk i p

def find (t : DirTree ν) (d : ℕ) : List ν → Option (Link ν)
  | [] => none
  | [n] => t.lookup d n
  | n :: p => (t.child d n).bind fun i => t.find i p

def fileAt (t : DirTree ν) (p : List ν) : Option Bool := (t.find root p).bind fun l => l.target.closed

variable {t : DirTree ν} {d e i : ℕ} {n m : ν} {target : Target} {p q : List ν} {l : Link ν}

theorem lookup_of_mem (h : l ∈ t.links) : t.lookup l.dir l.name = some l := by
  obtain ⟨links, next, named⟩ := t
  induction links with
  | nil => cases h
  | cons x xs ih =>
    have hx := List.pairwise_cons.mp named
    rw [lookup, List.find?_cons]
    rcases List.mem_cons.mp h with rfl | h
    · simp
    · have hn : ¬ (x.dir = l.dir ∧ x.name = l.name) := hx.1 l h
      rw [decide_eq_false hn]
      exact ih hx.2 h

theorem lookup_eq_some : t.lookup d n = some l ↔ l ∈ t.links ∧ l.dir = d ∧ l.name = n := by
  constructor
  · intro h
    exact ⟨List.mem_of_find?_eq_some h, by simpa using List.find?_some h⟩
  · rintro ⟨h, rfl, rfl⟩
    exact lookup_of_mem h

theorem mem_listing : l ∈ t.listing d ↔ t.lookup d l.name = some l := by
  simp [listing, lookup_eq_some]

@[simp] theorem lookup_set :
    (t.set l).lookup d n = if l.dir = d ∧ l.name = n then some l else t.lookup d n := by
  rw [lookup, set, List.find?_cons]
  split_ifs with h
  · simp [h]
  · simp only [h, decide_false, List.find?_filter]
    rw [lookup]
    refine congrArg (fun f => t.links.find? f) (funext fun k => ?_)
    grind

@[simp] theorem lookup_put : (t.put d n target).lookup e m =
    if d = e ∧ n = m then some ⟨t.next, d, n, target⟩ else t.lookup e m :=
  lookup_set

@[simp] theorem lookup_remove :
    (t.remove d n).lookup e m = if d = e ∧ n = m then none else t.lookup e m := by
  rw [lookup, remove, List.find?_filter]
  split_ifs with h
  · refine List.find?_eq_none.mpr fun k _ => ?_
    grind
  · rw [lookup]
    refine congrArg (fun f => t.links.find? f) (funext fun k => ?_)
    grind

theorem walk_append : t.walk d (p ++ q) = (t.walk d p).bind fun i => t.walk i q := by
  induction p generalizing d with
  | nil => rfl
  | cons n p ih =>
    rw [List.cons_append, walk, walk, Option.bind_assoc]
    exact congrArg _ (funext fun i => ih)

theorem walk_concat : t.walk d (p ++ [n]) = (t.walk d p).bind fun i => t.child i n := by
  simp [walk_append, walk]

theorem find_concat : t.find d (p ++ [n]) = (t.walk d p).bind fun i => t.lookup i n := by
  induction p generalizing d with
  | nil => rfl
  | cons m p ih =>
    rw [List.cons_append, find, walk, Option.bind_assoc]
    · exact congrArg _ (funext fun i => ih)
    · simp

theorem walk_eq_bind_find (hp : p ≠ []) :
    t.walk d p = (t.find d p).bind fun l => l.target.inode := by
  obtain ⟨q, n, rfl⟩ := (List.eq_nil_or_concat' p).resolve_left hp
  rw [walk_concat, find_concat, Option.bind_assoc]
  rfl

/-- What a directory holds is found by its path and a name. -/
theorem find_isSome_of_walk (h : t.walk d p = some i) (hp : p ≠ []) : (t.find d p).isSome := by
  rw [walk_eq_bind_find hp] at h
  obtain ⟨l, hl, -⟩ := Option.bind_eq_some_iff.mp h
  exact Option.isSome_iff_exists.mpr ⟨l, hl⟩

theorem find_append (hq : q ≠ []) :
    t.find d (p ++ q) = (t.walk d p).bind fun i => t.find i q := by
  obtain ⟨r, n, rfl⟩ := (List.eq_nil_or_concat' q).resolve_left hq
  simp [← List.append_assoc, find_concat, walk_append, Option.bind_assoc]

theorem exists_lookup_of_find (h : (t.find d (n :: p)).isSome) : ∃ l, t.lookup d n = some l := by
  cases p with
  | nil => exact Option.isSome_iff_exists.mp h
  | cons m p =>
    rw [find, child, Option.bind_assoc] at h
    · obtain ⟨k, hk⟩ := Option.isSome_iff_exists.mp h
      obtain ⟨l, hl, -⟩ := Option.bind_eq_some_iff.mp hk
      exact ⟨l, hl⟩
    · simp

end DirTree

/-! ### What stays -/

/-- In these directories every name stands for what it stood for, but for new
files that are still open. -/
def Kept (s : ℕ → Prop) (t t' : DirTree ν) : Prop :=
  ∀ d, s d → ∀ n, t'.lookup d n = t.lookup d n ∨
    t.lookup d n = none ∧ ∃ l, t'.lookup d n = some l ∧ l.target = .file false

def Trodden (s : ℕ → Prop) (t : DirTree ν) (p : List ν) : Prop :=
  ∀ q, q <+: p → ∀ i, t.walk root q = some i → s i

variable {s s' : ℕ → Prop} {t t' : DirTree ν} {d i : ℕ} {n : ν} {p q : List ν} {l : Link ν}

theorem Trodden.mono (h : Trodden s t p) (hs : ∀ i, s i → s' i) : Trodden s' t p :=
  fun q hq i hi => hs i (h q hq i hi)

theorem Trodden.concat (h : Trodden s t p) (hn : ∀ i, t.walk root (p ++ [n]) = some i → s i) :
    Trodden s t (p ++ [n]) := by
  intro q hq i hi
  rcases List.prefix_concat_iff.mp hq with rfl | hq
  · exact hn i hi
  · exact h q hq i hi

namespace Kept

variable (hk : Kept s t t')

include hk

theorem child_eq (hd : s d) : t'.child d n = t.child d n := by
  rw [DirTree.child, DirTree.child]
  rcases hk d hd n with h | ⟨hn, l, hl, ho⟩
  · rw [h]
  · rw [hn, hl]
    simp [ho, Target.inode]

/-- A path leads where it led, unless it leaves the directories that are kept. -/
theorem walk_or : t'.walk d p = t.walk d p ∨ ∃ q, q <+: p ∧ ∃ i, t.walk d q = some i ∧ ¬ s i := by
  induction p generalizing d with
  | nil => exact .inl rfl
  | cons n p ih =>
    by_cases hd : s d
    · rw [DirTree.walk, DirTree.walk, hk.child_eq hd]
      cases hc : t.child d n with
      | none => exact .inl rfl
      | some i =>
        rcases ih (d := i) with h | ⟨q, hq, j, hj, hs⟩
        · exact .inl h
        · exact .inr ⟨n :: q, List.prefix_cons_inj n |>.mpr hq, j, by simp [DirTree.walk, hc, hj], hs⟩
    · exact .inr ⟨[], List.nil_prefix, d, rfl, hd⟩

theorem walk_eq (ht : Trodden s t p) : t'.walk root p = t.walk root p := by
  rcases hk.walk_or with h | ⟨q, hq, i, hi, hs⟩
  · exact h
  · exact absurd (ht q hq i hi) hs

theorem trodden (ht : Trodden s t p) : Trodden s t' p := by
  intro q hq i hi
  have hp : Trodden s t q := fun r hr => ht r (hr.trans hq)
  exact ht q hq i (hk.walk_eq hp ▸ hi)

theorem find_or (ht : Trodden s t p) : t'.find root (p ++ [n]) = t.find root (p ++ [n]) ∨
    t.find root (p ++ [n]) = none ∧
      ∃ l, t'.find root (p ++ [n]) = some l ∧ l.target = .file false := by
  rw [DirTree.find_concat, DirTree.find_concat, hk.walk_eq ht]
  cases hw : t.walk root p with
  | none => exact .inl rfl
  | some d => exact hk d (ht p List.prefix_rfl d hw) n

theorem fileAt_or (ht : ∀ q, Trodden s t q) :
    t'.fileAt p = t.fileAt p ∨ t.fileAt p = none ∧ t'.fileAt p = some false := by
  rcases List.eq_nil_or_concat' p with rfl | ⟨q, n, rfl⟩
  · exact .inl rfl
  · rw [DirTree.fileAt, DirTree.fileAt]
    rcases hk.find_or (ht q) (n := n) with h | ⟨hn, l, hl, ho⟩
    · exact .inl (congrArg (fun x => x.bind fun l => l.target.closed) h)
    · exact .inr ⟨by rw [hn]; rfl, by rw [hl]; exact congrArg Target.closed ho⟩

end Kept

/-! ### A recursive walk -/

/-- An open directory, the path it was reached by, and what it held when it was
opened and has not been read yet. -/
structure OpenDir (ν : Type u) where
  dir : ℕ
  path : List ν
  left : List (Link ν)
  deriving DecidableEq

/-- The directories the walk is in, the innermost first, and the entry it
stands at. Without an open directory it is over. -/
structure Walk (ν : Type u) where
  stack : List (OpenDir ν)
  entry : Option (Link ν)
  deriving DecidableEq

namespace Walk

def start (t : DirTree ν) : Walk ν := ⟨[⟨root, [], t.listing root⟩], none⟩

def here (w : Walk ν) : List ν :=
  match w.stack, w.entry with
  | f :: _, some l => f.path ++ [l.name]
  | _, _ => []

/-- The next entry is one the directory held when it was opened, gone since or
not, or one it holds by now. -/
def read (t : DirTree ν) (w : Walk ν) (l : Link ν) : Option (Walk ν) :=
  match w with
  | ⟨f :: fs, none⟩ =>
    if l ∈ f.left ∨ l ∈ t.listing f.dir then
      some ⟨{ f with left := f.left.filter fun k => k.name ≠ l.name } :: fs, some l⟩
    else none
  | _ => none

/-- A directory ends once every entry it held all along has been read. -/
def leave (t : DirTree ν) (w : Walk ν) : Option (Walk ν) :=
  match w with
  | ⟨f :: fs, none⟩ =>
    if ∀ l ∈ f.left, ∀ k ∈ t.links, k.id ≠ l.id then some ⟨fs, none⟩ else none
  | _ => none

/-- Moves on from the entry, into it if it was a directory. One that cannot be
opened any more ends the walk. -/
def descend (t : DirTree ν) (w : Walk ν) : Option (Walk ν) :=
  match w with
  | ⟨f :: fs, some l⟩ =>
    match l.target with
    | .file _ => some ⟨f :: fs, none⟩
    | .directory _ =>
      match t.child f.dir l.name with
      | some i => some ⟨⟨i, f.path ++ [l.name], t.listing i⟩ :: f :: fs, none⟩
      | none => some ⟨[], none⟩
  | _ => none

variable {w w' : Walk ν}

theorem read_eq_some (h : w.read t l = some w') : ∃ f fs, w = ⟨f :: fs, none⟩ ∧
    (l ∈ f.left ∨ l ∈ t.listing f.dir) ∧
    w' = ⟨{ f with left := f.left.filter fun k => k.name ≠ l.name } :: fs, some l⟩ := by
  obtain ⟨_ | ⟨f, fs⟩, _ | k⟩ := w
  case cons.none =>
    rw [read] at h
    split_ifs at h with hl
    exact ⟨f, fs, rfl, hl, (Option.some.inj h).symm⟩
  all_goals cases h

omit [DecidableEq ν] in
theorem leave_eq_some (h : w.leave t = some w') : ∃ f fs, w = ⟨f :: fs, none⟩ ∧
    (∀ l ∈ f.left, ∀ k ∈ t.links, k.id ≠ l.id) ∧ w' = ⟨fs, none⟩ := by
  obtain ⟨_ | ⟨f, fs⟩, _ | k⟩ := w
  case cons.none =>
    rw [leave] at h
    split_ifs at h with hl
    exact ⟨f, fs, rfl, hl, (Option.some.inj h).symm⟩
  all_goals cases h

/-- A walk whose open directories are where they were and hold what is left of
them, all on paths within the given directories. -/
structure Sound (s : ℕ → Prop) (t : DirTree ν) (w : Walk ν) : Prop where
  placed : ∀ f ∈ w.stack, t.walk root f.path = some f.dir
  trodden : ∀ f ∈ w.stack, Trodden s t f.path
  current : ∀ f ∈ w.stack, ∀ l ∈ f.left, t.lookup f.dir l.name = some l
  entry : ∀ l, w.entry = some l → ∃ f fs, w.stack = f :: fs ∧ t.lookup f.dir l.name = some l

/-- The walk has yet to come by the path, or by what leads there. -/
def Ahead (w : Walk ν) (p : List ν) : Prop :=
  (∃ f ∈ w.stack, ∃ l ∈ f.left, f.path ++ [l.name] <+: p) ∨ (w.entry.isSome ∧ w.here <+: p)

/-- Whatever there is has been dealt with or is ahead. -/
def Covers (t : DirTree ν) (w : Walk ν) (dealt : List ν → Prop) : Prop :=
  ∀ p, (t.find root p).isSome → dealt p ∨ w.Ahead p

omit [DecidableEq ν] in
theorem Ahead.trans (h : w.Ahead q) (hq : q <+: p) : w.Ahead p := by
  rcases h with ⟨f, hf, l, hl, hp⟩ | ⟨he, hp⟩
  · exact .inl ⟨f, hf, l, hl, hp.trans hq⟩
  · exact .inr ⟨he, hp.trans hq⟩

/-- Below a directory just opened everything is ahead. -/
theorem exists_listing (hw : t.walk root q = some i) (hp : (t.find root p).isSome) (hq : q <+: p)
    (hne : p ≠ q) : ∃ l ∈ t.listing i, q ++ [l.name] <+: p := by
  obtain ⟨r, rfl⟩ := hq
  cases r with
  | nil => simp at hne
  | cons n r =>
    rw [DirTree.find_append (by simp), hw] at hp
    obtain ⟨l, hl⟩ := DirTree.exists_lookup_of_find hp
    obtain ⟨-, -, rfl⟩ := DirTree.lookup_eq_some.mp hl
    exact ⟨l, DirTree.mem_listing.mpr hl, r, by simp⟩

/-! #### What one step of the walk keeps -/

theorem Sound.start (hs : s root) : Sound s t (.start t) where
  placed f hf := by
    obtain rfl := List.mem_singleton.mp hf
    rfl
  trodden f hf := by
    obtain rfl := List.mem_singleton.mp hf
    intro q hq i hi
    obtain rfl := List.prefix_nil.mp hq
    exact Option.some.inj hi ▸ hs
  current f hf l hl := by
    obtain rfl := List.mem_singleton.mp hf
    exact DirTree.mem_listing.mp hl
  entry l hl := by cases hl

theorem covers_start {dealt : List ν → Prop} : Covers t (.start t) dealt := by
  intro p hp
  have hne : p ≠ [] := by
    rintro rfl
    cases hp
  obtain ⟨l, hl, hq⟩ := exists_listing (q := []) rfl hp List.nil_prefix hne
  exact .inr (.inl ⟨_, List.mem_singleton.mpr rfl, l, hl, hq⟩)

theorem Sound.read (hw : Sound s t w) (h : w.read t l = some w') : Sound s t w' := by
  obtain ⟨f, fs, rfl, hl, rfl⟩ := read_eq_some h
  have hf : f ∈ f :: fs := List.mem_cons_self
  have hc : t.lookup f.dir l.name = some l := by
    rcases hl with hl | hl
    · exact hw.current f hf l hl
    · exact DirTree.mem_listing.mp hl
  refine ⟨fun g hg => ?_, fun g hg => ?_, fun g hg k hk => ?_, fun k hk => ?_⟩
  · rcases List.mem_cons.mp hg with rfl | hg
    · exact hw.placed f hf
    · exact hw.placed g (List.mem_cons_of_mem _ hg)
  · rcases List.mem_cons.mp hg with rfl | hg
    · exact hw.trodden f hf
    · exact hw.trodden g (List.mem_cons_of_mem _ hg)
  · rcases List.mem_cons.mp hg with rfl | hg
    · exact hw.current f hf k (List.mem_of_mem_filter hk)
    · exact hw.current g (List.mem_cons_of_mem _ hg) k hk
  · obtain rfl := Option.some.inj hk
    exact ⟨_, fs, rfl, hc⟩

theorem Ahead.read (hp : w.Ahead p) (h : w.read t l = some w') : w'.Ahead p := by
  obtain ⟨f, fs, rfl, -, rfl⟩ := read_eq_some h
  rcases hp with ⟨g, hg, k, hk, hp⟩ | ⟨he, -⟩
  · rcases List.mem_cons.mp hg with rfl | hg
    · by_cases hkl : k.name = l.name
      · rw [hkl] at hp
        exact .inr ⟨rfl, hp⟩
      · exact .inl ⟨_, List.mem_cons_self, k, List.mem_filter.mpr ⟨hk, decide_eq_true hkl⟩, hp⟩
    · exact .inl ⟨g, List.mem_cons_of_mem _ hg, k, hk, hp⟩
  · cases he

theorem Sound.leave (hw : Sound s t w) (h : w.leave t = some w') : Sound s t w' := by
  obtain ⟨f, fs, rfl, -, rfl⟩ := leave_eq_some h
  exact ⟨fun g hg => hw.placed g (List.mem_cons_of_mem _ hg),
    fun g hg => hw.trodden g (List.mem_cons_of_mem _ hg),
    fun g hg => hw.current g (List.mem_cons_of_mem _ hg), fun k hk => nomatch hk⟩

/-- Nothing is left unread in a directory that has not changed. -/
theorem Ahead.leave (hw : Sound s t w) (hp : w.Ahead p) (h : w.leave t = some w') :
    w'.Ahead p := by
  obtain ⟨f, fs, rfl, hn, rfl⟩ := leave_eq_some h
  rcases hp with ⟨g, hg, k, hk, hp⟩ | ⟨he, -⟩
  · rcases List.mem_cons.mp hg with rfl | hg
    · have hc := DirTree.lookup_eq_some.mp (hw.current g List.mem_cons_self k hk)
      exact absurd rfl (hn k hk k hc.1)
    · exact .inl ⟨g, hg, k, hk, hp⟩
  · cases he

theorem Sound.find_here (hw : Sound s t w) (hl : w.entry = some l) :
    t.find root w.here = some l := by
  obtain ⟨f, fs, hs, hc⟩ := hw.entry l hl
  rw [here, hs, hl]
  change t.find root (f.path ++ [l.name]) = _
  rw [DirTree.find_concat, hw.placed f (hs ▸ List.mem_cons_self)]
  exact hc

theorem Sound.trodden_here (hw : Sound s t w) (hr : s root)
    (hs : ∀ i, t.walk root w.here = some i → s i) : Trodden s t w.here := by
  obtain ⟨_ | ⟨f, fs⟩, _ | l⟩ := w
  case cons.some => exact (hw.trodden f List.mem_cons_self).concat hs
  all_goals
    intro q hq i hi
    obtain rfl := List.prefix_nil.mp hq
    exact Option.some.inj hi ▸ hr

theorem descend_eq_some (hw : Sound s t w) (h : w.descend t = some w') :
    ∃ f fs l, w = ⟨f :: fs, some l⟩ ∧ t.lookup f.dir l.name = some l ∧
      ((l.target.inode = none ∧ w' = ⟨f :: fs, none⟩) ∨
        ∃ i, l.target.inode = some i ∧
          w' = ⟨⟨i, f.path ++ [l.name], t.listing i⟩ :: f :: fs, none⟩) := by
  obtain ⟨_ | ⟨f, fs⟩, _ | l⟩ := w
  case cons.some =>
    obtain ⟨g, gs, hg, hc⟩ := hw.entry l rfl
    obtain ⟨rfl, rfl⟩ := List.cons.inj hg
    refine ⟨f, fs, l, rfl, hc, ?_⟩
    rw [descend, DirTree.child, hc] at h
    cases hn : l.target with
    | file c =>
      rw [hn] at h
      exact .inl ⟨rfl, (Option.some.inj h).symm⟩
    | directory i =>
      rw [hn] at h
      exact .inr ⟨i, rfl, by simpa [hn, Target.inode] using h.symm⟩
  all_goals cases h

theorem Sound.descend (hw : Sound s t w) (hs : ∀ i, t.walk root w.here = some i → s i)
    (h : w.descend t = some w') : Sound s t w' := by
  obtain ⟨f, fs, l, rfl, hc, ⟨-, rfl⟩ | ⟨i, hi, rfl⟩⟩ := descend_eq_some hw h
  · exact ⟨hw.placed, hw.trodden, hw.current, fun k hk => nomatch hk⟩
  · have hf := hw.placed f List.mem_cons_self
    have hh : t.walk root (f.path ++ [l.name]) = some i := by
      rw [DirTree.walk_concat, hf]
      simp [DirTree.child, hc, hi]
    refine ⟨fun g hg => ?_, fun g hg => ?_, fun g hg k hk => ?_, fun k hk => nomatch hk⟩
    · rcases List.mem_cons.mp hg with rfl | hg
      · exact hh
      · exact hw.placed g hg
    · rcases List.mem_cons.mp hg with rfl | hg
      · exact (hw.trodden f List.mem_cons_self).concat hs
      · exact hw.trodden g hg
    · rcases List.mem_cons.mp hg with rfl | hg
      · exact DirTree.mem_listing.mp hk
      · exact hw.current g hg k hk

/-- Past the entry, all that lies below it is ahead. -/
theorem Ahead.descend (hw : Sound s t w) (hp : w.Ahead p) (hf : (t.find root p).isSome)
    (h : w.descend t = some w') : p = w.here ∨ w'.Ahead p := by
  obtain ⟨f, fs, l, rfl, hc, hl⟩ := descend_eq_some hw h
  rcases hp with ⟨g, hg, k, hk, hp⟩ | ⟨-, hp⟩
  · right
    rcases hl with ⟨-, rfl⟩ | ⟨i, -, rfl⟩
    · exact .inl ⟨g, hg, k, hk, hp⟩
    · exact .inl ⟨g, List.mem_cons_of_mem _ hg, k, hk, hp⟩
  · refine or_iff_not_imp_left.mpr fun hne => ?_
    have hh : (t.walk root (f.path ++ [l.name])) = l.target.inode := by
      rw [DirTree.walk_concat, hw.placed f List.mem_cons_self]
      simp [DirTree.child, hc]
    rcases hl with ⟨hn, rfl⟩ | ⟨i, hi, rfl⟩
    · obtain ⟨r, rfl⟩ := hp
      have hr : r ≠ [] := by
        rintro rfl
        exact hne (List.append_nil _)
      change (t.find root (f.path ++ [l.name] ++ r)).isSome at hf
      rw [DirTree.find_append hr, hh, hn] at hf
      cases hf
    · obtain ⟨k, hk, hq⟩ := exists_listing (hh.trans hi) hf hp hne
      exact .inl ⟨_, List.mem_cons_self, k, hk, hq⟩

/-! #### What the walk covers -/

variable {dealt : List ν → Prop}

theorem Covers.read (hc : Covers t w dealt) (h : w.read t l = some w') : Covers t w' dealt :=
  fun p hp => (hc p hp).imp_right fun ha => ha.read h

theorem Covers.leave (hw : Sound s t w) (hc : Covers t w dealt) (h : w.leave t = some w') :
    Covers t w' dealt :=
  fun p hp => (hc p hp).imp_right fun ha => ha.leave hw h

theorem Covers.descend (hw : Sound s t w) (hc : Covers t w dealt) (hd : dealt w.here)
    (h : w.descend t = some w') : Covers t w' dealt := by
  intro p hp
  rcases hc p hp with hd | ha
  · exact .inl hd
  · rcases ha.descend hw hp h with rfl | ha
    · exact .inl hd
    · exact .inr ha

/-- Once the walk is over, whatever there is has been dealt with. -/
theorem Covers.over (hw : Sound s t w) (hc : Covers t w dealt) (ho : w.stack = [])
    (hp : (t.find root p).isSome) : dealt p := by
  rcases hc p hp with hd | ⟨f, hf, -⟩ | ⟨he, -⟩
  · exact hd
  · rw [ho] at hf
    cases hf
  · obtain ⟨l, hl⟩ := Option.isSome_iff_exists.mp he
    obtain ⟨f, fs, hs, -⟩ := hw.entry l hl
    cases ho.symm.trans hs

/-! #### While others change the tree -/

theorem Sound.mono (hw : Sound s t w) (hs : ∀ i, s i → s' i) : Sound s' t w :=
  ⟨hw.placed, fun f hf => (hw.trodden f hf).mono hs, hw.current, hw.entry⟩

theorem Sound.kept (hw : Sound s t w) (hk : Kept s t t') : Sound s t' w := by
  have hl {f : OpenDir ν} (hf : f ∈ w.stack) {l : Link ν} (hl : t.lookup f.dir l.name = some l) :
      t'.lookup f.dir l.name = some l := by
    rcases hk f.dir (hw.trodden f hf _ List.prefix_rfl _ (hw.placed f hf)) l.name with h | ⟨h, -⟩
    · exact h.trans hl
    · cases hl.symm.trans h
  refine ⟨fun f hf => ?_, fun f hf => hk.trodden (hw.trodden f hf),
    fun f hf l h => hl hf (hw.current f hf l h), fun l h => ?_⟩
  · exact (hk.walk_eq (hw.trodden f hf)).trans (hw.placed f hf)
  · obtain ⟨f, fs, hs, hc⟩ := hw.entry l h
    exact ⟨f, fs, hs, hl (hs ▸ List.mem_cons_self) hc⟩

end Walk

end DirectoryTrees
