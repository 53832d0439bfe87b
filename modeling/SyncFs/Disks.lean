import SyncFs.FileMaps

/-!
# The sync root and what is on disk

The daemon runs inside one directory. A path it names is read against that
directory; the files in it are those a listing reports, under a dot and the
names that lead to them.
-/

namespace SyncFs

open CharConversions

structure TorrentInfo where
  infoHash : ℕ
  filePath : Path
  content : Bytes
  nodes : List (Bytes × ℤ)
  deriving DecidableEq

/-- The machine a node runs on: the directory it was started in, the endpoint
it publishes at, and the code it calls that is not its own. A buffer that is
not a torrent makes `loadTorrentBuffer` raise. -/
structure World where
  root : Path
  root_rooted : root.rooted = true
  root_plain : ∀ c ∈ root.parts, Path.Plain c
  endpoint : Bytes
  sha256 : Bytes → Bytes
  loadTorrentBuffer : Bytes → Option TorrentInfo
  generateBuf : Path → Bytes → Bytes

structure File where
  content : Bytes
  mtime : FileTime
  deriving DecidableEq

/-- The regular files, by where they are. -/
abbrev Disk := PathMap File

namespace World

variable (w : World)

/-- A place, as the names that lead to it from the top, named as a listing would
name it. -/
def named (place : List Bytes) : Path :=
  let inside := (Path.lexicallyRelative ⟨true, place⟩ w.root).lexicallyNormal
  if inside = Path.here then inside else Path.here / inside

/-- The place a path names by its text alone, with the directory the daemon runs
in before it. -/
def place (p : Path) : Path := w.named (w.root / p).lexicallyNormal.parts

private theorem mismatch_append (as bs : List Bytes) :
    Path.mismatch (as ++ bs) as = (bs, []) := by
  induction as with
  | nil => cases bs <;> rfl
  | cons a as ih => rw [List.cons_append, Path.mismatch, if_pos rfl, ih]

theorem root_div {cs : List Bytes} (hne : cs ≠ []) :
    w.root / (⟨false, cs⟩ : Path) = ⟨true, w.root.parts ++ cs⟩ := by
  have ht : Path.dropTrailing w.root.parts = w.root.parts := by
    refine if_neg fun hl => ?_
    exact (w.root_plain [] (List.mem_of_getLast? hl)).1 rfl
  change Path.append w.root ⟨false, cs⟩ = _
  rw [Path.append, ht, w.root_rooted]
  split <;> simp_all

theorem lexicallyRelative_root {cs : List Bytes} (h : ∀ c ∈ cs, Path.Plain c) (hne : cs ≠ []) :
    Path.lexicallyRelative ⟨true, w.root.parts ++ cs⟩ w.root = ⟨false, cs⟩ := by
  have hh : cs.head? ≠ some [] := fun hc => (h [] (List.mem_of_head? hc)).1 rfl
  simp [Path.lexicallyRelative, w.root_rooted, mismatch_append, Path.depth, hne, hh]

@[simp] theorem lexicallyRelative_self : w.root.lexicallyRelative w.root = Path.here := by
  have hm := mismatch_append w.root.parts []
  rw [List.append_nil] at hm
  simp [Path.lexicallyRelative, hm, Path.here]

theorem named_key {p : Path} (h : p.IsKey) : w.named (w.root.parts ++ p.parts.tail) = p := by
  have hne : (⟨false, p.parts.tail⟩ : Path) ≠ Path.here := by
    intro he
    have hd : dot ∈ p.parts.tail := by
      rw [show p.parts.tail = [dot] from congrArg Path.parts he]
      exact List.mem_singleton_self dot
    exact (h.2.2.2 dot hd).2.1 rfl
  rw [named, lexicallyRelative_root w h.2.2.2 h.2.2.1,
    Path.lexicallyNormal_plain h.2.2.2 h.2.2.1]
  simp only [hne, if_false]
  rw [← h.lexicallyNormal, h.here_div]

/-- A key's file, named from the root directory down. -/
theorem place_root_div {p : Path} (h : p.IsKey) : w.place (w.root / p.lexicallyNormal) = p := by
  have hplain : ∀ c ∈ w.root.parts ++ p.parts.tail, Path.Plain c := by
    intro c hc
    rcases List.mem_append.mp hc with hc | hc
    · exact w.root_plain c hc
    · exact h.2.2.2 c hc
  have habs : w.root / (⟨true, w.root.parts ++ p.parts.tail⟩ : Path) =
      ⟨true, w.root.parts ++ p.parts.tail⟩ := rfl
  rw [place, h.lexicallyNormal, root_div w h.2.2.1, habs,
    Path.lexicallyNormal_plain hplain (by simp [h.2.2.1]), named_key w h]

end World

namespace Disk

/-- `files::list`, of a tree that is walked to its end. -/
def list (disk : Disk) : FileMap :=
  (disk.filter fun p _ => decide p.IsKey).map fun _ file => file.mtime

/-- `files::list`, of a walk that ends at a directory it cannot read, and misses
what it has not come to by then. -/
def listBut (disk : Disk) (missed : List Path) : FileMap :=
  disk.list.filter fun p _ => decide (p ∉ missed)

variable {disk : Disk} {p : Path}

@[simp] theorem getElem?_list :
    (list disk)[p]? = if p.IsKey then (disk[p]?).map File.mtime else none := by
  rw [list, Std.ExtTreeMap.getElem?_map, PathMap.getElem?_filter]
  cases disk[p]? with
  | none => simp
  | some file => by_cases h : p.IsKey <;> simp [h]

theorem isKey_of_mem_list (h : p ∈ list disk) : p.IsKey := by
  obtain ⟨t, ht⟩ := PathMap.mem_iff.mp h
  by_contra hk
  simp [hk] at ht

theorem mem_list : p ∈ list disk ↔ p.IsKey ∧ p ∈ disk := by
  simp only [PathMap.mem_iff, getElem?_list]
  by_cases h : p.IsKey <;> simp [h]

@[simp] theorem getElem?_listBut {missed : List Path} :
    (listBut disk missed)[p]? = if p ∈ missed then none else (list disk)[p]? := by
  rw [listBut, PathMap.getElem?_filter]
  cases (list disk)[p]? with
  | none => simp
  | some t => by_cases h : p ∈ missed <;> simp [h]

theorem list_of_listBut {missed : List Path} {t : FileTime} (h : (listBut disk missed)[p]? = some t) :
    (list disk)[p]? = some t := by
  rw [getElem?_listBut, Option.ite_none_left_eq_some] at h
  exact h.2

theorem mem_listBut {missed : List Path} : p ∈ listBut disk missed ↔ p ∈ list disk ∧ p ∉ missed := by
  rw [PathMap.mem_iff, PathMap.mem_iff, getElem?_listBut]
  by_cases h : p ∈ missed <;> simp [h]

@[simp] theorem listBut_nil : listBut disk [] = list disk := by
  ext p
  simp

/-- A tree of nothing but keys is listed whole. -/
theorem getElem?_list_of_keys (hk : ∀ q ∈ disk, q.IsKey) (q : Path) :
    (list disk)[q]? = (disk[q]?).map File.mtime := by
  rw [getElem?_list]
  split
  · rfl
  · next hq =>
    rw [PathMap.notMem_iff.mp fun hm => hq (hk q hm)]
    rfl

end Disk

end SyncFs
