import Mathlib.Data.List.DropRight
import SyncFs.Disks

/-!
# The torrent session

One file is one torrent. What the session does with one after it is added is
libtorrent's own: it opens the file, reads what is there already and writes the
rest, in any order and any amounts.
-/

namespace SyncFs

open CharConversions

inductive TorrentState
  | checkingFiles
  | downloadingMetadata
  | downloading
  | finished
  | seeding
  | checkingResumeData
  deriving DecidableEq

/-- A torrent of the session, with what libtorrent has done for it so far: the
offsets in `missing` are the ones not known to be on disk. -/
structure Torrent where
  handle : ℕ
  info : TorrentInfo
  savePath : Path
  opened : Bool
  missing : List ℕ
  flushing : Bool
  state : TorrentState
  deriving DecidableEq

structure Session where
  torrents : List Torrent
  nextHandle : ℕ
  dhtNodes : List (Bytes × ℤ)
  deriving DecidableEq

/-- The directory a torrent has to be written into for its file to land where
the sender holds it. -/
def savePathFor (announced inTorrent : Path) : Bytes :=
  let whole := announced.lexicallyNormal.native
  let tail := inTorrent.lexicallyNormal.native
  if whole.length < tail.length || !tail.isSuffixOf whole then dot
  else
    let directory := (whole.take (whole.length - tail.length)).rdropWhile (· == slash)
    if directory = [] then dot else directory

theorem savePathFor_of_append {announced inTorrent : Path} {front : Bytes}
    (h : announced.lexicallyNormal.native = front ++ inTorrent.lexicallyNormal.native) :
    savePathFor announced inTorrent =
      if front.rdropWhile (· == slash) = [] then dot else front.rdropWhile (· == slash) := by
  have htail : inTorrent.lexicallyNormal.native.isSuffixOf
      (front ++ inTorrent.lexicallyNormal.native) = true :=
    List.isSuffixOf_iff_suffix.mpr (List.suffix_append _ _)
  have hshort : ¬ (front ++ inTorrent.lexicallyNormal.native).length <
      inTorrent.lexicallyNormal.native.length := by
    rw [List.length_append]
    omega
  have htake : (front ++ inTorrent.lexicallyNormal.native).take
      ((front ++ inTorrent.lexicallyNormal.native).length -
        inTorrent.lexicallyNormal.native.length) = front := by
    rw [List.length_append, Nat.add_sub_cancel, List.take_left]
  simp only [savePathFor, h, hshort, htail, htake, decide_false, Bool.not_true, Bool.or_self,
    Bool.false_eq_true, if_false]

theorem savePathFor_of_not_suffix {announced inTorrent : Path}
    (h : ¬ inTorrent.lexicallyNormal.native <:+ announced.lexicallyNormal.native) :
    savePathFor announced inTorrent = dot := by
  have htail : inTorrent.lexicallyNormal.native.isSuffixOf
      announced.lexicallyNormal.native = false := by
    rw [← Bool.not_eq_true, List.isSuffixOf_iff_suffix]
    exact h
  simp only [savePathFor, htail, Bool.not_false, Bool.or_true, if_true]

namespace World

variable (w : World)

/-- How the session keeps a save path. -/
def complete (savePath : Bytes) : Path :=
  if savePath = [] ∨ savePath = dot then w.root else w.root / Path.ofNative savePath

/-- Where a torrent's file sits inside the sync root. -/
def join (savePath : Path) (info : TorrentInfo) : Path :=
  (savePath.lexicallyRelative w.root / info.filePath).lexicallyNormal

/-- `held_path`: the same, in the form a listing reports. -/
def heldPath (t : Torrent) : Path := Path.here / w.join t.savePath t.info

/-- Where libtorrent keeps a torrent's file. -/
def spot (t : Torrent) : Path := w.place (t.savePath / t.info.filePath)

end World

namespace Torrent

def complete (t : Torrent) : Bool := t.opened && t.missing.isEmpty

def onDisk (offset length : ℕ) (t : Torrent) : Torrent :=
  { t with missing := t.missing.filter fun k => k < offset || offset + length ≤ k }

end Torrent

namespace Session

variable (w : World) (s : Session)

def empty : Session := ⟨[], 0, []⟩

def find (handle : ℕ) : Option Torrent := s.torrents.find? (·.handle = handle)

def torrentsAt (path : Path) : List Torrent :=
  s.torrents.filter fun t => w.join t.savePath t.info = path.lexicallyNormal

def removeTorrent (handle : ℕ) : Session :=
  { s with torrents := s.torrents.filter (·.handle ≠ handle) }

def withdraw (path : Path) : Session :=
  (s.torrentsAt w path).foldl (fun s t => s.removeTorrent t.handle) s

def newTorrent (info : TorrentInfo) (savePath : Path) : Torrent :=
  ⟨s.nextHandle, info, savePath, false, List.range info.content.length, false, .checkingFiles⟩

/-- `add_torrent`, which hands back what it holds under the info hash already. -/
def addTorrent (info : TorrentInfo) (savePath : Path) : Session :=
  if s.torrents.any (·.info.infoHash = info.infoHash) then s
  else { s with
    torrents := s.torrents ++ [s.newTorrent info savePath]
    nextHandle := s.nextHandle + 1 }

def modify (handle : ℕ) (f : Torrent → Torrent) : Session :=
  { s with torrents := s.torrents.map fun t => if t.handle = handle then f t else t }

def Apart : Prop := ∀ t ∈ s.torrents, ∀ u ∈ s.torrents, t.handle = u.handle → t = u

instance : Decidable s.Apart := by
  unfold Apart
  infer_instance

variable {w s}

theorem mem_foldl_removeTorrent {t : Torrent} {us : List Torrent} :
    t ∈ (us.foldl (fun s u => s.removeTorrent u.handle) s).torrents ↔
      t ∈ s.torrents ∧ ∀ u ∈ us, t.handle ≠ u.handle := by
  induction us generalizing s with
  | nil => simp
  | cons u us ih =>
    rw [List.foldl_cons, ih]
    simp [removeTorrent, and_assoc]

theorem mem_torrentsAt {t : Torrent} {path : Path} :
    t ∈ s.torrentsAt w path ↔ t ∈ s.torrents ∧ w.join t.savePath t.info = path.lexicallyNormal := by
  simp [torrentsAt]

theorem mem_withdraw {t : Torrent} {path : Path} :
    t ∈ (s.withdraw w path).torrents ↔
      t ∈ s.torrents ∧ ∀ u ∈ s.torrentsAt w path, t.handle ≠ u.handle :=
  mem_foldl_removeTorrent

theorem torrents_foldl_removeTorrent {us : List Torrent} :
    (us.foldl (fun s u => s.removeTorrent u.handle) s).torrents =
      s.torrents.filter fun t => us.all fun u => t.handle ≠ u.handle := by
  induction us generalizing s with
  | nil => simp
  | cons u us ih =>
    rw [List.foldl_cons, ih, removeTorrent, List.filter_filter]
    refine List.filter_congr fun t _ => ?_
    rw [List.all_cons, Bool.and_comm]

theorem torrents_withdraw {path : Path} (ha : s.Apart) :
    (s.withdraw w path).torrents =
      s.torrents.filter fun t => w.join t.savePath t.info ≠ path.lexicallyNormal := by
  rw [withdraw, torrents_foldl_removeTorrent]
  refine List.filter_congr fun t ht => ?_
  rw [Bool.eq_iff_iff, List.all_eq_true]
  simp only [decide_eq_true_eq]
  constructor
  · exact fun h hj => h t (mem_torrentsAt.mpr ⟨ht, hj⟩) rfl
  · intro hj u hu he
    obtain ⟨hu, hp⟩ := mem_torrentsAt.mp hu
    obtain rfl := ha t ht u hu he
    exact hj hp

theorem Apart.withdraw {path : Path} (ha : s.Apart) : (s.withdraw w path).Apart := by
  intro t ht u hu
  exact ha t (mem_withdraw.mp ht).1 u (mem_withdraw.mp hu).1

end Session

def overwrite (old content : Bytes) (offset length : ℕ) : Bytes :=
  (List.range (max old.length (offset + length))).map fun k =>
    if offset ≤ k ∧ k < offset + length then (content[k]?).getD 0 else (old[k]?).getD 0

theorem getElem?_overwrite_inside {old content : Bytes} {offset length k : ℕ}
    (hin : offset + length ≤ content.length) (hlo : offset ≤ k) (hhi : k < offset + length) :
    (overwrite old content offset length)[k]? = content[k]? := by
  have hk : k < content.length := by omega
  rw [overwrite, List.getElem?_map, List.getElem?_range (by omega), Option.map_some,
    if_pos ⟨hlo, hhi⟩, List.getElem?_eq_getElem hk, Option.getD_some]

theorem getElem?_overwrite_outside {old content : Bytes} {offset length k : ℕ}
    (hk : k < old.length) (hout : ¬ (offset ≤ k ∧ k < offset + length)) :
    (overwrite old content offset length)[k]? = old[k]? := by
  rw [overwrite, List.getElem?_map, List.getElem?_range (by omega), Option.map_some, if_neg hout,
    List.getElem?_eq_getElem hk, Option.getD_some]

/-- What libtorrent finds or makes of the file it is to write: none is created,
and one longer than the torrent is cut. -/
def openedFile (file : Option File) (content : Bytes) (now : FileTime) : File :=
  match file with
  | none => ⟨[], now⟩
  | some file =>
    if content.length < file.content.length then ⟨file.content.take content.length, now⟩ else file

end SyncFs
