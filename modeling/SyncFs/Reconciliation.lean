import SyncFs.FileMaps

/-!
# What a node compares and what it takes on

Deletions are ordered against files by the moment they were noticed. A node
that is shown what a peer holds and what it remembers deleted takes on the
deletions that are news, and owes a repair for the files the peer lacks; each
repair has a moment it is due at.
-/

namespace SyncFs

open CharConversions

abbrev SteadyTime := ℤ

def seconds (n : ℤ) : ℤ := n * 10 ^ 9

def period : ℤ := seconds 5
def quiescenceWindow : ℤ := seconds 10
def stateCeiling : ℤ := seconds 60
def tombstoneTtl : ℤ := seconds 3600
def peerSilence : ℤ := stateCeiling * 3
def pace : ℤ := 20 * 10 ^ 6

/-- Every path known to have been deleted, and when. -/
abbrev TombstoneMap := PathMap TimePoint

/-- A deletion beats a file only if it is strictly newer. -/
def beats (deleted : TimePoint) (written : FileTime) : Bool := toTicks deleted > written.toTicks

theorem beats_iff {deleted : TimePoint} {written : FileTime} :
    beats deleted written = true ↔ written.toTicks < deleted := by
  simp [beats]

def mark (tombstones : TombstoneMap) (path : Path) (deleted : TimePoint) : TombstoneMap :=
  match tombstones[path]? with
  | none => tombstones.insert path deleted
  | some moment => tombstones.insert path (max moment deleted)

theorem getElem?_mark {tombstones : TombstoneMap} {path q : Path} {deleted : TimePoint} :
    (mark tombstones path deleted)[q]? =
      if path = q then some ((tombstones[path]?).elim deleted fun moment => max moment deleted)
      else tombstones[q]? := by
  rw [mark]
  cases tombstones[path]? with
  | none => exact PathMap.getElem?_insert
  | some moment => exact PathMap.getElem?_insert

def expire (tombstones : TombstoneMap) (now : TimePoint) : TombstoneMap :=
  tombstones.filter fun _ moment => !decide (now - moment > tombstoneTtl)

/-- The deletions a peer remembers that are news here. -/
def adoptable (theirs : TombstoneMap) (held : FileMap) (mine : TombstoneMap) (now : TimePoint) :
    TombstoneMap :=
  theirs.filter fun path moment =>
    if (mine[path]?).any fun ours => ours ≥ moment then false
    else if now - moment > tombstoneTtl then false
    else (held[path]?).all fun written => beats moment written

theorem getElem?_adoptable {theirs mine : TombstoneMap} {held : FileMap} {now moment : TimePoint}
    {path : Path} :
    (adoptable theirs held mine now)[path]? = some moment ↔
      theirs[path]? = some moment ∧ (∀ ours, mine[path]? = some ours → ours < moment) ∧
        now - moment ≤ tombstoneTtl ∧ ∀ t, held[path]? = some t → t.toTicks < moment := by
  rw [adoptable, PathMap.getElem?_filter, Option.filter_eq_some_iff]
  cases mine[path]? <;> cases held[path]? <;> simp [beats_iff]

/-- The paths held here that a peer lacks or holds an older copy of. -/
def gaps (mine : FileMap) (tombstones : TombstoneMap) (theirs : FileMap) : List Path :=
  (mine.toList.filter fun e =>
    if (tombstones[e.1]?).any fun grave => beats grave e.2 then false
    else (theirs[e.1]?).all fun peer => peer.toTicks < e.2.toTicks).map Prod.fst

theorem mem_gaps {mine theirs : FileMap} {tombstones : TombstoneMap} {path : Path} :
    path ∈ gaps mine tombstones theirs ↔ ∃ t, mine[path]? = some t ∧
      (∀ grave, tombstones[path]? = some grave → grave ≤ t.toTicks) ∧
      ∀ peer, theirs[path]? = some peer → peer.toTicks < t.toTicks := by
  simp only [gaps, List.mem_map, List.mem_filter, Prod.exists, exists_and_right, exists_eq_right,
    PathMap.mem_toList]
  refine exists_congr fun t => and_congr_right fun _ => ?_
  cases tombstones[path]? <;> cases theirs[path]? <;> simp [beats]

structure Heard where
  hashes : Bytes
  moment : SteadyTime
  deriving DecidableEq

abbrev StateMap := Std.ExtTreeMap Bytes Heard compare

def forgetSilent (peers : StateMap) (now : SteadyTime) : StateMap :=
  peers.filter fun _ heard => !decide (now - heard.moment > peerSilence)

/-- `Partner::pick`, the draw already made. -/
def pick (draw : ℕ) (peers : StateMap) (mine : Bytes) : Option Bytes :=
  let candidates := (peers.toList.filter fun e => e.2.hashes ≠ mine).map Prod.fst
  candidates[draw % candidates.length]?

/-- The repairs agreed to and the moment each is due. -/
abbrev PendingMap := PathMap SteadyTime

/-- One gap taken on, behind the one before it. -/
def armOne : PendingMap × SteadyTime → Path → PendingMap × SteadyTime
  | (pending, next), path =>
    if pending.contains path then (pending, next) else (pending.insert path next, next + pace)

def arm (pending : PendingMap) (missing : List Path) (now : SteadyTime) : PendingMap :=
  let next := pending.foldl (fun next _ moment => max next (moment + pace)) now
  (missing.foldl armOne (pending, next)).1

private theorem mem_foldl_armOne {p : Path} {missing : List Path} {s : PendingMap × SteadyTime} :
    p ∈ (missing.foldl armOne s).1 ↔ p ∈ s.1 ∨ p ∈ missing := by
  induction missing generalizing s with
  | nil => simp
  | cons q missing ih =>
    rw [List.foldl_cons, ih, List.mem_cons, ← or_assoc]
    refine or_congr ?_ Iff.rfl
    obtain ⟨pending, next⟩ := s
    rw [armOne]
    split
    · next hc =>
      refine ⟨.inl, fun h => h.elim id ?_⟩
      rintro rfl
      exact Std.ExtTreeMap.contains_iff_mem.mp hc
    · rw [Std.ExtTreeMap.mem_insert, Std.compare_eq_iff_eq, or_comm, eq_comm]

/-- Arming takes on what is missing and drops nothing. -/
theorem mem_arm {p : Path} {pending : PendingMap} {missing : List Path} {now : SteadyTime} :
    p ∈ arm pending missing now ↔ p ∈ pending ∨ p ∈ missing := mem_foldl_armOne

/-- The repairs whose wait is over, and the ones left waiting. -/
def due (pending : PendingMap) (now : SteadyTime) : List Path × PendingMap :=
  let ready := (pending.toList.filter fun e => e.2 ≤ now).map Prod.fst
  (ready, ready.foldl (fun pending path => pending.erase path) pending)

end SyncFs
