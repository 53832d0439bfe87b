import SyncFs.InputStreams

/-!
# The peers file

`discovery::parse` reads one address a line. A line that does not fit the buffer
is an error rather than a shorter list of peers.
-/

namespace SyncFs.PeersFile

open CharConversions InputStreams

def newline : UInt8 := 10

/-- The longest example, and one more for the null character `getline` appends. -/
def maxLineLen : ℕ := (ascii "tcp://255.255.255.255:65535").length + 1

inductive File
  | missing
  | unreadable
  | text (content : Bytes)
  deriving DecidableEq

def File.stream : File → Option Stream
  | .missing => none
  | .unreadable => some (.opened none)
  | .text content => some (.opened (some content))

def cannotRead (peersFile : Bytes) : Bytes :=
  ascii "Cannot read peers file \"" ++ peersFile ++ ascii "\""

def lineTooLong (peersFile : Bytes) : Bytes :=
  ascii "Line longer than " ++ printNat maxLineLen ++ ascii " characters in peers file \"" ++
    peersFile ++ ascii "\""

def unread (file : Stream) : ℕ := if file.eof then 0 else (file.rest.getD []).length + 1

theorem unread_getline {line : Bytes} {file : Stream} (heof : ¬ file.eof = true)
    (hbad : ¬ (getline newline line file).2.bad = true)
    (hfail : ¬ ((getline newline line file).2.fail && !(getline newline line file).2.eof) = true) :
    unread (getline newline line file).2 < unread file := by
  rw [Bool.not_eq_true] at heof
  have hopen : unread file = (file.rest.getD []).length + 1 := by simp [unread, heof]
  rw [hopen]
  unfold getline at hbad hfail ⊢
  split_ifs at hbad hfail ⊢ with hgood
  · simp [heof] at hfail
  · cases hrest : file.rest with
    | none => simp [hrest] at hbad
    | some content =>
      simp only [hrest] at hfail ⊢
      rcases scan_cases newline (line.length - 1) content with ⟨-, -, hs⟩ |
        ⟨stored, rest, -, -, rfl, hs⟩ | ⟨front, c, rest, -, -, -, rfl, hs⟩
      · simp [unread, hs]
      · simp [unread, hs]
      · simp [hs] at hfail

/-- The loop, over the line buffer, the file and the addresses so far. -/
def readLines (peersFile line : Bytes) (file : Stream) (r : List Bytes) :
    Except Bytes (List Bytes) :=
  if file.eof then .ok r
  else
    let next := getline newline line file
    if next.2.bad then .error (cannotRead peersFile)
    else if next.2.fail && !next.2.eof then .error (lineTooLong peersFile)
    else
      let address := cString next.1
      if address = [] then readLines peersFile next.1 next.2 r
      else readLines peersFile next.1 next.2 (r ++ [address])
termination_by unread file
decreasing_by all_goals exact unread_getline ‹_› ‹_› ‹_›

def parse (peersFile : Bytes) (file : File) : Except Bytes (List Bytes) :=
  match file.stream with
  | none => .error (cannotRead peersFile)
  | some opened => readLines peersFile (List.replicate maxLineLen 0) opened []

theorem readLines_getline {peersFile line : Bytes} {file : Stream} {r : List Bytes}
    (heof : file.eof = false) (hbad : (getline newline line file).2.bad = false)
    (hfail : ((getline newline line file).2.fail && !(getline newline line file).2.eof) = false) :
    readLines peersFile line file r = readLines peersFile (getline newline line file).1
      (getline newline line file).2
      (r ++ [cString (getline newline line file).1].filter (· ≠ [])) := by
  rw [readLines]
  simp only [heof, hbad, hfail, Bool.false_eq_true, if_false]
  split_ifs with haddress
  · simp [haddress]
  · simp [haddress]

private theorem length_stored {line stored : Bytes} (hline : line.length = maxLineLen)
    (h : stored.length ≤ line.length - 1) : (store stored line).length = maxLineLen := by
  have hpos : 0 < maxLineLen := Nat.succ_pos _
  rw [length_store (by omega), hline]

/-- The loop from a good stream on, by the lines that are left in it. -/
theorem readLines_text (peersFile content line : Bytes) (r : List Bytes)
    (hline : line.length = maxLineLen) (hnul : 0 ∉ content) :
    readLines peersFile line (.opened (some content)) r =
      if ∃ l ∈ content.splitOn newline, maxLineLen - 1 < l.length then
        .error (lineTooLong peersFile)
      else .ok (r ++ (content.splitOn newline).filter (· ≠ [])) := by
  induction hn : content.length using Nat.strong_induction_on generalizing content line r with
  | h n ih =>
    rcases getline_cases newline line content with ⟨hd, hl, hg⟩ |
      ⟨stored, rest, hd, hl, he, hg⟩ | ⟨front, c, rest, hd, hc, hl, he, hg⟩
    · -- the last line: what follows is the end of the file
      have hshort : ¬ ∃ l ∈ content.splitOn newline, maxLineLen - 1 < l.length := by
        rw [List.splitOn_eq_singleton hd]
        simp only [List.mem_singleton, exists_eq_left]
        omega
      rw [readLines_getline rfl (by simp [hg]) (by simp [hg]), hg, readLines, if_neg hshort,
        List.splitOn_eq_singleton hd, cString_store line hnul]
      rfl
    · have hstored : 0 ∉ stored := fun h0 => hnul (he ▸ List.mem_append_left _ h0)
      have hrest : 0 ∉ rest := fun h0 => hnul (he ▸ by simp [h0])
      have hless : rest.length < n := by
        rw [← hn, he]
        simp only [List.length_append, List.length_cons]
        omega
      have hfits : ¬ maxLineLen - 1 < stored.length := by omega
      rw [readLines_getline rfl (by simp [hg]) (by simp [hg]), hg,
        ih rest.length hless rest _ _ (length_stored hline hl) hrest rfl,
        cString_store line hstored, he, List.splitOn_append_cons_self_of_not_mem hd]
      simp only [List.mem_cons, exists_eq_or_imp, hfits, false_or, List.append_assoc]
      rw [← List.filter_append]
      rfl
    · -- the buffer is full before the delimiter: the line is longer than it
      have hlong : ∃ l ∈ content.splitOn newline, maxLineLen - 1 < l.length := by
        obtain ⟨l, hmem, hlt⟩ : ∃ l ∈ (front ++ c :: rest).splitOn newline,
            front.length < l.length := exists_longer_line hd hc
        exact ⟨l, he ▸ hmem, by omega⟩
      rw [if_pos hlong, readLines]
      simp [hg]

/-- A file of text parses to an error exactly when a line of it does not fit,
and otherwise to its lines that are not empty. -/
theorem parse_exact (peersFile content : Bytes) (hnul : 0 ∉ content) :
    ((∃ e, parse peersFile (.text content) = .error e) ↔
      ∃ line ∈ content.splitOn newline, maxLineLen - 1 < line.length) ∧
    ((∀ line ∈ content.splitOn newline, line.length ≤ maxLineLen - 1) →
      parse peersFile (.text content) = .ok ((content.splitOn newline).filter (· ≠ []))) := by
  have hparse := readLines_text peersFile content (List.replicate maxLineLen 0) []
    List.length_replicate hnul
  change parse peersFile (.text content) = _ at hparse
  rw [hparse]
  refine ⟨⟨?_, ?_⟩, ?_⟩
  · rintro ⟨e, he⟩
    by_contra hshort
    rw [if_neg hshort] at he
    cases he
  · intro hlong
    exact ⟨_, if_pos hlong⟩
  · intro hshort
    rw [if_neg]
    · rfl
    · rintro ⟨line, hmem, hlt⟩
      exact absurd (hshort line hmem) (by omega)

/-- Two peers, the second as long as a line may be and without a newline. -/
theorem parse_exact_sample :
    parse (ascii "peers") (.text (ascii "tcp://a:5555\n\ntcp://255.255.255.255:65535")) =
      .ok [ascii "tcp://a:5555", ascii "tcp://255.255.255.255:65535"] :=
  (parse_exact _ _ (by decide)).2 (by decide)

end SyncFs.PeersFile
