import SyncFs.CharConversions

/-!
# Lines off an input stream

`istream::getline` into a buffer of fixed size, with the three state bits it
leaves behind. It looks for the end of the file first, then for the delimiter,
and last at the room left in the buffer.
-/

namespace InputStreams

open CharConversions

/-- What is left of a stream, or nothing where reading it fails. -/
structure Stream where
  rest : Option Bytes
  eof : Bool
  fail : Bool
  bad : Bool

def Stream.opened (content : Option Bytes) : Stream := ⟨content, false, false, false⟩

@[simp] theorem Stream.eof_opened (content : Option Bytes) : (opened content).eof = false := rfl

@[simp] theorem Stream.fail_opened (content : Option Bytes) : (opened content).fail = false := rfl

@[simp] theorem Stream.bad_opened (content : Option Bytes) : (opened content).bad = false := rfl

inductive Stop | eof | delimiter | full
  deriving DecidableEq

/-- The characters taken while the buffer has this much room, why it stopped
there and what is left. The delimiter is taken off and not stored. -/
def scan (delim : UInt8) : ℕ → Bytes → Bytes × Stop × Bytes
  | _, [] => ([], .eof, [])
  | room, c :: cs =>
    if c = delim then ([], .delimiter, cs)
    else if room = 0 then ([], .full, c :: cs)
    else
      let (stored, stop, rest) := scan delim (room - 1) cs
      (c :: stored, stop, rest)

/-- The characters and the null character behind them, over the front of the
buffer. -/
def store (stored buffer : Bytes) : Bytes := stored ++ 0 :: buffer.drop (stored.length + 1)

def cString (buffer : Bytes) : Bytes := buffer.takeWhile (· ≠ 0)

/-- `istream::getline`, with `failbit` where nothing was extracted and where the
buffer filled up. -/
def getline (delim : UInt8) (buffer : Bytes) (s : Stream) : Bytes × Stream :=
  if s.eof || s.fail || s.bad then (store [] buffer, { s with fail := true })
  else match s.rest with
    | none => (store [] buffer, { s with fail := true, bad := true })
    | some content =>
      let (stored, stop, rest) := scan delim (buffer.length - 1) content
      (store stored buffer,
        { s with
          rest := some rest
          eof := stop == .eof
          fail := stop == .full || (stop == .eof && stored.isEmpty) })

variable (delim : UInt8)

/-- One scan: a last line, a line that was terminated, or the front of a line
that is longer than the room. -/
theorem scan_cases (room : ℕ) (content : Bytes) :
    (delim ∉ content ∧ content.length ≤ room ∧ scan delim room content = (content, .eof, [])) ∨
    (∃ line rest, delim ∉ line ∧ line.length ≤ room ∧ content = line ++ delim :: rest ∧
      scan delim room content = (line, .delimiter, rest)) ∨
    (∃ front c rest, delim ∉ front ∧ c ≠ delim ∧ front.length = room ∧
      content = front ++ c :: rest ∧ scan delim room content = (front, .full, c :: rest)) := by
  induction content generalizing room with
  | nil => exact Or.inl ⟨by simp, by simp, by simp [scan]⟩
  | cons c cs ih =>
    by_cases hc : c = delim
    · exact Or.inr (Or.inl ⟨[], cs, by simp, by simp, by simp [hc], by simp [scan, hc]⟩)
    · cases room with
      | zero => exact Or.inr (Or.inr ⟨[], c, cs, by simp, hc, rfl, rfl, by simp [scan, hc]⟩)
      | succ room =>
        have hcons : ∀ line : Bytes, delim ∉ line → delim ∉ c :: line := by
          intro line hline hmem
          rcases List.mem_cons.mp hmem with h | h
          · exact hc h.symm
          · exact hline h
        rcases ih room with ⟨hd, hl, hs⟩ | ⟨line, rest, hd, hl, he, hs⟩ |
          ⟨front, d, rest, hd, hne, hl, he, hs⟩
        · exact Or.inl ⟨hcons cs hd, by simpa using hl, by simp [scan, hc, hs]⟩
        · exact Or.inr (Or.inl ⟨c :: line, rest, hcons line hd, by simpa using hl,
            by simp [he], by simp [scan, hc, hs]⟩)
        · exact Or.inr (Or.inr ⟨c :: front, d, rest, hcons front hd, hne, by simpa using hl,
            by simp [he], by simp [scan, hc, hs]⟩)

/-- One `getline` off a good stream, in the same three cases. -/
theorem getline_cases (buffer content : Bytes) :
    (delim ∉ content ∧ content.length ≤ buffer.length - 1 ∧
      getline delim buffer (.opened (some content)) =
        (store content buffer, ⟨some [], true, content.isEmpty, false⟩)) ∨
    (∃ line rest, delim ∉ line ∧ line.length ≤ buffer.length - 1 ∧ content = line ++ delim :: rest ∧
      getline delim buffer (.opened (some content)) =
        (store line buffer, .opened (some rest))) ∨
    (∃ front c rest, delim ∉ front ∧ c ≠ delim ∧ front.length = buffer.length - 1 ∧
      content = front ++ c :: rest ∧ getline delim buffer (.opened (some content)) =
        (store front buffer, ⟨some (c :: rest), false, true, false⟩)) := by
  rcases scan_cases delim (buffer.length - 1) content with ⟨hd, hl, hs⟩ |
    ⟨line, rest, hd, hl, he, hs⟩ | ⟨front, c, rest, hd, hne, hl, he, hs⟩
  · exact Or.inl ⟨hd, hl, by simp [getline, Stream.opened, hs]⟩
  · exact Or.inr (Or.inl ⟨line, rest, hd, hl, he, by simp [getline, Stream.opened, hs]⟩)
  · exact Or.inr (Or.inr ⟨front, c, rest, hd, hne, hl, he, by simp [getline, Stream.opened, hs]⟩)

variable {delim}

theorem exists_longer_line {front rest : Bytes} {c : UInt8} (hfront : delim ∉ front)
    (hc : c ≠ delim) : ∃ l ∈ (front ++ c :: rest).splitOn delim, front.length < l.length := by
  have hstart : ∀ tail : Bytes, delim ∉ tail → delim ∉ front ++ c :: tail := by
    intro tail htail hmem
    rcases List.mem_append.mp hmem with h | h
    · exact hfront h
    · rcases List.mem_cons.mp h with h | h
      · exact hc h.symm
      · exact htail h
  by_cases hmem : delim ∈ rest
  · obtain ⟨tail, more, hrest, htail⟩ := List.eq_append_cons_of_mem hmem
    have hsplit : (front ++ c :: rest).splitOn delim =
        (front ++ c :: tail) :: more.splitOn delim := by
      rw [← List.splitOn_append_cons_self_of_not_mem (hstart tail htail)]
      simp [hrest]
    refine ⟨front ++ c :: tail, ?_, ?_⟩
    · rw [hsplit]
      exact List.mem_cons_self
    · simp only [List.length_append, List.length_cons]
      omega
  · refine ⟨front ++ c :: rest, ?_, ?_⟩
    · rw [List.splitOn_eq_singleton (hstart rest hmem)]
      exact List.mem_singleton.mpr rfl
    · simp only [List.length_append, List.length_cons]
      omega

theorem length_store {stored buffer : Bytes} (h : stored.length < buffer.length) :
    (store stored buffer).length = buffer.length := by
  simp only [store, List.length_append, List.length_cons, List.length_drop]
  omega

theorem cString_store {stored : Bytes} (buffer : Bytes) (h : 0 ∉ stored) :
    cString (store stored buffer) = stored := by
  have hstored : ∀ c ∈ stored, decide (c ≠ 0) = true := by
    intro c hc
    exact decide_eq_true fun h0 => h (h0 ▸ hc)
  rw [cString, store, List.takeWhile_append_of_pos hstored]
  simp

end InputStreams
