import SyncFs.TreeWatches

/-!
# Events off the inotify descriptor

One read fills a buffer with whole events, each a header of four numbers and a
name that zeros fill up. `_read` takes them apart again.
-/

namespace SyncFs.InotifyBuffers

open CharConversions Monitor

/-- An event as it comes off the descriptor: the name is relative to the watched
directory the descriptor stands for. -/
structure RawEvent where
  name : Bytes
  wd : ℤ
  mask : Mask
  deriving DecidableEq

/-- `sizeof(inotify_event)`: descriptor, mask, cookie and the length of the name. -/
def header : ℕ := 16

def littleEndian (bytes : Bytes) : ℕ := bytes.foldr (fun byte n => byte.toNat + 256 * n) 0

def field (rest : Bytes) (i : ℕ) : ℕ := littleEndian ((rest.drop (4 * i)).take 4)

/-- The name is read as a C string. -/
def rawEvent (rest : Bytes) : RawEvent where
  name := if field rest 3 = 0 then [] else (rest.drop header).takeWhile (· ≠ 0)
  wd := Int.bmod (field rest 0) (2 ^ 32)
  mask := UInt32.ofNat (field rest 1)

def events : ℕ → Bytes → List RawEvent
  | 0, _ => []
  | rounds + 1, rest =>
    if rest.length < header then []
    else rawEvent rest :: events rounds (rest.drop (header + field rest 3))

inductive Read
  | failed (reason : Bytes)
  | filled (buffer : Bytes)
  deriving DecidableEq

def nameMax : ℕ := 255

def maxEventSize : ℕ := header + nameMax + 1

def readFd : Read → Except Bytes (List RawEvent)
  | .failed reason => .error (ascii "Failed to read on inotify fd. " ++ reason)
  | .filled buffer =>
    if buffer = [] then .error (ascii "inotify fd closed")
    else if buffer.length < header then
      .error (ascii "Read something smaller than an inotify event")
    else .ok (events buffer.length buffer)

/-! ### What the kernel fills in -/

def spell : ℕ → ℕ → Bytes
  | 0, _ => []
  | count + 1, n => UInt8.ofNat (n % 256) :: spell count (n / 256)

/-- The name and the zeros behind it take a multiple of the header. -/
def nameField (name : Bytes) : ℕ := if name = [] then 0 else (name.length / header + 1) * header

def layout (cookie : ℕ) (r : RawEvent) : Bytes :=
  spell 4 (r.wd % 2 ^ 32).toNat ++ spell 4 r.mask.toNat ++ spell 4 cookie ++
    spell 4 (nameField r.name) ++ r.name ++ List.replicate (nameField r.name - r.name.length) 0

/-- The descriptor is an `int` and the name one a directory can hold. -/
def Sent (r : RawEvent) : Prop :=
  -2 ^ 31 ≤ r.wd ∧ r.wd < 2 ^ 31 ∧ 0 ∉ r.name ∧ r.name.length ≤ 255

instance (r : RawEvent) : Decidable (Sent r) := by unfold Sent; infer_instance

variable {r : RawEvent} {cookie n : ℕ} {rest : Bytes}

@[simp] theorem length_spell (count n : ℕ) : (spell count n).length = count := by
  induction count generalizing n with
  | zero => rfl
  | succ count ih => rw [spell, List.length_cons, ih]

theorem littleEndian_spell {count : ℕ} (h : n < 256 ^ count) :
    littleEndian (spell count n) = n := by
  induction count generalizing n with
  | zero =>
    rw [pow_zero, Nat.lt_one_iff] at h
    rw [h]
    rfl
  | succ count ih =>
    have hdiv : n / 256 < 256 ^ count := by
      rw [Nat.div_lt_iff_lt_mul (by decide)]
      exact h.trans_eq (pow_succ 256 count)
    have hbyte : (UInt8.ofNat (n % 256)).toNat = n % 256 := by
      rw [UInt8.toNat_ofNat']
      omega
    change (UInt8.ofNat (n % 256)).toNat + 256 * littleEndian (spell count (n / 256)) = n
    rw [ih hdiv, hbyte]
    omega

theorem length_layout (hname : r.name.length ≤ nameField r.name) :
    (layout cookie r).length = header + nameField r.name := by
  simp only [layout, List.length_append, length_spell, List.length_replicate, header]
  omega

theorem length_le_nameField (name : Bytes) : name.length ≤ nameField name := by
  unfold nameField header
  split
  · next h => simp [h]
  · omega

theorem length_layout_le (hr : Sent r) : (layout cookie r).length ≤ maxEventSize := by
  obtain ⟨-, -, -, hlen⟩ := hr
  rw [length_layout (length_le_nameField r.name)]
  unfold nameField header maxEventSize header nameMax
  split <;> omega

theorem field_append (before : Bytes) {i : ℕ} (hi : before.length = 4 * i) (hn : n < 2 ^ 32)
    (rest : Bytes) : field (before ++ (spell 4 n ++ rest)) i = n := by
  rw [field, List.drop_left' hi, List.take_left' (length_spell 4 n), littleEndian_spell hn]

theorem toNat_emod_bmod {wd : ℤ} (hlo : -2 ^ 31 ≤ wd) (hhi : wd < 2 ^ 31) :
    Int.bmod ((wd % 2 ^ 32).toNat : ℤ) (2 ^ 32) = wd := by
  have hnonneg : 0 ≤ wd % 2 ^ 32 := Int.emod_nonneg wd (by decide)
  rw [Int.toNat_of_nonneg hnonneg, Int.bmod_def]
  split <;> omega

theorem takeWhile_layout {name : Bytes} (hname : (0 : UInt8) ∉ name) (k : ℕ) (rest : Bytes)
    (hk : 0 < k) : (name ++ (List.replicate k 0 ++ rest)).takeWhile (· ≠ 0) = name := by
  obtain ⟨k, rfl⟩ := Nat.exists_eq_add_one.mpr hk
  have hall : ∀ byte ∈ name, decide (byte ≠ 0) = true := by
    intro byte hbyte
    exact decide_eq_true fun h => hname (h ▸ hbyte)
  rw [List.takeWhile_append_of_pos hall, List.replicate_succ, List.cons_append,
    List.takeWhile_cons_of_neg (by decide), List.append_nil]

/-- The header of an event that was laid out, before whatever follows. -/
theorem field_layout (cookie : ℕ) (hr : Sent r) (rest : Bytes) :
    field (layout cookie r ++ rest) 0 = (r.wd % 2 ^ 32).toNat ∧
      field (layout cookie r ++ rest) 1 = r.mask.toNat ∧
      field (layout cookie r ++ rest) 3 = nameField r.name := by
  obtain ⟨-, -, -, hlen⟩ := hr
  have hwd : (r.wd % 2 ^ 32).toNat < 2 ^ 32 := by omega
  have hmask : r.mask.toNat < 2 ^ 32 := r.mask.toNat_lt
  have hname : nameField r.name < 2 ^ 32 := by
    unfold nameField header
    split <;> omega
  simp only [layout, List.append_assoc]
  refine ⟨field_append [] rfl hwd _, field_append _ (length_spell 4 _) hmask _, ?_⟩
  rw [← List.append_assoc (spell 4 r.mask.toNat), ← List.append_assoc (spell 4 _)]
  exact field_append _ (by simp only [List.length_append, length_spell]) hname _

theorem rawEvent_layout (hr : Sent r) (rest : Bytes) :
    rawEvent (layout cookie r ++ rest) = r := by
  obtain ⟨hfd, hmask, hlen⟩ := field_layout cookie hr rest
  obtain ⟨hlo, hhi, hzero, -⟩ := hr
  have hname : (if nameField r.name = 0 then [] else
      ((layout cookie r ++ rest).drop header).takeWhile (· ≠ 0)) = r.name := by
    by_cases he : r.name = []
    · rw [he]
      rfl
    · have hpos : r.name.length < nameField r.name := by
        rw [nameField, if_neg he, header]
        omega
      rw [if_neg (by omega), layout, List.append_assoc, List.append_assoc, List.drop_left']
      · exact takeWhile_layout hzero _ rest (by omega)
      · simp only [List.length_append, length_spell, header]
  rw [rawEvent, hfd, hmask, hlen, hname, toNat_emod_bmod hlo hhi, UInt32.ofNat_toNat]

theorem drop_layout (hr : Sent r) (rest : Bytes) :
    (layout cookie r ++ rest).drop (header + field (layout cookie r ++ rest) 3) = rest := by
  rw [(field_layout cookie hr rest).2.2]
  exact List.drop_left' (length_layout (length_le_nameField r.name))

/-- The loop gives back every event that was laid out, in order. -/
theorem events_layout {laid : List (ℕ × RawEvent)} (hl : ∀ x ∈ laid, Sent x.2) {rounds : ℕ}
    (hn : laid.length < rounds) :
    events rounds (laid.flatMap fun x => layout x.1 x.2) = laid.map (·.2) := by
  induction laid generalizing rounds with
  | nil =>
    obtain ⟨rounds, rfl⟩ := Nat.exists_eq_add_one.mpr (Nat.pos_of_lt_add_left hn)
    rfl
  | cons x laid ih =>
    obtain ⟨rounds, rfl⟩ := Nat.exists_eq_add_one.mpr (Nat.zero_lt_of_lt hn)
    have hx : Sent x.2 := hl x List.mem_cons_self
    have hlen : ¬ (layout x.1 x.2 ++ laid.flatMap fun x => layout x.1 x.2).length < header := by
      rw [List.length_append, length_layout (length_le_nameField x.2.name)]
      omega
    rw [List.flatMap_cons, events, if_neg hlen, rawEvent_layout hx, drop_layout hx,
      ih (fun y hy => hl y (List.mem_cons_of_mem x hy)) (Nat.lt_of_succ_lt_succ hn),
      List.map_cons]

theorem le_length_flatMap (laid : List (ℕ × RawEvent)) :
    header * laid.length ≤ (laid.flatMap fun x => layout x.1 x.2).length := by
  induction laid with
  | nil => rfl
  | cons x laid ih =>
    rw [List.flatMap_cons, List.length_append, List.length_cons,
      length_layout (length_le_nameField x.2.name), Nat.mul_succ]
    omega

/-- However the kernel cuts its queue into reads, `_read` takes nothing away and
adds nothing. -/
theorem readFd_layout {laid : List (ℕ × RawEvent)} (hl : ∀ x ∈ laid, Sent x.2)
    (hne : laid ≠ []) :
    readFd (.filled (laid.flatMap fun x => layout x.1 x.2)) = .ok (laid.map (·.2)) := by
  have hpos : 0 < laid.length := List.length_pos_iff.mpr hne
  have hlen : header * laid.length ≤ (laid.flatMap fun x => layout x.1 x.2).length :=
    le_length_flatMap laid
  rw [header] at hlen
  have hfull : (laid.flatMap fun x => layout x.1 x.2) ≠ [] :=
    List.length_pos_iff.mp (by omega)
  rw [readFd, if_neg hfull, if_neg (by rw [header]; omega), events_layout hl (by omega)]

/-! ### A queue read to its end -/

def batchSize : ℕ := 16

/-- The events of a queue that one read has room for, and those it leaves. -/
def fitting : ℕ → List (ℕ × RawEvent) → List (ℕ × RawEvent) × List (ℕ × RawEvent)
  | _, [] => ([], [])
  | room, x :: queue =>
    if (layout x.1 x.2).length ≤ room then
      (x :: (fitting (room - (layout x.1 x.2).length) queue).1,
        (fitting (room - (layout x.1 x.2).length) queue).2)
    else ([], x :: queue)

/-- So many reads, as long as anything is queued. -/
def reads : ℕ → List (ℕ × RawEvent) → List (Except Bytes (List RawEvent))
  | 0, _ => []
  | _ + 1, [] => []
  | rounds + 1, x :: queue =>
    let (taken, left) := fitting (batchSize * maxEventSize) (x :: queue)
    readFd (.filled (taken.flatMap fun x => layout x.1 x.2)) :: reads rounds left

theorem fitting_append (room : ℕ) (queue : List (ℕ × RawEvent)) :
    (fitting room queue).1 ++ (fitting room queue).2 = queue := by
  induction queue generalizing room with
  | nil => rfl
  | cons x queue ih =>
    rw [fitting]
    split
    · rw [List.cons_append, ih]
    · rfl

theorem le_length_fitting {room k : ℕ} {queue : List (ℕ × RawEvent)}
    (hq : ∀ x ∈ queue, Sent x.2) (hk : k * maxEventSize ≤ room) :
    k ≤ (fitting room queue).1.length ∨ (fitting room queue).2 = [] := by
  induction queue generalizing room k with
  | nil => exact .inr rfl
  | cons x queue ih =>
    obtain ⟨hx, hq⟩ := List.forall_mem_cons.mp hq
    have hlen : (layout x.1 x.2).length ≤ maxEventSize := length_layout_le hx
    cases k with
    | zero => exact .inl (Nat.zero_le _)
    | succ k =>
      rw [Nat.succ_mul] at hk
      rw [fitting, if_pos (by omega)]
      have hrest : k * maxEventSize ≤ room - (layout x.1 x.2).length := by omega
      exact (ih hq hrest).imp_left Nat.succ_le_succ

/-- What one read takes of a queue, it reads; it takes something, and no less
than a batch unless that is all there is. -/
theorem readFd_fitting {queue : List (ℕ × RawEvent)} (hq : ∀ x ∈ queue, Sent x.2)
    (hne : queue ≠ []) :
    ∃ taken left, fitting (batchSize * maxEventSize) queue = (taken, left) ∧
      queue = taken ++ left ∧ taken ≠ [] ∧ (batchSize ≤ taken.length ∨ left = []) ∧
      readFd (.filled (taken.flatMap fun x => layout x.1 x.2)) = .ok (taken.map (·.2)) := by
  have happend := fitting_append (batchSize * maxEventSize) queue
  have hlength := le_length_fitting (k := batchSize) hq le_rfl
  have htaken : (fitting (batchSize * maxEventSize) queue).1 ≠ [] := by
    intro hnone
    rw [hnone] at happend hlength
    rcases hlength with hlt | hleft
    · exact absurd hlt (by decide)
    · exact hne (happend.symm.trans (by rw [hleft, List.append_nil]))
  have hsent : ∀ x ∈ (fitting (batchSize * maxEventSize) queue).1, Sent x.2 := fun x hx =>
    hq x (happend ▸ List.mem_append_left _ hx)
  exact ⟨_, _, rfl, happend.symm, htaken, hlength, readFd_layout hsent htaken⟩

/-- Whatever is queued is read whole and in order, no read fails or comes back
with nothing, and sixteen events are never more than one read. -/
theorem reads_drain {queue : List (ℕ × RawEvent)} (hq : ∀ x ∈ queue, Sent x.2) :
    ∃ batches : List (List RawEvent),
      reads ((queue.length + (batchSize - 1)) / batchSize) queue = batches.map .ok ∧
        batches.flatten = queue.map (·.2) ∧ ∀ batch ∈ batches, batch ≠ [] := by
  have hall : ∀ rounds, ∀ queue : List (ℕ × RawEvent), (∀ x ∈ queue, Sent x.2) →
      queue.length ≤ batchSize * rounds → ∃ batches : List (List RawEvent),
        reads rounds queue = batches.map .ok ∧ batches.flatten = queue.map (·.2) ∧
          ∀ batch ∈ batches, batch ≠ [] := by
    intro rounds
    induction rounds with
    | zero =>
      intro queue hq hn
      obtain rfl := List.eq_nil_of_length_eq_zero (Nat.le_zero.mp hn)
      exact ⟨[], rfl, rfl, fun batch h => absurd h List.not_mem_nil⟩
    | succ rounds ih =>
      intro queue hq hn
      cases queue with
      | nil => exact ⟨[], rfl, rfl, fun batch h => absurd h List.not_mem_nil⟩
      | cons x queue =>
        obtain ⟨taken, left, hfit, happend, hne, hlength, hread⟩ :=
          readFd_fitting hq (List.cons_ne_nil x queue)
        have hleft : left.length ≤ batchSize * rounds := by
          rcases hlength with hlength | rfl
          · rw [happend, List.length_append, Nat.mul_succ] at hn
            omega
          · exact Nat.zero_le _
        obtain ⟨batches, hreads, hflat, hall⟩ := ih left
          (fun y hy => hq y (happend ▸ List.mem_append_right _ hy)) hleft
        refine ⟨taken.map (·.2) :: batches, ?_, ?_, ?_⟩
        · rw [reads, hfit]
          dsimp only
          rw [hread, hreads, List.map_cons]
        · rw [List.flatten_cons, hflat, happend, List.map_append]
        · exact List.forall_mem_cons.mpr ⟨fun h => hne (List.map_eq_nil_iff.mp h), hall⟩
  refine hall _ queue hq ?_
  rw [batchSize]
  omega

/-- Two events whose names are read back, in the one read they take. -/
theorem reads_drain_sample : ∃ batches : List (List RawEvent),
    reads 1 [(7, ⟨ascii "a", 1, 8⟩), (8, ⟨[], 2, 512⟩)] = batches.map .ok ∧
      batches.flatten = [⟨ascii "a", 1, 8⟩, ⟨[], 2, 512⟩] := by
  obtain ⟨batches, hreads, hflat, -⟩ := reads_drain
    (show ∀ x ∈ [(7, ⟨ascii "a", 1, 8⟩), (8, ⟨[], 2, 512⟩)], Sent x.2 by decide)
  exact ⟨batches, hreads, hflat⟩

end SyncFs.InotifyBuffers
