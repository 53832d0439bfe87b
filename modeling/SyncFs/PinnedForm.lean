import Mathlib.Data.Set.Function
import SyncFs.ClosedFields
import SyncFs.Reconciliation

/-!
# The pinned form of a set and the root hash

What a node holds and what it remembers deleted are each written as one entry
a path, in path order, both fields closed by the byte no file name contains.
Each set is hashed on its own and the two digests are hashed together.
-/

namespace SyncFs

open CharConversions ClosedFields

section Encoding

variable {β : Type}

def appendEntry (out : Bytes) (path : Path) (ticks : ℤ) : Bytes :=
  out ++ path.native ++ [nul] ++ printInt ticks ++ [nul]

def encodeEntries (ticks : β → ℤ) (es : List (Path × β)) : Bytes :=
  es.foldl (fun out e => appendEntry out e.1 (ticks e.2)) []

def encode (ticks : β → ℤ) (set : PathMap β) : Bytes :=
  set.toList.foldl (fun out e => appendEntry out e.1 (ticks e.2)) []

def encodeHeld (held : FileMap) : Bytes := encode FileTime.toTicks held

def encodeTombstones (deleted : TombstoneMap) : Bytes := encode toTicks deleted

/-- `for_each_entry`, a later entry for a path replacing an earlier one. -/
def decode (ofTicks : TimePoint → β) (form : Bytes) : PathMap β :=
  .ofList ((readPairs nul form).map fun e => (Path.ofNative e.1, ofTicks (fromTicks e.2))) compare

def decodeHeld (form : Bytes) : FileMap := decode toFileTime form

def decodeTombstones (form : Bytes) : TombstoneMap := decode id form

def entryFields (ticks : β → ℤ) (e : Path × β) : Bytes × Bytes :=
  (e.1.native, printInt (ticks e.2))

variable {ticks : β → ℤ} {ofTicks : TimePoint → β} {set set' : PathMap β}

/-- How many entries of a set are encoded wholly within the first bytes. -/
def wholeEntries (ticks : β → ℤ) (set : PathMap β) (n : ℕ) : ℕ :=
  (List.range set.toList.length).countP fun i =>
    (encodeEntries ticks (set.toList.take (i + 1))).length ≤ n

theorem encodeEntries_eq_writePairs (es : List (Path × β)) :
    encodeEntries ticks es = writePairs nul (es.map (entryFields ticks)) := by
  have hf : ∀ (es : List (Path × β)) (out : Bytes),
      es.foldl (fun out e => appendEntry out e.1 (ticks e.2)) out =
        out ++ writePairs nul (es.map (entryFields ticks)) := by
    intro es
    induction es with
    | nil => intro out; simp [writePairs]
    | cons e es ih =>
      intro out
      rw [List.foldl_cons, ih]
      simp [appendEntry, writePairs, writePair, entryFields]
  exact hf es []

theorem encode_eq_writePairs :
    encode ticks set = writePairs nul (set.toList.map (entryFields ticks)) :=
  encodeEntries_eq_writePairs set.toList

theorem wholeEntries_eq (n : ℕ) :
    wholeEntries ticks set n = wholePairs nul (set.toList.map (entryFields ticks)) n := by
  simp only [wholeEntries, wholePairs, List.length_map, encodeEntries_eq_writePairs, List.map_take]

theorem nul_notMem_entryFields (hk : ∀ p ∈ set, Path.Spelled p) :
    ∀ f ∈ set.toList.map (entryFields ticks), nul ∉ f.1 ∧ nul ∉ f.2 := by
  intro f hf
  obtain ⟨⟨p, v⟩, he, rfl⟩ := List.mem_map.mp hf
  have hp := PathMap.mem_iff.mpr ⟨v, PathMap.mem_toList.mp he⟩
  exact ⟨(hk p hp).1, notMem_printInt (by decide) (by decide)⟩

private theorem map_entryFields {γ : Type} (f : Bytes → γ) (hk : ∀ p ∈ set, Path.Spelled p) :
    (set.toList.map (entryFields ticks)).map (fun e => (Path.ofNative e.1, f e.2)) =
      set.toList.map fun e => (e.1, f (printInt (ticks e.2))) := by
  rw [List.map_map]
  refine List.map_congr_left fun e he => ?_
  have hp := hk e.1 (PathMap.mem_iff.mpr ⟨e.2, PathMap.mem_toList.mp he⟩)
  simp [entryFields, hp.2]

theorem encode_injective (ht : Function.Injective ticks) (hk : ∀ p ∈ set, Path.Spelled p)
    (hk' : ∀ p ∈ set', Path.Spelled p) (h : encode ticks set = encode ticks set') : set = set' := by
  rw [encode_eq_writePairs, encode_eq_writePairs] at h
  have hm := writePairs_injective (nul_notMem_entryFields hk) (nul_notMem_entryFields hk') h
  have hf := congrArg (List.map fun e : Bytes × Bytes => (Path.ofNative e.1, id e.2)) hm
  rw [map_entryFields id hk, map_entryFields id hk'] at hf
  have hi : Function.Injective fun e : Path × β => (e.1, id (printInt (ticks e.2))) := by
    rintro ⟨p, v⟩ ⟨q, w⟩ he
    obtain ⟨rfl, hv⟩ := Prod.mk.inj he
    exact congrArg (Prod.mk p) (ht (printInt_injective hv))
  have hl := hi.list_map hf
  rw [← SortedSets.ofList_toList set, hl, SortedSets.ofList_toList]

/-- The paths that are decoded are those that were encoded, whatever became of
their ticks. -/
theorem mem_decode_encode (hk : ∀ p ∈ set, Path.Spelled p) {p : Path} :
    p ∈ decode ofTicks (encode ticks set) ↔ p ∈ set := by
  rw [decode, encode_eq_writePairs, readPairs_writePairs (nul_notMem_entryFields hk),
    map_entryFields (fun b => ofTicks (fromTicks b)) hk,
    Std.ExtTreeMap.mem_ofList, List.contains_iff_mem, List.map_map, PathMap.mem_iff]
  simp

private theorem decode_of_read {form : Bytes} {es : List (Path × β)}
    (hes : ∀ e ∈ es, e ∈ set.toList) (hk : ∀ p ∈ set, Path.Spelled p)
    (ht : ∀ (p : Path) (v : β), set[p]? = some v → InInt64 (ticks v))
    (ho : ∀ v, ofTicks (ticks v) = v) (hread : readPairs nul form = es.map (entryFields ticks)) :
    decode ofTicks form = .ofList es compare := by
  have hm : (es.map (entryFields ticks)).map
      (fun e => (Path.ofNative e.1, ofTicks (fromTicks e.2))) = es := by
    rw [List.map_map]
    refine (List.map_congr_left fun e he => ?_).trans (List.map_id es)
    have hv := PathMap.mem_toList.mp (hes e he)
    have hp := hk e.1 (PathMap.mem_iff.mpr ⟨e.2, hv⟩)
    simp [entryFields, hp.2, fromTicks_printInt (ht e.1 e.2 hv), ho]
  rw [decode, hread, hm]

theorem decode_encode (hk : ∀ p ∈ set, Path.Spelled p)
    (ht : ∀ (p : Path) (v : β), set[p]? = some v → InInt64 (ticks v))
    (ho : ∀ v, ofTicks (ticks v) = v) : decode ofTicks (encode ticks set) = set := by
  have hclosed : ∀ f ∈ set.toList.map (entryFields ticks), nul ∉ f.1 ∧ nul ∉ f.2 :=
    nul_notMem_entryFields hk
  have hread := readPairs_writePairs hclosed
  rw [← encode_eq_writePairs] at hread
  rw [decode_of_read (fun e he => he) hk ht ho hread, SortedSets.ofList_toList]

theorem decode_take (hk : ∀ p ∈ set, Path.Spelled p)
    (ht : ∀ (p : Path) (v : β), set[p]? = some v → InInt64 (ticks v))
    (ho : ∀ v, ofTicks (ticks v) = v) (n : ℕ) :
    decode ofTicks ((encode ticks set).take n) =
      .ofList (set.toList.take (wholeEntries ticks set n)) compare := by
  have hclosed : ∀ f ∈ set.toList.map (entryFields ticks), nul ∉ f.1 ∧ nul ∉ f.2 :=
    nul_notMem_entryFields hk
  have hread := readPairs_take hclosed n
  rw [← encode_eq_writePairs, ← wholeEntries_eq, ← List.map_take] at hread
  exact decode_of_read (fun e he => List.mem_of_mem_take he) hk ht ho hread

end Encoding

/-- A digest that was cut loses a tail and invents nothing, and one that was not
is the map it was encoded from. -/
theorem decode_cut {held : FileMap} {deleted : TombstoneMap} (n : ℕ)
    (hk : ∀ p ∈ held, Path.IsKey p) (dk : ∀ p ∈ deleted, Path.IsKey p)
    (ht : ∀ (p : Path) (t : FileTime), held[p]? = some t → InInt64 t.toTicks)
    (dt : ∀ (p : Path) (t : TimePoint), deleted[p]? = some t → InInt64 (toTicks t)) :
    decodeHeld ((encodeHeld held).take n) =
        .ofList (held.toList.take (wholeEntries FileTime.toTicks held n)) compare ∧
      decodeTombstones ((encodeTombstones deleted).take n) =
        .ofList (deleted.toList.take (wholeEntries toTicks deleted n)) compare ∧
      decodeHeld (encodeHeld held) = held ∧
      decodeTombstones (encodeTombstones deleted) = deleted := by
  have hs : ∀ p ∈ held, Path.Spelled p := fun p hp => (hk p hp).spelled
  have ds : ∀ p ∈ deleted, Path.Spelled p := fun p hp => (dk p hp).spelled
  have ho : ∀ t : FileTime, toFileTime t.toTicks = t := fun t => toFileTime_toTicks t
  have hid : ∀ t : TimePoint, id (toTicks t) = t := fun t => rfl
  refine ⟨?_, ?_, ?_, ?_⟩
  · exact decode_take hs ht ho n
  · exact decode_take ds dt hid n
  · exact decode_encode hs ht ho
  · exact decode_encode ds dt hid

/-- Two files, and one of them remembered deleted at the least tick there is. -/
def cutHeld : FileMap :=
  .ofList [(Path.ofNative (ascii "./a"), toFileTime 5), (Path.ofNative (ascii "./b"), toFileTime (-7))]
    compare

def cutDeleted : TombstoneMap := .ofList [(Path.ofNative (ascii "./a"), int64Min)] compare

/-- The cut stands inside the ticks of the second file and of the tombstone. -/
theorem decode_cut_inside :
    decodeHeld ((encodeHeld cutHeld).take 12) = .ofList (cutHeld.toList.take 1) compare ∧
      decodeTombstones ((encodeTombstones cutDeleted).take 12) = ∅ ∧
      decodeHeld (encodeHeld cutHeld) = cutHeld ∧
      decodeTombstones (encodeTombstones cutDeleted) = cutDeleted := by
  have hw : wholeEntries FileTime.toTicks cutHeld 12 = 1 := by decide +kernel
  have dw : wholeEntries toTicks cutDeleted 12 = 0 := by decide +kernel
  have ht : ∀ e ∈ cutHeld.toList, Path.IsKey e.1 ∧ InInt64 e.2.toTicks := by decide +kernel
  have dt : ∀ e ∈ cutDeleted.toList, Path.IsKey e.1 ∧ InInt64 (toTicks e.2) := by decide +kernel
  have h := @decode_cut cutHeld cutDeleted 12 ?_ ?_ ?_ ?_
  · rwa [hw, dw] at h
  · intro p hp
    obtain ⟨t, hpt⟩ := PathMap.mem_iff.mp hp
    exact (ht _ (PathMap.mem_toList.mpr hpt)).1
  · intro p hp
    obtain ⟨t, hpt⟩ := PathMap.mem_iff.mp hp
    exact (dt _ (PathMap.mem_toList.mpr hpt)).1
  · exact fun p t hpt => (ht _ (PathMap.mem_toList.mpr hpt)).2
  · exact fun p t hpt => (dt _ (PathMap.mem_toList.mpr hpt)).2

/-- The conversion to a 32-bit `int`, which wraps. -/
def castInt (n : ℕ) : ℤ := Int.bmod n 4294967296

theorem castInt_toNat {n : ℕ} (h : n < 2 ^ 31) : (castInt n).toNat = n := by
  have hm : castInt n = n := Int.bmod_eq_of_le (by omega) (by omega)
  rw [hm, Int.toNat_natCast]

/-- `hasher256::update`: what was fed before and the first bytes of what is fed now. -/
def update (fed data : Bytes) (size : ℤ) : Bytes := fed ++ data.take size.toNat

theorem update_whole {fed data : Bytes} (h : data.length < 2 ^ 31) :
    update fed data (castInt data.length) = fed ++ data := by
  rw [update, castInt_toNat h, List.take_length]

section Hash

variable (sha256 : Bytes → Bytes)

/-- An empty set is fed nothing at all. -/
def digestOf (form : Bytes) : Bytes :=
  sha256 (if form = [] then [] else update [] form (castInt form.length))

/-- The root hash: the two digests hashed together. -/
def hash (held : FileMap) (deleted : TombstoneMap) : Bytes :=
  let files := digestOf sha256 (encodeHeld held)
  let graves := digestOf sha256 (encodeTombstones deleted)
  sha256 (update (update [] files (castInt files.length)) graves (castInt graves.length))

variable {sha256}

theorem digestOf_eq {form : Bytes} (h : form.length < 2 ^ 31) :
    digestOf sha256 form = sha256 form := by
  rw [digestOf, update_whole h, List.nil_append, ite_eq_right_iff.mpr Eq.symm]

theorem hash_eq {held : FileMap} {deleted : TombstoneMap}
    (hh : (encodeHeld held).length < 2 ^ 31) (hd : (encodeTombstones deleted).length < 2 ^ 31)
    (hf : (sha256 (encodeHeld held)).length = 32)
    (hg : (sha256 (encodeTombstones deleted)).length = 32) :
    hash sha256 held deleted =
      sha256 (sha256 (encodeHeld held) ++ sha256 (encodeTombstones deleted)) := by
  simp only [hash]
  rw [digestOf_eq hh, digestOf_eq hd, update_whole (by omega), update_whole (by omega),
    List.nil_append]

/-- What is fed to the hasher for one root hash. -/
def hashInputs (sha256 : Bytes → Bytes) (held : FileMap) (deleted : TombstoneMap) : List Bytes :=
  [encodeHeld held, encodeTombstones deleted,
    sha256 (encodeHeld held) ++ sha256 (encodeTombstones deleted)]

/-- Equal root hashes mean equal state. -/
theorem hash_eq_iff {held₁ held₂ : FileMap} {deleted₁ deleted₂ : TombstoneMap}
    (hk₁ : ∀ p ∈ held₁, Path.IsKey p) (hk₂ : ∀ p ∈ held₂, Path.IsKey p)
    (dk₁ : ∀ p ∈ deleted₁, Path.IsKey p) (dk₂ : ∀ p ∈ deleted₂, Path.IsKey p)
    (hl₁ : (encodeHeld held₁).length < 2 ^ 31) (hl₂ : (encodeHeld held₂).length < 2 ^ 31)
    (dl₁ : (encodeTombstones deleted₁).length < 2 ^ 31)
    (dl₂ : (encodeTombstones deleted₂).length < 2 ^ 31)
    (hs : ∀ x ∈ hashInputs sha256 held₁ deleted₁ ++ hashInputs sha256 held₂ deleted₂,
      (sha256 x).length = 32)
    (hi : Set.InjOn sha256
      {x | x ∈ hashInputs sha256 held₁ deleted₁ ++ hashInputs sha256 held₂ deleted₂}) :
    hash sha256 held₁ deleted₁ = hash sha256 held₂ deleted₂ ↔
      held₁ = held₂ ∧ deleted₁ = deleted₂ := by
  simp only [hashInputs, List.cons_append, List.nil_append] at hs hi
  constructor
  · intro h
    rw [hash_eq hl₁ dl₁ (hs _ (by simp)) (hs _ (by simp)),
      hash_eq hl₂ dl₂ (hs _ (by simp)) (hs _ (by simp))] at h
    -- The digests have one width, so the boundary between the two is fixed.
    obtain ⟨hf, hg⟩ := List.append_inj (hi (by simp) (by simp) h)
      ((hs _ (by simp)).trans (hs _ (by simp)).symm)
    have he : encodeHeld held₁ = encodeHeld held₂ := hi (by simp) (by simp) hf
    have hd : encodeTombstones deleted₁ = encodeTombstones deleted₂ := hi (by simp) (by simp) hg
    exact ⟨encode_injective (fun s t => FileTime.toTicks_inj.mp) (fun p hp => (hk₁ p hp).spelled)
        (fun p hp => (hk₂ p hp).spelled) he,
      encode_injective (fun s t => id) (fun p hp => (dk₁ p hp).spelled)
        (fun p hp => (dk₂ p hp).spelled) hd⟩
  · rintro ⟨rfl, rfl⟩
    rfl

end Hash

def wideBytes (n : ℕ) : Bytes := (List.range 32).map fun i => UInt8.ofNat (n / 256 ^ (31 - i))

/-- What SHA-256 answers for the empty input, for the one entry of the file
below, and for their two digests in either order. -/
def sampleSha256 (x : Bytes) : Bytes :=
  let none := wideBytes 0xe3b0c44298fc1c149afbf4c8996fb92427ae41e4649b934ca495991b7852b855
  let entry := wideBytes 0xd24dd97644f13bb80a5d055872fb47868e03f3673c7444dab6274605b8ef4494
  if x = [] then none
  else if x = entry ++ none then
    wideBytes 0xce7908c88d5084a3a05447b93138f75e56c9a157f9ddbd9ef70c038afea419c9
  else if x = none ++ entry then
    wideBytes 0xa5ada00f341d5b26ecb0a69247ad222e4900b44b08a0adc282529708165d3103
  else entry

def sampleHeld : FileMap := .ofList [(Path.ofNative (ascii "./a"), toFileTime 5)] compare

def sampleDeleted : TombstoneMap := .ofList [(Path.ofNative (ascii "./a"), 5)] compare

def sampleInputs : List Bytes :=
  hashInputs sampleSha256 sampleHeld ∅ ++ hashInputs sampleSha256 ∅ sampleDeleted

/-- A file held at a tick and the same path deleted at that tick. -/
theorem hash_ne_held_deleted :
    hash sampleSha256 sampleHeld ∅ ≠ hash sampleSha256 ∅ sampleDeleted := by
  intro h
  have hk : (Path.ofNative (ascii "./a")).IsKey := by decide
  refine absurd ((hash_eq_iff ?_ ?_ ?_ ?_ ?_ ?_ ?_ ?_ ?_ ?_).mp h).2 ?_
  · simpa [sampleHeld] using hk
  · simp
  · simp
  · simpa [sampleDeleted] using hk
  · decide +kernel
  · decide +kernel
  · decide +kernel
  · decide +kernel
  · decide +kernel
  · have hd : ∀ x ∈ sampleInputs, ∀ y ∈ sampleInputs, sampleSha256 x = sampleSha256 y → x = y := by
      decide +kernel
    exact fun x hx y hy => hd x hx y hy
  · decide +kernel

end SyncFs
