import Std.Data.ExtTreeMap
import SyncFs.CharConversions

/-!
# File system paths

A path is kept as the sequence of elements `std::filesystem::path` iterates
over, which is what its equality and its order read: two spellings that differ
in repeated slashes alone are one path. An empty last element is a trailing
slash.
-/

namespace SyncFs

open CharConversions

def slash : UInt8 := 47
def nul : UInt8 := 0
def dot : Bytes := ascii "."
def dotDot : Bytes := ascii ".."

structure Path where
  rooted : Bool
  parts : List Bytes
  deriving DecidableEq

namespace Path

instance : Ord Path where
  compare p q := (compare p.rooted q.rooted).then (compare p.parts q.parts)

private theorem compare_eq (p q : Path) :
    compare p q = compareLex (compareOn Path.rooted) (compareOn Path.parts) p q := rfl

instance : Std.TransOrd Path where
  eq_swap {p q} := by
    rw [compare_eq, compare_eq]
    exact Std.OrientedCmp.eq_swap
  isLE_trans {p q r} := by
    rw [compare_eq, compare_eq, compare_eq]
    exact Std.TransCmp.isLE_trans

instance : Std.LawfulEqOrd Path where
  eq_of_compare {p q} h := by
    obtain ⟨hr, hp⟩ := Ordering.then_eq_eq.mp h
    cases p
    cases q
    exact Path.mk.injEq .. ▸
      ⟨Std.LawfulEqCmp.eq_of_compare hr, Std.LawfulEqCmp.eq_of_compare hp⟩

def endsIn (s : Bytes) (c : UInt8) : Bool := s.getLast? == some c

/-- The elements of a spelled path. Where slashes are repeated the code keeps the
spelling it read and this does not; a listing repeats none. -/
def ofNative (s : Bytes) : Path :=
  let names := (s.splitOn slash).filter (· ≠ [])
  ⟨s.head? = some slash, if endsIn s slash && !names.isEmpty then names ++ [[]] else names⟩

def native (p : Path) : Bytes :=
  (if p.rooted then [slash] else []) ++ [slash].intercalate p.parts

def dropTrailing (parts : List Bytes) : List Bytes :=
  if parts.getLast? = some [] then parts.dropLast else parts

def append (p q : Path) : Path :=
  if q.rooted then q
  else if p.parts = [] then ⟨p.rooted, q.parts⟩
  else ⟨p.rooted, dropTrailing p.parts ++ if q.parts = [] then [[]] else q.parts⟩

instance : Div Path := ⟨append⟩

/-- One element taken into the elements kept so far, the last of them first,
and whether what is kept ends in a slash. -/
def normalStep (rooted : Bool) : List Bytes × Bool → Bytes → List Bytes × Bool
  | (kept, ends), part =>
    if part = [] ∨ part = dot then (kept, true)
    else if part = dotDot then
      match kept with
      | [] => if rooted then ([], ends) else ([dotDot], false)
      | last :: rest => if last = dotDot then (dotDot :: last :: rest, false) else (rest, true)
    else (part :: kept, false)

/-- What is kept, as a path: a dot for nothing at all, and no slash behind a
last dot-dot. -/
def closeNormal (rooted : Bool) : List Bytes × Bool → Path
  | ([], _) => ⟨rooted, if rooted then [] else [dot]⟩
  | (last :: rest, ends) =>
    ⟨rooted, (last :: rest).reverse ++ if ends ∧ last ≠ dotDot then [[]] else []⟩

/-- `lexically_normal`; the empty path stays empty. -/
def lexicallyNormal (p : Path) : Path :=
  if p.rooted = false ∧ p.parts = [] then p
  else closeNormal p.rooted (p.parts.foldl (normalStep p.rooted) ([], false))

def mismatch : List Bytes → List Bytes → List Bytes × List Bytes
  | a :: as, b :: bs => if a = b then mismatch as bs else (a :: as, b :: bs)
  | as, bs => (as, bs)

/-- How many directories up the rest of the base is. -/
def depth (parts : List Bytes) : ℤ :=
  (parts.map fun c => if c = dotDot then (-1 : ℤ) else if c = [] ∨ c = dot then 0 else 1).sum

def lexicallyRelative (p base : Path) : Path :=
  if p.rooted ≠ base.rooted then ⟨false, []⟩
  else
    let (a, b) := mismatch p.parts base.parts
    if a = [] ∧ b = [] then ⟨false, [dot]⟩
    else
      let n := depth b
      if n = 0 ∧ (a = [] ∨ a.head? = some []) then ⟨false, [dot]⟩
      else if 0 ≤ n then ⟨false, List.replicate n.toNat dotDot ++ a⟩
      else ⟨false, []⟩

/-- A name a directory can hold: neither empty, nor one of the two dots, and
without the two bytes no file name contains. -/
def Plain (c : Bytes) : Prop := c ≠ [] ∧ c ≠ dot ∧ c ≠ dotDot ∧ slash ∉ c ∧ nul ∉ c

instance (c : Bytes) : Decidable (Plain c) := by unfold Plain; infer_instance

/-- The form `files::list()` reports a file in: a dot, then the names that lead
to it. -/
def IsKey (p : Path) : Prop :=
  p.rooted = false ∧ p.parts.head? = some dot ∧ p.parts.tail ≠ [] ∧ ∀ c ∈ p.parts.tail, Plain c

instance (p : Path) : Decidable p.IsKey := by unfold IsKey; infer_instance

/-- The directory the daemon runs in, as it spells itself. -/
def here : Path := ⟨false, [dot]⟩

theorem IsKey.parts_eq {p : Path} (h : p.IsKey) : p.parts = dot :: p.parts.tail := by
  obtain ⟨-, hd, -, -⟩ := h
  cases hp : p.parts with
  | nil => simp [hp] at hd
  | cons c cs =>
    rw [hp, List.head?_cons, Option.some.injEq] at hd
    simp [hd]

private theorem normalStep_plain {rooted : Bool} {c : Bytes} (h : Plain c) (kept : List Bytes)
    (ends : Bool) : normalStep rooted (kept, ends) c = (c :: kept, false) := by
  obtain ⟨hn, hd, hdd, -, -⟩ := h
  simp [normalStep, hn, hd, hdd]

private theorem foldl_normalStep_plain {rooted : Bool} {cs : List Bytes} (h : ∀ c ∈ cs, Plain c)
    (kept : List Bytes) (ends : Bool) (hne : cs ≠ []) :
    cs.foldl (normalStep rooted) (kept, ends) = (cs.reverse ++ kept, false) := by
  induction cs generalizing kept ends with
  | nil => exact absurd rfl hne
  | cons c cs ih =>
    rw [List.foldl_cons, normalStep_plain (h c List.mem_cons_self)]
    cases cs with
    | nil => rfl
    | cons d ds =>
      rw [ih (fun x hx => h x (List.mem_cons_of_mem c hx)) _ _ (List.cons_ne_nil d ds)]
      simp

private theorem closeNormal_reverse {rooted : Bool} {cs : List Bytes} (hne : cs ≠ []) :
    closeNormal rooted (cs.reverse, false) = ⟨rooted, cs⟩ := by
  obtain ⟨l, r, hr⟩ := List.exists_cons_of_ne_nil (show cs.reverse ≠ [] by simpa using hne)
  have hc : cs = (l :: r).reverse := by rw [← hr, List.reverse_reverse]
  rw [hr, hc]
  simp [closeNormal]

theorem lexicallyNormal_plain {rooted : Bool} {cs : List Bytes} (h : ∀ c ∈ cs, Plain c)
    (hne : cs ≠ []) : lexicallyNormal ⟨rooted, cs⟩ = ⟨rooted, cs⟩ := by
  simp only [lexicallyNormal, hne, and_false, if_false]
  rw [foldl_normalStep_plain h _ _ hne, List.append_nil, closeNormal_reverse hne]

theorem lexicallyNormal_dot {rooted : Bool} {bs cs : List Bytes} (hb : ∀ c ∈ bs, Plain c)
    (hc : ∀ c ∈ cs, Plain c) (hne : cs ≠ []) :
    lexicallyNormal ⟨rooted, bs ++ dot :: cs⟩ = ⟨rooted, bs ++ cs⟩ := by
  have hs : ∀ kept ends, normalStep rooted (kept, ends) dot = (kept, true) := by
    intro kept ends
    simp [normalStep]
  have hd : bs.foldl (normalStep rooted) ([], false) = (bs.reverse, false) := by
    cases bs with
    | nil => rfl
    | cons b bs => rw [foldl_normalStep_plain hb _ _ (List.cons_ne_nil b bs), List.append_nil]
  simp only [lexicallyNormal, List.append_eq_nil_iff, reduceCtorEq, and_false, if_false,
    List.foldl_append, List.foldl_cons]
  rw [hd, hs, foldl_normalStep_plain hc _ _ hne, ← List.reverse_append,
    closeNormal_reverse (by simp [hne])]

@[simp] theorem rooted_lexicallyNormal (p : Path) : p.lexicallyNormal.rooted = p.rooted := by
  rw [lexicallyNormal]
  split
  · rfl
  · generalize p.parts.foldl (normalStep p.rooted) ([], false) = kept
    obtain ⟨kept, ends⟩ := kept
    cases kept <;> rfl

/-- The normal form of a listing key is the key without its dot. -/
theorem IsKey.lexicallyNormal {p : Path} (h : p.IsKey) :
    p.lexicallyNormal = ⟨false, p.parts.tail⟩ := by
  have hp : p = ⟨false, [] ++ dot :: p.parts.tail⟩ := by
    rw [List.nil_append, ← h.parts_eq, ← h.1]
  rw [hp]
  exact lexicallyNormal_dot (by simp) h.2.2.2 h.2.2.1

theorem div_names {rooted : Bool} {as bs : List Bytes} (ha : as ≠ []) (hl : as.getLast? ≠ some [])
    (hb : bs ≠ []) : (⟨rooted, as⟩ : Path) / (⟨false, bs⟩ : Path) = ⟨rooted, as ++ bs⟩ := by
  change append ⟨rooted, as⟩ ⟨false, bs⟩ = _
  have hd : dropTrailing as = as := if_neg hl
  simp [append, ha, hd, hb]

theorem IsKey.here_div {p : Path} (h : p.IsKey) : here / p.lexicallyNormal = p := by
  rw [h.lexicallyNormal]
  have hp : here / (⟨false, p.parts.tail⟩ : Path) = ⟨false, dot :: p.parts.tail⟩ :=
    div_names (List.cons_ne_nil dot []) (by decide) h.2.2.1
  rw [hp, ← h.parts_eq]
  cases p
  simp_all [IsKey]

/-- Two keys of one file are one key. -/
theorem IsKey.eq_of_lexicallyNormal {p q : Path} (hp : p.IsKey) (hq : q.IsKey)
    (h : p.lexicallyNormal = q.lexicallyNormal) : p = q := by
  rw [← hp.here_div, ← hq.here_div, h]

theorem IsKey.mem_parts {p : Path} (h : p.IsKey) {c : Bytes} (hc : c ∈ p.parts) :
    c ≠ [] ∧ slash ∉ c ∧ nul ∉ c := by
  rw [h.parts_eq, List.mem_cons] at hc
  rcases hc with rfl | hc
  · decide
  · obtain ⟨hn, -, -, hs, hz⟩ := h.2.2.2 c hc
    exact ⟨hn, hs, hz⟩

private theorem mem_intercalate {b x : UInt8} {ls : List Bytes} (hb : b ∈ [x].intercalate ls) :
    b = x ∨ ∃ l ∈ ls, b ∈ l := by
  induction ls with
  | nil => simp at hb
  | cons l ls ih =>
    cases ls with
    | nil => exact Or.inr ⟨l, List.mem_cons_self, by simpa using hb⟩
    | cons m ls =>
      rw [List.intercalate_cons_cons, List.mem_append, List.mem_append, List.mem_singleton] at hb
      rcases hb with (hb | hb) | hb
      · exact Or.inr ⟨l, List.mem_cons_self, hb⟩
      · exact Or.inl hb
      · rcases ih hb with h | ⟨k, hk, h⟩
        · exact Or.inl h
        · exact Or.inr ⟨k, List.mem_cons_of_mem l hk, h⟩

private theorem getLast?_intercalate {x : UInt8} {ls : List Bytes} (h : ∀ l ∈ ls, l ≠ [])
    (hb : ([x].intercalate ls).getLast? = some x) : ∃ l ∈ ls, x ∈ l := by
  induction ls with
  | nil => simp at hb
  | cons l ls ih =>
    cases ls with
    | nil => exact ⟨l, List.mem_cons_self, List.mem_of_getLast? (by simpa using hb)⟩
    | cons m ls =>
      have hne : [x].intercalate (m :: ls) ≠ [] := by
        cases ls with
        | nil => simpa using h m (by simp)
        | cons => simp [List.intercalate_cons_cons, h m]
      rw [List.intercalate_cons_cons, List.getLast?_append_of_ne_nil _ hne] at hb
      obtain ⟨k, hk, hx⟩ := ih (fun k hk => h k (List.mem_cons_of_mem l hk)) hb
      exact ⟨k, List.mem_cons_of_mem l hk, hx⟩

private theorem native_false {parts : List Bytes} :
    native ⟨false, parts⟩ = [slash].intercalate parts := rfl

/-- A spelling is that of its first names, a slash and that of the others. -/
theorem native_append {as bs : List Bytes} (ha : as ≠ []) (hb : bs ≠ []) :
    native ⟨false, as ++ bs⟩ = native ⟨false, as⟩ ++ slash :: native ⟨false, bs⟩ := by
  simp only [native_false]
  induction as with
  | nil => exact absurd rfl ha
  | cons a as ih =>
    cases as with
    | nil => rw [List.singleton_append, List.intercalate_cons_of_ne_nil hb,
        List.intercalate_singleton, List.append_assoc, List.singleton_append]
    | cons b as =>
      have hne : b :: as ≠ [] := List.cons_ne_nil b as
      rw [List.cons_append, List.intercalate_cons_of_ne_nil (by simp), ih hne,
        List.intercalate_cons_of_ne_nil hne, List.append_assoc, List.append_assoc,
        List.append_assoc]

theorem getLast?_native {parts : List Bytes} (h : ∀ c ∈ parts, c ≠ [] ∧ slash ∉ c) :
    (native ⟨false, parts⟩).getLast? ≠ some slash := by
  rw [native_false]
  intro hl
  obtain ⟨c, hc, hs⟩ := getLast?_intercalate (fun c hc => (h c hc).1) hl
  exact (h c hc).2 hs

theorem nul_notMem_native {parts : List Bytes} (h : ∀ c ∈ parts, nul ∉ c) :
    nul ∉ native ⟨false, parts⟩ := by
  intro hn
  rw [native_false] at hn
  rcases mem_intercalate hn with hs | ⟨c, hc, hn⟩
  · exact absurd hs (by decide)
  · exact h c hc hn

theorem ofNative_native {parts : List Bytes} (hne : parts ≠ [])
    (h : ∀ c ∈ parts, c ≠ [] ∧ slash ∉ c) : ofNative (native ⟨false, parts⟩) = ⟨false, parts⟩ := by
  have hs : ([slash].intercalate parts).splitOn slash = parts :=
    List.splitOn_intercalate slash (fun c hc => (h c hc).2) hne
  have hf : parts.filter (· ≠ []) = parts :=
    List.filter_eq_self.mpr fun c hc => by simp [(h c hc).1]
  have he : endsIn ([slash].intercalate parts) slash = false := by
    rw [endsIn, beq_eq_false_iff_ne]
    exact getLast?_native h
  have hh : ([slash].intercalate parts).head? ≠ some slash := by
    obtain ⟨c, cs, rfl⟩ := List.exists_cons_of_ne_nil hne
    obtain ⟨hc, hslash⟩ := h c List.mem_cons_self
    obtain ⟨x, xs, rfl⟩ := List.exists_cons_of_ne_nil hc
    have hx : x ≠ slash := fun he => hslash (he ▸ List.mem_cons_self)
    cases cs <;> simpa [List.intercalate_cons_cons] using hx
  rw [native_false, ofNative, hs, hf, he]
  simp [hh]

theorem IsKey.nul_notMem_native {p : Path} (h : p.IsKey) : nul ∉ p.native := by
  have hp : p = ⟨false, p.parts⟩ := by rw [← h.1]
  rw [hp]
  exact Path.nul_notMem_native fun c hc => (h.mem_parts hc).2.2

theorem IsKey.ofNative_native {p : Path} (h : p.IsKey) : ofNative p.native = p := by
  have hp : p = ⟨false, p.parts⟩ := by rw [← h.1]
  have hne : p.parts ≠ [] := by
    rw [h.parts_eq]
    exact List.cons_ne_nil _ _
  rw [hp]
  exact Path.ofNative_native hne fun c hc => ⟨(h.mem_parts hc).1, (h.mem_parts hc).2.1⟩

theorem slash_notMem_splitOn {s c : Bytes} (hc : c ∈ s.splitOn slash) : slash ∉ c := by
  induction s generalizing c with
  | nil =>
    rw [List.splitOn_nil, List.mem_singleton] at hc
    rw [hc]
    exact List.not_mem_nil
  | cons x s ih =>
    rw [List.splitOn_cons_eq_if_modifyHead] at hc
    split at hc
    · rcases List.mem_cons.mp hc with rfl | hc
      · exact List.not_mem_nil
      · exact ih hc
    · next hx =>
      obtain ⟨d, ds, hs⟩ := List.exists_cons_of_ne_nil (List.splitOn_ne_nil slash s)
      rw [hs, List.modifyHead_cons] at hc
      rcases List.mem_cons.mp hc with rfl | hc
      · rw [List.mem_cons, not_or]
        exact ⟨fun h => hx (beq_iff_eq.mpr h.symm), ih (hs ▸ List.mem_cons_self)⟩
      · exact ih (hs ▸ List.mem_cons_of_mem d hc)

/-- A spelled path: names, and behind them an empty element for a trailing slash. -/
theorem ofNative_cases (s : Bytes) :
    ∃ names : List Bytes, (∀ c ∈ names, c ≠ [] ∧ slash ∉ c) ∧
      ((ofNative s).parts = names ∨ (names ≠ [] ∧ (ofNative s).parts = names ++ [[]])) := by
  refine ⟨(s.splitOn slash).filter (· ≠ []), fun c hc => ?_, ?_⟩
  · obtain ⟨hmem, hne⟩ := List.mem_filter.mp hc
    exact ⟨of_decide_eq_true hne, slash_notMem_splitOn hmem⟩
  · simp only [ofNative]
    split
    · next h =>
      rw [Bool.and_eq_true, Bool.not_eq_true', List.isEmpty_eq_false_iff] at h
      exact Or.inr ⟨h.2, rfl⟩
    · exact Or.inl rfl

theorem slash_notMem_ofNative {s c : Bytes} (hc : c ∈ (ofNative s).parts) : slash ∉ c := by
  obtain ⟨names, hn, h | ⟨-, h⟩⟩ := ofNative_cases s
  · exact (hn c (h ▸ hc)).2
  · rw [h, List.mem_append, List.mem_singleton] at hc
    rcases hc with hc | rfl
    · exact (hn c hc).2
    · exact List.not_mem_nil

/-- Only the last element of a spelled path can be empty. -/
theorem nil_notMem_ofNative {s : Bytes} {as bs : List Bytes} (hb : bs ≠ [])
    (h : (ofNative s).parts = as ++ bs) : [] ∉ as := by
  intro hmem
  obtain ⟨names, hn, hp | ⟨-, hp⟩⟩ := ofNative_cases s
  · rw [hp] at h
    exact (hn [] (h ▸ List.mem_append_left bs hmem)).1 rfl
  · have hnames : names = as ++ bs.dropLast := by
      rw [← List.dropLast_append_of_ne_nil hb, ← h, hp, List.dropLast_concat]
    exact (hn [] (hnames ▸ List.mem_append_left _ hmem)).1 rfl

theorem ofNative_parts_ne_nil {s : Bytes} (hs : s ≠ []) (hr : (ofNative s).rooted = false) :
    (ofNative s).parts ≠ [] := by
  obtain ⟨c, cs, rfl⟩ := List.exists_cons_of_ne_nil hs
  have hc : ¬ (c == slash) = true := by
    intro h
    rw [ofNative, beq_iff_eq.mp h] at hr
    simp at hr
  obtain ⟨d, ds, hd⟩ := List.exists_cons_of_ne_nil (List.splitOn_ne_nil slash cs)
  have hsplit : (c :: cs).splitOn slash = (c :: d) :: ds := by
    rw [List.splitOn_cons_eq_if_modifyHead, if_neg hc, hd, List.modifyHead_cons]
  simp only [ofNative, hsplit]
  split <;> simp

/-- The slashes of a spelling stand between its elements. -/
theorem splitOn_native {s : Bytes} (hs : s ≠ []) (hr : (ofNative s).rooted = false) :
    (ofNative s).native.splitOn slash = (ofNative s).parts := by
  rw [native, hr, if_neg Bool.false_ne_true, List.nil_append]
  exact List.splitOn_intercalate slash (fun c hc => slash_notMem_ofNative hc)
    (ofNative_parts_ne_nil hs hr)

/-- The path survives being written down between NULs. -/
def Spelled (p : Path) : Prop := nul ∉ p.native ∧ ofNative p.native = p

instance (p : Path) : Decidable p.Spelled := by
  unfold Spelled
  infer_instance

theorem IsKey.spelled {p : Path} (h : p.IsKey) : p.Spelled :=
  ⟨h.nul_notMem_native, h.ofNative_native⟩

end Path

abbrev PathMap (β : Type) := Std.ExtTreeMap Path β compare

end SyncFs
