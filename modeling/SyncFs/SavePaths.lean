import SyncFs.Torrents

/-!
# What the save path strips

The save path of an announced path is cut off its text. The cut is one between
two elements only where a slash stands, and of what stands in front of a tail
that begins inside a name no directory was announced.
-/

namespace SyncFs

open CharConversions

def Path.Above (directory path : Path) : Prop :=
  directory.rooted = path.rooted ∧ directory.parts ≠ [] ∧
    ∃ below, below ≠ [] ∧ path.parts = directory.parts ++ below

def Path.Ends (tail path : Path) : Prop := tail.rooted = false ∧ tail.parts <:+ path.parts

/-- Only whole elements are stripped: what is left is nothing, or a directory
above the announced path that the torrent's own path leads back down from. -/
structure StripsElements (announced inTorrent : Path) : Prop where
  above : savePathFor announced inTorrent = dot ∨
    (Path.ofNative (savePathFor announced inTorrent)).Above announced ∧
      Path.ofNative (savePathFor announced inTorrent) / inTorrent = announced
  inside : inTorrent.native <:+ announced.native → ¬ inTorrent.Ends announced →
    savePathFor announced inTorrent = dot

/-- A tail of the text is the text, all of it but a dot, or has a slash in front. -/
def CutAtSlash (whole tail : Bytes) : Prop :=
  tail <:+ whole → whole = tail ∨ whole = dot ++ tail ∨ slash :: tail <:+ whole

variable {a t : Bytes}

theorem kept_of_names {front : Bytes} (hnames : [] ∉ front.splitOn slash) :
    front ≠ [] ∧ front.rdropWhile (· == slash) = front ∧
      Path.ofNative front = ⟨false, front.splitOn slash⟩ := by
  have hends : front.getLast? ≠ some slash := by
    intro hlast
    obtain ⟨front, rfl⟩ := List.getLast?_eq_some_iff.mp hlast
    rw [List.splitOn_append_cons_self] at hnames
    exact hnames (by simp)
  refine ⟨?_, ?_, ?_⟩
  · rintro rfl
    exact hnames (by simp)
  · refine List.rdropWhile_eq_self_iff.mpr fun hne hl => hends ?_
    rw [List.getLast?_eq_some_getLast hne, eq_of_beq hl]
  · have hback := Path.ofNative_native (List.splitOn_ne_nil slash front) fun c hc =>
      ⟨fun h0 => hnames (h0 ▸ hc), Path.slash_notMem_splitOn hc⟩
    have hnative : Path.native ⟨false, front.splitOn slash⟩ = front :=
      List.intercalate_splitOn slash
    rwa [hnative] at hback

theorem cut_between {front : Bytes} (ha : a ≠ []) (ht : t ≠ [])
    (hrel : (Path.ofNative a).rooted = false)
    (hcut : (Path.ofNative a).native = front ++ slash :: (Path.ofNative t).native) :
    [] ∉ front.splitOn slash ∧ (Path.ofNative t).rooted = false ∧
      (Path.ofNative a).parts = front.splitOn slash ++ (Path.ofNative t).parts := by
  have hsplit : (Path.ofNative a).parts =
      front.splitOn slash ++ (Path.ofNative t).native.splitOn slash := by
    rw [← Path.splitOn_native ha hrel, hcut, List.splitOn_append_cons_self]
  have hrelT : (Path.ofNative t).rooted = false := by
    -- the slash of a root would leave an empty element in the middle
    by_contra hroot
    rw [Bool.not_eq_false] at hroot
    have hnative : (Path.ofNative t).native =
        slash :: [slash].intercalate (Path.ofNative t).parts := by
      rw [Path.native, hroot]
      rfl
    rw [hnative, List.splitOn_cons_eq_if_modifyHead, if_pos (beq_self_eq_true slash),
      List.append_cons] at hsplit
    exact Path.nil_notMem_ofNative (List.splitOn_ne_nil _ _) hsplit (by simp)
  refine ⟨Path.nil_notMem_ofNative (List.splitOn_ne_nil _ _) hsplit, hrelT, ?_⟩
  rw [hsplit, Path.splitOn_native ht hrelT]

/-- What a directory leads down to is the tail, or has a slash in front of it. -/
theorem native_div {directory tail : Path} (hr : tail.rooted = false) (hne : tail.parts ≠ [])
    (hd : (directory / tail).rooted = false) :
    (directory / tail).native = tail.native ∨ slash :: tail.native <:+ (directory / tail).native := by
  have htail : tail = ⟨false, tail.parts⟩ := by rw [← hr]
  have hjoin : ∃ above, (directory / tail).parts = above ++ tail.parts := by
    change ∃ above, (Path.append directory tail).parts = above ++ tail.parts
    rw [Path.append, hr, if_neg Bool.false_ne_true]
    split
    · exact ⟨[], rfl⟩
    · exact ⟨Path.dropTrailing directory.parts, rfl⟩
  obtain ⟨above, hparts⟩ := hjoin
  have hwhole : directory / tail = ⟨false, above ++ tail.parts⟩ := by rw [← hd, ← hparts]
  rw [hwhole]
  by_cases habove : above = []
  · subst habove
    rw [List.nil_append, ← htail]
    exact Or.inl rfl
  · refine Or.inr ⟨Path.native ⟨false, above⟩, ?_⟩
    rw [Path.native_append habove hne, ← htail]

theorem front_of_dot {front : Bytes}
    (hdot : (if front.rdropWhile (· == slash) = [] then dot else front.rdropWhile (· == slash)) =
      dot) : front = [] ∨ front = dot ∨ ∃ before, front = before ++ [slash] := by
  rcases List.eq_nil_or_concat' front with rfl | ⟨before, last, rfl⟩
  · exact Or.inl rfl
  · by_cases hlast : last = slash
    · exact Or.inr (Or.inr ⟨before, by rw [hlast]⟩)
    · have hkept : (before ++ [last]).rdropWhile (· == slash) = before ++ [last] :=
        List.rdropWhile_concat_neg _ _ _ (by simpa using hlast)
      rw [hkept, if_neg (by simp)] at hdot
      exact Or.inr (Or.inl hdot)

/-- A path the save path leads back down to has a slash in front of the tail. -/
theorem cut_of_above (ht : t ≠ []) (hrel : (Path.ofNative a).rooted = false) {directory : Path}
    (hjoin : directory / Path.ofNative t = Path.ofNative a) :
    (Path.ofNative a).native = (Path.ofNative t).native ∨
      slash :: (Path.ofNative t).native <:+ (Path.ofNative a).native := by
  by_cases hroot : (Path.ofNative t).rooted = true
  · -- a rooted tail would have taken the directory's place
    have htaken : directory / Path.ofNative t = Path.ofNative t := if_pos hroot
    rw [htaken] at hjoin
    rw [hjoin, hrel] at hroot
    cases hroot
  · rw [Bool.not_eq_true] at hroot
    have hdown := native_div hroot (Path.ofNative_parts_ne_nil ht hroot) (hjoin ▸ hrel)
    rwa [hjoin] at hdown

theorem above_of_cut {front : Bytes} (ha : a ≠ []) (ht : t ≠ [])
    (hrel : (Path.ofNative a).rooted = false)
    (hcut : (Path.ofNative a).native = front ++ slash :: (Path.ofNative t).native) :
    (Path.ofNative front).Above (Path.ofNative a) ∧
      Path.ofNative front / Path.ofNative t = Path.ofNative a ∧
      (Path.ofNative t).Ends (Path.ofNative a) := by
  obtain ⟨hnames, hrelT, hparts⟩ := cut_between ha ht hrel hcut
  obtain ⟨-, -, hback⟩ := kept_of_names hnames
  have hne := Path.ofNative_parts_ne_nil ht hrelT
  have hdown : Path.ofNative front / Path.ofNative t = Path.ofNative a := by
    have htail : Path.ofNative t = ⟨false, (Path.ofNative t).parts⟩ := by rw [← hrelT]
    have hwhole : Path.ofNative a = ⟨false, (Path.ofNative a).parts⟩ := by rw [← hrel]
    rw [hback, htail, hwhole, hparts]
    exact Path.div_names (List.splitOn_ne_nil _ _)
      (fun hl => hnames (List.mem_of_getLast? hl)) hne
  refine ⟨⟨?_, ?_, _, hne, ?_⟩, hdown, hrelT, _, hparts.symm⟩
  · rw [hback, hrel]
  · rw [hback]
    exact List.splitOn_ne_nil _ _
  · rw [hback, hparts]

/-- Of a relative path and the path of a torrent, both normal, only whole elements
are stripped exactly when the tail is not cut inside a name. -/
theorem stripsElements_iff (ha : a ≠ []) (ht : t ≠ []) (hrel : (Path.ofNative a).rooted = false)
    (hna : (Path.ofNative a).lexicallyNormal = Path.ofNative a)
    (hnt : (Path.ofNative t).lexicallyNormal = Path.ofNative t) :
    StripsElements (Path.ofNative a) (Path.ofNative t) ↔
      CutAtSlash (Path.ofNative a).native (Path.ofNative t).native := by
  have hsave : ∀ front, (Path.ofNative a).native = front ++ (Path.ofNative t).native →
      savePathFor (Path.ofNative a) (Path.ofNative t) =
        if front.rdropWhile (· == slash) = [] then dot else front.rdropWhile (· == slash) := by
    intro front hfront
    exact savePathFor_of_append (by rw [hna, hnt, hfront])
  constructor
  · rintro ⟨habove, -⟩ ⟨front, hfront⟩
    rcases habove with hdot | ⟨-, hjoin⟩
    · rw [hsave front hfront.symm] at hdot
      rcases front_of_dot hdot with rfl | rfl | ⟨before, rfl⟩
      · exact Or.inl hfront.symm
      · exact Or.inr (Or.inl hfront.symm)
      · exact Or.inr (Or.inr ⟨before, by rw [← hfront]; simp⟩)
    · exact (cut_of_above ht hrel hjoin).imp_right Or.inr
  · intro hcut
    by_cases hsuffix : (Path.ofNative t).native <:+ (Path.ofNative a).native
    · rcases hcut hsuffix with heq | heq | ⟨front, hfront⟩
      · have hdot := hsave [] heq
        exact ⟨Or.inl hdot, fun _ _ => hdot⟩
      · have hdot := hsave dot heq
        exact ⟨Or.inl hdot, fun _ _ => hdot⟩
      · obtain ⟨hne, hdrop, -⟩ := kept_of_names (cut_between ha ht hrel hfront.symm).1
        obtain ⟨habove, hdown, hends⟩ := above_of_cut ha ht hrel hfront.symm
        have hstripped : savePathFor (Path.ofNative a) (Path.ofNative t) = front := by
          rw [hsave (front ++ [slash]) (by rw [← hfront]; simp),
            List.rdropWhile_concat_pos (· == slash) front slash (beq_self_eq_true slash), hdrop,
            if_neg hne]
        exact ⟨Or.inr (by rw [hstripped]; exact ⟨habove, hdown⟩), fun _ hnot => absurd hends hnot⟩
    · have hdot : savePathFor (Path.ofNative a) (Path.ofNative t) = dot :=
        savePathFor_of_not_suffix (by rwa [hna, hnt])
      exact ⟨Or.inl hdot, fun _ _ => hdot⟩

/-- A file called like the directory it is in. -/
theorem twiceNamed_strips :
    StripsElements (Path.ofNative (ascii "dir/dir")) (Path.ofNative (ascii "dir")) :=
  (stripsElements_iff (by decide) (by decide) (by decide) (by decide) (by decide)).mpr
    fun _ => Or.inr (Or.inr ⟨ascii "dir", by decide⟩)

/-- A name that ends like the torrent's file is cut in two, and what is left of it
is a directory nobody has. -/
theorem nameEnd_stripped :
    (Path.ofNative (ascii "dir/myf.txt")).lexicallyNormal = Path.ofNative (ascii "dir/myf.txt") ∧
      (Path.ofNative (ascii "f.txt")).lexicallyNormal = Path.ofNative (ascii "f.txt") ∧
      savePathFor (Path.ofNative (ascii "dir/myf.txt")) (Path.ofNative (ascii "f.txt")) =
        ascii "dir/my" ∧
      ¬ StripsElements (Path.ofNative (ascii "dir/myf.txt")) (Path.ofNative (ascii "f.txt")) := by
  have hsave : savePathFor (Path.ofNative (ascii "dir/myf.txt")) (Path.ofNative (ascii "f.txt")) =
      ascii "dir/my" := by decide
  refine ⟨by decide, by decide, hsave, fun hstrips => ?_⟩
  have hdot := hstrips.inside (by decide) (by unfold Path.Ends; decide)
  rw [hsave] at hdot
  revert hdot
  decide

end SyncFs
