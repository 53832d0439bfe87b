import SyncFs.Transfers

/-!
# Tidy sessions

libtorrent gives a handle out once, and a create whose torrent lands at the
path it announces takes the place of whatever served that path. A handle then
names one torrent for good and a path is served by one torrent at most.
-/

namespace SyncFs

open CharConversions LabelledRuns

section

variable (w : World)

/-- The torrent's file is the announced one, where libtorrent puts it as well as
where it is read back from the session, and the announced path is a listing key. -/
def Lands (path : Path) (torrent : TorrentInfo) : Prop :=
  let savePath := w.complete (savePathFor path torrent.filePath)
  path.IsKey ∧ w.join savePath torrent = path.lexicallyNormal ∧
    w.place (savePath / torrent.filePath) = path

/-- A create the step applies lands at the path it announces. -/
def HonestCreate (n : Node) (e : Event) : Prop :=
  ∀ v ∈ appliedBy w n e, ∀ torrent ∈ torrentOf w v, Lands w (announcedPath v) torrent

instance (path : Path) (torrent : TorrentInfo) : Decidable (Lands w path torrent) := by
  unfold Lands
  infer_instance

instance (n : Node) (e : Event) : Decidable (HonestCreate w n e) := by
  unfold HonestCreate
  infer_instance

/-- The torrent's file is at the listing key it reports. -/
def Sits (t : Torrent) : Prop :=
  (w.heldPath t).IsKey ∧ w.join t.savePath t.info = (w.heldPath t).lexicallyNormal ∧
    w.spot t = w.heldPath t

structure Tidy (s : Session) : Prop where
  sits : ∀ t ∈ s.torrents, Sits w t
  below : ∀ t ∈ s.torrents, t.handle < s.nextHandle
  distinct : ∀ t ∈ s.torrents, ∀ u ∈ s.torrents, t.handle = u.handle → t = u
  single : ∀ t ∈ s.torrents, ∀ u ∈ s.torrents, w.heldPath t = w.heldPath u → t = u

end

/-- A change that leaves a torrent the one it is, and complete if it was. -/
structure Gentle (f : Torrent → Torrent) : Prop where
  handle : ∀ t, (f t).handle = t.handle
  info : ∀ t, (f t).info = t.info
  savePath : ∀ t, (f t).savePath = t.savePath
  complete : ∀ t, t.complete = true → (f t).complete = true

/-- What a step does to the session. -/
inductive Reshaped (w : World) (n : Node) (e : Event) : Session → Prop
  | modified {handle : ℕ} {f : Torrent → Torrent} (gentle : Gentle f) :
    Reshaped w n e (n.replica.session.modify handle f)
  | kept {s : Session} (sub : ∀ t ∈ s.torrents, t ∈ n.replica.session.torrents)
    (next : s.nextHandle = n.replica.session.nextHandle) : Reshaped w n e s
  | added {v : List Bytes} {torrent : TorrentInfo} (applied : appliedBy w n e = some v)
    (loads : torrentOf w v = some torrent) :
    Reshaped w n e (n.replica.applied w v torrent).session

variable {w : World} {n m : Node} {e : Event} {h : History Node Event}
variable {s : Session} {t : Torrent}

/-- The directories a torrent dropped on loading are those the save path puts back. -/
theorem savePathFor_dropped {path : Path} {tops names : List Bytes} (h : path.IsKey)
    (hp : path.parts.tail = tops ++ names) (ht : tops ≠ []) (hn : names ≠ []) :
    savePathFor path ⟨false, names⟩ = Path.native ⟨false, tops⟩ := by
  have hplain : ∀ c ∈ tops ++ names, Path.Plain c := hp ▸ h.2.2.2
  have htops : ∀ c ∈ tops, c ≠ [] ∧ slash ∉ c := fun c hc =>
    have hc := hplain c (List.mem_append_left names hc)
    ⟨hc.1, hc.2.2.2.1⟩
  have hnames : Path.lexicallyNormal ⟨false, names⟩ = ⟨false, names⟩ := Path.lexicallyNormal_plain
    (fun c hc => hplain c (List.mem_append_right tops hc)) hn
  have hwhole : path.lexicallyNormal.native =
      (Path.native ⟨false, tops⟩ ++ [slash]) ++ Path.native ⟨false, names⟩ := by
    rw [h.lexicallyNormal, hp, Path.native_append ht hn, List.append_assoc, List.singleton_append]
  have hends : (Path.native ⟨false, tops⟩ ++ [slash]).rdropWhile (· == slash) =
      Path.native ⟨false, tops⟩ := by
    rw [List.rdropWhile_concat_pos _ _ _ (by decide)]
    refine List.rdropWhile_eq_self_iff.mpr fun hne hl => Path.getLast?_native htops ?_
    rw [List.getLast?_eq_some_getLast hne, eq_of_beq hl]
  have hne : Path.native ⟨false, tops⟩ ≠ [] := by
    intro he
    have hback := Path.ofNative_native ht htops
    rw [he] at hback
    exact ht (congrArg Path.parts hback).symm
  rw [savePathFor_of_append (by rw [hwhole, hnames]), hends, if_neg hne]

/-- The save path of a torrent that has dropped none or some of the directories
above its file is where those directories lead. -/
theorem savePath_of_dropped {path : Path} {torrent : TorrentInfo} {tops : List Bytes}
    (h : path.IsKey) (hr : torrent.filePath.rooted = false) (hne : torrent.filePath.parts ≠ [])
    (hp : path.parts.tail = tops ++ torrent.filePath.parts) :
    w.complete (savePathFor path torrent.filePath) = ⟨true, w.root.parts ++ tops⟩ := by
  have hplain : ∀ c ∈ tops ++ torrent.filePath.parts, Path.Plain c := hp ▸ h.2.2.2
  have hf : torrent.filePath = ⟨false, torrent.filePath.parts⟩ := by rw [← hr]
  have hnormal : path.lexicallyNormal = ⟨false, tops ++ torrent.filePath.parts⟩ := by
    rw [h.lexicallyNormal, hp]
  generalize torrent.filePath.parts = names at hf hne hp hplain hnormal
  by_cases ht : tops = []
  · subst ht
    have hdot : savePathFor path torrent.filePath = dot := by
      rw [hf, ← List.nil_append names, ← hnormal, savePathFor]
      have hn : path.lexicallyNormal.lexicallyNormal = path.lexicallyNormal := by
        rw [hnormal, Path.lexicallyNormal_plain hplain hne]
      simp [hn]
    rw [World.complete, if_pos (Or.inr hdot), List.append_nil, ← w.root_rooted]
  · have hc : ∀ c ∈ tops, Path.Plain c := fun c hc => hplain c (List.mem_append_left names hc)
    have hback := Path.ofNative_native ht fun c h => ⟨(hc c h).1, (hc c h).2.2.2.1⟩
    rw [hf, savePathFor_dropped h hp ht hne, World.complete, if_neg, hback, w.root_div ht]
    rintro (he | he)
    · rw [he] at hback
      exact ht (congrArg Path.parts hback).symm
    · rw [he] at hback
      have hd : tops = [dot] := (congrArg Path.parts hback).symm
      exact (hc dot (hd ▸ List.mem_singleton_self dot)).2.1 rfl

theorem savePath_div_of_dropped {path : Path} {torrent : TorrentInfo} {tops : List Bytes}
    (h : path.IsKey) (hr : torrent.filePath.rooted = false) (hne : torrent.filePath.parts ≠ [])
    (hp : path.parts.tail = tops ++ torrent.filePath.parts) :
    w.complete (savePathFor path torrent.filePath) / torrent.filePath =
      w.root / path.lexicallyNormal := by
  have hf : torrent.filePath = ⟨false, torrent.filePath.parts⟩ := by rw [← hr]
  rw [savePath_of_dropped h hr hne hp, h.lexicallyNormal, hp, w.root_div (by simp [hne])]
  by_cases ht : tops = []
  · subst ht
    rw [List.append_nil, List.nil_append, ← w.root_div hne, ← hf, ← w.root_rooted]
  · have hl : (w.root.parts ++ tops).getLast? ≠ some [] := by
      rw [List.getLast?_append_of_ne_nil _ ht]
      intro hl
      have hmem : [] ∈ path.parts.tail := by
        rw [hp]
        exact List.mem_append_left _ (List.mem_of_getLast? hl)
      exact (h.2.2.2 [] hmem).1 rfl
    rw [hf, Path.div_names (by simp [ht]) hl hne, List.append_assoc]

/-- A torrent that has dropped none or some of the directories above its file
lands at the listing key. -/
theorem lands_of_dropped {path : Path} {torrent : TorrentInfo} {tops : List Bytes} (h : path.IsKey)
    (hr : torrent.filePath.rooted = false) (hne : torrent.filePath.parts ≠ [])
    (hp : path.parts.tail = tops ++ torrent.filePath.parts) : Lands w path torrent := by
  have hplain : ∀ c ∈ tops ++ torrent.filePath.parts, Path.Plain c := hp ▸ h.2.2.2
  have hf : torrent.filePath = ⟨false, torrent.filePath.parts⟩ := by rw [← hr]
  refine ⟨h, ?_, ?_⟩
  · rw [World.join, savePath_of_dropped h hr hne hp]
    by_cases ht : tops = []
    · subst ht
      rw [List.append_nil, ← w.root_rooted]
      change (w.root.lexicallyRelative w.root / torrent.filePath).lexicallyNormal = _
      rw [w.lexicallyRelative_self, hf, ← List.nil_append torrent.filePath.parts, ← hp,
        ← h.lexicallyNormal, h.here_div]
    · have hc : ∀ c ∈ tops, Path.Plain c := fun c hc => hplain c (List.mem_append_left _ hc)
      have hl : tops.getLast? ≠ some [] := fun hl => (hc [] (List.mem_of_getLast? hl)).1 rfl
      rw [w.lexicallyRelative_root hc ht, hf, Path.div_names ht hl hne,
        Path.lexicallyNormal_plain hplain (by simp [hne]), h.lexicallyNormal, hp]
  · rw [savePath_div_of_dropped h hr hne hp, w.place_root_div h]

theorem lands_of_filePath {path : Path} {torrent : TorrentInfo} (h : path.IsKey)
    (hf : torrent.filePath = path.lexicallyNormal) : Lands w path torrent := by
  rw [h.lexicallyNormal] at hf
  have htail : path.parts.tail = [] ++ torrent.filePath.parts := by
    rw [hf]
    rfl
  exact lands_of_dropped h (by rw [hf]) (by rw [hf]; exact h.2.2.1) htail

namespace Session

theorem mem_of_find {handle : ℕ} (hf : s.find handle = some t) :
    t ∈ s.torrents ∧ t.handle = handle :=
  ⟨List.mem_of_find?_eq_some hf, by simpa using List.find?_some hf⟩

theorem find_of_mem (ha : s.Apart) (ht : t ∈ s.torrents) : s.find t.handle = some t := by
  cases hf : s.find t.handle with
  | none => simpa using List.find?_eq_none.mp hf t ht
  | some u =>
    obtain ⟨hu, hh⟩ := mem_of_find hf
    rw [ha u hu t ht hh]

theorem mem_modify {handle : ℕ} {f : Torrent → Torrent} (ht : t ∈ (s.modify handle f).torrents) :
    ∃ u ∈ s.torrents, t = if u.handle = handle then f u else u := by
  obtain ⟨u, hu, rfl⟩ := List.mem_map.mp ht
  exact ⟨u, hu, rfl⟩

/-- The stale torrents of a path are gone; one of this very announcement stays. -/
theorem removeStaleTorrents_spec (w : World) (s : Session) (path : Path) (added : TorrentInfo) :
    (∀ t ∈ (removeStaleTorrents w s path added).1.torrents, t ∈ s.torrents ∧
      (t ∈ s.torrentsAt w path → t.info.infoHash = added.infoHash)) ∧
    (removeStaleTorrents w s path added).1.nextHandle = s.nextHandle ∧
    ((removeStaleTorrents w s path added).2 = true ↔
      ∃ t ∈ s.torrentsAt w path, t.info.infoHash = added.infoHash) := by
  have hf : ∀ (us : List Torrent) (a : Session × Bool),
      let b := us.foldl (fun (a : Session × Bool) u =>
        if u.info.infoHash = added.infoHash then (a.1, true)
        else (a.1.removeTorrent u.handle, a.2)) a
      (∀ t ∈ b.1.torrents, t ∈ a.1.torrents ∧ (t ∈ us → t.info.infoHash = added.infoHash)) ∧
        b.1.nextHandle = a.1.nextHandle ∧
        (b.2 = true ↔ a.2 = true ∨ ∃ t ∈ us, t.info.infoHash = added.infoHash) := by
    intro us
    induction us with
    | nil => simp
    | cons u us ih =>
      intro a
      by_cases hu : u.info.infoHash = added.infoHash
      · obtain ⟨hm, hn, hb⟩ := ih (a.1, true)
        simp only [List.foldl_cons, hu, if_true]
        refine ⟨fun t ht => ⟨(hm t ht).1, fun hmem => ?_⟩, hn, by simp [hb, hu]⟩
        rcases List.mem_cons.mp hmem with rfl | hmem
        · exact hu
        · exact (hm t ht).2 hmem
      · obtain ⟨hm, hn, hb⟩ := ih (a.1.removeTorrent u.handle, a.2)
        simp only [List.foldl_cons, hu, if_false]
        refine ⟨fun t ht => ?_, hn, by simp [hb, hu]⟩
        obtain ⟨ht', hne⟩ := List.mem_filter.mp (hm t ht).1
        refine ⟨ht', fun hmem => ?_⟩
        rcases List.mem_cons.mp hmem with rfl | hmem
        · simp at hne
        · exact (hm t ht).2 hmem
  obtain ⟨hm, hn, hb⟩ := hf (s.torrentsAt w path) (s, false)
  exact ⟨hm, hn, hb.trans (or_iff_right Bool.false_ne_true)⟩

theorem removeStaleTorrents_same {path : Path} {added : TorrentInfo}
    (h : ∀ u ∈ s.torrentsAt w path, u.info.infoHash = added.infoHash) :
    (removeStaleTorrents w s path added).1 = s := by
  have hf : ∀ (us : List Torrent) (held : Bool), (∀ u ∈ us, u.info.infoHash = added.infoHash) →
      (us.foldl (fun (a : Session × Bool) u =>
        if u.info.infoHash = added.infoHash then (a.1, true)
        else (a.1.removeTorrent u.handle, a.2)) (s, held)).1 = s := by
    intro us
    induction us with
    | nil => exact fun _ _ => rfl
    | cons u us ih =>
      intro held h
      obtain ⟨hu, hus⟩ := List.forall_mem_cons.mp h
      rw [List.foldl_cons, if_pos hu, ih _ hus]
  exact hf _ false h

/-- A torrent is added unless the session has one of its info hash. -/
theorem addTorrent_cases (s : Session) (info : TorrentInfo) (savePath : Path) :
    s.addTorrent info savePath = s ∨
      s.addTorrent info savePath = { s with
        torrents := s.torrents ++ [s.newTorrent info savePath]
        nextHandle := s.nextHandle + 1 } ∧
      ∀ u ∈ s.torrents, u.info.infoHash ≠ info.infoHash := by
  rw [addTorrent]
  split
  · exact .inl rfl
  · next hn => exact .inr ⟨rfl, by simpa using hn⟩

theorem torrentsAt_modify {handle : ℕ} {f : Torrent → Torrent} (hf : Gentle f) {path : Path} :
    (s.modify handle f).torrentsAt w path =
      (s.torrentsAt w path).map fun t => if t.handle = handle then f t else t := by
  rw [torrentsAt, modify, List.filter_map, torrentsAt]
  refine congrArg (List.map _) (List.filter_congr fun t _ => ?_)
  rw [Function.comp]
  split
  · rw [hf.info, hf.savePath]
  · rfl

theorem torrentsAt_withdraw {p q : Path} (ha : s.Apart) (hp : p.IsKey) (hq : q.IsKey) :
    (s.withdraw w p).torrentsAt w q = if p = q then [] else s.torrentsAt w q := by
  rw [torrentsAt, torrents_withdraw ha, List.filter_filter]
  split
  · next he =>
    subst he
    refine List.filter_eq_nil_iff.mpr fun t _ hb => ?_
    rw [Bool.and_eq_true, decide_eq_true_eq, decide_eq_true_eq] at hb
    exact hb.2 hb.1
  · next hne =>
    refine List.filter_congr fun t _ => ?_
    rw [Bool.eq_iff_iff, Bool.and_eq_true, and_iff_left_iff_imp, decide_eq_true_eq,
      decide_eq_true_eq]
    intro hj hn
    exact hne (hp.eq_of_lexicallyNormal hq (hn.symm.trans hj))

theorem nextHandle_withdraw {path : Path} : (s.withdraw w path).nextHandle = s.nextHandle := by
  have hf : ∀ (us : List Torrent) (s : Session),
      (us.foldl (fun s t => s.removeTorrent t.handle) s).nextHandle = s.nextHandle := by
    intro us
    induction us with
    | nil => exact fun _ => rfl
    | cons u us ih => exact fun s => ih _
  exact hf _ s

end Session

theorem HonestCreate.receive {v : List Bytes} (hh : HonestCreate w n (.receive (some v)))
    (hp : n.pc = .receive) (ha : applies w v n.replica = true) :
    ∀ torrent ∈ torrentOf w v, Lands w (announcedPath v) torrent := by
  apply hh v
  rw [appliedBy_receive hp, ha]
  rfl

def World.added (w : World) (s : Session) (v : List Bytes) (torrent : TorrentInfo) : Torrent :=
  s.newTorrent torrent (w.complete (savePathFor (announcedPath v) torrent.filePath))

theorem session_applied {r : Replica} {v : List Bytes} {torrent : TorrentInfo} :
    (r.applied w v torrent).session = (r.serving w v torrent).session := by
  obtain ⟨left, he, hl⟩ := applied_cases w r v torrent
  rw [he]
  rcases hl with ⟨-, hs⟩ | ⟨-, rfl⟩
  · exact hs.session
  · rfl

theorem heldAlready_iff {r : Replica} {v : List Bytes} {torrent : TorrentInfo} :
    heldAlready w r v torrent = true ↔
      ∃ t ∈ r.session.torrentsAt w (announcedPath v), t.info.infoHash = torrent.infoHash :=
  (Session.removeStaleTorrents_spec _ _ _ _).2.2

/-- The session an applied create leaves: its own torrent is added to those of
other paths, or there is one already and nothing is added. -/
theorem torrents_applied (w : World) (r : Replica) (v : List Bytes) (torrent : TorrentInfo) :
    (∃ left, (r.applied w v torrent).session.torrents = left ++ [w.added r.session v torrent] ∧
      (r.applied w v torrent).session.nextHandle = r.session.nextHandle + 1 ∧
      ∀ u ∈ left, u ∈ r.session.torrents ∧ u ∉ r.session.torrentsAt w (announcedPath v)) ∨
    ((r.applied w v torrent).session.nextHandle = r.session.nextHandle ∧
      ∀ u ∈ (r.applied w v torrent).session.torrents, u ∈ r.session.torrents ∧
        (u ∈ r.session.torrentsAt w (announcedPath v) → u.info.infoHash = torrent.infoHash)) := by
  obtain ⟨hm, hn, -⟩ := Session.removeStaleTorrents_spec w r.session (announcedPath v) torrent
  let left := (removeStaleTorrents w r.session (announcedPath v) torrent).1
  let savePath := w.complete (savePathFor (announcedPath v) torrent.filePath)
  have hs : (r.applied w v torrent).session.torrents =
      (left.addTorrent torrent savePath).torrents ∧
      (r.applied w v torrent).session.nextHandle =
        (left.addTorrent torrent savePath).nextHandle := by
    rw [session_applied]
    exact ⟨rfl, rfl⟩
  rw [hs.1, hs.2]
  rcases left.addTorrent_cases torrent savePath with he | ⟨he, hne⟩
  · rw [he]
    exact .inr ⟨hn, hm⟩
  · rw [he]
    refine .inl ⟨left.torrents, ?_, congrArg (· + 1) hn, fun u hu => ?_⟩
    · rw [World.added, Session.newTorrent, Session.newTorrent, ← hn]
    · exact ⟨(hm u hu).1, fun hat => hne u hu ((hm u hu).2 hat)⟩

theorem nextHandle_applied {r : Replica} {v : List Bytes} {torrent : TorrentInfo} :
    r.session.nextHandle ≤ (r.applied w v torrent).session.nextHandle := by
  rcases torrents_applied w r v torrent with
    ⟨_, -, hn, -⟩ | ⟨hn, -⟩
  · omega
  · exact le_of_eq hn.symm

theorem gentle_open : Gentle fun t => { t with opened := true } where
  handle _ := rfl
  info _ := rfl
  savePath _ := rfl
  complete t h := by simp_all [Torrent.complete]

theorem gentle_onDisk (offset length : ℕ) : Gentle (Torrent.onDisk offset length) where
  handle _ := rfl
  info _ := rfl
  savePath _ := rfl
  complete t h := by simp_all [Torrent.complete, Torrent.onDisk]

theorem gentle_state (state : TorrentState) : Gentle fun t => { t with state := state } where
  handle _ := rfl
  info _ := rfl
  savePath _ := rfl
  complete _ h := h

theorem gentle_flushing : Gentle fun t => { t with flushing := true } where
  handle _ := rfl
  info _ := rfl
  savePath _ := rfl
  complete _ h := h

private theorem Reshaped.same : Reshaped w n e n.replica.session :=
  .kept (fun _ h => h) rfl

private theorem withdrawn_erase {r left : Replica} {path : Path}
    (he : erase w r path = .ok left) :
    (∀ t ∈ left.session.torrents, t ∈ r.session.torrents) ∧
      left.session.nextHandle = r.session.nextHandle := by
  obtain ⟨disk, -, rfl⟩ := erase_ok he
  exact ⟨fun t ht => (Session.mem_withdraw.mp ht).1, Session.nextHandle_withdraw⟩

theorem Stepped.reshaped (hs : Stepped w n e m) (hl : m.pc ≠ .stopped) :
    Reshaped w n e m.replica.session := by
  cases hs with
  | tick | directory | localWrite | localDelete | post | test | pop | processed | clear | send | idle | list
  | nothing | repair => exact .same
  | ltOpen => exact .modified gentle_open
  | ltVerify | ltWrite => exact .modified (gentle_onDisk _ _)
  | ltState => exact .modified (gentle_state _)
  | top =>
    rw [beginPass]
    split <;> exact .same
  | round => split <;> exact .same
  | @process alert rest =>
    have hq := SyncFs.processed w n alert
    generalize processAlert w n alert = r at hq
    cases hq with
    | skipped => exact .same
    | finished => exact .modified gentle_flushing
    | flushed _ _ stamps => exact stamps.session ▸ .same
  | @receive v hpc =>
    obtain ⟨r, he, hrec⟩ := takeIn_live hl
    rw [he]
    generalize hb : applies w v n.replica = b at hrec
    cases hrec with
    | rejected | refused | state => exact .same
    | removed _ erased =>
      obtain ⟨hsub, hnext⟩ := withdrawn_erase erased
      exact .kept hsub hnext
    | applied _ _ loads _ => exact .added (appliedBy_eq_some.mpr ⟨hpc, rfl, hb⟩) loads
    | digest _ adopted _ =>
      have ha := adopt_preserves
        (P := fun r => (∀ t ∈ r.session.torrents, t ∈ n.replica.session.torrents) ∧
          r.session.nextHandle = n.replica.session.nextHandle)
        ⟨fun _ h => h, rfl⟩ (fun _ _ _ _ hr => hr)
        (fun r left path moment _ hr hx => by
          obtain ⟨hsub, hnext⟩ := withdrawn_erase (r := r.unlisted path moment) hx
          exact ⟨fun t ht => hr.1 t (hsub t ht), hnext.trans hr.2⟩)
        adopted
      exact .kept ha.1 ha.2

structure Numbered (s : Session) : Prop where
  below : ∀ t ∈ s.torrents, t.handle < s.nextHandle
  apart : s.Apart

theorem Tidy.numbered (ht : Tidy w s) : Numbered s := ⟨ht.below, ht.distinct⟩

/-- What a modified session holds is what it held, under the same handle and of
the same file. -/
theorem Session.mem_modify_gentle {handle : ℕ} {f : Torrent → Torrent} (gentle : Gentle f)
    (ht : t ∈ (s.modify handle f).torrents) :
    ∃ u ∈ s.torrents, t = (if u.handle = handle then f u else u) ∧
      t.handle = u.handle ∧ t.info = u.info ∧ t.savePath = u.savePath := by
  obtain ⟨u, hu, rfl⟩ := Session.mem_modify ht
  refine ⟨u, hu, rfl, ?_⟩
  split
  · exact ⟨gentle.handle u, gentle.info u, gentle.savePath u⟩
  · exact ⟨rfl, rfl, rfl⟩

namespace Numbered

theorem sub (hn : Numbered s) {left : Session} (hsub : ∀ t ∈ left.torrents, t ∈ s.torrents)
    (hnext : left.nextHandle = s.nextHandle) : Numbered left where
  below t h := hnext ▸ hn.below t (hsub t h)
  apart t h u hu := hn.apart t (hsub t h) u (hsub u hu)

theorem modify (hn : Numbered s) {handle : ℕ} {f : Torrent → Torrent} (gentle : Gentle f) :
    Numbered (s.modify handle f) where
  below t h := by
    obtain ⟨u, hu, -, hhandle, -⟩ := Session.mem_modify_gentle gentle h
    rw [hhandle]
    exact hn.below u hu
  apart t h t' h' he := by
    obtain ⟨u, hu, rfl, hhandle, -⟩ := Session.mem_modify_gentle gentle h
    obtain ⟨u', hu', rfl, hhandle', -⟩ := Session.mem_modify_gentle gentle h'
    rw [hhandle, hhandle'] at he
    rw [hn.apart u hu u' hu' he]

theorem withdraw (hn : Numbered s) {path : Path} : Numbered (s.withdraw w path) :=
  hn.sub (fun _ ht => (Session.mem_withdraw.mp ht).1) Session.nextHandle_withdraw

theorem applied {r : Replica} (hn : Numbered r.session) {v : List Bytes} {torrent : TorrentInfo} :
    Numbered (r.applied w v torrent).session := by
  rcases torrents_applied w r v torrent with ⟨left, htor, hnext, hleft⟩ | ⟨hnext, hold⟩
  · have hlt : ∀ u ∈ left, u.handle < (w.added r.session v torrent).handle :=
      fun u hu => hn.below u (hleft u hu).1
    have hmem : ∀ t, t ∈ (r.applied w v torrent).session.torrents →
        t ∈ left ∨ t = w.added r.session v torrent := by
      intro t h
      rw [htor] at h
      simpa using h
    constructor
    · intro t h
      rw [hnext]
      rcases hmem t h with h | rfl
      · exact Nat.lt_succ_of_lt (hlt t h)
      · exact Nat.lt_succ_self _
    · intro t h u hu he
      rcases hmem t h with h | rfl <;> rcases hmem u hu with hu | rfl
      · exact hn.apart t (hleft t h).1 u (hleft u hu).1 he
      · exact absurd he (hlt t h).ne
      · exact absurd he (hlt u hu).ne'
      · rfl
  · exact hn.sub (fun u hu => (hold u hu).1) hnext

theorem reshaped (hn : Numbered n.replica.session) (hr : Reshaped w n e s) : Numbered s := by
  cases hr with
  | kept sub next => exact hn.sub sub next
  | modified gentle => exact hn.modify gentle
  | added => exact hn.applied

end Numbered

theorem numbered_of_run {disk : Disk} {clock : TimePoint} {steady : SteadyTime}
    (hr : Run (step w) (.start disk clock steady) h n) :
    n.pc = .stopped ∨ Numbered n.replica.session := by
  have hi : Numbered (Node.start disk clock steady).replica.session := by
    constructor
    · exact fun _ h => absurd h List.not_mem_nil
    · exact fun _ h => absurd h List.not_mem_nil
  exact live_invariant (I := fun _ n => Numbered n.replica.session) hi
    (fun _ _ _ _ hI _ hs hl => hI.reshaped (hs.reshaped hl)) hr (always_true h)

namespace Tidy

theorem mem_torrentsAt (hs : Sits w t) (ht : t ∈ s.torrents) {path : Path} (hp : path.IsKey) :
    t ∈ s.torrentsAt w path ↔ w.heldPath t = path := by
  rw [Session.mem_torrentsAt, hs.2.1]
  constructor
  · exact fun h => hs.1.eq_of_lexicallyNormal hp h.2
  · rintro rfl
    exact ⟨ht, rfl⟩

/-- Stamps are put on listing keys. -/
theorem isKey_of_stampCall (ht : Tidy w n.replica.session) (hh : HonestCreate w n e)
    {call : Replica × Path × FileTime} (hc : stampCall w n e = some call) : call.2.1.IsKey := by
  rcases stampCall_cases hc with ⟨alert, rest, t, -, -, -, hf, rfl⟩ |
    ⟨v, torrent, hpc, rfl, ha, hload, -, rfl⟩
  · exact (ht.sits t (Session.mem_of_find hf).1).1
  · exact (hh.receive hpc ha torrent hload).1

theorem sits_added {v : List Bytes} {torrent : TorrentInfo}
    (hl : Lands w (announcedPath v) torrent) :
    Sits w (w.added s v torrent) ∧ w.heldPath (w.added s v torrent) = announcedPath v := by
  obtain ⟨hk, hj, hs⟩ := hl
  have hh : w.heldPath (w.added s v torrent) = announcedPath v := by
    rw [World.heldPath, World.added, Session.newTorrent, hj, hk.here_div]
  exact ⟨⟨hh ▸ hk, by rw [hh]; exact hj, hh ▸ hs⟩, hh⟩

theorem torrents_held {r : Replica} (ht : Tidy w r.session) {v : List Bytes}
    {torrent : TorrentInfo} (hl : Lands w (announcedPath v) torrent)
    (hh : heldAlready w r v torrent = true) :
    (r.applied w v torrent).session.torrents = r.session.torrents := by
  obtain ⟨t, hat, hhash⟩ := heldAlready_iff.mp hh
  have hmem := (Session.mem_torrentsAt.mp hat).1
  have hp := (mem_torrentsAt (ht.sits t hmem) hmem hl.1).mp hat
  have hsame : ∀ u ∈ r.session.torrentsAt w (announcedPath v),
      u.info.infoHash = torrent.infoHash := by
    intro u hu
    have hu' := (Session.mem_torrentsAt.mp hu).1
    have hup := (mem_torrentsAt (ht.sits u hu') hu' hl.1).mp hu
    rw [ht.single u hu' t hmem (hup.trans hp.symm), hhash]
  have hany : r.session.torrents.any (·.info.infoHash = torrent.infoHash) = true :=
    List.any_eq_true.mpr ⟨t, hmem, decide_eq_true hhash⟩
  have hs : (r.applied w v torrent).session.torrents =
      ((removeStaleTorrents w r.session (announcedPath v) torrent).1.addTorrent torrent
        (w.complete (savePathFor (announcedPath v) torrent.filePath))).torrents := by
    rw [session_applied]
    rfl
  rw [hs, Session.removeStaleTorrents_same hsame, Session.addTorrent, if_pos hany]

theorem sub (ht : Tidy w s) {left : Session} (hsub : ∀ t ∈ left.torrents, t ∈ s.torrents)
    (hnext : left.nextHandle = s.nextHandle) : Tidy w left where
  sits t h := ht.sits t (hsub t h)
  below := (ht.numbered.sub hsub hnext).below
  distinct := (ht.numbered.sub hsub hnext).apart
  single t h u hu := ht.single t (hsub t h) u (hsub u hu)

theorem modify (ht : Tidy w s) {handle : ℕ} {f : Torrent → Torrent} (gentle : Gentle f) :
    Tidy w (s.modify handle f) := by
  have hsame : ∀ {t u : Torrent}, t.info = u.info → t.savePath = u.savePath →
      w.heldPath t = w.heldPath u ∧ w.spot t = w.spot u := by
    intro t u hi hs
    rw [World.heldPath, World.heldPath, World.spot, World.spot, hi, hs]
    exact ⟨rfl, rfl⟩
  have hn : Numbered (s.modify handle f) := ht.numbered.modify gentle
  constructor
  · intro t h
    obtain ⟨u, hu, -, -, hi, hs⟩ := Session.mem_modify_gentle gentle h
    obtain ⟨hp, hspot⟩ := hsame hi hs
    rw [Sits, hp, hspot, hi, hs]
    exact ht.sits u hu
  · exact hn.below
  · exact hn.apart
  · intro t h t' h' he
    obtain ⟨u, hu, rfl, -, hi, hs⟩ := Session.mem_modify_gentle gentle h
    obtain ⟨u', hu', rfl, -, hi', hs'⟩ := Session.mem_modify_gentle gentle h'
    rw [(hsame hi hs).1, (hsame hi' hs').1] at he
    rw [ht.single u hu u' hu' he]

theorem applied {r : Replica} (ht : Tidy w r.session) {v : List Bytes} {torrent : TorrentInfo}
    (hl : Lands w (announcedPath v) torrent) : Tidy w (r.applied w v torrent).session := by
  rcases torrents_applied w r v torrent with ⟨left, htor, hnext, hleft⟩ | ⟨hnext, hold⟩
  · have hn : Numbered (r.applied w v torrent).session := ht.numbered.applied
    obtain ⟨hsits, hheld⟩ := sits_added (s := r.session) hl
    have hne : ∀ u ∈ left, w.heldPath u ≠ announcedPath v := fun u hu he =>
      (hleft u hu).2 ((mem_torrentsAt (ht.sits u (hleft u hu).1) (hleft u hu).1 hl.1).mpr he)
    have hmem : ∀ t, t ∈ (r.applied w v torrent).session.torrents →
        t ∈ left ∨ t = w.added r.session v torrent := by
      intro t h
      rw [htor] at h
      simpa using h
    constructor
    · intro t h
      rcases hmem t h with h | rfl
      · exact ht.sits t (hleft t h).1
      · exact hsits
    · exact hn.below
    · exact hn.apart
    · intro t h u hu he
      rcases hmem t h with h | rfl <;> rcases hmem u hu with hu | rfl
      · exact ht.single t (hleft t h).1 u (hleft u hu).1 he
      · exact absurd (he.trans hheld) (hne t h)
      · exact absurd (he.symm.trans hheld) (hne u hu)
      · rfl
  · exact ht.sub (fun u hu => (hold u hu).1) hnext

theorem reshaped (ht : Tidy w n.replica.session) (hh : HonestCreate w n e)
    (hr : Reshaped w n e s) : Tidy w s := by
  cases hr with
  | kept sub next => exact ht.sub sub next
  | modified gentle => exact ht.modify gentle
  | added applied loads => exact ht.applied (hh _ applied _ loads)

end Tidy

end SyncFs
