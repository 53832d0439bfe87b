import SyncFs.TidySessions

/-!
# Times a peer cannot spell

A time that is no decimal integer reads as the epoch. It is not refused: a
remove carries it out all the same, and a create is left to lose to whatever
the node has.
-/

namespace SyncFs

open CharConversions LabelledRuns

/-- The part is not, in its entirety, a decimal integer of 64 bits. -/
def Unreadable (ticks : Bytes) : Prop := ∀ n, fromChars int64Min int64Max ticks ≠ .ok (n, [])

theorem fromTicks_of_unreadable {ticks : Bytes} (h : Unreadable ticks) : fromTicks ticks = 0 := by
  rw [fromTicks]
  split
  · next n hn => exact absurd hn (h n)
  · rfl

def stateLeft {α : Type} : Except Replica (Replica × α) → Replica
  | .error r => r
  | .ok (r, _) => r

section

variable (w : World)

/-- Every file that was on disk is as it was and so is its torrent, and every
tombstone is held at its moment or a later one. -/
structure OverwritesNothing (r left : Replica) : Prop where
  files : ∀ (p : Path) (file : File), r.disk[p]? = some file → left.disk[p]? = some file
  torrents : ∀ p ∈ r.disk, p.IsKey → left.session.torrentsAt w p = r.session.torrentsAt w p
  tombstones : ∀ (p : Path) (moment : TimePoint), r.tombstones[p]? = some moment →
    ∃ later, left.tombstones[p]? = some later ∧ moment ≤ later

/-- Of the files on disk, the one announced is served by no other torrent, and
one the torrent would be written to is served by it already. -/
def ServedAlready (r : Replica) (path : Path) (torrent : TorrentInfo) : Prop :=
  ∀ p ∈ r.disk, p.IsKey →
    (path.lexicallyNormal = p.lexicallyNormal →
      ∀ t ∈ r.session.torrentsAt w p, t.info.infoHash = torrent.infoHash) ∧
    (w.join (w.complete (savePathFor path torrent.filePath)) torrent = p.lexicallyNormal →
      ∃ t ∈ r.session.torrents, t.info.infoHash = torrent.infoHash)

/-- The system finds no file at a path, and no torrent serves a file on disk that
the text of the path names. The two part where the path leads by way of what is
not there, or goes on after a NUL. -/
def Unheld (r : Replica) (path : Path) : Prop :=
  r.find w path = none ∧ ∀ p ∈ r.disk, p.IsKey → path.lexicallyNormal = p.lexicallyNormal →
    r.session.torrentsAt w p = []

/-- A remove names no file that is held. A create names no path with a tombstone as
old as the epoch; where it names one without a tombstone, its torrent loads and
nothing on disk beats the epoch, the files it is about are served already. -/
def Innocuous (r : Replica) (v : List Bytes) : Prop :=
  if verbOf (part v 0) = ascii "remove" then Unheld w r (Path.ofNative (part v 1))
  else
    (∀ grave ∈ r.tombstones[announcedPath v]?, 0 < grave) ∧
      (r.tombstones[announcedPath v]? = none → ∀ torrent ∈ w.loadTorrentBuffer (part v 1),
        wins w r (announcedPath v) (toFileTime 0) torrent = true →
          ServedAlready w r (announcedPath v) torrent)

end

variable {w : World} {r : Replica} {s : Session} {v : List Bytes} {path : Path}

theorem OverwritesNothing.refl (r : Replica) : OverwritesNothing w r r where
  files _ _ h := h
  torrents _ _ _ := rfl
  tombstones _ moment h := ⟨moment, h, le_refl moment⟩

theorem torrents_removeStaleTorrents (ha : s.Apart) (path : Path) (added : TorrentInfo) :
    (removeStaleTorrents w s path added).1.torrents = s.torrents.filter fun t =>
      w.join t.savePath t.info = path.lexicallyNormal → t.info.infoHash = added.infoHash := by
  have hf : ∀ (us : List Torrent) (s : Session) (held : Bool),
      (us.foldl (fun (a : Session × Bool) u =>
        if u.info.infoHash = added.infoHash then (a.1, true)
        else (a.1.removeTorrent u.handle, a.2)) (s, held)).1.torrents =
      s.torrents.filter fun t => us.all fun u =>
        u.info.infoHash = added.infoHash ∨ t.handle ≠ u.handle := by
    intro us
    induction us with
    | nil => simp
    | cons u us ih =>
      intro s held
      rw [List.foldl_cons]
      split
      · next hu => simp [ih, hu]
      · next hu =>
        rw [ih, Session.removeTorrent, List.filter_filter]
        refine List.filter_congr fun t _ => ?_
        simp [hu, Bool.and_comm]
  rw [removeStaleTorrents]
  refine (hf _ s false).trans (List.filter_congr fun t ht => ?_)
  rw [Bool.eq_iff_iff, List.all_eq_true]
  simp only [decide_eq_true_eq]
  constructor
  · intro hall hjoin
    rcases hall t (Session.mem_torrentsAt.mpr ⟨ht, hjoin⟩) with h | h
    · exact h
    · exact absurd rfl h
  · intro hstays u hu
    by_cases hh : t.handle = u.handle
    · obtain ⟨hus, hjoin⟩ := Session.mem_torrentsAt.mp hu
      obtain rfl := ha t ht u hus hh
      exact Or.inl (hstays hjoin)
    · exact Or.inr hh

/-- When a create leaves standing every torrent that serves a file. -/
theorem torrentsAt_removeStaleTorrents_iff (ha : s.Apart) (path : Path) (added : TorrentInfo)
    (p : Path) :
    (removeStaleTorrents w s path added).1.torrentsAt w p = s.torrentsAt w p ↔
      (path.lexicallyNormal = p.lexicallyNormal →
        ∀ t ∈ s.torrentsAt w p, t.info.infoHash = added.infoHash) := by
  have hkept : (removeStaleTorrents w s path added).1.torrentsAt w p =
      (s.torrentsAt w p).filter fun t =>
        w.join t.savePath t.info = path.lexicallyNormal → t.info.infoHash = added.infoHash := by
    rw [Session.torrentsAt, Session.torrentsAt, torrents_removeStaleTorrents ha, List.filter_comm]
  rw [hkept, List.filter_eq_self]
  simp only [decide_eq_true_eq]
  constructor
  · exact fun h hp t ht => h t ht ((Session.mem_torrentsAt.mp ht).2.trans hp.symm)
  · exact fun h t ht hj => h (hj.symm.trans (Session.mem_torrentsAt.mp ht).2) t ht

theorem held_removeStaleTorrents_iff (ha : s.Apart) (path : Path) (added : TorrentInfo) :
    (∃ t ∈ (removeStaleTorrents w s path added).1.torrents, t.info.infoHash = added.infoHash) ↔
      ∃ t ∈ s.torrents, t.info.infoHash = added.infoHash := by
  rw [torrents_removeStaleTorrents ha]
  constructor
  · rintro ⟨t, ht, hh⟩
    exact ⟨t, (List.mem_filter.mp ht).1, hh⟩
  · rintro ⟨t, ht, hh⟩
    exact ⟨t, List.mem_filter.mpr ⟨ht, decide_eq_true fun _ => hh⟩, hh⟩

theorem torrentsAt_addTorrent_iff {info : TorrentInfo} {savePath p : Path} {ts : List Torrent}
    (hfresh : s.newTorrent info savePath ∉ ts) :
    (s.addTorrent info savePath).torrentsAt w p = ts ↔
      s.torrentsAt w p = ts ∧ (w.join savePath info = p.lexicallyNormal →
        ∃ t ∈ s.torrents, t.info.infoHash = info.infoHash) := by
  by_cases hin : ∃ t ∈ s.torrents, t.info.infoHash = info.infoHash
  · have hadd : s.addTorrent info savePath = s := by
      rw [Session.addTorrent, if_pos]
      simpa using hin
    rw [hadd]
    exact ⟨fun h => ⟨h, fun _ => hin⟩, And.left⟩
  · have hadd : (s.addTorrent info savePath).torrents =
        s.torrents ++ [s.newTorrent info savePath] := by
      rw [Session.addTorrent, if_neg]
      simpa using hin
    have hat : (s.addTorrent info savePath).torrentsAt w p = s.torrentsAt w p ++
        if w.join savePath info = p.lexicallyNormal then [s.newTorrent info savePath] else [] := by
      rw [Session.torrentsAt, hadd, List.filter_append, Session.torrentsAt]
      congr 1
      simp [Session.newTorrent, List.filter_cons]
    rw [hat]
    by_cases hlands : w.join savePath info = p.lexicallyNormal
    · refine iff_of_false (fun heq => hfresh ?_) fun h => hin (h.2 hlands)
      rw [← heq, if_pos hlands]
      simp
    · rw [if_neg hlands, List.append_nil]
      exact ⟨fun h => ⟨h, fun hl => absurd hl hlands⟩, And.left⟩

/-- When the torrents serving a file are the same after a create as before it. -/
theorem torrentsAt_applyCreate_iff (hn : Numbered r.session) (verb : Bytes) (path : Path)
    (origin : FileTime) (torrent : TorrentInfo) (p : Path) :
    (applyCreate w verb path origin torrent r).1.session.torrentsAt w p =
        r.session.torrentsAt w p ↔
      (path.lexicallyNormal = p.lexicallyNormal →
        ∀ t ∈ r.session.torrentsAt w p, t.info.infoHash = torrent.infoHash) ∧
      (w.join (w.complete (savePathFor path torrent.filePath)) torrent = p.lexicallyNormal →
        ∃ t ∈ r.session.torrents, t.info.infoHash = torrent.infoHash) := by
  let left := (removeStaleTorrents w r.session path torrent).1
  let savePath := w.complete (savePathFor path torrent.filePath)
  have hnext : left.nextHandle = r.session.nextHandle :=
    (Session.removeStaleTorrents_spec w r.session path torrent).2.1
  -- the new torrent has a handle no torrent had
  have hfresh : left.newTorrent torrent savePath ∉ r.session.torrentsAt w p := by
    intro hmem
    have hlt := hn.below _ (Session.mem_torrentsAt.mp hmem).1
    exact absurd hnext (ne_of_lt hlt)
  rw [← torrentsAt_removeStaleTorrents_iff hn.apart path torrent p,
    ← held_removeStaleTorrents_iff (w := w) hn.apart path torrent]
  exact torrentsAt_addTorrent_iff hfresh

/-- A withdrawal leaves a file its torrents, unless its path is that file's and has
some. -/
theorem torrentsAt_withdraw_iff (ha : s.Apart) {path p : Path} :
    (s.withdraw w path).torrentsAt w p = s.torrentsAt w p ↔
      (path.lexicallyNormal = p.lexicallyNormal → s.torrentsAt w p = []) := by
  have hleft : (s.withdraw w path).torrentsAt w p = (s.torrentsAt w p).filter fun t =>
      w.join t.savePath t.info ≠ path.lexicallyNormal := by
    rw [Session.torrentsAt, Session.torrents_withdraw ha, Session.torrentsAt, List.filter_comm]
  rw [hleft, List.filter_eq_self]
  simp only [decide_eq_true_eq]
  constructor
  · intro h hp
    refine List.eq_nil_iff_forall_not_mem.mpr fun t ht => h t ht ?_
    exact (Session.mem_torrentsAt.mp ht).2.trans hp.symm
  · intro h t ht hj
    rw [h (hj.symm.trans (Session.mem_torrentsAt.mp ht).2)] at ht
    exact absurd ht List.not_mem_nil

theorem overwritesNothing_actRemove_of_unheld (hn : Numbered r.session) (verb : Bytes) {path : Path}
    (deleted : TimePoint) (hu : Unheld w r path) :
    OverwritesNothing w r (stateLeft (actRemove w verb path deleted r)) := by
  have hat := fun p hp hk => (torrentsAt_withdraw_iff (p := p) hn.apart).mpr (hu.2 p hp hk)
  cases hact : actRemove w verb path deleted r with
  | error left =>
    obtain rfl := erase_error (actRemove_error hact)
    exact ⟨fun _ _ h => h, hat, fun _ moment h => ⟨moment, h, le_refl moment⟩⟩
  | ok x =>
    obtain ⟨after, verdict⟩ := x
    obtain ⟨left, herase, rfl, -⟩ := actRemove_ok hact
    obtain ⟨tree, htree, rfl⟩ := erase_ok herase
    refine ⟨fun p file hp => ?_, hat, fun p moment hp => ?_⟩
    · change tree.disk[p]? = some file
      rw [Tree.getElem?_remove htree, if_neg, hp]
      intro hl
      exact Option.some_ne_none file ((Tree.find_eq_some.mpr ⟨p, hl, hp⟩).symm.trans hu.1)
    · simp only [stateLeft, getElem?_mark]
      split
      · next heq =>
        subst heq
        rw [hp]
        exact ⟨_, rfl, le_max_left moment deleted⟩
      · exact ⟨moment, hp, le_refl moment⟩

/-- A remove spares what it does not find. -/
theorem overwritesNothing_actRemove_iff (hn : Numbered r.session) (verb : Bytes) (path : Path)
    (deleted : TimePoint) :
    OverwritesNothing w r (stateLeft (actRemove w verb path deleted r)) ↔ Unheld w r path := by
  refine ⟨fun hs => ⟨?_, fun p hp hk => ?_⟩, overwritesNothing_actRemove_of_unheld hn verb deleted⟩
  · by_contra hfind
    obtain ⟨file, hfile⟩ := Option.ne_none_iff_exists'.mp hfind
    obtain ⟨spot, -, hheld, herase⟩ := erase_of_find hfile
    have hgone := hs.files spot file hheld
    rw [actRemove, herase] at hgone
    simp [stateLeft] at hgone
  · have hsession : (stateLeft (actRemove w verb path deleted r)).session =
        r.session.withdraw w path := by
      cases hact : actRemove w verb path deleted r with
      | error left => rw [stateLeft, erase_error (actRemove_error hact)]
      | ok x =>
        have hact : actRemove w verb path deleted r = .ok (x.1, x.2) := hact
        obtain ⟨left, herase, hx, -⟩ := actRemove_ok hact
        obtain ⟨tree, -, rfl⟩ := erase_ok herase
        rw [stateLeft, hx]
    rw [← torrentsAt_withdraw_iff hn.apart, ← hsession]
    exact hs.torrents p hp hk

theorem overwritesNothing_revived (h : r.tombstones[path]? = none) :
    OverwritesNothing w r (r.revived path) where
  files _ _ h := h
  torrents _ _ _ := rfl
  tombstones p moment hp := by
    have hne : path ≠ p := by
      rintro rfl
      rw [h] at hp
      cases hp
    exact ⟨moment, by rw [Replica.revived, PathMap.getElem?_erase, if_neg hne, hp], le_refl moment⟩

/-- A create without a tombstone in its way spares what is there when the files it
is about are served already. -/
theorem overwritesNothing_applyCreate_iff (hn : Numbered r.session) (verb : Bytes)
    (origin : FileTime) (torrent : TorrentInfo) (h : r.tombstones[path]? = none) :
    OverwritesNothing w r (applyCreate w verb path origin torrent (r.revived path)).1 ↔
      ServedAlready w r path torrent := by
  have hat := torrentsAt_applyCreate_iff (w := w) (r := r.revived path) hn verb path origin torrent
  constructor
  · exact fun hs p hp hk => (hat p).mp (hs.torrents p hp hk)
  · intro hserved
    exact ⟨fun _ _ h => h, fun p hp hk => (hat p).mpr (hserved p hp hk),
      (overwritesNothing_revived (w := w) h).tombstones⟩

theorem beats_epoch_iff {grave : TimePoint} : beats grave (toFileTime 0) = true ↔ 0 < grave := by
  rw [beats_iff, toTicks_toFileTime]

theorem stateLeft_actCreate_of_late (verb buffer : Bytes) {grave : TimePoint}
    (hgrave : r.tombstones[path]? = some grave) (hlate : 0 < grave) :
    stateLeft (actCreate w verb buffer (toFileTime 0) path r) = r := by
  have hrefused : ¬ Undefeated r.tombstones path (toFileTime 0) := by
    intro hu
    have hbeaten := hu grave hgrave
    rw [beats_epoch_iff.mpr hlate] at hbeaten
    cases hbeaten
  rcases actCreate_cases w verb buffer (toFileTime 0) path r with
    ⟨-, message, hc⟩ | ⟨hu, -⟩ | ⟨hu, -⟩ | ⟨hu, -⟩
  · rw [hc]
    rfl
  all_goals exact absurd hu hrefused

/-- It lifts one that is as early as itself, whatever becomes of the file. -/
theorem tombstones_actCreate_of_early (verb buffer : Bytes) {grave : TimePoint}
    (hgrave : r.tombstones[path]? = some grave) (hearly : ¬ 0 < grave) :
    (stateLeft (actCreate w verb buffer (toFileTime 0) path r)).tombstones[path]? = none := by
  have hgone : (r.revived path).tombstones[path]? = none := by
    rw [Replica.revived, PathMap.getElem?_erase, if_pos rfl]
  rcases actCreate_cases w verb buffer (toFileTime 0) path r with
    ⟨hu, -⟩ | ⟨-, -, hc⟩ | ⟨-, torrent, -, -, message, hc⟩ | ⟨-, torrent, -, -, hc⟩
  · refine absurd (fun g hg => ?_) hu
    obtain rfl : grave = g := Option.some.inj (hgrave.symm.trans hg)
    exact Bool.eq_false_iff.mpr (mt beats_epoch_iff.mp hearly)
  all_goals
    rw [hc]
    exact hgone

theorem overwritesNothing_actCreate_iff (hn : Numbered r.session) (verb buffer : Bytes)
    (path : Path) :
    OverwritesNothing w r (stateLeft (actCreate w verb buffer (toFileTime 0) path r)) ↔
      (∀ grave ∈ r.tombstones[path]?, 0 < grave) ∧
        (r.tombstones[path]? = none → ∀ torrent ∈ w.loadTorrentBuffer buffer,
          wins w r path (toFileTime 0) torrent = true → ServedAlready w r path torrent) := by
  cases hgrave : r.tombstones[path]? with
  | some grave =>
    by_cases hlate : 0 < grave
    · rw [stateLeft_actCreate_of_late verb buffer hgrave hlate]
      exact iff_of_true (OverwritesNothing.refl r) ⟨by simpa using hlate, by simp⟩
    · refine iff_of_false (fun hs => ?_) fun h => hlate (h.1 grave rfl)
      obtain ⟨later, hl, -⟩ := hs.tombstones path grave hgrave
      rw [tombstones_actCreate_of_early verb buffer hgrave hlate] at hl
      cases hl
  | none =>
    have hu : Undefeated r.tombstones path (toFileTime 0) := by
      intro g hg
      rw [hgrave] at hg
      cases hg
    simp only [Option.mem_def, reduceCtorEq, false_implies, implies_true, true_and, forall_const]
    rcases actCreate_cases w verb buffer (toFileTime 0) path r with
      ⟨hnot, -⟩ | ⟨-, hload, hc⟩ | ⟨-, torrent, hload, hwins, message, hc⟩ |
      ⟨-, torrent, hload, hwins, hc⟩
    · exact absurd hu hnot
    · rw [hc, hload]
      exact iff_of_true (overwritesNothing_revived hgrave) fun _ h => by cases h
    · rw [hc, hload]
      refine iff_of_true (overwritesNothing_revived hgrave) fun other h hw => ?_
      obtain rfl := Option.some.inj h
      rw [hwins] at hw
      cases hw
    · rw [hc, hload]
      have hiff := overwritesNothing_applyCreate_iff (w := w) hn verb (toFileTime 0) torrent hgrave
      refine hiff.trans ⟨?_, ?_⟩
      · intro hserved other h _
        obtain rfl := Option.some.inj h
        exact hserved
      · exact fun h => h torrent rfl hwins

/-- A message with a time that cannot be read overwrites nothing exactly when it
is innocuous. -/
theorem overwritesNothing_iff {disk : Disk} {clock : TimePoint} {steady : SteadyTime}
    {h : History Node Event} {n : Node} (hr : Run (step w) (.start disk clock steady) h n) (live : n.pc ≠ .stopped)
    (hparts : partsFor (part v 0) = some v.length)
    (hverb : verbOf (part v 0) = ascii "create" ∨ verbOf (part v 0) = ascii "remove")
    (hticks : Unreadable (part v 2)) :
    OverwritesNothing w n.replica (stateLeft (act w v n.replica)) ↔ Innocuous w n.replica v := by
  have hn := (numbered_of_run hr).resolve_left live
  have horigin : originOf v = toFileTime 0 := by rw [originOf, fromTicks_of_unreadable hticks]
  rcases hverb with hverb | hverb
  · have hlength : v.length = 4 := by
      rw [partsFor_of_verbOf hverb (show (ascii "create", 4) ∈ verbs by decide)] at hparts
      exact (Option.some.inj hparts).symm
    have hother : verbOf (part v 0) ≠ ascii "remove" := by
      rw [hverb]
      decide
    rw [act_create hverb hlength, horigin, Innocuous, if_neg hother]
    exact overwritesNothing_actCreate_iff hn (ascii "create") (part v 1) (announcedPath v)
  · have hlength : v.length = removeParts := by
      rw [partsFor_of_verbOf hverb (show (ascii "remove", removeParts) ∈ verbs by decide)] at hparts
      exact (Option.some.inj hparts).symm
    have hremoves : removedPath v = some (Path.ofNative (part v 1)) := by
      match v, hverb, hlength with
      | [part0, spelled, ticks], hverb, _ => exact if_pos hverb
    rw [act_of_removedPath hremoves, Innocuous, if_pos hverb]
    exact overwritesNothing_actRemove_iff hn _ _ _

theorem unreadable_nil : Unreadable [] := by
  intro n h
  cases h

def heldSample : Node := .start (.ofList [(samplePath, sampleFile "x" 900)]) 1000 0

def untimedRemove (path : Path) : List Bytes := [ascii "remove", path.native, []]

/-- A remove whose time is empty deletes the file it names. -/
theorem untimedRemove_deletes :
    Run (step sampleWorld) heldSample [] heldSample ∧
      partsFor (part (untimedRemove samplePath) 0) = some (untimedRemove samplePath).length ∧
      Unreadable (part (untimedRemove samplePath) 2) ∧
      ¬ OverwritesNothing sampleWorld heldSample.replica
        (stateLeft (act sampleWorld (untimedRemove samplePath) heldSample.replica)) := by
  refine ⟨.refl, by decide, unreadable_nil, fun hs => ?_⟩
  have hheld : heldSample.replica.disk[samplePath]? = some (sampleFile "x" 900) := by
    decide +kernel
  have hgone : (stateLeft (act sampleWorld (untimedRemove samplePath)
      heldSample.replica)).disk[samplePath]? = none := by decide +kernel
  rw [hs.files samplePath _ hheld] at hgone
  cases hgone

/-- It does nothing to a node without the file. -/
theorem untimedRemove_overwritesNothing :
    OverwritesNothing sampleWorld heldSample.replica (stateLeft (act sampleWorld
      (untimedRemove (Path.ofNative (ascii "./b"))) heldSample.replica)) := by
  have hlive : heldSample.pc ≠ .stopped := by
    rintro ⟨⟩
  have hiff : OverwritesNothing sampleWorld heldSample.replica (stateLeft (act sampleWorld
      (untimedRemove (Path.ofNative (ascii "./b"))) heldSample.replica)) ↔
      Innocuous sampleWorld heldSample.replica (untimedRemove (Path.ofNative (ascii "./b"))) :=
    overwritesNothing_iff Run.refl hlive (by decide) (Or.inr (by decide)) unreadable_nil
  rw [hiff, Innocuous, if_pos (by decide)]
  exact ⟨by decide +kernel, fun _ _ _ _ => rfl⟩

end SyncFs
