import SyncFs.TidySessions

/-!
# Where the torrent of a create sits

A file is named four ways: by its listing key, by the normal form of it, by the
tail of it that the torrent still knows and by the save path the rest is put
back through. The session answers for the same file in all of them.
-/

namespace SyncFs

open CharConversions

/-- The path libtorrent knows the one file of a torrent by once it has loaded
it: a single directory above the file is dropped. -/
def loadedPath (q : Path) : Path :=
  if q.parts.length = 2 then ⟨false, q.parts.getLast?.toList⟩ else q

variable {w : World} {path : Path} {torrent : TorrentInfo}

theorem exists_dropped (h : path.IsKey)
    (hload : torrent.filePath = loadedPath path.lexicallyNormal) :
    ∃ tops, torrent.filePath.rooted = false ∧ torrent.filePath.parts ≠ [] ∧
      path.parts.tail = tops ++ torrent.filePath.parts := by
  rw [hload, h.lexicallyNormal, loadedPath]
  split
  · next htwo =>
    obtain ⟨directory, file, hparts⟩ := List.length_eq_two.mp htwo
    change path.parts.tail = [directory, file] at hparts
    rw [hparts]
    exact ⟨[directory], rfl, List.cons_ne_nil file [], rfl⟩
  · exact ⟨[], rfl, h.2.2.1, rfl⟩

/-- A create adds the torrent it carries, at the save path of its own path. -/
theorem savePath_of_added {r r' : Replica} {v : List Bytes} {verdict : Except Bytes Outcome}
    {t : Torrent} (hact : act w v r = .ok (r', verdict)) (ht : t ∈ r'.session.torrents)
    (hnew : t ∉ r.session.torrents) :
    w.loadTorrentBuffer (part v 1) = some t.info ∧
      t.savePath = w.complete (savePathFor (announcedPath v) t.info.filePath) ∧
      ∃ outcome, verdict = .ok outcome ∧ outcome.created = some (announcedPath v) := by
  -- Whatever leaves the session as it was, or smaller, has added nothing.
  have hadds : ∀ (left : Replica) (verdict : Except Bytes Outcome),
      act w v r = .ok (left, verdict) →
      ¬ ∀ t ∈ left.session.torrents, t ∈ r.session.torrents := by
    intro left verdict he hsub
    rw [he] at hact
    obtain ⟨rfl, -⟩ := Prod.mk.inj (Except.ok.inj hact)
    exact hnew (hsub t ht)
  rcases act_cases w v r with ⟨error, he⟩ | ⟨removed, -, he⟩ | ⟨-, -, he⟩ | ⟨-, -, message, he⟩
  · exact absurd (fun _ h => h) (hadds r _ he)
  · rw [he] at hact
    obtain ⟨left, herase, rfl, -⟩ := actRemove_ok hact
    obtain ⟨disk, -, rfl⟩ := erase_ok herase
    exact absurd (Session.mem_withdraw.mp ht).1 hnew
  · rcases actCreate_cases w (ascii "create") (part v 1) (originOf v) (announcedPath v) r with
      ⟨-, message, hc⟩ | ⟨-, -, hc⟩ | ⟨-, torrent, -, -, message, hc⟩ | ⟨-, torrent, hload, -, hc⟩
    · exact absurd (fun _ h => h) (hadds r _ (he.trans hc))
    · rw [he, hc] at hact
      cases hact
    · exact absurd (fun _ h => h) (hadds (r.revived (announcedPath v)) _ (he.trans hc))
    · rw [he, hc] at hact
      obtain ⟨rfl, rfl⟩ := Prod.mk.inj (Except.ok.inj hact)
      obtain ⟨hleft, -, -⟩ :=
        Session.removeStaleTorrents_spec w r.session (announcedPath v) torrent
      let left := (removeStaleTorrents w r.session (announcedPath v) torrent).1
      let savePath := w.complete (savePathFor (announcedPath v) torrent.filePath)
      have hin : t ∈ (left.addTorrent torrent savePath).torrents := ht
      rcases left.addTorrent_cases torrent savePath with hs | ⟨hs, -⟩
      · rw [hs] at hin
        exact absurd (hleft t hin).1 hnew
      · rw [hs] at hin
        rcases List.mem_append.mp hin with hin | hin
        · exact absurd (hleft t hin).1 hnew
        · rw [List.mem_singleton.mp hin]
          exact ⟨hload, rfl, _, rfl, rfl⟩
  · exact absurd (fun _ h => h) (hadds r _ he)

/-- A torrent is written, found and stamped under the path it was announced at. -/
theorem torrent_sits {r r' : Replica} {v : List Bytes} {verdict : Except Bytes Outcome}
    {t : Torrent} (hkey : path.IsKey) (hspelled : part v 3 = path.native)
    (hloads : ∀ torrent, w.loadTorrentBuffer (part v 1) = some torrent →
      torrent.filePath = loadedPath path.lexicallyNormal)
    (hact : act w v r = .ok (r', verdict)) (ht : t ∈ r'.session.torrents)
    (hnew : t ∉ r.session.torrents) :
    t.savePath = w.complete (savePathFor path t.info.filePath) ∧
      t.savePath / t.info.filePath = w.root / path.lexicallyNormal ∧
      (∀ k : Path, t ∈ r'.session.torrentsAt w k ↔ k.lexicallyNormal = path.lexicallyNormal) ∧
      w.heldPath t = path ∧
      (∃ outcome, verdict = .ok outcome ∧ outcome.created = some (w.heldPath t)) ∧
      ∀ now, removedPath (Source.remove path now) = some (w.heldPath t) := by
  have hannounced : announcedPath v = path := by
    rw [announcedPath, hspelled, hkey.ofNative_native]
  obtain ⟨hload, hsave, hcreated⟩ := savePath_of_added hact ht hnew
  rw [hannounced] at hsave hcreated
  obtain ⟨tops, hr, hne, hp⟩ := exists_dropped hkey (hloads t.info hload)
  obtain ⟨-, hjoin, -⟩ := lands_of_dropped (w := w) hkey hr hne hp
  have hheld : w.heldPath t = path := by
    rw [World.heldPath, hsave, hjoin, hkey.here_div]
  refine ⟨hsave, ?_, ?_, hheld, ?_, ?_⟩
  · rw [hsave]
    exact savePath_div_of_dropped hkey hr hne hp
  · intro k
    rw [Session.mem_torrentsAt, hsave, hjoin]
    exact ⟨fun h => h.2.symm, fun h => ⟨ht, h.symm⟩⟩
  · rw [hheld]
    exact hcreated
  · intro now
    rw [hheld]
    exact congrArg some hkey.ofNative_native

/-- The sample machine, its torrents dropping a single directory on loading. -/
def droppingWorld : World where
  root := sampleWorld.root
  root_rooted := sampleWorld.root_rooted
  root_plain := sampleWorld.root_plain
  endpoint := sampleWorld.endpoint
  sha256 := sampleWorld.sha256
  loadTorrentBuffer b := (sampleWorld.loadTorrentBuffer b).map fun torrent =>
    { torrent with filePath := loadedPath torrent.filePath }
  generateBuf := sampleWorld.generateBuf

def twicePath : Path := Path.ofNative (ascii "./a/a")

def twiceCreate : List Bytes :=
  announce (droppingWorld.generateBuf twicePath (ascii "x")) (toFileTime 5) twicePath

theorem torrent_sits_twice : ∃ r' verdict t,
    act droppingWorld twiceCreate (Node.start ∅ 0 0).replica = .ok (r', verdict) ∧
      t ∈ r'.session.torrents ∧
      t.savePath / t.info.filePath = Path.ofNative (ascii "/home/sync/a/a") ∧
      droppingWorld.heldPath t = twicePath := by
  have hadded : ((act droppingWorld twiceCreate (Node.start ∅ 0 0).replica).toOption.bind
      fun x => x.1.session.torrents.head?).isSome = true := by decide +kernel
  have hloads : ∀ torrent, droppingWorld.loadTorrentBuffer (part twiceCreate 1) = some torrent →
      torrent.filePath = loadedPath twicePath.lexicallyNormal := by
    have hall : (droppingWorld.loadTorrentBuffer (part twiceCreate 1)).all fun torrent =>
        decide (torrent.filePath = loadedPath twicePath.lexicallyNormal) := by decide +kernel
    intro torrent hload
    rw [hload] at hall
    exact of_decide_eq_true hall
  cases hact : act droppingWorld twiceCreate (Node.start ∅ 0 0).replica with
  | error r' =>
    rw [hact] at hadded
    cases hadded
  | ok x =>
    obtain ⟨r', verdict⟩ := x
    rw [hact] at hadded
    obtain ⟨t, hhead⟩ := Option.isSome_iff_exists.mp hadded
    have ht : t ∈ r'.session.torrents := List.mem_of_head? hhead
    have hkey : twicePath.IsKey := by decide
    obtain ⟨-, hspot, -, hheld, -, -⟩ := torrent_sits hkey rfl hloads hact ht List.not_mem_nil
    refine ⟨r', verdict, t, rfl, ht, hspot.trans ?_, hheld⟩
    decide

end SyncFs
