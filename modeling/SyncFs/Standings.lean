import SyncFs.JoinReplication
import SyncFs.TidySessions

/-!
# Standings

A node has not heard of a path, has it deleted as of some moment or holds it as
of some time. A digest taken in joins the deletions it carries into that, and a
create the file it announces, whatever the node had before.
-/

namespace SyncFs

open CharConversions JoinReplication

def standing (r : Replica) (p : Path) : Standing TimePoint :=
  match r.former[p]?, r.tombstones[p]? with
  | some t, _ => held t.toTicks
  | none, some m => dead m
  | none, none => ⊥

def grave (deleted : TombstoneMap) (p : Path) : Standing TimePoint :=
  (deleted[p]?).elim ⊥ dead

/-- A deletion that can be written down and is not to be forgotten yet. -/
def Fresh (now : TimePoint) (p : Path) (moment : TimePoint) : Prop :=
  p.Spelled ∧ InInt64 moment ∧ now - moment ≤ tombstoneTtl

instance (now : TimePoint) (p : Path) (moment : TimePoint) : Decidable (Fresh now p moment) := by
  unfold Fresh
  infer_instance

/-- A replica between two transfers: every path held or deleted, not both, the
disk as it is listed, and every announcement in the cache a fit one. Its files
are among those in play, and no directory stands where one of these belongs. -/
structure Settled (now : TimePoint) (plays fits : Path → Bytes → Prop) (r : Replica) : Prop where
  listed : ∀ p : Path, r.disk.list[p]? = r.former[p]?
  apart : ∀ p ∈ r.former, p ∉ r.tombstones
  times : ∀ (p : Path) t, r.former[p]? = some t → InInt64 t.toTicks
  graves : ∀ (p : Path) m, r.tombstones[p]? = some m → Fresh now p m
  cached : ∀ (p : Path) b, r.repairs.announcements[p]? = some b → fits p b
  inPlay : ∀ (p : Path) file, r.disk[p]? = some file → p.IsKey → plays p file.content
  clear : ∀ p content, plays p content → p ∉ r.directories

section

variable (w : World)

/-- libtorrent fetches what an applied create announces, and the flush is dealt with. -/
def transferred (v : List Bytes) (torrent : TorrentInfo) (written : FileTime) (r : Replica) :
    Replica :=
  match r.inbound.origins[announcedPath v]? with
  -- Nothing moves for what was held already.
  | none => r
  | some _ =>
    let t := w.added r.session v torrent
    stampAndRemember w { r with disk := r.disk.insert (w.spot t) ⟨torrent.content, written⟩ }
      (w.heldPath t) written

def take (v : List Bytes) (clock : TimePoint) (steady : SteadyTime) (written : FileTime)
    (r : Replica) : Replica :=
  match receiveOne w v clock steady r with
  | .error left => left
  | .ok left =>
    match torrentOf w v with
    | none => left
    | some torrent => if applies w v r then transferred w v torrent written left else left

def missing (v : List Bytes) (clock : TimePoint) (r : Replica) : List Path :=
  match adopt w (decodeTombstones (part v 2)) clock r with
  | .error _ => []
  | .ok (r, _) => gaps r.former r.tombstones (decodeHeld (part v 1))

end

variable {w : World} {now : TimePoint} {plays fits : Path → Bytes → Prop} {r r' : Replica} {p : Path}

theorem take_of_applies_eq_false {v : List Bytes} {steady : SteadyTime} {written : FileTime}
    {left : Replica} (hr : receiveOne w v now steady r = .ok left) (ha : applies w v r = false) :
    take w v now steady written r = left := by
  rw [take, hr, ha]
  cases torrentOf w v <;> rfl

theorem take_of_applies {v : List Bytes} {steady : SteadyTime} {written : FileTime}
    {left : Replica} {torrent : TorrentInfo} (hr : receiveOne w v now steady r = .ok left)
    (ht : torrentOf w v = some torrent) (ha : applies w v r = true) :
    take w v now steady written r = transferred w v torrent written left := by
  rw [take, hr, ht, ha]
  rfl

theorem standing_of_held {t : FileTime} (h : r.former[p]? = some t) :
    standing r p = held t.toTicks := by
  rw [standing, h]

theorem standing_of_dead {m : TimePoint} (hf : r.former[p]? = none)
    (ht : r.tombstones[p]? = some m) : standing r p = dead m := by
  rw [standing, hf, ht]

theorem standing_of_none (hf : r.former[p]? = none) (ht : r.tombstones[p]? = none) :
    standing r p = ⊥ := by
  rw [standing, hf, ht]

theorem standing_congr (hf : r'.former[p]? = r.former[p]?)
    (ht : r'.tombstones[p]? = r.tombstones[p]?) : standing r' p = standing r p := by
  rw [standing, standing, hf, ht]

theorem standing_eq_held {t : TimePoint} :
    standing r p = held t ↔ r.former[p]? = some (toFileTime t) := by
  constructor
  · intro h
    cases hf : r.former[p]? with
    | some s =>
      rw [standing_of_held hf, held_inj] at h
      rw [← h, toFileTime_toTicks]
    | none =>
      cases hm : r.tombstones[p]? with
      | some m =>
        rw [standing_of_dead hf hm] at h
        exact absurd h.symm held_ne_dead
      | none =>
        rw [standing_of_none hf hm] at h
        exact absurd h.symm held_ne_bot
  · intro h
    rw [standing_of_held h, toTicks_toFileTime]

/-- A replica with the file an applied create announces, the stamp still to come. -/
structure Fetched (w : World) (r : Replica) (v : List Bytes) (torrent : TorrentInfo)
    (base : Replica) (file : File) : Prop where
  former : base.former = r.former
  present : base.disk[announcedPath v]? = some file
  others : ∀ q : Path, announcedPath v ≠ q → base.disk[q]? = r.disk[q]?
  directories : base.directories = r.directories
  tombstones : base.tombstones = r.tombstones.erase (announcedPath v)
  session : base.session = (r.applied w v torrent).session
  repairs : base.repairs = (r.applied w v torrent).repairs
  content : (heldAlready w r v torrent = true ∧ r.disk[announcedPath v]? = some file) ∨
    file.content = torrent.content

/-- Where the stamp has not been spent yet, the transfer writes the file and spends it. -/
theorem transferred_waiting {v : List Bytes} {torrent : TorrentInfo}
    (hl : Lands w (announcedPath v) torrent) (written : FileTime)
    (hx : r.applied w v torrent = { r.serving w v torrent with
      repairs := r.repairs.follow (announcedPath v) (part v 1) ⟨originOf v, torrent.infoHash⟩ }) :
    ∃ base file, Fetched w r v torrent base file ∧
      transferred w v torrent written (r.applied w v torrent) =
        (base.stamped w (announcedPath v) (originOf v)).remembered (announcedPath v)
          (originOf v) := by
  have hk := hl.1
  have hwaits : (r.serving w v torrent).inbound.origins[announcedPath v]? = some (originOf v) := by
    rw [getElem?_origins_serving, if_pos rfl]
  have hsits := Tidy.sits_added (s := (r.applied w v torrent).session) hl
  have hspot := hsits.1.2.2.trans hsits.2
  let file : File := ⟨torrent.content, written⟩
  let moved : Replica :=
    { r.applied w v torrent with
      disk := (r.applied w v torrent).disk.insert (announcedPath v) file }
  have hpresent : moved.lastWriteTime w (announcedPath v) = some written := by
    simp [moved, file, Tree.lastWriteTime_key hk]
  have hwaiting : moved.inbound.origins[announcedPath v]? = some (originOf v) := by
    simp only [moved]
    rw [hx]
    exact hwaits
  refine ⟨moved, file, ⟨?_, ?_, fun q hne => ?_, ?_, ?_, rfl, rfl, .inr rfl⟩, ?_⟩
  · simp only [moved]
    rw [hx]
    rfl
  · simp [moved]
  · simp only [moved, PathMap.getElem?_insert, if_neg hne]
    rw [hx]
    rfl
  · simp only [moved]
    rw [hx]
    rfl
  · simp only [moved]
    rw [hx]
    rfl
  · rw [← stampAndRemember_stamped hpresent (lt_irrefl written.count) hwaiting]
    simp only [moved, transferred, hspot, hsits.2]
    rw [hx]
    simp only [hwaits]
    rfl

/-- A create that wins leaves its file stamped and remembered when its transfer is done. -/
theorem transferred_applied {v : List Bytes} {torrent : TorrentInfo}
    (hl : Lands w (announcedPath v) torrent) (hclear : announcedPath v ∉ r.directories)
    (hw : wins w r (announcedPath v) (originOf v) torrent = true) (written : FileTime) :
    ∃ base file, Fetched w r v torrent base file ∧
      transferred w v torrent written (r.applied w v torrent) =
        (base.stamped w (announcedPath v) (originOf v)).remembered (announcedPath v)
          (originOf v) := by
  have hk := hl.1
  have hwaits : (r.serving w v torrent).inbound.origins[announcedPath v]? = some (originOf v) := by
    rw [getElem?_origins_serving, if_pos rfl]
  obtain ⟨x, hx, hcases⟩ := applied_cases w r v torrent
  have hsession : (r.applied w v torrent).session = (r.serving w v torrent).session :=
    session_applied
  rcases hcases with ⟨hheld, hst⟩ | ⟨-, he⟩
  · generalize hy : r.serving w v torrent = y at hst hwaits
    cases hst with
    | absent =>
      subst hy
      exact transferred_waiting hl written hx
    | @edited time present later =>
      have hpresent : r.lastWriteTime w (announcedPath v) = some time := by
        rw [← hy] at present
        exact present
      have hle : time.toTicks ≤ (originOf v).toTicks := by
        rcases (wins_present hpresent).mp hw with hlt | ⟨heq, -⟩
        · exact hlt.le
        · exact heq.le
      rw [FileTime.lt_iff_toTicks] at later
      omega
    | kept _ _ spent =>
      rw [hwaits] at spent
      cases spent
    | @stamped time origin present done waiting =>
      rw [hwaits] at waiting
      obtain rfl := Option.some.inj waiting
      subst hy
      have present := (Tree.lastWriteTime_clear hk hclear :
        r.toTree.lastWriteTime w _ = _).symm.trans present
      obtain ⟨file, hfile, -⟩ := Option.map_eq_some_iff.mp present
      refine ⟨{ r.serving w v torrent with
        repairs := r.repairs.follow (announcedPath v) (part v 1) ⟨originOf v, torrent.infoHash⟩ },
        file, ⟨rfl, hfile, fun _ _ => rfl, rfl, rfl, hsession.symm, ?_, .inl ⟨hheld, hfile⟩⟩, ?_⟩
      · rw [hx]
      · rw [transferred, hx]
        simp [Replica.remembered, Replica.stamped]
  · subst he
    exact transferred_waiting hl written hx

namespace Settled

theorem isKey (hs : Settled now plays fits r) {t : FileTime} (h : r.former[p]? = some t) : p.IsKey :=
  Disk.isKey_of_mem_list (PathMap.mem_iff.mpr ⟨t, (hs.listed p).trans h⟩)

theorem lastWriteTime (hs : Settled now plays fits r) (hp : p.IsKey) (hc : p ∉ r.directories) :
    r.lastWriteTime w p = r.former[p]? := by
  rw [← hs.listed p, Tree.lastWriteTime_clear hp hc, Disk.getElem?_list, if_pos hp]

theorem former_of_dead (hs : Settled now plays fits r) {m : TimePoint}
    (h : r.tombstones[p]? = some m) : r.former[p]? = none := by
  cases hf : r.former[p]? with
  | none => rfl
  | some t =>
    exact absurd (PathMap.mem_iff.mpr ⟨m, h⟩) (hs.apart p (PathMap.mem_iff.mpr ⟨t, hf⟩))

theorem tombstones_of_held (hs : Settled now plays fits r) {t : FileTime}
    (h : r.former[p]? = some t) : r.tombstones[p]? = none := by
  cases hm : r.tombstones[p]? with
  | none => rfl
  | some m =>
    rw [hs.former_of_dead hm] at h
    cases h

theorem standing_eq_dead (hs : Settled now plays fits r) {m : TimePoint} :
    standing r p = dead m ↔ r.tombstones[p]? = some m := by
  constructor
  · intro h
    cases hm : r.tombstones[p]? with
    | some k =>
      rw [standing_of_dead (hs.former_of_dead hm) hm, dead_inj] at h
      rw [h]
    | none =>
      cases hf : r.former[p]? with
      | some s =>
        rw [standing_of_held hf] at h
        exact absurd h held_ne_dead
      | none =>
        rw [standing_of_none hf hm] at h
        exact absurd h.symm dead_ne_bot
  · exact fun h => standing_of_dead (hs.former_of_dead h) h

theorem getElem?_adoptable (hs : Settled now plays fits r) {theirs : TombstoneMap} {m : TimePoint}
    (ht : ∀ (q : Path) k, theirs[q]? = some k → Fresh now q k) :
    (adoptable theirs r.former r.tombstones now)[p]? = some m ↔
      theirs[p]? = some m ∧ standing r p < dead m := by
  rw [SyncFs.getElem?_adoptable]
  refine and_congr_right fun hm => ?_
  have httl := (ht p m hm).2.2
  cases hf : r.former[p]? with
  | some t =>
    rw [standing_of_held hf, hs.tombstones_of_held hf, held_lt_dead]
    simp [httl]
  | none =>
    cases hg : r.tombstones[p]? with
    | some k =>
      rw [standing_of_dead hf hg, dead_lt_dead]
      simp [httl]
    | none =>
      rw [standing_of_none hf hg, bot_lt_iff_ne_bot]
      simp [httl]

/-- A path put somewhere else, as a file or as a deletion, with all others left
where they were. -/
private theorem replaced (hs : Settled now plays fits r) {path : Path} {file : Option FileTime}
    {moment : Option TimePoint} (hone : file = none ∨ moment = none)
    (htime : ∀ t ∈ file, InInt64 t.toTicks) (hgrave : ∀ m ∈ moment, Fresh now path m)
    (hf : ∀ q : Path, r'.former[q]? = if path = q then file else r.former[q]?)
    (hd : ∀ q : Path, r'.disk.list[q]? = if path = q then file else r.disk.list[q]?)
    (ht : ∀ q : Path, r'.tombstones[q]? = if path = q then moment else r.tombstones[q]?)
    (hc : ∀ (q : Path) b, r'.repairs.announcements[q]? = some b → fits q b)
    (hp : ∀ (q : Path) file, r'.disk[q]? = some file → q.IsKey → plays q file.content)
    (hdir : ∀ q, q ∈ r'.directories → q ∈ r.directories) :
    Settled now plays fits r' ∧ ∀ q, path ≠ q → standing r' q = standing r q := by
  refine ⟨⟨fun q => ?_, fun q hq hqt => ?_, fun q t h => ?_, fun q m h => ?_, hc, hp,
    fun q content h hd => hs.clear q content h (hdir q hd)⟩, fun q hne => ?_⟩
  · rw [hd, hf, hs.listed]
  · obtain ⟨t, h⟩ := PathMap.mem_iff.mp hq
    obtain ⟨m, h'⟩ := PathMap.mem_iff.mp hqt
    rw [hf] at h
    rw [ht] at h'
    by_cases he : path = q
    · rw [if_pos he] at h h'
      rcases hone with rfl | rfl
      · cases h
      · cases h'
    · rw [if_neg he] at h h'
      exact hs.apart q (PathMap.mem_iff.mpr ⟨t, h⟩) (PathMap.mem_iff.mpr ⟨m, h'⟩)
  · rw [hf] at h
    split at h
    · exact htime t h
    · exact hs.times q t h
  · rw [ht] at h
    split at h
    · next he =>
      subst he
      exact hgrave m h
    · exact hs.graves q m h
  · exact standing_congr (by rw [hf, if_neg hne]) (by rw [ht, if_neg hne])

/-- What one deletion leaves of the listing, the tombstones and the cache. -/
private theorem adopted (hs : Settled now plays fits r) {path : Path} {moment : TimePoint}
    (hm : Fresh now path moment) (hlt : standing r path < dead moment)
    (hf : ∀ q : Path, r'.former[q]? = if path = q then none else r.former[q]?)
    (hd : ∀ q : Path, r'.disk.list[q]? = if path = q then none else r.disk.list[q]?)
    (ht : r'.tombstones = mark r.tombstones path moment)
    (hc : ∀ (q : Path) b, r'.repairs.announcements[q]? = some b →
      r.repairs.announcements[q]? = some b)
    (hp : ∀ (q : Path) file, r'.disk[q]? = some file → r.disk[q]? = some file)
    (hdir : ∀ q, q ∈ r'.directories → q ∈ r.directories) :
    Settled now plays fits r' ∧ standing r' path = dead moment ∧
      ∀ q, path ≠ q → standing r' q = standing r q := by
  have htomb : ∀ q : Path, r'.tombstones[q]? =
      if path = q then some moment else r.tombstones[q]? := by
    intro q
    rw [ht, getElem?_mark]
    refine if_congr Iff.rfl (congrArg some ?_) rfl
    cases hg : r.tombstones[path]? with
    | none => rfl
    | some k =>
      rw [hs.standing_eq_dead.mpr hg, dead_lt_dead] at hlt
      exact max_eq_right hlt.le
  have hfresh : ∀ m ∈ some moment, Fresh now path m := fun m h => Option.some.inj h ▸ hm
  obtain ⟨hset, hother⟩ := hs.replaced (.inl rfl) (fun t h => by cases h) hfresh hf hd htomb
    (fun q b h => hs.cached q b (hc q b h)) (fun q file h => hs.inPlay q file (hp q file h)) hdir
  exact ⟨hset, standing_of_dead (by rw [hf, if_pos rfl]) (by rw [htomb, if_pos rfl]), hother⟩

theorem adoptOne (w : World) (hs : Settled now plays fits r) {path : Path} {moment : TimePoint}
    (hm : Fresh now path moment) (hlt : standing r path < dead moment) (deleted : List Path) :
    ∃ s, SyncFs.adoptOne w (r, deleted) (path, moment) = .ok s ∧ Settled now plays fits s.1 ∧
      standing s.1 path = dead moment ∧ ∀ q, path ≠ q → standing s.1 q = standing r q := by
  cases hc : r.former.contains path with
  | false =>
    have hnone : r.former[path]? = none := by
      rw [PathMap.contains_eq] at hc
      exact Option.not_isSome_iff_eq_none.mp (Bool.eq_false_iff.mp hc)
    refine ⟨_, adoptOne_unheld hc, hs.adopted hm hlt (fun q => ?_) (fun q => ?_) rfl
      (fun _ _ h => h) (fun _ _ h => h) fun _ h => h⟩
    · split
      · next he => rw [← he, hnone]
      · rfl
    · split
      · next he => rw [← he, hs.listed, hnone]
      · rfl
  | true =>
    rw [Std.ExtTreeMap.contains_iff_mem] at hc
    obtain ⟨t, ht⟩ := PathMap.mem_iff.mp hc
    have hk := hs.isKey ht
    obtain ⟨file, hf, -⟩ : ∃ file, r.disk[path]? = some file ∧ file.mtime = t := by
      have hl := hs.listed path
      rw [ht, Disk.getElem?_list, if_pos hk] at hl
      exact Option.map_eq_some_iff.mp hl
    have he := erase_of_file (w := w) (r := r.unlisted path moment) hk hf
    have ha := adoptOne_held (w := w) (Std.ExtTreeMap.contains_iff_mem.mpr hc) deleted moment
    rw [he] at ha
    refine ⟨_, ha, hs.adopted hm hlt (fun q => ?_) (fun q => ?_) rfl (fun q b h => ?_)
      (fun q held h => ?_) fun _ h => h⟩
    · exact PathMap.getElem?_erase
    · dsimp only
      rw [Disk.getElem?_list, Disk.getElem?_list]
      change (if q.IsKey then Option.map _ (r.disk.erase path)[q]? else none) = _
      rw [PathMap.getElem?_erase]
      by_cases hpq : path = q <;> by_cases hq : q.IsKey <;> simp [hpq, hq]
    · have h : (r.repairs.announcements.erase path)[q]? = some b := h
      rw [PathMap.getElem?_erase] at h
      split at h
      · cases h
      · exact h
    · have h : (r.disk.erase path)[q]? = some held := h
      rw [PathMap.getElem?_erase] at h
      split at h
      · cases h
      · exact h

/-- Deletions of different paths, each above where the node stands, taken one by one. -/
private theorem adoptAll (w : World) {es : List (Path × TimePoint)} {s : Replica × List Path}
    (hs : Settled now plays fits s.1) (hnd : (es.map Prod.fst).Nodup)
    (hes : ∀ e ∈ es, Fresh now e.1 e.2 ∧ standing s.1 e.1 < dead e.2) :
    ∃ s', es.foldlM (SyncFs.adoptOne w) s = .ok s' ∧ Settled now plays fits s'.1 ∧
      (∀ e ∈ es, standing s'.1 e.1 = dead e.2) ∧
      ∀ q, q ∉ es.map Prod.fst → standing s'.1 q = standing s.1 q := by
  induction es generalizing s with
  | nil => exact ⟨s, rfl, hs, fun e he => absurd he List.not_mem_nil, fun _ _ => rfl⟩
  | cons e es ih =>
    obtain ⟨r, deleted⟩ := s
    obtain ⟨hnot, hnd⟩ := List.nodup_cons.mp hnd
    obtain ⟨hm, hlt⟩ := hes e List.mem_cons_self
    obtain ⟨t, hone, hst, hself, hother⟩ := hs.adoptOne w hm hlt deleted
    have hrest : ∀ d ∈ es, Fresh now d.1 d.2 ∧ standing t.1 d.1 < dead d.2 := by
      intro d hd
      obtain ⟨hfresh, hbelow⟩ := hes d (List.mem_cons_of_mem _ hd)
      refine ⟨hfresh, ?_⟩
      rwa [hother d.1 fun he => hnot (he ▸ List.mem_map_of_mem hd)]
    obtain ⟨s', hrun, hs', hin, hout⟩ := ih hst hnd hrest
    refine ⟨s', ?_, hs', fun d hd => ?_, fun q hq => ?_⟩
    · rw [List.foldlM_cons, hone]
      exact hrun
    · rcases List.mem_cons.mp hd with rfl | hd
      · rw [hout _ hnot, hself]
      · exact hin d hd
    · rw [List.map_cons, List.mem_cons, not_or] at hq
      rw [hout q hq.2, hother q (Ne.symm hq.1)]

theorem adopt (hs : Settled now plays fits r) {theirs : TombstoneMap}
    (ht : ∀ (q : Path) k, theirs[q]? = some k → Fresh now q k) :
    ∃ s, SyncFs.adopt w theirs now r = .ok s ∧ Settled now plays fits s.1 ∧
      ∀ q, standing s.1 q = standing r q ⊔ grave theirs q := by
  have hget : ∀ e ∈ (adoptable theirs r.former r.tombstones now).toList,
      theirs[e.1]? = some e.2 ∧ standing r e.1 < dead e.2 :=
    fun e he => (hs.getElem?_adoptable ht).mp (PathMap.mem_toList.mp he)
  have hnd : ((adoptable theirs r.former r.tombstones now).toList.map Prod.fst).Nodup := by
    rw [Std.ExtTreeMap.map_fst_toList_eq_keys]
    exact Std.ExtTreeMap.nodup_keys
  obtain ⟨s', hrun, hs', hin, hout⟩ := adoptAll w (s := (r, [])) hs hnd
    fun e he => ⟨ht _ _ (hget e he).1, (hget e he).2⟩
  refine ⟨s', hrun, hs', fun q => ?_⟩
  by_cases hq : q ∈ (adoptable theirs r.former r.tombstones now).toList.map Prod.fst
  · obtain ⟨e, he, rfl⟩ := List.mem_map.mp hq
    obtain ⟨hm, hlt⟩ := hget e he
    rw [hin e he, grave, hm]
    exact (sup_eq_right.mpr hlt.le).symm
  · rw [hout q hq, eq_comm, sup_eq_left, grave]
    cases hm : theirs[q]? with
    | none => exact bot_le
    | some m =>
      by_contra hle
      refine hq (List.mem_map.mpr ⟨(q, m), ?_, rfl⟩)
      exact PathMap.mem_toList.mpr ((hs.getElem?_adoptable ht).mpr ⟨hm, not_le.mp hle⟩)

/-- A digest taken in, and the paths it leaves the node to repair: those it holds
and the peer has not got, or not as new. -/
theorem digest (w : World) (hs : Settled now plays fits r) {v : List Bytes} (hv : verbOf (part v 0) = ascii "digest") (hl : v.length = 3)
    (ht : ∀ (q : Path) k, (decodeTombstones (part v 2))[q]? = some k → Fresh now q k)
    (steady : SteadyTime) (written : FileTime) :
    Settled now plays fits (take w v now steady written r) ∧
      (∀ q, standing (take w v now steady written r) q =
        standing r q ⊔ grave (decodeTombstones (part v 2)) q) ∧
      ∀ q t, standing (take w v now steady written r) q = held t →
        (∀ peer ∈ (decodeHeld (part v 1))[q]?, peer.toTicks < t) → q ∈ missing w v now r := by
  obtain ⟨⟨left, deleted⟩, hadopt, hleft, hstand⟩ := hs.adopt (w := w) ht
  obtain ⟨hrec, happ⟩ := receiveOne_digest (w := w) hv hl now steady r
  have htake : ∃ pending, take w v now steady written r =
      { left with repairs := { left.repairs with pending := pending } } := by
    rw [readDigest, hadopt] at hrec
    rw [take_of_applies_eq_false hrec happ]
    dsimp only
    split
    · exact ⟨left.repairs.pending, rfl⟩
    · exact ⟨_, rfl⟩
  obtain ⟨pending, htake⟩ := htake
  rw [htake]
  refine ⟨⟨hleft.listed, hleft.apart, hleft.times, hleft.graves, hleft.cached, hleft.inPlay,
    hleft.clear⟩, hstand,
    fun q t hq hpeer => ?_⟩
  have hq : standing left q = held t := hq
  have hf := standing_eq_held.mp hq
  rw [missing, hadopt]
  refine mem_gaps.mpr ⟨toFileTime t, hf, fun m hm => ?_, fun peer hp => ?_⟩
  · rw [hleft.tombstones_of_held hf] at hm
    cases hm
  · rw [toTicks_toFileTime]
    exact hpeer peer hp

/-- A replica that has a file under a time it knows stands on the path as held. -/
private theorem finished (hs : Settled now plays fits r) {t : FileTime} (hk : p.IsKey)
    (ht : InInt64 t.toTicks)
    (hf : ∀ q : Path, r'.former[q]? = if p = q then some t else r.former[q]?)
    (hd : ∀ q : Path, (r'.disk[q]?).map File.mtime =
      if p = q then some t else (r.disk[q]?).map File.mtime)
    (htomb : ∀ q : Path, r'.tombstones[q]? = if p = q then none else r.tombstones[q]?)
    (hc : ∀ (q : Path) b, r'.repairs.announcements[q]? = some b → fits q b)
    (hp : ∀ (q : Path) file, r'.disk[q]? = some file → q.IsKey → plays q file.content)
    (hdir : ∀ q, q ∈ r'.directories → q ∈ r.directories) :
    Settled now plays fits r' ∧ standing r' p = held t.toTicks ∧
      ∀ q, p ≠ q → standing r' q = standing r q := by
  have hlist : ∀ q : Path, r'.disk.list[q]? = if p = q then some t else r.disk.list[q]? := by
    intro q
    rw [Disk.getElem?_list, Disk.getElem?_list, hd]
    by_cases hpq : p = q
    · simp [← hpq, hk]
    · simp only [if_neg hpq]
  have htime : ∀ s ∈ some t, InInt64 s.toTicks := fun s h => Option.some.inj h ▸ ht
  obtain ⟨hset, hother⟩ :=
    hs.replaced (.inr rfl) htime (fun m h => by cases h) hf hlist htomb hc hp hdir
  exact ⟨hset, standing_of_held (by rw [hf, if_pos rfl]), hother⟩

/-- A create that wins has its file held at its own time when its transfer is done. -/
private theorem transferred (hs : Settled now plays fits r) {v : List Bytes} {torrent : TorrentInfo}
    (hl : Lands w (announcedPath v) torrent)
    (ht : InInt64 (originOf v).toTicks) (hfit : fits (announcedPath v) (part v 1))
    (hplay : plays (announcedPath v) torrent.content)
    (hw : wins w r (announcedPath v) (originOf v) torrent = true) (written : FileTime) :
    let left := SyncFs.transferred w v torrent written (r.applied w v torrent)
    Settled now plays fits left ∧ standing left (announcedPath v) = held (originOf v).toTicks ∧
      ∀ q, announcedPath v ≠ q → standing left q = standing r q := by
  intro left
  obtain ⟨base, file, hb, he⟩ := transferred_applied hl (hs.clear _ _ hplay) hw written
  obtain ⟨x, hx, -⟩ := applied_cases w r v torrent
  have hleft : left = _ := he
  rw [hleft]
  have hdisk : ∀ q : Path, ((base.stamped w (announcedPath v) (originOf v)).remembered
      (announcedPath v) (originOf v)).disk[q]? =
        if announcedPath v = q then some { file with mtime := originOf v } else r.disk[q]? := by
    intro q
    rw [Replica.remembered, Replica.stamped, Tree.getElem?_stamp, Tree.locate_key hl.1]
    by_cases hpq : announcedPath v = q
    · subst hpq
      simp [hb.present]
    · simp [hpq, hb.others q hpq]
  refine hs.finished hl.1 ht (fun q => ?_) (fun q => ?_) (fun q => ?_) (fun q b h => ?_)
    (fun q found h hk => ?_) ?_
  · simp [Replica.remembered, Replica.stamped, hb.former]
  · rw [hdisk]
    split <;> rfl
  · simp [Replica.remembered, Replica.stamped, hb.tombstones]
  · have h : base.repairs.announcements[q]? = some b := h
    rw [hb.repairs, hx] at h
    dsimp only at h
    rw [Repairs.follow, PathMap.getElem?_insert] at h
    split at h
    · next he =>
      obtain rfl := Option.some.inj h
      exact he ▸ hfit
    · exact hs.cached q b h
  · rw [hdisk] at h
    split at h
    · next hpq =>
      obtain rfl := Option.some.inj h
      subst hpq
      rcases hb.content with ⟨-, hheld⟩ | hcontent
      · exact hs.inPlay _ file hheld hk
      · exact (congrArg (plays _) hcontent).mpr hplay
    · exact hs.inPlay q found h hk
  · exact fun q h => hb.directories ▸ ((Tree.samePlaces_stamp (originOf v)).directories q).mp h

/-- A create wins over no standing higher than its own. -/
theorem le_held_of_wins (hs : Settled now plays fits r) {origin : FileTime} {torrent : TorrentInfo}
    (hk : p.IsKey) (hc : p ∉ r.directories) (hu : Undefeated r.tombstones p origin) (hw : wins w r p origin torrent = true) :
    standing r p ≤ held origin.toTicks := by
  cases hf : r.former[p]? with
  | some here =>
    rw [standing_of_held hf, held_le_held]
    rcases (wins_present ((hs.lastWriteTime hk hc).trans hf)).mp hw with hlt | ⟨heq, -⟩
    · exact hlt.le
    · exact heq.le
  | none =>
    cases hm : r.tombstones[p]? with
    | some m =>
      rw [standing_of_dead hf hm, dead_le_held]
      have hb := hu m hm
      rw [beats, decide_eq_false_iff_not, toTicks_eq] at hb
      exact not_lt.mp hb
    | none =>
      rw [standing_of_none hf hm]
      exact bot_le

/-- A create loses to a copy here that is no older. -/
theorem held_of_loses (hs : Settled now plays fits r) {origin : FileTime} {torrent : TorrentInfo}
    (hk : p.IsKey) (hc : p ∉ r.directories) (hw : wins w r p origin torrent = false) :
    ∃ here, r.former[p]? = some here ∧ origin.toTicks ≤ here.toTicks := by
  cases hf : r.former[p]? with
  | none =>
    rw [wins_absent ((hs.lastWriteTime hk hc).trans hf)] at hw
    cases hw
  | some here =>
    refine ⟨here, rfl, ?_⟩
    by_contra hlt
    rw [(wins_present ((hs.lastWriteTime hk hc).trans hf)).mpr (.inl (not_le.mp hlt))] at hw
    cases hw

theorem held_le_of_defeated (hs : Settled now plays fits r) {origin : FileTime}
    (hu : ¬ Undefeated r.tombstones p origin) : held origin.toTicks ≤ standing r p := by
  simp only [Undefeated, not_forall, Bool.not_eq_false] at hu
  obtain ⟨m, hm, hb⟩ := hu
  rw [hs.standing_eq_dead.mpr hm, held_le_dead]
  exact beats_iff.mp hb

theorem revived (hs : Settled now plays fits r) {here : FileTime} (hf : r.former[p]? = some here) :
    Settled now plays fits (r.revived p) ∧ ∀ q, standing (r.revived p) q = standing r q := by
  have htomb : ∀ q : Path, (r.tombstones.erase p)[q]? = r.tombstones[q]? := by
    intro q
    rw [PathMap.getElem?_erase]
    split
    · next he => rw [← he, hs.tombstones_of_held hf]
    · rfl
  refine ⟨⟨hs.listed, fun q hq hqt => ?_, hs.times, fun q m h => ?_, hs.cached, hs.inPlay,
    hs.clear⟩, fun q => ?_⟩
  · obtain ⟨m, hm⟩ := PathMap.mem_iff.mp hqt
    exact hs.apart q hq (PathMap.mem_iff.mpr ⟨m, (htomb q).symm.trans hm⟩)
  · exact hs.graves q m ((htomb q).symm.trans h)
  · exact standing_congr rfl (htomb q)

/-- A create taken in, its transfer done: the file it announces is joined in. -/
theorem create (hs : Settled now plays fits r) {v : List Bytes} {torrent : TorrentInfo}
    (hv : verbOf (part v 0) = ascii "create")
    (hlen : v.length = 4) (hload : torrentOf w v = some torrent)
    (hl : Lands w (announcedPath v) torrent) (ht : InInt64 (originOf v).toTicks)
    (hfit : fits (announcedPath v) (part v 1)) (hplay : plays (announcedPath v) torrent.content)
    (steady : SteadyTime) (written : FileTime) :
    Settled now plays fits (take w v now steady written r) ∧
      ∀ q, standing (take w v now steady written r) q =
        standing r q ⊔ if announcedPath v = q then held (originOf v).toTicks else ⊥ := by
  have hrec := receiveOne_create hv hlen hload now steady r
  have happ := applies_create (r := r) hv hlen hload
  have habsorbed : held (originOf v).toTicks ≤ standing r (announcedPath v) →
      ∀ q, standing r q =
        standing r q ⊔ if announcedPath v = q then held (originOf v).toTicks else ⊥ := by
    intro hle q
    rw [eq_comm, sup_eq_left]
    split
    · next he => exact he ▸ hle
    · exact bot_le
  by_cases hu : Undefeated r.tombstones (announcedPath v) (originOf v)
  · rw [if_pos hu] at hrec
    cases hw : wins w r (announcedPath v) (originOf v) torrent with
    | true =>
      rw [if_pos hw] at hrec
      rw [take_of_applies hrec hload (happ.mpr ⟨hu, hw⟩)]
      obtain ⟨hset, hself, hother⟩ := hs.transferred hl ht hfit hplay hw written
      refine ⟨hset, fun q => ?_⟩
      by_cases hq : announcedPath v = q
      · subst hq
        rw [hself, if_pos rfl, sup_eq_right.mpr (hs.le_held_of_wins hl.1 (hs.clear _ _ hplay) hu hw)]
      · rw [hother q hq, if_neg hq, sup_bot_eq]
    | false =>
      rw [hw, if_neg Bool.false_ne_true] at hrec
      have hna : applies w v r = false := by
        rw [Bool.eq_false_iff, ne_eq, happ, hw]
        exact fun h => Bool.false_ne_true h.2
      rw [take_of_applies_eq_false hrec hna]
      obtain ⟨here, hf, hle⟩ := hs.held_of_loses hl.1 (hs.clear _ _ hplay) hw
      obtain ⟨hset, hsame⟩ := hs.revived hf
      refine ⟨hset, fun q => (hsame q).trans (habsorbed ?_ q)⟩
      rw [standing_of_held hf, held_le_held]
      exact hle
  · rw [if_neg hu] at hrec
    have hna : applies w v r = false := by
      rw [Bool.eq_false_iff, ne_eq, happ]
      exact fun h => hu h.1
    rw [take_of_applies_eq_false hrec hna]
    exact ⟨hs, habsorbed (hs.held_le_of_defeated hu)⟩

end Settled

end SyncFs
