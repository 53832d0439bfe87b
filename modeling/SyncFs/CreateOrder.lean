import SyncFs.OneMemory
import SyncFs.Standings

/-!
# Creates in any order

A path's creates are ranked by their origin, the newest first, and then by
their info hash, the lowest first. Each one that is taken in joins its rank
into that of the copy here, so what is left in the end is the copy of the
create ranked highest, whatever the order and however often each was heard.
-/

namespace SyncFs

open CharConversions JoinReplication

/-- What a node has of a path: the file, the info hashes it is served by and
what was applied. -/
structure Copy where
  file : Option File
  serving : List ℕ
  applied : Option Applied
  deriving DecidableEq

/-- A message, when it comes, and when the file it has fetched was last written. -/
structure Delivery where
  message : List Bytes
  clock : TimePoint
  steady : SteadyTime
  written : FileTime

/-- The newest origin first, then the lowest info hash. -/
abbrev Rank := WithBot (ℤ ×ₗ ℕᵒᵈ)

section

variable (w : World) (named : ℕ → Path × Bytes) (p : Path)

def rankOf (origin : FileTime) (infoHash : ℕ) : Rank :=
  ↑(toLex (origin.toTicks, OrderDual.toDual infoHash))

def rank (v : List Bytes) : Rank :=
  (torrentOf w v).elim ⊥ fun torrent => rankOf (originOf v) torrent.infoHash

def copyAt (r : Replica) : Copy :=
  ⟨r.find w p, (r.session.torrentsAt w p).map (·.info.infoHash), r.repairs.applied[p]?⟩

def copyOf (v : List Bytes) (torrent : TorrentInfo) : Copy :=
  ⟨some ⟨torrent.content, originOf v⟩, [torrent.infoHash], some ⟨originOf v, torrent.infoHash⟩⟩

/-- A create of the path whose torrent has the info hash of that path and content. -/
structure Announces (v : List Bytes) (torrent : TorrentInfo) : Prop where
  verb : verbOf (part v 0) = ascii "create"
  length : v.length = 4
  path : announcedPath v = p
  loads : torrentOf w v = some torrent
  lands : Lands w p torrent
  names : named torrent.infoHash = (p, torrent.content)

/-- A node with nothing standing at the path, no tombstone and no create applied. -/
structure Bare (r : Replica) : Prop where
  remembers : OneMemory w named r
  absent : r.find w p = none
  clear : p ∉ r.directories
  undeleted : r.tombstones[p]? = none
  unapplied : r.repairs.applied[p]? = none

/-- Messages taken in one after the other, each with its transfer done before the next. -/
def deliver (r : Replica) (ds : List Delivery) : Replica :=
  ds.foldl (fun r d => take w d.message d.clock d.steady d.written r) r

inductive BroughtTo (r : Replica) : Rank → Prop
  | nowhere (bare : Bare w named p r) : BroughtTo r ⊥
  | create {v : List Bytes} {torrent : TorrentInfo} {x : Rank}
    (remembers : OneMemory w named r) (clear : p ∉ r.directories)
    (undeleted : r.tombstones[p]? = none) (names : named torrent.infoHash = (p, torrent.content))
    (ranked : rankOf (originOf v) torrent.infoHash = x)
    (holds : copyAt w p r = copyOf v torrent) : BroughtTo r x

end

variable {w : World} {named : ℕ → Path × Bytes} {p : Path} {r : Replica}
variable {v : List Bytes} {torrent : TorrentInfo}

theorem rankOf_le {s t : FileTime} {a b : ℕ} :
    rankOf s a ≤ rankOf t b ↔ s.toTicks < t.toTicks ∨ s.toTicks = t.toTicks ∧ b ≤ a := by
  rw [rankOf, rankOf, WithBot.coe_le_coe, Prod.Lex.toLex_le_toLex]
  rfl

theorem rankOf_inj {s t : FileTime} {a b : ℕ} (h : rankOf s a = rankOf t b) : s = t ∧ a = b := by
  have hle := rankOf_le.mp h.le
  have hge := rankOf_le.mp h.ge
  rw [← FileTime.toTicks_inj]
  omega

/-- A copy is its rank's: no other content has that info hash. -/
theorem copyOf_eq {u : List Bytes} {other : TorrentInfo}
    (hn : named torrent.infoHash = (p, torrent.content))
    (ho : named other.infoHash = (p, other.content))
    (h : rankOf (originOf v) torrent.infoHash = rankOf (originOf u) other.infoHash) :
    copyOf v torrent = copyOf u other := by
  obtain ⟨ht, hh⟩ := rankOf_inj h
  rw [hh, ho] at hn
  rw [copyOf, copyOf, ht, hh, (Prod.mk.inj hn).2]

theorem Announces.rank (ha : Announces w named p v torrent) :
    SyncFs.rank w v = rankOf (originOf v) torrent.infoHash := by
  rw [SyncFs.rank, ha.loads]
  rfl

/-- A create nothing here beats is taken, its transfer done, or loses to the copy here. -/
theorem take_create (ha : Announces w named p v torrent) (hu : r.tombstones[p]? = none)
    (now : TimePoint) (steady : SteadyTime) (written : FileTime) :
    take w v now steady written r =
      if wins w r p (originOf v) torrent then transferred w v torrent written (r.applied w v torrent)
      else r.revived p := by
  have hund : Undefeated r.tombstones (announcedPath v) (originOf v) := by
    intro grave hg
    rw [ha.path, hu] at hg
    cases hg
  have hrec := receiveOne_create ha.verb ha.length ha.loads now steady r
  have happ := applies_create (r := r) ha.verb ha.length ha.loads
  rw [if_pos hund, ha.path] at hrec
  rw [ha.path] at happ hund
  split
  · next hw =>
    rw [if_pos hw] at hrec
    exact take_of_applies hrec ha.loads (happ.mpr ⟨hund, hw⟩)
  · next hw =>
    rw [if_neg hw] at hrec
    exact take_of_applies_eq_false hrec (Bool.eq_false_iff.mpr fun h => hw (happ.mp h).2)

theorem broughtTo_of_wins (h : OneMemory w named r) (hclear : p ∉ r.directories) (ha : Announces w named p v torrent)
    (hw : wins w r p (originOf v) torrent = true)
    (hc : heldAlready w r v torrent = true → ∀ file, r.disk[p]? = some file →
      file.content = torrent.content) (written : FileTime) :
    BroughtTo w named p (transferred w v torrent written (r.applied w v torrent)) (rank w v) := by
  obtain rfl := ha.path
  obtain ⟨base, file, hb, he⟩ := transferred_applied ha.lands hclear hw written
  obtain ⟨t, hhash, -, -, -, hat⟩ := h.serves_applied ha.lands ha.names
  obtain ⟨left, hleft, -⟩ := applied_cases w r v torrent
  have hcontent : file.content = torrent.content := hb.content.elim (fun hh => hc hh.1 _ hh.2) id
  have hk := ha.lands.1
  rw [he]
  refine .create (v := v)
    ((h.applied ha.loads ha.lands ha.names).congr hb.session (congrArg _ hb.repairs)
      (congrArg _ hb.repairs)) ?_ ?_ ha.names ha.rank.symm ?_
  · exact fun hd => hclear
      (hb.directories ▸ ((Tree.samePlaces_stamp (originOf v)).directories _).mp hd)
  · simp [Replica.remembered, Replica.stamped, hb.tombstones]
  · have hfile : ((base.stamped w (announcedPath v) (originOf v)).remembered (announcedPath v)
        (originOf v)).find w (announcedPath v) = some ⟨torrent.content, originOf v⟩ := by
      rw [Tree.find_key hk, Replica.remembered, Replica.stamped, Tree.getElem?_stamp,
        Tree.locate_key hk, if_pos rfl, hb.present, ← hcontent]
      rfl
    have hserving := hat _ hk
    rw [if_pos rfl, ← hb.session] at hserving
    have happlied : base.repairs.applied[announcedPath v]? =
        some ⟨originOf v, torrent.infoHash⟩ := by
      rw [hb.repairs, hleft]
      simp [Repairs.follow]
    rw [copyAt, copyOf, hfile]
    congr 1
    have hmap := congrArg (List.map (·.info.infoHash)) hserving
    rwa [List.map_singleton, hhash] at hmap

theorem Bare.revived (hb : Bare w named p r) : Bare w named p (r.revived p) where
  remembers := hb.remembers.congr rfl rfl rfl
  absent := hb.absent
  clear := hb.clear
  undeleted := by rw [Replica.revived, PathMap.getElem?_erase, if_pos rfl]
  unapplied := hb.unapplied

theorem BroughtTo.take {x : Rank} (h : BroughtTo w named p r x)
    (ha : Announces w named p v torrent) (now : TimePoint) (steady : SteadyTime)
    (written : FileTime) :
    BroughtTo w named p (take w v now steady written r) (x ⊔ rank w v) := by
  have hk := ha.lands.1
  cases h with
  | nowhere bare =>
    have hw : wins w r p (originOf v) torrent = true :=
      wins_absent <| by
        rw [Tree.lastWriteTime_clear hk bare.clear, ← Tree.find_key (w := w) hk, bare.absent]
        rfl
    rw [take_create ha bare.undeleted, if_pos hw, bot_sup_eq]
    refine broughtTo_of_wins bare.remembers bare.clear ha hw (fun _ file hf => ?_) written
    rw [← Tree.find_key (w := w) hk, bare.absent] at hf
    cases hf
  | @create u known _ remembers clear undeleted names ranked holds =>
    have hfile : r.find w p = some ⟨known.content, originOf u⟩ := congrArg Copy.file holds
    have hserving : (r.session.torrentsAt w p).map (·.info.infoHash) = [known.infoHash] :=
      congrArg Copy.serving holds
    have happlied : r.repairs.applied[p]? = some ⟨originOf u, known.infoHash⟩ :=
      congrArg Copy.applied holds
    have hpresent : r.lastWriteTime w p = some (originOf u) := Tree.lastWriteTime_of_find hfile
    have hwins : wins w r p (originOf v) torrent = true ↔ x ≤ rank w v := by
      rw [wins_present hpresent, happlied, ← ranked, ha.rank, rankOf_le]
      simp
    rw [take_create ha undeleted]
    split
    · next hw =>
      rw [sup_eq_right.mpr (hwins.mp hw)]
      refine broughtTo_of_wins remembers clear ha hw (fun hheld file hf => ?_) written
      -- Held already is held under the info hash of the copy here.
      obtain ⟨t, ht, he⟩ := heldAlready_iff.mp hheld
      rw [ha.path] at ht
      have hmem := List.mem_map_of_mem (f := (·.info.infoHash)) ht
      rw [hserving, List.mem_singleton] at hmem
      rw [← Tree.find_key (w := w) hk, hfile] at hf
      obtain rfl := Option.some.inj hf
      have hn := names
      rw [← hmem, he, ha.names] at hn
      exact (Prod.mk.inj hn).2.symm
    · next hw =>
      rw [sup_eq_left.mpr (le_of_not_ge fun hle => hw (hwins.mpr hle))]
      refine .create (remembers.congr rfl rfl rfl) clear ?_ names ranked holds
      rw [Replica.revived, PathMap.getElem?_erase, if_pos rfl]

/-- Creates delivered bring a node to the highest rank among theirs and its own. -/
theorem BroughtTo.deliver {x : Rank} {ds : List Delivery} (h : BroughtTo w named p r x)
    (hds : ∀ d ∈ ds, ∃ torrent, Announces w named p d.message torrent) :
    ∃ y, BroughtTo w named p (deliver w r ds) y ∧
      IsGreatest (insert x {z | ∃ d ∈ ds, rank w d.message = z}) y := by
  refine foldl_isGreatest (S := BroughtTo w named p) (fun d hd s x hs => ?_) h
  obtain ⟨torrent, ha⟩ := hds d hd
  exact hs.take ha d.clock d.steady d.written

theorem BroughtTo.copyAt_eq (h : BroughtTo w named p r (rank w v))
    (ha : Announces w named p v torrent) : copyAt w p r = copyOf v torrent := by
  rw [ha.rank] at h
  generalize hx : rankOf (originOf v) torrent.infoHash = x at h
  cases h with
  | nowhere => exact absurd hx WithBot.coe_ne_bot
  | create _ _ _ names ranked holds => exact holds.trans (copyOf_eq names ha.names (ranked.trans hx.symm))

theorem exists_highest {ds : List Delivery} (hne : ds ≠ []) {y : Rank}
    (hy : IsGreatest (insert ⊥ {z | ∃ d ∈ ds, rank w d.message = z}) y) :
    ∃ d ∈ ds, rank w d.message = y ∧ ∀ e ∈ ds, rank w e.message ≤ rank w d.message := by
  obtain ⟨hmem, hle⟩ := hy
  have hin : ∃ d ∈ ds, rank w d.message = y := by
    rcases Set.mem_insert_iff.mp hmem with rfl | hd
    · obtain ⟨d, hd⟩ := List.exists_mem_of_ne_nil ds hne
      exact ⟨d, hd, le_bot_iff.mp (hle (Set.mem_insert_of_mem _ ⟨d, hd, rfl⟩))⟩
    · exact hd
  obtain ⟨d, hd, rfl⟩ := hin
  exact ⟨d, hd, rfl, fun e he => hle (Set.mem_insert_of_mem _ ⟨e, he, rfl⟩)⟩

/-- The ranks of what is delivered depend on the messages alone. -/
theorem ranks_eq {ds es : List Delivery}
    (h : ∀ v, v ∈ es.map (·.message) ↔ v ∈ ds.map (·.message)) :
    {z | ∃ e ∈ es, rank w e.message = z} = {z | ∃ d ∈ ds, rank w d.message = z} := by
  have hmap : ∀ ds : List Delivery, {z | ∃ d ∈ ds, rank w d.message = z} =
      {z | ∃ v ∈ ds.map (·.message), rank w v = z} := by
    intro ds
    ext z
    simp
  rw [hmap, hmap]
  ext z
  simp only [Set.mem_ofPred_eq, h]

/-- A path's creates leave the copy of the one ranked highest. Another node that
hears the same ones in another order has the same copy in the end, and none of
them changes it when it comes again. -/
theorem creates_converge (hb : Bare w named p r) {ds : List Delivery} (hne : ds ≠ [])
    (hds : ∀ d ∈ ds, ∃ torrent, Announces w named p d.message torrent) :
    (∃ d ∈ ds, ∃ torrent, torrentOf w d.message = some torrent ∧
      (∀ e ∈ ds, rank w e.message ≤ rank w d.message) ∧
      copyAt w p (deliver w r ds) = copyOf d.message torrent) ∧
    (∀ (w' : World) (r' : Replica) (es : List Delivery), Bare w' named p r' →
      (∀ e ∈ es, ∃ torrent, Announces w' named p e.message torrent) →
      w'.loadTorrentBuffer = w.loadTorrentBuffer →
      (∀ v, v ∈ es.map (·.message) ↔ v ∈ ds.map (·.message)) →
      copyAt w' p (deliver w' r' es) = copyAt w p (deliver w r ds)) ∧
    ∀ es : List Delivery, (∀ e ∈ es, e.message ∈ ds.map (·.message)) →
      copyAt w p (deliver w (deliver w r ds) es) = copyAt w p (deliver w r ds) := by
  obtain ⟨y, hy, hgreatest⟩ := (BroughtTo.nowhere hb).deliver hds
  obtain ⟨d, hd, rfl, htop⟩ := exists_highest hne hgreatest
  obtain ⟨torrent, ha⟩ := hds d hd
  have hcopy := hy.copyAt_eq ha
  refine ⟨⟨d, hd, torrent, ha.loads, htop, hcopy⟩, fun w' r' es hb' hes hload hsame => ?_,
    fun es hes => ?_⟩
  · have hrank : ∀ v, rank w' v = rank w v := fun v => by rw [rank, rank, torrentOf, torrentOf, hload]
    obtain ⟨y', hy', hgreatest'⟩ := (BroughtTo.nowhere hb').deliver hes
    simp only [hrank] at hgreatest'
    rw [ranks_eq hsame] at hgreatest'
    obtain rfl := hgreatest.unique hgreatest'
    obtain ⟨e, he, hm⟩ := List.mem_map.mp ((hsame d.message).mpr (List.mem_map_of_mem hd))
    obtain ⟨torrent', ha'⟩ := hes e he
    rw [hm] at ha'
    have hloads := ha'.loads
    rw [torrentOf, hload] at hloads
    obtain rfl := Option.some.inj (ha.loads.symm.trans hloads)
    rw [hcopy]
    rw [← hrank] at hy'
    exact hy'.copyAt_eq ha'
  · have hes' : ∀ e ∈ es, ∃ f ∈ ds, f.message = e.message := fun e he =>
      List.mem_map.mp (hes e he)
    obtain ⟨y, hy', hgreatest'⟩ := hy.deliver fun e (he : e ∈ es) => by
      obtain ⟨f, hf, hm⟩ := hes' e he
      exact hm ▸ hds f hf
    have htop' : IsGreatest (insert (rank w d.message) {z | ∃ e ∈ es, rank w e.message = z})
        (rank w d.message) := by
      refine ⟨Set.mem_insert _ _, fun z hz => ?_⟩
      rcases Set.mem_insert_iff.mp hz with rfl | ⟨e, he, rfl⟩
      · exact le_rfl
      · obtain ⟨f, hf, hm⟩ := hes' e he
        exact hm ▸ htop f hf
    obtain rfl := htop'.unique hgreatest'
    rw [hcopy, hy'.copyAt_eq ha]

instance (w : World) (named : ℕ → Path × Bytes) (p : Path) (v : List Bytes)
    (torrent : TorrentInfo) : Decidable (Announces w named p v torrent) :=
  decidable_of_iff (verbOf (part v 0) = ascii "create" ∧ v.length = 4 ∧ announcedPath v = p ∧
      torrentOf w v = some torrent ∧ Lands w p torrent ∧
      named torrent.infoHash = (p, torrent.content))
    ⟨fun h => ⟨h.1, h.2.1, h.2.2.1, h.2.2.2.1, h.2.2.2.2.1, h.2.2.2.2.2⟩,
      fun h => ⟨h.verb, h.length, h.path, h.loads, h.lands, h.names⟩⟩

/-- Two contents of one time, and the first again, announced older. -/
def tiedCreates : List Delivery :=
  [⟨sampleCreate "x" 900, 1000, 0, toFileTime 1000⟩,
    ⟨sampleCreate "y" 900, 1010, 10, toFileTime 1010⟩,
    ⟨sampleCreate "x" 800, 1020, 20, toFileTime 1020⟩]

theorem tiedCreates_converge :
    ∃ d ∈ tiedCreates, ∃ torrent, torrentOf sampleWorld d.message = some torrent ∧
      (∀ e ∈ tiedCreates, rank sampleWorld e.message ≤ rank sampleWorld d.message) ∧
      copyAt sampleWorld samplePath (deliver sampleWorld (Node.start ∅ 1000 0).replica tiedCreates) =
        copyOf d.message torrent := by
  have hb : Bare sampleWorld sampleNamed samplePath (Node.start ∅ 1000 0).replica :=
    ⟨oneMemory_start ∅ 1000 0, by decide +kernel, Std.ExtTreeMap.not_mem_empty,
      by simp [Node.start], by simp [Node.start]⟩
  have hall : ∀ d ∈ tiedCreates, (torrentOf sampleWorld d.message).any (fun torrent =>
      decide (Announces sampleWorld sampleNamed samplePath d.message torrent)) = true := by
    decide +kernel
  refine (creates_converge hb (List.cons_ne_nil _ _) fun d hd => ?_).1
  obtain ⟨torrent, -, ht⟩ := (Option.any_eq_true _ _).mp (hall d hd)
  exact ⟨torrent, of_decide_eq_true ht⟩

end SyncFs
