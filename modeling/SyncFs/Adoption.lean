import SyncFs.TidySessions

/-!
# What an adoption leaves

An adoption records every deletion that is news and deletes the copies it
finds listed. Each path it deletes loses its torrent, its file and everything
the repairs remember it by, and no other path loses anything. A deletion that
is no news is passed over, whatever copy is held against it.
-/

namespace SyncFs

open CharConversions LabelledRuns

namespace Session

variable {w : World} {s : Session} {path : Path}

theorem torrents_foldl_withdraw {ps : List Path} (ha : s.Apart) :
    (ps.foldl (Session.withdraw w) s).torrents =
      s.torrents.filter fun t => ps.all fun p => w.join t.savePath t.info ≠ p.lexicallyNormal := by
  induction ps generalizing s with
  | nil => simp
  | cons p ps ih =>
    rw [List.foldl_cons, ih ha.withdraw, torrents_withdraw ha, List.filter_filter]
    refine List.filter_congr fun t _ => ?_
    rw [List.all_cons, Bool.and_comm]

end Session

namespace TakesOn

variable {w : World} {es : List (Path × TimePoint)} {r r' : Replica} {deleted : List Path}
variable {p : Path}

theorem sublist (h : TakesOn w es r r' deleted) : deleted.Sublist (es.map Prod.fst) := by
  induction h with
  | nil => exact .slnil
  | unheld _ _ ih => exact ih.cons _
  | held _ _ _ ih => exact ih.cons_cons _

theorem former (h : TakesOn w es r r' deleted) :
    r'.former[p]? = if p ∈ deleted then none else r.former[p]? := by
  induction h with
  | nil => rfl
  | unheld _ _ ih => exact ih
  | @held path moment _ r left _ deleted _ erased _ ih =>
    obtain ⟨disk, -, rfl⟩ := erase_ok erased
    have hl : (r.unlisted path moment).former[p]? = if path = p then none else r.former[p]? :=
      PathMap.getElem?_erase
    rw [ih, ← PathMap.ite_mem_cons]
    exact congrArg (ite (p ∈ deleted) none) hl

/-- The paths deleted are those listed when the deletions came. -/
theorem mem_deleted (h : TakesOn w es r r' deleted) (hn : (es.map Prod.fst).Nodup) :
    p ∈ deleted ↔ p ∈ es.map Prod.fst ∧ p ∈ r.former := by
  induction h with
  | nil => simp
  | @unheld path moment es r _ deleted absent _ ih =>
    obtain ⟨hnot, hn⟩ := List.nodup_cons.mp hn
    have hp : path ∉ r.former := by
      rw [← Std.ExtTreeMap.contains_iff_mem, absent]
      exact Bool.false_ne_true
    rw [ih hn, List.map_cons, List.mem_cons]
    constructor
    · exact fun h => ⟨.inr h.1, h.2⟩
    · rintro ⟨rfl | h, hf⟩
      · exact absurd hf hp
      · exact ⟨h, hf⟩
  | @held path moment es r left _ deleted present erased _ ih =>
    obtain ⟨hnot, hn⟩ := List.nodup_cons.mp hn
    obtain ⟨disk, -, rfl⟩ := erase_ok erased
    have hp : path ∈ r.former := by simpa using present
    have hl : p ∈ (r.unlisted path moment).former ↔ path ≠ p ∧ p ∈ r.former := by
      rw [Replica.unlisted, Std.ExtTreeMap.mem_erase, ne_eq, Std.compare_eq_iff_eq]
    rw [List.mem_cons, ih hn, hl, List.map_cons, List.mem_cons]
    by_cases he : p = path
    · subst he
      simp [hp]
    · simp [he, Ne.symm he]

theorem tombstones_other (h : TakesOn w es r r' deleted) (hp : p ∉ es.map Prod.fst) :
    r'.tombstones[p]? = r.tombstones[p]? := by
  induction h with
  | nil => rfl
  | unheld _ _ ih =>
    rw [List.map_cons, List.mem_cons, not_or] at hp
    rw [ih hp.2, getElem?_mark, if_neg (Ne.symm hp.1)]
  | @held path moment _ r left _ deleted _ erased _ ih =>
    obtain ⟨disk, -, rfl⟩ := erase_ok erased
    rw [List.map_cons, List.mem_cons, not_or] at hp
    have hl : (r.unlisted path moment).tombstones[p]? = r.tombstones[p]? := by
      rw [Replica.unlisted, getElem?_mark, if_neg (Ne.symm hp.1)]
    exact (ih hp.2).trans hl

theorem tombstones_self (h : TakesOn w es r r' deleted) (hn : (es.map Prod.fst).Nodup)
    {moment : TimePoint} (hm : (p, moment) ∈ es) :
    r'.tombstones[p]? = some ((r.tombstones[p]?).elim moment fun ours => max ours moment) := by
  induction h with
  | nil => cases hm
  | @unheld path _ _ _ _ _ _ rest ih =>
    obtain ⟨hnot, hn⟩ := List.nodup_cons.mp hn
    rcases List.mem_cons.mp hm with he | hm
    · obtain ⟨rfl, rfl⟩ := Prod.mk.inj he
      rw [rest.tombstones_other hnot, getElem?_mark, if_pos rfl]
    · have hne : path ≠ p := fun he => hnot (List.mem_map.mpr ⟨_, hm, he.symm⟩)
      rw [ih hn hm, getElem?_mark, if_neg hne]
  | @held path moment _ r left _ deleted _ erased rest ih =>
    obtain ⟨disk, -, rfl⟩ := erase_ok erased
    obtain ⟨hnot, hn⟩ := List.nodup_cons.mp hn
    have hl : ∀ q : Path, (r.unlisted path moment).tombstones[q]? =
        (mark r.tombstones path moment)[q]? := fun _ => rfl
    rcases List.mem_cons.mp hm with he | hm
    · obtain ⟨rfl, rfl⟩ := Prod.mk.inj he
      rw [rest.tombstones_other hnot]
      exact (hl p).trans (by rw [getElem?_mark, if_pos rfl])
    · have hne : path ≠ p := fun he => hnot (List.mem_map.mpr ⟨_, hm, he.symm⟩)
      rw [ih hn hm]
      simp only [hl, getElem?_mark, hne, if_false]

theorem disk (h : TakesOn w es r r' deleted) (hk : ∀ q ∈ deleted, q.IsKey) :
    r'.disk[p]? = if p ∈ deleted then none else r.disk[p]? := by
  induction h with
  | nil => rfl
  | unheld _ _ ih => exact ih hk
  | @held path moment _ r left _ deleted _ erased _ ih =>
    obtain ⟨tree, ht, rfl⟩ := erase_ok erased
    have hl : tree.disk[p]? = if path = p then none else r.disk[p]? := by
      rw [Tree.getElem?_remove ht, Tree.locate_key (hk path List.mem_cons_self)]
      simp only [Option.some.injEq]
      rfl
    rw [ih fun q hq => hk q (List.mem_cons_of_mem path hq), ← PathMap.ite_mem_cons]
    exact congrArg (ite (p ∈ deleted) none) hl

theorem absent (h : TakesOn w es r r' deleted) (hp : p ∉ r.disk) : p ∉ r'.disk := by
  induction h with
  | nil => exact hp
  | unheld _ _ ih => exact ih hp
  | held _ erased _ ih =>
    obtain ⟨tree, ht, rfl⟩ := erase_ok erased
    exact ih fun hd => hp (Tree.disk_remove ht p hd)

/-- A listing key that was deleted is gone, whatever else was. -/
theorem gone (h : TakesOn w es r r' deleted) (hk : p.IsKey) (hp : p ∈ deleted) : p ∉ r'.disk := by
  induction h with
  | nil => cases hp
  | unheld _ _ ih => exact ih hp
  | held _ erased rest ih =>
    rcases List.mem_cons.mp hp with rfl | hp
    · obtain ⟨tree, ht, rfl⟩ := erase_ok erased
      refine rest.absent (PathMap.notMem_iff.mpr ?_)
      exact (Tree.getElem?_remove_key hk ht p).trans (if_pos rfl)
    · exact ih hp

theorem session (h : TakesOn w es r r' deleted) :
    r'.session = deleted.foldl (Session.withdraw w) r.session := by
  induction h with
  | nil => rfl
  | unheld _ _ ih => exact ih
  | held _ erased _ ih =>
    obtain ⟨disk, -, rfl⟩ := erase_ok erased
    exact ih

theorem repairs (h : TakesOn w es r r' deleted) :
    r'.repairs = deleted.foldl Repairs.forget r.repairs := by
  induction h with
  | nil => rfl
  | unheld _ _ ih => exact ih
  | held _ erased _ ih =>
    obtain ⟨disk, -, rfl⟩ := erase_ok erased
    exact ih

theorem aside (h : TakesOn w es r r' deleted) :
    r'.inbound = r.inbound ∧ r'.peers = r.peers := by
  induction h with
  | nil => exact ⟨rfl, rfl⟩
  | unheld _ _ ih => exact ih
  | held _ erased _ ih =>
    obtain ⟨disk, -, rfl⟩ := erase_ok erased
    exact ih

end TakesOn

structure Traceless (w : World) (r : Replica) (p : Path) : Prop where
  unlisted : p ∉ r.former
  unserved : r.session.torrentsAt w p = []
  deleted : r.find w p = none
  unpromised : p ∉ r.repairs.pending
  unapplied : p ∉ r.repairs.applied
  unannounced : p ∉ r.repairs.announcements

structure SameAt (w : World) (p : Path) (r r' : Replica) : Prop where
  former : r'.former[p]? = r.former[p]?
  session : r'.session.torrentsAt w p = r.session.torrentsAt w p
  disk : r'.find w p = r.find w p
  pending : r'.repairs.pending[p]? = r.repairs.pending[p]?
  applied : r'.repairs.applied[p]? = r.repairs.applied[p]?
  announcements : r'.repairs.announcements[p]? = r.repairs.announcements[p]?

/-- All that taking on so many deletions changes. -/
structure Adopted (w : World) (taken : TombstoneMap) (r r' : Replica) (deleted : List Path) :
    Prop where
  overridden : ∀ p : Path, r'.tombstones[p]? = (taken[p]?).or r.tombstones[p]?
  later : ∀ (p : Path) (moment : TimePoint), r.tombstones[p]? = some moment →
    ∃ kept, r'.tombstones[p]? = some kept ∧ moment ≤ kept
  unlisted : ∀ p : Path, r'.former[p]? = if p ∈ taken then none else r.former[p]?
  once : deleted.Nodup
  mem_deleted : ∀ p, p ∈ deleted ↔ p ∈ taken ∧ p ∈ r.former
  traceless : ∀ p ∈ deleted, Traceless w r' p
  same : ∀ p, p.IsKey → p ∉ deleted → SameAt w p r r'
  inbound : r'.inbound = r.inbound
  peers : r'.peers = r.peers

theorem foldl_forget (ps : List Path) (repairs : Repairs) :
    (ps.foldl Repairs.forget repairs).pending = ps.foldl (fun m p => m.erase p) repairs.pending ∧
    (ps.foldl Repairs.forget repairs).applied = ps.foldl (fun m p => m.erase p) repairs.applied ∧
    (ps.foldl Repairs.forget repairs).announcements =
      ps.foldl (fun m p => m.erase p) repairs.announcements := by
  induction ps generalizing repairs with
  | nil => exact ⟨rfl, rfl, rfl⟩
  | cons p ps ih => exact ih (repairs.forget p)

variable {w : World} {theirs : TombstoneMap} {now : TimePoint} {r r' : Replica}
variable {deleted : List Path} {p : Path}

theorem mem_map_fst_toList {β : Type} {m : PathMap β} : p ∈ m.toList.map Prod.fst ↔ p ∈ m := by
  rw [Std.ExtTreeMap.map_fst_toList_eq_keys, Std.ExtTreeMap.mem_keys]

theorem nodup_map_fst_toList {β : Type} {m : PathMap β} : (m.toList.map Prod.fst).Nodup := by
  rw [Std.ExtTreeMap.map_fst_toList_eq_keys]
  exact Std.ExtTreeMap.nodup_keys

theorem mem_deleted (h : adopt w theirs now r = .ok (r', deleted)) :
    p ∈ deleted ↔ p ∈ adoptable theirs r.former r.tombstones now ∧ p ∈ r.former := by
  rw [(takesOn h).mem_deleted nodup_map_fst_toList, mem_map_fst_toList]

theorem former_adopt (h : adopt w theirs now r = .ok (r', deleted)) :
    r'.former[p]? =
      if p ∈ adoptable theirs r.former r.tombstones now then none else r.former[p]? := by
  rw [(takesOn h).former]
  by_cases hf : p ∈ r.former
  · simp only [mem_deleted h, hf, and_true]
  · simp [Std.ExtTreeMap.getElem?_eq_none hf]

theorem tombstones_adopt (h : adopt w theirs now r = .ok (r', deleted)) :
    r'.tombstones[p]? =
      ((adoptable theirs r.former r.tombstones now)[p]?).or r.tombstones[p]? := by
  cases ha : (adoptable theirs r.former r.tombstones now)[p]? with
  | none => exact (takesOn h).tombstones_other (mem_map_fst_toList.not.mpr (PathMap.notMem_iff.mpr ha))
  | some moment =>
    rw [(takesOn h).tombstones_self nodup_map_fst_toList (PathMap.mem_toList.mpr ha)]
    obtain ⟨-, hnew, -, -⟩ := getElem?_adoptable.mp ha
    cases hours : r.tombstones[p]? with
    | none => rfl
    | some ours => exact congrArg some (max_eq_right (hnew ours hours).le)

/-- A second adoption of one digest finds no news in it. -/
theorem adoptable_adopt (h : adopt w theirs now r = .ok (r', deleted)) :
    adoptable theirs r'.former r'.tombstones now = ∅ := by
  refine Std.ExtTreeMap.ext_getElem? fun p => ?_
  rw [Std.ExtTreeMap.getElem?_empty, Option.eq_none_iff_forall_ne_some]
  intro moment hm
  obtain ⟨ht, hnew, hlive, hheld⟩ := getElem?_adoptable.mp hm
  cases ha : (adoptable theirs r.former r.tombstones now)[p]? with
  | some taken =>
    have hours := hnew taken (by rw [tombstones_adopt h, ha]; rfl)
    have htaken := (getElem?_adoptable.mp ha).1
    rw [ht] at htaken
    exact absurd hours (Option.some.inj htaken ▸ lt_irrefl moment)
  | none =>
    rw [tombstones_adopt h, ha, Option.none_or] at hnew
    rw [former_adopt h, if_neg (PathMap.notMem_iff.mpr ha)] at hheld
    have hs := getElem?_adoptable.mpr ⟨ht, hnew, hlive, hheld⟩
    rw [ha] at hs
    cases hs

theorem isKey_of_mem_deleted (hk : ∀ p ∈ theirs, p.IsKey)
    (h : adopt w theirs now r = .ok (r', deleted)) (hp : p ∈ deleted) : p.IsKey := by
  obtain ⟨moment, hm⟩ := PathMap.mem_iff.mp ((mem_deleted h).mp hp).1
  exact hk p (PathMap.mem_iff.mpr ⟨moment, (getElem?_adoptable.mp hm).1⟩)

theorem find_adopt (hk : ∀ p ∈ theirs, p.IsKey) (h : adopt w theirs now r = .ok (r', deleted))
    (hp : p.IsKey) :
    r'.find w p = if p ∈ deleted then none else r.find w p := by
  rw [Tree.find_key hp, Tree.find_key hp,
    (takesOn h).disk fun q hq => isKey_of_mem_deleted hk h hq]

/-- A path an adoption deletes is served by nothing, whatever else the digest names. -/
theorem unserved_adopt (ha : r.session.Apart) (h : adopt w theirs now r = .ok (r', deleted))
    (hp : p ∈ deleted) : r'.session.torrentsAt w p = [] := by
  rw [Session.torrentsAt, (takesOn h).session, Session.torrents_foldl_withdraw ha,
    List.filter_filter]
  refine List.filter_eq_nil_iff.mpr fun t _ hb => ?_
  rw [Bool.and_eq_true, decide_eq_true_eq, List.all_eq_true] at hb
  exact of_decide_eq_true (hb.2 p hp) hb.1

theorem torrentsAt_adopt (hk : ∀ p ∈ theirs, p.IsKey) (ha : r.session.Apart)
    (h : adopt w theirs now r = .ok (r', deleted)) (hp : p.IsKey) :
    r'.session.torrentsAt w p = if p ∈ deleted then [] else r.session.torrentsAt w p := by
  split
  · next hd => exact unserved_adopt ha h hd
  · next hd =>
    rw [Session.torrentsAt, (takesOn h).session, Session.torrents_foldl_withdraw ha,
      List.filter_filter]
    refine List.filter_congr fun t _ => ?_
    rw [Bool.eq_iff_iff, Bool.and_eq_true, and_iff_left_iff_imp, decide_eq_true_eq,
      List.all_eq_true]
    intro hj q hq
    refine decide_eq_true fun hn => hd ?_
    obtain rfl := hp.eq_of_lexicallyNormal (isKey_of_mem_deleted hk h hq) (hj.symm.trans hn)
    exact hq

theorem repairs_adopt (h : adopt w theirs now r = .ok (r', deleted)) :
    r'.repairs.pending[p]? = (if p ∈ deleted then none else r.repairs.pending[p]?) ∧
    r'.repairs.applied[p]? = (if p ∈ deleted then none else r.repairs.applied[p]?) ∧
    r'.repairs.announcements[p]? =
      if p ∈ deleted then none else r.repairs.announcements[p]? := by
  obtain ⟨hpend, happ, hann⟩ := foldl_forget deleted r.repairs
  rw [(takesOn h).repairs, hpend, happ, hann]
  exact ⟨PathMap.getElem?_foldl_erase, PathMap.getElem?_foldl_erase, PathMap.getElem?_foldl_erase⟩

theorem later_adopt (h : adopt w theirs now r = .ok (r', deleted)) {moment : TimePoint}
    (hm : r.tombstones[p]? = some moment) :
    ∃ kept, r'.tombstones[p]? = some kept ∧ moment ≤ kept := by
  rw [tombstones_adopt h]
  cases ha : (adoptable theirs r.former r.tombstones now)[p]? with
  | none => exact ⟨moment, hm, le_rfl⟩
  | some taken => exact ⟨taken, rfl, ((getElem?_adoptable.mp ha).2.1 moment hm).le⟩

theorem traceless_adopt (hk : ∀ p ∈ theirs, p.IsKey) (ha : r.session.Apart)
    (h : adopt w theirs now r = .ok (r', deleted)) (hp : p ∈ deleted) : Traceless w r' p := by
  have hkey := isKey_of_mem_deleted hk h hp
  have hf := former_adopt (p := p) h
  have ht := torrentsAt_adopt hk ha h hkey
  have hd := find_adopt hk h hkey
  obtain ⟨hpend, happ, hann⟩ := repairs_adopt (p := p) h
  rw [if_pos ((mem_deleted h).mp hp).1] at hf
  rw [if_pos hp] at ht hd hpend happ hann
  constructor
  · exact PathMap.notMem_iff.mpr hf
  · exact ht
  · exact hd
  · exact PathMap.notMem_iff.mpr hpend
  · exact PathMap.notMem_iff.mpr happ
  · exact PathMap.notMem_iff.mpr hann

theorem sameAt_adopt (hk : ∀ p ∈ theirs, p.IsKey) (ha : r.session.Apart)
    (h : adopt w theirs now r = .ok (r', deleted)) (hkey : p.IsKey) (hp : p ∉ deleted) :
    SameAt w p r r' := by
  have hf := (takesOn h).former (p := p)
  have ht := torrentsAt_adopt hk ha h hkey
  have hd := find_adopt hk h hkey
  obtain ⟨hpend, happ, hann⟩ := repairs_adopt (p := p) h
  rw [if_neg hp] at hf ht hd hpend happ hann
  exact ⟨hf, ht, hd, hpend, happ, hann⟩

/-- An adoption changes what it says and nothing else, and a second one of the
same digest at the same time nothing at all. -/
theorem adopt_exact (hk : ∀ p ∈ theirs, p.IsKey) (ha : r.session.Apart)
    (h : adopt w theirs now r = .ok (r', deleted)) :
    Adopted w (adoptable theirs r.former r.tombstones now) r r' deleted ∧
      adopt w theirs now r' = .ok (r', []) := by
  constructor
  · constructor
    · exact fun p => tombstones_adopt h
    · exact fun p moment hm => later_adopt h hm
    · exact fun p => former_adopt h
    · exact (takesOn h).sublist.nodup nodup_map_fst_toList
    · exact fun p => mem_deleted h
    · exact fun p hp => traceless_adopt hk ha h hp
    · exact fun p hkey hp => sameAt_adopt hk ha h hkey hp
    · exact (takesOn h).aside.1
    · exact (takesOn h).aside.2
  · have he : ((∅ : TombstoneMap).toList : List (Path × TimePoint)) = [] := by
      rfl
    rw [adopt, adoptable_adopt h, he]
    rfl

/-- A node with one file of a peer's, its repair promised. -/
def seeding : Replica where
  disk := .ofList [(samplePath, sampleFile "x" 10)] compare
  directories := ∅
  session := Session.empty.addTorrent ⟨7, samplePath.lexicallyNormal, ascii "x", []⟩ sampleWorld.root
  former := .ofList [(samplePath, toFileTime 10)] compare
  tombstones := ∅
  inbound := ⟨∅, .ofList [(samplePath, toFileTime 10)] compare⟩
  repairs :=
    { pending := .ofList [(samplePath, 40)] compare
      applied := .ofList [(samplePath, ⟨toFileTime 10, 7⟩)] compare
      announcements := .ofList [(samplePath, [])] compare }
  peers := ∅

def oneGrave (moment : TimePoint) : TombstoneMap := (∅ : TombstoneMap).insert samplePath moment

theorem getElem?_oneGrave {moment at' : TimePoint} :
    (oneGrave moment)[p]? = some at' ↔ samplePath = p ∧ moment = at' := by
  rw [oneGrave, PathMap.getElem?_insert, Std.ExtTreeMap.getElem?_empty,
    Option.ite_none_right_eq_some, Option.some.injEq]

def twoGraves : TombstoneMap := (oneGrave 20).insert (Path.ofNative (ascii "./b")) 5

theorem seeding_adopts :
    ∃ r', adopt sampleWorld twoGraves 30 seeding = .ok (r', [samplePath]) ∧
      Adopted sampleWorld (adoptable twoGraves seeding.former seeding.tombstones 30) seeding r'
        [samplePath] ∧
      adopt sampleWorld twoGraves 30 r' = .ok (r', []) := by
  have hk : ∀ p ∈ twoGraves, p.IsKey := by
    intro p hp
    obtain ⟨moment, hm⟩ := PathMap.mem_iff.mp hp
    rw [twoGraves, PathMap.getElem?_insert] at hm
    split at hm
    · next hb =>
      subst hb
      decide
    · obtain ⟨rfl, -⟩ := getElem?_oneGrave.mp hm
      decide
  have hd : (adopt sampleWorld twoGraves 30 seeding).toOption.map Prod.snd =
      some [samplePath] := by decide +kernel
  cases h : adopt sampleWorld twoGraves 30 seeding with
  | error => simp [h, Except.toOption] at hd
  | ok s =>
    obtain ⟨r', deleted⟩ := s
    rw [h] at hd
    obtain rfl : deleted = [samplePath] := Option.some.inj hd
    exact ⟨r', rfl, adopt_exact hk (by decide +kernel) h⟩

/-- No listed copy is older than a deletion of it that counts still, recorded
here or in the digest. -/
def Buried (theirs : TombstoneMap) (now : TimePoint) (r : Replica) : Prop :=
  ∀ (p : Path) (t : FileTime), r.former[p]? = some t → ∀ grave, r.tombstones[p]? = some grave ∨ theirs[p]? = some grave →
    now - grave ≤ tombstoneTtl → beats grave t = false

/-- Whatever listed copy a deletion recorded here beats, the digest carries a
later deletion of. -/
def Renewed (theirs : TombstoneMap) (now : TimePoint) (r : Replica) : Prop :=
  ∀ (p : Path) (t : FileTime), r.former[p]? = some t → ∀ grave, r.tombstones[p]? = some grave →
    now - grave ≤ tombstoneTtl → beats grave t = true → ∃ moment, theirs[p]? = some moment ∧
      grave < moment

/-- A deletion that counts, beats the file and is not adopted is no news. -/
theorem known_of_notMem_adoptable {t : FileTime} {moment : TimePoint}
    (ha : p ∉ adoptable theirs r.former r.tombstones now) (hf : r.former[p]? = some t)
    (ht : theirs[p]? = some moment) (hlive : now - moment ≤ tombstoneTtl)
    (hbeats : beats moment t = true) : ∃ ours, r.tombstones[p]? = some ours ∧ moment ≤ ours := by
  by_contra hours
  refine ha (PathMap.mem_iff.mpr ⟨moment, getElem?_adoptable.mpr ⟨ht, ?_, hlive, ?_⟩⟩)
  · intro ours ho
    exact not_le.mp fun hle => hours ⟨ours, ho, hle⟩
  · intro s hs
    obtain rfl := Option.some.inj (hf.symm.trans hs)
    exact beats_iff.mp hbeats

/-- An adoption leaves no copy a deletion has killed exactly when the digest
carries a later deletion for each such copy the node lists. -/
theorem adopt_buries_iff (h : adopt w theirs now r = .ok (r', deleted)) :
    Buried theirs now r' ↔ Renewed theirs now r := by
  constructor
  · intro hb p t hf grave hg hlive hbeats
    by_contra hn
    have ha : p ∉ adoptable theirs r.former r.tombstones now := by
      intro hm
      obtain ⟨moment, hm⟩ := PathMap.mem_iff.mp hm
      obtain ⟨ht, hnew, -, -⟩ := getElem?_adoptable.mp hm
      exact hn ⟨moment, ht, hnew grave hg⟩
    have hf' : r'.former[p]? = some t := by rw [former_adopt h, if_neg ha, hf]
    have hg' : r'.tombstones[p]? = some grave := by
      rw [tombstones_adopt h, PathMap.notMem_iff.mp ha, Option.none_or, hg]
    rw [hb p t hf' grave (.inl hg') hlive] at hbeats
    cases hbeats
  · intro hr p t hf' grave hg' hlive
    rw [former_adopt h] at hf'
    obtain ⟨ha, hf⟩ := Option.ite_none_left_eq_some.mp hf'
    rw [tombstones_adopt h, PathMap.notMem_iff.mp ha, Option.none_or] at hg'
    by_contra hbeats
    rw [Bool.not_eq_false] at hbeats
    have hmine : ∀ ours, r.tombstones[p]? = some ours → now - ours ≤ tombstoneTtl →
        beats ours t = false := by
      intro ours ho hl
      by_contra hb
      rw [Bool.not_eq_false] at hb
      obtain ⟨moment, ht, hlt⟩ := hr p t hf ours ho hl hb
      obtain ⟨ours', ho', hle⟩ := known_of_notMem_adoptable ha hf ht
        ((sub_le_sub_left hlt.le now).trans hl) (beats_iff.mpr ((beats_iff.mp hb).trans hlt))
      obtain rfl := Option.some.inj (ho.symm.trans ho')
      exact absurd hlt (not_lt.mpr hle)
    rcases hg' with hg | hg
    · rw [hmine grave hg hlive] at hbeats
      cases hbeats
    · obtain ⟨ours, ho, hle⟩ := known_of_notMem_adoptable ha hf hg hlive hbeats
      have hb := hmine ours ho ((sub_le_sub_left hle now).trans hlive)
      rw [beats_iff.mpr ((beats_iff.mp hbeats).trans_le hle)] at hb
      cases hb

theorem adopt_of_known (hk : ∀ (p : Path) (moment : TimePoint), theirs[p]? = some moment →
    ∃ ours, r.tombstones[p]? = some ours ∧ moment ≤ ours) :
    adopt w theirs now r = .ok (r, []) := by
  have ha : adoptable theirs r.former r.tombstones now = ∅ := by
    refine Std.ExtTreeMap.ext_getElem? fun p => ?_
    rw [Std.ExtTreeMap.getElem?_empty, Option.eq_none_iff_forall_ne_some]
    intro moment hm
    obtain ⟨ht, hnew, -, -⟩ := getElem?_adoptable.mp hm
    obtain ⟨ours, ho, hle⟩ := hk p moment ht
    exact absurd (hnew ours ho) (not_lt.mpr hle)
  have he : ((∅ : TombstoneMap).toList : List (Path × TimePoint)) = [] := rfl
  rw [adopt, ha, he]
  rfl

/-- A file of 1000 the node has deleted at 1020 and somebody has put back. -/
def restored : Replica :=
  { seeding with
    disk := .ofList [(samplePath, sampleFile "x" 1000)] compare
    directories := ∅
    former := .ofList [(samplePath, toFileTime 1000)] compare
    tombstones := oneGrave 1020 }

theorem restored_buried :
    ∃ r', adopt sampleWorld (oneGrave 1030) 1040 restored = .ok (r', [samplePath]) ∧
      Buried (oneGrave 1030) 1040 r' := by
  have hd : (adopt sampleWorld (oneGrave 1030) 1040 restored).toOption.map Prod.snd =
      some [samplePath] := by decide +kernel
  have hr : Renewed (oneGrave 1030) 1040 restored := by
    intro p t _ grave hg _ _
    obtain ⟨rfl, rfl⟩ := getElem?_oneGrave.mp hg
    exact ⟨1030, getElem?_oneGrave.mpr ⟨rfl, rfl⟩, by decide⟩
  cases h : adopt sampleWorld (oneGrave 1030) 1040 restored with
  | error => simp [h, Except.toOption] at hd
  | ok s =>
    obtain ⟨r', deleted⟩ := s
    rw [h] at hd
    obtain rfl : deleted = [samplePath] := Option.some.inj hd
    exact ⟨r', rfl, (adopt_buries_iff h).mpr hr⟩

def putBack : List Event :=
  [.localWrite samplePath (sampleFile "x" 1000), .tick 10] ++ pass true none ++
    [.localDelete samplePath, .tick 10] ++ pass true none ++
    [.localWrite samplePath (sampleFile "x" 1000), .tick 10] ++ pass true none

theorem putBack_outlives :
    ∃ h n, Run (step sampleWorld) (.start ∅ 1000 0) h n ∧
      ∃ r' deleted, adopt sampleWorld (oneGrave 1020) n.clock n.replica = .ok (r', deleted) ∧
        ¬ Buried (oneGrave 1020) n.clock r' := by
  obtain ⟨h, n, hr, hc, hf, hg⟩ := exists_run (step sampleWorld) (.start ∅ 1000 0) putBack
    (fun _ n => n.clock = 1030 ∧ n.replica.former[samplePath]? = some (toFileTime 1000) ∧
      n.replica.tombstones[samplePath]? = some 1020) (by decide +kernel)
  refine ⟨h, n, hr, n.replica, [], adopt_of_known fun p moment hm => ?_, fun hb => ?_⟩
  · obtain ⟨rfl, rfl⟩ := getElem?_oneGrave.mp hm
    exact ⟨1020, hg, le_rfl⟩
  · have hbeats := hb samplePath _ hf 1020 (.inl hg) (by rw [hc]; decide)
    exact absurd hbeats (by decide)

end SyncFs
