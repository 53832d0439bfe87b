import SyncFs.ChangeSets
import SyncFs.Tidings

/-!
# A tree followed from afar

One node lists its tree every now and then and says what has changed. Another
that started on the same tree, takes in all that was said, in order, and fetches
each file before it goes on, has the same tree in the end.
-/

namespace SyncFs

open CharConversions LabelledRuns

/-- What the loop finds when it comes to list the directory, and what of its own
words it hears before it comes to list it again. -/
structure Snapshot extends Tree where
  clock : TimePoint
  written : FileMap
  echoes : List Delivery

/-- A message, and the directories there are when it comes. -/
structure Arrival extends Delivery where
  directories : PathMap FileTime

/-- None of the directories is in the way of a file announced. -/
def Arrival.Clear (a : Arrival) : Prop :=
  removedPath a.message = none → ClearOf a.directories (announcedPath a.message)

instance (a : Arrival) : Decidable a.Clear := by
  unfold Arrival.Clear
  infer_instance

def Node.reaching (n : Node) (x : Snapshot) : Node :=
  { n with
    clock := x.clock
    replica := { n.replica with
      toTree := x.toTree
      inbound := { n.replica.inbound with written := x.written } } }

section

variable (w : World)

def announcePass (n : Node) : Node :=
  let current := n.replica.disk.list
  sendChanges w (listChanges n current) (changesAt n current).1 current

/-- A message taken in, and the file it announces fetched unless something is in
the way there. -/
def follow (r : Replica) (d : Delivery) : Replica :=
  if r.blocked (announcedPath d.message) then
    match receiveOne w d.message d.clock d.steady r with
    | .error left => left
    | .ok left => left
  else take w d.message d.clock d.steady d.written r

def followAll (r : Replica) (as : List Arrival) : Replica :=
  as.foldl (fun r a => follow w { r with directories := a.directories } a.toDelivery) r

def saidOf (n : Node) (x : Snapshot) : List (List Bytes) :=
  send w x.toTree (changesAt (n.reaching x) x.disk.list).1 x.disk.list x.clock

/-- Such a pass, and what is heard of it. -/
def publishPass (n : Node) (x : Snapshot) : Node :=
  let n := announcePass w (n.reaching x)
  { n with replica := x.echoes.foldl (follow w) n.replica }

def publishes (n : Node) (xs : List Snapshot) : Node := xs.foldl (publishPass w) n

end

/-- Two steps of the loop, once the monitor has woken it. -/
theorem announcePass_steps (w : World) {n : Node} (hp : n.pc = .wait) :
    (step w n (.woken (some []))).bind (fun m => step w m .advance) = some (announcePass w n) := by
  simp only [step, hp, Disk.listBut_nil, Option.bind_some]
  rfl

def Shown (xs : List Snapshot) (path : Path) (content : Bytes) : Prop :=
  ∃ x ∈ xs, x.disk.Holds path content

/-- A directory tree some time after another: nothing is in the way of a file, nor
where one was before, what is new was written since, and libtorrent has left its
mark on nothing new. -/
structure LaterThan (before : Disk) (since : TimePoint) (x : Snapshot) : Prop where
  later : since ≤ x.clock
  ticks : InInt64 x.clock
  tree : ∀ p, p ∈ before ∨ p ∈ x.disk → p.IsKey ∧ x.blocked p = false
  written : ∀ (p : Path) file, x.disk[p]? = some file → before[p]? = some file ∨
    since < file.mtime.toTicks ∧ file.mtime.toTicks ≤ x.clock ∧ InInt64 file.mtime.toTicks
  marks : ∀ (p : Path) t, x.written[p]? = some t → t.toTicks ≤ since

/-- Snapshots of a directory tree, each later than the one before, that a node
comes to and of which it hears nothing but what it said of the last of them. -/
def Successive (w : World) : Node → Disk → TimePoint → List Snapshot → Prop
  | _, _, _, [] => True
  | n, before, since, x :: xs => LaterThan before since x ∧
    (∀ d ∈ x.echoes, d.message ∈ saidOf w n x) ∧ Successive w (publishPass w n x) x.disk x.clock xs

/-- A replica that has told the tree there was, and the deletions it remembers of
earlier ones. -/
structure Tells (tree : Disk) (since : TimePoint) (r : Replica) : Prop where
  disk : r.disk = tree
  former : r.former = tree.list
  apart : ∀ p ∈ tree.list, p ∉ r.tombstones
  graves : ∀ (p : Path) m, r.tombstones[p]? = some m → m ≤ since
  files : ∀ (p : Path) file, tree[p]? = some file → p.IsKey ∧ file.mtime.toTicks ≤ since

/-- A replica whose disk is a tree, whose torrents are of the files in it and which
remembers no deletion later than allowed for. -/
structure Mirrors (w : World) (named : ℕ → Path × Bytes) (tree : Path → Option File)
    (since : Path → TimePoint) (r : Replica) : Prop where
  remembers : OneMemory w named r
  disk : ∀ p : Path, r.disk[p]? = tree p
  graves : ∀ (p : Path) m, r.tombstones[p]? = some m → m ≤ since p
  serves : ∀ t ∈ r.session.torrents, ∀ file, tree (w.heldPath t) = some file →
    t.info.content = file.content

theorem applies_of_removedPath {w : World} {v : List Bytes} {r : Replica} {path : Path}
    (h : removedPath v = some path) : applies w v r = false := by
  rw [applies, act_of_removedPath h, actRemove]
  cases erase w r path <;> rfl

namespace Mirrors

variable {w : World} {named : ℕ → Path × Bytes} {tree next : Path → Option File}
variable {since later : Path → TimePoint} {now : TimePoint} {r : Replica} {p : Path}
variable {vs : List (List Bytes)}

theorem remove (h : Mirrors w named tree since r) (hp : p.IsKey) {file : File}
    (hf : tree p = some file) (hle : since p ≤ now) (hnow : InInt64 now) {d : Delivery}
    (hd : d.message = Source.remove p now) :
    Mirrors w named (Function.update tree p none) (Function.update since p now)
      (follow w r d) := by
  let left : Replica := { r with
    session := r.session.withdraw w p, disk := r.disk.erase p }
  have hrec : receiveOne w d.message d.clock d.steady r = .ok (left.removed p now) := by
    rw [hd]
    exact receiveOne_gone hp hnow ((h.disk p).trans hf) _ _
  have hquiet : applies w d.message r = false :=
    applies_of_removedPath (hd ▸ removedPath_source hp)
  have he : follow w r d = left.removed p now := by
    rw [follow, take_of_applies_eq_false hrec hquiet, hrec, ite_self]
  rw [he]
  refine ⟨h.remembers.withdrawn hp rfl rfl, fun q => ?_, fun q m hq => ?_, fun t ht f hq => ?_⟩
  · rw [Function.update_apply]
    change (r.disk.erase p)[q]? = _
    rw [PathMap.getElem?_erase, h.disk]
    by_cases hqp : p = q
    · rw [if_pos hqp, if_pos hqp.symm]
    · rw [if_neg hqp, if_neg (Ne.symm hqp)]
  · exact mark_le h.graves hle q m hq
  · rw [Function.update_apply] at hq
    split at hq
    · cases hq
    · exact h.serves t (Session.mem_withdraw.mp ht).1 f hq

theorem create (h : Mirrors w named tree since r) {file : File} {d : Delivery}
    {torrent : TorrentInfo} (ha : Announces w named p d.message torrent)
    (ht : originOf d.message = file.mtime) (hc : torrent.content = file.content)
    (hfree : r.blocked p = false) (hclear : p ∉ r.directories) (hnew : since p < file.mtime.toTicks)
    (hold : ∀ old, tree p = some old → old.mtime.toTicks < file.mtime.toTicks) :
    Mirrors w named (Function.update tree p (some file)) since (follow w r d) := by
  have htaken := ha.taken hclear
    (fun m hm => ht ▸ (h.graves p m hm).trans hnew.le)
    (fun old ho => ht ▸ hold old ((h.disk p).symm.trans ho))
  obtain rfl := ha.path
  have hk := ha.lands.1
  obtain ⟨hw, happ, hrec⟩ := htaken
  obtain ⟨base, found, hb, he⟩ := transferred_applied ha.lands hclear hw d.written
  have hfollow : follow w r d = (base.stamped w (announcedPath d.message)
      (originOf d.message)).remembered (announcedPath d.message) (originOf d.message) := by
    rw [follow, if_neg (Bool.eq_false_iff.mp hfree), take_of_applies (hrec _ _) ha.loads happ, he]
  rw [hfollow]
  have hone := h.remembers.applied ha.loads ha.lands ha.names
  -- Held already is held under the content of the copy here.
  have hcontent : found.content = file.content := by
    rcases hb.content with ⟨hheld, hfile⟩ | hsame
    · obtain ⟨t, hat, hhash⟩ := heldAlready_iff.mp hheld
      have hmem := (Session.mem_torrentsAt.mp hat).1
      obtain ⟨hpath, hsame⟩ := h.remembers.heldPath_eq ha.names hmem hhash
      rw [← hc, ← hsame]
      refine (h.serves t hmem found ?_).symm
      rw [hpath, ← h.disk, hfile]
    · rw [hsame, hc]
  refine ⟨hone.congr hb.session (congrArg _ hb.repairs) (congrArg _ hb.repairs), fun q => ?_,
    fun q m hq => ?_, fun t htor f hq => ?_⟩
  · rw [Replica.remembered, Replica.stamped, Tree.getElem?_stamp_key hk, Function.update_apply]
    by_cases hqp : announcedPath d.message = q
    · rw [if_pos hqp, if_pos hqp.symm, ← hqp, hb.present, ht, Option.map_some, hcontent]
    · rw [if_neg hqp, if_neg (Ne.symm hqp), hb.others q hqp, h.disk]
  · rw [Replica.remembered, Replica.stamped] at hq
    dsimp only at hq
    rw [hb.tombstones, PathMap.getElem?_erase] at hq
    split at hq
    · cases hq
    · exact h.graves q m hq
  · have htor : t ∈ (r.applied w d.message torrent).session.torrents := hb.session ▸ htor
    obtain ⟨u, -, hpath, hsame, hmem, -⟩ := ha.serves h.remembers
    rcases hmem t htor with rfl | ⟨hleft, hne⟩
    · rw [hpath, Function.update_self] at hq
      rw [hsame, hc, Option.some.inj hq]
    · rw [Function.update_of_ne hne] at hq
      exact h.serves t hleft f hq

theorem among (h : Mirrors w named tree since r) (directories : PathMap FileTime) :
    Mirrors w named tree since { r with directories := directories } :=
  ⟨h.remembers.congr rfl rfl rfl, h.disk, h.graves, h.serves⟩

/-- A node that mirrors a tree mirrors what it is told of it. -/
theorem tell (h : Mirrors w named tree since r) {d : Delivery}
    (hclear : removedPath d.message = none → ClearOf r.directories (announcedPath d.message))
    (ht : Tell w named tree since d.message next later) :
    Mirrors w named next later (follow w r d) := by
  generalize hv : d.message = v at ht hclear
  cases ht with
  | remove key present le ticks => exact h.remove key present le ticks hv
  | create announces time content free newer older =>
    subst hv
    have hclear := hclear (removedPath_create announces.length)
    rw [announces.path] at hclear
    exact h.create announces time content (free r.toTree h.disk hclear) hclear.notMem newer older

theorem told (h : Mirrors w named tree since r) (ht : Told w named tree since vs next later)
    {as : List Arrival} (has : as.map (·.message) = vs) (hclear : ∀ a ∈ as, a.Clear) :
    Mirrors w named next later (followAll w r as) := by
  induction ht generalizing r as with
  | nil =>
    obtain rfl := List.map_eq_nil_iff.mp has
    exact h
  | cons tell _ ih =>
    obtain ⟨a, as, rfl, rfl, hrest⟩ := List.map_eq_cons_iff.mp has
    rw [List.forall_mem_cons] at hclear
    exact ih ((h.among a.directories).tell hclear.1 tell) hrest hclear.2

end Mirrors

section Swarm

variable {ι : Type} {w : ι → World} {named : ℕ → Path × Bytes} {i j : ι}
variable {plays : Path → Bytes → Prop}

theorem Tells.pass {tree : Disk} {since : TimePoint} {n : Node} {x : Snapshot}
    (h : Tells tree since n.replica) (hx : LaterThan tree since x) (v : World) :
    Tells x.disk x.clock (announcePass v (n.reaching x)).replica ∧
      ∃ gone news : List (Path × FileTime),
        saidOf v n x = gone.map (fun e => Source.remove e.1 x.clock) ++
          news.filterMap (fun e => Source.create v x.toTree e.1 e.2) ∧
        (gone.map Prod.fst).Nodup ∧ (news.map Prod.fst).Nodup ∧
        (∀ p, p ∈ gone.map Prod.fst ↔ p ∈ tree ∧ p ∉ x.disk) ∧
        (∀ p t, (p, t) ∈ news ↔ ∃ file, x.disk[p]? = some file ∧ file.mtime = t ∧
          tree[p]? ≠ some file) := by
  have hbefore := Disk.getElem?_list_of_keys fun p hp =>
    (h.files p _ (PathMap.mem_iff.mp hp).choose_spec).1
  have hafter := Disk.getElem?_list_of_keys fun p hp => (hx.tree p (.inr hp)).1
  let changes := localChanges tree.list x.disk.list x.written n.replica.tombstones x.clock
  have hchanges : changesAt (n.reaching x) x.disk.list = changes := by
    change localChanges n.replica.former x.disk.list x.written n.replica.tombstones x.clock = _
    rw [h.former]
  -- What is new is no mark of libtorrent's and beaten by no deletion.
  have hnews : ∀ p t, News tree.list x.disk.list x.written n.replica.tombstones p t ↔
      ∃ file, x.disk[p]? = some file ∧ file.mtime = t ∧ tree[p]? ≠ some file := by
    intro p t
    rw [News, hbefore, hafter, Option.map_eq_some_iff]
    constructor
    · rintro ⟨⟨file, hf, rfl⟩, hnew, -, -⟩
      refine ⟨file, hf, rfl, fun hold => hnew ?_⟩
      rw [hold, Option.map_some]
    · rintro ⟨file, hf, rfl, hnew⟩
      obtain ⟨hsince, -, -⟩ := (hx.written p file hf).resolve_left hnew
      refine ⟨⟨file, hf, rfl⟩, fun hold => ?_, fun hmark => ?_, fun grave hg => ?_⟩
      · obtain ⟨old, ho, he⟩ := Option.map_eq_some_iff.mp hold
        exact absurd (he ▸ (h.files p old ho).2) (not_le.mpr hsince)
      · exact absurd (hx.marks p _ hmark) (not_le.mpr hsince)
      · rw [Bool.eq_false_iff, ne_eq, beats_iff]
        exact not_lt.mpr ((h.graves p grave hg).trans hsince.le)
  have hgone : ∀ p, p ∈ changes.1.removed ↔ p ∈ tree ∧ p ∉ x.disk := by
    intro p
    rw [mem_removed, Disk.mem_list, Disk.mem_list]
    constructor
    · rintro ⟨⟨hk, hp⟩, hn, -⟩
      exact ⟨hp, fun hd => hn ⟨hk, hd⟩⟩
    · rintro ⟨hp, hn⟩
      have hk := (h.files p _ (PathMap.mem_iff.mp hp).choose_spec).1
      exact ⟨⟨hk, hp⟩, fun hd => hn hd.2, h.apart p (Disk.mem_list.mpr ⟨hk, hp⟩)⟩
  have htombs : ∀ (p : Path) m, (announcePass v (n.reaching x)).replica.tombstones[p]? = some m →
      (p ∈ changes.1.removed ∧ m = x.clock) ∨
        (p ∉ (createsSent changes.1 x.disk.list).map Prod.fst ∧
          n.replica.tombstones[p]? = some m) := by
    intro p m hm
    have hm : (expire (changesAt (n.reaching x) x.disk.list).2 x.clock)[p]? = some m := hm
    rw [hchanges, expire, PathMap.getElem?_filter, Option.filter_eq_some_iff,
      getElem?_localChanges_tombstones] at hm
    obtain ⟨hm, -⟩ := hm
    split at hm
    · next hr => exact .inl ⟨hr, (Option.some.inj hm).symm⟩
    · split at hm
      · cases hm
      · next hc => exact .inr ⟨hc, hm⟩
  refine ⟨⟨rfl, rfl, fun p hp hdead => ?_, fun p m hm => ?_, fun p file hf => ?_⟩,
    changes.1.removed.toList, createsSent changes.1 x.disk.list, ?_, ?_, nodup_createsSent ..,
    fun p => ?_, fun p t => mem_createsSent.trans (hnews p t)⟩
  · obtain ⟨m, hm⟩ := PathMap.mem_iff.mp hdead
    obtain ⟨hk, hd⟩ := Disk.mem_list.mp hp
    rcases htombs p m hm with ⟨hr, -⟩ | ⟨hc, hold⟩
    · exact ((hgone p).mp hr).2 hd
    · obtain ⟨file, hf⟩ := PathMap.mem_iff.mp hd
      by_cases hsame : tree[p]? = some file
      · exact h.apart p (Disk.mem_list.mpr ⟨hk, PathMap.mem_iff.mpr ⟨file, hsame⟩⟩)
          (PathMap.mem_iff.mpr ⟨m, hold⟩)
      · exact hc (List.mem_map_of_mem (f := Prod.fst)
          (mem_createsSent.mpr ((hnews p file.mtime).mpr ⟨file, hf, rfl, hsame⟩)))
  · rcases htombs p m hm with ⟨-, rfl⟩ | ⟨-, hold⟩
    · exact le_rfl
    · exact (h.graves p m hold).trans hx.later
  · refine ⟨(hx.tree p (.inr (PathMap.mem_iff.mpr ⟨file, hf⟩))).1, ?_⟩
    rcases hx.written p file hf with hold | ⟨-, hle, -⟩
    · exact (h.files p file hold).2.trans hx.later
    · exact hle
  · rw [saidOf, hchanges, send_eq]
  · rw [Std.ExtTreeMap.map_fst_toList_eq_keys]
    exact Std.ExtTreeMap.nodup_keys
  · rw [Std.ExtTreeMap.map_fst_toList_eq_keys, Std.ExtTreeMap.mem_keys]
    exact hgone p

/-- What a node that has told a tree may have said of it. -/
inductive Owns (v : World) (tree : Tree) (since : TimePoint) : List Bytes → Prop
  | remove {p : Path} (key : p.IsKey) (gone : p ∉ tree.disk) (free : tree.blocked p = false)
    (ticks : InInt64 since) : Owns v tree since (Source.remove p since)
  | create {p : Path} {file : File} (key : p.IsKey) (present : tree.disk[p]? = some file)
    (free : tree.blocked p = false) (ticks : InInt64 file.mtime.toTicks) :
    Owns v tree since (announce (v.generateBuf p file.content) file.mtime p)

theorem Tells.owns {tree : Disk} {since : TimePoint} {n : Node} {x : Snapshot}
    (h : Tells tree since n.replica) (hx : LaterThan tree since x) {v : World} {u : List Bytes}
    (hu : u ∈ saidOf v n x) : Owns v x.toTree x.clock u := by
  obtain ⟨-, gone, news, hsaid, -, -, hgone, hnews⟩ := h.pass hx v
  rw [hsaid, List.mem_append, List.mem_map, List.mem_filterMap] at hu
  rcases hu with ⟨e, he, rfl⟩ | ⟨e, he, hcreate⟩
  · obtain ⟨hold, hnot⟩ := (hgone e.1).mp (List.mem_map_of_mem he)
    obtain ⟨hk, hfree⟩ := hx.tree e.1 (.inl hold)
    exact .remove hk hnot hfree hx.ticks
  · obtain ⟨file, hf, hmtime, hne⟩ := (hnews e.1 e.2).mp he
    obtain ⟨hk, hfree⟩ := hx.tree e.1 (.inr (PathMap.mem_iff.mpr ⟨file, hf⟩))
    obtain ⟨-, -, hticks⟩ := (hx.written e.1 file hf).resolve_left hne
    rw [Source.create, Tree.find_key hk, hf, ← hmtime, Option.map_some] at hcreate
    obtain rfl := Option.some.inj hcreate
    exact .create hk hf hfree hticks

/-- Its own remove comes too late for the file and finds nothing. -/
theorem Tells.hear_remove {tree : Tree} {since : TimePoint} {r : Replica} {v : World} {p : Path}
    {d : Delivery} (h : Tells tree.disk since r) (hsub : ∀ q ∈ r.directories, q ∈ tree.directories)
    (hk : p.IsKey) (hgone : p ∉ tree.disk) (hfree : tree.blocked p = false) (hticks : InInt64 since)
    (hd : d.message = Source.remove p since) :
    Tells tree.disk since (follow v r d) ∧
      ∀ q ∈ (follow v r d).directories, q ∈ tree.directories := by
  have hunheld : ∀ q ∈ r.disk, q ∈ tree.disk := fun q hq => h.disk ▸ hq
  cases hremove : r.remove v p with
  | none =>
    have hbar := Tree.obstructed_of_sub hunheld hsub (Tree.obstructed_of_remove hk hremove)
    rw [Tree.blocked, hbar, Bool.or_true] at hfree
    cases hfree
  | some left =>
    have herase : erase v r p = .ok { r with session := r.session.withdraw v p, toTree := left } := by
      simp only [erase, hremove]
    have hmoment : fromTicks (part (Source.remove p since) 2) = since := fromTicks_printInt hticks
    have hrec : receiveOne v d.message d.clock d.steady r =
        .ok (({ r with session := r.session.withdraw v p, toTree := left } :
          Replica).removed p since) := by
      rw [hd, receiveOne_remove (removedPath_source hk), herase, hmoment]
      rfl
    have he : follow v r d = ({ r with session := r.session.withdraw v p, toTree := left } :
        Replica).removed p since := by
      rw [follow, take_of_applies_eq_false hrec
        (applies_of_removedPath (hd ▸ removedPath_source hk)), hrec, ite_self]
    have hleft : left.disk = tree.disk := by
      refine Std.ExtTreeMap.ext_getElem? fun q => ?_
      rw [Tree.getElem?_remove_key hk hremove, h.disk]
      split
      · next hq => exact (PathMap.notMem_iff.mp (hq ▸ hgone)).symm
      · rfl
    rw [he]
    refine ⟨⟨hleft, h.former, fun q hq hdead => ?_, fun q m hm => ?_, h.files⟩,
      fun q hq => hsub q (Tree.directories_remove hremove q hq)⟩
    · obtain ⟨m, hm⟩ := PathMap.mem_iff.mp hdead
      rw [Replica.removed, getElem?_mark] at hm
      split at hm
      · next hqp => exact hgone (hqp ▸ (Disk.mem_list.mp hq).2)
      · exact h.apart q hq (PathMap.mem_iff.mpr ⟨m, hm⟩)
    · have hle := mark_le (h.graves : ∀ (q : Path) m, _ → m ≤ (fun _ => since) q) le_rfl q m hm
      exact hle.trans_eq (by simp)

/-- A transfer of the file that is there leaves all of the tree as it is. -/
theorem Tells.refetched {tree : Tree} {since : TimePoint} {r base : Replica} {v : World} {p : Path}
    {file found : File} {u : List Bytes} {torrent : TorrentInfo} (h : Tells tree.disk since r)
    (hsub : ∀ q ∈ r.directories, q ∈ tree.directories) (ha : Announces v named p u torrent)
    (ht : originOf u = file.mtime) (hc : torrent.content = file.content)
    (hf : tree.disk[p]? = some file) (hb : Fetched v r u torrent base found) :
    Tells tree.disk since ((base.stamped v p (originOf u)).remembered p (originOf u)) ∧
      ∀ q ∈ ((base.stamped v p (originOf u)).remembered p (originOf u)).directories,
        q ∈ tree.directories := by
  obtain rfl := ha.path
  have hk := ha.lands.1
  have hcontent : found.content = file.content := by
    rcases hb.content with ⟨-, hfile⟩ | hsame
    · rw [h.disk, hf] at hfile
      rw [Option.some.inj hfile]
    · rw [hsame, hc]
  refine ⟨⟨Std.ExtTreeMap.ext_getElem? fun q => ?_, Std.ExtTreeMap.ext_getElem? fun q => ?_,
    fun q hq hin => ?_, fun q m hm => ?_, h.files⟩, fun q hq => ?_⟩
  · rw [Replica.remembered, Replica.stamped, Tree.getElem?_stamp_key hk]
    by_cases hq : announcedPath u = q
    · rw [if_pos hq, ← hq, hb.present, hf, Option.map_some, hcontent, ht]
    · rw [if_neg hq, hb.others q hq, h.disk]
  · refine PathMap.getElem?_insert.trans ?_
    split
    · next hq => rw [← hq, ht, Disk.getElem?_list, if_pos hk, hf, Option.map_some]
    · exact (congrArg (fun former : FileMap => former[q]?) hb.former).trans (by rw [h.former])
  · have hin : q ∈ base.tombstones := hin
    rw [hb.tombstones] at hin
    exact h.apart q hq (PathMap.mem_erase.mp hin).2
  · have hm : base.tombstones[q]? = some m := hm
    rw [hb.tombstones, PathMap.getElem?_erase, Option.ite_none_left_eq_some] at hm
    exact h.graves q m hm.2
  · have hq := ((Tree.samePlaces_stamp (originOf u)).directories q).mp hq
    exact hsub q (hb.directories ▸ hq)

/-- Its own create finds the file as it is. -/
theorem Tells.hear_create {tree : Tree} {since : TimePoint} {r : Replica} {v : World} {p : Path}
    {file : File} {d : Delivery} {torrent : TorrentInfo} (h : Tells tree.disk since r)
    (hsub : ∀ q ∈ r.directories, q ∈ tree.directories)
    (ha : Announces v named p d.message torrent) (ht : originOf d.message = file.mtime)
    (hc : torrent.content = file.content) (hf : tree.disk[p]? = some file)
    (hfree : tree.blocked p = false) :
    Tells tree.disk since (follow v r d) ∧
      ∀ q ∈ (follow v r d).directories, q ∈ tree.directories := by
  obtain rfl := ha.path
  have hlisted : announcedPath d.message ∈ tree.disk.list :=
    Disk.mem_list.mpr ⟨ha.lands.1, PathMap.mem_iff.mpr ⟨file, hf⟩⟩
  have hopen : r.blocked (announcedPath d.message) = false :=
    Bool.eq_false_iff.mpr fun hb => Bool.eq_false_iff.mp hfree
      (Tree.blocked_of_sub (fun q hq => h.disk ▸ hq) hsub hb)
  have hclear : announcedPath d.message ∉ r.directories := by
    intro hin
    rw [Tree.blocked, Std.ExtTreeMap.contains_iff_mem.mpr hin] at hopen
    cases hopen
  have hu : Undefeated r.tombstones (announcedPath d.message) (originOf d.message) :=
    fun grave hg => absurd (PathMap.mem_iff.mpr ⟨grave, hg⟩) (h.apart _ hlisted)
  have hrec := receiveOne_create ha.verb ha.length ha.loads d.clock d.steady r
  have happ := applies_create (r := r) ha.verb ha.length ha.loads
  rw [if_pos hu] at hrec
  rw [follow, if_neg (Bool.eq_false_iff.mp hopen)]
  by_cases hwins : wins v r (announcedPath d.message) (originOf d.message) torrent = true
  · rw [if_pos hwins] at hrec
    obtain ⟨base, found, hb, he⟩ := transferred_applied ha.lands hclear hwins d.written
    rw [take_of_applies hrec ha.loads (happ.mpr ⟨hu, hwins⟩), he]
    exact h.refetched hsub ha ht hc hf hb
  · rw [if_neg hwins] at hrec
    rw [take_of_applies_eq_false hrec (Bool.eq_false_iff.mpr fun hb => hwins (happ.mp hb).2)]
    refine ⟨⟨h.disk, h.former, fun q hq hin => ?_, fun q m hm => ?_, h.files⟩, hsub⟩
    · exact h.apart q hq (PathMap.mem_erase.mp hin).2
    · rw [Replica.revived, PathMap.getElem?_erase, Option.ite_none_left_eq_some] at hm
      exact h.graves q m hm.2

/-- What a node hears of its own words leaves it where it is. -/
theorem Tells.hears (hw : SharedTorrents w plays) (hn : Names w plays named)
    {tree : Tree} (hplay : ∀ p content, tree.disk.Holds p content → plays p content)
    {since : TimePoint} {r : Replica}
    {ds : List Delivery} (h : Tells tree.disk since r)
    (hsub : ∀ q ∈ r.directories, q ∈ tree.directories)
    (ho : ∀ d ∈ ds, Owns (w i) tree since d.message) :
    Tells tree.disk since (ds.foldl (follow (w i)) r) := by
  induction ds generalizing r with
  | nil => exact h
  | cons d ds ih =>
    rw [List.forall_mem_cons] at ho
    obtain ⟨hown, ho⟩ := ho
    have hstep : Tells tree.disk since (follow (w i) r d) ∧
        ∀ q ∈ (follow (w i) r d).directories, q ∈ tree.directories := by
      generalize hv : d.message = v at hown
      cases hown with
      | remove key gone free ticks => exact h.hear_remove hsub key gone free ticks hv
      | @create p file key present free ticks =>
        obtain ⟨horigin, torrent, ha, hc⟩ := hw.announces hn (i := i) (j := i) key
          (hplay p _ ⟨file, present, rfl⟩) ticks
        rw [← hv] at horigin ha
        exact h.hear_create hsub ha horigin hc present free
    exact ih hstep.1 hstep.2 ho

theorem Tells.publishPass (hw : SharedTorrents w plays) (hn : Names w plays named)
    {tree : Disk} {since : TimePoint} {n : Node} {x : Snapshot}
    (hplay : ∀ p content, x.disk.Holds p content → plays p content)
    (h : Tells tree since n.replica) (hx : LaterThan tree since x)
    (he : ∀ d ∈ x.echoes, d.message ∈ saidOf (w i) n x) :
    Tells x.disk x.clock (SyncFs.publishPass (w i) n x).replica :=
  (h.pass hx (w i)).1.hears hw hn hplay (fun _ hq => hq) fun d hd => h.owns hx (he d hd)

/-- A pass tells of the next tree whoever has the last one. -/
theorem Tells.told (hw : SharedTorrents w plays) (hn : Names w plays named)
    {tree : Disk} {since : TimePoint} {n : Node} {x : Snapshot}
    (hplay : ∀ p content, x.disk.Holds p content → plays p content) (ht : Tells tree since n.replica)
    (hx : LaterThan tree since x) :
    ∃ latest, Told (w j) named (fun p => tree[p]?) (fun _ => since) (saidOf (w i) n x)
        (fun p => x.disk[p]?) latest ∧ ∀ p, latest p ≤ x.clock := by
  obtain ⟨-, gone, news, hsaid, hndgone, hndnews, hgone, hnews⟩ := ht.pass hx (w i)
  have htree : ∀ (p : Path) file, tree[p]? = some file → p.IsKey ∧ file.mtime.toTicks ≤ since :=
    ht.files
  -- First everything that is gone goes, so that nothing is in the way of what is new.
  have hremoved : Told (w j) named (fun p => tree[p]?) (fun _ => since) _ _ _ :=
    .removes hx.ticks hndgone fun p hp => by
      obtain ⟨file, hf⟩ := PathMap.mem_iff.mp ((hgone p).mp hp).1
      exact ⟨(htree p file hf).1, hx.later, file, hf⟩
  have hleft : ∀ p old, brought (gone.map Prod.fst) (fun _ => none) (fun p => tree[p]?) p =
      some old → p ∉ gone.map Prod.fst ∧ tree[p]? = some old := by
    intro p old ho
    rw [brought] at ho
    split at ho
    · cases ho
    · next hp => exact ⟨hp, ho⟩
  have hlater : ∀ p ∈ news.map Prod.fst, ∀ file, x.disk[p]? = some file →
      p.IsKey ∧ Tree.blocked ⟨x.disk, ∅⟩ p = false ∧ p ∉ gone.map Prod.fst ∧
        since < file.mtime.toTicks ∧ InInt64 file.mtime.toTicks := by
    intro p hp file hf
    obtain ⟨⟨q, t⟩, he, rfl⟩ := List.mem_map.mp hp
    obtain ⟨found, hfound, -, hne⟩ := (hnews q t).mp he
    obtain rfl := Option.some.inj (hf.symm.trans hfound)
    obtain ⟨hsince, -, hticks⟩ := (hx.written q file hf).resolve_left hne
    have hmem : q ∈ x.disk := PathMap.mem_iff.mpr ⟨file, hf⟩
    obtain ⟨hk, hfree⟩ := hx.tree q (.inr hmem)
    have hfree : Tree.blocked ⟨x.disk, ∅⟩ q = false :=
      Bool.eq_false_iff.mpr fun hb => Bool.eq_false_iff.mp hfree (Tree.blocked_iff.mpr (.inl hb))
    exact ⟨hk, hfree, fun hg => ((hgone q).mp hg).2 hmem, hsince, hticks⟩
  have hmade : List.Forall₂ (Announced w x.disk) (news.map Prod.fst)
      (news.filterMap fun e => Source.create (w i) x.toTree e.1 e.2) := by
    refine exists_announced fun e he => ?_
    obtain ⟨file, hf, hmtime, -⟩ := (hnews e.1 e.2).mp he
    have hk := (hx.tree e.1 (.inr (PathMap.mem_iff.mpr ⟨file, hf⟩))).1
    refine ⟨_, ?_, i, file, hf, rfl⟩
    rw [Source.create, Tree.find_key hk, hf, hmtime, Option.map_some]
  have hcreated : Told (w j) named
      (brought (gone.map Prod.fst) (fun _ => none) fun p => tree[p]?)
      (brought (gone.map Prod.fst) (fun _ => x.clock) fun _ => since) _ _ _ :=
    .creates hw hn hplay hndnews
      (fun p hp file hf => by
        obtain ⟨hk, hfree, hne, hsince, hticks⟩ := hlater p hp file hf
        rw [brought, if_neg hne]
        exact ⟨hk, hfree, hsince, hticks⟩)
      (fun p hp file old hf ho => by
        obtain ⟨-, ho⟩ := hleft p old ho
        exact (htree p old ho).2.trans_lt (hlater p hp file hf).2.2.2.1)
      (fun p old ho => by
        obtain ⟨hp, ho⟩ := hleft p old ho
        by_contra hn
        exact hp ((hgone p).mpr ⟨PathMap.mem_iff.mpr ⟨old, ho⟩, hn⟩))
      hmade
  have hnext : brought (news.map Prod.fst) (fun p => x.disk[p]?)
      (brought (gone.map Prod.fst) (fun _ => none) fun p => tree[p]?) = fun p => x.disk[p]? := by
    funext p
    rw [brought]
    split
    · rfl
    · next hp =>
      rw [brought]
      cases hf : x.disk[p]? with
      | none =>
        split
        · rfl
        · next hg =>
          rw [← PathMap.notMem_iff]
          exact fun ht => hg ((hgone p).mpr ⟨ht, PathMap.notMem_iff.mpr hf⟩)
      | some file =>
        rw [if_neg fun hg => ((hgone p).mp hg).2 (PathMap.mem_iff.mpr ⟨file, hf⟩)]
        by_contra hne
        exact hp (List.mem_map_of_mem (f := Prod.fst)
          ((hnews p file.mtime).mpr ⟨file, hf, rfl, hne⟩))
  rw [hnext] at hcreated
  have htold := hremoved.append hcreated
  rw [List.map_map] at htold
  refine ⟨_, hsaid ▸ htold, fun p => ?_⟩
  rw [brought]
  split
  · exact le_rfl
  · exact hx.later

theorem Tells.told_passes (hw : SharedTorrents w plays) (hn : Names w plays named)
    {xs : List Snapshot} (hplay : ∀ p content, Shown xs p content → plays p content)
    {tree : Disk} {since : TimePoint} {n : Node}
    (ht : Tells tree since n.replica) (hxs : Successive (w i) n tree since xs) :
    ∃ said latest, (publishes (w i) n xs).sent = n.sent ++ said ∧
      Told (w j) named (fun p => tree[p]?) (fun _ => since) said
        (fun p => (publishes (w i) n xs).replica.disk[p]?) latest := by
  induction xs generalizing tree since n with
  | nil =>
    refine ⟨[], fun _ => since, (List.append_nil _).symm, ?_⟩
    rw [publishes, List.foldl_nil, ht.disk]
    exact .nil
  | cons x xs ih =>
    obtain ⟨hx, hechoes, hxs⟩ := hxs
    have hhere : ∀ p content, x.disk.Holds p content → plays p content :=
      fun p content hp => hplay p content ⟨x, List.mem_cons_self, hp⟩
    obtain ⟨mid, htold, hmid⟩ := ht.told (i := i) (j := j) hw hn hhere hx
    obtain ⟨more, latest, hmore, hrest⟩ := ih
      (fun p content ⟨y, hy, hp⟩ => hplay p content ⟨y, List.mem_cons_of_mem x hy, hp⟩)
      (ht.publishPass hw hn hhere hx hechoes) hxs
    obtain ⟨sooner, hrest, -⟩ := hrest.mono hmid
    refine ⟨saidOf (w i) n x ++ more, sooner, ?_, htold.append hrest⟩
    rw [← List.append_assoc]
    exact hmore

theorem told_publishes {xs : List Snapshot} (hw : SharedTorrents w (Shown xs))
    (hn : Names w (Shown xs) named) {disk : Disk} {clock : TimePoint}
    (hdisk : ∀ (p : Path) file, disk[p]? = some file → p.IsKey ∧ file.mtime.toTicks ≤ clock)
    {steady : SteadyTime}
    (hxs : Successive (w i) (.start disk clock steady) disk clock xs) :
    ∃ latest, Told (w j) named (fun p => disk[p]?) (fun _ => clock)
      (publishes (w i) (.start disk clock steady) xs).sent
      (fun p => (publishes (w i) (.start disk clock steady) xs).replica.disk[p]?) latest := by
  have ht : Tells disk clock (Node.start disk clock steady).replica := by
    exact ⟨rfl, rfl, fun _ _ => Std.ExtTreeMap.not_mem_empty,
      fun _ _ hm => absurd hm PathMap.getElem?_empty_ne, hdisk⟩
  obtain ⟨said, latest, hsaid, htold⟩ := ht.told_passes (i := i) (j := j) hw hn
    (fun _ _ hp => hp) hxs
  rw [hsaid]
  exact ⟨latest, htold⟩

theorem mirrors_start (v : World) (named : ℕ → Path × Bytes) (disk : Disk) (clock : TimePoint)
    (steady : SteadyTime) (since : Path → TimePoint) :
    Mirrors v named (fun p => disk[p]?) since (Node.start disk clock steady).replica where
  remembers := oneMemory_start _ _ _
  disk _ := rfl
  graves _ _ hm := absurd hm PathMap.getElem?_empty_ne
  serves _ ht := absurd ht List.not_mem_nil

instance (before : Disk) (since : TimePoint) (x : Snapshot) :
    Decidable (LaterThan before since x) :=
  decidable_of_iff (since ≤ x.clock ∧ InInt64 x.clock ∧
      (∀ p ∈ before.keys ++ x.disk.keys, p.IsKey ∧ x.blocked p = false) ∧
      (∀ e ∈ x.disk.toList, before[e.1]? = some e.2 ∨
        since < e.2.mtime.toTicks ∧ e.2.mtime.toTicks ≤ x.clock ∧ InInt64 e.2.mtime.toTicks) ∧
      ∀ e ∈ x.written.toList, e.2.toTicks ≤ since)
    ⟨fun ⟨hl, hticks, ht, hw, hm⟩ => ⟨hl, hticks,
        fun p hp => ht p (List.mem_append.mpr
          (hp.imp Std.ExtTreeMap.mem_keys.mpr Std.ExtTreeMap.mem_keys.mpr)),
        fun p file hf => hw (p, file) (PathMap.mem_toList.mpr hf),
        fun p t ht => hm (p, t) (PathMap.mem_toList.mpr ht)⟩,
      fun h => ⟨h.later, h.ticks,
        fun p hp => h.tree p ((List.mem_append.mp hp).imp
          Std.ExtTreeMap.mem_keys.mp Std.ExtTreeMap.mem_keys.mp),
        fun e he => h.written e.1 e.2 (PathMap.mem_toList.mp he),
        fun e he => h.marks e.1 e.2 (PathMap.mem_toList.mp he)⟩⟩

instance decidableSuccessive (v : World) (n : Node) (before : Disk) (since : TimePoint) :
    (xs : List Snapshot) → Decidable (Successive v n before since xs)
  | [] => inferInstanceAs (Decidable True)
  | x :: xs =>
    have := decidableSuccessive v (publishPass v n x) x.disk x.clock xs
    inferInstanceAs (Decidable (LaterThan before since x ∧
      (∀ d ∈ x.echoes, d.message ∈ saidOf v n x) ∧
      Successive v (publishPass v n x) x.disk x.clock xs))

/-- A file goes and another comes, in a directory of its own, and a third is
written again. The node hears itself say the first two. -/
def sampleChanges : List Snapshot :=
  [⟨⟨.ofList [(Path.ofNative (ascii "./c/d"), sampleFile "z" 1500),
        (Path.ofNative (ascii "./b"), sampleFile "y" 900)] compare,
        .ofList [(Path.ofNative (ascii "./c"), toFileTime 1500)] compare⟩, 2000, ∅,
      [⟨Source.remove samplePath 2000, 2100, 0, toFileTime 2100⟩,
        ⟨announce (sampleWorld.generateBuf (Path.ofNative (ascii "./c/d")) (ascii "z"))
          (toFileTime 1500) (Path.ofNative (ascii "./c/d")), 2100, 0, toFileTime 2100⟩]⟩,
    ⟨⟨.ofList [(Path.ofNative (ascii "./c/d"), sampleFile "z" 1500),
        (Path.ofNative (ascii "./b"), sampleFile "yy" 2500)] compare,
        .ofList [(Path.ofNative (ascii "./c"), toFileTime 1500)] compare⟩, 3000, ∅, []⟩]

/-- What has been said, heard at once, every file fetched at a moment of its own. -/
def heardAll (said : List (List Bytes)) : List Arrival :=
  said.map fun v =>
    ⟨⟨v, 4000, 0, toFileTime 4000⟩, .ofList [(Path.ofNative (ascii "./c"), toFileTime 4000)] compare⟩

end Swarm

end SyncFs
