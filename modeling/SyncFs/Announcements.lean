import SyncFs.Receipts

/-!
# What a node says

The messages a node publishes, the local changes it publishes them for, and
the repairs it makes for its peers.
-/

namespace SyncFs

open CharConversions

section Messages

variable (w : World)

def announce (bencodedTorrent : Bytes) (mtime : FileTime) (file : Path) : List Bytes :=
  [ascii "create", bencodedTorrent, printInt mtime.toTicks, file.native]

namespace Source

/-- Reads the file; nothing is said about one that is gone. -/
def create (tree : Tree) (file : Path) (mtime : FileTime) : Option (List Bytes) :=
  (tree.find w file).map fun found => announce (w.generateBuf file found.content) mtime file

def repair (file : Path) (mtime : FileTime) (bencoded : Bytes) : List Bytes :=
  announce bencoded mtime file

def remove (file : Path) (now : TimePoint) : List Bytes :=
  [ascii "remove", file.native, printInt (toTicks now)]

def state (hashes : Bytes) : List Bytes := [ascii "state", hashes, w.endpoint]

def digest (target held deleted : Bytes) : List Bytes :=
  [address (ascii "digest") target, held, deleted]

end Source

end Messages

section LocalChanges

structure Diff where
  removed : FileMap
  created : FileMap
  modified : FileMap

def createDiff (former current : FileMap) : Diff :=
  let removed := former.diff current
  let created := current.diff former
  let modified := removed.intersectionName created
  ⟨removed.diffName modified, created.diffName modified, modified⟩

/-- Whether a file still carries the write libtorrent gave it. -/
def isEcho (written current : FileMap) (path : Path) : Bool :=
  match written[path]?, current[path]? with
  | some seen, some now => seen = now
  | _, _ => false

def losesToTombstone (tombstones : TombstoneMap) (current : FileMap) (path : Path) : Bool :=
  match tombstones[path]? with
  | none => false
  | some grave =>
    match current[path]? with
    | none => true
    | some now => beats grave now

/-- The tombstones the files of a set cancel. -/
def cancelTombstones (tombstones : TombstoneMap) (current : FileMap) (set : FileMap) :
    TombstoneMap :=
  tombstones.filter fun path _ =>
    !set.contains path || losesToTombstone tombstones current path

def withoutEchoes (written current set : FileMap) : FileMap :=
  set.filter fun path _ => !isEcho written current path

/-- The tombstones left by the files that came back newer than their deletion. -/
def uncancelled (former current written : FileMap) (tombstones : TombstoneMap) : TombstoneMap :=
  let diff := createDiff former current
  let tombstones :=
    cancelTombstones tombstones current (withoutEchoes written current diff.created)
  cancelTombstones tombstones current (withoutEchoes written current diff.modified)

/-- `local_changes`: the diff without what a peer caused, and the tombstones
after it. -/
def localChanges (former current written : FileMap) (tombstones : TombstoneMap)
    (noticed : TimePoint) : Diff × TombstoneMap :=
  let diff := createDiff former current
  let loses := fun path (_ : FileTime) => !losesToTombstone tombstones current path
  let created := (withoutEchoes written current diff.created).filter loses
  let modified := (withoutEchoes written current diff.modified).filter loses
  let tombstones := uncancelled former current written tombstones
  let removed := diff.removed.filter fun path _ => !tombstones.contains path
  (⟨removed, created, modified⟩,
    removed.toList.foldl (fun tombstones e => mark tombstones e.1 noticed) tombstones)

variable {former current written : FileMap} {tombstones : TombstoneMap} {noticed : TimePoint}
variable {p : Path}

theorem getElem?_createDiff :
    (createDiff former current).removed[p]? = (if p ∈ current then none else former[p]?) ∧
    (createDiff former current).created[p]? = (if p ∈ former then none else current[p]?) ∧
    (createDiff former current).modified[p]? =
      if p ∈ current then former[p]?.filter (fun t => current[p]? ≠ some t) else none := by
  simp only [createDiff, FileMap.getElem?_diffName, FileMap.getElem?_diff,
    FileMap.getElem?_intersectionName, PathMap.contains_eq, Std.ExtTreeMap.mem_iff_isSome_getElem?]
  cases former[p]? with
  | none => cases current[p]? <;> simp
  | some f =>
    cases current[p]? with
    | none => simp
    | some c =>
      by_cases h : c = f
      · simp [Option.filter, h]
      · simp [Option.filter, h, Ne.symm h]

theorem getElem?_cancelTombstones {set : FileMap} :
    (cancelTombstones tombstones current set)[p]? =
      tombstones[p]?.filter fun _ => !set.contains p || losesToTombstone tombstones current p :=
  PathMap.getElem?_filter

theorem getElem?_foldl_mark {es : List (Path × FileTime)} :
    (es.foldl (fun tombstones e => mark tombstones e.1 noticed) tombstones)[p]? =
      if p ∈ es.map Prod.fst then
        some ((tombstones[p]?).elim noticed fun moment => max moment noticed)
      else tombstones[p]? := by
  induction es generalizing tombstones with
  | nil => rfl
  | cons e es ih =>
    rw [List.foldl_cons, ih, getElem?_mark]
    by_cases h : e.1 = p
    · subst h
      by_cases hm : e.1 ∈ es.map Prod.fst <;> cases tombstones[e.1]? <;> simp [hm]
    · simp only [h, if_false, List.map_cons, List.mem_cons, Ne.symm h, false_or]

/-- A path that is listed now is announced unless its time was listed before, is
the one libtorrent left or loses to a tombstone. -/
theorem localChanges_announced (noticed : TimePoint) {t : FileTime} (ht : current[p]? = some t) :
    (p ∈ (localChanges former current written tombstones noticed).1.created ∨
      p ∈ (localChanges former current written tombstones noticed).1.modified) ↔
      former[p]? ≠ some t ∧ written[p]? ≠ some t ∧
        ∀ grave ∈ tombstones[p]?, beats grave t = false := by
  obtain ⟨-, hc, hm⟩ := @getElem?_createDiff former current p
  have hp : p ∈ current := PathMap.mem_iff.mpr ⟨t, ht⟩
  have he : isEcho written current p = decide (written[p]? = some t) := by
    unfold isEcho
    cases written[p]? <;> simp [ht]
  have hl : losesToTombstone tombstones current p = (tombstones[p]?).any fun g => beats g t := by
    unfold losesToTombstone
    cases tombstones[p]? <;> simp [ht]
  simp only [localChanges, withoutEchoes, Std.ExtTreeMap.mem_iff_isSome_getElem?,
    PathMap.getElem?_filter, hc, hm, hp, ht, he, hl, if_true]
  cases former[p]? with
  | none => cases tombstones[p]? <;> simp
  | some s =>
    by_cases hs : s = t
    · cases tombstones[p]? <;> simp [hs]
    · cases tombstones[p]? <;> simp [hs, Ne.symm hs]

theorem listed_of_announced
    (h : p ∈ (localChanges former current written tombstones noticed).1.created ∨
      p ∈ (localChanges former current written tombstones noticed).1.modified) : p ∈ current := by
  obtain ⟨-, hc, hm⟩ := @getElem?_createDiff former current p
  by_contra hn
  simp only [localChanges, withoutEchoes, Std.ExtTreeMap.mem_iff_isSome_getElem?,
    PathMap.getElem?_filter, hc, hm, hn, Std.ExtTreeMap.getElem?_eq_none hn, if_false] at h
  simp at h

/-- No file that is gone cancels a tombstone. -/
theorem getElem?_uncancelled (hc : p ∉ current) :
    (uncancelled former current written tombstones)[p]? = tombstones[p]? := by
  obtain ⟨-, hcr, hm⟩ := @getElem?_createDiff former current p
  simp only [uncancelled, withoutEchoes, getElem?_cancelTombstones, PathMap.contains_eq,
    PathMap.getElem?_filter, hcr, hm, hc, Std.ExtTreeMap.getElem?_eq_none hc]
  cases tombstones[p]? <;> simp

theorem gone_of_removed (h : p ∈ (localChanges former current written tombstones noticed).1.removed) :
    p ∈ former ∧ p ∉ current := by
  obtain ⟨hr, -, -⟩ := @getElem?_createDiff former current p
  obtain ⟨t, ht⟩ := PathMap.mem_iff.mp h
  simp only [localChanges, PathMap.getElem?_filter, hr, Option.filter_eq_some_iff] at ht
  by_cases hc : p ∈ current
  · simp [hc] at ht
  · rw [if_neg hc] at ht
    exact ⟨PathMap.mem_iff.mpr ⟨t, ht.1⟩, hc⟩

/-- A path that is gone is left to its tombstone, and removed without one. -/
theorem localChanges_removed (hc : p ∉ current) :
    (localChanges former current written tombstones noticed).1.removed[p]? =
      former[p]?.filter fun _ => !tombstones.contains p := by
  obtain ⟨hr, -, -⟩ := @getElem?_createDiff former current p
  simp only [localChanges, PathMap.getElem?_filter, PathMap.contains_eq, hr, hc, if_false,
    getElem?_uncancelled hc]

theorem localChanges_tombstones (hc : p ∉ current) :
    (localChanges former current written tombstones noticed).2[p]? =
      if p ∈ former ∧ p ∉ tombstones then some noticed else tombstones[p]? := by
  have hm : p ∈ (localChanges former current written tombstones noticed).1.removed.toList.map
      Prod.fst ↔ p ∈ former ∧ p ∉ tombstones := by
    simp only [Std.ExtTreeMap.map_fst_toList_eq_keys, Std.ExtTreeMap.mem_keys,
      Std.ExtTreeMap.mem_iff_isSome_getElem?, localChanges_removed hc, PathMap.contains_eq]
    cases former[p]? <;> cases tombstones[p]? <;> simp
  have hf := @getElem?_foldl_mark (uncancelled former current written tombstones) noticed p
    (localChanges former current written tombstones noticed).1.removed.toList
  rw [getElem?_uncancelled hc] at hf
  refine hf.trans ?_
  simp only [hm]
  by_cases hp : p ∈ former ∧ p ∉ tombstones
  · simp [hp]
  · simp only [hp, if_false]

/-- A file that is there cancels the tombstone of its path when it is new here,
no write of libtorrent's and not beaten. -/
theorem localChanges_tombstones_listed {t : FileTime} (ht : current[p]? = some t) :
    (localChanges former current written tombstones noticed).2[p]? =
      tombstones[p]?.filter fun grave =>
        decide (former[p]? = some t ∨ written[p]? = some t) || beats grave t := by
  obtain ⟨hr, hc, hm⟩ := @getElem?_createDiff former current p
  have hp : p ∈ current := PathMap.mem_iff.mpr ⟨t, ht⟩
  have he : isEcho written current p = decide (written[p]? = some t) := by
    unfold isEcho
    cases written[p]? <;> simp [ht]
  have hrem : p ∉ (localChanges former current written tombstones noticed).1.removed.toList.map
      Prod.fst := by
    rw [Std.ExtTreeMap.map_fst_toList_eq_keys, Std.ExtTreeMap.mem_keys, PathMap.notMem_iff,
      localChanges, PathMap.getElem?_filter, hr, if_pos hp]
    rfl
  have hcancel : ∀ (tombstones : TombstoneMap) (set : FileMap),
      (cancelTombstones tombstones current set)[p]? =
        tombstones[p]?.filter fun grave => !set.contains p || beats grave t := by
    intro tombstones set
    rw [getElem?_cancelTombstones, losesToTombstone, ht]
    cases tombstones[p]? <;> simp [Option.filter]
  have hf := @getElem?_foldl_mark (uncancelled former current written tombstones) noticed p
    (localChanges former current written tombstones noticed).1.removed.toList
  rw [if_neg hrem] at hf
  refine hf.trans ?_
  rw [uncancelled, hcancel, hcancel]
  simp only [withoutEchoes, PathMap.contains_eq, PathMap.getElem?_filter, hc, hm, ht, he,
    Std.ExtTreeMap.mem_iff_isSome_getElem?]
  cases former[p]? with
  | none =>
    cases tombstones[p]? with
    | none => rfl
    | some grave =>
      by_cases hw : written[p]? = some t <;> cases hb : beats grave t <;>
        simp [hw, hb, Option.filter]
  | some s =>
    by_cases hs : s = t
    · cases tombstones[p]? <;> simp [hs, Option.filter]
    · cases tombstones[p]? <;> by_cases hw : written[p]? = some t <;>
        simp [hs, Ne.symm hs, hw, Option.filter]

variable (w : World)

def announceAll (tree : Tree) (current set : FileMap) : List (List Bytes) :=
  set.toList.filterMap fun e => Source.create w tree e.1 ((current[e.1]?).getD e.2)

def send (tree : Tree) (diff : Diff) (current : FileMap) (now : TimePoint) : List (List Bytes) :=
  diff.removed.toList.map (fun e => Source.remove e.1 now) ++
    announceAll w tree current diff.created ++ announceAll w tree current diff.modified

def CreatesFor (path : Path) (v : List Bytes) : Prop :=
  verbOf (part v 0) = ascii "create" ∧ announcedPath v = path

instance (path : Path) (v : List Bytes) : Decidable (CreatesFor path v) := by
  unfold CreatesFor
  infer_instance

def forgetSpentMarks (current written : FileMap) (tombstones : TombstoneMap) (now : TimePoint) :
    FileMap × TombstoneMap :=
  (written.filter fun path _ => current.contains path, expire tombstones now)

variable {w}

theorem mem_announceAll {tree : Tree} {set : FileMap} {v : List Bytes} :
    v ∈ announceAll w tree current set ↔ ∃ e ∈ set.toList, ∃ file ∈ tree.find w e.1,
      v = announce (w.generateBuf e.1 file.content) ((current[e.1]?).getD e.2) e.1 := by
  rw [announceAll, List.mem_filterMap]
  refine exists_congr fun e => and_congr_right fun _ => ?_
  rw [Source.create, Option.map_eq_some_iff]
  exact exists_congr fun file => and_congr_right fun _ => eq_comm

theorem createsFor_announce {buffer : Bytes} {t : FileTime} (hp : p.IsKey) :
    CreatesFor p (announce buffer t p) :=
  ⟨by rfl, hp.ofNative_native⟩

/-- What is announced is what is said in a create, as long as it is there to be read. -/
theorem createsFor_send {tree : Tree} {diff : Diff} {now : TimePoint}
    (hc : ∀ q ∈ diff.created, q.IsKey) (hm : ∀ q ∈ diff.modified, q.IsKey) :
    (∃ v ∈ send w tree diff current now, CreatesFor p v) ↔
      (p ∈ diff.created ∨ p ∈ diff.modified) ∧ (tree.find w p).isSome = true := by
  have hall : ∀ {set : FileMap}, (∀ q ∈ set, q.IsKey) →
      ((∃ v ∈ announceAll w tree current set, CreatesFor p v) ↔
        p ∈ set ∧ (tree.find w p).isSome = true) := by
    intro set hk
    constructor
    · rintro ⟨v, hv, -, hp⟩
      obtain ⟨⟨q, t⟩, hq, file, hf, rfl⟩ := mem_announceAll.mp hv
      have hq := PathMap.mem_iff.mpr ⟨t, PathMap.mem_toList.mp hq⟩
      have hp : Path.ofNative q.native = p := hp
      rw [(hk q hq).ofNative_native] at hp
      subst hp
      exact ⟨hq, Option.isSome_iff_exists.mpr ⟨file, hf⟩⟩
    · rintro ⟨hp, hf⟩
      obtain ⟨t, ht⟩ := PathMap.mem_iff.mp hp
      obtain ⟨file, hf⟩ := Option.isSome_iff_exists.mp hf
      exact ⟨_, mem_announceAll.mpr ⟨(p, t), PathMap.mem_toList.mpr ht, file, hf, rfl⟩,
        createsFor_announce (hk p hp)⟩
  have hremove : ∀ v ∈ diff.removed.toList.map fun e => Source.remove e.1 now,
      ¬ CreatesFor p v := by
    rintro v hv ⟨hverb, -⟩
    obtain ⟨e, -, rfl⟩ := List.mem_map.mp hv
    change verbOf (ascii "remove") = _ at hverb
    exact absurd hverb (by decide)
  simp only [send, List.mem_append, or_and_right, exists_or]
  rw [hall hc, hall hm]
  constructor
  · rintro ((⟨v, hv, hp⟩ | h) | h)
    · exact absurd hp (hremove v hv)
    · exact .inl h
    · exact .inr h
  · rintro (h | h)
    · exact .inl (.inr h)
    · exact .inr h

end LocalChanges

section Repairing

variable (w : World)

/-- What one pass over the due repairs has said, what it keeps waiting and
whether it has rebuilt an announcement. -/
structure Publishing where
  said : List (List Bytes)
  waiting : List Path
  rebuilt : Bool

/-- One due path, where `create` is what reading a file gives to say. -/
def publishOne (create : Path → FileTime → Option (List Bytes)) (r : Replica) (p : Publishing)
    (path : Path) : Publishing :=
  match r.former[path]? with
  | none => p
  | some mtime =>
    match r.repairs.announcements[path]? with
    | some announcement => { p with said := p.said ++ [Source.repair path mtime announcement] }
    | none =>
      if p.rebuilt then { p with waiting := p.waiting ++ [path] }
      else { p with said := p.said ++ (create path mtime).toList, rebuilt := true }

def publishRepairs (r : Replica) (now : SteadyTime) : Replica × List (List Bytes) :=
  let (ready, pending) := due r.repairs.pending now
  let p := ready.foldl (publishOne (Source.create w r.toTree) r) ⟨[], [], false⟩
  ({ r with repairs := { r.repairs with pending := arm pending p.waiting now } }, p.said)

variable {w}

/-- Every repair is a create for a listed path at the time it is listed with,
out of the cache or off the disk. -/
theorem mem_publishRepairs {r : Replica} {now : SteadyTime} {v : List Bytes}
    (hv : v ∈ (publishRepairs w r now).2) :
    ∃ p t b, r.former[p]? = some t ∧ v = announce b t p ∧
      (r.repairs.announcements[p]? = some b ∨
        ∃ file, r.find w p = some file ∧ b = w.generateBuf p file.content) := by
  have hf : ∀ (ps : List Path) (s : Publishing), v ∈ (ps.foldl (publishOne (Source.create w r.toTree) r) s).said →
      v ∈ s.said ∨ ∃ p t b, r.former[p]? = some t ∧ v = announce b t p ∧
        (r.repairs.announcements[p]? = some b ∨
          ∃ file, r.find w p = some file ∧ b = w.generateBuf p file.content) := by
    intro ps
    induction ps with
    | nil => exact fun _ hv => .inl hv
    | cons p ps ih =>
      intro s hv
      rcases ih _ hv with hv | h
      · unfold publishOne at hv
        split at hv
        · exact .inl hv
        · next t ht =>
          split at hv
          · next b hb =>
            rcases List.mem_append.mp hv with hv | hv
            · exact .inl hv
            · exact .inr ⟨p, t, b, ht, List.mem_singleton.mp hv, .inl hb⟩
          · split at hv
            · exact .inl hv
            · rcases List.mem_append.mp hv with hv | hv
              · exact .inl hv
              · obtain ⟨file, hfile, rfl⟩ := Option.map_eq_some_iff.mp (Option.mem_toList.mp hv)
                exact .inr ⟨p, t, _, ht, rfl, .inr ⟨file, hfile, rfl⟩⟩
      · exact .inr h
  exact (hf _ _ hv).resolve_left List.not_mem_nil

end Repairing

end SyncFs
