import SyncFs.PassFailures

/-!
# The changes announced

What `local_changes` leaves of the diff of two listings and what `send` makes
of it: a create for every file that is news and still there to be read, at the
time it has now, a remove for every file that is gone, and the tombstones to
match.
-/

namespace SyncFs

open CharConversions Completion

variable {w : World} {former current written : FileMap} {tombstones : TombstoneMap}
variable {noticed : TimePoint} {p : Path} {t : FileTime}

/-- A listed file whose write is neither listed before, nor libtorrent's, nor
beaten by a deletion. -/
def News (former current written : FileMap) (tombstones : TombstoneMap) (p : Path)
    (t : FileTime) : Prop :=
  current[p]? = some t ∧ former[p]? ≠ some t ∧ written[p]? ≠ some t ∧
    ∀ grave ∈ tombstones[p]?, beats grave t = false

/-- The creates `send` asks for, each with the time the file has now. -/
def createsSent (diff : Diff) (current : FileMap) : List (Path × FileTime) :=
  (diff.created.toList ++ diff.modified.toList).map fun e => (e.1, (current[e.1]?).getD e.2)

theorem send_eq (tree : Tree) (diff : Diff) (now : TimePoint) :
    send w tree diff current now = diff.removed.toList.map (fun e => Source.remove e.1 now) ++
      (createsSent diff current).filterMap fun e => Source.create w tree e.1 e.2 := by
  simp only [send, announceAll, createsSent, List.map_append, List.filterMap_append,
    List.filterMap_map, List.append_assoc]
  rfl

theorem createsSent_fst (diff : Diff) :
    (createsSent diff current).map Prod.fst = diff.created.keys ++ diff.modified.keys := by
  simp [createsSent, Function.comp_def, Std.ExtTreeMap.map_fst_toList_eq_keys]

theorem notMem_modified_of_created
    (h : p ∈ (localChanges former current written tombstones noticed).1.created) :
    p ∉ (localChanges former current written tombstones noticed).1.modified := by
  obtain ⟨-, hc, hm⟩ := @getElem?_createDiff former current p
  simp only [localChanges, withoutEchoes, PathMap.mem_iff, PathMap.getElem?_filter,
    Option.filter_eq_some_iff, hc, hm] at h ⊢
  rintro ⟨s, ⟨hs, -⟩, -⟩
  obtain ⟨t, ⟨ht, -⟩, -⟩ := h
  by_cases hf : p ∈ former
  · rw [if_pos hf] at ht
    cases ht
  · rw [PathMap.notMem_iff.mp hf, Option.filter_none, ite_self] at hs
    cases hs

theorem nodup_createsSent (former current written : FileMap) (tombstones : TombstoneMap)
    (noticed : TimePoint) :
    ((createsSent (localChanges former current written tombstones noticed).1 current).map
      Prod.fst).Nodup := by
  rw [createsSent_fst]
  refine List.nodup_append.mpr ⟨Std.ExtTreeMap.nodup_keys, Std.ExtTreeMap.nodup_keys, ?_⟩
  rintro p hp q hq rfl
  exact notMem_modified_of_created (Std.ExtTreeMap.mem_keys.mp hp) (Std.ExtTreeMap.mem_keys.mp hq)

theorem mem_createsSent_fst : p ∈ (createsSent (localChanges former current written tombstones
    noticed).1 current).map Prod.fst ↔ ∃ t, News former current written tombstones p t := by
  rw [createsSent_fst, List.mem_append, Std.ExtTreeMap.mem_keys, Std.ExtTreeMap.mem_keys]
  constructor
  · intro h
    obtain ⟨t, ht⟩ := PathMap.mem_iff.mp (listed_of_announced h)
    exact ⟨t, ht, (localChanges_announced noticed ht).mp h⟩
  · rintro ⟨t, ht, hnews⟩
    exact (localChanges_announced noticed ht).mpr hnews

theorem mem_createsSent :
    (p, t) ∈ createsSent (localChanges former current written tombstones noticed).1 current ↔
      News former current written tombstones p t := by
  have hkey := @mem_createsSent_fst former current written tombstones noticed p
  have htime : ∀ e ∈ createsSent (localChanges former current written tombstones noticed).1 current,
      ∀ t, current[e.1]? = some t → e.2 = t := by
    intro e he t ht
    obtain ⟨f, -, rfl⟩ := List.mem_map.mp he
    simp only at ht ⊢
    rw [ht, Option.getD_some]
  constructor
  · intro hmem
    obtain ⟨s, hs⟩ := hkey.mp (List.mem_map_of_mem hmem)
    obtain rfl : t = s := htime _ hmem s hs.1
    exact hs
  · intro hnews
    obtain ⟨e, he, rfl⟩ := List.mem_map.mp (hkey.mpr ⟨t, hnews⟩)
    obtain rfl := htime e he t hnews.1
    exact he

/-- What is removed was listed, is no longer and has no tombstone. -/
theorem mem_removed : p ∈ (localChanges former current written tombstones noticed).1.removed ↔
    p ∈ former ∧ p ∉ current ∧ p ∉ tombstones := by
  by_cases hc : p ∈ current
  · obtain ⟨hr, -, -⟩ := @getElem?_createDiff former current p
    have hnone : p ∉ (localChanges former current written tombstones noticed).1.removed := by
      rw [PathMap.notMem_iff, localChanges, PathMap.getElem?_filter, hr, if_pos hc]
      rfl
    exact iff_of_false hnone fun h => h.2.1 hc
  · simp only [PathMap.mem_iff (m := (localChanges former current written tombstones
      noticed).1.removed), localChanges_removed hc, Option.filter_eq_some_iff, exists_and_right,
      ← PathMap.mem_iff, Bool.not_eq_true', ← Bool.not_eq_true, Std.ExtTreeMap.contains_iff_mem]
    exact and_congr_right fun _ => (and_iff_right hc).symm

/-- The tombstones after the changes: gone where a create is announced, marked
where a remove is, and otherwise as they were. -/
theorem getElem?_localChanges_tombstones :
    (localChanges former current written tombstones noticed).2[p]? =
      if p ∈ (localChanges former current written tombstones noticed).1.removed then some noticed
      else if p ∈ (createsSent (localChanges former current written tombstones noticed).1
        current).map Prod.fst then none
      else tombstones[p]? := by
  cases hcp : current[p]? with
  | none =>
    have hc : p ∉ current := PathMap.notMem_iff.mpr hcp
    have hsent : p ∉ (createsSent (localChanges former current written tombstones noticed).1
        current).map Prod.fst := by
      rw [mem_createsSent_fst]
      rintro ⟨t, ht, -⟩
      rw [hcp] at ht
      cases ht
    rw [localChanges_tombstones hc, if_neg hsent]
    simp only [mem_removed, hc, not_false_eq_true, true_and]
  | some t =>
    have hc : p ∈ current := PathMap.mem_iff.mpr ⟨t, hcp⟩
    have hremoved : p ∉ (localChanges former current written tombstones noticed).1.removed :=
      fun h => (mem_removed.mp h).2.1 hc
    rw [localChanges_tombstones_listed hcp, if_neg hremoved]
    split
    · next hsent =>
      obtain ⟨s, hs, hf, hw, hg⟩ := mem_createsSent_fst.mp hsent
      obtain rfl : t = s := Option.some.inj (hcp.symm.trans hs)
      rw [Option.filter_eq_none_iff]
      intro grave hgrave
      simp [hf, hw, hg grave hgrave]
    · next hsent =>
      cases hgrave : tombstones[p]? with
      | none => rfl
      | some grave =>
      rw [Option.filter_eq_some_iff]
      refine ⟨rfl, ?_⟩
      by_contra hlost
      simp only [Bool.or_eq_true, decide_eq_true_eq, not_or, Bool.not_eq_true] at hlost
      obtain ⟨⟨hf, hw⟩, hb⟩ := hlost
      refine hsent (mem_createsSent_fst.mpr ⟨t, hcp, hf, hw, fun g hg => ?_⟩)
      obtain rfl : grave = g := Option.some.inj (hgrave.symm.trans hg)
      exact hb

/-- What is announced is the change set, once and with the times of now, as far as
its files are there to be read. The tombstones go by the change set alone. -/
theorem announces_changeSet (w : World) (found : Answers) (former current written : FileMap)
    (tombstones : TombstoneMap) (noticed now : TimePoint) :
    let changes := localChanges former current written tombstones noticed
    let creates := createsSent changes.1 current
    Ends
        (fun said => said =
          changes.1.removed.toList.map
            (fun e => [ascii "remove", e.1.native, printInt (toTicks now)]) ++
          creates.filterMap fun e => (found.content e.1).map fun bytes =>
            [ascii "create", w.generateBuf e.1 bytes, printInt e.2.toTicks, e.1.native])
        (fun raised => ∃ p ∈ creates.map Prod.fst, ¬ Steady found p ∧
          (raised = .fileSize p ∨ raised = .setPieceHashes p))
        (sendFound w found changes.1 current now) ∧
      (∀ p t, (p, t) ∈ creates ↔ current[p]? = some t ∧ former[p]? ≠ some t ∧
        written[p]? ≠ some t ∧ ∀ grave ∈ tombstones[p]?, beats grave t = false) ∧
      (creates.map Prod.fst).Nodup ∧
      (∀ p ∈ changes.1.removed, p ∈ former ∧ p ∉ current ∧ p ∉ creates.map Prod.fst) ∧
      ∀ p : Path, changes.2[p]? =
        if p ∈ changes.1.removed then some noticed
        else if p ∈ creates.map Prod.fst then none
        else tombstones[p]? := by
  intro changes creates
  refine ⟨?_, fun p t => mem_createsSent, nodup_createsSent .., ?_, ?_⟩
  · cases hs : sendFound w found changes.1 current now with
    | ok said =>
      refine (sendFound_ok hs).trans ?_
      rw [show creates = createsSent changes.1 current from rfl, createsSent, List.filterMap_map]
      rfl
    | error raised =>
      obtain ⟨p, hp, hr⟩ := sendFound_error hs
      refine ⟨p, ?_, hr⟩
      rw [show creates = createsSent changes.1 current from rfl, createsSent_fst, List.mem_append,
        Std.ExtTreeMap.mem_keys, Std.ExtTreeMap.mem_keys]
      exact hp
  · intro p hp
    obtain ⟨hf, hc, -⟩ := mem_removed.mp hp
    refine ⟨hf, hc, fun hcreate => ?_⟩
    obtain ⟨t, ht, -⟩ := mem_createsSent_fst.mp hcreate
    exact hc (PathMap.mem_iff.mpr ⟨t, ht⟩)
  · exact fun p => getElem?_localChanges_tombstones

/-- A listing with one file, which is gone by the time it is announced. -/
def fleeting : FileMap := .ofList [(samplePath, toFileTime 900)]

/-- It is news, and cancels the earlier deletion of its path; nothing is said of it. -/
theorem fleeting_unannounced :
    let changes := localChanges ∅ fleeting ∅ (.ofList [(samplePath, (800 : TimePoint))]) 1000
    News ∅ fleeting ∅ (.ofList [(samplePath, (800 : TimePoint))]) samplePath (toFileTime 900) ∧
      sendFound sampleWorld .nothing changes.1 fleeting 1000 = .ok [] ∧
      changes.2[samplePath]? = none := by
  intro changes
  exact ⟨⟨by decide +kernel, by decide +kernel, by decide +kernel, by decide +kernel⟩,
    eq_ok_of_toOption (by decide +kernel), by decide +kernel⟩

end SyncFs
