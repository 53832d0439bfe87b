import SyncFs.DigestExchange
import SyncFs.Followers
import SyncFs.RepairDrains

/-!
# Catching up

A node that has been away comes back with what it had, or with nothing. It says
so to one peer in a digest, and what that peer repairs brings it the peer's tree.
-/

namespace SyncFs

open CharConversions

variable {ι : Type} {w : ι → World} {i j : ι}

/-- A replica at rest: its tree is listed as it is, nothing in it is deleted, and
the announcements it keeps are of the files it has. -/
structure AtRest (w : ι → World) (r : Replica) : Prop where
  listed : r.former = r.disk.list
  tree : ∀ (p : Path) file, r.disk[p]? = some file →
    p.IsKey ∧ r.blocked p = false ∧ InInt64 file.mtime.toTicks
  standing : ∀ (p : Path) t grave, r.former[p]? = some t → r.tombstones[p]? = some grave →
    grave ≤ t.toTicks
  cached : ∀ (p : Path) b, r.repairs.announcements[p]? = some b → ∀ file, r.disk[p]? = some file →
    ∃ k, b = (w k).generateBuf p file.content
  quiet : r.repairs.pending = ∅

theorem atRest_start {disk : Disk} (hd : ∀ (p : Path) file, disk[p]? = some file →
    p.IsKey ∧ Tree.blocked ⟨disk, ∅⟩ p = false ∧ InInt64 file.mtime.toTicks) (clock : TimePoint)
    (steady : SteadyTime) : AtRest w (Node.start disk clock steady).replica where
  listed := rfl
  tree p file hf := by
    obtain ⟨hk, hfree, hticks⟩ := hd p file hf
    exact ⟨hk, Bool.eq_false_iff.mpr fun hb =>
      Bool.eq_false_iff.mp hfree (Tree.blocked_ofDisk.mp hb), hticks⟩
  standing _ _ _ _ hg := absurd hg PathMap.getElem?_empty_ne
  cached _ _ hb := absurd hb PathMap.getElem?_empty_ne
  quiet := rfl

/-- A tree some of whose files are missing and others of an older time. -/
def Stale (old disk : Disk) : Prop :=
  ∀ (p : Path) file, old[p]? = some file → InInt64 file.mtime.toTicks ∧
    ∃ newer, disk[p]? = some newer ∧
      (file = newer ∨ file.mtime.toTicks < newer.mtime.toTicks)

/-- What a node with such a tree and no deletions to tell says in a digest. -/
def firstDigest (target : Bytes) (old : Disk) : List Bytes :=
  Source.digest target (encodeHeld old.list) (encodeTombstones ∅)

section

variable {r : Replica} {old : Disk}

theorem receiveOne_firstDigest (v : World) (target : Bytes)
    (hs : ∀ (p : Path) file, old[p]? = some file → InInt64 file.mtime.toTicks)
    (hq : r.repairs.pending = ∅) (clock : TimePoint) (steady : SteadyTime) :
    ∃ pending, receiveOne v (firstDigest target old) clock steady r =
        .ok { r with repairs := { r.repairs with pending := pending } } ∧
      ∀ p, p ∈ pending ↔ p ∈ gaps r.former r.tombstones old.list := by
  have hheld : decodeHeld (part (firstDigest target old) 1) = old.list := by
    refine decode_encode (fun p hp => (Disk.isKey_of_mem_list hp).spelled) (fun p t ht => ?_)
      toFileTime_toTicks
    rw [Disk.getElem?_list] at ht
    split at ht
    · obtain ⟨file, hf, rfl⟩ := Option.map_eq_some_iff.mp ht
      exact hs p file hf
    · cases ht
  have hdeleted : decodeTombstones (part (firstDigest target old) 2) = ∅ := by
    exact decode_encode (fun p hp => absurd hp Std.ExtTreeMap.not_mem_empty)
      (fun _ _ hm => absurd hm PathMap.getElem?_empty_ne) fun _ => rfl
  have hverb : verbOf (part (firstDigest target old) 0) = ascii "digest" :=
    verbOf_address (by decide)
  have hadopt : adopt v ∅ clock r = .ok (r, []) := rfl
  have hnil : arm ∅ [] steady = ∅ := rfl
  rw [(receiveOne_digest hverb rfl clock steady r).1, readDigest, hheld, hdeleted, hadopt]
  refine ⟨arm ∅ (gaps r.former r.tombstones old.list) steady, ?_, fun p => ?_⟩
  · dsimp only
    split
    · next hempty =>
      rw [List.isEmpty_iff.mp hempty, hnil, ← hq]
    · rw [hq]
  · rw [mem_arm]
    exact or_iff_right Std.ExtTreeMap.not_mem_empty

theorem AtRest.repairs (h : AtRest w r) {p : Path} (hp : p ∈ r.former) :
    ∃ v, repairFor (w i) r p = some v ∧ Announced w r.disk p v := by
  obtain ⟨t, ht⟩ := PathMap.mem_iff.mp hp
  have hlisted := ht
  rw [h.listed, Disk.getElem?_list] at hlisted
  obtain ⟨hk, hlisted⟩ := Option.ite_none_right_eq_some.mp hlisted
  obtain ⟨file, hf, rfl⟩ := Option.map_eq_some_iff.mp hlisted
  rw [repairFor, ht]
  cases ha : r.repairs.announcements[p]? with
  | some b =>
    obtain ⟨k, rfl⟩ := h.cached p b ha file hf
    exact ⟨_, rfl, k, file, hf, rfl⟩
  | none =>
    refine ⟨announce ((w i).generateBuf p file.content) file.mtime p, ?_, i, file, hf, rfl⟩
    simp only [Tree.find_key hk, hf, Option.map_some, announce]

theorem AtRest.mem_gaps (h : AtRest w r) (ho : Stale old r.disk) {p : Path} :
    p ∈ gaps r.former r.tombstones old.list ↔ ∃ file, r.disk[p]? = some file ∧
      ∀ known, old[p]? = some known → known.mtime.toTicks < file.mtime.toTicks := by
  have hmine : ∀ q : Path, r.disk.list[q]? = (r.disk[q]?).map File.mtime :=
    Disk.getElem?_list_of_keys fun q hq => by
      obtain ⟨file, hf⟩ := PathMap.mem_iff.mp hq
      exact (h.tree q file hf).1
  have htheirs : ∀ q : Path, old.list[q]? = (old[q]?).map File.mtime :=
    Disk.getElem?_list_of_keys fun q hq => by
      obtain ⟨file, hf⟩ := PathMap.mem_iff.mp hq
      obtain ⟨-, newer, hnewer, -⟩ := ho q file hf
      exact (h.tree q newer hnewer).1
  rw [SyncFs.mem_gaps, htheirs, h.listed]
  constructor
  · rintro ⟨t, ht, -, hless⟩
    rw [hmine] at ht
    obtain ⟨file, hf, rfl⟩ := Option.map_eq_some_iff.mp ht
    exact ⟨file, hf, fun known hk => hless known.mtime (by rw [hk, Option.map_some])⟩
  · rintro ⟨file, hf, hless⟩
    have ht : r.disk.list[p]? = some file.mtime := by rw [hmine, hf, Option.map_some]
    refine ⟨file.mtime, ht, fun grave hg => ?_, fun peer hpeer => ?_⟩
    · exact h.standing p file.mtime grave (h.listed ▸ ht) hg
    · obtain ⟨known, hk, rfl⟩ := Option.map_eq_some_iff.mp hpeer
      exact hless known hk

/-- What a replica at rest says for all that is missing tells a stale tree of its own. -/
theorem AtRest.told (hw : SharedTorrents w r.disk.Holds) {named : ℕ → Path × Bytes}
    (hn : Names w r.disk.Holds named) (hr : AtRest w r) (ho : Stale old r.disk) {ps : List Path} (hnd : ps.Nodup)
    (hgap : ∀ p, p ∈ ps ↔ ∃ file, r.disk[p]? = some file ∧
      ∀ known, old[p]? = some known → known.mtime.toTicks < file.mtime.toTicks) :
    ∃ since latest, Told (w j) named (fun p => old[p]?) since (ps.filterMap (repairFor (w i) r))
      (fun p => r.disk[p]?) latest := by
  have hformer : ∀ p ∈ ps, p ∈ r.former := by
    intro p hp
    obtain ⟨file, hf, -⟩ := (hgap p).mp hp
    rw [hr.listed, Disk.mem_list]
    exact ⟨(hr.tree p file hf).1, PathMap.mem_iff.mpr ⟨file, hf⟩⟩
  have hannounced : List.Forall₂ (Announced w r.disk) (ps.map id)
      (ps.filterMap (repairFor (w i) r)) :=
    exists_announced fun p hp => hr.repairs (hformer p hp)
  rw [List.map_id] at hannounced
  -- Nothing here is as new as what is on its way.
  let since : Path → TimePoint := fun p => ((r.disk[p]?).map fun file => file.mtime.toTicks - 1).getD 0
  have hsince : ∀ (p : Path) file, r.disk[p]? = some file → since p = file.mtime.toTicks - 1 := by
    intro p file hf
    simp only [since, hf, Option.map_some, Option.getD_some]
  have hnew : ∀ p ∈ ps, ∀ file, r.disk[p]? = some file →
      p.IsKey ∧ Tree.blocked ⟨r.disk, ∅⟩ p = false ∧
        since p < file.mtime.toTicks ∧ InInt64 file.mtime.toTicks := by
    intro p _ file hf
    obtain ⟨hk, hfree, hticks⟩ := hr.tree p file hf
    have hfree : Tree.blocked ⟨r.disk, ∅⟩ p = false :=
      Bool.eq_false_iff.mpr fun hb => Bool.eq_false_iff.mp hfree (Tree.blocked_iff.mpr (.inl hb))
    exact ⟨hk, hfree, by rw [hsince p file hf]; exact sub_one_lt _, hticks⟩
  have hcreated : Told (w j) named (fun p => old[p]?) since (ps.filterMap (repairFor (w i) r))
      (brought ps (fun p => r.disk[p]?) fun p => old[p]?) since := .creates hw hn (fun _ _ hp => hp)
      hnd hnew
    (fun p hp file known hf hk => by
      obtain ⟨new, hnew, hless⟩ := (hgap p).mp hp
      obtain rfl := Option.some.inj (hf.symm.trans hnew)
      exact hless known hk)
    (fun p known hk => by
      obtain ⟨-, newer, hf, -⟩ := ho p known hk
      exact PathMap.mem_iff.mpr ⟨newer, hf⟩) hannounced
  have hnext : (brought ps (fun p => r.disk[p]?) fun p => old[p]?) = fun p => r.disk[p]? := by
    funext p
    rw [brought]
    split
    · rfl
    · next hp =>
      cases hk : old[p]? with
      | some known =>
        obtain ⟨-, newer, hf, hsame⟩ := ho p known hk
        have hnot : ¬ known.mtime.toTicks < newer.mtime.toTicks := by
          refine fun hless => hp ((hgap p).mpr ⟨newer, hf, fun other ho => ?_⟩)
          obtain rfl := Option.some.inj (hk.symm.trans ho)
          exact hless
        rw [hf, hsame.resolve_right hnot]
      | none =>
        cases hf : r.disk[p]? with
        | none => rfl
        | some file =>
          refine absurd ((hgap p).mpr ⟨file, hf, fun other ho => ?_⟩) hp
          rw [hk] at ho
          cases ho
  rw [hnext] at hcreated
  exact ⟨since, since, hcreated⟩

/-- A node that comes back with a stale tree, or with none, has its peer's tree
once it has followed all that the peer repairs for its one digest. -/
theorem catches_up (hw : SharedTorrents w r.disk.Holds) (hd : DistinctHashes w r.disk.Holds)
    (hr : AtRest w r) (ho : Stale old r.disk) (clock clock' : TimePoint) (steady steady' : SteadyTime) :
    ∃ armed, receiveOne (w i) (firstDigest (w i).endpoint old) clock steady r = .ok armed ∧
      ∀ nows, (repairCalls (w i) armed nows).1.repairs.pending = ∅ →
        ∀ as : List Arrival, as.map (·.message) = (repairCalls (w i) armed nows).2 →
          (∀ a ∈ as, a.Clear) →
          (followAll (w j) (Node.start old clock' steady').replica as).disk = r.disk := by
  obtain ⟨named, hn⟩ := exists_named hw hd
  obtain ⟨pending, hrec, hpending⟩ := receiveOne_firstDigest (w i) (w i).endpoint
    (fun p file hf => (ho p file hf).1) hr.quiet clock steady
  refine ⟨_, hrec, fun nows hdone as has hclear => ?_⟩
  obtain ⟨-, -, ps, hnd, hps, hsaid⟩ := repairCalls_said (w := w i)
    { r with repairs := { r.repairs with pending := pending } } nows
  have hgap : ∀ p, p ∈ ps ↔ ∃ file, r.disk[p]? = some file ∧
      ∀ known, old[p]? = some known → known.mtime.toTicks < file.mtime.toTicks := by
    intro p
    rw [hps, hdone, ← hr.mem_gaps ho, ← hpending]
    exact and_iff_left Std.ExtTreeMap.not_mem_empty
  obtain ⟨since, _, htold⟩ := hr.told (i := i) (j := j) hw hn ho hnd hgap
  have hm := (mirrors_start (w j) named old clock' steady' since).told htold (has.trans hsaid) hclear
  exact Std.ExtTreeMap.ext_getElem? hm.disk

def newerTree : Disk :=
  .ofList [(samplePath, sampleFile "xx" 1900), (Path.ofNative (ascii "./b"), sampleFile "y" 900),
    (Path.ofNative (ascii "./c/d"), sampleFile "z" 1800)] compare

theorem newerTree_reached :
    ∃ armed, receiveOne (samplePair false) (firstDigest (samplePair false).endpoint sampleTree)
        2000 0 (Node.start newerTree 2000 0).replica = .ok armed ∧
      (followAll (samplePair true) (Node.start sampleTree 3000 0).replica
        (heardAll (repairCalls (samplePair false) armed [pace, 3 * pace]).2)).disk = newerTree := by
  have hnew : ∀ e ∈ newerTree.toList,
      e.1.IsKey ∧ Tree.blocked ⟨newerTree, ∅⟩ e.1 = false ∧ InInt64 e.2.mtime.toTicks := by
    decide +kernel
  have hold : ∀ e ∈ sampleTree.toList, InInt64 e.2.mtime.toTicks ∧
      newerTree[e.1]?.any (fun newer => e.2 = newer ∨ e.2.mtime.toTicks < newer.mtime.toTicks) = true := by
    decide +kernel
  have hstale : Stale sampleTree newerTree := by
    intro p file hf
    obtain ⟨hticks, hany⟩ := hold (p, file) (PathMap.mem_toList.mpr hf)
    obtain ⟨newer, hnewer, hsame⟩ := (Option.any_eq_true _ _).mp hany
    exact ⟨hticks, newer, hnewer, of_decide_eq_true hsame⟩
  have hdone : (receiveOne (samplePair false) (firstDigest (samplePair false).endpoint sampleTree)
      2000 0 (Node.start newerTree 2000 0).replica).toOption.any (fun armed =>
        (repairCalls (samplePair false) armed [pace, 3 * pace]).1.repairs.pending = ∅ &&
          (heardAll (repairCalls (samplePair false) armed [pace, 3 * pace]).2).all (·.Clear)) =
        true := by
    decide +kernel
  obtain ⟨armed, hrec, hall⟩ := catches_up (samplePair_shared _) (samplePair_distinct _)
    (atRest_start (fun p file hf => hnew (p, file) (PathMap.mem_toList.mpr hf)) 2000 0) hstale
    2000 3000 0 0 (i := false) (j := true)
  rw [hrec] at hdone
  obtain ⟨hempty, hclear⟩ := Bool.and_eq_true_iff.mp hdone
  refine ⟨armed, hrec, hall _ (of_decide_eq_true hempty) _ ?_ fun a ha =>
    of_decide_eq_true (List.all_eq_true.mp hclear a ha)⟩
  rw [heardAll, List.map_map]
  exact List.map_id _

end

end SyncFs
