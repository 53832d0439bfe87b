import SyncFs.SwarmLedgers

/-!
# What a swarm's messages do to its nodes

Nodes that hear one another alone hear well-formed messages alone, so what was
asked of honest peers is asked of nobody. The one thing such a message can stop
a node with is a deletion the directory does not take.
-/

namespace SyncFs

open CharConversions Completion LabelledRuns Parties

variable {ι : Type}

/-- An info hash tells a path and a content in play from every other. -/
def DistinctHashes (w : ι → World) (plays : Path → Bytes → Prop) : Prop :=
  ∀ i j i' j' (path path' : Path) (content content' : Bytes) (torrent torrent' : TorrentInfo),
    path.IsKey → path'.IsKey → plays path content → plays path' content' →
    (w j).loadTorrentBuffer ((w i).generateBuf path content) = some torrent →
    (w j').loadTorrentBuffer ((w i').generateBuf path' content') = some torrent' →
    torrent.infoHash = torrent'.infoHash → path = path' ∧ content = content'

/-- The path and the content an info hash stands for, of what is in play. -/
def Names (w : ι → World) (plays : Path → Bytes → Prop) (named : ℕ → Path × Bytes) : Prop :=
  ∀ i j path content torrent, path.IsKey → plays path content →
    (w j).loadTorrentBuffer ((w i).generateBuf path content) = some torrent →
    named torrent.infoHash = (path, torrent.content)

theorem exists_named {w : ι → World} {plays : Path → Bytes → Prop} (hw : SharedTorrents w plays)
    (hd : DistinctHashes w plays) : ∃ named, Names w plays named := by
  have hex : ∀ infoHash : ℕ, ∃ named : Path × Bytes, ∀ i j path content torrent, path.IsKey →
      plays path content → (w j).loadTorrentBuffer ((w i).generateBuf path content) = some torrent →
      torrent.infoHash = infoHash → named = (path, torrent.content) := by
    intro infoHash
    by_cases h : ∃ i j path content torrent, path.IsKey ∧ plays path content ∧
      (w j).loadTorrentBuffer ((w i).generateBuf path content) = some torrent ∧
      torrent.infoHash = infoHash
    · obtain ⟨i, j, path, content, torrent, hp, hplay, hload, hhash⟩ := h
      refine ⟨(path, content), fun i' j' path' content' torrent' hp' hplay' hload' hhash' => ?_⟩
      obtain ⟨rfl, rfl⟩ := hd i j i' j' path path' content content' torrent torrent' hp hp' hplay
        hplay' hload hload' (hhash.trans hhash'.symm)
      obtain ⟨t, ht, hc, -⟩ := hw.lands i' j' hp hplay
      obtain rfl := Option.some.inj (hload'.symm.trans ht)
      rw [hc]
    · refine ⟨(Path.here, []), fun i j path content torrent hp hplay hload hhash => ?_⟩
      exact absurd ⟨i, j, path, content, torrent, hp, hplay, hload, hhash⟩ h
  choose named hnamed using hex
  exact ⟨named, fun i j path content torrent hp hplay hload =>
    hnamed _ i j path content torrent hp hplay hload rfl⟩

variable {w : ι → World} {l : SwarmLedger} {v : List Bytes}

theorem Accountable.honest (hv : Accountable w l v) (hw : SharedTorrents w (Drawn l.written))
    {named : ℕ → Path × Bytes} (hn : Names w (Drawn l.written) named) (j : ι) :
    Honest (w j) named v where
  removes p hp := l.key p (l.sub (hv.removes hp))
  creates hverb torrent ht := by
    obtain ⟨hk, i, content, hd, hb⟩ := hv.creates hverb
    have hkey := l.key _ hk
    rw [Option.mem_def, torrentOf, hb] at ht
    obtain ⟨torrent', hload, -, hl⟩ := hw.lands i j hkey hd
    obtain rfl := Option.some.inj (ht.symm.trans hload)
    exact ⟨hl, hn i j _ content torrent hkey hd ht⟩
  deletes hverb e he := by
    have hmem := PathMap.mem_iff.mpr ⟨e.2, PathMap.mem_toList.mp he⟩
    exact l.key _ (l.sub (hv.deletes hverb e.1 hmem))

theorem obstructed_of_erase {w : World} {r r' : Replica} {path : Path} (hp : path.IsKey)
    (h : erase w r path = .error r') : r.obstructed path = true := by
  simp only [erase] at h
  split at h
  · next ht => exact Tree.obstructed_of_remove hp ht
  · cases h

/-- A message of the swarm raises only where a path that is gone cannot be removed. -/
theorem Accountable.raises (hv : Accountable w l v) (hw : SharedTorrents w (Drawn l.written)) {j : ι}
    {clock : TimePoint} {steady : SteadyTime} {r r' : Replica}
    (h : receiveOne (w j) v clock steady r = .error r') :
    ∃ p ∈ l.gone, r.obstructed p = true := by
  have hr := received (w j) v clock steady r
  rw [h] at hr
  generalize applies (w j) v r = b at hr
  cases hr with
  | removeRaised removes raised =>
    have hg := hv.removes removes
    exact ⟨_, hg, obstructed_of_erase (l.key _ (l.sub hg)) raised⟩
  | loadRaised creates unloadable =>
    obtain ⟨hk, i, content, hd, hb⟩ := hv.creates creates
    obtain ⟨torrent, hload, -⟩ := hw.lands i j (l.key _ hk) hd
    rw [torrentOf, hb, hload] at unloadable
    cases unloadable
  | digestRaised addressed raised =>
    have hends : Ends (fun s : Replica × List Path => (∀ q ∈ s.1.disk, q ∈ r.disk) ∧
          ∀ q ∈ s.1.directories, q ∈ r.directories)
        (fun _ => ∃ p ∈ l.gone, r.obstructed p = true)
        (adopt (w j) (decodeTombstones (part v 2)) clock r) := by
      refine ends_foldlM ⟨fun _ hq => hq, fun _ hq => hq⟩ fun e he s hs => ?_
      obtain ⟨path, moment⟩ := e
      obtain ⟨s, deleted⟩ := s
      have hg := hv.deletes addressed path (PathMap.mem_iff.mpr
        ⟨moment, (getElem?_adoptable.mp (PathMap.mem_toList.mp he)).1⟩)
      cases hc : s.former.contains path with
      | false =>
        rw [adoptOne_unheld hc]
        exact hs
      | true =>
        rw [adoptOne_held hc]
        cases hx : erase (w j) (s.unlisted path moment) path with
        | error left =>
          have hb : (s.unlisted path moment).obstructed path = true :=
            obstructed_of_erase (l.key _ (l.sub hg)) hx
          exact ⟨path, hg, Tree.obstructed_of_sub hs.1 hs.2 hb⟩
        | ok left =>
          obtain ⟨tree, ht, rfl⟩ := erase_ok hx
          exact ⟨fun q hq => hs.1 q (Tree.disk_remove ht q hq),
            fun q hq => hs.2 q (Tree.directories_remove ht q hq)⟩
    rw [raised] at hends
    exact hends

section Runs

variable [DecidableEq ι] [Fintype ι] {disks : ι → Disk} {clocks : ι → TimePoint}
variable {steadies : ι → SteadyTime} {h : History (ι → Node) (ι × Event)} {s : ι → Node}

/-- In a swarm every message is well formed and one of an honest peer, and every
node that goes on holds one torrent, one applied create and one announcement a
path, or none of them. -/
theorem honest_among_themselves (hw : SharedTorrents w (Drawn (Placed disks h)))
    (hd : DistinctHashes w (Drawn (Placed disks h)))
    (hr : Run (swarmStep w) (swarmStart disks clocks steadies) h s) :
    (∃ named, ∀ i j, ∀ v ∈ (s i).sent,
      partsFor (part v 0) = some v.length ∧ Honest (w j) named v) ∧
    ∀ i, (s i).pc = .stopped ∨ Agrees (w i) (s i).replica := by
  obtain ⟨named, hn⟩ := exists_named hw hd
  obtain ⟨-, hair, -⟩ := vouched_ledgerOf hw leaves_univ hr
  refine ⟨⟨named, fun i j v hv => ⟨(hair i v hv).wellFormed, (hair i v hv).honest hw hn j⟩⟩, ?_⟩
  have hsaid : ∀ i, ∀ v ∈ ((w i).party).said (swarmStart disks clocks steadies i),
      Accountable w (ledgerOf disks h Set.univ) v := fun i v hv => absurd hv List.not_mem_nil
  have hall := rely_guarantee (I := fun i n => Orderly w (ledgerOf disks h Set.univ) i n ∧
      (n.pc = .stopped ∨ OneMemory (w i) named n.replica))
    (M := Accountable w (ledgerOf disks h Set.univ)) (c := fun _ e => (ledgerOf disks h Set.univ).Allows e.2)
    (fun i => ⟨orderly_start (starts_ledgerOf i)
      fun _ hp _ hd hk => hidden_ledgerOf leaves_univ i hp hd hk, .inr (oneMemory_start _ _ _)⟩) hsaid
    (fun s i e m hI hv ha hs => ?_) hr (always_of_forall fun x hx => allows_ledgerOf leaves_univ hx)
  · exact fun i => (hall.1 i).2.imp_right OneMemory.agrees
  · obtain ⟨ho, hm⟩ := hI
    have hst := stepped (w i) hs
    have hp := ho.step hw ha hv hst
    refine ⟨⟨hp.orderly, ?_⟩, hp.said⟩
    by_cases hl : m.pc = .stopped
    · exact .inl hl
    · have hone := hm.resolve_left fun hn => hl (hst.stopped hn)
      exact .inr (hone.step (fun v hve => (hv v hve).honest hw hn i) hst hl)

theorem samplePair_distinct (plays : Path → Bytes → Prop) : DistinctHashes samplePair plays := by
  intro i j i' j' path path' content content' torrent torrent' hp hp' _ _ hload hload' hhash
  have hhash_of : ∀ {i j : Bool} {path : Path} {content : Bytes} {torrent : TorrentInfo},
      (samplePair j).loadTorrentBuffer ((samplePair i).generateBuf path content) = some torrent →
      torrent.infoHash = ((path.lexicallyNormal.native ++ nul :: content).foldl
        (fun n c => n * 257 + c.toNat + 1) 0) := by
    intro i j path content torrent hload
    obtain ⟨fields, -, rfl⟩ := Option.map_eq_some_iff.mp hload
    rfl
  rw [hhash_of hload, hhash_of hload'] at hhash
  have hbuffer := congrArg (ClosedFields.cut nul) (sampleHash_injective hhash)
  have hplain : ∀ {path : Path}, path.IsKey → nul ∉ path.lexicallyNormal.native := by
    intro path hp
    rw [hp.lexicallyNormal]
    exact Path.nul_notMem_native fun c hc => (hp.mem_parts (List.mem_of_mem_tail hc)).2.2
  rw [ClosedFields.cut_append (hplain hp), ClosedFields.cut_append (hplain hp'), Option.some.injEq,
    Prod.mk.injEq] at hbuffer
  refine ⟨hp.eq_of_lexicallyNormal hp' ?_, hbuffer.2⟩
  have hback : ∀ {path : Path}, path.IsKey →
      Path.ofNative path.lexicallyNormal.native = path.lexicallyNormal := by
    intro path hp
    rw [hp.lexicallyNormal]
    exact Path.ofNative_native hp.2.2.1 fun c hc =>
      ⟨(hp.mem_parts (List.mem_of_mem_tail hc)).1, (hp.mem_parts (List.mem_of_mem_tail hc)).2.1⟩
  rw [← hback hp, ← hback hp', hbuffer.1]

theorem fetched_agrees :
    ∃ h s, Run (swarmStep samplePair) (swarmStart (fun _ => ∅) (fun _ => 1000) (fun _ => 0)) h s ∧
      ((s true).replica.session.torrentsAt (samplePair true) samplePath).length = 1 ∧
      Agrees (samplePair true) (s true).replica := by
  obtain ⟨h, s, hr, hp, hl⟩ := exists_run (swarmStep samplePair)
    (swarmStart (fun _ => ∅) (fun _ => 1000) (fun _ => 0)) fetched
    (fun _ s => (s true).pc.goesOn = true ∧
      ((s true).replica.session.torrentsAt (samplePair true) samplePath).length = 1)
    (by decide +kernel)
  exact ⟨h, s, hr, hl, ((honest_among_themselves (samplePair_shared _) (samplePair_distinct _) hr).2
    true).resolve_left (ne_stopped hp)⟩

def clashing (second : Bool) : Disk :=
  (∅ : Disk).insert (if second then Path.ofNative (ascii "./a/b") else samplePath)
    (sampleFile "x" 900)

def blockedRemoval : List (Bool × Event) :=
  does false (.localDelete samplePath :: pass true none) ++
    does true [.advance, .advance, .woken none, .round 0, .advance]

end Runs

end SyncFs
