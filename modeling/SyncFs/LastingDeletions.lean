import SyncFs.TombstoneSweeps

/-!
# Lasting deletions

A deletion a peer asks for takes the file and its torrent away and leaves a
tombstone. While that stands nothing brings the older copy back: its creates are
refused, no torrent is left to write it, and a listing finds nothing to list.
-/

namespace SyncFs

open CharConversions LabelledRuns

section

variable (w : World)

/-- The step records that a path was deleted at a moment and deletes it here:
a remove does, and a digest if the path is listed. -/
def Deletes (p : Path) (d : TimePoint) (n : Node) (e : Event) : Prop :=
  match n.pc, e with
  | .receive, .receive (some v) =>
    (removedPath v = some p ∧ fromTicks (part v 2) = d) ∨
      (verbOf (part v 0) = ascii "digest" ∧ v.length = 3 ∧ p ∈ n.replica.former ∧
        (adoptable (decodeTombstones (part v 2)) n.replica.former n.replica.tombstones
          n.clock)[p]? = some d)
  | _, _ => False

/-- A copy the deletion does not beat comes in, or is written here. -/
def Renews (p : Path) (d : TimePoint) (n : Node) (e : Event) : Prop :=
  (∃ v ∈ appliedBy w n e, announcedPath v = p ∧ d ≤ (originOf v).toTicks) ∨
    writesLocally e p = true

/-- A create the deletion does not beat comes in while a directory stands at the
path, which may have it refused. -/
def Unburies (p : Path) (d : TimePoint) (n : Node) (e : Event) : Prop :=
  match n.pc, e with
  | .receive, .receive (some v) =>
    verbOf (part v 0) = ascii "create" ∧ announcedPath v = p ∧ d ≤ (originOf v).toTicks ∧
      p ∈ n.replica.directories
  | _, _ => False

instance (p : Path) (d : TimePoint) (n : Node) (e : Event) : Decidable (Deletes p d n e) := by
  unfold Deletes
  split <;> infer_instance

instance (p : Path) (d : TimePoint) (n : Node) (e : Event) : Decidable (Renews w p d n e) := by
  unfold Renews
  infer_instance

instance (p : Path) (d : TimePoint) (n : Node) (e : Event) : Decidable (Unburies p d n e) := by
  unfold Unburies
  split <;> infer_instance

/-- Nothing here brings a path back under a time its deletion beats. -/
structure Barred (p : Path) (d : TimePoint) (n : Node) : Prop where
  marked : ∃ kept, n.replica.tombstones[p]? = some kept ∧ d ≤ kept
  unserved : n.replica.session.torrentsAt w p = []
  gone : n.replica.disk[p]? = none
  unlisted : ∀ diff current, n.pc = .sending diff current → current[p]? = none

end

variable {w : World} {n m : Node} {e : Event} {h : History Node Event} {p : Path}
variable {d : TimePoint}

theorem deletes_cases (hd : Deletes p d n e) :
    ∃ v, n.pc = .receive ∧ e = .receive (some v) ∧
      ((removedPath v = some p ∧ fromTicks (part v 2) = d) ∨
        (verbOf (part v 0) = ascii "digest" ∧ v.length = 3 ∧ p ∈ n.replica.former ∧
          (adoptable (decodeTombstones (part v 2)) n.replica.former n.replica.tombstones
            n.clock)[p]? = some d)) := by
  unfold Deletes at hd
  split at hd
  · next v hp => exact ⟨v, hp, rfl, hd⟩
  · cases hd

/-- What is not in the session is not brought into it by what a step does to
the other torrents. -/
theorem torrentsAt_reshaped {s : Session} (hh : HonestCreate w n e) (hr : Reshaped w n e s) (hp : p.IsKey)
    (ha : ∀ v ∈ appliedBy w n e, announcedPath v ≠ p)
    (hn : n.replica.session.torrentsAt w p = []) : s.torrentsAt w p = [] := by
  cases hr with
  | modified gentle => rw [Session.torrentsAt_modify gentle, hn, List.map_nil]
  | kept sub =>
    refine List.eq_nil_iff_forall_not_mem.mpr fun t hm => ?_
    obtain ⟨hm, hj⟩ := Session.mem_torrentsAt.mp hm
    exact List.eq_nil_iff_forall_not_mem.mp hn t (Session.mem_torrentsAt.mpr ⟨sub t hm, hj⟩)
  | @added v torrent applied loads =>
    have hl := hh v applied torrent loads
    have hold : ∀ u ∈ n.replica.session.torrents, w.join u.savePath u.info ≠ p.lexicallyNormal :=
      fun u hu hj => List.eq_nil_iff_forall_not_mem.mp hn u (Session.mem_torrentsAt.mpr ⟨hu, hj⟩)
    refine List.eq_nil_iff_forall_not_mem.mpr fun t hm => ?_
    obtain ⟨hm, hj⟩ := Session.mem_torrentsAt.mp hm
    rcases torrents_applied w n.replica v torrent with ⟨left, htor, -, hleft⟩ | ⟨-, hsub⟩
    · rw [htor, List.mem_append, List.mem_singleton] at hm
      rcases hm with hm | rfl
      · exact hold t (hleft t hm).1 hj
      · exact ha v applied (hl.1.eq_of_lexicallyNormal hp (hl.2.1.symm.trans hj))
    · exact hold t (hsub t hm).1 hj

namespace Barred

theorem stampCall_ne (hb : Barred w p d n) (ht : Tidy w n.replica.session) (hp : p.IsKey)
    {call : Replica × Path × FileTime} (hc : stampCall w n e = some call) : call.2.1 ≠ p := by
  rintro rfl
  rcases stampCall_cases hc with ⟨alert, rest, t, -, -, -, hf, rfl⟩ |
    ⟨v, torrent, -, -, -, -, hh, rfl⟩
  · have hm := (Session.mem_of_find hf).1
    have hat := (Tidy.mem_torrentsAt (ht.sits t hm) hm hp).mpr rfl
    exact List.eq_nil_iff_forall_not_mem.mp hb.unserved t hat
  · obtain ⟨t, hat, -⟩ := heldAlready_iff.mp hh
    exact List.eq_nil_iff_forall_not_mem.mp hb.unserved t hat

theorem not_ltTouches (hb : Barred w p d n) (ht : Tidy w n.replica.session) (hp : p.IsKey) :
    ltTouches w n e p = false := by
  have hspot : ∀ {handle : ℕ} {t : Torrent}, n.replica.session.find handle = some t →
      w.spot t ≠ p := by
    intro handle t hf he
    have hm := (Session.mem_of_find hf).1
    have hsits := ht.sits t hm
    refine List.eq_nil_iff_forall_not_mem.mp hb.unserved t ?_
    exact (Tidy.mem_torrentsAt hsits hm hp).mpr (hsits.2.2.symm.trans he)
  cases e with
  | ltOpen handle | ltWrite handle =>
    rw [ltTouches]
    cases hf : n.replica.session.find handle with
    | none => rfl
    | some t => simp [hspot hf]
  | _ => rfl

theorem former (hb : Barred w p d n) (ht : Tidy w n.replica.session) (hp : p.IsKey)
    (hs : Stepped w n e m) (hl : m.pc ≠ .stopped) {t : FileTime}
    (hf : m.replica.former[p]? = some t) : n.replica.former[p]? = some t := by
  refine hs.former_kept hl (fun call hc => hb.stampCall_ne ht hp hc) ?_ hf
  intro diff current hpc hc
  rw [hb.unlisted diff current hpc] at hc
  cases hc

/-- A create of the path is applied only if the deletion does not beat it. -/
theorem applied_ne (hb : Barred w p d n) (hr : ¬ Renews w p d n e) :
    ∀ v ∈ appliedBy w n e, announcedPath v ≠ p := by
  intro v hv he
  obtain ⟨-, rfl, ha⟩ := appliedBy_eq_some.mp hv
  obtain ⟨kept, hk, hle⟩ := hb.marked
  refine hr (.inl ⟨v, hv, he, ?_⟩)
  have hrec := received w v n.clock n.steady n.replica
  rw [ha] at hrec
  generalize receiveOne w v n.clock n.steady n.replica = result at hrec
  generalize hbool : true = b at hrec
  cases hrec with
  | applied _ undefeated _ _ =>
    rw [he] at undefeated
    have hn := undefeated kept hk
    rw [Bool.eq_false_iff, ne_eq, beats_iff, not_lt] at hn
    exact hle.trans hn
  | rejected | removed | removeRaised | loadRaised | refused | state | digest | digestRaised =>
    cases hbool

/-- Nothing lifts the tombstone but a create that is applied, or has a directory in
its way. -/
theorem not_lifts (hb : Barred w p d n) (hp : p.IsKey) (hr : ¬ Renews w p d n e)
    (hun : ¬ Unburies p d n e) (hs : Stepped w n e m) (hl : m.pc ≠ .stopped) : ¬ Lifts n e p := by
  intro hlift
  cases hlift with
  | @announced v receiving creates length undefeated =>
    cases hload : torrentOf w v with
    | none =>
      cases hs with
      | receive _ =>
        rw [takeIn, receiveOne_unloadable creates length hload, if_pos undefeated] at hl
        exact hl rfl
    | some torrent =>
      by_cases hclear : announcedPath v ∈ n.replica.directories
      · obtain ⟨kept, hk, hle⟩ := hb.marked
        have hn := undefeated kept hk
        rw [Bool.eq_false_iff, ne_eq, beats_iff, not_lt] at hn
        refine hun ?_
        unfold Unburies
        rw [receiving]
        exact ⟨creates, rfl, hle.trans hn, hclear⟩
      · have hgone : n.replica.lastWriteTime w (announcedPath v) = none := by
          rw [Tree.lastWriteTime_clear hp hclear, hb.gone, Option.map_none]
        have ha := (applies_create creates length hload).mpr ⟨undefeated, wins_absent hgone⟩
        exact hb.applied_ne hr v (appliedBy_eq_some.mpr ⟨receiving, rfl, ha⟩) rfl
  | returned _ listed =>
    have listed := Disk.list_of_listBut listed
    rw [Disk.getElem?_list, hb.gone, Option.map_none, ite_self] at listed
    cases listed

theorem step (hb : Barred w p d n) (ht : Tidy w n.replica.session) (hh : HonestCreate w n e)
    (hp : p.IsKey) (hs : Stepped w n e m) (hl : m.pc ≠ .stopped) (hr : ¬ Renews w p d n e)
    (hun : ¬ Unburies p d n e) (hsw : ¬ Sweeps n e d) : Barred w p d m := by
  constructor
  · obtain ⟨kept, hk, hle⟩ := hb.marked
    by_cases hlater : ∃ later, Notes n e p later ∧ kept < later
    · obtain ⟨later, hnotes, hlt⟩ := hlater
      exact ⟨later, (hs.keeps hl p later).mpr (.inl hnotes), hle.trans hlt.le⟩
    · refine ⟨kept, (hs.keeps hl p kept).mpr (.inr ⟨hk, hb.not_lifts hp hr hun hs hl, ?_, ?_⟩), hle⟩
      · intro later hnotes
        exact not_lt.mp fun hlt => hlater ⟨later, hnotes, hlt⟩
      · rintro ⟨hsweep, httl⟩
        exact hsw ⟨hsweep, httl.trans_le (sub_le_sub_left hle n.clock)⟩
  · exact torrentsAt_reshaped hh (hs.reshaped hl) hp (hb.applied_ne hr) hb.unserved
  · rw [Option.eq_none_iff_forall_ne_some]
    intro file hf
    have hw : writesLocally e p = false := Bool.eq_false_iff.mpr fun hw => hr (.inr hw)
    have hkept := hs.file_kept hl hw (hb.not_ltTouches ht hp) (fun call hc => ?_) hf
    · rw [hb.gone] at hkept
      cases hkept
    · rw [Tree.locate_key (ht.isKey_of_stampCall hh hc)]
      exact fun he => hb.stampCall_ne ht hp hc (Option.some.inj he)
  · intro diff current hpc
    rcases hs.sending hpc with hpc | hlist
    · exact hb.unlisted diff current hpc
    · obtain ⟨missed, -, -, rfl⟩ := listed_eq_some hlist
      rw [Disk.getElem?_listBut, Disk.getElem?_list, hb.gone, Option.map_none, ite_self, ite_self]

/-- A step that deletes a path leaves nothing that could bring it back. -/
theorem of_deletes (ht : Tidy w n.replica.session) (hp : p.IsKey) (hd : Deletes p d n e)
    (hs : Stepped w n e m) (hl : m.pc ≠ .stopped) : Barred w p d m := by
  obtain ⟨v, hpc, rfl, hcase⟩ := deletes_cases hd
  cases hs with
  | receive _ =>
    have hdead : ∀ r, receiveOne w v n.clock n.steady n.replica = .ok r →
        (∃ kept, r.tombstones[p]? = some kept ∧ d ≤ kept) → r.session.torrentsAt w p = [] →
        r.disk[p]? = none → Barred w p d (takeIn w n v) := by
      intro r hr hm hu hg
      rw [takeIn, hr]
      exact ⟨hm, hu, hg, by rintro _ _ ⟨⟩⟩
    rcases hcase with ⟨hremoved, rfl⟩ | ⟨hv, hlen, hlisted, hnews⟩
    · have hrecv : receiveOne w v n.clock n.steady n.replica = _ := receiveOne_remove hremoved
      cases he : erase w n.replica p with
      | error left =>
        rw [he] at hrecv
        rw [takeIn, hrecv] at hl
        exact absurd rfl hl
      | ok left =>
        rw [he] at hrecv
        obtain ⟨tree, htree, rfl⟩ := erase_ok he
        refine hdead _ hrecv ?_ ?_ ?_
        · refine ⟨_, getElem?_mark.trans (if_pos rfl), ?_⟩
          dsimp only
          cases n.replica.tombstones[p]? with
          | none => exact le_rfl
          | some ours => exact le_max_right _ _
        · exact (Session.torrentsAt_withdraw ht.numbered.apart hp hp).trans (if_pos rfl)
        · exact (Tree.getElem?_remove_key hp htree p).trans (if_pos rfl)
    · have hrecv := (receiveOne_digest (w := w) hv hlen n.clock n.steady n.replica).1
      rw [readDigest] at hrecv
      cases ha : adopt w (decodeTombstones (part v 2)) n.clock n.replica with
      | error left =>
        rw [ha] at hrecv
        rw [takeIn, hrecv] at hl
        exact absurd rfl hl
      | ok s =>
        obtain ⟨left, deleted⟩ := s
        rw [ha] at hrecv
        have hmem : p ∈ deleted := (mem_deleted ha).mpr ⟨PathMap.mem_iff.mpr ⟨d, hnews⟩, hlisted⟩
        have hmark : left.tombstones[p]? = some d := by rw [tombstones_adopt ha, hnews]; rfl
        have hserved := unserved_adopt ht.numbered.apart ha hmem
        have hgone := PathMap.notMem_iff.mp ((takesOn ha).gone hp hmem)
        refine hdead _ hrecv ?_ ?_ ?_ <;> split
        all_goals first | exact ⟨d, hmark, le_rfl⟩ | exact hserved | exact hgone

end Barred

/-- Once a remove or a digest has had a path deleted, no torrent serves it and no
step lists it anew until a create the deletion does not beat is applied or meets a
directory there, the path is written here or the deletion is swept after its time. -/
theorem deletion_lasts {disk : Disk} {clock : TimePoint} {steady : SteadyTime}
    (hr : Run (step w) (.start disk clock steady) h n)
    (hh : Always (fun _ n e => HonestCreate w n e) h) (hp : p.IsKey)
    (hd : Since (Deletes p d)
      (fun n e => Renews w p d n e ∨ Unburies p d n e ∨ Sweeps n e d) h)
    (hl : n.pc ≠ .stopped) :
    n.replica.session.torrentsAt w p = [] ∧
      ∀ e m t, step w n e = some m → m.pc ≠ .stopped → m.replica.former[p]? = some t →
        n.replica.former[p]? = some t := by
  have hi := live_invariant (I := fun h n => Tidy w n.replica.session ∧
    (Since (Deletes p d) (fun n e => Renews w p d n e ∨ Unburies p d n e ∨ Sweeps n e d) h →
      Barred w p d n))
    ⟨by constructor <;> simp [Node.start, Session.empty], fun h => nomatch h⟩
    (fun h n e m hI hc hs hl => ⟨hI.1.reshaped hc (hs.reshaped hl), ?_⟩) hr hh
  · obtain ⟨ht, hb⟩ := hi.resolve_left hl
    have hb := hb hd
    exact ⟨hb.unserved, fun e m t he hm hf => hb.former ht hp (stepped w he) hm hf⟩
  · rintro (hd | ⟨hd, hends⟩)
    · exact .of_deletes hI.1 hp hd hs hl
    · rw [not_or, not_or] at hends
      exact (hI.2 hd).step hI.1 hc hp hs hl hends.1 hends.2.1 hends.2.2

def sampleRemove (ticks : ℤ) : List Bytes := [ascii "remove", samplePath.native, printInt ticks]

/-- A remove that overtakes a transfer, and the create of the deleted file again. -/
def removedMidway : List Event :=
  pass false (some (sampleCreate "x" 900)) ++ [.ltOpen 0] ++
    pass false (some (sampleRemove 950)) ++
    pass true (some (sampleCreate "x" 900))

theorem removedMidway_lasts :
    ∃ h n, Run (step sampleWorld) (.start ∅ 1000 0) h n ∧
      n.replica.session.torrentsAt sampleWorld samplePath = [] ∧
      ∀ e m t, step sampleWorld n e = some m → m.pc ≠ .stopped →
        m.replica.former[samplePath]? = some t → n.replica.former[samplePath]? = some t := by
  obtain ⟨h, n, hr, hp, hh, hd⟩ := exists_run (step sampleWorld) (.start ∅ 1000 0) removedMidway
    (fun h n => n.pc.goesOn = true ∧ Always (fun _ n e => HonestCreate sampleWorld n e) h ∧
      Since (Deletes samplePath 950)
        (fun n e => Renews sampleWorld samplePath 950 n e ∨ Unburies samplePath 950 n e ∨
          Sweeps n e 950) h) (by decide +kernel)
  exact ⟨h, n, hr, deletion_lasts hr hh (by decide) hd (ne_stopped hp)⟩

def outlived : List Event :=
  pass false (some (sampleRemove 1000)) ++ [.tick 3600000000001] ++ pass true none ++
    pass false (some (sampleCreate "x" 900))

def detour : Path := Path.ofNative (ascii "./b/../a")

/-- A deletion, and a create that names the deleted file another way. -/
def misspelled : List Event :=
  pass false (some (sampleRemove 1000)) ++
    pass false (some (announce (sampleWorld.generateBuf samplePath (ascii "x")) (toFileTime 900) detour))

/-- A deletion, a newer create refused for the sake of a directory that stands at
the path, and once that is gone the create of the deleted file again. -/
def unburied : List Event :=
  pass false (some (sampleRemove 1000)) ++ [.directory samplePath (some (toFileTime 2000))] ++
    pass false (some (sampleCreate "y" 1100)) ++ [.directory samplePath none] ++
    pass false (some (sampleCreate "x" 900))

/-- A tombstone outlived lets the older copy back in, and so does another name for
it, or a create refused that cancels the tombstone. -/
theorem outlived_returns :
    (∃ h n, Run (step sampleWorld) (.start ∅ 1000 0) h n ∧ n.pc.goesOn = true ∧
      Since (Deletes samplePath 1000) (Renews sampleWorld samplePath 1000) h ∧
      n.replica.session.torrentsAt sampleWorld samplePath ≠ [] ∧
      ∃ a ∈ n.replica.repairs.applied[samplePath]?, a.origin.toTicks < 1000) ∧
    (∃ h n, Run (step sampleWorld) (.start ∅ 1000 0) h n ∧ n.pc.goesOn = true ∧
      Since (Deletes samplePath 1000) (Renews sampleWorld samplePath 1000) h ∧
      n.replica.session.torrentsAt sampleWorld samplePath ≠ [] ∧
      ∃ a ∈ n.replica.repairs.applied[detour]?, a.origin.toTicks < 1000) ∧
    ∃ h n, Run (step sampleWorld) (.start ∅ 1000 0) h n ∧ n.pc.goesOn = true ∧
      Since (Deletes samplePath 1000) (Renews sampleWorld samplePath 1000) h ∧
      n.replica.session.torrentsAt sampleWorld samplePath ≠ [] ∧
      ∃ a ∈ n.replica.repairs.applied[samplePath]?, a.origin.toTicks < 1000 := by
  refine ⟨?_, ?_, ?_⟩
  · exact exists_run (step sampleWorld) (.start ∅ 1000 0) outlived
      (fun h n => n.pc.goesOn = true ∧
        Since (Deletes samplePath 1000) (Renews sampleWorld samplePath 1000) h ∧
        n.replica.session.torrentsAt sampleWorld samplePath ≠ [] ∧
        ∃ a ∈ n.replica.repairs.applied[samplePath]?, a.origin.toTicks < 1000) (by decide +kernel)
  · exact exists_run (step sampleWorld) (.start ∅ 1000 0) misspelled
      (fun h n => n.pc.goesOn = true ∧
        Since (Deletes samplePath 1000) (Renews sampleWorld samplePath 1000) h ∧
        n.replica.session.torrentsAt sampleWorld samplePath ≠ [] ∧
        ∃ a ∈ n.replica.repairs.applied[detour]?, a.origin.toTicks < 1000) (by decide +kernel)
  · exact exists_run (step sampleWorld) (.start ∅ 1000 0) unburied
      (fun h n => n.pc.goesOn = true ∧
        Since (Deletes samplePath 1000) (Renews sampleWorld samplePath 1000) h ∧
        n.replica.session.torrentsAt sampleWorld samplePath ≠ [] ∧
        ∃ a ∈ n.replica.repairs.applied[samplePath]?, a.origin.toTicks < 1000) (by decide +kernel)

end SyncFs
