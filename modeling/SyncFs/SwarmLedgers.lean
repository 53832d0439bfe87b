import SyncFs.Completion
import SyncFs.Swarms

/-!
# Where everything in a swarm comes from

A path is in the tree of a node because a process of some machine put it into
the tree of one, and every byte under it was put there by one as well. What is
deleted was deleted by a process somewhere.
-/

namespace SyncFs

open CharConversions Completion LabelledRuns Parties

variable {ι : Type}

/-- The paths there can be, those of them a process has deleted somewhere, and
what processes have written under each. -/
structure SwarmLedger where
  known : Set Path
  gone : Set Path
  written : Set (Path × Bytes)
  key : ∀ p ∈ known, p.IsKey
  sub : gone ⊆ known

/-- A byte some process has put at this place of the file, or the zero of a
place nothing was put at. -/
def Put (written : Set (Path × Bytes)) (path : Path) (k : ℕ) (b : UInt8) : Prop :=
  b = 0 ∨ ∃ content : Bytes, (path, content) ∈ written ∧ content[k]? = some b

/-- Every byte was put where it stands by a process, under that very path. -/
def Drawn (written : Set (Path × Bytes)) (path : Path) (content : Bytes) : Prop :=
  ∀ (k : ℕ) (b : UInt8), content[k]? = some b → Put written path k b

namespace Drawn

variable {written : Set (Path × Bytes)} {path : Path} {content old : Bytes}

theorem of_mem (h : (path, content) ∈ written) : Drawn written path content :=
  fun _ _ hb => .inr ⟨content, h, hb⟩

theorem getD (h : Drawn written path content) (k : ℕ) :
    Put written path k ((content[k]?).getD 0) := by
  cases hk : content[k]? with
  | none => exact .inl rfl
  | some b => exact h k b hk

theorem opened {file : Option File} {now : FileTime}
    (hf : ∀ f ∈ file, Drawn written path f.content) :
    Drawn written path (openedFile file content now).content := by
  cases file with
  | none =>
    intro k b hb
    cases hb
  | some f =>
    have hf := hf f rfl
    rw [openedFile]
    split
    · intro k b hb
      rw [List.getElem?_take] at hb
      split at hb
      · exact hf k b hb
      · cases hb
    · exact hf

theorem overwritten (hc : Drawn written path content) (ho : Drawn written path old)
    (offset length : ℕ) : Drawn written path (overwrite old content offset length) := by
  intro k b hb
  rw [overwrite, List.getElem?_map, Option.map_eq_some_iff] at hb
  obtain ⟨j, hj, rfl⟩ := hb
  obtain ⟨-, rfl⟩ := List.getElem?_eq_some_iff.mp hj
  rw [List.getElem_range]
  split
  · exact hc.getD _
  · exact ho.getD _

end Drawn

/-- A message of the swarm: it names nothing but known paths, deletes nothing
but what is gone and carries torrents made of what was written there. -/
inductive Accountable (w : ι → World) (l : SwarmLedger) : List Bytes → Prop
  | create {i : ι} {path : Path} {content : Bytes} (mtime : FileTime) (known : path ∈ l.known)
    (drawn : Drawn l.written path content) :
    Accountable w l (announce ((w i).generateBuf path content) mtime path)
  | remove {path : Path} (now : TimePoint) (gone : path ∈ l.gone) :
    Accountable w l (Source.remove path now)
  | state (i : ι) (hashes : Bytes) : Accountable w l (Source.state (w i) hashes)
  | digest {held : FileMap} {deleted : TombstoneMap} (target : Bytes)
    (known : ∀ p ∈ held, p ∈ l.known) (gone : ∀ p ∈ deleted, p ∈ l.gone) :
    Accountable w l (Source.digest target (encodeHeld held) (encodeTombstones deleted))

namespace Accountable

variable {w : ι → World} {l : SwarmLedger} {v : List Bytes}

theorem wellFormed (h : Accountable w l v) : partsFor (part v 0) = some v.length := by
  have hm : (ascii "create", 4) ∈ verbs ∧ (ascii "remove", 3) ∈ verbs ∧
      (ascii "state", 3) ∈ verbs ∧ (ascii "digest", 3) ∈ verbs := by decide
  obtain ⟨hcreate, hremove, hstate, hdigest⟩ := hm
  cases h with
  | create => exact partsFor_of_verbOf (by rfl) hcreate
  | remove => exact partsFor_of_verbOf (by rfl) hremove
  | state => exact partsFor_of_verbOf (by rfl) hstate
  | digest => exact partsFor_of_verbOf (by rfl) hdigest

theorem removes (h : Accountable w l v) {path : Path} (hr : removedPath v = some path) :
    path ∈ l.gone := by
  have hv := (removedPath_eq_some hr).2
  cases h with
  | @remove removed now gone =>
    have hback := (l.key _ (l.sub gone)).ofNative_native
    have hr : some (Path.ofNative removed.native) = some path := hr
    rw [hback] at hr
    rwa [← Option.some.inj hr]
  | create | state | digest => exact absurd hv (of_decide_eq_false (by rfl))

theorem creates (h : Accountable w l v) (hv : verbOf (part v 0) = ascii "create") :
    announcedPath v ∈ l.known ∧ ∃ i content, Drawn l.written (announcedPath v) content ∧
      part v 1 = (w i).generateBuf (announcedPath v) content := by
  cases h with
  | @create i path content mtime known drawn =>
    have hp : announcedPath (announce ((w i).generateBuf path content) mtime path) = path :=
      (l.key _ known).ofNative_native
    rw [hp]
    exact ⟨known, i, content, drawn, rfl⟩
  | remove | state | digest => exact absurd hv (of_decide_eq_false (by rfl))

theorem deletes (h : Accountable w l v) (hv : verbOf (part v 0) = ascii "digest") :
    ∀ p ∈ decodeTombstones (part v 2), p ∈ l.gone := by
  cases h with
  | @digest held deleted target known gone =>
    intro p hp
    have hk : ∀ p ∈ deleted, Path.Spelled p := fun p hp => (l.key _ (l.sub (gone p hp))).spelled
    exact gone p ((mem_decode_encode hk).mp hp)
  | create | remove | state => exact absurd hv (of_decide_eq_false (by rfl))

end Accountable

/-- All a node keeps is of known paths. What it lists is there unless it is gone,
what it remembers deleted is gone, and so is what a directory has replaced. -/
structure Vouched (w : ι → World) (l : SwarmLedger) (i : ι) (r : Replica) : Prop where
  disk : ∀ p file, r.disk[p]? = some file → p.IsKey →
    p ∈ l.known ∧ Drawn l.written p file.content
  directories : ∀ p ∈ r.directories, p ∈ l.known → p ∈ l.gone
  former : ∀ p ∈ r.former, p ∈ l.known ∧ (p ∉ l.gone → p ∈ r.disk)
  tombstones : ∀ p ∈ r.tombstones, p ∈ l.gone
  session : ∀ t ∈ r.session.torrents, Sits (w i) t ∧ (w i).heldPath t ∈ l.known ∧
    Drawn l.written ((w i).heldPath t) t.info.content
  announcements : ∀ p b, r.repairs.announcements[p]? = some b →
    ∃ j content, Drawn l.written p content ∧ b = (w j).generateBuf p content

/-- What a node is about to say is accounted for as well. -/
def VouchedSending (l : SwarmLedger) (n : Node) : Prop :=
  ∀ diff current, n.pc = .sending diff current →
    (∀ p ∈ diff.removed, p ∈ l.gone) ∧ (∀ p ∈ diff.created, p ∈ l.known) ∧
      (∀ p ∈ diff.modified, p ∈ l.known) ∧
      ∀ p ∈ current, p ∈ l.known ∧ (p ∉ l.gone → p ∈ n.replica.disk)

/-- What a replica has become: accounted for still, and without a file only if
that is gone. -/
structure Carries (w : ι → World) (l : SwarmLedger) (i : ι) (r r' : Replica) : Prop where
  accounted : Vouched w l i r'
  keeps : ∀ p ∈ r.disk, p ∉ l.gone → p ∈ r'.disk

theorem mem_mark {tombstones : TombstoneMap} {path p : Path} {moment : TimePoint} :
    p ∈ mark tombstones path moment ↔ path = p ∨ p ∈ tombstones := by
  simp only [PathMap.mem_iff, getElem?_mark]
  by_cases h : path = p <;> simp [h]

theorem mem_of_mem_expire {tombstones : TombstoneMap} {p : Path} {now : TimePoint}
    (h : p ∈ expire tombstones now) : p ∈ tombstones := by
  obtain ⟨moment, hm⟩ := PathMap.mem_iff.mp h
  rw [expire, PathMap.getElem?_filter, Option.filter_eq_some_iff] at hm
  exact PathMap.mem_iff.mpr ⟨moment, hm.1⟩

namespace Vouched

variable {w : ι → World} {l : SwarmLedger} {i : ι} {r r' left : Replica} {path : Path}

theorem refl (h : Vouched w l i r) : Carries w l i r r := ⟨h, fun _ hp _ => hp⟩

theorem marked (h : Vouched w l i r) (hg : path ∈ l.gone) (moment : TimePoint) :
    Vouched w l i { r with tombstones := mark r.tombstones path moment } :=
  { h with tombstones := fun p hp => (mem_mark.mp hp).elim (fun he => he ▸ hg) (h.tombstones p) }

theorem revived (h : Vouched w l i r) (path : Path) : Vouched w l i (r.revived path) :=
  { h with tombstones := fun p hp => h.tombstones p (PathMap.mem_erase.mp hp).2 }

theorem forgot (h : Vouched w l i r) (path : Path) :
    Vouched w l i { r with repairs := r.repairs.forget path } where
  disk := h.disk
  directories := h.directories
  former := h.former
  tombstones := h.tombstones
  session := h.session
  announcements p b hb := by
    rw [Repairs.forget, PathMap.getElem?_erase] at hb
    split at hb
    · cases hb
    · exact h.announcements p b hb

theorem unlisted (h : Vouched w l i r) (path : Path) (hg : path ∈ l.gone) (moment : TimePoint) :
    Vouched w l i (r.unlisted path moment) :=
  { h.marked hg moment with
    former := fun p hp => h.former p (PathMap.mem_erase.mp hp).2 }

/-- A withdrawal leaves fewer torrents, and the removal takes a gone file. -/
theorem erased (h : Vouched w l i r) (hg : path ∈ l.gone) :
    Ends (Carries w l i r) (Carries w l i r) (erase (w i) r path) := by
  have hw : Vouched w l i { r with session := r.session.withdraw (w i) path } :=
    { h with session := fun t ht => h.session t (Session.mem_withdraw.mp ht).1 }
  cases he : erase (w i) r path with
  | error left =>
    rw [erase_error he]
    exact ⟨hw, fun _ hp _ => hp⟩
  | ok left =>
    obtain ⟨tree, ht, rfl⟩ := erase_ok he
    have hkey := l.key path (l.sub hg)
    have hdisk : ∀ p : Path, tree.disk[p]? = if path = p then none else r.disk[p]? :=
      Tree.getElem?_remove_key hkey ht
    have hkeeps : ∀ p ∈ r.disk, p ∉ l.gone → p ∈ tree.disk := by
      intro p hp hn
      have hne : path ≠ p := fun he => hn (he ▸ hg)
      rwa [PathMap.mem_iff, hdisk, if_neg hne, ← PathMap.mem_iff]
    refine ⟨{ hw with
      disk := fun p file hf => ?_
      directories := fun p hp => h.directories p (Tree.directories_remove ht p hp)
      former := fun p hp => ⟨(h.former p hp).1, fun hn => hkeeps p ((h.former p hp).2 hn) hn⟩ },
      hkeeps⟩
    rw [hdisk] at hf
    split at hf
    · cases hf
    · exact h.disk p file hf

theorem adopted (h : Vouched w l i r) {theirs : TombstoneMap} (hg : ∀ p ∈ theirs, p ∈ l.gone)
    (now : TimePoint) :
    Ends (fun s => Carries w l i r s.1) (Carries w l i r) (adopt (w i) theirs now r) := by
  refine ends_foldlM h.refl fun e he s hs => ?_
  obtain ⟨path, moment⟩ := e
  obtain ⟨s, deleted⟩ := s
  have hp := hg path (PathMap.mem_iff.mpr
    ⟨moment, (getElem?_adoptable.mp (PathMap.mem_toList.mp he)).1⟩)
  cases hc : s.former.contains path with
  | false =>
    rw [adoptOne_unheld hc]
    exact ⟨hs.accounted.marked hp moment, hs.keeps⟩
  | true =>
    have hu := (hs.accounted.unlisted path hp moment).erased hp
    rw [adoptOne_held hc]
    cases hx : erase (w i) (s.unlisted path moment) path with
    | error left =>
      rw [hx] at hu
      exact ⟨hu.accounted, fun q hq hn => hu.keeps q (hs.keeps q hq hn) hn⟩
    | ok left =>
      rw [hx] at hu
      exact ⟨hu.accounted.forgot path, fun q hq hn => hu.keeps q (hs.keeps q hq hn) hn⟩

/-- A stamp lists its own path, and only where there is a file or one is gone. -/
theorem stamped (h : Vouched w l i r) (hp : path ∈ l.known) {writtenBy : FileTime}
    (hs : StampsAs (w i) r path writtenBy r') : Carries w l i r r' := by
  have hkey := l.key path hp
  have hthere : ∀ {time : FileTime}, r.lastWriteTime (w i) path = some time →
      path ∉ l.gone → path ∈ r.disk := by
    intro time ht hn
    rw [Tree.lastWriteTime_clear hkey fun hd => hn (h.directories path hd hp)] at ht
    obtain ⟨file, hf, -⟩ := Option.map_eq_some_iff.mp ht
    exact PathMap.mem_iff.mpr ⟨file, hf⟩
  have hinsert : ∀ (time : FileTime), (path ∉ l.gone → path ∈ r.disk) → ∀ q ∈ r.former.insert path time,
      q ∈ l.known ∧ (q ∉ l.gone → q ∈ r.disk) := by
    intro time ht q hq
    rcases PathMap.mem_insert.mp hq with rfl | hq
    · exact ⟨hp, ht⟩
    · exact h.former q hq
  cases hs with
  | absent => exact h.refl
  | edited => exact ⟨{ h with }, fun _ hq _ => hq⟩
  | kept present => exact ⟨{ h with former := hinsert _ (hthere present) }, fun _ hq _ => hq⟩
  | @stamped time origin present =>
    have hplaces : Tree.SamePlaces (r.toTree.stamp (w i) path origin) r.toTree :=
      Tree.samePlaces_stamp origin
    refine ⟨⟨fun q file hf => ?_, fun q hq => h.directories q ((hplaces.directories q).mp hq),
      fun q hq => ?_, h.tombstones, h.session, h.announcements⟩,
      fun q hq _ => (hplaces.disk q).mpr hq⟩
    · have hf : (r.stamp (w i) path origin).disk[q]? = some file := hf
      rw [Tree.getElem?_stamp] at hf
      split at hf
      · obtain ⟨before, hbefore, rfl⟩ := Option.map_eq_some_iff.mp hf
        exact h.disk q before hbefore
      · exact h.disk q file hf
    · obtain ⟨hk, hd⟩ := hinsert origin (hthere present) q hq
      exact ⟨hk, fun hn => (hplaces.disk q).mpr (hd hn)⟩

theorem applied (h : Vouched w l i r) {v : List Bytes} {torrent : TorrentInfo}
    (hp : announcedPath v ∈ l.known) (hl : Lands (w i) (announcedPath v) torrent)
    (hd : Drawn l.written (announcedPath v) torrent.content)
    (hb : ∃ j content, Drawn l.written (announcedPath v) content ∧
      part v 1 = (w j).generateBuf (announcedPath v) content) :
    Carries w l i r (r.applied (w i) v torrent) := by
  have hserving : Vouched w l i (r.serving (w i) v torrent) :=
    { h.revived (announcedPath v) with
      session := fun t ht => by
        rw [← session_applied] at ht
        rcases torrents_applied (w i) r v torrent with ⟨left, he, -, hleft⟩ | ⟨-, hold⟩
        · rw [he, List.mem_append, List.mem_singleton] at ht
          rcases ht with ht | rfl
          · exact h.session t (hleft t ht).1
          · obtain ⟨hsits, hheld⟩ := Tidy.sits_added (s := r.session) hl
            exact ⟨hsits, hheld ▸ hp, hheld ▸ hd⟩
        · exact h.session t (hold t ht).1 }
  have hfollow : ∀ {left : Replica}, Carries w l i r left → Carries w l i r { left with
      repairs := r.repairs.follow (announcedPath v) (part v 1) ⟨originOf v, torrent.infoHash⟩ } := by
    intro left hc
    refine ⟨{ hc.accounted with announcements := fun p b hpb => ?_ }, hc.keeps⟩
    rw [Repairs.follow, PathMap.getElem?_insert] at hpb
    split at hpb
    · next he =>
      obtain rfl := Option.some.inj hpb
      exact he ▸ hb
    · exact h.announcements p b hpb
  obtain ⟨left, he, hleft⟩ := applied_cases (w i) r v torrent
  rw [he]
  rcases hleft with ⟨-, hs⟩ | ⟨-, rfl⟩
  · have hst := hserving.stamped hp hs
    exact hfollow ⟨hst.accounted, hst.keeps⟩
  · exact hfollow ⟨hserving, fun _ hq _ => hq⟩

/-- Whatever becomes of a message of the swarm, the replica is accounted for. -/
theorem received (h : Vouched w l i r) (hw : SharedTorrents w (Drawn l.written)) {v : List Bytes}
    (hv : Accountable w l v) (clock : TimePoint) (steady : SteadyTime) :
    Ends (Carries w l i r) (Carries w l i r) (receiveOne (w i) v clock steady r) := by
  have hr := SyncFs.received (w i) v clock steady r
  generalize receiveOne (w i) v clock steady r = x at hr
  generalize applies (w i) v r = b at hr
  cases hr with
  | rejected => exact h.refl
  | @removed path left removes erased =>
    have hg := hv.removes removes
    have he := h.erased hg
    rw [erased] at he
    exact ⟨(he.accounted.marked hg _).forgot path, he.keeps⟩
  | removeRaised removes raised =>
    have he := h.erased (hv.removes removes)
    rw [raised] at he
    exact he
  | loadRaised => exact ⟨h.revived _, fun _ hq _ => hq⟩
  | refused => exact ⟨h.revived _, fun _ hq _ => hq⟩
  | @applied torrent creates undefeated loads won =>
    obtain ⟨hp, j, content, hd, hb⟩ := hv.creates creates
    obtain ⟨torrent', hload, hc, hl⟩ := hw.lands j i (l.key _ hp) hd
    have ht : torrentOf (w i) v = some torrent' := by rw [torrentOf, hb, hload]
    obtain rfl := Option.some.inj (loads.symm.trans ht)
    exact h.applied hp hl (hc ▸ hd) ⟨j, content, hd, hb⟩
  | state => exact ⟨{ h with }, fun _ hq _ => hq⟩
  | digest addressed adopted pending =>
    have ha := h.adopted (hv.deletes addressed) clock
    rw [adopted] at ha
    exact ⟨{ ha.accounted with }, ha.keeps⟩
  | digestRaised addressed raised =>
    have ha := h.adopted (hv.deletes addressed) clock
    rw [raised] at ha
    exact ha

theorem placed (h : Vouched w l i r) (hp : path ∈ l.known) {file : File}
    (hd : Drawn l.written path file.content) :
    Carries w l i r { r with disk := r.disk.insert path file } := by
  have hkeeps : ∀ q ∈ r.disk, q ∈ r.disk.insert path file :=
    fun q hq => PathMap.mem_insert.mpr (.inr hq)
  refine ⟨⟨fun q found hf => ?_, h.directories, fun q hq => ?_, h.tombstones, h.session,
    h.announcements⟩, fun q hq _ => hkeeps q hq⟩
  · have hf : (r.disk.insert path file)[q]? = some found := hf
    rw [PathMap.getElem?_insert] at hf
    split at hf
    · next he =>
      obtain rfl := Option.some.inj hf
      exact fun _ => he ▸ ⟨hp, hd⟩
    · exact h.disk q found hf
  · exact ⟨(h.former q hq).1, fun hg => hkeeps q ((h.former q hq).2 hg)⟩

/-- What libtorrent does to a torrent leaves it where it sits. -/
theorem modified (h : Vouched w l i r) (handle : ℕ) {f : Torrent → Torrent} (hf : Gentle f) :
    Vouched w l i { r with session := r.session.modify handle f } :=
  { h with
    session := fun t ht => by
      obtain ⟨u, hu, -, -, hi, hs⟩ := Session.mem_modify_gentle hf ht
      have hsame : (w i).heldPath t = (w i).heldPath u ∧ (w i).spot t = (w i).spot u := by
        rw [World.heldPath, World.heldPath, World.spot, World.spot, hi, hs]
        exact ⟨rfl, rfl⟩
      rw [Sits, hsame.1, hsame.2, hi, hs]
      exact h.session u hu }

end Vouched

/-- What other processes do to the tree is in the ledger. -/
def SwarmLedger.Allows (l : SwarmLedger) : Event → Prop
  | .localWrite path file => path.IsKey → path ∈ l.known ∧ (path, file.content) ∈ l.written
  | .localDelete path => path ∈ l.known → path ∈ l.gone
  | .directory path (some _) => path ∈ l.known → path ∈ l.gone
  | .woken (some missed) => ∀ path ∈ missed, path ∈ l.known → path ∈ l.gone
  | _ => True

structure Orderly (w : ι → World) (l : SwarmLedger) (i : ι) (n : Node) : Prop where
  accounted : Vouched w l i n.replica
  sending : VouchedSending l n

/-- What a node has become: orderly still, without a file only if that is gone,
and with nothing said that is not accounted for. -/
structure Proceeds (w : ι → World) (l : SwarmLedger) (i : ι) (n m : Node) : Prop where
  orderly : Orderly w l i m
  keeps : ∀ p ∈ n.replica.disk, p.IsKey → p ∉ l.gone → p ∈ m.replica.disk
  said : ∀ v ∈ m.sent, v ∈ n.sent ∨ Accountable w l v

section Steps

variable {w : ι → World} {l : SwarmLedger} {i : ι} {n m : Node} {e : Event}

/-- A step that says nothing, and has no listing in hand that it has not had. -/
theorem Carries.proceeds (hc : Carries w l i n.replica m.replica) (hn : VouchedSending l n)
    (hp : ∀ diff current, m.pc = .sending diff current → n.pc = .sending diff current)
    (hs : m.sent = n.sent) : Proceeds w l i n m where
  orderly := ⟨hc.accounted, fun diff current hm => by
    obtain ⟨hr, hcr, hmo, hcu⟩ := hn diff current (hp diff current hm)
    exact ⟨hr, hcr, hmo, fun p hp =>
      ⟨(hcu p hp).1, fun hg => hc.keeps p ((hcu p hp).2 hg) hg⟩⟩⟩
  keeps p hp _ hg := hc.keeps p hp hg
  said v hv := .inl (hs ▸ hv)

theorem Vouched.touched (h : Vouched w l i n.replica) {handle : ℕ} {t : Torrent}
    (ht : n.replica.session.find handle = some t) {file : File}
    (hd : Drawn l.written ((w i).heldPath t) file.content) {f : Torrent → Torrent}
    (hf : Gentle f) : Carries w l i n.replica (n.touch (w i) t file f).replica := by
  obtain ⟨hsits, hknown, -⟩ := h.session t (Session.mem_of_find ht).1
  have hp := h.placed (hsits.2.2.symm ▸ hknown) (hsits.2.2.symm ▸ hd)
  exact ⟨hp.accounted.modified t.handle hf, hp.keeps⟩

theorem Vouched.drawn (h : Vouched w l i n.replica) {handle : ℕ} {t : Torrent}
    (ht : n.replica.session.find handle = some t) {file : File}
    (hf : n.replica.disk[(w i).spot t]? = some file) :
    Drawn l.written ((w i).heldPath t) file.content := by
  obtain ⟨hsits, -⟩ := h.session t (Session.mem_of_find ht).1
  rw [hsits.2.2] at hf
  exact (h.disk _ file hf hsits.1).2

theorem Vouched.processed (h : Vouched w l i n.replica) (alert : Alert) :
    Carries w l i n.replica (processAlert (w i) n alert) := by
  have hq := SyncFs.processed (w i) n alert
  generalize processAlert (w i) n alert = r at hq
  cases hq with
  | skipped => exact h.refl
  | finished => exact ⟨h.modified _ gentle_flushing, fun _ hp _ => hp⟩
  | flushed _ found stamps => exact h.stamped (h.session _ (Session.mem_of_find found).1).2.1 stamps

/-- A listed path that is gone from the directory, or missed, has been deleted. -/
theorem Orderly.listed (h : Orderly w l i n) {missed : List Path}
    (ha : l.Allows (.woken (some missed))) :
    Proceeds w l i n (listChanges n (n.replica.disk.listBut missed)) := by
  generalize hl : n.replica.disk.listBut missed = current
  have hcurrent : ∀ p ∈ current, p ∈ l.known ∧ (p ∉ l.gone → p ∈ n.replica.disk) := by
    intro p hp
    obtain ⟨hkey, hd⟩ := Disk.mem_list.mp (Disk.mem_listBut.mp (hl ▸ hp)).1
    obtain ⟨file, hf⟩ := PathMap.mem_iff.mp hd
    exact ⟨(h.accounted.disk p file hf hkey).1, fun _ => hd⟩
  have hgone : ∀ p ∈ n.replica.former, p ∉ current → p ∈ l.gone := by
    intro p hp hc
    obtain ⟨hk, hd⟩ := h.accounted.former p hp
    by_contra hg
    refine hc (hl ▸ Disk.mem_listBut.mpr ⟨?_, fun hm => hg (ha p hm hk)⟩)
    exact Disk.mem_list.mpr ⟨l.key p hk, hd hg⟩
  refine ⟨⟨{ h.accounted with tombstones := fun p hp => ?_ }, ?_⟩, fun _ hp _ _ => hp,
    fun _ hv => .inl hv⟩
  · have hp : p ∈ (changesAt n current).2 := hp
    rw [PathMap.mem_iff] at hp
    by_cases hc : p ∈ current
    · obtain ⟨t, ht⟩ := PathMap.mem_iff.mp hc
      rw [changesAt, localChanges_tombstones_listed ht] at hp
      obtain ⟨moment, hm⟩ := hp
      exact h.accounted.tombstones p
        (PathMap.mem_iff.mpr ⟨moment, (Option.filter_eq_some_iff.mp hm).1⟩)
    · rw [changesAt, localChanges_tombstones hc] at hp
      split at hp
      · next hf => exact hgone p hf.1 hc
      · exact h.accounted.tombstones p (PathMap.mem_iff.mpr hp)
  · rintro diff current ⟨⟩
    refine ⟨fun p hp => ?_, fun p hp => ?_, fun p hp => ?_, hcurrent⟩
    · obtain ⟨hf, hc⟩ := gone_of_removed hp
      exact hgone p hf hc
    · exact (hcurrent p (listed_of_announced (.inl hp))).1
    · exact (hcurrent p (listed_of_announced (.inr hp))).1

/-- What is sent was listed, and read off the disk or found gone. -/
theorem Orderly.sent (h : Orderly w l i n) {diff : Diff} {current : FileMap}
    (hp : n.pc = .sending diff current) : Proceeds w l i n (sendChanges (w i) n diff current) := by
  obtain ⟨hr, hc, hm, hcurrent⟩ := h.sending diff current hp
  refine ⟨⟨{ h.accounted with
    former := hcurrent
    tombstones := fun p hp => h.accounted.tombstones p (mem_of_mem_expire hp) }, ?_⟩,
    fun _ hp _ _ => hp, fun v hv => ?_⟩
  · rintro diff current ⟨⟩
  · have hall : ∀ {set : FileMap}, (∀ p ∈ set, p ∈ l.known) →
        v ∈ announceAll (w i) n.replica.toTree current set → Accountable w l v := by
      intro set hset hv
      obtain ⟨e, he, file, hf, rfl⟩ := mem_announceAll.mp hv
      have hp := hset e.1 (PathMap.mem_iff.mpr ⟨e.2, PathMap.mem_toList.mp he⟩)
      rw [Option.mem_def, Tree.find_key (l.key _ hp)] at hf
      exact .create _ hp (h.accounted.disk _ file hf (l.key _ hp)).2
    rcases List.mem_append.mp hv with hv | hv
    · exact .inl hv
    · refine .inr ?_
      rcases List.mem_append.mp hv with hv | hv
      · rcases List.mem_append.mp hv with hv | hv
        · obtain ⟨e, he, rfl⟩ := List.mem_map.mp hv
          exact .remove _ (hr e.1 (PathMap.mem_iff.mpr ⟨e.2, PathMap.mem_toList.mp he⟩))
        · exact hall hc hv
      · exact hall hm hv

theorem Orderly.repaired (h : Orderly w l i n) : Proceeds w l i n (sendRepairs (w i) n) := by
  refine ⟨⟨{ h.accounted with }, ?_⟩, fun _ hp _ _ => hp, fun v hv => ?_⟩
  · rintro diff current ⟨⟩
  · rcases List.mem_append.mp hv with hv | hv
    · exact .inl hv
    · refine .inr ?_
      obtain ⟨p, t, b, ht, rfl, hb⟩ := mem_publishRepairs hv
      have hp := (h.accounted.former p (PathMap.mem_iff.mpr ⟨t, ht⟩)).1
      rcases hb with hb | ⟨file, hf, rfl⟩
      · obtain ⟨j, content, hd, rfl⟩ := h.accounted.announcements p b hb
        exact .create t hp hd
      · rw [Tree.find_key (l.key _ hp)] at hf
        exact .create t hp (h.accounted.disk _ file hf (l.key _ hp)).2

theorem Orderly.published (h : Orderly w l i n) (draw : ℕ) :
    Proceeds w l i n
      { if stateDue n then publishState (w i) n draw else n with pc := .repair } := by
  have hsame : Carries w l i n.replica
      (if stateDue n then publishState (w i) n draw else n).replica := by
    split
    · exact ⟨{ h.accounted with }, fun _ hp _ => hp⟩
    · exact h.accounted.refl
  refine ⟨⟨hsame.accounted, ?_⟩, fun p hp _ hg => hsame.keeps p hp hg, fun v hv => ?_⟩
  · rintro diff current ⟨⟩
  · dsimp only at hv
    split at hv
    · rcases List.mem_append.mp hv with hv | hv
      · exact .inl hv
      · refine .inr ?_
        rcases List.mem_cons.mp hv with rfl | hv
        · exact .state i _
        · obtain ⟨target, -, rfl⟩ := List.mem_map.mp hv
          exact .digest target (fun p hp => (h.accounted.former p hp).1) h.accounted.tombstones
    · exact .inl hv

theorem Orderly.deleted (h : Orderly w l i n) {path : Path} (ha : l.Allows (.localDelete path)) :
    Proceeds w l i n
      { n with replica := { n.replica with disk := n.replica.disk.erase path } } := by
  have hkeeps : ∀ p ∈ n.replica.disk, p ∈ l.known → p ∉ l.gone → p ∈ n.replica.disk.erase path := by
    intro p hp hk hg
    refine PathMap.mem_erase.mpr ⟨?_, hp⟩
    rintro rfl
    exact hg (ha hk)
  have hthere : ∀ p, p ∈ l.known ∧ (p ∉ l.gone → p ∈ n.replica.disk) →
      p ∈ l.known ∧ (p ∉ l.gone → p ∈ n.replica.disk.erase path) :=
    fun p hp => ⟨hp.1, fun hg => hkeeps p (hp.2 hg) hp.1 hg⟩
  refine ⟨⟨⟨fun p file hf => ?_, h.accounted.directories,
    fun p hp => hthere p (h.accounted.former p hp), h.accounted.tombstones, h.accounted.session, h.accounted.announcements⟩,
    fun diff current hp => ?_⟩, fun p hp hkey hg => ?_, fun _ hv => .inl hv⟩
  · have hf : (n.replica.disk.erase path)[p]? = some file := hf
    rw [PathMap.getElem?_erase] at hf
    split at hf
    · cases hf
    · exact h.accounted.disk p file hf
  · obtain ⟨hr, hc, hm, hcurrent⟩ := h.sending diff current hp
    exact ⟨hr, hc, hm, fun p hp => hthere p (hcurrent p hp)⟩
  · obtain ⟨file, hf⟩ := PathMap.mem_iff.mp hp
    exact hkeeps p hp (h.accounted.disk p file hf hkey).1 hg

theorem Orderly.began (h : Orderly w l i n) : Proceeds w l i n (beginPass n) := by
  rw [beginPass]
  split
  · refine Carries.proceeds ?_ h.sending (by rintro _ _ ⟨⟩) rfl
    exact h.accounted.refl
  · refine Carries.proceeds ?_ h.sending (by rintro _ _ ⟨⟩) rfl
    exact h.accounted.refl

theorem Orderly.received (h : Orderly w l i n) (hw : SharedTorrents w (Drawn l.written)) {v : List Bytes}
    (hv : Accountable w l v) : Proceeds w l i n (takeIn (w i) n v) := by
  have hr := h.accounted.received hw hv n.clock n.steady
  rw [takeIn]
  cases ho : receiveOne (w i) v n.clock n.steady n.replica with
  | error r =>
    rw [ho] at hr
    refine Carries.proceeds ?_ h.sending (by rintro _ _ ⟨⟩) rfl
    exact hr
  | ok r =>
    rw [ho] at hr
    refine Carries.proceeds ?_ h.sending (by rintro _ _ ⟨⟩) rfl
    exact hr

theorem Orderly.changed (h : Orderly w l i n) {path : Path} {time : Option FileTime}
    (ha : l.Allows (.directory path time)) {directories : PathMap FileTime}
    (hc : n.replica.changeDirectory path time = some directories) :
    Proceeds w l i n
      { n with replica := { n.replica with directories := directories } } := by
  refine Carries.proceeds ?_ h.sending (fun _ _ hp => hp) rfl
  refine ⟨{ h.accounted with directories := fun p hp hk => ?_ }, fun _ hp _ => hp⟩
  rcases Tree.mem_changeDirectory hc hp with hp | ⟨rfl, t, rfl⟩
  · exact h.accounted.directories p hp hk
  · exact ha hk

/-- Whatever the node does next, it stays accounted for. -/
theorem Orderly.step (h : Orderly w l i n) (hw : SharedTorrents w (Drawn l.written)) (ha : l.Allows e)
    (hv : ∀ v ∈ messageOf e, Accountable w l v) (hs : Stepped (w i) n e m) :
    Proceeds w l i n m := by
  cases hs with
  | tick | post =>
    refine Carries.proceeds ?_ h.sending (fun _ _ hp => hp) rfl
    exact h.accounted.refl
  | localWrite key =>
    refine Carries.proceeds ?_ h.sending (fun _ _ hp => hp) rfl
    exact h.accounted.placed (ha key).1 (.of_mem (ha key).2)
  | localDelete => exact h.deleted ha
  | directory changes => exact h.changed ha changes
  | ltOpen found =>
    refine Carries.proceeds ?_ h.sending (fun _ _ hp => hp) rfl
    exact h.accounted.touched found (.opened fun f hf => h.accounted.drawn found hf) gentle_open
  | ltWrite found present =>
    have ht := (h.accounted.session _ (Session.mem_of_find found).1).2.2
    have hold := h.accounted.drawn found present
    refine Carries.proceeds ?_ h.sending (fun _ _ hp => hp) rfl
    exact h.accounted.touched found (ht.overwritten hold _ _) (gentle_onDisk _ _)
  | ltVerify =>
    refine Carries.proceeds ?_ h.sending (fun _ _ hp => hp) rfl
    exact ⟨h.accounted.modified _ (gentle_onDisk _ _), fun _ hp _ => hp⟩
  | ltState =>
    refine Carries.proceeds ?_ h.sending (fun _ _ hp => hp) rfl
    exact ⟨h.accounted.modified _ (gentle_state _), fun _ hp _ => hp⟩
  | top => exact h.began
  | test =>
    refine Carries.proceeds ?_ h.sending ?_ rfl
    · exact h.accounted.refl
    · intro diff current hp
      dsimp only at hp
      split at hp <;> cases hp
  | pop | processed | clear | idle | nothing =>
    refine Carries.proceeds ?_ h.sending (by rintro _ _ ⟨⟩) rfl
    exact h.accounted.refl
  | process =>
    refine Carries.proceeds ?_ h.sending (by rintro _ _ ⟨⟩) rfl
    exact h.accounted.processed _
  | send hp => exact h.sent hp
  | repair => exact h.repaired
  | list => exact h.listed ha
  | round => exact h.published _
  | receive => exact h.received hw (hv _ rfl)

end Steps

section Runs

variable {w : ι → World} {l : SwarmLedger}
variable {disks : ι → Disk} {clocks : ι → TimePoint} {steadies : ι → SteadyTime}
variable {h : History (ι → Node) (ι × Event)} {s : ι → Node}

theorem orderly_start {i : ι} (hk : ∀ p file, (disks i)[p]? = some file → p.IsKey →
    p ∈ l.known ∧ (p, file.content) ∈ l.written)
    (hg : ∀ p ∈ disks i, ∀ d ∈ p.above, d ∈ l.known → d ∈ l.gone) :
    Orderly w l i (swarmStart disks clocks steadies i) where
  accounted :=
    { disk := fun p file hf hkey => ⟨(hk p file hf hkey).1, .of_mem (hk p file hf hkey).2⟩
      directories := fun d hd hk => by
        obtain ⟨p, hp, hdp⟩ := Tree.mem_directories.mp hd
        exact hg p hp d hdp hk
      former := fun p hp => by
        obtain ⟨hkey, hd⟩ := Disk.mem_list.mp hp
        obtain ⟨file, hf⟩ := PathMap.mem_iff.mp hd
        exact ⟨(hk p file hf hkey).1, fun _ => hd⟩
      tombstones := fun p hp => absurd hp Std.ExtTreeMap.not_mem_empty
      session := fun t ht => absurd ht List.not_mem_nil
      announcements := fun p b hb => by
        rw [show (swarmStart disks clocks steadies i).replica.repairs.announcements = ∅ from rfl,
          Std.ExtTreeMap.getElem?_empty] at hb
        cases hb }
  sending := by rintro diff current ⟨⟩

/-- What processes have put into the tree of some node, before or meanwhile. -/
def Placed (disks : ι → Disk) (h : History (ι → Node) (ι × Event)) : Set (Path × Bytes) :=
  {x | (∃ i file, (disks i)[x.1]? = some file ∧ file.content = x.2) ∨
    ∃ y ∈ h, ∃ file, y.2.2 = .localWrite x.1 file ∧ file.content = x.2}

def TakenAway (h : History (ι → Node) (ι × Event)) : Set Path :=
  {p | ∃ x ∈ h, x.2.2 = .localDelete p}

/-- Where a directory stood or was made at some node, and what a listing missed. -/
def Hidden (disks : ι → Disk) (h : History (ι → Node) (ι × Event)) : Set Path :=
  {p | (∃ i, ∃ q ∈ disks i, p ∈ q.above) ∨ ∃ x ∈ h, p ∈ x.2.2.hides}

/-- A directory stands where a file of the swarm belongs, and a listing misses
such a file, only if some process deletes it. -/
def Unhidden (disks : ι → Disk) (h : History (ι → Node) (ι × Event)) : Prop :=
  ∀ path ∈ Hidden disks h, (∃ content, (path, content) ∈ Placed disks h) → path ∈ TakenAway h

theorem unhidden_of_nil {disks : ι → Disk} {h : History (ι → Node) (ι × Event)}
    (hd : ∀ i, ∀ q ∈ (disks i).keys, ∀ d ∈ q.above, d ∈ TakenAway h)
    (hn : ∀ x ∈ h, x.2.2.hides = []) : Unhidden disks h := by
  rintro path (⟨i, q, hq, hp⟩ | ⟨x, hx, hp⟩) -
  · exact hd i q (Std.ExtTreeMap.mem_keys.mpr hq) path hp
  · rw [hn x hx] at hp
    cases hp

def ledgerOf (disks : ι → Disk) (h : History (ι → Node) (ι × Event)) (gone : Set Path) :
    SwarmLedger where
  known := {p | p.IsKey ∧ ∃ content, (p, content) ∈ Placed disks h}
  gone := {p | (p.IsKey ∧ ∃ content, (p, content) ∈ Placed disks h) ∧ p ∈ gone}
  written := Placed disks h
  key _ h := h.1
  sub _ h := h.1

structure Leaves (disks : ι → Disk) (h : History (ι → Node) (ι × Event)) (gone : Set Path) :
    Prop where
  deleted : TakenAway h ⊆ gone
  hidden : ∀ path ∈ Hidden disks h, (∃ content, (path, content) ∈ Placed disks h) → path ∈ gone

theorem leaves_univ : Leaves disks h Set.univ := ⟨Set.subset_univ _, fun _ _ _ => trivial⟩

variable {gone : Set Path}

theorem starts_ledgerOf (i : ι) (p : Path) (file : File) (hf : (disks i)[p]? = some file)
    (hkey : p.IsKey) : p ∈ (ledgerOf disks h gone).known ∧
      (p, file.content) ∈ (ledgerOf disks h gone).written := by
  have hp : (p, file.content) ∈ Placed disks h := .inl ⟨i, file, hf, rfl⟩
  exact ⟨⟨hkey, _, hp⟩, hp⟩

theorem hidden_ledgerOf (hg : Leaves disks h gone) (i : ι) {p d : Path} (hp : p ∈ disks i)
    (hd : d ∈ p.above) (hk : d ∈ (ledgerOf disks h gone).known) :
    d ∈ (ledgerOf disks h gone).gone :=
  ⟨hk, hg.hidden d (.inl ⟨i, p, hp, hd⟩) hk.2⟩

theorem allows_ledgerOf (hg : Leaves disks h gone) {x : (ι → Node) × ι × Event} (hx : x ∈ h) :
    (ledgerOf disks h gone).Allows x.2.2 := by
  obtain ⟨s, i, e⟩ := x
  cases e with
  | localWrite path file =>
    intro hkey
    have hp : (path, file.content) ∈ Placed disks h := .inr ⟨_, hx, file, rfl, rfl⟩
    exact ⟨⟨hkey, _, hp⟩, hp⟩
  | localDelete path => exact fun hk => ⟨hk, hg.deleted ⟨_, hx, rfl⟩⟩
  | directory path time =>
    cases time with
    | none => trivial
    | some t => exact fun hk => ⟨hk, hg.hidden path (.inr ⟨_, hx, List.mem_singleton_self path⟩) hk.2⟩
  | woken missed =>
    cases missed with
    | none => trivial
    | some missed => exact fun path hp hk => ⟨hk, hg.hidden path (.inr ⟨_, hx, hp⟩) hk.2⟩
  | _ => trivial

variable [DecidableEq ι] [Fintype ι]

/-- The whole of a swarm is accounted for, whatever has been heard of it, late,
again or never. -/
theorem vouched_of_run (hw : SharedTorrents w (Drawn l.written))
    (hk : ∀ i p file, (disks i)[p]? = some file → p.IsKey →
      p ∈ l.known ∧ (p, file.content) ∈ l.written)
    (hg : ∀ i, ∀ p ∈ disks i, ∀ d ∈ p.above, d ∈ l.known → d ∈ l.gone)
    (hr : Run (swarmStep w) (swarmStart disks clocks steadies) h s)
    (ha : ∀ x ∈ h, l.Allows x.2.2) :
    (∀ i, Orderly w l i (s i)) ∧ (∀ i, ∀ v ∈ (s i).sent, Accountable w l v) ∧
      ∀ x ∈ h, ∀ i, ∀ p ∈ (x.1 i).replica.disk, p.IsKey → p ∉ l.gone →
        p ∈ (s i).replica.disk := by
  have hstart : ∀ i, Orderly w l i (swarmStart disks clocks steadies i) :=
    fun i => orderly_start (hk i) (hg i)
  have hsaid : ∀ i, ∀ v ∈ ((w i).party).said (swarmStart disks clocks steadies i),
      Accountable w l v := fun i v hv => absurd hv List.not_mem_nil
  have hstep : ∀ (s : ι → Node) (i : ι) (e : Event) (m : Node), Orderly w l i (s i) →
      (∀ v ∈ messageOf e, Accountable w l v) → l.Allows e → step (w i) (s i) e = some m →
      Proceeds w l i (s i) m := fun s i e m ho hv he hs => ho.step hw he hv (stepped (w i) hs)
  have hc : Always (fun _ _ e => l.Allows e.2) h := always_of_forall (c := fun _ e => l.Allows e.2) ha
  obtain ⟨hall, hair⟩ := rely_guarantee (c := fun _ e => l.Allows e.2) hstart hsaid
    (fun s i e m ho hv he hs => ⟨(hstep s i e m ho hv he hs).orderly, (hstep s i e m ho hv he hs).said⟩)
    hr hc
  refine ⟨hall, fun i v hv => hair v ⟨i, hv⟩, ?_⟩
  refine kept_since (c := fun _ e => l.Allows e.2)
    (R := fun _ n m => ∀ p ∈ n.replica.disk, p.IsKey → p ∉ l.gone → p ∈ m.replica.disk)
    (fun _ _ _ hp _ _ => hp) (fun _ _ _ _ hst htu p hp hk hg => htu p (hst p hp hk hg) hk hg)
    hstart hsaid (fun s i e m ho hv he hs => ?_) hr hc
  have hp := hstep s i e m ho hv he hs
  exact ⟨hp.keeps, hp.orderly, hp.said⟩

theorem vouched_ledgerOf (hw : SharedTorrents w (Drawn (Placed disks h)))
    (hg : Leaves disks h gone)
    (hr : Run (swarmStep w) (swarmStart disks clocks steadies) h s) :
    (∀ i, Orderly w (ledgerOf disks h gone) i (s i)) ∧
      (∀ i, ∀ v ∈ (s i).sent, Accountable w (ledgerOf disks h gone) v) ∧
      ∀ x ∈ h, ∀ i, ∀ p ∈ (x.1 i).replica.disk, p.IsKey → p ∉ (ledgerOf disks h gone).gone →
        p ∈ (s i).replica.disk :=
  vouched_of_run hw starts_ledgerOf (fun i _ hp _ hd hk => hidden_ledgerOf hg i hp hd hk) hr
    fun _ => allows_ledgerOf hg

/-- Nothing is in a swarm that no process put there: every path a node has on
disk, lists, remembers or says is one some process placed, and every byte at it
was put there under that path, at that place. -/
theorem nothing_from_nowhere (hw : SharedTorrents w (Drawn (Placed disks h)))
    (hr : Run (swarmStep w) (swarmStart disks clocks steadies) h s) (i : ι) :
    (∀ p file, (s i).replica.disk[p]? = some file → p.IsKey →
      (∃ content, (p, content) ∈ Placed disks h) ∧ Drawn (Placed disks h) p file.content) ∧
    (∀ p ∈ (s i).replica.former, ∃ content, (p, content) ∈ Placed disks h) ∧
    (∀ t ∈ (s i).replica.session.torrents,
      (∃ content, ((w i).spot t, content) ∈ Placed disks h) ∧
        Drawn (Placed disks h) ((w i).spot t) t.info.content) ∧
    ∀ v ∈ (s i).sent, verbOf (part v 0) = ascii "create" →
      (∃ content, (announcedPath v, content) ∈ Placed disks h) ∧
        ∀ j, ∀ torrent ∈ torrentOf (w j) v,
          Drawn (Placed disks h) (announcedPath v) torrent.content := by
  obtain ⟨hall, hair, -⟩ := vouched_ledgerOf hw leaves_univ hr
  have ha := (hall i).accounted
  refine ⟨fun p file hf hkey => ?_, fun p hp => (ha.former p hp).1.2, fun t ht => ?_,
    fun v hv hverb => ?_⟩
  · obtain ⟨hk, hd⟩ := ha.disk p file hf hkey
    exact ⟨hk.2, hd⟩
  · obtain ⟨hsits, hk, hd⟩ := ha.session t ht
    rw [hsits.2.2]
    exact ⟨hk.2, hd⟩
  · obtain ⟨hk, j, content, hd, hb⟩ := (hair i v hv).creates hverb
    refine ⟨hk.2, fun i torrent ht => ?_⟩
    obtain ⟨torrent', hload, hc, -⟩ := hw.lands j i hk.1 hd
    have ht' : torrentOf (w i) v = some torrent' := by rw [torrentOf, hb, hload]
    obtain rfl := Option.some.inj (ht.symm.trans ht')
    exact hc ▸ hd

def fetched : List (Bool × Event) :=
  does false (.localWrite samplePath (sampleFile "xy" 900) :: pass true none) ++
    does true (pass false (some (sampleCreate "xy" 900)) ++ [.ltOpen 0, .ltWrite 0 1 1])

theorem fetched_from_somewhere :
    ∃ h s, Run (swarmStep samplePair) (swarmStart (fun _ => ∅) (fun _ => 1000) (fun _ => 0)) h s ∧
      ∃ file, (s true).replica.disk[samplePath]? = some file ∧ file.content = 0 :: ascii "y" ∧
        Drawn (Placed (fun _ => ∅) h) samplePath file.content := by
  obtain ⟨h, s, hr, hf⟩ := exists_run (swarmStep samplePair)
    (swarmStart (fun _ => ∅) (fun _ => 1000) (fun _ => 0)) fetched
    (fun _ s => (s true).replica.disk[samplePath]?.any fun file => file.content = 0 :: ascii "y")
    (by decide +kernel)
  obtain ⟨file, hfile, hc⟩ := (Option.any_eq_true _ _).mp hf
  obtain ⟨hdisk, -⟩ := nothing_from_nowhere (samplePair_shared _) hr true
  exact ⟨h, s, hr, file, hfile, of_decide_eq_true hc, (hdisk samplePath file hfile (by decide)).2⟩

/-- Nothing is deleted in a swarm that no process deleted: no node remembers,
asks for or passes on the deletion of a path no process has deleted anywhere,
and a file at such a path stays. -/
theorem deletes_what_was_deleted (hw : SharedTorrents w (Drawn (Placed disks h)))
    (hu : Unhidden disks h)
    (hr : Run (swarmStep w) (swarmStart disks clocks steadies) h s) (i : ι) :
    (∀ p ∈ (s i).replica.tombstones, p ∈ TakenAway h) ∧
    (∀ v ∈ (s i).sent, ∀ p ∈ removedPath v, p ∈ TakenAway h) ∧
    (∀ v ∈ (s i).sent, verbOf (part v 0) = ascii "digest" →
      ∀ p ∈ decodeTombstones (part v 2), p ∈ TakenAway h) ∧
    ∀ x ∈ h, ∀ p ∈ (x.1 i).replica.disk, p.IsKey → p ∉ TakenAway h → p ∈ (s i).replica.disk := by
  obtain ⟨hall, hair, hkept⟩ := vouched_ledgerOf hw ⟨Set.Subset.rfl, hu⟩ hr
  refine ⟨fun p hp => ((hall i).accounted.tombstones p hp).2,
    fun v hv p hp => ((hair i v hv).removes hp).2,
    fun v hv hverb p hp => ((hair i v hv).deletes hverb p hp).2, fun x hx p hp hkey hg => ?_⟩
  exact hkept x hx i p hp hkey fun hgone => hg hgone.2

def passedOn : List (Bool × Event) :=
  does false (.localDelete samplePath :: pass true none) ++
    does true (pass false (some (Source.remove samplePath 1000)))

theorem passedOn_was_deleted :
    ∃ h s, Run (swarmStep samplePair)
        (swarmStart (fun _ => sampleTree) (fun _ => 1000) (fun _ => 0)) h s ∧
      (s true).replica.disk[samplePath]? = none ∧ samplePath ∈ (s true).replica.tombstones ∧
      samplePath ∈ TakenAway h := by
  obtain ⟨h, s, hr, hhides, hgone, hgrave⟩ := exists_run (swarmStep samplePair)
    (swarmStart (fun _ => sampleTree) (fun _ => 1000) (fun _ => 0)) passedOn
    (fun h s => (∀ x ∈ h, x.2.2.hides = []) ∧ (s true).replica.disk[samplePath]? = none ∧
      samplePath ∈ (s true).replica.tombstones) (by decide +kernel)
  have hflat : ∀ q ∈ sampleTree.keys, q.above = [] := by decide +kernel
  exact ⟨h, s, hr, hgone, hgrave, (deletes_what_was_deleted (samplePair_shared _)
    (unhidden_of_nil (fun _ q hq d hd => absurd (hflat q hq ▸ hd) List.not_mem_nil) hhides) hr true).1 samplePath hgrave⟩

end Runs

end SyncFs
