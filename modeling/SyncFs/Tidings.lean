import SyncFs.CreateOrder
import SyncFs.SwarmHonesty

/-!
# What messages tell of a tree

A remove tells that a file is gone and a create that one is there, each to
whoever has the tree as it was before. What is told can be told in one order
or another and taken in by one means or another; the tree it is about is the same.
-/

namespace SyncFs

open CharConversions

/-- What there was, at some paths as it is next. -/
def brought {β : Type} (ps : List Path) (next before : Path → β) : Path → β :=
  fun p => if p ∈ ps then next p else before p

@[simp] theorem brought_nil {β : Type} (next before : Path → β) : brought [] next before = before := by
  funext p
  exact if_neg List.not_mem_nil

theorem brought_update {β : Type} {ps : List Path} (next before : Path → β) (p : Path) :
    brought ps next (Function.update before p (next p)) = brought (p :: ps) next before := by
  funext q
  rw [brought, brought, Function.update_apply]
  by_cases hq : q = p
  · simp [hq]
  · by_cases hm : q ∈ ps <;> simp [hq, hm]

/-- None of the directories is in the way of a file at a path. -/
def ClearOf (directories : PathMap FileTime) (p : Path) : Prop :=
  Tree.blocked ⟨∅, directories⟩ p = false

/-- Nor is anything in a tree. -/
def FreeAt (tree : Path → Option File) (p : Path) : Prop :=
  ∀ t : Tree, (∀ q : Path, t.disk[q]? = tree q) → ClearOf t.directories p → t.blocked p = false

section

variable (w : World) (named : ℕ → Path × Bytes)

/-- What a message tells of a tree, and of the last moment a path was deleted at. -/
inductive Tell (tree : Path → Option File) (since : Path → TimePoint) :
    List Bytes → (Path → Option File) → (Path → TimePoint) → Prop
  | remove {p : Path} {file : File} {now : TimePoint} (key : p.IsKey)
    (present : tree p = some file) (later : since p ≤ now) (ticks : InInt64 now) :
    Tell tree since (Source.remove p now) (Function.update tree p none)
      (Function.update since p now)
  | create {p : Path} {file : File} {v : List Bytes} {torrent : TorrentInfo}
    (announces : Announces w named p v torrent) (time : originOf v = file.mtime)
    (content : torrent.content = file.content) (free : FreeAt tree p)
    (newer : since p < file.mtime.toTicks)
    (older : ∀ old, tree p = some old → old.mtime.toTicks < file.mtime.toTicks) :
    Tell tree since v (Function.update tree p (some file)) since

inductive Told : (Path → Option File) → (Path → TimePoint) → List (List Bytes) →
    (Path → Option File) → (Path → TimePoint) → Prop
  | nil {tree : Path → Option File} {since : Path → TimePoint} : Told tree since [] tree since
  | cons {tree next last : Path → Option File} {since later latest : Path → TimePoint}
    {v : List Bytes} {vs : List (List Bytes)} (tell : Tell w named tree since v next later)
    (rest : Told next later vs last latest) : Told tree since (v :: vs) last latest

end

variable {w : World} {named : ℕ → Path × Bytes}
variable {tree next last : Path → Option File} {since later latest : Path → TimePoint}
variable {vs us : List (List Bytes)} {now : TimePoint} {p : Path}

instance (directories : PathMap FileTime) (p : Path) : Decidable (ClearOf directories p) := by
  unfold ClearOf
  infer_instance

theorem ClearOf.notMem {directories : PathMap FileTime} (h : ClearOf directories p) :
    p ∉ directories := by
  intro hp
  rw [ClearOf, Tree.blocked, Std.ExtTreeMap.contains_iff_mem.mpr hp] at h
  cases h

theorem removedPath_source (hp : p.IsKey) : removedPath (Source.remove p now) = some p :=
  congrArg some hp.ofNative_native

theorem receiveOne_gone {r : Replica} (hp : p.IsKey) (hnow : InInt64 now) {file : File}
    (hf : r.disk[p]? = some file) (clock : TimePoint) (steady : SteadyTime) :
    receiveOne w (Source.remove p now) clock steady r =
      .ok (({ r with session := r.session.withdraw w p, disk := r.disk.erase p } :
        Replica).removed p now) := by
  have hmoment : fromTicks (part (Source.remove p now) 2) = now := fromTicks_printInt hnow
  rw [receiveOne_remove (removedPath_source hp), erase_of_file hp hf, hmoment]
  rfl

theorem mark_le {tombstones : TombstoneMap}
    (hg : ∀ (q : Path) m, tombstones[q]? = some m → m ≤ since q) (hle : since p ≤ now) (q : Path)
    (m : TimePoint) (hm : (mark tombstones p now)[q]? = some m) :
    m ≤ Function.update since p now q := by
  rw [getElem?_mark] at hm
  rw [Function.update_apply]
  split at hm
  · next he =>
    obtain rfl := Option.some.inj hm
    rw [if_pos he.symm]
    cases hgrave : tombstones[p]? with
    | none => exact le_rfl
    | some grave => exact max_le ((hg p grave hgrave).trans hle) le_rfl
  · next hne =>
    rw [if_neg (Ne.symm hne)]
    exact hg q m hm

/-- A file announced that is newer than the one here and than any deletion of it. -/
theorem Announces.taken {r : Replica} {v : List Bytes} {torrent : TorrentInfo}
    (ha : Announces w named p v torrent) (hclear : p ∉ r.directories)
    (hgrave : ∀ m, r.tombstones[p]? = some m → m ≤ (originOf v).toTicks)
    (hold : ∀ old, r.disk[p]? = some old → old.mtime.toTicks < (originOf v).toTicks) :
    wins w r p (originOf v) torrent = true ∧ applies w v r = true ∧
      ∀ clock steady, receiveOne w v clock steady r = .ok (r.applied w v torrent) := by
  have hu : Undefeated r.tombstones (announcedPath v) (originOf v) := by
    intro grave hg
    rw [ha.path] at hg
    rw [Bool.eq_false_iff, ne_eq, beats_iff]
    exact not_lt.mpr (hgrave grave hg)
  have hw : wins w r p (originOf v) torrent = true := by
    cases hpresent : r.lastWriteTime w p with
    | none => exact wins_absent hpresent
    | some here =>
      have hfile := (Tree.lastWriteTime_clear ha.lands.1 hclear).symm.trans hpresent
      obtain ⟨old, hf, rfl⟩ := Option.map_eq_some_iff.mp hfile
      exact (wins_present hpresent).mpr (.inl (hold old hf))
  have hw' : wins w r (announcedPath v) (originOf v) torrent = true := ha.path ▸ hw
  refine ⟨hw, (applies_create ha.verb ha.length ha.loads).mpr ⟨hu, hw'⟩, fun clock steady => ?_⟩
  rw [receiveOne_create ha.verb ha.length ha.loads, if_pos hu, if_pos hw']

/-- The torrent an applied create is served by, and those it leaves. -/
theorem Announces.serves {r : Replica} {v : List Bytes} {torrent : TorrentInfo}
    (ha : Announces w named p v torrent) (hr : OneMemory w named r) :
    ∃ t ∈ (r.applied w v torrent).session.torrents, w.heldPath t = p ∧
      t.info.content = torrent.content ∧
      (∀ u ∈ (r.applied w v torrent).session.torrents,
        u = t ∨ u ∈ r.session.torrents ∧ w.heldPath u ≠ p) ∧
      (∀ u ∈ r.session.torrents, w.heldPath u ≠ p →
        u ∈ (r.applied w v torrent).session.torrents) ∧
      (heldAlready w r v torrent = false → t.handle = r.session.nextHandle) := by
  obtain rfl := ha.path
  have hk := ha.lands.1
  obtain ⟨t, hhash, hsame, hmem, hfrom, hat⟩ := hr.serves_applied ha.lands ha.names
  have hsits := (hr.applied ha.loads ha.lands ha.names).sits
  have hmine : t ∈ (r.applied w v torrent).session.torrentsAt w (announcedPath v) := by
    rw [hat _ hk, if_pos rfl]
    exact List.mem_singleton_self t
  have htor := (Session.mem_torrentsAt.mp hmine).1
  have hpath := (Tidy.mem_torrentsAt (hsits t htor) htor hk).mp hmine
  refine ⟨t, htor, hpath, hsame, fun u hu => ?_, fun u hu hne => ?_, fun hnew => ?_⟩
  · by_cases hheld : w.heldPath u = announcedPath v
    · have hthere := (Tidy.mem_torrentsAt (hsits u hu) hu hk).mpr hheld
      rw [hat _ hk, if_pos rfl] at hthere
      exact .inl (List.mem_singleton.mp hthere)
    · refine .inr ⟨(hmem u hu).resolve_left ?_, hheld⟩
      rintro rfl
      exact hheld hpath
  · have hkey := (hr.sits u hu).1
    have hthere := (Tidy.mem_torrentsAt (hr.sits u hu) hu hkey).mpr rfl
    rw [← (hat _ hkey).trans (if_neg (Ne.symm hne))] at hthere
    exact (Session.mem_torrentsAt.mp hthere).1
  · rcases hfrom with hold | rfl
    · have hthere := (Tidy.mem_torrentsAt (hr.sits t hold) hold hk).mpr hpath
      rw [heldAlready_iff.mpr ⟨t, hthere, hhash⟩] at hnew
      cases hnew
    · rfl

theorem Tell.mono {v : List Bytes} {before : Path → TimePoint}
    (h : Tell w named tree since v next later) (hle : ∀ p, before p ≤ since p) :
    ∃ sooner, Tell w named tree before v next sooner ∧ ∀ p, sooner p ≤ later p := by
  cases h with
  | @remove p file now key present le ticks =>
    refine ⟨_, .remove key present ((hle p).trans le) ticks, fun q => ?_⟩
    rw [Function.update_apply, Function.update_apply]
    split
    · exact le_rfl
    · exact hle q
  | @create p file v torrent announces time content free newer older =>
    exact ⟨_, .create announces time content free ((hle p).trans_lt newer) older, hle⟩

namespace Told

theorem mono {before : Path → TimePoint} (h : Told w named tree since vs last latest)
    (hle : ∀ p, before p ≤ since p) :
    ∃ sooner, Told w named tree before vs last sooner ∧ ∀ p, sooner p ≤ latest p := by
  induction h generalizing before with
  | nil => exact ⟨before, .nil, hle⟩
  | cons tell _ ih =>
    obtain ⟨mid, htell, hmid⟩ := tell.mono hle
    obtain ⟨sooner, hrest, hlast⟩ := ih hmid
    exact ⟨sooner, .cons htell hrest, hlast⟩

theorem append (h : Told w named tree since vs next later)
    (hrest : Told w named next later us last latest) :
    Told w named tree since (vs ++ us) last latest := by
  induction h with
  | nil => exact hrest
  | cons tell _ ih => exact .cons tell (ih hrest)

theorem removes {ps : List Path} (hnow : InInt64 now) (hnd : ps.Nodup)
    (hin : ∀ p ∈ ps, p.IsKey ∧ since p ≤ now ∧ ∃ file, tree p = some file) :
    Told w named tree since (ps.map fun p => Source.remove p now) (brought ps (fun _ => none) tree)
      (brought ps (fun _ => now) since) := by
  induction ps generalizing tree since with
  | nil =>
    rw [brought_nil, brought_nil]
    exact .nil
  | cons p ps ih =>
    rw [List.nodup_cons] at hnd
    rw [List.forall_mem_cons] at hin
    obtain ⟨⟨hk, hle, file, hf⟩, hin⟩ := hin
    rw [← brought_update, ← brought_update]
    refine .cons (.remove hk hf hle hnow) (ih hnd.2 fun q hq => ?_)
    have hne : q ≠ p := by
      rintro rfl
      exact hnd.1 hq
    rw [Function.update_of_ne hne, Function.update_of_ne hne]
    exact hin q hq

end Told

section Swarm

variable {ι : Type} {w : ι → World} {i j : ι}

theorem SharedTorrents.announces {plays : Path → Bytes → Prop} (hw : SharedTorrents w plays)
    (hn : Names w plays named) {p : Path} (hp : p.IsKey) {content : Bytes} (hplay : plays p content)
    {t : FileTime} (ht : InInt64 t.toTicks) :
    originOf (announce ((w i).generateBuf p content) t p) = t ∧
      ∃ torrent, Announces (w j) named p (announce ((w i).generateBuf p content) t p) torrent ∧
        torrent.content = content := by
  obtain ⟨torrent, hload, hc, hl⟩ := hw.lands i j hp hplay
  refine ⟨?_, torrent, ⟨by rfl, rfl, hp.ofNative_native, hload, hl, ?_⟩, hc⟩
  · change toFileTime (fromTicks (printInt t.toTicks)) = t
    rw [fromTicks_printInt ht, toFileTime_toTicks]
  · exact hn i j p content torrent hp hplay hload

/-- A create some node of the swarm would make of a path's file. -/
def Announced (w : ι → World) (next : Disk) (p : Path) (v : List Bytes) : Prop :=
  ∃ k file, next[p]? = some file ∧ v = announce ((w k).generateBuf p file.content) file.mtime p

/-- One message for each of a number of paths. -/
theorem exists_announced {α : Type} {f : α → Option (List Bytes)} {path : α → Path} {xs : List α}
    {next : Disk} (hf : ∀ x ∈ xs, ∃ v, f x = some v ∧ Announced w next (path x) v) :
    List.Forall₂ (Announced w next) (xs.map path) (xs.filterMap f) := by
  induction xs with
  | nil => exact .nil
  | cons x xs ih =>
    rw [List.forall_mem_cons] at hf
    obtain ⟨⟨v, hv, ha⟩, hf⟩ := hf
    rw [List.map_cons, List.filterMap_cons, hv]
    exact .cons ha (ih hf)

/-- The files of a number of paths announced, as they are in the next tree. -/
theorem Told.creates {plays : Path → Bytes → Prop} (hw : SharedTorrents w plays)
    (hn : Names w plays named) {ps : List Path} {next : Disk}
    (hplay : ∀ p content, next.Holds p content → plays p content) (hnd : ps.Nodup)
    (hin : ∀ p ∈ ps, ∀ file, next[p]? = some file →
      p.IsKey ∧ Tree.blocked ⟨next, ∅⟩ p = false ∧
      since p < file.mtime.toTicks ∧ InInt64 file.mtime.toTicks)
    (hold : ∀ p ∈ ps, ∀ file old, next[p]? = some file → tree p = some old →
      old.mtime.toTicks < file.mtime.toTicks)
    (hsub : ∀ p old, tree p = some old → p ∈ next)
    (hvs : List.Forall₂ (Announced w next) ps vs) :
    Told (w j) named tree since vs (brought ps (fun p => next[p]?) tree) since := by
  induction hvs generalizing tree with
  | nil =>
    rw [brought_nil]
    exact .nil
  | @cons p v ps vs hp _ ih =>
    rw [List.nodup_cons] at hnd
    rw [List.forall_mem_cons] at hin hold
    obtain ⟨k, file, hf, rfl⟩ := hp
    obtain ⟨hk, hfree, hsince, hticks⟩ := hin.1 file hf
    obtain ⟨horigin, torrent, ha, hc⟩ := hw.announces hn (i := k) (j := j) hk (hplay p _ ⟨file, hf, rfl⟩)
      hticks
    have hopen : FreeAt tree p := by
      intro t hdisk hclear
      refine Bool.eq_false_iff.mpr fun hb => ?_
      rcases Tree.blocked_iff.mp hb with hb | hb
      · refine Bool.eq_false_iff.mp hfree (Tree.blocked_of_sub (fun q hq => ?_) ?_ hb)
        · obtain ⟨old, ho⟩ := PathMap.mem_iff.mp hq
          exact hsub q old ((hdisk q).symm.trans ho)
        · exact fun _ hq => hq
      · rw [ClearOf, hb] at hclear
        cases hclear
    rw [← brought_update fun p => next[p]?, hf]
    refine .cons (.create ha horigin hc hopen hsince fun old => hold.1 file old hf)
      (ih hnd.2 hin.2 (fun q hq new old hnew ho => ?_) fun q old ho => ?_)
    · have hne : q ≠ p := by
        rintro rfl
        exact hnd.1 hq
      rw [Function.update_of_ne hne] at ho
      exact hold.2 q hq new old hnew ho
    · rw [Function.update_apply] at ho
      split at ho
      · next he => exact he ▸ PathMap.mem_iff.mpr ⟨file, hf⟩
      · exact hsub q old ho

end Swarm

end SyncFs
