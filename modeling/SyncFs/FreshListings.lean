import SyncFs.TreeWatches

/-!
# Fresh listings

Every change that a listing would show queues an event, provided its directory
is watched. The loop watches before it lists and drops what is queued before it
watches again, so what it has not seen is queued still. Only the first listing
is made before there is any watch.
-/

namespace SyncFs.Monitor

open CharConversions DirectoryTrees LabelledRuns

/-- An event that makes the loop list the tree is queued, in the kernel or in
the batch. -/
def Pending (n : State) : Prop :=
  (∃ r ∈ n.queue, drivesSync r.mask = true) ∨ ∃ mask ∈ n.batch, drivesSync mask = true

instance (n : State) : Decidable (Pending n) := by unfold Pending; infer_instance

/-- Every directory of the tree is watched. -/
def Covered (n : State) : Prop := ∀ p i, n.tree.walk root p = some i → n.watched i

/-- The last listing has the paths of the files there are, those that have not
been closed yet left aside. -/
def Fresh (n : State) : Prop :=
  ∀ p, n.tree.fileAt p ≠ some false → (p ∈ n.former ↔ n.tree.fileAt p = some true)

variable {n m : State} {c : Change} {e : Effect} {t t' : DirTree Bytes} {l : Link Bytes}

/-! ### What a change leaves unheard -/

theorem drivesSync_ignored : drivesSync ignored = true := by decide

theorem drivesSync_moved (k : Target) :
    drivesSync (movedFrom ||| dirBit k) = true ∧ drivesSync (movedTo ||| dirBit k) = true := by
  cases k with
  | directory i =>
    change drivesSync (movedFrom ||| isDir) = true ∧ drivesSync (movedTo ||| isDir) = true
    decide
  | file c =>
    change drivesSync (movedFrom ||| 0) = true ∧ drivesSync (movedTo ||| 0) = true
    decide

theorem Effect.reported {d d' : ℕ} {name n' : Bytes} {x : Option (Link Bytes)} {mask : Mask}
    (hl : e.tree.lookup d name = if d' = d ∧ n' = name then x else t.lookup d name)
    (hm : (d', mask) ∈ e.notes) (hd : drivesSync mask = true) :
    e.tree.lookup d name = t.lookup d name ∨
      ∃ mask, (d, mask) ∈ e.notes ∧ drivesSync mask = true := by
  by_cases hn : d' = d ∧ n' = name
  · exact .inr ⟨mask, hn.1 ▸ hm, hd⟩
  · exact .inl (hl.trans (if_neg hn))

/-- A name a change touches is reported by an event that drives a listing,
unless it is that of a new file. -/
theorem Change.effect_lookup (h : c.effect t = some e) (d : ℕ) (name : Bytes) :
    (e.tree.lookup d name = t.lookup d name ∨ t.lookup d name = none ∧
      ∃ l, e.tree.lookup d name = some l ∧ l.target = .file false) ∨
    (c.bare = false ∧ ∃ mask, (d, mask) ∈ e.notes ∧ drivesSync mask = true) := by
  cases c with
  | create d' n' =>
    left
    rw [effect] at h
    split_ifs at h with hn
    obtain rfl := Option.some.inj h
    rw [DirTree.lookup_put]
    split_ifs with hd
    · obtain ⟨rfl, rfl⟩ := hd
      exact .inr ⟨hn, _, rfl, rfl⟩
    · exact .inl rfl
  | mkdir d' n' =>
    rw [effect] at h
    split_ifs at h
    obtain rfl := Option.some.inj h
    refine (Effect.reported DirTree.lookup_put List.mem_cons_self (by decide)).imp .inl ?_
    exact fun hr => ⟨rfl, hr⟩
  | close d' n' =>
    rw [effect] at h
    split at h
    · next id dir name' c hl =>
      obtain ⟨-, rfl, rfl⟩ := DirTree.lookup_eq_some.mp hl
      obtain rfl := Option.some.inj h
      refine (Effect.reported DirTree.lookup_set List.mem_cons_self (by decide)).imp .inl ?_
      exact fun hr => ⟨rfl, hr⟩
    · cases h
  | unlink d' n' =>
    rw [effect] at h
    split at h
    · obtain rfl := Option.some.inj h
      refine (Effect.reported DirTree.lookup_remove List.mem_cons_self (by decide)).imp .inl ?_
      exact fun hr => ⟨rfl, hr⟩
    · cases h
  | rmdir d' n' =>
    rw [effect] at h
    split at h
    · split_ifs at h
      obtain rfl := Option.some.inj h
      refine (Effect.reported DirTree.lookup_remove List.mem_cons_self (by decide)).imp .inl ?_
      exact fun hr => ⟨rfl, hr⟩
    · cases h
  | rename d₁ n₁ d₂ n₂ =>
    rw [effect] at h
    split at h
    · next k hk =>
      split_ifs at h
      obtain rfl := Option.some.inj h
      rw [DirTree.lookup_put, DirTree.lookup_remove]
      split_ifs with hd hr
      · obtain ⟨rfl, rfl⟩ := hd
        exact .inr ⟨rfl, _, .tail _ List.mem_cons_self, (drivesSync_moved _).2⟩
      · obtain ⟨rfl, rfl⟩ := hr
        exact .inr ⟨rfl, _, List.mem_cons_self, (drivesSync_moved _).1⟩
      · exact .inl (.inl rfl)
    · cases h

namespace State

def reports (n : State) (x : ℕ × Mask) : List RawEvent :=
  (n.table.filter fun y => y.2 = x.1).map fun y => ⟨y.1, x.2⟩

theorem mem_reports {x : ℕ × Mask} (h : n.watched x.1) : ∃ r ∈ n.reports x, r.mask = x.2 := by
  obtain ⟨wd, hw⟩ := h
  exact ⟨⟨wd, x.2⟩, List.mem_map.mpr ⟨(wd, x.1), List.mem_filter.mpr ⟨hw, by simp⟩, rfl⟩, rfl⟩

theorem foldl_notify (notes : List (ℕ × Mask)) :
    notes.foldl (fun n x => n.notify x.1 x.2) n =
      { n with queue := n.queue ++ notes.flatMap n.reports } := by
  induction notes generalizing n with
  | nil => simp
  | cons x notes ih =>
    rw [List.foldl_cons, ih, List.flatMap_cons, ← List.append_assoc]
    rfl

/-- Taking a watch away is heard. -/
theorem unwatch_cases (f : ℕ × ℕ → Bool) : Pending (n.unwatch f) ∨ n.unwatch f = n := by
  by_cases h : ∃ x ∈ n.table, f x = true
  · obtain ⟨x, hx, hf⟩ := h
    refine .inl (.inl ⟨⟨x.1, ignored⟩, List.mem_append_right _ ?_, drivesSync_ignored⟩)
    exact List.mem_map.mpr ⟨x, List.mem_filter.mpr ⟨hx, hf⟩, rfl⟩
  · right
    have hk : n.table.filter (fun x => !f x) = n.table :=
      List.filter_eq_self.mpr fun x hx => by simpa using fun hf => h ⟨x, hx, hf⟩
    have hg : n.table.filter f = [] :=
      List.filter_eq_nil_iff.mpr fun x hx hf => h ⟨x, hx, hf⟩
    rw [unwatch, hk, hg]
    simp

theorem pending_unwatch {f : ℕ × ℕ → Bool} (h : Pending n) : Pending (n.unwatch f) :=
  h.imp_left fun ⟨r, hr, hd⟩ => ⟨r, List.mem_append_left _ hr, hd⟩

end State

/-- A change is heard, or what is watched keeps its names, new files aside. -/
theorem change_cases (h : n.change c = some m) : Pending m ∨
    ∃ t q, m = { n with tree := t, queue := n.queue ++ q } ∧ Kept n.watched n.tree t ∧
      (c.bare = true → Kept (fun _ => True) n.tree t) := by
  obtain ⟨e, he, rfl⟩ := Option.map_eq_some_iff.mp h
  have hu : Pending (n.apply e) ∨
      n.apply e = { n with tree := e.tree, queue := n.queue ++ e.notes.flatMap n.reports } := by
    rw [State.apply, State.foldl_notify]
    cases e.gone with
    | none => exact .inr rfl
    | some i => exact State.unwatch_cases _
  rcases hu with hp | hu
  · exact .inl hp
  · by_cases hp : Pending (n.apply e)
    · exact .inl hp
    · refine .inr ⟨e.tree, _, hu, fun d hd name => ?_, fun hb d _ name => ?_⟩
      · rcases Change.effect_lookup he d name with hk | ⟨-, mask, hm, hs⟩
        · exact hk
        · obtain ⟨r, hr, hrm⟩ := State.mem_reports (x := (d, mask)) hd
          refine absurd (.inl ⟨r, ?_, hrm ▸ hs⟩) hp
          rw [hu]
          exact List.mem_append_right _ (List.mem_flatMap.mpr ⟨_, hm, hr⟩)
      · rcases Change.effect_lookup he d name with hk | ⟨hn, -⟩
        · exact hk
        · cases hb.symm.trans hn

theorem Pending.change (hp : Pending n) (h : n.change c = some m) : Pending m := by
  obtain ⟨e, -, rfl⟩ := Option.map_eq_some_iff.mp h
  rw [State.apply, State.foldl_notify]
  have hq : Pending { n with tree := e.tree, queue := n.queue ++ e.notes.flatMap n.reports } :=
    hp.imp_left fun ⟨r, hr, hd⟩ => ⟨r, List.mem_append_left _ hr, hd⟩
  cases e.gone with
  | none => exact hq
  | some i => exact State.pending_unwatch hq

/-! ### What the daemon may rely on -/

/-- The directories a walk may rely on: before there is a watch, that is any. -/
def Job.scope (j : Job) (n : State) : ℕ → Prop :=
  match j with
  | .startList => fun _ => True
  | _ => n.watched

/-- What holds while a job lasts. The constructor adds watches to a listing made
without any, `discard` starts over, and what `wait` resyncs was in order before. -/
def Job.Needs (j : Job) (n : State) : Prop :=
  match j with
  | .startList | .discardSync => True
  | .startSync => Fresh n
  | .wakeSync => Covered n ∧ Fresh n
  | .list => Covered n

/-- What a walk has done for a path it has come by. -/
def Job.Dealt (j : Job) (n : State) (p : TreePath) : Prop :=
  if j.syncs then ∀ i, n.tree.walk root p = some i → n.watched i
  else n.tree.fileAt p = some true → p ∈ n.current

theorem Job.dealt_of_syncs {j : Job} (hj : j.syncs = true) :
    j.Dealt n = fun p => ∀ i, n.tree.walk root p = some i → n.watched i :=
  funext fun _ => if_pos hj

theorem Job.dealt_of_lists {j : Job} (hj : j.syncs = false) :
    j.Dealt n = fun p => n.tree.fileAt p = some true → p ∈ n.current :=
  funext fun _ => if_neg (by simp [hj])

theorem Job.scope_of_watched {j : Job} {i : ℕ} (h : n.watched i) : j.scope n i := by
  cases j with
  | startList => trivial
  | startSync | wakeSync | discardSync | list => exact h

theorem Job.scope_of_syncs {j : Job} (hj : j.syncs = true) : j.scope n = n.watched := by
  cases j with
  | startList | list => cases hj
  | startSync | wakeSync | discardSync => rfl

/-- A walk on its way, with what it has found so far. -/
structure Underway (j : Job) (n : State) (w : Walk Bytes) : Prop where
  needs : j.Needs n
  rooted : j.scope n root
  sound : w.Sound (j.scope n) n.tree
  covers : w.Covers n.tree (j.Dealt n)
  truthful : j.syncs = false → ∀ p ∈ n.current, n.tree.fileAt p ≠ none

/-- What holds where the daemon is, as long as no event is pending. -/
def Pc.Holds (n : State) : Pc → Prop
  | .construct => Fresh n
  | .drop j _ | .unwatch j _ _ | .addRoot j => j.Needs n
  | .opening j => j.Needs n ∧ j.scope n root
  | .walking j w => Underway j n w
  | .handled j w => Underway j n w ∧ j.Dealt n w.here
  | .enter | .top | .sift => Covered n ∧ Fresh n
  | .discard => False

def Job.starting : Job → Bool
  | .startList | .startSync => true
  | _ => false

def Pc.starting : Pc → Bool
  | .construct | .enter => true
  | .drop j _ | .unwatch j _ _ | .addRoot j | .opening j | .walking j _ | .handled j _ => j.starting
  | .top | .sift | .discard => false

/-! #### Changes that are not heard -/

theorem Covered.trodden (h : Covered n) (p : TreePath) : Trodden n.watched n.tree p :=
  fun q _ => h q

section

variable {s : ℕ → Prop} {q : List RawEvent}

theorem Covered.kept (h : Covered n) (hk : Kept n.watched n.tree t) :
    Covered { n with tree := t, queue := q } := by
  intro p i hi
  exact h p i (hk.walk_eq (h.trodden p) ▸ hi)

theorem Fresh.kept (h : Fresh n) (ht : ∀ p, Trodden s n.tree p) (hk : Kept s n.tree t) :
    Fresh { n with tree := t, queue := q } := by
  intro p hp
  change t.fileAt p ≠ some false at hp
  rcases hk.fileAt_or ht (p := p) with he | ⟨-, ho⟩
  · change p ∈ n.former ↔ t.fileAt p = some true
    rw [he] at hp ⊢
    exact h p hp
  · exact absurd ho hp

theorem Job.scope_kept {j : Job} (hk : Kept n.watched n.tree t)
    (hs : j.starting = true → Kept (fun _ => True) n.tree t) : Kept (j.scope n) n.tree t := by
  cases j with
  | startList => exact hs rfl
  | startSync | wakeSync | discardSync | list => exact hk

theorem Job.scope_eq (j : Job) (t : DirTree Bytes) (q : List RawEvent) :
    j.scope { n with tree := t, queue := q } = j.scope n := by
  cases j <;> rfl

/-- A listing may rely on every directory there is. -/
theorem Job.Needs.trodden {j : Job} (h : j.Needs n) (hj : j.syncs = false) (p : TreePath) :
    Trodden (j.scope n) n.tree p := by
  cases j with
  | startList => exact fun _ _ _ _ => trivial
  | list => exact Covered.trodden h p
  | startSync | wakeSync | discardSync => cases hj

theorem Job.Needs.kept {j : Job} (h : j.Needs n) (hk : Kept n.watched n.tree t)
    (hs : j.starting = true → Kept (fun _ => True) n.tree t) :
    j.Needs { n with tree := t, queue := q } := by
  cases j with
  | startList | discardSync => trivial
  | startSync => exact Fresh.kept h (fun _ _ _ _ _ => trivial) (hs rfl)
  | wakeSync => exact ⟨h.1.kept hk, h.2.kept h.1.trodden hk⟩
  | list => exact Covered.kept h hk

/-- A directory nobody watches yet hides nothing: the way to it is still ahead. -/
theorem covers_kept {w : Walk Bytes} (hr : n.watched root) (hk : Kept n.watched n.tree t)
    (hc : w.Covers n.tree fun p => ∀ i, n.tree.walk root p = some i → n.watched i) :
    w.Covers t fun p => ∀ i, t.walk root p = some i → n.watched i := by
  have hw {p : TreePath} {i : ℕ} (hi : n.tree.walk root p = some i) : n.watched i ∨ w.Ahead p := by
    by_cases hp : p = []
    · subst hp
      exact .inl (Option.some.inj hi ▸ hr)
    · exact (hc p (DirTree.find_isSome_of_walk hi hp)).imp_left fun hd => hd i hi
  intro p _
  refine or_iff_not_imp_right.mpr fun ha i hi => ?_
  rcases hk.walk_or (d := root) (p := p) with he | ⟨r, hr, j, hj, hn⟩
  · exact (hw (he ▸ hi)).resolve_right ha
  · exact absurd ((hw hj).resolve_left hn |>.trans hr) ha

/-- A listing has found as much after the change. -/
theorem noted_kept {j : Job} (h : j.Needs n) (hj : j.syncs = false)
    (hk : Kept (j.scope n) n.tree t) {p : TreePath} (hp : t.fileAt p = some true) :
    n.tree.fileAt p = some true := by
  rcases hk.fileAt_or (h.trodden hj) (p := p) with he | ⟨-, ho⟩
  · exact he ▸ hp
  · cases hp.symm.trans ho

theorem Underway.kept {j : Job} {w : Walk Bytes} (h : Underway j n w)
    (hk : Kept n.watched n.tree t) (hs : j.starting = true → Kept (fun _ => True) n.tree t) :
    Underway j { n with tree := t, queue := q } w where
  needs := h.needs.kept hk hs
  rooted := Job.scope_eq j t q ▸ h.rooted
  sound := Job.scope_eq j t q ▸ h.sound.kept (Job.scope_kept hk hs)
  covers := by
    have hc := h.covers
    cases hj : j.syncs with
    | true =>
      rw [Job.dealt_of_syncs hj] at hc ⊢
      have hr : n.watched root := Job.scope_of_syncs hj ▸ h.rooted
      exact covers_kept (n := n) hr hk hc
    | false =>
      rw [Job.dealt_of_lists hj] at hc ⊢
      intro p _
      refine or_iff_not_imp_right.mpr fun ha hp => ?_
      have hf := noted_kept h.needs hj (Job.scope_kept hk hs) hp
      obtain ⟨l, hl, -⟩ := Option.bind_eq_some_iff.mp hf
      exact (hc p (Option.isSome_iff_exists.mpr ⟨l, hl⟩)).resolve_right ha hf
  truthful hj p hp := by
    rcases (Job.scope_kept hk hs).fileAt_or (h.needs.trodden hj) (p := p) with he | ⟨hn, -⟩
    · exact he ▸ h.truthful hj p hp
    · exact absurd hn (h.truthful hj p hp)

theorem Underway.dealt_kept {j : Job} {w : Walk Bytes} (h : Underway j n w)
    (hd : j.Dealt n w.here) (hk : Kept n.watched n.tree t)
    (hs : j.starting = true → Kept (fun _ => True) n.tree t) :
    j.Dealt { n with tree := t, queue := q } w.here := by
  cases hj : j.syncs with
  | true =>
    rw [Job.dealt_of_syncs hj] at hd ⊢
    have hw := Job.scope_of_syncs hj (n := n)
    have ht := (hw ▸ h.sound).trodden_here (hw ▸ h.rooted) hd
    exact fun i hi => hd i (hk.walk_eq ht ▸ hi)
  | false =>
    rw [Job.dealt_of_lists hj] at hd ⊢
    exact fun hp => hd (noted_kept h.needs hj (Job.scope_kept hk hs) hp)

/-- What holds where the daemon is survives a change that is not heard. -/
theorem Pc.Holds.kept {pc : Pc} (h : pc.Holds n) (hk : Kept n.watched n.tree t)
    (hs : pc.starting = true → Kept (fun _ => True) n.tree t) :
    pc.Holds { n with tree := t, queue := q } := by
  cases pc with
  | construct => exact Fresh.kept h (fun _ _ _ _ _ => trivial) (hs rfl)
  | drop j | unwatch j | addRoot j => exact Job.Needs.kept h hk hs
  | opening j => exact ⟨Job.Needs.kept h.1 hk hs, Job.scope_eq j t q ▸ h.2⟩
  | walking j w => exact Underway.kept h hk hs
  | handled j w => exact ⟨h.1.kept hk hs, h.1.dealt_kept h.2 hk hs⟩
  | enter | top | sift => exact ⟨h.1.kept hk, h.2.kept h.1.trodden hk⟩
  | discard => exact h

end

/-! #### What the daemon does -/

/-- A directory a path leads to is watched once it has been asked for. -/
theorem addWatch_cases (path : TreePath) : ∃ table k watches,
    n.addWatch path = { n with table := table, nextWd := k, watches := watches } ∧
      (∀ i, n.watched i → ∃ wd, (wd, i) ∈ table) ∧
      ∀ i, n.tree.walk root path = some i → ∃ wd, (wd, i) ∈ table := by
  rw [State.addWatch]
  split
  · next hi =>
    refine ⟨_, _, _, rfl, fun i h => h, fun i h => ?_⟩
    cases hi.symm.trans h
  · next i hi =>
    split
    · next x hx =>
      refine ⟨_, _, _, rfl, fun i h => h, fun j hj => ⟨x.1, ?_⟩⟩
      obtain rfl := Option.some.inj (hi.symm.trans hj)
      have he : x.2 = i := by simpa using List.find?_some hx
      exact he ▸ List.mem_of_find?_eq_some hx
    · refine ⟨_, _, _, rfl, fun j hj => ?_, fun j hj => ?_⟩
      · exact hj.imp fun wd h => List.mem_cons_of_mem _ h
      · obtain rfl := Option.some.inj (hi.symm.trans hj)
        exact ⟨_, List.mem_cons_self⟩

section

variable {j : Job} {w v : Walk Bytes}

theorem Job.Needs.grow (h : j.Needs n) (ht : m.tree = n.tree) (hf : m.former = n.former)
    (hw : ∀ i, n.watched i → m.watched i) : j.Needs m := by
  have hc : Covered n → Covered m := fun h p i hi => hw i (h p i (ht ▸ hi))
  have hr : Fresh n → Fresh m := by
    intro h p hp
    rw [ht] at hp
    rw [hf, ht]
    exact h p hp
  cases j with
  | startList | discardSync => trivial
  | startSync => exact hr h
  | wakeSync => exact ⟨hc h.1, hr h.2⟩
  | list => exact hc h

theorem Job.scope_grow (hw : ∀ i, n.watched i → m.watched i) (i : ℕ) (h : j.scope n i) :
    j.scope m i := by
  cases j with
  | startList => trivial
  | startSync | wakeSync | discardSync | list => exact hw i h

theorem Underway.grow (h : Underway j n w) (ht : m.tree = n.tree) (hf : m.former = n.former)
    (hw : ∀ i, n.watched i → m.watched i) (hc : n.current ⊆ m.current)
    (hs : j.syncs = false → ∀ p ∈ m.current, n.tree.fileAt p ≠ none) : Underway j m w where
  needs := h.needs.grow ht hf hw
  rooted := Job.scope_grow hw _ h.rooted
  sound := ht ▸ h.sound.mono (Job.scope_grow hw)
  covers := by
    intro p hp
    refine (h.covers p (ht ▸ hp)).imp_left fun hd => ?_
    unfold Job.Dealt at hd ⊢
    rw [ht]
    split_ifs at hd ⊢
    · exact fun i hi => hw i (hd i hi)
    · exact fun hp => hc (hd hp)
  truthful hj p hp := ht ▸ hs hj p hp

theorem Underway.read (h : Underway j n w) {l : Link Bytes} (hv : w.read n.tree l = some v) :
    Underway j n v :=
  ⟨h.needs, h.rooted, h.sound.read hv, h.covers.read hv, h.truthful⟩

theorem Underway.leave (h : Underway j n w) (hv : w.leave n.tree = some v) : Underway j n v :=
  ⟨h.needs, h.rooted, h.sound.leave hv, h.covers.leave h.sound hv, h.truthful⟩

theorem Underway.descend (h : Underway j n w) (hd : j.Dealt n w.here)
    (hv : w.descend n.tree = some v) : Underway j n v := by
  refine ⟨h.needs, h.rooted, h.sound.descend ?_ hv, h.covers.descend h.sound hd hv, h.truthful⟩
  cases hj : j.syncs with
  | true =>
    rw [Job.dealt_of_syncs hj] at hd
    exact Job.scope_of_syncs hj ▸ hd
  | false => exact h.needs.trodden hj _ _ List.prefix_rfl

/-- Every entry is dealt with in the step that comes by it. -/
theorem Underway.handle (h : Underway j n w) (hl : w.entry = some l) :
    Underway j (n.handle j w l) w ∧ j.Dealt (n.handle j w l) w.here := by
  have hf := h.sound.find_here hl
  have hne : w.here ≠ [] := by
    intro he
    rw [he] at hf
    cases hf
  cases hj : j.syncs with
  | true =>
    rw [State.handle, if_pos hj]
    by_cases hi : l.target.inode.isSome
    · rw [if_pos hi]
      obtain ⟨table, k, watches, he, hg, hp⟩ := addWatch_cases (n := n) w.here
      rw [he]
      refine ⟨h.grow rfl rfl hg (List.Subset.refl _) fun hs => ?_, ?_⟩
      · cases hj.symm.trans hs
      · rw [Job.dealt_of_syncs hj]
        exact hp
    · rw [if_neg hi, Job.dealt_of_syncs hj]
      refine ⟨h, fun i hw => absurd ?_ hi⟩
      rw [DirTree.walk_eq_bind_find hne, hf] at hw
      exact Option.isSome_iff_exists.mpr ⟨i, hw⟩
  | false =>
    rw [State.handle, if_neg (by simp [hj]), State.record]
    by_cases hi : l.target.inode = none
    · rw [if_pos ⟨hi, Option.isSome_iff_exists.mpr ⟨l, hf⟩⟩]
      refine ⟨h.grow rfl rfl (fun i h => h) (List.subset_cons_self _ _) fun _ p hp => ?_, ?_⟩
      · rcases List.mem_cons.mp hp with rfl | hp
        · rw [DirTree.fileAt, hf]
          cases ht : l.target with
          | directory i =>
            rw [ht] at hi
            cases hi
          | file c => simp [ht, Target.closed]
        · exact h.truthful hj p hp
      · rw [Job.dealt_of_lists hj]
        exact fun _ => List.mem_cons_self
    · rw [if_neg fun hc => hi hc.1, Job.dealt_of_lists hj]
      refine ⟨h, fun hc => absurd ?_ hi⟩
      rw [DirTree.fileAt, hf] at hc
      cases ht : l.target with
      | directory i => simp [ht, Target.closed] at hc
      | file c => rfl

theorem Underway.over_list (h : Underway j n w) (hj : j.syncs = false) (ho : w.stack = []) :
    ∀ p, n.tree.fileAt p ≠ some false → (p ∈ n.current ↔ n.tree.fileAt p = some true) := by
  intro p hp
  have hc := h.covers
  rw [Job.dealt_of_lists hj] at hc
  constructor
  · intro hm
    have hn := h.truthful hj p hm
    cases hf : n.tree.fileAt p with
    | none => exact absurd hf hn
    | some c =>
      cases c with
      | true => rfl
      | false => exact absurd hf hp
  · intro hf
    obtain ⟨l, hl, -⟩ := Option.bind_eq_some_iff.mp hf
    exact hc.over h.sound ho (Option.isSome_iff_exists.mpr ⟨l, hl⟩) hf

/-- After a resync every directory is watched. -/
theorem Underway.over_sync (h : Underway j n w) (hj : j.syncs = true) (ho : w.stack = []) :
    Covered n := by
  intro p i hi
  have hc := h.covers
  rw [Job.dealt_of_syncs hj] at hc
  by_cases hp : p = []
  · subst hp
    have hr : n.watched root := Job.scope_of_syncs hj ▸ h.rooted
    exact Option.some.inj hi ▸ hr
  · exact hc.over h.sound ho (DirTree.find_isSome_of_walk hi hp) i hi

theorem Underway.same (h : Underway j n w) (ht : m.tree = n.tree) (hw : m.table = n.table)
    (hc : m.current = n.current) (hf : m.former = n.former) : Underway j m w := by
  refine h.grow ht hf (fun i => ?_) (fun p hp => hc ▸ hp) (hc ▸ h.truthful)
  rw [State.watched, State.watched, hw]
  exact id

theorem Underway.resume (h : Underway j n w) : (n.resume j w).pc.Holds (n.resume j w) := by
  rw [State.resume]
  split_ifs with ho
  · cases j with
    | startList => exact h.over_list rfl ho
    | startSync => exact ⟨h.over_sync rfl ho, h.needs⟩
    | wakeSync => exact h.needs
    | discardSync =>
      have hc := h.over_sync rfl ho
      exact ⟨hc, hc [] root rfl⟩
    | list => exact ⟨h.needs, h.over_list rfl ho⟩
  · exact h.same rfl rfl rfl rfl

end

variable {ev : Event}

theorem handle_eq (n : State) (j : Job) (w : Walk Bytes) (l : Link Bytes) :
    ∃ table k watches current, n.handle j w l =
      { n with table := table, nextWd := k, watches := watches, current := current } := by
  rw [State.handle]
  split_ifs
  · obtain ⟨table, k, watches, hw, -⟩ := addWatch_cases (n := n) w.here
    exact ⟨table, k, watches, n.current, hw⟩
  · exact ⟨_, _, _, _, rfl⟩
  · rw [State.record]
    split_ifs
    · exact ⟨_, _, _, _, rfl⟩
    · exact ⟨_, _, _, _, rfl⟩

theorem resume_eq (n : State) (j : Job) (w : Walk Bytes) :
    ∃ former pc, n.resume j w = { n with former := former, pc := pc } := by
  rw [State.resume]
  split_ifs
  · cases j <;> exact ⟨_, _, rfl⟩
  · exact ⟨_, _, rfl⟩

/-- What the daemon does by itself leads on to what holds there, or is heard. -/
theorem Stepped.holds (hs : Stepped n ev m) (he : ∀ c, ev ≠ .others c) (h : n.pc.Holds n) :
    Pending m ∨ m.pc.Holds m := by
  cases hs with
  | others => exact absurd rfl (he _)
  | construct hp =>
    rw [hp] at h
    obtain ⟨table, k, watches, hw, hg, -⟩ := addWatch_cases (n := n) []
    rw [hw]
    exact .inr h
  | dropped hp | keep hp | lost hp =>
    rw [hp] at h
    exact .inr (Job.Needs.grow h rfl rfl fun i hi => hi)
  | @unwatch j wd entries hp =>
    rw [hp] at h
    rcases n.unwatch_cases fun x => x.1 = wd with hq | hq
    · exact .inl hq
    · refine .inr (Job.Needs.grow h rfl rfl fun i hi => ?_)
      change ∃ x, (x, i) ∈ (n.unwatch fun x => x.1 = wd).table
      rw [hq]
      exact hi
  | addRoot hp =>
    rw [hp] at h
    obtain ⟨table, k, watches, hw, hg, hr⟩ := addWatch_cases (n := n) []
    rw [hw]
    exact .inr ⟨Job.Needs.grow h rfl rfl hg, Job.scope_of_watched (hr root rfl)⟩
  | opening hp =>
    rw [hp] at h
    have hr := Job.scope_grow (n := n) (fun _ hi => hi) root h.2
    exact .inr ⟨Job.Needs.grow h.1 rfl rfl fun i hi => hi, hr, .start hr, Walk.covers_start, nofun⟩
  | handle hp hl =>
    rw [hp] at h
    obtain ⟨hu, hd⟩ := Underway.handle h hl
    exact .inr ⟨hu.same rfl rfl rfl rfl, hd⟩
  | descend hp hw =>
    rw [hp] at h
    exact .inr (h.1.descend h.2 hw).resume
  | enter hp | pass hp | sifted hp =>
    rw [hp] at h
    exact .inr h
  | idle hp =>
    rw [hp] at h
    refine .inr ?_
    change n.pc.Holds _
    rw [hp]
    exact h
  | drives hp hb hd => exact .inl (.inr ⟨_, hb, hd⟩)
  | discard hp => exact .inr trivial
  | read hp hw =>
    rw [hp] at h
    exact .inr ((Underway.read h hw).same rfl rfl rfl rfl)
  | leave hp hw =>
    rw [hp] at h
    exact .inr (Underway.leave h hw).resume
  | poll hp hb hpc =>
    rw [hp] at h
    rcases hpc with ⟨watches, rfl⟩ | rfl
    · exact .inr h
    · exact .inr h

theorem Stepped.pending (hs : Stepped n ev m) (h : Pending n) : Pending m ∨ m.pc.Holds m := by
  cases hs with
  | others hc => exact .inl (h.change hc)
  | construct hp | addRoot hp =>
    obtain ⟨table, k, watches, hw, -⟩ := addWatch_cases (n := n) []
    rw [hw]
    exact .inl h
  | unwatch hp => exact .inl (State.pending_unwatch h)
  | handle hp hl =>
    obtain ⟨table, k, watches, current, hw⟩ := handle_eq n _ _ _
    rw [hw]
    exact .inl h
  | descend hp hw | leave hp hw =>
    obtain ⟨former, pc, hr⟩ := resume_eq n _ _
    rw [hr]
    exact .inl h
  | dropped | keep | lost | opening | enter | pass | sifted | drives | read => exact .inl h
  | idle hp hb hd =>
    refine .inl (h.imp_right fun ⟨mask, hm, hk⟩ => ⟨mask, ?_, hk⟩)
    rw [hb] at hm
    rcases List.mem_cons.mp hm with rfl | hm
    · cases hd.symm.trans hk
    · exact hm
  | discard hp => exact .inr trivial
  | @poll count pc hp hb hpc =>
    refine .inl ?_
    rcases h with ⟨r, hr, hk⟩ | ⟨mask, hm, -⟩
    · rw [← List.take_append_drop count n.queue] at hr
      rcases List.mem_append.mp hr with hr | hr
      · exact .inr ⟨r.mask, List.mem_map.mpr ⟨r, hr, rfl⟩, hk⟩
      · exact .inl ⟨r, hr, hk⟩
    · rw [hb] at hm
      cases hm

theorem change_pc (h : n.change c = some m) : m.pc = n.pc := by
  obtain ⟨e, -, rfl⟩ := Option.map_eq_some_iff.mp h
  rw [State.apply, State.foldl_notify]
  cases e.gone with
  | none => rfl
  | some i => rfl

theorem Stepped.starting (hs : Stepped n ev m) (h : n.pc.starting = true) :
    m.pc.starting = true ∨ (n.pc = .enter ∧ ev = .advance) := by
  cases hs with
  | others hc => exact .inl (change_pc hc ▸ h)
  | construct => exact .inl rfl
  | dropped hp | keep hp | lost hp | unwatch hp | addRoot hp | opening hp | handle hp
  | read hp =>
    rw [hp] at h
    exact .inl h
  | @descend j w v hp hw | @leave j w v hp hw =>
    rw [hp] at h
    refine .inl ?_
    rw [State.resume]
    split_ifs
    · cases j with
      | startList | startSync => rfl
      | wakeSync | discardSync | list => cases h
    · exact h
  | enter hp => exact .inr ⟨hp, rfl⟩
  | pass hp | sifted hp | drives hp | idle hp | discard hp | poll hp =>
    rw [hp] at h
    cases h

/-! ### Runs -/

/-- A change that a listing would show: not the bare creation of a file. -/
def Event.alters : Event → Bool
  | .others c => !c.bare
  | _ => false

/-- Nothing has changed since the first listing began. -/
def Still (h : History State Event) : Prop := ∀ x ∈ h, x.2.alters = false

/-- The loop is not entered after a change that nobody has heard of. -/
def Heard (h : History State Event) (n : State) (ev : Event) : Prop :=
  n.pc = .enter ∧ ev = .advance → Pending n ∨ Still h

instance (h : History State Event) : Decidable (Still h) := by unfold Still; infer_instance

instance (h : History State Event) (n : State) (ev : Event) : Decidable (Heard h n ev) := by
  unfold Heard
  infer_instance

/-- Either something is pending, or what should hold does, or a change went
unheard before the loop. -/
def Known (h : History State Event) (n : State) : Prop :=
  Pending n ∨ n.pc.Holds n ∨ (n.pc.starting = true ∧ ¬ Still h)

variable {h : History State Event}

theorem Still.of_cons {x : State × Event} (hs : Still (x :: h)) : Still h :=
  fun y hy => hs y (List.mem_cons_of_mem _ hy)

/-- A change is heard, or hurts nothing, or came before the loop. -/
theorem Known.change (hk : Known h n) (hc : n.change c = some m) :
    Known ((n, .others c) :: h) m := by
  have hpc := change_pc hc
  rcases hk with hp | hh | ⟨hs, hn⟩
  · exact .inl (hp.change hc)
  · rcases change_cases hc with hp | ⟨t, q, rfl, hk, hb⟩
    · exact .inl hp
    · by_cases hs : c.bare = false ∧ n.pc.starting = true
      · refine .inr (.inr ⟨hs.2, fun hst => ?_⟩)
        have hx := hst _ List.mem_cons_self
        simp [Event.alters, hs.1] at hx
      · refine .inr (.inl (hh.kept hk fun hst => hb ?_))
        by_contra hc
        exact hs ⟨Bool.eq_false_iff.mpr hc, hst⟩
  · exact .inr (.inr ⟨hpc ▸ hs, fun hst => hn hst.of_cons⟩)

theorem Known.step (hk : Known h n) (hd : Heard h n ev) (hs : step n ev = some m) :
    Known ((n, ev) :: h) m := by
  have hst := stepped hs
  cases ev with
  | others c => exact hk.change hs
  | advance | read l | leave | poll count =>
    rcases hk with hp | hh | ⟨hs, hn⟩
    · exact (hst.pending hp).imp_right .inl
    · exact (hst.holds nofun hh).imp_right .inl
    · rcases hst.starting hs with hs | he
      · exact .inr (.inr ⟨hs, fun hst => hn hst.of_cons⟩)
      · exact (hst.pending ((hd he).resolve_right hn)).imp_right .inl

theorem known {tree : DirTree Bytes} (hr : Run step (start tree) h n) (ha : Always Heard h) :
    Known h n :=
  hr.invariant (.inr (.inl ⟨trivial, trivial⟩)) (fun _ _ _ _ _ hk hd hs => hk.step hd hs) ha

/-- The loop does not wait over a stale listing, unless it was stale when the
loop was entered. -/
theorem listing_fresh {tree : DirTree Bytes} (hr : Run step (start tree) h n)
    (ha : Always Heard h) (ht : n.pc = .top) (hq : n.queue = []) (hb : n.batch = []) :
    Covered n ∧ Fresh n := by
  rcases known hr ha with hp | hh | ⟨hs, -⟩
  · rcases hp with ⟨r, hr, -⟩ | ⟨mask, hm, -⟩
    · rw [hq] at hr
      cases hr
    · rw [hb] at hm
      cases hm
  · rw [ht] at hh
    exact hh
  · rw [ht] at hs
    cases hs

/-! ### Two runs -/

def emptyTree : DirTree Bytes := ⟨[], 1, .nil⟩

def nameA : Bytes := ascii "a"

def laterEvents : List Event :=
  [.advance, .leave, .advance, .advance, .advance, .advance, .advance, .leave, .advance,
    .others (.create root nameA), .others (.close root nameA), .poll 2, .advance, .advance,
    .advance, .advance, .advance, .advance, .advance, .read ⟨1, root, nameA, .file true⟩, .advance,
    .advance, .leave, .advance, .read ⟨1, root, nameA, .file true⟩, .advance, .advance, .leave]

theorem createdLater_listed : ∃ h n, Run step (start emptyTree) h n ∧
    n.tree.fileAt [nameA] = some true ∧ [nameA] ∈ n.former := by
  obtain ⟨h, n, hr, ha, ht, hq, hb, hf⟩ := exists_run step (start emptyTree) laterEvents
    (fun h n => Always Heard h ∧ n.pc = .top ∧ n.queue = [] ∧ n.batch = [] ∧
      n.tree.fileAt [nameA] = some true) (by decide +kernel)
  have hn := (listing_fresh hr ha ht hq hb).2 [nameA]
  rw [hf] at hn
  exact ⟨h, n, hr, hf, (hn (by decide)).mpr rfl⟩

/-- A file written between the first listing and the first watch. -/
def earlyEvents : List Event :=
  [.advance, .leave, .others (.create root nameA), .others (.close root nameA), .advance, .advance,
    .advance, .advance, .advance, .read ⟨1, root, nameA, .file true⟩, .advance, .advance, .leave,
    .advance]

theorem createdEarly_stale : ¬ ∀ (tree : DirTree Bytes) (h : History State Event) (n : State),
    Run step (start tree) h n → n.pc = .top → n.queue = [] → n.batch = [] →
      Covered n ∧ Fresh n := by
  intro hall
  obtain ⟨h, n, hr, ht, hq, hb, hf, hm⟩ := exists_run step (start emptyTree) earlyEvents
    (fun _ n => n.pc = .top ∧ n.queue = [] ∧ n.batch = [] ∧
      n.tree.fileAt [nameA] = some true ∧ [nameA] ∉ n.former) (by decide +kernel)
  have hn := (hall emptyTree h n hr ht hq hb).2 [nameA]
  rw [hf] at hn
  exact hm ((hn (by decide)).mpr rfl)

end SyncFs.Monitor
