import Ribs.Carlog.Encoding
import Ribs.Rbstor.Batch
/-!
# Rbstor — where a batch's blocks go

The loop of `Batch.Put` ends: an iteration writes blocks or retires a
group. There are at most as many groups to retire as are writable, in
memory or in the database, and an iteration that writes adds one at most.
When it returns, its iterations have cut the list into runs, and each run
was given to one group.
-/

namespace Ribs

open Common

namespace Rbstor

open Carlog (Block)

variable {F : Fates} {r r' : Rbs} {g : GroupKey} {b : List Block} {grp : Group}

/-! ## Programs of the store -/

section

variable {α : Type} {m : Op α} {Q : α → Rbs → Prop}

theorem wp_returns_get {k : Rbs → Op α} (h : wp F (k r) (.returns Q) r) :
    wp F (.get k) (.returns Q) r := h

theorem wp_returns_wrapErr {s : String} (h : wp F m (.returns Q) r) :
    wp F (wrapErr s m) (.returns Q) r := wp_returns_handle h

theorem wp_returns_failIf {c : Prop} [Decidable c] {e : Err} {Q : Unit → Rbs → Prop}
    (h : ¬ c → Q () r) : wp F (failIf c e) (.returns Q) r := by
  unfold failIf
  split_ifs with hc
  · trivial
  · exact h hc

/-- What an operation of a log leaves alone. -/
theorem wp_returns_onLog {m : Carlog.Op α} :
    wp F (onLog g m) (.returns fun _ r' => ∃ w, r' = setLog g w r) r := by
  refine wp_zoom (fun t s => by simp [setLog]) (fun t t' s => by simp [setLog])
    (fun s => by simp [setLog]) ?_
  exact wp_mono wp_trivial (fun _ t _ => ⟨t, rfl⟩) (fun _ _ _ => trivial) (fun _ _ => trivial)
    fun _ _ _ => trivial

theorem wp_returns_getGroup : wp F (getGroup g)
    (.returns fun grp r' => r' = r ∧ r.openGroups g = some grp) r := by
  unfold getGroup
  refine wp_returns_get ?_
  split
  · trivial
  · next h => exact ⟨rfl, h⟩

theorem wp_returns_modifyGroup {f : Group → Group} : wp F (modifyGroup g f)
    (.returns fun _ r' => ∃ grp, r.openGroups g = some grp ∧ r' = setGroup g (f grp) r) r := by
  refine wp_returns_seq wp_returns_getGroup ?_
  rintro grp _ ⟨rfl, h⟩
  exact ⟨grp, h, rfl⟩

theorem wp_returns_choose {l : List α} : wp F (choose l)
    (.returns fun a r' => a ∈ l ∧ r' = { r with picked := r.picked + 1 }) r := by
  unfold choose
  refine wp_returns_get ?_
  split
  · trivial
  · next h => exact ⟨List.mem_of_getElem? h, rfl⟩

end

/-! ## Groups and rows -/

/-- The open groups are all that there are; those that can be written are
open, and no two have one key. -/
structure Rbs.Ok (r : Rbs) : Prop where
  nodup : r.writableGroups.Nodup
  isOpen : ∀ g ∈ r.writableGroups, (r.openGroups g).isSome

/-- The groups that the loop of `Put` can retire. -/
def Rbs.retirable (r : Rbs) : ℕ := r.writableGroups.length + (writableRows r.rows).length

/-- What an operation on logs, the top index and the choices leaves, with
the calls `cs`. -/
structure Frame (cs : List Call) (r r' : Rbs) : Prop where
  openGroups : r'.openGroups = r.openGroups
  writableGroups : r'.writableGroups = r.writableGroups
  rows : writableRows r'.rows = writableRows r.rows
  tasks : r'.tasks = r.tasks
  calls : r'.calls = r.calls ++ cs

theorem Frame.of_eq {cs : List Call} (hgroups : r'.openGroups = r.openGroups)
    (hw : r'.writableGroups = r.writableGroups) (hrows : r'.rows = r.rows)
    (htasks : r'.tasks = r.tasks) (hcalls : r'.calls = r.calls ++ cs) : Frame cs r r' :=
  ⟨hgroups, hw, by rw [hrows], htasks, hcalls⟩

theorem Frame.refl (r : Rbs) : Frame [] r r := .of_eq rfl rfl rfl rfl (by simp)

theorem Frame.trans {cs cs' : List Call} {r'' : Rbs} (h : Frame cs r r') (h' : Frame cs' r' r'') :
    Frame (cs ++ cs') r r'' :=
  ⟨h'.openGroups.trans h.openGroups, h'.writableGroups.trans h.writableGroups,
    h'.rows.trans h.rows, h'.tasks.trans h.tasks, by rw [h'.calls, h.calls, List.append_assoc]⟩

theorem frame_setLog (w : Carlog.World) : Frame [] r (setLog g w r) :=
  .of_eq rfl rfl rfl rfl (by simp [setLog])

/-- A head that is not one of a writable group takes its row out. -/
theorem length_writableRows_groupHead {state : GroupState} (hstate : state ≠ .writable)
    (x y z : ℤ) (rows : List Row) :
    (writableRows (rows.map (groupHead g state x y z))).length ≤ (writableRows rows).length ∧
      ((∃ row ∈ writableRows rows, row.id = g) →
        (writableRows (rows.map (groupHead g state x y z))).length < (writableRows rows).length) := by
  induction rows with
  | nil => simp [writableRows]
  | cons row rows ih =>
    simp only [writableRows, List.map_cons, List.filter_cons] at ih ⊢
    by_cases hid : row.id = g
    · have hnot : ¬ (groupHead g state x y z row).state = .writable := by simpa [groupHead, hid]
      rw [if_neg (by simpa using hnot)]
      split_ifs with hw
      · rw [List.length_cons]
        exact ⟨by omega, fun _ => by omega⟩
      · refine ⟨ih.1, ?_⟩
        rintro ⟨row', hmem, hid'⟩
        exact ih.2 ⟨row', hmem, hid'⟩
    · have hsame : groupHead g state x y z row = row := by simp [groupHead, hid]
      rw [hsame]
      split_ifs with hw
      · simp only [List.length_cons]
        refine ⟨by omega, ?_⟩
        rintro ⟨row', hmem, hid'⟩
        rcases List.mem_cons.mp hmem with rfl | hmem
        · exact absurd hid' hid
        · have := ih.2 ⟨row', hmem, hid'⟩
          omega
      · exact ih

/-! ## `Group.Put` -/

namespace Group

theorem le_reserve (avail cb : ℤ) (b : List Block) (ws : ℤ) (n : ℕ) :
    n ≤ (reserve avail cb ws n b).2 ∧ (reserve avail cb ws n b).2 ≤ n + b.length := by
  induction b generalizing ws n with
  | nil => simp [reserve]
  | cons blk b ih =>
    rw [reserve]
    split_ifs
    · simp
    · obtain ⟨hle, hle'⟩ := ih (ws + blk.data.length) (n + 1)
      rw [List.length_cons]
      omega

theorem space_le (grp : Group) (b : List Block) : (grp.space b).2 ≤ b.length := by
  have := (le_reserve (maxGroupSize - grp.committedSize - grp.inflightSize) grp.committedBlocks
    b 0 0).2
  rwa [Nat.zero_add] at this

/-- **A new group has space** for a block. -/
theorem one_le_space {blk : Block} (h : (blk.data.length : ℤ) ≤ maxGroupSize) (b : List Block) :
    1 ≤ (space ⟨.writable, 0, 0, 0, 0⟩ (blk :: b)).2 := by
  have hblocks : ¬ maxGroupBlocks ≤ 0 := by decide
  rw [space, reserve, if_neg (by simpa [hblocks] using h)]
  exact (le_reserve _ _ _ _ _).1

variable [X : Carlog.External]

/-- The calls of a write of `b` to the group. -/
def callsOf (g : GroupKey) (b : List Block) : List Call :=
  [.put g (b.map Block.hash) (b.map Block.data), .addGroup g (b.map Block.hash) (blockSizes b)]

theorem wp_write : wp F (write g b) (.returns fun _ r' => Frame (callsOf g b) r r') r := by
  have hput : wp F (putLog g b) (.returns fun _ r' =>
      Frame [.put g (b.map Block.hash) (b.map Block.data)] r r') r := by
    refine wp_returns_seq (wp_returns_wrapErr wp_returns_onLog) ?_
    rintro - _ ⟨w, rfl⟩
    exact .of_eq rfl rfl rfl rfl rfl
  have hadd : ∀ r, wp F (addIndex g b) (.returns fun _ r' =>
      Frame [.addGroup g (b.map Block.hash) (blockSizes b)] r r') r := by
    intro r
    refine wp_returns_get ?_
    split
    · trivial
    · exact wp_returns_wrapErr (wp_returns_step (.of_eq rfl rfl rfl rfl rfl))
  refine wp_returns_seq (wp_returns_attempt hput) ?_
  intro x u hu
  refine wp_returns_seq (wp_returns_attempt (hadd u)) ?_
  intro y v hv
  rcases x with e | ⟨⟩
  · trivial
  rcases y with e | ⟨⟩
  · trivial
  exact (hu () rfl).trans (hv () rfl)

omit X in
/-- What `sync` leaves: the group's head is in the database. -/
theorem wp_sync (hopen : r.openGroups g = some grp) : wp F (sync g)
    (.returns fun _ r' => ∃ x y z, r'.openGroups = Function.update r.openGroups g (some grp.committed) ∧
      r'.writableGroups = r.writableGroups ∧ r'.tasks = r.tasks ∧ r'.calls = r.calls ∧
      r'.rows = r.rows.map (groupHead g grp.state x y z)) r := by
  refine wp_returns_seq (wp_returns_wrapErr wp_returns_onLog) ?_
  rintro at_ _ ⟨w, rfl⟩
  refine wp_returns_seq wp_returns_modifyGroup ?_
  rintro - _ ⟨grp', hgrp', rfl⟩
  obtain rfl : grp' = grp := Option.some.inj (hgrp'.symm.trans hopen)
  refine wp_returns_seq wp_returns_getGroup ?_
  rintro grp'' _ ⟨rfl, hgrp''⟩
  obtain rfl : grp'' = grp'.committed := by
    simpa [setGroup] using hgrp''.symm
  refine wp_returns_wrapErr (wp_returns_step ⟨_, _, _, rfl, rfl, rfl, rfl, rfl⟩)

/-- **What `Put` writes to a writable group.** -/
structure Wrote (g : GroupKey) (b : List Block) (n : ℕ) (r r' : Rbs) : Prop where
  openGroups : ∃ grp', r'.openGroups = Function.update r.openGroups g (some grp') ∧
    grp'.state = if n < b.length then .full else .writable
  writableGroups : r'.writableGroups = r.writableGroups
  tasks : r'.tasks = r.tasks
  calls : r'.calls = r.calls ++ callsOf g (b.take n)
  rows : (writableRows r'.rows).length ≤ (writableRows r.rows).length
  full : n < b.length → (∃ row ∈ writableRows r.rows, row.id = g) →
    (writableRows r'.rows).length < (writableRows r.rows).length

theorem wp_put_writable (hopen : r.openGroups g = some grp) (hstate : grp.state = .writable)
    (hb : b ≠ []) : wp F (put g b)
      (.returns fun n r' => n = (grp.space b).2 ∧ Wrote g b n r r') r := by
  -- it becomes full exactly when not all of the batch fits
  have hfull : (grp.reserved b).state = .full ↔ (grp.space b).2 < b.length := by
    simp only [reserved, hstate]
    split_ifs with h <;> simp [h]
  rw [put, if_neg hb]
  refine wp_returns_seq wp_returns_getGroup ?_
  rintro grp' r ⟨rfl, hgrp'⟩
  obtain rfl : grp' = grp := Option.some.inj (hgrp'.symm.trans hopen)
  rw [if_neg (not_not.mpr hstate), wp_bind, wp_modify]
  refine wp_returns_seq wp_write ?_
  rintro - u hu
  have hgrp : u.openGroups g = some (grp'.reserved b) := by
    rw [hu.openGroups]
    simp [setGroup]
  split_ifs with h
  · -- the group is full
    refine wp_returns_seq (R := fun _ r' => Wrote g b (grp'.space b).2 r r') ?_
      fun _ _ hw => ⟨rfl, hw⟩
    refine wp_returns_seq (wp_returns_wrapErr (wp_sync hgrp)) ?_
    rintro - v ⟨x, y, z, hgroups, hwritable, htasks, hcalls, hrows⟩
    refine wp_returns_wrapErr (wp_returns_mono wp_returns_onLog ?_)
    rintro - _ ⟨w, rfl⟩
    -- its row is no longer writable, so there is one less of those
    have hnot : (grp'.reserved b).state ≠ .writable := by rw [h]; decide
    have hlen := length_writableRows_groupHead (g := g) hnot x y z u.rows
    rw [← hrows, hu.rows] at hlen
    exact {
      openGroups := ⟨(grp'.reserved b).committed, by
        rw [setLog, hgroups, hu.openGroups]
        simp [setGroup], by
        rw [if_pos (hfull.mp h)]
        exact h⟩
      writableGroups := hwritable.trans hu.writableGroups
      tasks := htasks.trans hu.tasks
      calls := hcalls.trans hu.calls
      rows := hlen.1
      full := fun _ => hlen.2 }
  · have hfits : ¬ (grp'.space b).2 < b.length := fun hlt => h (hfull.mpr hlt)
    exact ⟨rfl, {
      openGroups := ⟨grp'.reserved b, hu.openGroups, by
        rw [if_neg hfits, reserved, if_neg hfits, hstate]⟩
      writableGroups := hu.writableGroups
      tasks := hu.tasks
      calls := hu.calls
      rows := by rw [hu.rows]; rfl
      full := fun hlt => absurd hlt hfits }⟩

end Group

/-! ## Selecting a group -/

/-- What opening a group that is not written leaves. -/
structure Grown (r r' : Rbs) : Prop where
  openGroups : ∀ g grp, r.openGroups g = some grp → r'.openGroups g = some grp
  writableGroups : r'.writableGroups = r.writableGroups
  rows : (writableRows r'.rows).length = (writableRows r.rows).length
  tasks : r'.tasks = r.tasks
  calls : r'.calls = r.calls

theorem Frame.grown (h : Frame [] r r') : Grown r r' :=
  ⟨fun _ _ hg => by rw [h.openGroups, hg], h.writableGroups, by rw [h.rows], h.tasks,
    by simpa using h.calls⟩

theorem Grown.trans {r'' : Rbs} (h : Grown r r') (h' : Grown r' r'') : Grown r r'' :=
  ⟨fun g grp hg => h'.openGroups g grp (h.openGroups g grp hg),
    h'.writableGroups.trans h.writableGroups, h'.rows.trans h.rows, h'.tasks.trans h.tasks,
    h'.calls.trans h.calls⟩

section

variable [X : Carlog.External] {row : Row} {blocks bytes jbhead : ℤ} {state : GroupState}
  {create : Bool}

theorem Group.wp_openJbob {staging dropped : Bool} : wp F (openJbob g jbhead create staging dropped)
    (.returns fun _ r' => Frame [] r r') r := by
  refine wp_returns_seq (wp_returns_attempt wp_returns_onLog) ?_
  intro x u hu
  rw [wp_bind, wp_modify]
  rcases x with e | ⟨⟩
  · trivial
  obtain ⟨w, rfl⟩ := hu () rfl
  exact .of_eq rfl rfl rfl rfl (List.append_nil _).symm

theorem Group.wp_openGroup : wp F (Group.openGroup g blocks bytes jbhead state create)
    (.returns fun grp r' => Frame [] r r' ∧ r.openGroups g = none ∧
      grp = ⟨state, 0, 0, blocks, bytes⟩) r := by
  refine wp_returns_seq (wp_returns_wrapErr (wp_returns_step
    (Q := fun _ r' => r' = r) rfl)) ?_
  rintro - r rfl
  refine wp_returns_get ?_
  split_ifs with hopen
  · trivial
  have hnone : r.openGroups g = none := by simpa using hopen
  refine wp_returns_seq wp_returns_onLog ?_
  rintro - _ ⟨w, rfl⟩
  have hopened : ∀ dropped, wp F (do
      openJbob g jbhead create r.staging dropped
      return (⟨state, 0, 0, blocks, bytes⟩ : Group) : Op Group)
      (.returns fun grp r' => Frame [] r r' ∧ r.openGroups g = none ∧
        grp = ⟨state, 0, 0, blocks, bytes⟩) (setLog g w r) := fun dropped =>
    wp_returns_seq wp_openJbob fun _ _ hu => ⟨(frame_setLog w).trans hu, hnone, rfl⟩
  exact ⟨hopened true, fun _ _ => hopened false, fun _ => trivial⟩

theorem wp_openGroup : wp F (openGroup g blocks bytes jbhead state create)
    (.returns fun _ r' => r.openGroups g = none ∧ ∃ u, Frame [] r u ∧
      r' = opened g state ⟨state, 0, 0, blocks, bytes⟩ u) r := by
  refine wp_returns_seq (wp_returns_wrapErr Group.wp_openGroup) ?_
  rintro grp u ⟨hu, hnone, rfl⟩
  exact ⟨hnone, u, hu, rfl⟩

omit X in
/-- Opening a group that is not written. -/
theorem grown_opened (hstate : state ≠ .writable) (hnone : r.openGroups g = none)
    (grp : Group) {u : Rbs} (hu : Frame [] r u) : Grown r (opened g state grp u) := by
  refine ⟨fun g' grp' hg' => ?_, ?_, by rw [← hu.rows]; rfl, hu.tasks, hu.grown.calls⟩
  · have hne : g' ≠ g := by
      rintro rfl
      rw [hnone] at hg'
      exact absurd hg' (by simp)
    simp only [opened, setGroup, Function.update_of_ne hne, hu.openGroups, hg']
  · simp [opened, hstate, hu.writableGroups]

theorem wp_openRow : wp F (openRow row) (.returns fun _ r' => r.openGroups row.id = none ∧
    ∃ u, Frame [] r u ∧
      r' = opened row.id row.state ⟨row.state, 0, 0, row.blocks, row.bytes⟩ u) r :=
  wp_openGroup

omit X in
theorem Group.wp_offloadStaging : wp F (offloadStaging g) (.returns fun _ r' => Grown r r') r := by
  refine wp_returns_seq wp_returns_getGroup ?_
  rintro grp r ⟨rfl, -⟩
  refine wp_returns_seq (R := fun _ r' => r' = r) (wp_returns_failIf fun _ => rfl) ?_
  rintro - r rfl
  refine wp_returns_seq (wp_returns_wrapErr wp_returns_onLog) ?_
  rintro - _ ⟨w, rfl⟩
  refine wp_returns_wrapErr (wp_returns_step ⟨fun _ _ => id, rfl, ?_, rfl, rfl⟩)
  simp only [writableRows, setLog, ← List.countP_eq_length_filter, List.countP_map]
  refine List.countP_congr fun row _ => ?_
  simp only [Function.comp_apply]
  split_ifs <;> rfl

omit X in
theorem mem_of_firstOf {rows : List Row} (h : firstOf state rows = some row) :
    row ∈ rows ∧ row.state = state := by
  have hmem := List.mem_of_mem_head? h
  rw [List.mem_mergeSort, List.mem_filter, Bool.and_eq_true] at hmem
  exact ⟨hmem.1, of_decide_eq_true hmem.2.2⟩

theorem wp_ensureSpaceForGroup : wp F ensureSpaceForGroup (.returns fun _ r' => Grown r r') r := by
  refine wp_returns_seq (R := fun _ r' => r' = r) (wp_returns_wrapErr ?_) ?_
  · exact wp_returns_seq (R := fun _ r' => r' = r) (wp_returns_step rfl) fun _ _ h => h
  rintro n r rfl
  split_ifs with hn
  · exact (Frame.refl r).grown
  refine wp_returns_seq (R := fun row r' => r' = r ∧ ∀ x, row = some x → x.state ≠ .writable)
    (wp_returns_wrapErr ?_) ?_
  · refine wp_returns_seq (R := fun _ r' => r' = r) (wp_returns_step rfl) ?_
    rintro - r rfl
    refine ⟨rfl, fun x hx => ?_⟩
    rcases Option.or_eq_some_iff.mp hx with h | ⟨-, h⟩
    · rw [(mem_of_firstOf h).2]
      decide
    · rw [(mem_of_firstOf h).2]
      decide
  rintro row r ⟨rfl, hrow⟩
  cases row with
  | none => trivial
  | some row =>
    refine wp_returns_seq (R := fun _ r' => r' = r) (wp_returns_wrapErr (wp_returns_step rfl)) ?_
    rintro - r rfl
    refine wp_returns_get ?_
    split_ifs with hopen
    · exact Group.wp_offloadStaging
    refine wp_returns_seq wp_openRow ?_
    rintro - _ ⟨hnone, u, hu, rfl⟩
    exact wp_returns_mono Group.wp_offloadStaging fun _ _ h =>
      (grown_opened (hrow row rfl) hnone _ hu).trans h

/-- **A selected group** is open and can be written; the groups that were
open are as they were. It is one of the writable ones, or else there were
none: then it is one that the database has as writable, or a new one, when
the database has none. -/
structure Selected (r : Rbs) (g : GroupKey) (r' : Rbs) : Prop where
  openGroups : ∀ g' grp, r.openGroups g' = some grp → r'.openGroups g' = some grp
  writable : ∀ g' ∈ r'.writableGroups, g' ∈ r.writableGroups ∨ r.openGroups g' = none
  tasks : r'.tasks = r.tasks
  calls : r'.calls = r.calls
  ok : r'.Ok
  mem : g ∈ r'.writableGroups
  how : (r'.writableGroups = r.writableGroups ∧
      (writableRows r'.rows).length = (writableRows r.rows).length) ∨
    r'.writableGroups = [g] ∧ r.writableGroups = [] ∧
      (∃ grp, r'.openGroups g = some grp ∧ grp.state = .writable) ∧
      (((writableRows r'.rows).length = (writableRows r.rows).length ∧
          ∃ row ∈ writableRows r'.rows, row.id = g) ∨
        writableRows r.rows = [] ∧ (writableRows r'.rows).length ≤ 1 ∧
          r'.openGroups g = some ⟨.writable, 0, 0, 0, 0⟩)

omit X in
/-- A group that is opened to be written is the only one. -/
theorem selected_opened {v r' : Rbs} (hr : r.writableGroups = [])
    (hgroups : ∀ g' grp, r.openGroups g' = some grp → v.openGroups g' = some grp)
    (hw : v.writableGroups = []) (htasks : v.tasks = r.tasks) (hcalls : v.calls = r.calls)
    (hnone : v.openGroups g = none)
    (hr' : r' = opened g .writable ⟨.writable, 0, 0, blocks, bytes⟩ v)
    (hhow : ((writableRows r'.rows).length = (writableRows r.rows).length ∧
          ∃ row ∈ writableRows r'.rows, row.id = g) ∨
        writableRows r.rows = [] ∧ (writableRows r'.rows).length ≤ 1 ∧
          r'.openGroups g = some ⟨.writable, 0, 0, 0, 0⟩) : Selected r g r' := by
  subst hr'
  have hw' : (opened g .writable ⟨.writable, 0, 0, blocks, bytes⟩ v).writableGroups = [g] := by
    simp [opened, hw]
  have hrnone : r.openGroups g = none := by
    rw [Option.eq_none_iff_forall_not_mem]
    intro grp hgrp
    rw [hgroups g grp hgrp] at hnone
    exact absurd hnone (by simp)
  refine ⟨fun g' grp hg' => ?_, ?_, htasks, hcalls, ⟨?_, ?_⟩, ?_,
    Or.inr ⟨hw', hr, ⟨_, Function.update_self .., rfl⟩, hhow⟩⟩
  · have hne : g' ≠ g := by
      rintro rfl
      rw [hrnone] at hg'
      exact absurd hg' (by simp)
    simp only [opened, setGroup, Function.update_of_ne hne]
    exact hgroups g' grp hg'
  · rw [hw', List.forall_mem_singleton]
    exact Or.inr hrnone
  · rw [hw']
    exact List.nodup_singleton g
  · rw [hw', List.forall_mem_singleton]
    simp [opened, setGroup]
  · rw [hw']
    exact List.mem_singleton_self g

theorem wp_createGroup (hr : r.writableGroups = []) (hrows : writableRows r.rows = []) :
    wp F createGroup (.returns fun g r' => Selected r g r') r := by
  refine wp_returns_seq (wp_returns_wrapErr wp_ensureSpaceForGroup) ?_
  rintro - u hu
  refine wp_returns_seq (R := fun g r' => r' = { u with
    rows := u.rows ++ [⟨g, 0, 0, .writable, 0, false⟩] }) (wp_returns_wrapErr ?_) ?_
  · refine wp_returns_get (wp_returns_seq (R := fun _ r' => r' = u) ?_ ?_)
    · exact wp_returns_failIf fun _ => rfl
    rintro - u rfl
    refine wp_returns_seq (wp_returns_step (Q := fun _ r' => r' = { u with
      rows := u.rows ++ [⟨BitVec.ofNat 64 (nextId u.rows), 0, 0, .writable, 0, false⟩] }) rfl) ?_
    rintro - _ rfl
    rfl
  rintro g _ rfl
  refine wp_returns_seq (wp_returns_wrapErr wp_openGroup) ?_
  rintro - _ ⟨hnone, v, hv, rfl⟩
  have hempty : writableRows u.rows = [] := by
    rw [← List.length_eq_zero_iff, hu.rows, hrows, List.length_nil]
  refine selected_opened hr (fun g' grp hg' => ?_) (hv.writableGroups.trans ?_)
    (hv.tasks.trans hu.tasks) (hv.grown.calls.trans hu.calls) ?_ rfl (Or.inr ⟨hrows, ?_, ?_⟩)
  · rw [hv.openGroups]
    exact hu.openGroups g' grp hg'
  · rw [hu.writableGroups, hr]
  · rw [hv.openGroups]
    exact hnone
  · have : writableRows v.rows = [⟨g, 0, 0, .writable, 0, false⟩] := by
      rw [hv.rows, writableRows, List.filter_append, ← writableRows, hempty]
      rfl
    rw [opened, setGroup, this, List.length_singleton]
  · simp [opened, setGroup]

theorem wp_selectGroup (hok : r.Ok) :
    wp F selectGroup (.returns fun g r' => Selected r g r') r := by
  refine wp_returns_get ?_
  split_ifs with hr
  · refine wp_returns_mono wp_returns_choose ?_
    rintro g _ ⟨hmem, rfl⟩
    exact ⟨fun _ _ => id, fun _ => Or.inl, rfl, rfl, ⟨hok.nodup, hok.isOpen⟩, hmem,
      Or.inl ⟨rfl, rfl⟩⟩
  -- none is open for writing: one of the database, or a new one
  have hr : r.writableGroups = [] := not_not.mp hr
  refine wp_returns_seq (R := fun row r' => Frame [] r r' ∧ (row = none → writableRows r.rows = []) ∧
    ∀ x, row = some x → x ∈ writableRows r.rows) ?_ ?_
  · refine wp_returns_seq (R := fun _ r' => r' = r) (wp_returns_wrapErr (wp_returns_step rfl)) ?_
    rintro - r rfl
    refine wp_returns_get ?_
    split_ifs with hnil
    · exact ⟨.refl r, fun _ => hnil, by simp⟩
    refine wp_returns_seq wp_returns_choose ?_
    rintro row _ ⟨hmem, rfl⟩
    exact ⟨.of_eq rfl rfl rfl rfl (List.append_nil _).symm, by simp, by simpa using hmem⟩
  rintro row u ⟨hu, hnil, hmem⟩
  have hur : u.writableGroups = [] := hu.writableGroups.trans hr
  cases row with
  | none =>
    have hrows : writableRows r.rows = [] := hnil rfl
    refine wp_returns_wrapErr (wp_returns_mono (wp_createGroup hur (hu.rows.trans hrows)) ?_)
    intro g r' h
    exact {
      openGroups := fun g' grp hg' => h.openGroups g' grp (by rw [hu.openGroups, hg'])
      writable := fun g' hg' => by
        rw [← hu.writableGroups, ← hu.openGroups]
        exact h.writable g' hg'
      tasks := h.tasks.trans hu.tasks
      calls := h.calls.trans hu.grown.calls
      ok := h.ok
      mem := h.mem
      how := by rw [← hu.writableGroups, ← hu.rows]; exact h.how }
  -- the row is of a group that is not open yet
  | some row =>
    have hrow : row ∈ writableRows r.rows := hmem row rfl
    have hstate : row.state = .writable := by
      simpa using (List.mem_filter.mp hrow).2
    refine wp_returns_seq (wp_returns_wrapErr wp_openRow) ?_
    rintro - _ ⟨hnone, v, hv, rfl⟩
    rw [hstate]
    refine selected_opened hr (fun g' grp hg' => ?_) (hv.writableGroups.trans hur)
      (hv.tasks.trans hu.tasks) (hv.grown.calls.trans hu.grown.calls) ?_ rfl
      (Or.inl ⟨?_, row, ?_, rfl⟩)
    · rw [hv.openGroups, hu.openGroups, hg']
    · rw [hv.openGroups, hnone]
    · rw [opened, setGroup, hv.rows, hu.rows]
    · rw [opened, setGroup, hv.rows, hu.rows]
      exact hrow

/-! ## One iteration -/

omit X in
theorem wp_dropFilled (hmem : g ∈ r.writableGroups) (hopen : r.openGroups g = some grp) :
    wp F (dropFilled g) (.returns fun _ r' => (grp.state = .writable ∧ r' = r) ∨
      (grp.state ≠ .writable ∧ r' = { r with
        writableGroups := r.writableGroups.erase g, tasks := r.tasks ++ [g] })) r := by
  refine wp_returns_get ?_
  rw [if_pos hmem]
  refine wp_returns_seq wp_returns_getGroup ?_
  rintro grp' r ⟨rfl, hgrp'⟩
  obtain rfl : grp' = grp := Option.some.inj (hgrp'.symm.trans hopen)
  beta_reduce
  split_ifs with h
  · exact Or.inr ⟨h, rfl⟩
  · exact Or.inl ⟨not_not.mp h, rfl⟩

end

/-- The call is about blocks. -/
def Call.isWrite : Call → Bool
  | put _ c _ => !c.isEmpty
  | addGroup _ c _ => !c.isEmpty

/-- The calls of an iteration: its run is given to the log of its group
and to the top index. -/
def Iter.calls (it : Iter) : List Call :=
  if it.blocks = [] then [] else Group.callsOf it.group it.blocks

theorem filter_callsOf (g : GroupKey) (b : List Block) (retired : Bool) :
    (Group.callsOf g b).filter Call.isWrite = Iter.calls ⟨g, b, retired⟩ := by
  cases b with
  | nil => rfl
  | cons blk b => rfl

/-- **An iteration** of the loop, with the blocks `b` not done. -/
structure Iterated (b : List Block) (it : Iter) (r r' : Rbs) : Prop where
  ok : r'.Ok
  blocks : it.blocks <+: b
  progress : it.blocks ≠ [] ∨ it.retired = true
  calls : r'.calls.filter Call.isWrite = r.calls.filter Call.isWrite ++ it.calls
  tasks : r'.tasks = r.tasks ++ if it.retired then [it.group] else []
  retired : it.retired = true → it.group ∉ r'.writableGroups ∧
    ∃ grp, r'.openGroups it.group = some grp ∧ grp.state ≠ .writable
  kept : ∀ g grp, r.openGroups g = some grp → g ∉ r.writableGroups →
    r'.openGroups g = some grp ∧ g ∉ r'.writableGroups
  less : 3 * (b.length - it.blocks.length) + r'.retirable < 3 * b.length + r.retirable

/-- **`Put` of a selected group**, which need not be writable. -/
structure PutOut (g : GroupKey) (b : List Block) (n : ℕ) (r r' : Rbs) : Prop where
  le : n ≤ b.length
  openGroups : ∃ grp, r'.openGroups = Function.update r.openGroups g (some grp) ∧
    (n = 0 → grp.state ≠ .writable)
  writableGroups : r'.writableGroups = r.writableGroups
  tasks : r'.tasks = r.tasks
  calls : r'.calls.filter Call.isWrite =
    r.calls.filter Call.isWrite ++ (Group.callsOf g (b.take n)).filter Call.isWrite
  rows : (writableRows r'.rows).length ≤ (writableRows r.rows).length
  full : n = 0 → (∃ grp, r.openGroups g = some grp ∧ grp.state = .writable) →
    (∃ row ∈ writableRows r.rows, row.id = g) →
      (writableRows r'.rows).length < (writableRows r.rows).length
  space : r.openGroups g = some ⟨.writable, 0, 0, 0, 0⟩ →
    (∀ blk ∈ b, (blk.data.length : ℤ) ≤ maxGroupSize) → 1 ≤ n

section

variable [X : Carlog.External]

theorem Group.wp_put (hopen : r.openGroups g = some grp) (hb : b ≠ []) :
    wp F (put g b) (.returns fun n r' => PutOut g b n r r') r := by
  have hlen : 0 < b.length := List.length_pos_iff.mpr hb
  by_cases hstate : grp.state = .writable
  · refine wp_returns_mono (wp_put_writable hopen hstate hb) ?_
    rintro n r' ⟨rfl, h⟩
    obtain ⟨grp', hgrp', hstate'⟩ := h.openGroups
    refine ⟨space_le grp b, ⟨grp', hgrp', fun hn => ?_⟩, h.writableGroups, h.tasks, ?_, h.rows,
      fun hn _ hrow => h.full (by omega) hrow, fun hnew hsize => ?_⟩
    · rw [hstate', if_pos (by omega)]
      decide
    · rw [h.calls, List.filter_append]
    · obtain rfl : grp = _ := Option.some.inj (hopen.symm.trans hnew)
      cases b with
      | nil => exact absurd rfl hb
      | cons blk b => exact one_le_space (hsize blk List.mem_cons_self) b
  · rw [put, if_neg hb]
    refine wp_returns_seq wp_returns_getGroup ?_
    rintro grp' r ⟨rfl, hgrp'⟩
    obtain rfl : grp' = grp := Option.some.inj (hgrp'.symm.trans hopen)
    rw [if_pos hstate]
    refine ⟨Nat.zero_le _, ⟨grp', ?_, fun _ => hstate⟩, rfl, rfl, by simp [callsOf, Call.isWrite],
      le_rfl, ?_, ?_⟩
    · rw [← hopen, Function.update_eq_self]
    · rintro - ⟨grp, hgrp, hw⟩
      rw [Option.some.inj (hopen.symm.trans hgrp)] at hstate
      exact absurd hw hstate
    · intro hnew
      rw [Option.some.inj (hopen.symm.trans hnew)] at hstate
      exact absurd rfl hstate

end

/-- What is left of the measure of the loop behind `Put`. -/
theorem retirable_put {s t : Rbs} {n : ℕ}
    (hsize : ∀ blk ∈ b, (blk.data.length : ℤ) ≤ maxGroupSize) (hs : Selected r g s)
    (ht : PutOut g b n s t) :
    (n = 0 → t.retirable < r.retirable + 1) ∧ t.retirable ≤ r.retirable + 2 := by
  have hrows := ht.rows
  simp only [Rbs.retirable, ht.writableGroups]
  rcases hs.how with ⟨hw, hlen⟩ | ⟨hw, hr, hstate, ⟨hlen, hrow⟩ | ⟨hnil, hlen, hnew⟩⟩
  · rw [hw]
    omega
  · rw [hw, hr, List.length_singleton, List.length_nil]
    refine ⟨fun hn => ?_, by omega⟩
    have := ht.full hn hstate hrow
    omega
  · have := ht.space hnew hsize
    rw [hw, hr, hnil, List.length_singleton, List.length_nil]
    omega

/-- **The three parts of an iteration**: a group is selected, the blocks
are put, and a group that was filled is dropped. -/
theorem iterated {s t u : Rbs} {n : ℕ}
    (hsize : ∀ blk ∈ b, (blk.data.length : ℤ) ≤ maxGroupSize) (hs : Selected r g s)
    (ht : PutOut g b n s t) (hu : ∀ grp, t.openGroups g = some grp →
      (grp.state = .writable ∧ u = t) ∨ (grp.state ≠ .writable ∧ u = { t with
        writableGroups := t.writableGroups.erase g, tasks := t.tasks ++ [g] })) :
    Iterated b ⟨g, b.take n, decide (g ∉ u.writableGroups)⟩ r u := by
  obtain ⟨grp, hgrp, hn⟩ := ht.openGroups
  have hopen : t.openGroups g = some grp := by rw [hgrp, Function.update_self]
  have hmem : g ∈ t.writableGroups := ht.writableGroups ▸ hs.mem
  have hnodup : t.writableGroups.Nodup := ht.writableGroups ▸ hs.ok.nodup
  obtain ⟨hless, hless'⟩ := retirable_put hsize hs ht
  have htake : (b.take n).length = n := by rw [List.length_take, Nat.min_eq_left ht.le]
  have hle := ht.le
  -- a group that was open, and not writable, is not the selected one
  have hkept : ∀ g' grp', r.openGroups g' = some grp' → g' ∉ r.writableGroups →
      t.openGroups g' = some grp' ∧ g' ∉ t.writableGroups := by
    intro g' grp' hg' hnot
    have hnot' : g' ∉ s.writableGroups := fun h => (hs.writable g' h).elim hnot fun hnone => by
      rw [hnone] at hg'
      exact absurd hg' (by simp)
    have hne : g' ≠ g := fun h => hnot' (h ▸ hs.mem)
    refine ⟨?_, ht.writableGroups ▸ hnot'⟩
    rw [hgrp, Function.update_of_ne hne]
    exact hs.openGroups g' grp' hg'
  have hsome : ∀ g' ∈ t.writableGroups, (t.openGroups g').isSome := by
    intro g' hg'
    by_cases hne : g' = g
    · rw [hne, hopen]
      rfl
    · rw [hgrp, Function.update_of_ne hne]
      exact hs.ok.isOpen g' (ht.writableGroups ▸ hg')
  have hcalls : t.calls.filter Call.isWrite =
      r.calls.filter Call.isWrite ++ Iter.calls ⟨g, b.take n, decide (g ∉ u.writableGroups)⟩ := by
    rw [ht.calls, hs.calls, filter_callsOf]
  rcases hu grp hopen with ⟨hstate, rfl⟩ | ⟨hstate, rfl⟩
  · -- the group can still be written, so something was
    have hpos : n ≠ 0 := fun h => hn h hstate
    have hnot : decide (g ∉ u.writableGroups) = false := by simp [hmem]
    refine ⟨⟨hnodup, hsome⟩, List.take_prefix n b, Or.inl ?_, hcalls, ?_, ?_, hkept, ?_⟩
    · intro (hnil : b.take n = [])
      rw [hnil] at htake
      exact hpos htake.symm
    · rw [ht.tasks, hs.tasks, hnot]
      simp
    · rw [hnot]
      exact fun h => absurd h (by simp)
    · rw [htake]
      omega
  -- the group was filled: one group less is left to write to
  · have hlen : (t.writableGroups.erase g).length = t.writableGroups.length - 1 :=
      List.length_erase_of_mem hmem
    have hpos : 0 < t.writableGroups.length := List.length_pos_of_mem hmem
    have hgone : g ∉ t.writableGroups.erase g := hnodup.not_mem_erase
    refine ⟨⟨hnodup.erase g, fun g' hg' => hsome g' (List.mem_of_mem_erase hg')⟩,
      List.take_prefix n b, Or.inr (by simpa using hgone), hcalls, ?_, fun _ => ⟨hgone, grp, hopen,
        hstate⟩, fun g' grp' hg' hnot => ?_, ?_⟩
    · simp [ht.tasks, hs.tasks, hgone]
    · obtain ⟨hopen', hnot'⟩ := hkept g' grp' hg' hnot
      exact ⟨hopen', fun h => hnot' (List.mem_of_mem_erase h)⟩
    · simp only [Rbs.retirable, hlen, htake] at hless hless' ⊢
      rcases Nat.eq_zero_or_pos n with rfl | hn0
      · have := hless rfl
        omega
      · omega

/-! ## The loop -/

section

variable [X : Carlog.External]

theorem Batch.wp_putStep {bt : Batch} (hok : r.Ok) (hb : b ≠ [])
    (hsize : ∀ blk ∈ b, (blk.data.length : ℤ) ≤ maxGroupSize) :
    wp F (bt.putStep b) (.returns fun e r' => e.1.toFlush = bt.toFlush.insert e.2.group ∧
      Iterated b e.2 r r') r := by
  refine wp_returns_seq (R := fun e u => Iterated b ⟨e.1, b.take e.2,
    decide (e.1 ∉ u.writableGroups)⟩ r u) (wp_returns_wrapErr ?_) ?_
  · refine wp_returns_seq (wp_selectGroup hok) ?_
    intro g s hs
    obtain ⟨grp, hgrp⟩ := Option.isSome_iff_exists.mp (hs.ok.isOpen g hs.mem)
    refine wp_returns_seq (Group.wp_put hgrp hb) ?_
    intro n t ht
    obtain ⟨grp', hgrp', -⟩ := ht.openGroups
    have hopen : t.openGroups g = some grp' := by rw [hgrp', Function.update_self]
    refine wp_returns_seq (wp_dropFilled (ht.writableGroups ▸ hs.mem) hopen) ?_
    intro _ u hu
    refine iterated hsize hs ht fun x hx => ?_
    obtain rfl : grp' = x := Option.some.inj (hopen.symm.trans hx)
    exact hu
  · rintro ⟨gk, wrote⟩ u hu
    exact ⟨rfl, hu⟩

/-- **What `Batch.Put` has done when it returns**, iteration by iteration. -/
structure Placed (b : List Block) (its : List Iter) (bt bt' : Batch) (r r' : Rbs) : Prop where
  /-- The list is cut, in order, into the runs of the iterations. -/
  cut : its.flatMap Iter.blocks = b
  /-- Every iteration writes a block or retires a group. -/
  progress : ∀ it ∈ its, it.blocks ≠ [] ∨ it.retired = true
  /-- Each run is given to the log and to the top index of its group, and
  nothing else is. -/
  calls : r'.calls.filter Call.isWrite = r.calls.filter Call.isWrite ++ its.flatMap Iter.calls
  /-- The groups are to be flushed. -/
  toFlush : ∀ g, g ∈ bt'.toFlush ↔ g ∈ bt.toFlush ∨ ∃ it ∈ its, it.group = g
  /-- A group that was retired is full, and is to be finalized. -/
  retired : ∀ it ∈ its, it.retired = true → it.group ∉ r'.writableGroups ∧
    ∃ grp, r'.openGroups it.group = some grp ∧ grp.state ≠ .writable
  tasks : r'.tasks = r.tasks ++ (its.filter Iter.retired).map Iter.group

omit X in
/-- An iteration and the rest of the loop. -/
theorem Placed.cons {it : Iter} {its : List Iter} {bt u v : Batch} {s : Rbs}
    (hflush : u.toFlush = bt.toFlush.insert it.group) (hit : Iterated b it r s)
    (hrest : Placed (b.drop it.blocks.length) its u v s r')
    (hkept : ∀ g grp, s.openGroups g = some grp → g ∉ s.writableGroups →
      r'.openGroups g = some grp ∧ g ∉ r'.writableGroups) :
    Placed b (it :: its) bt v r r' where
  cut := by
    rw [List.flatMap_cons, hrest.cut]
    exact List.prefix_iff_eq_append.mp hit.blocks
  progress := List.forall_mem_cons.mpr ⟨hit.progress, hrest.progress⟩
  calls := by rw [hrest.calls, hit.calls, List.flatMap_cons, List.append_assoc]
  toFlush g := by
    rw [hrest.toFlush, hflush, List.mem_insert_iff]
    simp only [List.mem_cons, exists_eq_or_imp, eq_comm (a := g)]
    tauto
  retired := by
    refine List.forall_mem_cons.mpr ⟨fun h => ?_, hrest.retired⟩
    obtain ⟨hnot, grp, hopen, hstate⟩ := hit.retired h
    obtain ⟨hopen', hnot'⟩ := hkept it.group grp hopen hnot
    exact ⟨hnot', grp, hopen', hstate⟩
  tasks := by
    rw [hrest.tasks, hit.tasks, List.filter_cons, List.append_assoc]
    cases it.retired <;> simp

omit X in
theorem Placed.nil {bt : Batch} : Placed [] [] bt bt r r :=
  ⟨rfl, by simp, by simp, by simp, by simp, by simp⟩

/-- **The loop**, from the state it is in. -/
theorem Batch.wp_put (fuel : ℕ) {bt : Batch} {b : List Block} {r : Rbs} (hok : r.Ok)
    (hsize : ∀ blk ∈ b, (blk.data.length : ℤ) ≤ maxGroupSize)
    (hfuel : 3 * b.length + r.retirable ≤ fuel) :
    wp F (put fuel bt b) (.returns fun res r' => ∃ bt' its, res = some (bt', its) ∧
      Placed b its bt bt' r r' ∧ ∀ g grp, r.openGroups g = some grp → g ∉ r.writableGroups →
        r'.openGroups g = some grp ∧ g ∉ r'.writableGroups) r := by
  induction fuel generalizing bt b r with
  | zero =>
    have hb : b = [] := List.length_eq_zero_iff.mp (by omega)
    subst hb
    exact ⟨bt, [], rfl, .nil, fun _ _ h hnot => ⟨h, hnot⟩⟩
  | succ fuel ih =>
    cases b with
    | nil => exact ⟨bt, [], rfl, .nil, fun _ _ h hnot => ⟨h, hnot⟩⟩
    | cons blk b =>
      refine wp_returns_seq (wp_putStep hok (by simp) hsize) ?_
      rintro ⟨u, it⟩ s ⟨hflush, hit⟩
      have hless : 3 * ((blk :: b).length - it.blocks.length) + s.retirable <
          3 * (blk :: b).length + r.retirable := hit.less
      refine wp_returns_seq (ih hit.ok (fun x hx => hsize x (List.mem_of_mem_drop hx))
        (by rw [List.length_drop]; omega)) ?_
      rintro _ r' ⟨v, its, rfl, hplaced, hkept⟩
      refine ⟨v, it :: its, rfl, .cons hflush hit hplaced hkept, fun g grp hg hnot => ?_⟩
      obtain ⟨hg', hnot'⟩ := hit.kept g grp hg hnot
      exact hkept g grp hg' hnot'

/-- **Every block is placed exactly once.** The loop of `Batch.Put` ends,
whatever happens in the operations of logs, index and database; and when it
returns nil it has placed the blocks. -/
theorem Batch.put_places {r : Rbs} (hok : r.Ok) {b : List Block}
    (hsize : ∀ blk ∈ b, (blk.data.length : ℤ) ≤ maxGroupSize) (bt : Batch) {fuel : ℕ}
    (hfuel : 3 * b.length + r.retirable ≤ fuel) (plan : List Fate) :
    ((put fuel bt b).run r plan).Sat (.returns fun res r' =>
      ∃ bt' its, res = some (bt', its) ∧ Placed b its bt bt' r r') :=
  wp_sound (F := anyFate) (wp_returns_mono (wp_put fuel hok hsize hfuel)
    fun _ _ ⟨bt', its, hres, hplaced, _⟩ => ⟨bt', its, hres, hplaced⟩) (within_anyFate plan)

end

section

open Carlog.Encoding

/-- The block of the byte 7. -/
def seven : Block := ⟨[0, 1, 7], [7]⟩

/-- One block, in a new store. -/
theorem Batch.put_places_seven : ((put 3 .new [seven]).run .empty []).Sat (.returns fun res r' =>
    ∃ bt' its, res = some (bt', its) ∧ Placed [seven] its .new bt' .empty r') :=
  put_places (r := .empty) ⟨List.nodup_nil, by simp [Rbs.empty]⟩ (by decide) .new (by decide) []

example : ∃ r', (Batch.put 3 .new [seven]).run .empty [] =
    .ok (some (⟨1, [1]⟩, [⟨1, [seven], false⟩])) r' := ⟨_, rfl⟩

end

end Rbstor

end Ribs
