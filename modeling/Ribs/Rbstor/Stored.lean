import Ribs.Carlog.Keeps
import Ribs.Rbstor.Batch
import Ribs.Rbstor.TopIndex
/-!
# Rbstor — what the store keeps

The store is seen as two sets of pairs of a group and a multihash: the
blocks that were put, and among them those that are durable. `Stored A C`
holds in every state between two critical sections of the store: the logs
of the groups in use keep the blocks of `A`, those of `C` through every
crash, the top index lists the groups, and a group without writes in
flight, or one that is not written any more, has all of its blocks
durable.
-/

namespace Ribs

open Common

namespace Rbstor

open Carlog (Block Keeps Closed)

/-! ## Listed groups -/

namespace PebbleIndex

/-- Both keys of the pair are in the database. -/
def Lists (db : Db) (m : Multihash) (g : GroupKey) : Prop :=
  db[groupKeyOf m g]?.isSome ∧ db[sizeKey m]?.isSome

variable {db : Db} {m : Multihash} {g g' : GroupKey} {mh : List Multihash} {sizes : List I32}

/-- **`GetGroups` reports the group.** -/
theorem Lists.mem_listed (h : Lists db m g) (hg : NonNegative g) : g ∈ listed db m := by
  obtain ⟨hgroup, hsize⟩ := h
  obtain ⟨val, hval⟩ := Option.isSome_iff_exists.mp hsize
  rw [listed, hval]
  exact List.mem_append_right _ (mem_iterGroups_of_isSome hgroup hg)

/-- `AddGroup` lists its multihashes, and takes nothing out. -/
theorem lists_add (hlen : mh.length ≤ sizes.length) (h : Lists db m g ∨ m ∈ mh ∧ g = g') :
    Lists (commit db (addBatch mh sizes g')) m g := by
  refine ⟨(isSome_groupKey_add hlen).mpr (h.symm.imp_right And.left), ?_⟩
  by_cases hm : m ∈ mh
  · obtain ⟨n, -, hn⟩ := sizeKey_add_of_mem db g' hlen hm
    rw [hn]
    rfl
  · rw [sizeKey_add_of_not_mem hm]
    exact (h.resolve_right fun hmg => hm hmg.1).2

theorem of_mem_dropWrites {w : Write Bytes Bytes} (h : w ∈ dropWrites db g m) :
    w = .delete (groupKeyOf m g) ∨ ∃ val, w = .set (sizeKey m) val := by
  rcases List.mem_cons.mp h with rfl | h
  · exact Or.inl rfl
  · cases hval : db[sizeKey m]? with
    | none => simp [hval] at h
    | some val =>
      simp only [hval] at h
      split_ifs at h
      · exact Or.inr ⟨_, List.mem_singleton.mp h⟩
      · exact absurd h List.not_mem_nil

/-- `DropGroup` takes out only pairs of its group. -/
theorem Lists.drop (h : Lists db m g) (hne : g ≠ g') : Lists (dropGroup db mh g') m g := by
  refine ⟨?_, ?_⟩
  · refine commit_induction (P := fun x => x.isSome) db h.1 fun w hw hk => ?_
    obtain ⟨m', -, hw⟩ := List.mem_flatMap.mp hw
    rcases of_mem_dropWrites hw with rfl | ⟨val, rfl⟩
    · exact absurd (groupKeyOf_injective hk).2.symm hne
    · rfl
  · refine commit_induction (P := fun x => x.isSome) db h.2 fun w hw hk => ?_
    obtain ⟨m', -, hw⟩ := List.mem_flatMap.mp hw
    rcases of_mem_dropWrites hw with rfl | ⟨val, rfl⟩
    · exact absurd hk.symm sizeKey_ne_groupKeyOf
    · rfl

theorem Lists.foldl_drop (h : Lists db m g) (hne : g ≠ g') (l : List (List Multihash)) :
    Lists (l.foldl (fun db mh => dropGroup db mh g') db) m g := by
  induction l generalizing db with
  | nil => exact h
  | cons mh l ih => exact ih (h.drop hne)

end PebbleIndex

open PebbleIndex (Lists)

/-! ## The invariant -/

/-- The group is written, or was. -/
def GroupState.InUse : GroupState → Prop
  | .writable => True
  | .full => True
  | _ => False

/-- Blocks of groups. -/
abbrev Pairs := GroupKey → Multihash → Prop

section

variable [X : Carlog.External]

/-- **A group in use.** -/
structure GroupOk (Is : Multihash → Bytes → Prop) (A C : Pairs) (r : Rbs) (g : GroupKey)
    (grp : Group) : Prop where
  row : ∃ row ∈ r.rows, row.id = g ∧ row.state.InUse
  inflight : 0 ≤ grp.inflightBlocks
  log : Keeps Is (A g)
    (fun m => C g m ∨ A g m ∧ (grp.inflightBlocks = 0 ∨ g ∉ r.writableGroups)) (r.log g)

/-- **The store keeps the blocks `A`**, those of `C` through every crash. -/
structure Stored (Is : Multihash → Bytes → Prop) (U : GroupKey → Prop) (A C : Pairs) (r : Rbs) :
    Prop where
  le : ∀ g m, C g m → A g m
  /-- The ids are a key of the table, and count from one. -/
  ids : (r.rows.map Row.id).Nodup
  nonNegative : ∀ row ∈ r.rows, NonNegative row.id
  /-- No group had the ids that are not in the table. -/
  fresh : ∀ g, (∀ row ∈ r.rows, row.id ≠ g) → (r.log g).disk = .empty
  /-- The groups that the database has as writable. -/
  closed : ∀ row ∈ r.rows, row.state = .writable → r.openGroups row.id = none →
    Closed Is (r.log row.id).disk
  nodup : r.writableGroups.Nodup
  writable : ∀ g ∈ r.writableGroups, ∃ grp, r.openGroups g = some grp ∧ grp.state.InUse
  groups : ∀ g grp, r.openGroups g = some grp → grp.state.InUse → GroupOk Is A C r g grp
  put : ∀ g m, A g m →
    (∃ grp, r.openGroups g = some grp ∧ grp.state.InUse) ∧ Lists r.index m g
  /-- The groups that are known to be in use. -/
  inUse : ∀ g, U g → ∃ grp, r.openGroups g = some grp ∧ grp.state.InUse

variable {Is : Multihash → Bytes → Prop} {U : GroupKey → Prop} {A C : Pairs} {F : Fates}
  {r r' : Rbs} {g : GroupKey}
  {grp : Group} {w : Carlog.World}

namespace Stored

/-- **What is durable.** -/
theorem durable (h : Stored Is U A C r) {m : Multihash} (hm : C g m) :
    Carlog.Durable Is (r.log g).disk m ∧ g ∈ PebbleIndex.listed r.index m := by
  obtain ⟨⟨grp, hgrp, huse⟩, hlists⟩ := h.put g m (h.le g m hm)
  have hok := h.groups g grp hgrp huse
  obtain ⟨row, hrow, rfl, -⟩ := hok.row
  exact ⟨hok.log.durable (Or.inl hm), hlists.mem_listed (h.nonNegative row hrow)⟩

/-- Less is known to be durable. -/
theorem imp {C' : Pairs} (h : Stored Is U A C r) (hC : ∀ g m, C' g m → C g m) : Stored Is U A C' r :=
  { h with
    le := fun g m hm => h.le g m (hC g m hm)
    groups := fun g grp hgrp huse => { h.groups g grp hgrp huse with
      log := (h.groups g grp hgrp huse).log.imp fun m hm => hm.imp_left (hC g m) } }

/-- Less is known to be put. -/
theorem imp_put {A' : Pairs} (h : Stored Is U A C r) (hA : ∀ g m, A' g m → A g m)
    (hle : ∀ g m, C g m → A' g m) : Stored Is U A' C r :=
  { h with
    le := hle
    groups := fun g grp hgrp huse => { h.groups g grp hgrp huse with
      log := ((h.groups g grp hgrp huse).log.imp fun m hm =>
        hm.imp_right (And.imp_left (hA g m))).imp_put (hA g) }
    put := fun g m hm => h.put g m (hA g m hm) }

/-- A group that can be written is in use. -/
theorem use (h : Stored Is U A C r) (hg : g ∈ r.writableGroups) :
    Stored Is (fun g' => U g' ∨ g' = g) A C r :=
  { h with inUse := fun g' hg' => hg'.elim (h.inUse g') fun heq => heq ▸ h.writable g hg }

/-- **A group that is not written any more** has its blocks durable. -/
theorem settled (h : Stored Is U A C r) :
    Stored Is U A (fun g m => C g m ∨ A g m ∧ g ∉ r.writableGroups) r :=
  { h with
    le := fun g m hm => hm.elim (h.le g m) And.left
    groups := fun g grp hgrp huse => { h.groups g grp hgrp huse with
      log := (h.groups g grp hgrp huse).log.imp fun m hm => by tauto } }

/-- The state of the row of a group in use. -/
theorem inUse_of_row (h : Stored Is U A C r) (hgrp : r.openGroups g = some grp)
    (huse : grp.state.InUse) {row : Row} (hrow : row ∈ r.rows) (hid : row.id = g) :
    row.state.InUse := by
  obtain ⟨row', hrow', hid', huse'⟩ := (h.groups g grp hgrp huse).row
  rwa [List.inj_on_of_nodup_map h.ids hrow hrow' (hid.trans hid'.symm)]

/-- The rest of the store does not matter. -/
theorem of_eq (h : Stored Is U A C r) (hgroups : r'.openGroups = r.openGroups)
    (hw : r'.writableGroups = r.writableGroups) (hrows : r'.rows = r.rows) (hlog : r'.log = r.log)
    (hindex : r'.index = r.index) : Stored Is U A C r' where
  le := h.le
  ids := hrows ▸ h.ids
  nonNegative := hrows ▸ h.nonNegative
  fresh g hg := by
    rw [hlog]
    exact h.fresh g (hrows ▸ hg)
  closed row hrow hstate hnone := by
    rw [hlog]
    exact h.closed row (hrows ▸ hrow) hstate (hgroups ▸ hnone)
  nodup := hw ▸ h.nodup
  writable := by
    rw [hw, hgroups]
    exact h.writable
  groups g grp hgrp huse := by
    have hok := h.groups g grp (hgroups ▸ hgrp) huse
    exact ⟨hrows ▸ hok.row, hok.inflight, by rw [hw, hlog]; exact hok.log⟩
  put g m hm := by
    rw [hgroups, hindex]
    exact h.put g m hm
  inUse g hg := by
    rw [hgroups]
    exact h.inUse g hg

/-- The top index has grown, or lost pairs of other groups. -/
theorem setIndex (h : Stored Is U A C r) {db : Db}
    (hdb : ∀ g m, A g m → Lists r.index m g → Lists db m g) :
    Stored Is U A C { r with index := db } :=
  { h with
    groups := fun g grp hgrp huse => { h.groups g grp hgrp huse with }
    put := fun g m hm => ⟨(h.put g m hm).1, hdb g m hm (h.put g m hm).2⟩ }

/-- Rows change, and groups in use stay in use. -/
theorem mapRows (h : Stored Is U A C r) {f : Row → Row} (hid : ∀ row, (f row).id = row.id)
    (huse : ∀ row, row.state.InUse → (f row).state.InUse)
    (hclosed : ∀ row, (f row).state = .writable → r.openGroups row.id = none →
      row.state = .writable) : Stored Is U A C { r with rows := r.rows.map f } where
  le := h.le
  ids := by
    have hcomp : Row.id ∘ f = Row.id := funext hid
    rw [List.map_map, hcomp]
    exact h.ids
  nonNegative row hrow := by
    obtain ⟨row', hrow', rfl⟩ := List.mem_map.mp hrow
    rw [hid]
    exact h.nonNegative row' hrow'
  fresh g hg := h.fresh g fun row hrow => hid row ▸ hg (f row) (List.mem_map_of_mem hrow)
  closed row hrow hstate hnone := by
    obtain ⟨row', hrow', rfl⟩ := List.mem_map.mp hrow
    rw [hid] at hnone ⊢
    exact h.closed row' hrow' (hclosed row' hstate hnone) hnone
  nodup := h.nodup
  writable := h.writable
  groups g grp hgrp hgrpUse := by
    have hok := h.groups g grp hgrp hgrpUse
    obtain ⟨row, hrow, hrowId, hrowUse⟩ := hok.row
    exact { hok with
      row := ⟨f row, List.mem_map_of_mem hrow, (hid row).trans hrowId, huse row hrowUse⟩ }
  put := h.put
  inUse := h.inUse

/-- **A group in use changes**, with its log. -/
theorem update (h : Stored Is U A C r) (hgrp : r.openGroups g = some grp) (huse : grp.state.InUse)
    {grp' : Group} {A' C' : Multihash → Prop} (huse' : grp'.state.InUse)
    (hinflight : 0 ≤ grp'.inflightBlocks) (hle : ∀ m, C' m → A' m)
    (hlists : ∀ m, A' m → Lists r.index m g)
    (hlog : Keeps Is A' (fun m => C' m ∨ A' m ∧ (grp'.inflightBlocks = 0 ∨ g ∉ r.writableGroups)) w) :
    Stored Is U (Function.update A g A') (Function.update C g C')
      (setGroup g grp' (setLog g w r)) := by
  have hrow := (h.groups g grp hgrp huse).row
  refine ⟨fun g' m hm => ?_, h.ids, h.nonNegative, fun g' hg' => ?_, fun row hrow' hstate hnone => ?_,
    h.nodup, fun g' hg' => ?_, fun g' x hx hxuse => ?_, fun g' m hm => ?_, fun g' hg' => ?_⟩
  · rcases eq_or_ne g' g with rfl | hne
    · rw [Function.update_self] at hm ⊢
      exact hle m hm
    · rw [Function.update_of_ne hne] at hm ⊢
      exact h.le g' m hm
  -- the group has a row, so it is not one that is still to be made
  · obtain ⟨row, hrow, hid, -⟩ := hrow
    have hne : g' ≠ g := fun heq => hg' row hrow (hid.trans heq.symm)
    simp only [setGroup, setLog, Function.update_of_ne hne]
    exact h.fresh g' hg'
  · have hne : row.id ≠ g := fun heq => by simp [setGroup, heq] at hnone
    simp only [setGroup, setLog, Function.update_of_ne hne] at hnone ⊢
    exact h.closed row hrow' hstate hnone
  · rcases eq_or_ne g' g with rfl | hne
    · exact ⟨grp', by simp [setGroup], huse'⟩
    · simp only [setGroup, Function.update_of_ne hne]
      exact h.writable g' hg'
  · rcases eq_or_ne g' g with rfl | hne
    · simp only [setGroup, Function.update_self, Option.some.injEq] at hx
      subst hx
      -- the group itself, with its new log
      refine ⟨hrow, hinflight, ?_⟩
      simpa only [setGroup, setLog, Function.update_self] using hlog
    · simp only [setGroup, Function.update_of_ne hne] at hx
      have hok := h.groups g' x hx hxuse
      refine ⟨hok.row, hok.inflight, ?_⟩
      simpa only [setGroup, setLog, Function.update_of_ne hne] using hok.log
  · rcases eq_or_ne g' g with rfl | hne
    · rw [Function.update_self] at hm
      exact ⟨⟨grp', by simp [setGroup], huse'⟩, hlists m hm⟩
    · rw [Function.update_of_ne hne] at hm
      simp only [setGroup, Function.update_of_ne hne]
      exact h.put g' m hm
  · rcases eq_or_ne g' g with rfl | hne
    · exact ⟨grp', by simp [setGroup], huse'⟩
    · simp only [setGroup, Function.update_of_ne hne]
      exact h.inUse g' hg'

/-- A group that is not open has no blocks here. -/
theorem not_put (h : Stored Is U A C r) (hnone : r.openGroups g = none) (m : Multihash) : ¬ A g m := by
  intro hm
  obtain ⟨⟨grp, hgrp, -⟩, -⟩ := h.put g m hm
  rw [hnone] at hgrp
  exact absurd hgrp (by simp)

/-- **The log of a group that is not in use** changes. -/
theorem setLog_other (h : Stored Is U A C r)
    (hnot : ∀ grp, r.openGroups g = some grp → ¬ grp.state.InUse)
    (hrow : ∃ row ∈ r.rows, row.id = g) (hclosed : ∀ row ∈ r.rows, row.id = g →
      row.state = .writable → r.openGroups g = none → Closed Is w.disk) :
    Stored Is U A C (setLog g w r) := by
  refine ⟨h.le, h.ids, h.nonNegative, fun g' hg' => ?_, fun row hrow' hstate hnone => ?_, h.nodup,
    h.writable, fun g' x hx hxuse => ?_, h.put, h.inUse⟩
  · obtain ⟨row, hrow, hid⟩ := hrow
    have hne : g' ≠ g := fun heq => hg' row hrow (hid.trans heq.symm)
    simp only [setLog, Function.update_of_ne hne]
    exact h.fresh g' hg'
  · rcases eq_or_ne row.id g with heq | hne
    · simp only [setLog, heq, Function.update_self]
      exact hclosed row hrow' heq hstate (heq ▸ hnone)
    · simp only [setLog, Function.update_of_ne hne]
      exact h.closed row hrow' hstate hnone
  · have hne : g' ≠ g := fun heq => hnot x (heq ▸ hx) hxuse
    have hok := h.groups g' x hx hxuse
    refine ⟨hok.row, hok.inflight, ?_⟩
    simpa only [setLog, Function.update_of_ne hne] using hok.log

/-- **A group is opened**: one that was not open has no blocks here, and
when it is to be written its log was opened. -/
theorem opened {state : GroupState} {blocks bytes : ℤ} (h : Stored Is U A C r)
    (hnone : r.openGroups g = none) (hrow : ∃ row ∈ r.rows, row.id = g ∧ row.state = state)
    (hlog : state.InUse → Keeps Is (fun _ => False) (fun _ => False) w) :
    Stored Is U A C (opened g state ⟨state, 0, 0, blocks, bytes⟩
      (Group.cleanUp g (setLog g w r))) := by
  have hA : ∀ m, ¬ A g m := h.not_put hnone
  have hopen : ∀ {g'}, g' ≠ g →
      (Rbstor.opened g state ⟨state, 0, 0, blocks, bytes⟩
        (Group.cleanUp g (setLog g w r))).openGroups g' = r.openGroups g' := fun hne => by
    simp [Rbstor.opened, setGroup, Group.cleanUp, setLog, hne]
  have hself : (Rbstor.opened g state ⟨state, 0, 0, blocks, bytes⟩
      (Group.cleanUp g (setLog g w r))).openGroups g = some ⟨state, 0, 0, blocks, bytes⟩ := by
    simp [Rbstor.opened, setGroup]
  -- every group of `writableGroups` is open
  have hnot : g ∉ r.writableGroups := fun hg => by
    obtain ⟨grp, hgrp, -⟩ := h.writable g hg
    rw [hnone] at hgrp
    exact absurd hgrp (by simp)
  -- the cleanup drops the group, and opening it may add it again; the others stay
  have hw : ∀ {g'}, g' ≠ g → (g' ∈ (Rbstor.opened g state ⟨state, 0, 0, blocks, bytes⟩
      (Group.cleanUp g (setLog g w r))).writableGroups ↔ g' ∈ r.writableGroups) := by
    intro g' hne
    simp only [Rbstor.opened, Group.cleanUp, setLog]
    split_ifs
    · rw [List.erase_of_not_mem hnot, List.mem_cons, or_iff_right hne]
    · rfl
  refine ⟨h.le, h.ids, h.nonNegative, fun g' hg' => ?_, fun row hrow' hstate hnone' => ?_, ?_,
    fun g' hg' => ?_, fun g' x hx hxuse => ?_, fun g' m hm => ?_, fun g' hg' => ?_⟩
  · obtain ⟨row, hrow, hid, -⟩ := hrow
    have hne : g' ≠ g := fun heq => hg' row hrow (hid.trans heq.symm)
    simp only [Rbstor.opened, setGroup, Group.cleanUp, setLog, Function.update_of_ne hne]
    exact h.fresh g' hg'
  · have hne : row.id ≠ g := fun heq => by
      rw [heq, hself] at hnone'
      exact absurd hnone' (by simp)
    rw [hopen hne] at hnone'
    simp only [Rbstor.opened, setGroup, Group.cleanUp, setLog, Function.update_of_ne hne]
    exact h.closed row hrow' hstate hnone'
  · simp only [Rbstor.opened, Group.cleanUp, setLog]
    split_ifs
    · rw [List.erase_of_not_mem hnot]
      exact List.nodup_cons.mpr ⟨hnot, h.nodup⟩
    · exact h.nodup
  · rcases eq_or_ne g' g with rfl | hne
    · refine ⟨_, hself, ?_⟩
      simp only [Rbstor.opened, Group.cleanUp, setLog] at hg'
      split_ifs at hg' with hstate
      · simp [hstate, GroupState.InUse]
      · exact absurd hg' hnot
    · rw [hopen hne]
      exact h.writable g' ((hw hne).mp hg')
  · rcases eq_or_ne g' g with rfl | hne
    · rw [hself, Option.some.injEq] at hx
      subst hx
      obtain ⟨row, hrow, hid, hstate⟩ := hrow
      refine ⟨⟨row, hrow, hid, hstate ▸ hxuse⟩, le_rfl, ?_⟩
      have hnil : A g' = fun _ => False := funext fun m => propext (iff_false_intro (hA m))
      rw [hnil]
      simp only [Rbstor.opened, setGroup, Group.cleanUp, setLog, Function.update_self]
      exact (hlog hxuse).imp fun m hm => hm.elim (fun hC => hA m (h.le g' m hC)) fun h => h.1
    · rw [hopen hne] at hx
      have hok := h.groups g' x hx hxuse
      refine ⟨hok.row, hok.inflight, ?_⟩
      rw [hw hne]
      simpa only [Rbstor.opened, setGroup, Group.cleanUp, setLog, Function.update_of_ne hne]
        using hok.log
  · have hne : g' ≠ g := fun heq => hA m (heq ▸ hm)
    rw [hopen hne]
    obtain ⟨hopen', hlists⟩ := h.put g' m hm
    exact ⟨hopen', hlists.foldl_drop hne _⟩
  · obtain ⟨grp, hgrp, huse⟩ := h.inUse g' hg'
    have hne : g' ≠ g := by
      rintro rfl
      rw [hnone] at hgrp
      exact absurd hgrp (by simp)
    exact ⟨grp, (hopen hne).trans hgrp, huse⟩

/-- **A group is not written any more**, once its blocks are durable. -/
theorem erase (h : Stored Is U A C r) (hg : ∀ grp, r.openGroups g = some grp → grp.state.InUse →
    Keeps Is (A g) (A g) (r.log g)) {tasks : List GroupKey} :
    Stored Is U A C { r with writableGroups := r.writableGroups.erase g, tasks := tasks } := by
  refine { h with
    nodup := h.nodup.erase g
    writable := fun g' hg' => h.writable g' (List.mem_of_mem_erase hg')
    groups := fun g' x hx hxuse => ?_ }
  have hok := h.groups g' x hx hxuse
  refine ⟨hok.row, hok.inflight, ?_⟩
  rcases eq_or_ne g' g with rfl | hne
  · exact (hg x hx hxuse).imp fun m hm => hm.elim (h.le g' m) And.left
  · refine hok.log.imp fun m hm => hm.imp_right (And.imp_right (Or.imp_right fun hnot hmem => ?_))
    exact hnot ((List.mem_erase_of_ne hne).mpr hmem)

/-- **A new group** gets its row. -/
theorem newRow (h : Stored Is U A C r) (hnew : ∀ row ∈ r.rows, row.id ≠ g) (hg : NonNegative g) :
    Stored Is U A C { r with rows := r.rows ++ [⟨g, 0, 0, .writable, 0, false⟩] } where
  le := h.le
  ids := by
    rw [List.map_append, List.nodup_append]
    refine ⟨h.ids, List.nodup_singleton _, ?_⟩
    rintro _ hmem _ hmem' rfl
    obtain ⟨row, hrow, hid⟩ := List.mem_map.mp hmem
    simp only [List.map_cons, List.map_nil, List.mem_singleton] at hmem'
    exact hnew row hrow (hid.trans hmem')
  nonNegative row hrow := by
    rcases List.mem_append.mp hrow with hrow | hrow
    · exact h.nonNegative row hrow
    · rw [List.mem_singleton.mp hrow]
      exact hg
  fresh g' hg' := h.fresh g' fun row hrow => hg' row (List.mem_append_left _ hrow)
  closed row hrow hstate hnone := by
    rcases List.mem_append.mp hrow with hrow | hrow
    · exact h.closed row hrow hstate hnone
    · rw [List.mem_singleton.mp hrow]
      exact Or.inr (by simp [h.fresh g hnew, Carlog.Disk.empty])
  nodup := h.nodup
  writable := h.writable
  groups g' x hx hxuse := by
    have hok := h.groups g' x hx hxuse
    obtain ⟨row, hrow, hid, huse⟩ := hok.row
    exact { hok with row := ⟨row, List.mem_append_left _ hrow, hid, huse⟩ }
  put := h.put
  inUse := h.inUse

end Stored

end

end Rbstor

end Ribs
