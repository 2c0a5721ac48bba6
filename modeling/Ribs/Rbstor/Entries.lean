import Ribs.Rbstor.InStep
import Ribs.Rbstor.OffloadCandidate
/-!
# Rbstor — the entries of offloaded groups

An offload sets the state of its group, in memory and in the database,
drops the log, and writes the entry for the group last. When every offload
that is begun comes to its end, no group is left offloaded without an
entry, and the candidate for a drop is one that is ready for deals.
-/

namespace Ribs

open Common

namespace Rbstor

open Carlog (Block)

variable {α : Type} {r r' : Rbs} {g : GroupKey} {grp : Group} {row : Row} {st : GroupState}
  {l : Life}

/-- **Every group that was offloaded has its entry**: in the database and,
for what a sync may write there, in memory. -/
structure Entered (r : Rbs) : Prop where
  rows : ∀ row ∈ r.rows, row.state = .offloaded → row.offloaded = true
  groups : ∀ g, stateOf g r = some .offloaded → ∀ row ∈ r.rows, row.id = g → row.offloaded = true
  known : ∀ g, stateOf g r ≠ none → ∃ row ∈ r.rows, row.id = g
  /-- `id` is the primary key. -/
  ids : (r.rows.map Row.id).Nodup

/-- It stays so. -/
def EntriesStay (r r' : Rbs) : Prop := Entered r → Entered r'

instance : IsPreorder Rbs EntriesStay where
  refl _ := id
  trans _ _ _ h h' := fun hr => h' (h hr)

abbrev KeepsEntries {α : Type} (m : Op α) : Prop := Respects EntriesStay m

/-! ## What is written -/

theorem Entered.of_same (h : Entered r) (hsame : SameTables r r') : Entered r' := by
  obtain ⟨hrows, hstates⟩ := hsame
  refine ⟨?_, fun g => ?_, fun g => ?_, ?_⟩
  · rw [hrows]
    exact h.rows
  · rw [hrows, hstates]
    exact h.groups g
  · rw [hrows, hstates]
    exact h.known g
  · rw [hrows]
    exact h.ids

/-- Rows are changed. -/
theorem Entered.setRows (h : Entered r) {f : Row → Row} (hid : ∀ row, (f row).id = row.id)
    (hoff : ∀ row, row.offloaded = true → (f row).offloaded = true)
    (hst : ∀ row ∈ r.rows, (f row).state = .offloaded → (f row).offloaded = true) :
    Entered { r with rows := r.rows.map f } := by
  refine ⟨fun row hrow => ?_, fun g hg row hrow heq => ?_, fun g hg => ?_, ?_⟩
  · obtain ⟨old, hold, rfl⟩ := List.mem_map.mp hrow
    exact hst old hold
  · obtain ⟨old, hold, rfl⟩ := List.mem_map.mp hrow
    exact hoff old (h.groups g hg old hold ((hid old).symm.trans heq))
  · obtain ⟨row, hrow, rfl⟩ := h.known g hg
    exact ⟨f row, List.mem_map_of_mem hrow, hid row⟩
  · have hids : (r.rows.map f).map Row.id = r.rows.map Row.id := by
      rw [List.map_map]
      exact List.map_congr_left fun row _ => hid row
    rw [hids]
    exact h.ids

/-- A group is in memory in another state. -/
theorem Entered.opened (h : Entered r) (ho : Opened g st r r') (hrow : ∃ row ∈ r.rows, row.id = g)
    (hst : st = .offloaded → ∀ row ∈ r.rows, row.id = g → row.offloaded = true) : Entered r' := by
  refine ⟨?_, fun g' hg' => ?_, fun g' hg' => ?_, ?_⟩
  · rw [ho.rows]
    exact h.rows
  · rw [ho.rows]
    by_cases heq : g' = g
    · subst heq
      rw [ho.self, Option.some_inj] at hg'
      exact hst hg'
    · rw [ho.other g' heq] at hg'
      exact h.groups g' hg'
  · rw [ho.rows]
    by_cases heq : g' = g
    · exact heq ▸ hrow
    · rw [ho.other g' heq] at hg'
      exact h.known g' hg'
  · rw [ho.rows]
    exact h.ids

/-- The entry of a row that is offloaded is that of its group. -/
theorem Entered.of_row (h : Entered r) (hrow : row ∈ r.rows) (hst : row.state = .offloaded) :
    ∀ row' ∈ r.rows, row'.id = row.id → row'.offloaded = true := by
  intro row' hrow' heq
  obtain rfl := List.inj_on_of_nodup_map h.ids hrow' hrow heq
  exact h.rows row' hrow hst

/-! ## What keeps the entries -/

theorem keepsEntries_of (h : ∀ r, Entered r → wp anyFate m (.always Entered) r) :
    KeepsEntries (m : Op α) := by
  intro r
  by_cases hr : Entered r
  · exact wp_always_mono (h r hr) fun _ ht _ => ht
  · exact wp_mono wp_trivial (fun _ _ _ h => absurd h hr) (fun _ _ _ h => absurd h hr)
      (fun _ _ h => absurd h hr) fun _ _ _ h => absurd h hr

theorem Entered.wp {m : Op α} (h : Entered r) (hm : KeepsEntries m) :
    wp anyFate m (.always Entered) r := wp_always_mono (hm r) fun _ ht => ht h

theorem keepsEntries_of_tables {m : Op α} (h : Respects SameTables m) : KeepsEntries m := fun r =>
  wp_always_mono (h r) fun _ ht hr => hr.of_same ht

theorem KeepsEntries.wrapErr {m : Op α} (h : KeepsEntries m) {s : String} :
    KeepsEntries (wrapErr s m) := h.handle fun _ => .throw

theorem tables_modifyGroup {f : Group → Group} (hf : ∀ grp, (f grp).state = grp.state) :
    Respects SameTables (modifyGroup g f) := fun r => by
  refine wp_getGroup_bind ⟨rfl, fun _ => rfl⟩ fun grp hgrp => ⟨rfl, fun g' => ?_⟩
  rcases eq_or_ne g' g with rfl | hne
  · exact same_setGroup hgrp (hf grp)
  · exact (opened_setGroup rfl : Opened g _ r _).other g' hne

theorem keepsEntries_setState (hst : st ≠ .offloaded) : KeepsEntries (Group.setState g st) := by
  refine keepsEntries_of fun r hr => wp_getGroup_bind hr fun grp hgrp => ?_
  have hknown := hr.known g (by simp [stateOf, hgrp])
  exact hr.opened (opened_setGroup rfl) hknown fun h => absurd h hst

theorem keepsEntries_setGroupState (hst : st ≠ .offloaded) :
    KeepsEntries (Group.setGroupState g st) := by
  refine .step fun r hr => hr.setRows (fun row => setState_id) (fun row h => ?_)
    fun row hrow h => ?_
  · split <;> exact h
  · split at h
    · exact absurd h hst
    · rename_i hne
      rw [if_neg hne]
      exact hr.rows row hrow h

theorem keepsEntries_advanceState (hst : st ≠ .offloaded) :
    KeepsEntries (Group.advanceState g st) :=
  (keepsEntries_setState hst).bind fun _ => keepsEntries_setGroupState hst

/-! ## The operations -/

theorem keepsEntries_writeOffloadEntry : KeepsEntries (writeOffloadEntry g) := by
  refine .step fun r hr => hr.setRows (fun row => ?_) (fun row h => ?_) fun row hrow h => ?_
  · split <;> rfl
  · split
    · rfl
    · exact h
  · split at h
    · rename_i heq
      rw [if_pos heq]
    · rename_i hne
      rw [if_neg hne]
      exact hr.rows row hrow h

/-- The database gets the state that is in memory. -/
theorem keepsEntries_setGroupHead {grp : Group} {commBlk commSz at_ : ℤ} (h : Entered r)
    (hgrp : r.openGroups g = some grp) : wp anyFate
      (wrapErr "update group head" (setGroupHead g grp.state commBlk commSz at_))
      (.always Entered) r := by
  have hstate : stateOf g r = some grp.state := by rw [stateOf, hgrp, Option.map_some]
  have hnew : Entered { r with rows := r.rows.map (groupHead g grp.state commBlk commSz at_) } := by
    refine h.setRows groupHead_id (fun row hrow => ?_) fun row hrow hst => ?_
    · unfold groupHead
      split <;> exact hrow
    · unfold groupHead at hst ⊢
      split at hst
      · rename_i heq
        rw [if_pos heq]
        exact h.groups g (hstate.trans (congrArg some hst)) row hrow heq
      · rename_i hne
        rw [if_neg hne]
        exact h.rows row hrow hst
  exact wp_wrapErr_always ⟨hnew, fun _ _ => h, fun _ => h⟩

section

variable [X : Carlog.External]

omit X in
theorem keepsEntries_sync : KeepsEntries (Group.sync g) := by
  refine (keepsEntries_of_tables (tables_wrapErr tables_onLog)).bind fun at_ =>
    (keepsEntries_of_tables (tables_modifyGroup (f := Group.committed) fun _ => rfl)).bind
    fun _ => ?_
  exact keepsEntries_of fun r hr =>
    wp_getGroup_bind hr fun grp hgrp => keepsEntries_setGroupHead hr hgrp

theorem tables_write {b : List Block} : Respects SameTables (Group.write g b) := by
  have hput : Respects SameTables (Group.putLog g b) :=
    (tables_wrapErr tables_onLog).bind fun _ => .modify fun _ => ⟨rfl, fun _ => rfl⟩
  have hadd : Respects SameTables (Group.addIndex g b) := .get fun r => by
    split
    · exact .fault
    · exact tables_wrapErr (.step fun _ => ⟨rfl, fun _ => rfl⟩)
  refine hput.attempt.bind fun put => hadd.attempt.bind fun add => ?_
  split
  · exact .throw
  · exact .throw
  · exact .ret

theorem keepsEntries_put {b : List Block} : KeepsEntries (Group.put g b) := by
  refine keepsEntries_of fun r hr => ?_
  unfold Group.put
  split_ifs
  · exact hr
  refine wp_getGroup_bind hr fun grp hgrp => ?_
  by_cases hstate : grp.state ≠ .writable
  · rw [if_pos hstate]
    exact hr
  rw [if_neg hstate, wp_bind, wp_modify]
  have hne : (grp.reserved b).state ≠ .offloaded := by
    unfold Group.reserved
    dsimp only
    split
    · decide
    · rw [Decidable.not_not.mp hstate]
      decide
  have hknown := hr.known g (by simp [stateOf, hgrp])
  refine (hr.opened (opened_setGroup rfl) hknown fun h => absurd h hne).wp ?_
  refine (keepsEntries_of_tables tables_write).bind fun _ => .ite (fun _ => ?_) fun _ => .ret
  exact (keepsEntries_sync.wrapErr.bind fun _ =>
    keepsEntries_of_tables (tables_wrapErr tables_onLog)).bind fun _ => .pure

theorem keepsEntries_finalize : KeepsEntries (Group.finalize g) := by
  refine (keepsEntries_of_tables tables_failUnless).bind fun _ => .bind ?_ fun _ =>
    (keepsEntries_of_tables (tables_wrapErr tables_onLog)).bind fun _ =>
    (keepsEntries_advanceState (by decide)).wrapErr
  refine (keepsEntries_of_tables tables_onLog).handle fun e => ?_
  split
  · exact .ret
  · exact .throw

omit X in
theorem keepsEntries_loadFilCar {car : Bytes} {sz : ℕ} :
    KeepsEntries (Group.loadFilCar g car sz) :=
  (keepsEntries_of_tables tables_failUnless).bind fun _ =>
    (keepsEntries_of_tables (tables_wrapErr tables_onLog)).bind fun _ =>
    (keepsEntries_advanceState (by decide)).wrapErr

omit X in
theorem keepsEntries_offloadStaging : KeepsEntries (Group.offloadStaging g) :=
  (keepsEntries_of_tables tables_getGroup).bind fun _ =>
    (keepsEntries_of_tables tables_failIf).bind fun _ =>
    (keepsEntries_of_tables (tables_wrapErr tables_onLog)).bind fun _ =>
    keepsEntries_writeOffloadEntry.wrapErr

/-- A group is opened in the state of its row. -/
theorem entered_openGroup {blocks bytes jbhead : ℤ} {create : Bool} (h : Entered r)
    (hrow : row ∈ r.rows) : wp anyFate
      (openGroup row.id blocks bytes jbhead row.state create) (.always Entered) r :=
  wp_mono wp_openGroup_tables
    (fun _ _ ho => h.opened ho ⟨row, hrow, rfl⟩ fun hst => h.of_row hrow hst)
    (fun _ _ => h.of_same) (fun _ => h.of_same) fun _ _ => h.of_same

/-! ## With the flag -/

/-- The entries stay, in a life. -/
def EntriesStayLife (l l' : Life) : Prop := EntriesStay l.rbs l'.rbs

instance : IsPreorder Life EntriesStayLife where
  refl _ := id
  trans _ _ _ h h' := fun hr => h' (h hr)

omit X in
theorem keepsEntries_onRbs {m : Op α} (h : KeepsEntries m) :
    Respects EntriesStayLife (onRbs m) := fun l =>
  wp_onRbs_always (Q := EntriesStayLife l) (h l.rbs)

omit X in
theorem wp_groupMeta : wp anyFate (Group.groupMeta g)
    ⟨fun gm l' => l' = l ∧ gm.1 ∈ l.rbs.rows ∧ gm.1.id = g, fun _ l' => l' = l, fun l' => l' = l,
      fun _ l' => l' = l⟩ l := by
  unfold Group.groupMeta
  rw [wp_bind]
  refine wp_onRbs (wp_step.mpr ⟨?_, fun _ => rfl, fun _ => rfl⟩)
  have hself : setRbs (id l.rbs) l = l := rfl
  dsimp only
  rw [hself, wp]
  cases hfind : l.rbs.rows.find? fun row => row.id = g with
  | none => rfl
  | some row =>
    have hid := List.find?_some hfind
    exact ⟨rfl, List.mem_of_find?_eq_some hfind, by simpa using hid⟩

omit X in
theorem keepsEntries_groupMeta : Respects EntriesStayLife (Group.groupMeta g) := fun l => by
  refine wp_mono wp_groupMeta ?_ ?_ ?_ ?_
  · rintro _ _ ⟨rfl, -⟩
    exact id
  · rintro _ _ rfl
    exact id
  · rintro _ rfl
    exact id
  · rintro _ _ rfl
    exact id

theorem keepsEntries_openLife {create : Bool} (h : Entered l.rbs) :
    wp anyFate (Group.openLife g create) (.always fun l' => Entered l'.rbs) l := by
  unfold Group.openLife
  refine wp_seq wp_groupMeta ?_ ?_ ?_ ?_
  · rintro gm l' ⟨rfl, hrow, rfl⟩
    rw [wp_bind]
    exact wp_onRbs (entered_openGroup h hrow)
  · rintro _ _ rfl
    exact h
  · rintro _ rfl
    exact h
  · rintro _ _ rfl
    exact h

theorem keepsEntries_genCommP : Respects EntriesStayLife (Group.genCommP g) := by
  have hcar : Respects EntriesStayLife (Group.writeCar g) := .get fun l => .ite (fun _ => .throw)
    fun _ => keepsEntries_onRbs ((keepsEntries_of_tables tables_onLog).bind fun _ => .pure)
  have hset : (GroupState.localReadyForDeals : GroupState) ≠ .offloaded := by decide
  refine (keepsEntries_onRbs (keepsEntries_of_tables tables_failUnless)).bind fun _ =>
    hcar.bind fun carSize => (Respects.step fun _ => id).bind fun _ => ?_
  exact (keepsEntries_onRbs (keepsEntries_setState hset)).bind fun _ =>
    (keepsEntries_onRbs (keepsEntries_setGroupState hset)).bind fun _ => .modify fun _ => id

theorem keepsEntries_finDataReload : Respects EntriesStayLife (Group.finDataReload g) := by
  refine .bind ?_ fun _ => keepsEntries_onRbs (keepsEntries_advanceState (by decide)).wrapErr
  refine (keepsEntries_onRbs (keepsEntries_of_tables tables_failUnless)).bind fun _ =>
    keepsEntries_groupMeta.bind fun gm => ?_
  rcases gm.2 with _ | carSize
  · exact .throw
  · exact keepsEntries_onRbs (keepsEntries_of_tables (tables_wrapErr tables_onLog))

/-! ## Offloads -/

omit X in
/-- An offload that is refused. -/
theorem entered_offload_refused (h : Entered l.rbs)
    (hst : stateOf g l.rbs ≠ some .localReadyForDeals) :
    wp anyFate (Group.offload g) (.always fun l' => Entered l'.rbs) l := by
  unfold Group.offload
  rw [wp_bind, wp_modify]
  refine wp_onRbs_always (Q := fun l' => Entered l'.rbs) ?_
  exact wp_bind.mpr (wp_failUnless h h fun hlocal => absurd hlocal hst)

omit X in
theorem entered_eq (h : row.id = g) : (entered g row).offloaded = true := by
  rw [entered, if_pos h]

omit X in
theorem entered_id : (entered g row).id = row.id := by
  unfold entered
  split <;> rfl

/-- The entries are all there, once that of `g` is written. -/
def EnteredWith (g : GroupKey) (r : Rbs) : Prop :=
  Entered { r with rows := r.rows.map (entered g) }

omit X in
theorem Entered.enteredWith (h : Entered r) : EnteredWith g r := by
  have hstays : ∀ row : Row, row.offloaded = true → (entered g row).offloaded = true := by
    intro row hrow
    unfold entered
    split
    · rfl
    · exact hrow
  refine h.setRows (fun row => entered_id) hstays fun row hrow hst => ?_
  by_cases heq : row.id = g
  · exact entered_eq heq
  · rw [entered, if_neg heq] at hst ⊢
    exact h.rows row hrow hst

omit X in
theorem EnteredWith.of_same (h : EnteredWith g r) (hsame : SameTables r r') : EnteredWith g r' :=
  Entered.of_same h ⟨congrArg (List.map (entered g)) hsame.1, hsame.2⟩

omit X in
/-- The state is set, in memory and in the database. -/
theorem enteredWith_advanceState (h : EnteredWith g r) :
    wp anyFate (Group.advanceState g .offloaded) (.returns fun _ r' => EnteredWith g r') r := by
  have hentry : ∀ row ∈ r.rows.map (entered g), row.id = g → row.offloaded = true := by
    intro row hrow heq
    obtain ⟨old, -, rfl⟩ := List.mem_map.mp hrow
    exact entered_eq (entered_id.symm.trans heq)
  refine wp_returns_seq (R := fun _ r' => r'.rows = r.rows ∧ EnteredWith g r') ?_ ?_
  · refine wp_getGroup_bind trivial fun grp hgrp => ⟨rfl, ?_⟩
    have hknown := Entered.known h g (by simp [stateOf, hgrp])
    exact Entered.opened h (opened_setGroup rfl) hknown fun _ => hentry
  · rintro _ u ⟨hrows, hu⟩
    refine wp_returns_step ?_
    have hcomm : ∀ row : Row,
        entered g (if row.id = g then { row with state := .offloaded } else row) =
        if (entered g row).id = g then { entered g row with state := .offloaded }
        else entered g row := by
      intro row
      unfold entered
      split <;> simp [*]
    have hset := hu.setRows
      (f := fun row => if row.id = g then { row with state := .offloaded } else row)
      (fun row => setState_id) (fun row hrow => by split <;> exact hrow) fun row hrow hst => by
        split at hst
        · rename_i heq
          rw [if_pos heq]
          rw [hrows] at hrow
          exact hentry row hrow heq
        · rename_i hne
          rw [if_neg hne]
          exact Entered.rows hu row hrow hst
    refine Entered.of_same hset ⟨?_, fun _ => rfl⟩
    simp only [List.map_map]
    exact List.map_congr_left fun row _ => hcomm row

omit X in
/-- **An offload that returns nil has written the entry.** -/
theorem entered_offload_returns (h : Entered l.rbs) :
    wp anyFate (Group.offload g) (.returns fun _ l' => Entered l'.rbs) l := by
  unfold Group.offload
  rw [wp_bind, wp_modify]
  refine wp_onRbs ?_
  change wp anyFate (Group.offloadLog g) (.returns fun _ r' => Entered r') l.rbs
  have hwith : EnteredWith g l.rbs := h.enteredWith
  refine wp_returns_seq (R := fun _ r' => EnteredWith g r') ?_ fun _ t ht => ?_
  · exact wp_mono (tables_failUnless l.rbs) (fun _ _ hsame => hwith.of_same hsame)
      (fun _ _ _ => trivial) (fun _ _ => trivial) fun _ _ _ => trivial
  refine wp_returns_seq (wp_returns_handle (enteredWith_advanceState ht)) fun _ u hu => ?_
  refine wp_returns_seq (R := fun _ r' => EnteredWith g r') ?_ fun _ v hv => ?_
  · refine wp_mono (tables_onLog.handle (fun e => ?_) u) (fun _ _ hsame => hu.of_same hsame)
      (fun _ _ _ => trivial) (fun _ _ => trivial) fun _ _ _ => trivial
    split
    · exact .ret
    · exact .throw
  · exact wp_returns_handle (wp_returns_step hv)

/-! ## New groups -/

theorem entered_withReadableGroup {cb : Op Unit} (h : Entered r) (hrow : row ∈ r.rows)
    (hcb : KeepsEntries cb) : wp anyFate (withReadableGroup row cb) (.always Entered) r := by
  unfold withReadableGroup
  refine wp_seq (R := ⟨fun _ r' => r' = r, fun _ r' => r' = r, fun r' => r' = r,
    fun _ r' => r' = r⟩) ?_ ?_ (fun _ _ heq => heq ▸ h) (fun _ heq => heq ▸ h)
    fun _ _ heq => heq ▸ h
  · exact ⟨rfl, fun _ _ => rfl, fun _ => rfl⟩
  · rintro _ u rfl
    change wp anyFate (if (u.openGroups row.id).isSome then cb else openRow row >>= fun _ => cb) _ u
    split
    · exact h.wp hcb
    · exact wp_always_bind (entered_openGroup h hrow) (fun _ => id) fun _ _ ht => ht.wp hcb

theorem keepsEntries_ensureSpaceForGroup : KeepsEntries ensureSpaceForGroup := by
  have hcount : Respects SameTables
      (wrapErr "counting non-offloaded groups" countNonOffloadedGroups) :=
    tables_wrapErr ((Respects.step fun _ => refl _).bind fun _ => .get fun _ => .ret)
  refine (keepsEntries_of_tables hcount).bind fun n => .ite (fun _ => .ret) fun _ => ?_
  refine keepsEntries_of fun r hr => ?_
  have hrow : wp anyFate (wrapErr "getting offload candidate" getOffloadCandidate)
      ⟨fun c r' => r' = r ∧ c = candidate r.rows, fun _ r' => r' = r, fun r' => r' = r,
        fun _ r' => r' = r⟩ r := ⟨⟨rfl, rfl⟩, fun _ _ => rfl, fun _ => rfl⟩
  refine wp_seq hrow ?_ (fun _ _ heq => heq ▸ hr) (fun _ heq => heq ▸ hr)
    fun _ _ heq => heq ▸ hr
  rintro c u ⟨rfl, rfl⟩
  cases hc : candidate u.rows with
  | none => exact hr
  | some row =>
    exact entered_withReadableGroup hr (mem_candidate hc).1 keepsEntries_offloadStaging

omit X in
/-- A new row. -/
theorem Entered.append (h : Entered r) (hid : ∀ row' ∈ r.rows, row'.id ≠ row.id)
    (hst : row.state ≠ .offloaded) : Entered { r with rows := r.rows ++ [row] } := by
  refine ⟨fun row' hrow' hst' => ?_, fun g hg row' hrow' heq => ?_, fun g hg => ?_, ?_⟩
  · rcases List.mem_append.mp hrow' with hrow' | hrow'
    · exact h.rows row' hrow' hst'
    · rw [List.mem_singleton.mp hrow'] at hst'
      exact absurd hst' hst
  · rcases List.mem_append.mp hrow' with hrow' | hrow'
    · exact h.groups g hg row' hrow' heq
    · -- no group has the new id
      obtain ⟨old, hold, heq'⟩ := h.known g (by rw [show stateOf g r = _ from hg]; simp)
      rw [List.mem_singleton.mp hrow'] at heq
      exact absurd (heq'.trans heq.symm) (hid old hold)
  · obtain ⟨old, hold, heq⟩ := h.known g hg
    exact ⟨old, List.mem_append_left _ hold, heq⟩
  · rw [List.map_append, List.map_singleton]
    refine List.Nodup.append h.ids (List.nodup_singleton _) ?_
    rw [List.disjoint_singleton]
    intro hmem
    obtain ⟨old, hold, heq⟩ := List.mem_map.mp hmem
    exact hid old hold heq

omit X in
theorem entered_createGroupRow (h : Entered r) : wp anyFate
    (wrapErr "creating group" createGroupRow)
    ⟨fun id r' => Entered r' ∧ ∃ row ∈ r'.rows, row.id = id ∧ row.state = .writable,
      fun _ => Entered, Entered, fun _ => Entered⟩ r := by
  unfold createGroupRow wrapErr
  rw [wp_handle]
  change wp anyFate (failIf (2 ^ 63 ≤ nextId r.rows) .db >>= _) _ r
  rw [wp_bind]
  unfold failIf
  split
  · exact h
  · rename_i hlt
    have hfresh : ∀ row' ∈ r.rows, row'.id ≠ BitVec.ofNat 64 (nextId r.rows) := by
      intro row' hrow' heq
      have hid := lt_nextId hrow'
      rw [heq, BitVec.toNat_ofNat] at hid
      omega
    have hnew : Entered { r with
        rows := r.rows ++ [⟨BitVec.ofNat 64 (nextId r.rows), 0, 0, .writable, 0, false⟩] } :=
      h.append hfresh (fun hst => by cases hst)
    exact ⟨⟨hnew, _, List.mem_append_right _ (List.mem_singleton_self _), rfl, rfl⟩,
      fun _ _ => h, fun _ => h⟩

theorem keepsEntries_createGroup : KeepsEntries createGroup := by
  refine keepsEntries_ensureSpaceForGroup.wrapErr.bind fun _ => keepsEntries_of fun r hr => ?_
  refine wp_seq (entered_createGroupRow hr) ?_ (fun _ _ => id) (fun _ => id) fun _ _ => id
  rintro _ u ⟨hu, row, hrow, rfl, hst⟩
  refine wp_always_bind (wp_wrapErr_always ?_) (fun _ => id) fun _ _ ht => ht
  rw [← hst]
  exact entered_openGroup hu hrow

end

/-! ## Runs -/

/-- What happens to a store of many groups. -/
inductive StoreEvent where
  /-- An operation of a group, under a plan for its steps. -/
  | group (g : GroupKey) (cmd : LifeCmd) (plan : List Fate)
  | createGroup (plan : List Fate)
  /-- The process dies, between two operations. -/
  | kill

namespace Workers

variable [X : Carlog.External]

/-- The flags behind an operation of the store: `OpenGroup` sets that of a
group that comes to be open. -/
def openedFlags (w : Workers) (r : Rbs) (g : GroupKey) : Bool :=
  match stateOf g w.rbs, stateOf g r with
  | none, some st => GroupState.offloaded.ord ≤ st.ord
  | _, _ => w.offloaded g

/-- An operation of the store. -/
def onStore (m : Op Unit) (w : Workers) (plan : List Fate) : Workers :=
  let moved := fun r => { w with rbs := r, offloaded := w.openedFlags r }
  match m.run w.rbs plan with
  | .ok _ r => moved r
  | .err _ r => moved r
  | .crash r => (moved r).down
  | .fault _ r => (moved r).down

def storeNext (w : Workers) : StoreEvent → Workers
  | .group g cmd plan =>
    if (w.life g).enabled g cmd then after ((onLife g (cmd.op g)).run w plan) else w
  | .createGroup plan => w.onStore (do
      let _ ← createGroup) plan
  | .kill => w.down

end Workers

/-- **An offload that is begun comes to its end.** -/
def OffloadEnds (w : Workers) : StoreEvent → Prop
  | .group g .offload plan => stateOf g w.rbs = some .localReadyForDeals →
      ∃ l', (Group.offload g).run (w.life g) plan = .ok () l'
  | _ => True

section

variable {w : Workers}

theorem entered_down (h : Entered w.rbs) : Entered w.down.rbs :=
  ⟨h.rows, fun _ hg => (by cases hg), fun _ hg => absurd rfl hg, h.ids⟩

theorem entered_after {o : Outcome Workers Err Unit}
    (h : o.Sat (.always fun w' => Entered w'.rbs)) : Entered (Workers.after o).rbs := by
  rcases o with _ | _ | _ | _
  · exact h
  · exact h
  · exact entered_down h
  · exact entered_down h

theorem wp_onLife_entered {m : LifeOp Unit}
    (h : wp anyFate m (.always fun l' => Entered l'.rbs) (w.life g)) :
    wp anyFate (onLife g m) (.always fun w' => Entered w'.rbs) w :=
  wp_zoom (fun _ _ => by simp [Workers.life, setLife]) (fun _ _ _ => by simp [setLife])
    (fun _ => by simp [Workers.life, setLife]) h

theorem entered_onStore {m : Op Unit} (h : Entered w.rbs) (hm : KeepsEntries m) (plan : List Fate) :
    Entered (w.onStore m plan).rbs := by
  have hsat := wp_sound (h.wp hm) (within_anyFate plan)
  unfold Workers.onStore
  generalize m.run w.rbs plan = o at hsat ⊢
  rcases o with _ | _ | _ | _
  · exact hsat
  · exact hsat
  · exact entered_down (w := { w with rbs := _ }) hsat
  · exact entered_down (w := { w with rbs := _ }) hsat

variable [X : Carlog.External]

/-- **One event** keeps the entries, when an offload comes to its end. -/
theorem storeNext_entered {e : StoreEvent} (h : Entered w.rbs) (hc : OffloadEnds w e) :
    Entered (w.storeNext e).rbs := by
  cases e with
  | kill => exact entered_down h
  | createGroup plan =>
    exact entered_onStore h (keepsEntries_createGroup.bind fun _ => .pure) plan
  | group g cmd plan =>
    unfold Workers.storeNext
    dsimp only
    split
    · apply entered_after
      have hlife : ∀ {m : LifeOp Unit}, Respects EntriesStayLife m →
          ((onLife g m).run w plan).Sat (.always fun w' => Entered w'.rbs) := fun hm =>
        wp_sound (wp_onLife_entered (wp_always_mono (hm _) fun _ hl => hl h)) (within_anyFate plan)
      cases cmd with
      | openLife create =>
        exact wp_sound (wp_onLife_entered (keepsEntries_openLife h)) (within_anyFate plan)
      | put b => exact hlife (keepsEntries_onRbs (keepsEntries_put.bind fun _ => .pure))
      | sync => exact hlife (keepsEntries_onRbs keepsEntries_sync)
      | finalize => exact hlife (keepsEntries_onRbs keepsEntries_finalize)
      | genCommP => exact hlife keepsEntries_genCommP
      | loadFilCar car sz => exact hlife (keepsEntries_onRbs keepsEntries_loadFilCar)
      | finDataReload => exact hlife keepsEntries_finDataReload
      | offload =>
        by_cases hst : stateOf g w.rbs = some .localReadyForDeals
        · obtain ⟨l', hrun⟩ := hc hst
          have hsat := wp_sound (entered_offload_returns (l := w.life g) (g := g) h)
            (within_anyFate plan)
          rw [hrun] at hsat
          change ((onLife g (Group.offload g)).run w plan).Sat _
          unfold onLife
          rw [Prog.run_zoom (fun _ _ => by simp [Workers.life, setLife])
            (fun _ _ _ => by simp [setLife]) (fun _ => by simp [Workers.life, setLife]), hrun]
          exact hsat
        · exact wp_sound (wp_onLife_entered (entered_offload_refused h hst)) (within_anyFate plan)
    · exact h

omit X in
/-- No group that is offloaded is a candidate. -/
theorem candidate_eq (h : Entered r) : candidate r.rows = firstOf .localReadyForDeals r.rows := by
  have hnone : firstOf .offloaded r.rows = none := by
    rw [firstOf, List.head?_eq_none_iff, ← List.length_eq_zero_iff, List.length_mergeSort,
      List.length_eq_zero_iff, List.filter_eq_nil_iff]
    intro row hrow hc
    rw [Bool.and_eq_true, Bool.not_eq_true', decide_eq_true_iff] at hc
    rw [h.rows row hrow hc.2] at hc
    exact absurd hc.1 (by simp)
  rw [candidate, hnone, Option.none_or]

/-- **The group that is ready for deals can be freed**, the first one in the
database that has no entry, when the limit is reached. -/
def FirstReady (r : Rbs) : Prop :=
  maxLocalGroupCount ≤ localCount r.rows →
    ∀ row, firstOf .localReadyForDeals r.rows = some row → Freeable r row

omit X in
theorem firstOf_eq {rows : List Row}
    (h : rows.filter (fun row => !row.offloaded && row.state = st) = [row]) :
    firstOf st rows = some row := by
  rw [firstOf, h, List.mergeSort_singleton, List.head?_cons]

end

section

open Carlog.Encoding

/-- A log that was finalized with a staging provider. -/
def externalLog : Carlog.World :=
  { Carlog.World.empty with
    disk := { Carlog.Disk.empty with
      head := some (some ⟨true, 99, 59, 99, true, true, false, true, [59, 99]⟩)
      blockLog := some (.clean (List.replicate 99 0)) }
    jb := { Carlog.CarLog.zero with
      staging := true
      head := some true
      data := some ⟨true, false, 99⟩
      layerOffsets := [59, 99]
      eIdx := some ⟨[], ⟨1, 4096, 1, ⟨List.replicate 32 0, Bsst.length_zeroDigest⟩, 1, 7, true⟩, []⟩ } }

/-- A row of a group that is ready for deals. -/
def readyRow (g : GroupKey) : Row := ⟨g, 1, 1, .localReadyForDeals, 99, false⟩

/-- A store at its limit: the first two of its groups are ready for deals,
the others are not. -/
def fullStore : Workers where
  rbs := { Rbs.empty with
    openGroups := fun g =>
      if g = 1 ∨ g = 2 then some ⟨.localReadyForDeals, 0, 0, 1, 1⟩ else none
    rows := readyRow 1 :: readyRow 2 ::
      (List.range 62).map fun i => ⟨BitVec.ofNat 64 (i + 3), 0, 0, .writable, 0, false⟩
    log := fun _ => externalLog
    staging := true }
  offloaded := fun _ => false
  dealCarSize := fun _ => some 200
  heard := []

theorem entered_fullStore : Entered fullStore.rbs := by
  have hopen : ∀ g, stateOf g fullStore.rbs ≠ none → g = 1 ∨ g = 2 := by
    intro g hg
    by_contra hne
    refine hg ?_
    change Option.map Group.state (if g = 1 ∨ g = 2 then _ else none) = none
    rw [if_neg hne]
    rfl
  refine ⟨by decide +kernel, fun g hg => ?_, fun g hg => ?_, by decide +kernel⟩
  · rcases hopen g (by rw [hg]; simp) with rfl | rfl
    · cases hg
    · cases hg
  · rcases hopen g hg with rfl | rfl
    · exact ⟨readyRow 1, List.mem_cons_self, rfl⟩
    · exact ⟨readyRow 2, List.mem_cons_of_mem _ List.mem_cons_self, rfl⟩

/-- The read of the head fails behind the write of the state. -/
def cutOffload : StoreEvent := .group 1 .offload [.go, .fail 0]

end

end Rbstor

end Ribs
