import Ribs.Carlog.Stages
import Ribs.Rbstor.OffloadedFlag
/-!
# Rbstor — the database and the log in step

The state of a group is in its row, the stage of its log in the head of
the log, and an operation writes the one and then the other. The row is
not ahead of the head where it is written behind it, which is so for all
operations but `offload`: that one marks the row first.
-/

namespace Ribs

open Common

namespace Rbstor

open Carlog (Block Layered Marked NotHollow HeadStays KeepsHead Steady Untorn)

variable {α β : Type} {g : GroupKey} {r r' : Rbs} {l : Life} {st st' : GroupState}

/-- The head file of the log. -/
def headOf (g : GroupKey) (r : Rbs) : Option (Option Carlog.Head) := (r.log g).disk.head

/-- The state of the group in the database. -/
def rowState (g : GroupKey) (r : Rbs) : Option GroupState :=
  (r.rows.find? fun row => row.id = g).map Row.state

/-- **The database is not ahead of the log.** -/
structure InStep (g : GroupKey) (r : Rbs) : Prop where
  layered : ∀ st, rowState g r = some st → GroupState.vrcarDone.ord ≤ st.ord → Layered (headOf g r)
  marked : rowState g r = some .offloaded → Marked (headOf g r)

/-- Nor is the group in memory ahead of the log's layers. -/
structure Inv (g : GroupKey) (r : Rbs) : Prop extends InStep g r where
  memory : ∀ st, stateOf g r = some st → GroupState.vrcarDone.ord ≤ st.ord → Layered (headOf g r)

/-! ## What leaves them in step -/

@[simp] theorem headOf_setLog {w : Carlog.World} : headOf g (setLog g w r) = w.disk.head := by
  unfold headOf
  rw [setLog_log]

/-- Both states are as they were, and the head has lost nothing. -/
structure Along (g : GroupKey) (r r' : Rbs) : Prop where
  row : rowState g r' = rowState g r
  memory : stateOf g r' = stateOf g r
  layered : Layered (headOf g r) → Layered (headOf g r')
  marked : Marked (headOf g r) → Marked (headOf g r')

instance : IsPreorder Rbs (Along g) where
  refl _ := ⟨rfl, rfl, id, id⟩
  trans _ _ _ h h' := ⟨h'.row.trans h.row, h'.memory.trans h.memory, h'.layered ∘ h.layered,
    h'.marked ∘ h.marked⟩

theorem Along.inv (ha : Along g r r') (h : Inv g r) : Inv g r' where
  layered st hst hord := ha.layered (h.layered st (ha.row ▸ hst) hord)
  marked hst := ha.marked (h.marked (ha.row ▸ hst))
  memory st hst hord := ha.layered (h.memory st (ha.memory ▸ hst) hord)

/-- The same, of a life. -/
abbrev AlongLife (g : GroupKey) (l l' : Life) : Prop := Along g l.rbs l'.rbs

instance : IsPreorder Life (AlongLife g) where
  refl l := refl (r := Along g) l.rbs
  trans _ _ _ h h' := IsTrans.trans (r := Along g) _ _ _ h h'

/-- No write of the head of the group's log fails on the way. -/
def UntornLog (g : GroupKey) (r r' : Rbs) : Prop := Untorn (r.log g) (r'.log g)

/-- An operation of the log, through what it does to the log. -/
theorem wpMild_onLog {m : Carlog.Op α} {Q : Post Rbs Err α} (h : wpMild Untorn m
      ⟨fun a w => Q.ok a (setLog g w r), fun e w => Q.err (.carlog e) (setLog g w r),
        fun w => Q.crash (setLog g w r), fun k w => Q.fault k (setLog g w r)⟩ (r.log g)) :
    wpMild (UntornLog g) (onLog g m) Q r :=
  wpMild_zoom (fun _ _ => setLog_log) (fun _ _ _ => by simp only [setLog, Function.update_idem])
    (fun _ => by simp only [setLog, Function.update_eq_self])
    (fun _ _ h => by unfold UntornLog at h; rwa [setLog_log] at h) h

theorem wpMild_onLog_always {m : Carlog.Op α} {P : Rbs → Prop}
    (h : wpMild Untorn m (.always fun w => P (setLog g w r)) (r.log g)) :
    wpMild (UntornLog g) (onLog g m) (.always P) r := wpMild_onLog h

/-- What follows the look-up of the group. -/
theorem wpMild_getGroup_bind {f : Group → Op α} {Q : Post Rbs Err α} (hnone : Q.fault .panic r)
    (hsome : ∀ grp, r.openGroups g = some grp → wpMild (UntornLog g) (f grp) Q r) :
    wpMild (UntornLog g) (getGroup g >>= f) Q r := by
  rw [wpMild_bind]
  unfold getGroup
  rw [wpMild]
  cases h : r.openGroups g with
  | none => exact hnone
  | some grp => exact hsome grp h

/-- The same, of a life. -/
def UntornLife (g : GroupKey) (l l' : Life) : Prop := UntornLog g l.rbs l'.rbs

/-- **A program that leaves them in step.** -/
def KeepsStep (g : GroupKey) (m : Op α) : Prop := RespectsMild (UntornLog g) (Along g) m

namespace KeepsStep

variable {m : Op α}

theorem bind {f : α → Op β} (hm : KeepsStep g m) (hf : ∀ a, KeepsStep g (f a)) :
    KeepsStep g (m >>= f) := RespectsMild.bind hm hf

theorem handle {h : Err → Op α} (hm : KeepsStep g m) (hh : ∀ e, KeepsStep g (h e)) :
    KeepsStep g (m.handle h) := RespectsMild.handle hm hh

theorem get {k : Rbs → Op α} (hk : ∀ r, KeepsStep g (k r)) : KeepsStep g (.get k) :=
  RespectsMild.get hk

theorem ret {a : α} : KeepsStep g (.ret a : Op α) := Respects.ret.mild

theorem pure {a : α} : KeepsStep g (Pure.pure a : Op α) := Respects.pure.mild

theorem throw {e : Err} : KeepsStep g (.throw e : Op α) := Respects.throw.mild

theorem fault {k : Fault} : KeepsStep g (.fault k : Op α) := Respects.fault.mild

theorem wrapErr {s : String} (hm : KeepsStep g m) : KeepsStep g (wrapErr s m) :=
  hm.handle fun _ => throw

theorem attempt (hm : KeepsStep g m) : KeepsStep g m.attempt := RespectsMild.attempt hm

theorem failIf {c : Prop} [Decidable c] {e : Err} : KeepsStep g (failIf c e) :=
  RespectsMild.ite (fun _ => throw) fun _ => ret

theorem modify {f : Rbs → Rbs} (hf : ∀ r, Along g r (f r)) : KeepsStep g (.modify f : Op Unit) :=
  (Respects.modify hf).mild

theorem step {e : Err} {act : Rbs → Rbs} (hact : ∀ r, Along g r (act r)) :
    KeepsStep g (.step e act : Op Unit) := (Respects.step hact).mild

theorem getGroup : KeepsStep g (getGroup g) := .get fun r => by
  cases r.openGroups g with
  | none => exact fault
  | some grp => exact ret

/-- An operation of the log. -/
theorem onLog {m : Carlog.Op α} (hm : ∀ {P}, Steady P → KeepsHead P m) :
    KeepsStep g (onLog g m) := fun r => by
  have hboth := wpMild_and (hm Carlog.steady_layered (r.log g)) (hm Carlog.steady_marked (r.log g))
  have halong : ∀ w, HeadStays Layered (r.log g) w ∧ HeadStays Marked (r.log g) w →
      Along g r (setLog g w r) := fun w h =>
    ⟨rfl, rfl, by rw [headOf_setLog]; exact h.1, by rw [headOf_setLog]; exact h.2⟩
  exact wpMild_onLog_always (P := Along g r)
    (wpMild_mono hboth (fun _ => halong) (fun _ => halong) halong fun _ => halong)

theorem modifyGroup {f : Group → Group} (hf : ∀ grp, (f grp).state = grp.state) :
    KeepsStep g (modifyGroup g f) := fun r =>
  wpMild_of_wp (wp_getGroup_bind (refl r) fun grp hgrp =>
    ⟨rfl, same_setGroup hgrp (hf grp), id, id⟩)

theorem failUnless {s : String} : KeepsStep g (Group.failUnless g st s) :=
  getGroup.bind fun _ => failIf

/-- From where it got to, they are still in step. -/
theorem inv {m : Op α} (hm : KeepsStep g m) (h : Inv g r) :
    wpMild (UntornLog g) m (.always (Inv g)) r :=
  wpMild_always_mono (hm r) fun _ ha => ha.inv h

end KeepsStep

/-! ## Advancing a state -/

/-- The group in memory gets a state that the log is ready for. -/
theorem Inv.setGroup {grp : Group} (h : Inv g r)
    (hl : GroupState.vrcarDone.ord ≤ grp.state.ord → Layered (headOf g r)) :
    Inv g (setGroup g grp r) where
  layered := h.layered
  marked := h.marked
  memory st hst hord := by
    rw [stateOf_setGroup, Option.some_inj] at hst
    exact hl (hst ▸ hord)

/-- Rows are changed in place. -/
theorem rowState_map {f : Row → Row} (hid : ∀ row, (f row).id = row.id) :
    rowState g { r with rows := r.rows.map f } =
      (r.rows.find? fun row => row.id = g).map fun row => (f row).state := by
  unfold rowState
  rw [List.find?_map, Option.map_map]
  simp only [Function.comp_def, hid]

theorem rowState_map_same {f : Row → Row} (hid : ∀ row, (f row).id = row.id)
    (hstate : ∀ row, (f row).state = row.state) :
    rowState g { r with rows := r.rows.map f } = rowState g r := by
  rw [rowState_map hid]
  simp only [hstate]
  rfl

/-- The row of the group gets a state. -/
theorem rowState_map_set {f : Row → Row} (hid : ∀ row, (f row).id = row.id)
    (hstate : ∀ row, row.id = g → (f row).state = st) {st' : GroupState}
    (h : rowState g { r with rows := r.rows.map f } = some st') : st' = st := by
  rw [rowState_map hid] at h
  obtain ⟨row, hfind, rfl⟩ := Option.map_eq_some_iff.mp h
  exact hstate row (by simpa using List.find?_some hfind)

/-- **The row gets a state that the log is ready for.** -/
theorem Inv.setRow {f : Row → Row} (h : Inv g r) (hid : ∀ row, (f row).id = row.id)
    (hstate : ∀ row, row.id = g → (f row).state = st)
    (hl : GroupState.vrcarDone.ord ≤ st.ord → Layered (headOf g r))
    (hm : st = .offloaded → Marked (headOf g r)) :
    Inv g { r with rows := r.rows.map f } where
  layered _ hst hord := hl (rowState_map_set hid hstate hst ▸ hord)
  marked hst := hm (rowState_map_set hid hstate hst).symm
  memory := h.memory

/-- A row that keeps its state. -/
theorem along_setRow {f : Row → Row} (hid : ∀ row, (f row).id = row.id)
    (hstate : ∀ row, (f row).state = row.state) : Along g r { r with rows := r.rows.map f } :=
  ⟨rowState_map_same hid hstate, rfl, id, id⟩

theorem setState_id {row : Row} :
    (if row.id = g then { row with state := st } else row).id = row.id := by
  split_ifs <;> rfl

theorem inv_setGroupState (h : Inv g r)
    (hl : GroupState.vrcarDone.ord ≤ st.ord → Layered (headOf g r))
    (hm : st = .offloaded → Marked (headOf g r)) :
    wpMild (UntornLog g) (Group.setGroupState g st) (.always (Inv g)) r := by
  have hrow : Inv g { r with
      rows := r.rows.map fun row => if row.id = g then { row with state := st } else row } :=
    h.setRow (fun _ => setState_id) (fun row hid => by rw [if_pos hid]) hl hm
  exact wpMild_of_wp (wp_step.mpr ⟨hrow, fun _ => h, fun _ => h⟩)

/-- The state in memory, and its row behind it. -/
theorem inv_setState (h : Inv g r)
    (hl : GroupState.vrcarDone.ord ≤ st.ord → Layered (headOf g r)) :
    wpMild (UntornLog g) (Group.setState g st)
      (.always fun r' => Inv g r' ∧ headOf g r' = headOf g r) r :=
  wpMild_of_wp (wp_getGroup_bind ⟨h, rfl⟩ fun _ _ => ⟨h.setGroup hl, rfl⟩)

theorem inv_advanceState (h : Inv g r)
    (hl : GroupState.vrcarDone.ord ≤ st.ord → Layered (headOf g r))
    (hm : st = .offloaded → Marked (headOf g r)) :
    wpMild (UntornLog g) (Group.advanceState g st) (.always (Inv g)) r :=
  wpMild_always_bind (inv_setState h hl) (fun _ => And.left) fun _ _ h' =>
    inv_setGroupState h'.1 (h'.2 ▸ hl) (h'.2 ▸ hm)

theorem inv_wrapErr {s : String} {m : Op α} (h : wpMild (UntornLog g) m (.always (Inv g)) r) :
    wpMild (UntornLog g) (wrapErr s m) (.always (Inv g)) r := by
  unfold wrapErr
  rw [wpMild_handle]
  exact h

/-- What follows a check of the state. -/
theorem inv_failUnless {s : String} {f : Unit → Op α} (h : Inv g r)
    (hf : stateOf g r = some st → wpMild (UntornLog g) (f ()) (.always (Inv g)) r) :
    wpMild (UntornLog g) (Group.failUnless g st s >>= f) (.always (Inv g)) r := by
  rw [wpMild_bind]
  exact wpMild_of_wp (C := UntornLog g) (wp_failUnless h h hf)

/-- What follows a program that leaves them in step. -/
theorem inv_bind {m : Op α} {f : α → Op β} (h : Inv g r) (hm : KeepsStep g m)
    (hf : ∀ a r', Along g r r' → wpMild (UntornLog g) (f a) (.always (Inv g)) r') :
    wpMild (UntornLog g) (m >>= f) (.always (Inv g)) r :=
  wpMild_always_bind (hm r) (fun _ ha => ha.inv h) hf

/-! ## The operations in a store -/

/-- **`Sync`**, of a group that is not taken for offloaded by mistake. -/
theorem inv_sync (h : Inv g r) (hm : stateOf g r = some .offloaded → Marked (headOf g r)) :
    wpMild (UntornLog g) (Group.sync g) (.always (Inv g)) r := by
  refine inv_bind h (KeepsStep.onLog Carlog.CarLog.keeps_commit).wrapErr fun at_ r₁ h₁ => ?_
  refine inv_bind (h₁.inv h) (.modifyGroup fun _ => rfl) fun _ r₂ h₂ => ?_
  have halong : Along g r r₂ := IsTrans.trans _ _ _ h₁ h₂
  have hinv : Inv g r₂ := halong.inv h
  refine wpMild_getGroup_bind hinv fun grp hgrp => inv_wrapErr ?_
  have hst : stateOf g r₂ = some grp.state := by
    unfold stateOf
    rw [hgrp, Option.map_some]
  refine wpMild_of_wp (wp_step.mpr ⟨?_, fun _ => hinv, fun _ => hinv⟩)
  refine hinv.setRow groupHead_id (fun row hid => ?_) (hinv.memory _ hst) fun hoff => ?_
  · unfold groupHead
    rw [if_pos hid]
  · exact halong.marked (hm (by rw [← halong.memory, hst, hoff]))

section

variable [X : Carlog.External]

theorem keeps_write {b : List Block} : KeepsStep g (Group.write g b) := by
  have hput : KeepsStep g (Group.putLog g b) :=
    (KeepsStep.onLog fun _ => Carlog.CarLog.keeps_put).wrapErr.bind fun _ =>
      .modify fun _ => ⟨rfl, rfl, id, id⟩
  have hadd : KeepsStep g (Group.addIndex g b) := .get fun r => by
    split
    · exact .fault
    · exact KeepsStep.wrapErr (.step fun _ => ⟨rfl, rfl, id, id⟩)
  refine hput.attempt.bind fun put => hadd.attempt.bind fun add => ?_
  split
  · exact .throw
  · exact .throw
  · exact .ret

/-- A put never leads to a state that asks something of the log. -/
theorem inv_put {b : List Block} (h : Inv g r) :
    wpMild (UntornLog g) (Group.put g b) (.always (Inv g)) r := by
  unfold Group.put
  split_ifs
  · exact h
  refine wpMild_getGroup_bind h fun grp hgrp => ?_
  by_cases hstate : grp.state ≠ .writable
  · rw [if_pos hstate]
    exact h
  rw [if_neg hstate]
  have hres : (grp.reserved b).state = .full ∨ (grp.reserved b).state = .writable := by
    unfold Group.reserved
    dsimp only
    split_ifs
    · exact Or.inl rfl
    · exact Or.inr (Decidable.not_not.mp hstate)
  have hlow : ¬ GroupState.vrcarDone.ord ≤ (grp.reserved b).state.ord := by
    rcases hres with hst | hst <;> rw [hst] <;> decide
  have hinv : Inv g (setGroup g (grp.reserved b) r) := h.setGroup fun hord => absurd hord hlow
  change wpMild (UntornLog g) (Group.write g _ >>= _) _ (setGroup g (grp.reserved b) r)
  refine inv_bind hinv keeps_write fun _ r₁ h₁ => ?_
  split_ifs with hfull
  · unfold Group.retire
    have hm : stateOf g r₁ ≠ some .offloaded := by
      rw [h₁.memory, stateOf_setGroup, hfull]
      simp
    refine wpMild_always_bind (P := Inv g) ?_ (fun _ => id) fun _ _ h₂ => h₂
    refine wpMild_always_bind (inv_wrapErr (inv_sync (h₁.inv hinv) fun hoff => absurd hoff hm))
      (fun _ => id) fun _ r₂ h₂ => ?_
    exact (KeepsStep.onLog fun hP => Carlog.CarLog.keeps_markReadOnly hP.readOnly).wrapErr.inv h₂
  · exact h₁.inv hinv

/-- A finalization comes with layers, of a log that is not hollow. -/
theorem inv_finalize (h : Inv g r) (hw : stateOf g r = some .full → NotHollow (headOf g r)) :
    wpMild (UntornLog g) (Group.finalize g) (.always (Inv g)) r := by
  refine inv_failUnless h fun hfull => ?_
  have hmark : wpMild (UntornLog g) (onLog g Carlog.CarLog.markReadOnly)
      (.always fun r' => Along g r r' ∧ NotHollow (headOf g r')) r := by
    have hkeeps : KeepsStep g (onLog g Carlog.CarLog.markReadOnly) :=
      .onLog fun hP => Carlog.CarLog.keeps_markReadOnly hP.readOnly
    have hhollow : KeepsHead NotHollow Carlog.CarLog.markReadOnly :=
      Carlog.CarLog.keeps_markReadOnly fun head hh _ heq hfin => by
        cases heq
        exact hh head rfl hfin
    have hstays : ∀ w, HeadStays NotHollow (r.log g) w → NotHollow (headOf g (setLog g w r)) :=
      fun w hkept => by
        rw [headOf_setLog]
        exact hkept (hw hfull)
    exact wpMild_and (hkeeps r) (wpMild_onLog_always (P := fun r' => NotHollow (headOf g r'))
      (wpMild_always_mono (hhollow (r.log g)) hstays))
  refine wpMild_always_bind (P := fun r' => Along g r r' ∧ NotHollow (headOf g r')) ?_
    (fun _ h₁ => h₁.1.inv h) fun _ r₁ h₁ => ?_
  · rw [wpMild_handle]
    refine wpMild_mono hmark (fun _ _ => id) (fun e r₁ h₁ => ?_) (fun _ => id) fun _ _ => id
    dsimp only
    split
    · exact h₁
    · exact h₁
  have hgives : wpMild (UntornLog g) (wrapErr "finalize jbob" (onLog g Carlog.CarLog.finalize))
      ⟨fun _ r' => Along g r₁ r' ∧ Layered (headOf g r'), fun _ r' => Along g r₁ r',
        fun r' => Along g r₁ r', fun _ r' => Along g r₁ r'⟩ r₁ := by
    have hkeeps : KeepsStep g (onLog g Carlog.CarLog.finalize) := .onLog Carlog.CarLog.keeps_finalize
    have hlayers : wpMild (UntornLog g) (onLog g Carlog.CarLog.finalize)
        (.returns fun _ r' => Layered (headOf g r')) r₁ := by
      refine wpMild_onLog (wpMild_mono (Carlog.CarLog.gives_finalize h₁.2) (fun _ w hl => ?_)
        (fun _ _ => id) (fun _ => id) fun _ _ => id)
      change Layered (headOf g (setLog g w r₁))
      rw [headOf_setLog]
      exact hl
    unfold wrapErr
    rw [wpMild_handle]
    exact wpMild_mono (wpMild_and (hkeeps r₁) hlayers)
      (fun _ _ => id) (fun _ _ => And.left) (fun _ => And.left) fun _ _ => And.left
  rw [wpMild_bind]
  refine wpMild_mono hgives (fun _ r₂ h₂ => ?_) (fun _ _ h₂ => ?_) (fun _ h₂ => ?_) fun _ _ h₂ => ?_
  · exact inv_wrapErr (inv_advanceState (h₂.1.inv (h₁.1.inv h)) (fun _ => h₂.2) nofun)
  all_goals exact h₂.inv (h₁.1.inv h)

omit X in
theorem inv_loadFilCar {car : Bytes} {sz : ℕ} (h : Inv g r) :
    wpMild (UntornLog g) (Group.loadFilCar g car sz) (.always (Inv g)) r := by
  refine inv_failUnless h fun hoff => ?_
  refine inv_bind h (KeepsStep.onLog fun _ => Carlog.CarLog.keeps_loadData).wrapErr fun _ r₁ h₁ => ?_
  have hl : Layered (headOf g r₁) := h₁.layered (h.memory _ hoff (by decide))
  exact inv_wrapErr (inv_advanceState (h₁.inv h) (fun _ => hl) nofun)

/-! ## Offloading -/

omit X in
theorem keeps_offloadEntry : KeepsStep g (wrapErr "write offload entry" (writeOffloadEntry g)) := by
  refine .wrapErr (.step fun r => along_setRow (fun row => ?_) fun row => ?_)
  · split_ifs <;> rfl
  · split_ifs <;> rfl

omit X in
/-- What `offloadLog` does behind the marking of the row. -/
theorem keeps_offloadEnd : KeepsStep g (do
    (onLog g Carlog.CarLog.offload).handle fun e =>
      match e with
      | .carlog .errAlreadyOffloaded => .ret ()
      | e => .throw (.wrap "offloading carlog" e)
    wrapErr "write offload entry" (writeOffloadEntry g)) := by
  refine .bind (.handle (.onLog Carlog.CarLog.keeps_offload) fun e => ?_) fun _ =>
    keeps_offloadEntry
  split
  · exact .ret
  · exact .throw

omit X in
/-- **An offload** of a log that is marked already. -/
theorem inv_offloadLog_marked (h : Inv g r) (hm : Marked (headOf g r)) :
    wpMild (UntornLog g) (Group.offloadLog g) (.always (Inv g)) r := by
  refine inv_failUnless h fun hlocal => ?_
  have hl : Layered (headOf g r) := h.memory _ hlocal (by decide)
  exact wpMild_always_bind (inv_wrapErr (inv_advanceState h (fun _ => hl) fun _ => hm))
    (fun _ => id) fun _ r₁ h₁ => keeps_offloadEnd.inv h₁

omit X in
/-- With layers and the mark nothing can be ahead of the log. -/
theorem Inv.of_head (hl : Layered (headOf g r)) (hm : Marked (headOf g r)) : Inv g r :=
  ⟨⟨fun _ _ _ => hl, fun _ => hm⟩, fun _ _ _ => hl⟩

omit X in
/-- The state goes into the memory and into the row. -/
theorem wpFrom_advanceState {K : List Fate → Post Rbs Err Unit} {b : List Fate} {grp : Group}
    (hgrp : r.openGroups g = some grp)
    (h : ∀ r', r'.log = r.log → (K b).ok () r') :
    wpFrom (UntornLog g) (.go :: b) (Group.advanceState g st) K r := by
  unfold Group.advanceState Group.setState modifyGroup getGroup
  rw [wpFrom_bind, wpFrom_bind]
  simp only [wpFrom, hgrp]
  exact h _ rfl

omit X in
/-- **An offload that gets to the mark** of a log that can be offloaded. -/
theorem past_offloadLog (h : Inv g r) (hlocal : stateOf g r = some .localReadyForDeals)
    (hlog : Carlog.CarLog.Offloadable (r.log g)) :
    Past (UntornLog g) [.go, .go, .go] (Group.offloadLog g) (Inv g) r := by
  obtain ⟨grp, hgrp, hstate⟩ := Option.map_eq_some_iff.mp hlocal
  obtain ⟨head, hhead, hlayers⟩ := h.memory _ hlocal (by decide)
  have hmarks : ∀ r', r'.log = r.log →
      Past (UntornLog g) [.go, .go] (onLog g Carlog.CarLog.offload) (Inv g) r' := by
    intro r' hr'
    refine wpFrom_zoom (fun _ _ => setLog_log)
      (fun _ _ _ => by simp only [setLog, Function.update_idem])
      (fun _ => by simp only [setLog, Function.update_eq_self])
      (fun _ _ h => by unfold UntornLog at h; rwa [setLog_log] at h) ?_
    have hlog' : r'.log g = r.log g := congrFun hr' g
    refine Past.mono (J := fun w => w.disk.head = some (some { head with offloaded := true })) ?_
      fun w hw => Inv.of_head ?_ ?_
    · rw [hlog']
      exact Carlog.CarLog.past_offload hlog hhead
    · rw [headOf_setLog, hw]
      exact ⟨_, rfl, hlayers⟩
    · rw [headOf_setLog, hw]
      exact ⟨_, rfl, rfl⟩
  unfold Past Group.offloadLog Group.failUnless getGroup failIf
  rw [wpFrom_bind, wpFrom_bind]
  simp only [wpFrom, hgrp, hstate, ne_eq, not_true_eq_false, if_false]
  unfold wrapErr
  rw [wpFrom_bind, wpFrom_handle]
  refine wpFrom_advanceState hgrp fun r' hr' => ?_
  refine Past.bind (.handle (hmarks r' hr') fun e t ht => ?_) (fun _ t ht => ?_) fun _ => id
  · split
    · exact ht
    · exact ht
  · exact keeps_offloadEntry.inv ht

omit X in
/-- **An offload that the database refuses**, or that does not get further. -/
theorem refused_offloadLog {x : Fate} (hx : x ≠ .go) (h : Inv g r)
    (hlocal : stateOf g r = some .localReadyForDeals) :
    wpFrom (UntornLog g) [x] (Group.offloadLog g) (fun _ => .always (Inv g)) r := by
  obtain ⟨grp, hgrp, hstate⟩ := Option.map_eq_some_iff.mp hlocal
  have hl : Layered (headOf g r) := h.memory _ hlocal (by decide)
  have hset : Inv g (setGroup g { grp with state := .offloaded } r) := h.setGroup fun _ => hl
  unfold Group.offloadLog Group.failUnless getGroup failIf
  rw [wpFrom_bind, wpFrom_bind]
  simp only [wpFrom, hgrp, hstate, ne_eq, not_true_eq_false, if_false]
  unfold wrapErr Group.advanceState Group.setState modifyGroup getGroup
  rw [wpFrom_bind, wpFrom_handle, wpFrom_bind, wpFrom_bind]
  simp only [wpFrom, hgrp]
  cases x with
  | go => exact absurd rfl hx
  | fail n => exact fun _ => hset
  | die => exact hset

/-! ## With the flag -/

omit X in
theorem wpMild_onRbs {m : Op α} {Q : Post Life Err α} (h : wpMild (UntornLog g) m
      ⟨fun a r => Q.ok a (setRbs r l), fun e r => Q.err e (setRbs r l),
        fun r => Q.crash (setRbs r l), fun k r => Q.fault k (setRbs r l)⟩ l.rbs) :
    wpMild (UntornLife g) (onRbs m) Q l :=
  wpMild_zoom (fun _ _ => rfl) (fun _ _ _ => rfl) (fun _ => rfl) (fun _ _ => id) h

omit X in
theorem wpMild_onRbs_always {m : Op α} {P : Life → Prop}
    (h : wpMild (UntornLog g) m (.always fun r => P (setRbs r l)) l.rbs) :
    wpMild (UntornLife g) (onRbs m) (.always P) l := wpMild_onRbs h

omit X in
/-- An operation in a store, as one in a life. -/
theorem inv_onRbs {m : Op α} (h : wpMild (UntornLog g) m (.always (Inv g)) l.rbs) :
    wpMild (UntornLife g) (onRbs m) (.always fun l' => Inv g l'.rbs) l :=
  wpMild_onRbs_always h

omit X in
/-- A program of a life that leaves them in step. -/
theorem keepsLife_onRbs {m : Op α} (hm : KeepsStep g m) :
    RespectsMild (UntornLife g) (AlongLife g) (onRbs m) := fun l =>
  wpMild_onRbs_always (P := AlongLife g l) (hm l.rbs)

omit X in
theorem inv_setCommP {carSize : ℕ} (h : Inv g l.rbs) (hl : Layered (headOf g l.rbs)) :
    wpMild (UntornLife g) (Group.setCommP g .localReadyForDeals carSize)
      (.always fun l' => Inv g l'.rbs) l := by
  have hset : wpMild (UntornLife g) (onRbs (Group.setState g .localReadyForDeals))
      (.always fun l' => Inv g l'.rbs ∧ headOf g l'.rbs = headOf g l.rbs) l :=
    wpMild_onRbs_always (P := fun l' => Inv g l'.rbs ∧ headOf g l'.rbs = headOf g l.rbs)
      (inv_setState h fun _ => hl)
  refine wpMild_always_bind hset (fun _ => And.left) fun _ l₁ h₁ => ?_
  have hrow : wpMild (UntornLife g) (onRbs (Group.setGroupState g .localReadyForDeals))
      (.always fun l' => Inv g l'.rbs) l₁ :=
    inv_onRbs (inv_setGroupState h₁.1 (fun _ => h₁.2 ▸ hl) nofun)
  exact wpMild_always_bind hrow (fun _ => id) fun _ _ h₂ => h₂

theorem inv_genCommP (h : Inv g l.rbs) :
    wpMild (UntornLife g) (Group.genCommP g) (.always fun l' => Inv g l'.rbs) l := by
  unfold Group.genCommP
  rw [wpMild_bind]
  refine wpMild_onRbs (wpMild_of_wp (wp_failUnless h h fun hst => ?_))
  have hcar : RespectsMild (UntornLife g) (AlongLife g) (Group.writeCar g) := .get fun l' => by
    split
    · exact Respects.throw.mild
    · exact keepsLife_onRbs ((KeepsStep.onLog fun _ => Carlog.CarLog.keeps_writeCar).bind fun _ => .pure)
  have hstep : RespectsMild (UntornLife g) (AlongLife g) (.step (.text "sum car") id : LifeOp Unit) :=
    (Respects.step fun l' => refl l').mild
  refine wpMild_always_bind (hcar l) (fun _ h₁ => h₁.inv h) fun carSize l₁ h₁ => ?_
  refine wpMild_always_bind (hstep.wp_of h₁) (fun _ h₂ => h₂.inv h) fun _ l₂ h₂ => ?_
  exact inv_setCommP (h₂.inv h) (h₂.layered (h.memory _ hst (by decide)))

/-- **The data of a reload** is taken, where the reload has reached the row. -/
theorem inv_reloadData (h : Inv g l.rbs)
    (hrow : stateOf g l.rbs = some .reload → rowState g l.rbs ≠ some .offloaded) :
    wpMild (UntornLife g) (Group.reloadData g) (.always fun l' => Inv g l'.rbs) l := by
  unfold Group.reloadData
  rw [wpMild_bind]
  refine wpMild_onRbs (wpMild_of_wp (wp_failUnless h h fun hst => ?_))
  have hmeta : RespectsMild (UntornLife g) (AlongLife g) (Group.groupMeta g) := by
    refine RespectsMild.bind (keepsLife_onRbs (.step fun r => refl r)) fun _ => .get fun l' => ?_
    split
    · exact Respects.throw.mild
    · exact Respects.ret.mild
  refine wpMild_always_bind (hmeta l) (fun _ h₁ => h₁.inv h) fun gm l₁ h₁ => ?_
  rcases gm.2 with _ | carSize
  · exact h₁.inv h
  have hinv : Inv g l₁.rbs := h₁.inv h
  refine inv_onRbs (inv_wrapErr (wpMild_onLog_always ?_))
  have hkeeps : KeepsHead Layered (Carlog.CarLog.finDataReload gm.1.blocks.toNat carSize) :=
    Carlog.CarLog.keeps_finDataReload fun head ⟨_, heq, hl⟩ => ⟨_, rfl, by cases heq; exact hl⟩
  refine wpMild_always_mono (hkeeps (l₁.rbs.log g)) fun w hw => ⟨⟨fun st hrow hord => ?_, ?_⟩, ?_⟩
  · rw [headOf_setLog]
    exact hw (hinv.layered st hrow hord)
  · exact fun hoff => absurd (h₁.row.symm.trans hoff) (hrow hst)
  · intro st hmem hord
    rw [headOf_setLog]
    exact hw (hinv.memory st hmem hord)

/-- **The end of a reload.** -/
theorem inv_finDataReload (h : Inv g l.rbs)
    (hrow : stateOf g l.rbs = some .reload → rowState g l.rbs ≠ some .offloaded) :
    wpMild (UntornLife g) (Group.finDataReload g) (.always fun l' => Inv g l'.rbs) l := by
  unfold Group.finDataReload
  by_cases hst : stateOf g l.rbs = some .reload
  · have hsame : wpMild (UntornLife g) (Group.reloadData g) (.always (SameLife g l)) l :=
      wpMild_of_wp (same_reloadData l)
    rw [wpMild_bind]
    refine wpMild_mono (wpMild_and (inv_reloadData h hrow) hsame) ?_ (fun _ _ h₁ => h₁.1)
      (fun _ h₁ => h₁.1) fun _ _ h₁ => h₁.1
    intro _ l₁ h₁
    obtain ⟨hinv, -, hmem⟩ := h₁
    have hl : Layered (headOf g l₁.rbs) := hinv.memory .reload (hmem.trans hst) (by decide)
    exact inv_onRbs (inv_wrapErr (inv_advanceState hinv (fun _ => hl) nofun))
  · unfold Group.reloadData
    rw [wpMild_bind, wpMild_bind]
    exact wpMild_onRbs (wpMild_of_wp (wp_failUnless h h fun hreload => absurd hreload hst))

omit X in
/-- The row that is read is the one there is. -/
theorem wpMild_groupMeta : wpMild (UntornLife g) (Group.groupMeta g)
    ⟨fun gm l' => l' = l ∧ rowState g l.rbs = some gm.1.state, fun _ l' => l' = l, fun l' => l' = l,
      fun _ _ => False⟩ l := by
  unfold Group.groupMeta
  rw [wpMild_bind]
  refine wpMild_onRbs (wpMild_of_wp (wp_step.mpr ⟨?_, fun _ => rfl, fun _ => rfl⟩))
  have hself : setRbs (id l.rbs) l = l := rfl
  dsimp only
  rw [wpMild_get, hself]
  cases hfind : l.rbs.rows.find? fun row => row.id = g with
  | none => rfl
  | some row => exact ⟨rfl, congrArg (Option.map Row.state) hfind⟩

theorem keeps_openGroup {blocks bytes jbhead : ℤ} {create : Bool} :
    KeepsStep g (Group.openGroup g blocks bytes jbhead st create) := by
  have hjbob : ∀ staging dropped, KeepsStep g (Group.openJbob g jbhead create staging dropped) := by
    intro staging dropped
    refine .bind (.attempt (.onLog fun hP => .ite (Carlog.CarLog.keeps_create hP)
      (Carlog.CarLog.keeps_openLog hP))) fun opened =>
      .bind (.modify fun _ => ⟨rfl, rfl, id, id⟩) fun _ => ?_
    split
    · exact .throw
    · exact .ret
  refine .bind (.wrapErr (.step fun r => refl r)) fun _ => .get fun r => ?_
  split_ifs
  · exact .throw
  refine .bind (.onLog fun _ => .modify fun _ => rfl) fun _ => ?_
  have hrest : ∀ dropped, KeepsStep g (do
      Group.openJbob g jbhead create r.staging dropped
      return (⟨st, 0, 0, blocks, bytes⟩ : Group)) := fun dropped =>
    (hjbob r.staging dropped).bind fun _ => .pure
  exact fun r' => ⟨hrest true r', fun _ _ => hrest false r', refl r'⟩

/-- **A group is opened** in the state of its row. -/
theorem inv_openLife {create : Bool} (h : Inv g l.rbs) :
    wpMild (UntornLife g) (Group.openLife g create) (.always fun l' => Inv g l'.rbs) l := by
  unfold Group.openLife
  rw [wpMild_bind]
  refine wpMild_mono wpMild_groupMeta ?_ (fun _ _ h₁ => h₁ ▸ h) (fun _ h₁ => h₁ ▸ h)
    fun _ _ => False.elim
  rintro gm l₁ ⟨rfl, hrow⟩
  dsimp only
  rw [wpMild_bind]
  refine wpMild_onRbs ?_
  unfold Rbstor.openGroup wrapErr
  rw [wpMild_bind, wpMild_handle]
  refine wpMild_mono (wpMild_and (keeps_openGroup l₁.rbs) (wpMild_of_wp wp_groupOpen)) ?_
    (fun _ _ h₁ => h₁.1.inv h) (fun _ h₁ => h₁.1.inv h) fun _ _ h₁ => h₁.1.inv h
  rintro grp r ⟨halong, hstate, -⟩
  have hopened : Inv g (setGroup g grp r) := (halong.inv h).setGroup fun hord =>
    halong.layered (h.layered _ hrow (hstate ▸ hord))
  exact ⟨⟨hopened.layered, hopened.marked⟩, hopened.memory⟩

/-! ## Runs -/

/-- **What has the database run ahead of the log**, and does not happen: a
write of the head that fails on the way; a finalization of a log that was
marked as finalized before it had layers; a sync of a group that is taken
for offloaded and was not marked; a reload that takes back the mark of a
row that still says offloaded; and an offload that gets to its row and not
to the mark. -/
def Orderly (g : GroupKey) (l : Life) : LifeEvent → Prop
  | .kill => True
  | .call cmd plan => (cmd.op g).Mild (UntornLife g) l plan ∧
    match cmd with
    | .finalize => stateOf g l.rbs = some .full → NotHollow (headOf g l.rbs)
    | .sync => stateOf g l.rbs = some .offloaded → Marked (headOf g l.rbs)
    | .finDataReload => stateOf g l.rbs = some .reload → rowState g l.rbs ≠ some .offloaded
    | .offload => stateOf g l.rbs = some .localReadyForDeals → Marked (headOf g l.rbs) ∨
        (∃ x, x ≠ .go ∧ Starts plan [x]) ∨
        (Starts plan [.go, .go, .go] ∧ Carlog.CarLog.Offloadable (l.rbs.log g))
    | _ => True

omit X in
theorem wpFrom_onRbs {m : Op α} {b : List Fate} {K : List Fate → Post Life Err α}
    (h : wpFrom (UntornLog g) b m (fun b =>
      ⟨fun a r => (K b).ok a (setRbs r l), fun e r => (K b).err e (setRbs r l),
        fun r => (K b).crash (setRbs r l), fun k r => (K b).fault k (setRbs r l)⟩) l.rbs) :
    wpFrom (UntornLife g) b (onRbs m) K l :=
  wpFrom_zoom (fun _ _ => rfl) (fun _ _ _ => rfl) (fun _ => rfl) (fun _ _ => id) h

/-- **An offload.** -/
theorem offload_inv {plan : List Fate} (h : Inv g l.rbs) (hc : Orderly g l (.call .offload plan)) :
    ((Group.offload g).run l plan).Sat (.always fun l' => Inv g l'.rbs) := by
  obtain ⟨hmild, hc⟩ := hc
  have hflag : ∀ l' : Life, l'.rbs = l.rbs → (onRbs (Group.offloadLog g)).Mild (UntornLife g) l' plan →
      ((onRbs (Group.offloadLog g)).run l' plan).Sat (.always fun l' => Inv g l'.rbs) := by
    intro l' hrbs hmild
    rw [← hrbs] at h hc
    by_cases hlocal : stateOf g l'.rbs = some .localReadyForDeals
    · rcases hc hlocal with hm | ⟨x, hx, hstarts⟩ | ⟨hstarts, hlog⟩
      · exact wpMild_sound (inv_onRbs (inv_offloadLog_marked h hm)) hmild
      · exact wpFrom_sound (Q := .always fun l' => Inv g l'.rbs)
          (wpFrom_onRbs (refused_offloadLog hx h hlocal)) hstarts hmild
      · have hpast : Past (UntornLife g) [.go, .go, .go] (onRbs (Group.offloadLog g))
            (fun l' => Inv g l'.rbs) l' := wpFrom_onRbs (past_offloadLog h hlocal hlog)
        exact hpast.sound hstarts hmild
    · refine wpMild_sound (inv_onRbs ?_) hmild
      exact inv_failUnless h fun hst => absurd hst hlocal
  exact hflag { l with offloaded := true } rfl hmild

omit X in
/-- The end of the process. -/
theorem inv_down (h : Inv g l.rbs) : Inv g (l.down g).rbs := by
  have hhead : headOf g (l.down g).rbs = headOf g l.rbs := by
    simp only [headOf, Life.down, Function.update_self]
  refine ⟨⟨fun st hst hord => ?_, fun hst => ?_⟩, fun st hst _ => ?_⟩
  · rw [hhead]
    exact h.layered st hst hord
  · rw [hhead]
    exact h.marked hst
  · rw [stateOf_down] at hst
    exact absurd hst (by simp)

omit X in
theorem inv_after {o : Outcome Life Err Unit} (h : o.Sat (.always fun l' => Inv g l'.rbs)) :
    Inv g (Life.after g o).rbs := by
  cases o with
  | ok a l => exact h
  | err e l => exact h
  | crash l => exact inv_down h
  | fault k l => exact inv_down h

/-- **One event.** -/
theorem next_inv {e : LifeEvent} (h : Inv g l.rbs) (hc : Orderly g l e) :
    Inv g (l.next g e).rbs := by
  cases e with
  | kill => exact inv_down h
  | call cmd plan =>
    unfold Life.next
    dsimp only
    split_ifs
    · apply inv_after
      obtain ⟨hmild, hcmd⟩ := id hc
      cases cmd with
      | openLife create => exact wpMild_sound (inv_openLife h) hmild
      | put b =>
        refine wpMild_sound (inv_onRbs ?_) hmild
        exact wpMild_always_bind (inv_put h) (fun _ => id) fun _ _ h₁ => h₁
      | sync => exact wpMild_sound (inv_onRbs (inv_sync h hcmd)) hmild
      | finalize => exact wpMild_sound (inv_onRbs (inv_finalize h hcmd)) hmild
      | genCommP => exact wpMild_sound (inv_genCommP h) hmild
      | offload => exact offload_inv h hc
      | loadFilCar car sz => exact wpMild_sound (inv_onRbs (inv_loadFilCar h)) hmild
      | finDataReload => exact wpMild_sound (inv_finDataReload h hcmd) hmild
    · exact h

end

section

open Carlog.Encoding

/-- A new group is written to, and taken up again after a crash. -/
def putKilled : List LifeEvent :=
  [.call (.openLife true) [], .call (.put [⟨[0, 1, 7], [7]⟩]) [], .kill, .call (.openLife false) []]

/-- A group that is ready for deals: its log is finalized, with one layer. -/
def readyLife : Life where
  rbs := { Rbs.empty with
    openGroups := Function.update (fun _ => none) 1 (some ⟨.localReadyForDeals, 0, 0, 1, 1⟩)
    rows := [⟨1, 1, 1, .localReadyForDeals, 99, false⟩]
    log := fun _ => { Carlog.World.empty with
      disk := { Carlog.Disk.empty with
        head := some (some ⟨true, 99, 59, 99, true, true, false, false, [59, 99]⟩) }
      jb := { Carlog.CarLog.zero with
        head := some true
        layerOffsets := [59, 99]
        rIdx := some (.bsst ⟨[], ⟨1, 4096, 1, ⟨List.replicate 32 0, Bsst.length_zeroDigest⟩, 1, 7, true⟩, []⟩) } } }
  offloaded := false
  dealCarSize := some 200

end

end Rbstor

end Ribs
