import Ribs.Rbstor.Manager
import Ribs.Rbstor.OffloadedFlag
/-!
# Rbstor — what the workers tell

A worker takes a task from the queue, runs the step of the group that the
task is for, and tells the subscribers that the group has gone from one
state to the next. A finalized group goes on to its CommP at once. An error
of a step is logged.
-/

namespace Ribs

open Common

namespace Rbstor

/-! ## Tasks -/

structure Task where
  tt : TaskType
  group : GroupKey

/-- A call of the subscribers. The last three are not told: the state of the
group when the step began and when they are called, and whether the step
returned an error. -/
structure Notice where
  group : GroupKey
  old : GroupState
  new : GroupState
  before : Option GroupState
  now : Option GroupState
  failed : Bool

/-- **The store of the workers**, with what there is to each group, and what
the subscribers have heard. -/
structure Workers where
  rbs : Rbs
  offloaded : GroupKey → Bool
  dealCarSize : GroupKey → Option ℕ
  heard : List Notice

abbrev WorkOp := Prog Workers Err

/-- The group with what there is to it. -/
def Workers.life (g : GroupKey) (w : Workers) : Life := ⟨w.rbs, w.offloaded g, w.dealCarSize g⟩

def setLife (g : GroupKey) (l : Life) (w : Workers) : Workers :=
  { w with
    rbs := l.rbs
    offloaded := Function.update w.offloaded g l.offloaded
    dealCarSize := Function.update w.dealCarSize g l.dealCarSize }

/-- An operation of a group. -/
def onLife {α : Type} (g : GroupKey) (m : LifeOp α) : WorkOp α :=
  m.zoom (Workers.life g) (setLife g) id

/-- `sendSub`. -/
def sendSub (g : GroupKey) (old new : GroupState) (before : Option GroupState) (failed : Bool) :
    WorkOp Unit :=
  .modify fun w => { w with
    heard := w.heard ++ [⟨g, old, new, before, stateOf g w.rbs, failed⟩] }

namespace TaskType

/-- The state a group of the task is in. -/
def old : TaskType → GroupState
  | finalize => .full
  | genCommP => .vrcarDone
  | finDataReload => .reload

/-- The state it goes to. -/
def new : TaskType → GroupState
  | finalize => .vrcarDone
  | genCommP => .localReadyForDeals
  | finDataReload => .localReadyForDeals

variable [X : Carlog.External]

/-- The step of the group. -/
def op (g : GroupKey) : TaskType → LifeOp Unit
  | finalize => onRbs (Group.finalize g)
  | genCommP => Group.genCommP g
  | finDataReload => Group.finDataReload g

end TaskType

section

variable [X : Carlog.External]

/-- One case of the switch, and what it falls through to: the group is
looked up, its step is run, and the subscribers are told. -/
def execStep (tt : TaskType) (g : GroupKey) (fallthrough : WorkOp Unit) : WorkOp Unit :=
  .get fun w =>
  if (w.rbs.openGroups g).isNone then .ret ()
  else do
    let err ← (onLife g (tt.op g)).attempt
    sendSub g tt.old tt.new (stateOf g w.rbs) (err matches .error _)
    fallthrough

def workerExecTask (toExec : Task) : WorkOp Unit :=
  match toExec.tt with
  | .finalize => execStep .finalize toExec.group (execStep .genCommP toExec.group (.ret ()))
  | .genCommP => execStep .genCommP toExec.group (.ret ())
  | .finDataReload => execStep .finDataReload toExec.group (.ret ())

/-! ## Runs -/

/-- What happens to the store. -/
inductive WorkEvent where
  /-- A task, under a plan for its steps. -/
  | task (toExec : Task) (plan : List Fate)
  /-- Whatever else happens between two tasks. -/
  | elsewhere (rbs : Rbs) (offloaded : GroupKey → Bool) (dealCarSize : GroupKey → Option ℕ)

namespace Workers

/-- The process is gone, and with it the groups in memory. -/
def down (w : Workers) : Workers :=
  { w with
    rbs := { w.rbs with
      openGroups := fun _ => none
      log := fun g => { w.rbs.log g with jb := .zero } }
    offloaded := fun _ => false }

/-- After a task. A panic, or a wait without end, is the end of the process. -/
def after : Outcome Workers Err Unit → Workers
  | .ok _ w => w
  | .err _ w => w
  | .crash w => w.down
  | .fault _ w => w.down

def next (w : Workers) : WorkEvent → Workers
  | .task toExec plan => after ((workerExecTask toExec).run w plan)
  | .elsewhere rbs offloaded dealCarSize =>
    { w with rbs := rbs, offloaded := offloaded, dealCarSize := dealCarSize }

end Workers

end

/-- **What the subscribers hear has happened**: the group went from the one
state to the other, in a step that returned nil. -/
def Notice.Right (n : Notice) : Prop :=
  n.old ≠ n.new → n.failed = false ∧ n.before = some n.old ∧ n.now = some n.new

/-! ## What a step needs -/

section

variable [X : Carlog.External]

/-- What `Finalize` does with the log. -/
def Group.finalizeLog (g : GroupKey) : Op Unit := do
  (onLog g Carlog.CarLog.markReadOnly).handle fun e =>
    match e with
    | .carlog .errReadOnly => .ret ()
    | e => .throw (.wrap "mark read-only" e)
  wrapErr "finalize jbob" (onLog g Carlog.CarLog.finalize)

/-- **The group is in the state the task is for**, and what the step uses
does its part: the log, the sum, and the row of the group. -/
def TaskType.Can (g : GroupKey) (l : Life) (plan : List Fate) : TaskType → Prop
  | .finalize => stateOf g l.rbs = some .full ∧ ∃ r rest,
      (Group.finalizeLog g).exec l.rbs plan = (.ok () r, rest) ∧ Prog.Goes rest
  | .genCommP => stateOf g l.rbs = some .vrcarDone ∧ l.offloaded = false ∧ ∃ car r rest,
      (onLog g Carlog.CarLog.writeCar).exec l.rbs plan = (.ok car r, rest) ∧ Prog.Goes rest ∧
        Prog.Goes rest.tail
  | .finDataReload => stateOf g l.rbs = some .reload ∧ Prog.Goes plan ∧ ∃ row carSize r rest,
      l.rbs.rows.find? (fun row => row.id = g) = some row ∧ l.dealCarSize = some carSize ∧
        (onLog g (Carlog.CarLog.finDataReload row.blocks.toNat carSize)).exec l.rbs plan.tail =
          (.ok () r, rest) ∧ Prog.Goes rest

/-- The process dies in the step. -/
def TaskType.Dies (g : GroupKey) (l : Life) (plan : List Fate) (tt : TaskType) : Prop :=
  ∃ l' rest, (tt.op g).exec l plan = (.crash l', rest) ∨
    ∃ k, (tt.op g).exec l plan = (.fault k l', rest)

variable {g : GroupKey} {r r' : Rbs} {l l' : Life} {plan rest : List Fate} {st : GroupState}

omit X in
theorem exec_onRbs_ok_iff {α : Type} {m : Op α} {a : α} :
    (onRbs m).exec l plan = (.ok a l', rest) ↔
      ∃ r, m.exec l.rbs plan = (.ok a r, rest) ∧ l' = setRbs r l := by
  unfold onRbs
  refine Prog.exec_zoom_ok_iff ?_ ?_ ?_ <;> intros <;> rfl

omit X in
theorem returns_onRbs_iff {α : Type} {m : Op α} :
    (onRbs m).Returns l plan ↔ m.Returns l.rbs plan := by
  unfold onRbs
  refine Prog.returns_zoom_iff ?_ ?_ ?_ <;> intros <;> rfl

omit X in
theorem exec_wrapErr_ok_iff {α : Type} {s : String} {m : Op α} {a : α} :
    (wrapErr s m).exec r plan = (.ok a r', rest) ↔ m.exec r plan = (.ok a r', rest) :=
  Prog.exec_rethrow_ok_iff

omit X in
theorem exec_getGroup_ok_iff {grp : Group} : (getGroup g).exec r plan = (.ok grp r', rest) ↔
    r.openGroups g = some grp ∧ r' = r ∧ rest = plan := by
  unfold getGroup
  simp only [Prog.exec]
  cases h : r.openGroups g with
  | none => simp [Prog.exec]
  | some grp' => simp [Prog.exec, eq_comm, and_assoc]

omit X in
theorem exec_failUnless_ok_iff {s : String} {a : Unit} :
    (Group.failUnless g st s).exec r plan = (.ok a r', rest) ↔
      stateOf g r = some st ∧ r' = r ∧ rest = plan := by
  unfold Group.failUnless stateOf
  simp only [Prog.exec_bind_ok_iff, exec_getGroup_ok_iff]
  constructor
  · rintro ⟨grp, _, _, ⟨hgrp, rfl, rfl⟩, hif⟩
    unfold failIf at hif
    split_ifs at hif with hst
    · simp [Prog.exec] at hif
    · obtain ⟨rfl, rfl⟩ : r' = _ ∧ rest = _ := by simpa [Prog.exec, eq_comm] using hif
      exact ⟨by rw [hgrp, Option.map_some, not_not.mp hst], rfl, rfl⟩
  · rintro ⟨hst, rfl, rfl⟩
    obtain ⟨grp, hgrp, hst⟩ := Option.map_eq_some_iff.mp hst
    refine ⟨grp, _, _, ⟨hgrp, rfl, rfl⟩, ?_⟩
    unfold failIf
    rw [if_neg (not_not.mpr hst)]
    rfl

omit X in
/-- The state can be set of a group that is open. -/
theorem exec_setState_ok_iff {a : Unit} : (Group.setState g st).exec r plan = (.ok a r', rest) ↔
    ∃ grp, r.openGroups g = some grp ∧ r' = setGroup g { grp with state := st } r ∧
      rest = plan := by
  unfold Group.setState modifyGroup
  simp only [Prog.exec_bind_ok_iff, exec_getGroup_ok_iff]
  constructor
  · rintro ⟨grp, _, _, ⟨hgrp, rfl, rfl⟩, hset⟩
    obtain ⟨rfl, rfl⟩ : r' = _ ∧ rest = _ := by simpa [Prog.modify, Prog.exec, eq_comm] using hset
    exact ⟨grp, hgrp, rfl, rfl⟩
  · rintro ⟨grp, hgrp, rfl, rfl⟩
    exact ⟨grp, _, _, ⟨hgrp, rfl, rfl⟩, rfl⟩

omit X in
theorem exists_of_stateOf (hopen : stateOf g r ≠ none) : ∃ grp, r.openGroups g = some grp := by
  cases hgrp : r.openGroups g with
  | none => exact absurd (by simp [stateOf, hgrp]) hopen
  | some grp => exact ⟨grp, rfl⟩

omit X in
/-- **The state is advanced** when the row is written. -/
theorem returns_advanceState_iff (hopen : stateOf g r ≠ none) :
    (Group.advanceState g st).Returns r plan ↔ Prog.Goes plan := by
  obtain ⟨grp, hgrp⟩ := exists_of_stateOf hopen
  unfold Group.advanceState Group.setGroupState
  simp only [Prog.returns_bind_iff, exec_setState_ok_iff, Prog.returns_step_iff]
  constructor
  · rintro ⟨_, _, _, ⟨_, -, -, rfl⟩, hgoes⟩
    exact hgoes
  · intro hgoes
    exact ⟨(), _, _, ⟨grp, hgrp, rfl, rfl⟩, hgoes⟩

omit X in
/-- What respects the state of the group leaves it open. -/
theorem stateOf_exec {α : Type} {m : Op α} (hm : Respects (SameState g) m) {a : α}
    (h : m.exec r plan = (.ok a r', rest)) : stateOf g r' = stateOf g r := by
  have hsat := wp_sound (hm r) (within_anyFate plan)
  rw [Prog.run_eq_exec, h] at hsat
  exact hsat

theorem same_finalizeLog : Respects (SameState g) (Group.finalizeLog g) := by
  refine (same_onLog.handle fun e => ?_).bind fun _ => same_wrapErr same_onLog
  split
  · exact .ret
  · exact .throw

theorem returns_finalize_iff : (Group.finalize g).Returns r plan ↔ stateOf g r = some .full ∧
    ∃ r' rest, (Group.finalizeLog g).exec r plan = (.ok () r', rest) ∧ Prog.Goes rest := by
  have heq : Group.finalize g = (do
      Group.failUnless g .full "group not in state for finalization"
      Group.finalizeLog g
      wrapErr "mark level index dropped" (Group.advanceState g .vrcarDone)) :=
    congrArg (Prog.bind _) (funext fun _ => (Prog.bind_assoc ..).symm)
  rw [heq]
  simp only [Prog.returns_bind_iff, exec_failUnless_ok_iff, wrapErr, Prog.returns_rethrow_iff]
  constructor
  · rintro ⟨_, _, _, ⟨hst, rfl, rfl⟩, _, r', rest, hlog, hadvance⟩
    refine ⟨hst, r', rest, hlog, (returns_advanceState_iff ?_).mp hadvance⟩
    exact ne_of_eq_of_ne ((stateOf_exec same_finalizeLog hlog).trans hst) (Option.some_ne_none _)
  · rintro ⟨hst, r', rest, hlog, hgoes⟩
    refine ⟨(), _, _, ⟨hst, rfl, rfl⟩, (), r', rest, hlog, (returns_advanceState_iff ?_).mpr hgoes⟩
    exact ne_of_eq_of_ne ((stateOf_exec same_finalizeLog hlog).trans hst) (Option.some_ne_none _)

theorem exec_writeCar_ok_iff {n : ℕ} : (Group.writeCar g).exec l plan = (.ok n l', rest) ↔
    l.offloaded = false ∧ ∃ car r, (onLog g Carlog.CarLog.writeCar).exec l.rbs plan =
      (.ok car r, rest) ∧ n = car.1 ∧ l' = setRbs r l := by
  unfold Group.writeCar
  simp only [Prog.exec]
  cases hoff : l.offloaded with
  | true => simp [Prog.exec]
  | false =>
    simp only [Bool.false_eq_true, if_false, exec_onRbs_ok_iff, Prog.exec_bind_ok_iff]
    constructor
    · rintro ⟨r, ⟨car, _, _, hcar, hret⟩, rfl⟩
      obtain ⟨rfl, rfl, rfl⟩ : car.1 = n ∧ _ = r ∧ _ = rest := by
        simpa [Prog.exec, pure, and_assoc] using hret
      exact ⟨trivial, car, _, hcar, rfl, rfl⟩
    · rintro ⟨-, car, r, hcar, rfl, rfl⟩
      exact ⟨r, ⟨car, _, _, hcar, rfl⟩, rfl⟩

omit X in
theorem returns_setCommP_iff {n : ℕ} (hopen : stateOf g l.rbs ≠ none) :
    (Group.setCommP g st n).Returns l plan ↔ Prog.Goes plan := by
  obtain ⟨grp, hgrp⟩ := exists_of_stateOf hopen
  unfold Group.setCommP Group.dbSetCommP Group.setGroupState
  simp only [Prog.returns_bind_iff, exec_onRbs_ok_iff, exec_setState_ok_iff,
    Prog.exec_step_ok_iff]
  constructor
  · rintro ⟨_, _, _, ⟨_, ⟨_, -, -, rfl⟩, -⟩, _, _, _, ⟨_, ⟨hgoes, -, -⟩, -⟩, -⟩
    exact hgoes
  · intro hgoes
    exact ⟨(), _, _, ⟨_, ⟨grp, hgrp, rfl, rfl⟩, rfl⟩, (), _, _, ⟨_, ⟨hgoes, rfl, rfl⟩, rfl⟩,
      (), _, _, rfl⟩

theorem returns_genCommP_iff : (Group.genCommP g).Returns l plan ↔
    stateOf g l.rbs = some .vrcarDone ∧ l.offloaded = false ∧ ∃ car r rest,
      (onLog g Carlog.CarLog.writeCar).exec l.rbs plan = (.ok car r, rest) ∧ Prog.Goes rest ∧
        Prog.Goes rest.tail := by
  unfold Group.genCommP
  simp only [Prog.returns_bind_iff, exec_onRbs_ok_iff, exec_failUnless_ok_iff,
    exec_writeCar_ok_iff, Prog.exec_step_ok_iff]
  constructor
  · rintro ⟨_, _, _, ⟨_, ⟨hst, rfl, rfl⟩, rfl⟩, _, _, rest, ⟨hoff, car, r, hcar, rfl, rfl⟩, _, _, _,
      ⟨hgoes, rfl, rfl⟩, hset⟩
    refine ⟨hst, hoff, car, r, rest, hcar, hgoes, (returns_setCommP_iff ?_).mp hset⟩
    exact ne_of_eq_of_ne ((stateOf_exec same_onLog hcar).trans hst) (Option.some_ne_none _)
  · rintro ⟨hst, hoff, car, r, rest, hcar, hgoes, hgoes'⟩
    refine ⟨(), _, _, ⟨_, ⟨hst, rfl, rfl⟩, rfl⟩, _, _, rest, ⟨hoff, car, r, hcar, rfl, rfl⟩,
      (), _, _, ⟨hgoes, rfl, rfl⟩, (returns_setCommP_iff ?_).mpr hgoes'⟩
    exact ne_of_eq_of_ne ((stateOf_exec same_onLog hcar).trans hst) (Option.some_ne_none _)

omit X in
theorem exec_groupMeta_ok_iff {gm : Row × Option ℕ} :
    (Group.groupMeta g).exec l plan = (.ok gm l', rest) ↔ Prog.Goes plan ∧
      (l.rbs.rows.find? fun row => row.id = g) = some gm.1 ∧ gm.2 = l.dealCarSize ∧ l' = l ∧
        rest = plan.tail := by
  unfold Group.groupMeta
  simp only [Prog.exec_bind_ok_iff, exec_onRbs_ok_iff, Prog.exec_step_ok_iff]
  constructor
  · rintro ⟨_, _, _, ⟨_, ⟨hgoes, rfl, rfl⟩, rfl⟩, hfind⟩
    simp only [Prog.exec, setRbs, id_eq] at hfind
    split at hfind
    · simp [Prog.exec] at hfind
    · next row hrow =>
      obtain ⟨rfl, rfl, rfl⟩ : (row, l.dealCarSize) = gm ∧ _ = l' ∧ _ = rest := by
        simpa [Prog.exec, and_assoc] using hfind
      exact ⟨hgoes, hrow, rfl, rfl, rfl⟩
  · obtain ⟨row, carSize⟩ := gm
    rintro ⟨hgoes, hrow, rfl, rfl, rfl⟩
    refine ⟨(), _, _, ⟨_, ⟨hgoes, rfl, rfl⟩, rfl⟩, ?_⟩
    simp only [Prog.exec, setRbs, id_eq, hrow]

theorem returns_finDataReload_iff : (Group.finDataReload g).Returns l plan ↔
    stateOf g l.rbs = some .reload ∧ Prog.Goes plan ∧ ∃ row carSize r rest,
      l.rbs.rows.find? (fun row => row.id = g) = some row ∧ l.dealCarSize = some carSize ∧
        (onLog g (Carlog.CarLog.finDataReload row.blocks.toNat carSize)).exec l.rbs plan.tail =
          (.ok () r, rest) ∧ Prog.Goes rest := by
  unfold Group.finDataReload Group.reloadData
  simp only [Prog.returns_bind_iff, Prog.exec_bind_ok_iff, exec_onRbs_ok_iff,
    exec_failUnless_ok_iff, exec_groupMeta_ok_iff]
  constructor
  · rintro ⟨_, l', rest, ⟨_, _, _, ⟨_, ⟨hst, rfl, rfl⟩, rfl⟩, gm, _, _,
      ⟨hgoes, hrow, hsize, rfl, rfl⟩, hreload⟩, hadvance⟩
    obtain ⟨row, carSize⟩ := gm
    cases carSize with
    | none => simp [Prog.exec] at hreload
    | some carSize =>
      obtain ⟨r, hlog, rfl⟩ := exec_onRbs_ok_iff.mp hreload
      rw [exec_wrapErr_ok_iff] at hlog
      have hopen : stateOf g r ≠ none :=
        ne_of_eq_of_ne ((stateOf_exec same_onLog hlog).trans hst) (Option.some_ne_none _)
      rw [returns_onRbs_iff, wrapErr, Prog.returns_rethrow_iff] at hadvance
      exact ⟨hst, hgoes, row, carSize, r, rest, hrow, hsize.symm, hlog,
        (returns_advanceState_iff hopen).mp hadvance⟩
  · rintro ⟨hst, hgoes, row, carSize, r, rest, hrow, hsize, hreload, hgoes'⟩
    refine ⟨(), setRbs r l, rest, ⟨(), _, _, ⟨_, ⟨hst, rfl, rfl⟩, rfl⟩, (row, some carSize), _, _,
      ⟨hgoes, hrow, hsize.symm, rfl, rfl⟩, ?_⟩, ?_⟩
    · exact exec_onRbs_ok_iff.mpr ⟨r, exec_wrapErr_ok_iff.mpr hreload, rfl⟩
    · rw [returns_onRbs_iff, wrapErr, Prog.returns_rethrow_iff]
      refine (returns_advanceState_iff ?_).mpr hgoes'
      exact ne_of_eq_of_ne ((stateOf_exec same_onLog hreload).trans hst) (Option.some_ne_none _)

/-- **What the step needs is what it takes** for it to return nil. -/
theorem TaskType.returns_iff_can (tt : TaskType) :
    (tt.op g).Returns l plan ↔ tt.Can g l plan := by
  cases tt with
  | finalize => exact returns_onRbs_iff.trans returns_finalize_iff
  | genCommP => exact returns_genCommP_iff
  | finDataReload => exact returns_finDataReload_iff

/-! ## What the subscribers hear -/

omit X in
theorem wp_advanceState_returns : wp anyFate (Group.advanceState g st)
    (.returns fun _ r' => stateOf g r' = some st) r := by
  have hset : wp anyFate (Group.setState g st) (.returns fun _ r' => stateOf g r' = some st) r :=
    wp_setState trivial fun _ h => h
  exact wp_returns_seq hset fun _ _ h => wp_returns_step h

/-- **A step that returns nil has advanced the state.** -/
theorem TaskType.advances (tt : TaskType) :
    wp anyFate (tt.op g) (.returns fun _ l' => stateOf g l'.rbs = some tt.new) l := by
  have hadvance : ∀ {s : String} {l}, wp anyFate (onRbs (wrapErr s (Group.advanceState g tt.new)))
      (.returns fun _ l' => stateOf g l'.rbs = some tt.new) l := fun {_ _} =>
    wp_onRbs (wp_returns_handle wp_advanceState_returns)
  have hany : ∀ {α : Type} {m : LifeOp α} {l}, wp anyFate m (.returns fun _ _ => True) l :=
    fun {_ _ _} => wp_trivial
  cases tt with
  | finalize =>
    change wp anyFate (onRbs (Group.finalize g)) _ l
    have hanyRbs : ∀ {α : Type} {m : Op α} {r}, wp anyFate m (.returns fun _ _ => True) r :=
      fun {_ _ _} => wp_trivial
    refine wp_onRbs (wp_returns_seq hanyRbs fun _ _ _ => wp_returns_seq hanyRbs fun _ _ _ => ?_)
    exact wp_returns_seq hanyRbs fun _ _ _ => wp_returns_handle wp_advanceState_returns
  | genCommP =>
    refine wp_returns_seq hany fun _ _ _ => wp_returns_seq hany fun carSize _ _ => ?_
    refine wp_returns_seq hany fun _ u _ => ?_
    have hset : wp anyFate (onRbs (Group.setState g .localReadyForDeals))
        (.returns fun _ l' => stateOf g l'.rbs = some .localReadyForDeals) u :=
      wp_onRbs (wp_setState trivial fun _ h => h)
    have hdb : Respects (SameLife g) (Group.dbSetCommP g .localReadyForDeals carSize) :=
      (same_onRbs (.step fun _ => by rfl)).bind fun _ => .modify fun _ => ⟨rfl, rfl⟩
    refine wp_returns_seq hset fun _ v hv => ?_
    exact wp_mono (hdb v) (fun _ _ h => h.2.trans hv) (fun _ _ _ => trivial) (fun _ _ => trivial)
      fun _ _ _ => trivial
  | finDataReload => exact wp_returns_seq hany fun _ _ _ => hadvance

/-- **A step that returns nil has moved the group** from the one state to the
other. -/
theorem TaskType.moved {tt : TaskType} (h : (tt.op g).exec l plan = (.ok () l', rest)) :
    stateOf g l.rbs = some tt.old ∧ stateOf g l'.rbs = some tt.new := by
  have hcan : tt.Can g l plan := tt.returns_iff_can.mp ⟨(), l', rest, h⟩
  have hsat := wp_sound (tt.advances (g := g) (l := l)) (within_anyFate plan)
  rw [Prog.run_eq_exec, h] at hsat
  refine ⟨?_, hsat⟩
  cases tt with
  | finalize => exact hcan.1
  | genCommP => exact hcan.1
  | finDataReload => exact hcan.1

/-- The steps of a task, from the state `l` of its group on: each fits the
group as it then is, unless the group is not open. -/
def StepsFit (g : GroupKey) : List TaskType → Life → List Fate → Prop
  | [], _, _ => True
  | tt :: tts, l, plan => l.rbs.openGroups g ≠ none →
      (tt.Can g l plan ∨ tt.Dies g l plan) ∧
        ∀ l' rest, (tt.op g).exec l plan = (.ok () l', rest) → StepsFit g tts l' rest

/-- The steps of a task. -/
def Task.steps (toExec : Task) : List TaskType :=
  match toExec.tt with
  | .finalize => [.finalize, .genCommP]
  | .genCommP => [.genCommP]
  | .finDataReload => [.finDataReload]

/-- **A task fits the store.** -/
def TaskFits (w : Workers) : WorkEvent → Prop
  | .task toExec plan => StepsFit toExec.group toExec.steps (w.life toExec.group) plan
  | .elsewhere _ _ _ => True

/-- The steps of a task, one after the other. -/
def execSteps (g : GroupKey) : List TaskType → WorkOp Unit
  | [] => .ret ()
  | tt :: tts => execStep tt g (execSteps g tts)

theorem workerExecTask_eq (toExec : Task) :
    workerExecTask toExec = execSteps toExec.group toExec.steps := by
  obtain ⟨tt, g⟩ := toExec
  cases tt <;> rfl

omit X in
/-- The subscribers are told of a step that went from `w` to `l'`. -/
def Workers.told (w : Workers) (g : GroupKey) (tt : TaskType) (l' : Life) (failed : Bool) :
    Workers :=
  { setLife g l' w with
    heard := w.heard ++ [⟨g, tt.old, tt.new, stateOf g w.rbs, stateOf g l'.rbs, failed⟩] }

omit X in
theorem Workers.life_told {w : Workers} {tt : TaskType} {failed : Bool} :
    (w.told g tt l' failed).life g = l' := by
  simp [Workers.told, Workers.life, setLife]

omit X in
theorem TaskType.old_ne_new (tt : TaskType) : tt.old ≠ tt.new := by
  cases tt <;> decide

variable {w : Workers} {tt : TaskType} {k : WorkOp Unit}

theorem exec_execStep_closed (h : w.rbs.openGroups g = none) :
    (execStep tt g k).exec w plan = (.ok () w, plan) := by
  unfold execStep
  simp [Prog.exec, h]

omit X in
theorem exec_onLife {α : Type} (m : LifeOp α) (w : Workers) (p : List Fate) :
    (onLife g m).exec w p =
      match m.exec (w.life g) p with
      | (.ok a l', p) => (.ok a (setLife g l' w), p)
      | (.err e l', p) => (.err e (setLife g l' w), p)
      | (.crash l', p) => (.crash (setLife g l' w), p)
      | (.fault x l', p) => (.fault x (setLife g l' w), p) := by
  unfold onLife
  rw [Prog.exec_zoom]
  · rcases m.exec (w.life g) p with ⟨_ | _ | _ | _, rest⟩ <;> rfl
  · intro l w
    simp [Workers.life, setLife]
  · intro l l' w
    simp [setLife]
  · intro w
    simp [Workers.life, setLife]

/-- **A step of a task**: the subscribers are told, whether or not it has
returned an error. -/
theorem exec_execStep (h : w.rbs.openGroups g ≠ none) : (execStep tt g k).exec w plan =
    match (tt.op g).exec (w.life g) plan with
    | (.ok _ l', rest) => k.exec (w.told g tt l' false) rest
    | (.err _ l', rest) => k.exec (w.told g tt l' true) rest
    | (.crash l', rest) => (.crash (setLife g l' w), rest)
    | (.fault x l', rest) => (.fault x (setLife g l' w), rest) := by
  have hopen : (w.rbs.openGroups g).isNone = false := by
    cases hg : w.rbs.openGroups g with
    | none => exact absurd hg h
    | some grp => rfl
  have hzoom : (onLife g (tt.op g)).exec w plan = _ := exec_onLife (tt.op g) w plan
  unfold execStep
  simp only [Prog.exec, hopen, Bool.false_eq_true, if_false, Prog.exec_bind, Prog.exec_attempt,
    hzoom]
  rcases (tt.op g).exec (w.life g) plan with ⟨_ | _ | _ | _, rest⟩ <;> rfl

/-- **Of one task**, what is heard is right if and only if it fits. -/
theorem heard_execSteps (tts : List TaskType) (w : Workers) (plan : List Fate) :
    (∀ n ∈ (Workers.after ((execSteps g tts).run w plan)).heard, n.Right) ↔
      (∀ n ∈ w.heard, n.Right) ∧ StepsFit g tts (w.life g) plan := by
  induction tts generalizing w plan with
  | nil => exact (and_iff_left trivial).symm
  | cons tt tts ih =>
    rw [execSteps, Prog.run_eq_exec]
    by_cases hopen : w.rbs.openGroups g = none
    · rw [exec_execStep_closed hopen]
      exact (and_iff_left fun h => absurd hopen h).symm
    · have hfits : StepsFit g (tt :: tts) (w.life g) plan ↔
          (tt.Can g (w.life g) plan ∨ tt.Dies g (w.life g) plan) ∧ ∀ l' rest,
            (tt.op g).exec (w.life g) plan = (.ok () l', rest) → StepsFit g tts l' rest :=
        forall_prop_of_true hopen
      rw [exec_execStep hopen, hfits]
      rcases hexec : (tt.op g).exec (w.life g) plan with ⟨_ | ⟨e, l'⟩ | l' | ⟨x, l'⟩, rest⟩
      -- the step has worked: it could, and what is told is right
      · rename_i a l'
        obtain ⟨hold, hnew⟩ := TaskType.moved hexec
        have hright : Notice.Right ⟨g, tt.old, tt.new, stateOf g w.rbs, stateOf g l'.rbs, false⟩ :=
          fun _ => ⟨rfl, hold, hnew⟩
        have hcan : tt.Can g (w.life g) plan := tt.returns_iff_can.mp ⟨a, l', rest, hexec⟩
        change (∀ n ∈ (Workers.after ((execSteps g tts).exec (w.told g tt l' false) rest).1).heard,
          n.Right) ↔ _
        rw [← Prog.run_eq_exec, ih, Workers.life_told]
        constructor
        · rintro ⟨hheard, hrest⟩
          refine ⟨fun n hn => hheard n (List.mem_append_left _ hn), Or.inl hcan, ?_⟩
          rintro l'' rest' heq
          obtain ⟨rfl, rfl⟩ : l' = l'' ∧ rest = rest' := by simpa using heq
          exact hrest
        · rintro ⟨hheard, -, hrest⟩
          refine ⟨fun n hn => ?_, hrest l' rest rfl⟩
          rcases List.mem_append.mp hn with hn | hn
          · exact hheard n hn
          · exact List.mem_singleton.mp hn ▸ hright
      · -- the subscribers are told of a step that has failed
        have hwrong : ¬ Notice.Right ⟨g, tt.old, tt.new, stateOf g w.rbs, stateOf g l'.rbs, true⟩ :=
          fun h => absurd (h tt.old_ne_new).1 (by simp)
        change (∀ n ∈ (Workers.after ((execSteps g tts).exec (w.told g tt l' true) rest).1).heard,
          n.Right) ↔ _
        rw [← Prog.run_eq_exec, ih]
        refine iff_of_false (fun h => hwrong (h.1 _ ?_)) ?_
        · exact List.mem_append_right _ (List.mem_singleton_self _)
        · rintro ⟨-, hcan | ⟨l'', rest', hdies | ⟨x, hdies⟩⟩, -⟩
          · obtain ⟨a, l'', rest', hok⟩ := tt.returns_iff_can.mpr hcan
            exact absurd (hexec.symm.trans hok) (by simp)
          · exact absurd (hexec.symm.trans hdies) (by simp)
          · exact absurd (hexec.symm.trans hdies) (by simp)
      · have hdies : tt.Dies g (w.life g) plan := ⟨l', rest, Or.inl hexec⟩
        refine (and_iff_left ⟨Or.inr hdies, fun l'' rest' hok => ?_⟩).symm
        exact absurd hok (by simp)
      · have hdies : tt.Dies g (w.life g) plan := ⟨l', rest, Or.inr ⟨x, hexec⟩⟩
        refine (and_iff_left ⟨Or.inr hdies, fun l'' rest' hok => ?_⟩).symm
        exact absurd hok (by simp)

/-- **Subscribers hear what has happened**, in every run, if and only if
each task of the run fits. -/
theorem heard_right_iff (w : Workers) (es : List WorkEvent) :
    (∀ n ∈ (runEvents Workers.next w es).heard, n.Right) ↔
      (∀ n ∈ w.heard, n.Right) ∧ Always Workers.next TaskFits w es := by
  induction es generalizing w with
  | nil => exact (and_iff_left trivial).symm
  | cons e es ih =>
    refine (ih (w.next e)).trans ?_
    have hstep : (∀ n ∈ (w.next e).heard, n.Right) ↔ (∀ n ∈ w.heard, n.Right) ∧ TaskFits w e := by
      cases e with
      | task toExec plan =>
        change (∀ n ∈ (Workers.after ((workerExecTask toExec).run w plan)).heard, n.Right) ↔ _
        rw [workerExecTask_eq]
        exact heard_execSteps toExec.steps w plan
      | elsewhere rbs offloaded dealCarSize => exact (and_iff_left trivial).symm
    rw [hstep, and_assoc]
    rfl

end

section

open Carlog.Encoding

/-- A store with groups that are ready for deals. -/
def readyGroups : Workers where
  rbs := { Rbs.empty with openGroups := fun _ => some ⟨.localReadyForDeals, 0, 0, 0, 0⟩ }
  offloaded _ := false
  dealCarSize _ := none
  heard := []

/-- **A group that is finalized twice**: both steps of the second task are
refused, and the subscribers are told of both. -/
theorem heard_finalizedTwice :
    ¬ ∀ n ∈ (runEvents Workers.next readyGroups [.task ⟨.finalize, 1⟩ []]).heard, n.Right := by
  intro h
  have hheard : (runEvents Workers.next readyGroups [.task ⟨.finalize, 1⟩ []]).heard =
      [⟨1, .full, .vrcarDone, some .localReadyForDeals, some .localReadyForDeals, true⟩,
        ⟨1, .vrcarDone, .localReadyForDeals, some .localReadyForDeals,
          some .localReadyForDeals, true⟩] := rfl
  rw [hheard] at h
  exact absurd (h _ List.mem_cons_self (by decide)).1 (by decide)

end

end Rbstor

end Ribs
