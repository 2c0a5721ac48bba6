import Ribs.Common.Respects
import Ribs.Common.Runs
import Ribs.Rbstor.Group
/-!
# Rbstor — the life of a group

A group is filled, finalized, gets its CommP, is offloaded, is loaded
again from a CAR and offloaded once more. Each operation checks the state
of the group, changes the log, and advances the state, in memory and then
in the database. Reads ask a flag of their own whether the group is
offloaded.
-/

namespace Ribs

open Common

namespace Rbstor

open Carlog (Block)

/-- The order of the states. -/
def GroupState.ord : GroupState → ℕ
  | .writable => 0
  | .full => 1
  | .vrcarDone => 2
  | .localReadyForDeals => 3
  | .offloaded => 4
  | .reload => 5

/-- **A group of a store**, and what else there is to it. -/
structure Life where
  rbs : Rbs
  /-- `offloaded`, of the group in memory. -/
  offloaded : Bool
  /-- `DealCarSize`, a column of its row. -/
  dealCarSize : Option ℕ

abbrev LifeOp := Prog Life Err

def setRbs (r : Rbs) (l : Life) : Life := { l with rbs := r }

/-- An operation that does not ask the flag. -/
def onRbs {α : Type} (m : Op α) : LifeOp α := m.zoom Life.rbs setRbs id

namespace Group

variable [X : Carlog.External]

/-! ## The database -/

def setGroupState (g : GroupKey) (st : GroupState) : Op Unit :=
  .step .db fun r => { r with
    rows := r.rows.map fun row => if row.id = g then { row with state := st } else row }

/-- `SetCommP`, as far as the columns go that are read here. -/
def dbSetCommP (g : GroupKey) (st : GroupState) (carSize : ℕ) : LifeOp Unit := do
  onRbs (setGroupState g st)
  .modify fun l => { l with dealCarSize := some carSize }

/-- `GroupMeta`. -/
def groupMeta (g : GroupKey) : LifeOp (Row × Option ℕ) := do
  onRbs (.step .db id)
  .get fun l =>
    match l.rbs.rows.find? fun row => row.id = g with
    | none => .throw .db
    | some row => .ret (row, l.dealCarSize)

def setState (g : GroupKey) (st : GroupState) : Op Unit :=
  modifyGroup g fun grp => { grp with state := st }

/-- The state in memory is set whether or not the one in the database is. -/
def advanceState (g : GroupKey) (st : GroupState) : Op Unit := do
  setState g st
  setGroupState g st

def setCommP (g : GroupKey) (st : GroupState) (carSize : ℕ) : LifeOp Unit := do
  onRbs (setState g st)
  dbSetCommP g st carSize

/-! ## The operations -/

def failUnless (g : GroupKey) (st : GroupState) (s : String) : Op Unit := do
  let grp ← getGroup g
  failIf (grp.state ≠ st) (.text s)

def finalize (g : GroupKey) : Op Unit := do
  failUnless g .full "group not in state for finalization"
  (onLog g Carlog.CarLog.markReadOnly).handle fun e =>
    match e with
    -- the log may be read-only from an earlier try
    | .carlog .errReadOnly => .ret ()
    | e => .throw (.wrap "mark read-only" e)
  wrapErr "finalize jbob" (onLog g Carlog.CarLog.finalize)
  wrapErr "mark level index dropped" (advanceState g .vrcarDone)

/-- The size of the CAR; its bytes go into the CommP. -/
def writeCar (g : GroupKey) : LifeOp ℕ := .get fun l =>
  if l.offloaded then .throw .errOffloaded
  else onRbs do
    let car ← onLog g Carlog.CarLog.writeCar
    return car.1

def genCommP (g : GroupKey) : LifeOp Unit := do
  onRbs (failUnless g .vrcarDone "group not in state for generating top CAR")
  let carSize ← writeCar g
  .step (.text "sum car") id
  setCommP g .localReadyForDeals carSize

def loadFilCar (g : GroupKey) (car : Bytes) (sz : ℕ) : Op Unit := do
  failUnless g .offloaded "can't offload group in state"
  wrapErr "load carlog data" (onLog g (Carlog.CarLog.loadData car sz))
  -- the text is that of `offload`
  wrapErr "marking group as offloaded" (advanceState g .reload)

/-- `FinDataReload`, up to the state. -/
def reloadData (g : GroupKey) : LifeOp Unit := do
  onRbs (failUnless g .reload "group not in state for finishing data reload")
  let gm ← groupMeta g
  match gm.2 with
  | none => .throw (.text "deal car size is nil!")
  | some carSize =>
    onRbs (wrapErr "carlog finalize data reload"
      (onLog g (Carlog.CarLog.finDataReload gm.1.blocks.toNat carSize)))

def finDataReload (g : GroupKey) : LifeOp Unit := do
  reloadData g
  onRbs (wrapErr "mark level index dropped" (advanceState g .localReadyForDeals))

/-- `offload`, behind the flag. -/
def offloadLog (g : GroupKey) : Op Unit := do
  failUnless g .localReadyForDeals "can't offload group in state"
  wrapErr "marking group as offloaded" (advanceState g .offloaded)
  (onLog g Carlog.CarLog.offload).handle fun e =>
    match e with
    -- and offloaded from an earlier try
    | .carlog .errAlreadyOffloaded => .ret ()
    | e => .throw (.wrap "offloading carlog" e)
  wrapErr "write offload entry" (writeOffloadEntry g)

/-- The flag is set first, before the state is looked at. -/
def offload (g : GroupKey) : LifeOp Unit := do
  .modify fun l => { l with offloaded := true }
  onRbs (offloadLog g)

/-- The group is opened as its row says, and `OpenGroup` sets the flag. -/
def openLife (g : GroupKey) (create : Bool) : LifeOp Unit := do
  let gm ← groupMeta g
  onRbs (Rbstor.openGroup g gm.1.blocks gm.1.bytes gm.1.jbRecordedHead gm.1.state create)
  .modify fun l => { l with
    offloaded := GroupState.offloaded.ord ≤ gm.1.state.ord }

end Group

/-! ## Runs -/

/-- The operations of a group, and how one comes to be open. -/
inductive LifeCmd where
  | openLife (create : Bool)
  | put (b : List Block)
  | sync
  | finalize
  | genCommP
  | offload
  | loadFilCar (car : Bytes) (sz : ℕ)
  | finDataReload

/-- What happens to a group. -/
inductive LifeEvent where
  /-- An operation, under a plan for its steps. -/
  | call (cmd : LifeCmd) (plan : List Fate)
  /-- The process dies, between two operations. -/
  | kill

variable [X : Carlog.External]

def LifeCmd.op (g : GroupKey) : LifeCmd → LifeOp Unit
  | openLife create => Group.openLife g create
  | put b => onRbs do
      let _ ← Group.put g b
  | sync => onRbs (Group.sync g)
  | finalize => onRbs (Group.finalize g)
  | genCommP => Group.genCommP g
  | offload => Group.offload g
  | loadFilCar car sz => onRbs (Group.loadFilCar g car sz)
  | finDataReload => Group.finDataReload g

namespace Life

/-- The group in memory. -/
def group (g : GroupKey) (l : Life) : Option Group := l.rbs.openGroups g

/-- The process is gone, and with it what was in memory. -/
def down (g : GroupKey) (l : Life) : Life :=
  { l with
    rbs := { l.rbs with
      openGroups := Function.update l.rbs.openGroups g none
      log := Function.update l.rbs.log g { l.rbs.log g with jb := .zero } }
    offloaded := false }

/-- After an operation. A panic, or a wait without end, is the end of the
process. -/
def after (g : GroupKey) : Outcome Life Err Unit → Life
  | .ok _ l => l
  | .err _ l => l
  | .crash l => l.down g
  | .fault _ l => l.down g

/-- A group is opened when it is not open, and used when it is. -/
def enabled (g : GroupKey) (l : Life) : LifeCmd → Bool
  | .openLife _ => (l.group g).isNone
  | _ => (l.group g).isSome

def next (g : GroupKey) (l : Life) : LifeEvent → Life
  | .call cmd plan => if l.enabled g cmd then after g ((cmd.op g).run l plan) else l
  | .kill => l.down g

end Life

end Rbstor

end Ribs
