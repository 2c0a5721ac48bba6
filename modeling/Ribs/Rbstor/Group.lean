import Ribs.Carlog.System
import Ribs.Rbstor.PebbleIndex
/-!
# Rbstor — groups

A group is a log with a row in the database. `Put` reserves what space is
left, gives the blocks that fit to the log and to the top index, and when
some do not fit the group is full: it is synced and marked read-only. The
store keeps the open groups, and among them those that can be written.
-/

namespace Ribs

open Common

namespace Rbstor

open Carlog (Block)

inductive Err where
  /-- Of the database, of opening a group, or of a log. -/
  | other (n : ℕ)
  | errOffloaded
  | noExternal (group : GroupKey)
  | carlog (e : Carlog.Err)
  | index
  | db
  | mkdir
  | text (s : String)
  | wrap (s : String) (e : Err)

/-- `iface.GroupState`. -/
inductive GroupState where
  | writable
  | full
  | vrcarDone
  | localReadyForDeals
  | offloaded
  | reload
deriving DecidableEq

def maxGroupSize : ℤ := 29500 <<< 20

def maxGroupBlocks : ℤ := 20 <<< 20

def maxLocalGroupCount : ℕ := 64

/-- A group in memory. Its log is in `Rbs.log`. -/
structure Group where
  state : GroupState
  /-- Of the writes to the log that are not committed yet. -/
  inflightBlocks : ℤ
  inflightSize : ℤ
  committedBlocks : ℤ
  committedSize : ℤ

/-- A row of the table `groups`, and whether the table `offloads` has the
group. -/
structure Row where
  id : GroupKey
  blocks : ℤ
  bytes : ℤ
  state : GroupState
  jbRecordedHead : ℤ
  offloaded : Bool

/-- A write of `Group.Put` that returned nil. -/
inductive Call where
  | put (group : GroupKey) (c : List Multihash) (b : List Bytes)
  | addGroup (group : GroupKey) (c : List Multihash) (sizes : List I32)

/-- **The store.** Every key has a log; it is that of a group when the
group's directory was made. -/
structure Rbs where
  openGroups : GroupKey → Option Group
  /-- The keys of `writableGroups`; the groups are those in `openGroups`. -/
  writableGroups : List GroupKey
  rows : List Row
  log : GroupKey → Carlog.World
  index : Db
  /-- The groups to finalize. -/
  tasks : List GroupKey
  /-- A staging provider is installed. -/
  staging : Bool
  /-- The writes so far. -/
  calls : List Call
  /-- Which one of many is taken, where a map is ranged over or the
  database is free to choose. -/
  pick : ℕ → ℕ
  picked : ℕ

/-- A new store. -/
def Rbs.empty : Rbs where
  openGroups _ := none
  writableGroups := []
  rows := []
  log _ := .empty
  index := ∅
  tasks := []
  staging := false
  calls := []
  pick _ := 0
  picked := 0

abbrev Op := Prog Rbs Err

def failIf (c : Prop) [Decidable c] (e : Err) : Op Unit := if c then .throw e else .ret ()

def wrapErr {α : Type} (s : String) (m : Op α) : Op α := m.handle fun e => .throw (.wrap s e)

/-- One of a list that is not empty. -/
def choose {α : Type} (l : List α) : Op α := .get fun r =>
  match l[r.pick r.picked % l.length]? with
  | none => .fault .panic
  | some a => .put { r with picked := r.picked + 1 } (.ret a)

def setLog (g : GroupKey) (w : Carlog.World) (r : Rbs) : Rbs :=
  { r with log := Function.update r.log g w }

@[simp] theorem setLog_log {g : GroupKey} {w : Carlog.World} {r : Rbs} : (setLog g w r).log g = w :=
  Function.update_self ..

/-- An operation of the log of a group. -/
def onLog {α : Type} (g : GroupKey) (m : Carlog.Op α) : Op α :=
  m.zoom (fun r => r.log g) (setLog g) .carlog

def getGroup (g : GroupKey) : Op Group := .get fun r =>
  match r.openGroups g with
  | none => .fault .panic
  | some grp => .ret grp

def setGroup (g : GroupKey) (grp : Group) (r : Rbs) : Rbs :=
  { r with openGroups := Function.update r.openGroups g (some grp) }

def modifyGroup (g : GroupKey) (f : Group → Group) : Op Unit := do
  let grp ← getGroup g
  .modify (setGroup g (f grp))

/-! ## The database -/

def groupHead (id : GroupKey) (state : GroupState) (commBlk commSz at_ : ℤ) (row : Row) : Row :=
  if row.id = id then
    { row with blocks := commBlk, bytes := commSz, state := state, jbRecordedHead := at_ }
  else row

theorem groupHead_id {id : GroupKey} {state : GroupState} {commBlk commSz at_ : ℤ} (row : Row) :
    (groupHead id state commBlk commSz at_ row).id = row.id := by
  unfold groupHead
  split_ifs <;> rfl

def setGroupHead (id : GroupKey) (state : GroupState) (commBlk commSz at_ : ℤ) : Op Unit :=
  .step .db fun r => { r with rows := r.rows.map (groupHead id state commBlk commSz at_) }

/-- The groups that the database has as writable. -/
def writableRows (rows : List Row) : List Row := rows.filter fun row => row.state = .writable

def getWritableGroup : Op (Option Row) := do
  wrapErr "finding writable groups" (.step .db id)
  .get fun r =>
    if writableRows r.rows = [] then .ret none
    else do
      let row ← choose (writableRows r.rows)
      return some row

/-- A new id is above the old ones. -/
def nextId (rows : List Row) : ℕ := (rows.map fun row => row.id.toNat).foldr max 0 + 1

def createGroupRow : Op GroupKey := .get fun r => do
  failIf (2 ^ 63 ≤ nextId r.rows) .db
  let id : GroupKey := BitVec.ofNat 64 (nextId r.rows)
  -- the row is there before the group's directory is
  .step .db fun r => { r with rows := r.rows ++ [⟨id, 0, 0, .writable, 0, false⟩] }
  return id

def countNonOffloadedGroups : Op ℕ := do
  .step .db id
  .get fun r => .ret (r.rows.filter fun row => !row.offloaded).length

/-- The first group of a state, by id, that was not offloaded. -/
def firstOf (state : GroupState) (rows : List Row) : Option Row :=
  ((rows.filter fun row => !row.offloaded && row.state = state).mergeSort
    fun a b => a.id.toInt ≤ b.id.toInt).head?

/-- Offloaded groups come first. -/
def getOffloadCandidate : Op (Option Row) := do
  .step .db id
  .get fun r => .ret ((firstOf .offloaded r.rows).or (firstOf .localReadyForDeals r.rows))

def writeOffloadEntry (id : GroupKey) : Op Unit :=
  .step .db fun r => { r with
    rows := r.rows.map fun row => if row.id = id then { row with offloaded := true } else row }

/-! ## Writing -/

namespace Group

/-- The loop of `Put` that reserves space: how many blocks fit, and their
size. -/
def reserve (availSpace committedBlocks : ℤ) (writeSize : ℤ) (writeBlocks : ℕ) :
    List Block → ℤ × ℕ
  | [] => (writeSize, writeBlocks)
  | blk :: b =>
    if availSpace < blk.data.length + writeSize ∨ maxGroupBlocks ≤ committedBlocks + writeBlocks then
      (writeSize, writeBlocks)
    else reserve availSpace committedBlocks (writeSize + blk.data.length) (writeBlocks + 1) b

/-- The space of a group, for `b`. -/
def space (grp : Group) (b : List Block) : ℤ × ℕ :=
  reserve (maxGroupSize - grp.committedSize - grp.inflightSize) grp.committedBlocks 0 0 b

/-- The group behind the reservation. -/
def reserved (grp : Group) (b : List Block) : Group :=
  { grp with
    state := if (grp.space b).2 < b.length then .full else grp.state
    inflightBlocks := grp.inflightBlocks + (grp.space b).2
    inflightSize := grp.inflightSize + (grp.space b).1 }

def committed (grp : Group) : Group :=
  { grp with
    committedBlocks := grp.committedBlocks + grp.inflightBlocks
    committedSize := grp.committedSize + grp.inflightSize
    inflightBlocks := 0
    inflightSize := 0 }

section

variable [X : Carlog.External]

def sync (g : GroupKey) : Op Unit := do
  let at_ ← wrapErr "committing jbob" (onLog g Carlog.CarLog.commit)
  modifyGroup g committed
  let grp ← getGroup g
  wrapErr "update group head"
    (setGroupHead g grp.state grp.committedBlocks grp.committedSize at_)

/-- The write to the log. -/
def putLog (g : GroupKey) (b : List Block) : Op Unit := do
  wrapErr "writing to jbob" (onLog g (Carlog.CarLog.put (b.map Block.hash) (b.map Block.data)))
  .modify fun r => { r with calls := r.calls ++ [.put g (b.map Block.hash) (b.map Block.data)] }

/-- `int32(len(blk.RawData()))`. -/
def blockSizes (b : List Block) : List I32 := b.map fun blk => BitVec.ofNat 32 blk.data.length

/-- The write to the top index. -/
def addIndex (g : GroupKey) (b : List Block) : Op Unit := .get fun r =>
  match PebbleIndex.addGroup r.index (b.map Block.hash) (blockSizes b) g with
  | none => .fault .panic
  | some db => wrapErr "writing index" <| .step .index fun r => { r with
      index := db, calls := r.calls ++ [.addGroup g (b.map Block.hash) (blockSizes b)] }

/-- The two writes, at the same time. Both are made, whether or not the
other one fails. -/
def write (g : GroupKey) (b : List Block) : Op Unit := do
  let put ← (putLog g b).attempt
  let add ← (addIndex g b).attempt
  match put, add with
  | .error e, _ => .throw (.wrap "data/index write" e)
  | .ok _, .error e => .throw (.wrap "data/index write" e)
  | .ok _, .ok _ => .ret ()

/-- A group that is full is synced and marked read-only. -/
def retire (g : GroupKey) : Op Unit := do
  wrapErr "sync full group" (sync g)
  wrapErr "mark jbob read-only" (onLog g Carlog.CarLog.markReadOnly)

/-- `Put`; the result is how many blocks were written. -/
def put (g : GroupKey) (b : List Block) : Op ℕ :=
  if b = [] then .ret 0
  else do
    let grp ← getGroup g
    if grp.state ≠ .writable then .ret 0
    else do
      .modify (setGroup g (grp.reserved b))
      -- the space is reserved before the writes, which may fail
      write g (b.take (grp.space b).2)
      if (grp.reserved b).state = .full then do
        retire g
        return (grp.space b).2
      else .ret (grp.space b).2

/-- `offloadStaging`. -/
def offloadStaging (g : GroupKey) : Op Unit := do
  let grp ← getGroup g
  failIf (grp.state ≠ .localReadyForDeals) (.text "can't offload group in state")
  wrapErr "offloading carlog data" (onLog g Carlog.CarLog.offloadLocalData)
  wrapErr "write offload entry" (writeOffloadEntry g)

/-! ## Opening -/

/-- What `Open` cleaned up goes out of the top index. -/
def cleanUp (g : GroupKey) (r : Rbs) : Rbs :=
  { r with index := (r.log g).cleaned.foldl (fun db h => PebbleIndex.dropGroup db h g) r.index }

/-- The callback of `Open`; `dropped` tells whether `DropGroup` succeeds. -/
def truncCleanup (recordedHead : ℤ) (dropped : Bool) : Carlog.TruncCleanup := fun at_ _ =>
  if (at_ : ℤ) < recordedHead then some 0 else if dropped then none else some 1

/-- The log is opened, with `DropGroup` in its callback. -/
def openJbob (g : GroupKey) (recordedHead : ℤ) (create staging dropped : Bool) : Op Unit := do
  let opened ← (onLog g <|
    if create then Carlog.CarLog.create staging
    else Carlog.CarLog.openLog staging (some (truncCleanup recordedHead dropped))).attempt
  .modify (cleanUp g)
  match opened with
  | .error e => .throw (.wrap "open jbob" e)
  | .ok _ => .ret ()

/-- `OpenGroup`. The index of a log that is open is locked by it. -/
def openGroup (g : GroupKey) (committedBlocks committedSize recordedHead : ℤ) (state : GroupState)
    (create : Bool) : Op Group := do
  wrapErr "create group directory" (.step .mkdir id)
  .get fun r =>
    if (r.openGroups g).isSome then .throw (.text "open jbob")
    else do
      -- what is cleaned up from here on goes out of the top index
      onLog g (.modify fun w => { w with cleaned := [] })
      .io id (fun _ => id) fun dropped => do
        openJbob g recordedHead create r.staging dropped
        return ⟨state, 0, 0, committedBlocks, committedSize⟩

end

end Group

/-! ## The groups of the store -/

section

variable [X : Carlog.External]

/-- A group is entered into the maps. -/
def opened (g : GroupKey) (state : GroupState) (grp : Group) (r : Rbs) : Rbs :=
  { setGroup g grp r with
    writableGroups := if state = .writable then g :: r.writableGroups.erase g else r.writableGroups }

def openGroup (g : GroupKey) (blocks bytes jbhead : ℤ) (state : GroupState) (create : Bool) :
    Op Unit := do
  let grp ← wrapErr "opening group" (Group.openGroup g blocks bytes jbhead state create)
  .modify (opened g state grp)

def openRow (row : Row) : Op Unit :=
  openGroup row.id row.blocks row.bytes row.jbRecordedHead row.state false

/-- `withReadableGroup`, of a group with a row. -/
def withReadableGroup (row : Row) (cb : Op Unit) : Op Unit := do
  wrapErr "getting group metadata" (.step .db id)
  .get fun r =>
    if (r.openGroups row.id).isSome then cb
    else do
      openRow row
      cb

/-- With too many local groups one is offloaded. When none can be, the
wait for one is for others to end. -/
def ensureSpaceForGroup : Op Unit := do
  let localCount ← wrapErr "counting non-offloaded groups" countNonOffloadedGroups
  if localCount < maxLocalGroupCount then .ret ()
  else do
    let candidate ← wrapErr "getting offload candidate" getOffloadCandidate
    match candidate with
    | none => .fault .blocked
    | some row => withReadableGroup row (Group.offloadStaging row.id)

def createGroup : Op GroupKey := do
  wrapErr "ensure space for group" ensureSpaceForGroup
  let selectedGroup ← wrapErr "creating group" createGroupRow
  wrapErr "opening group" (openGroup selectedGroup 0 0 0 .writable true)
  return selectedGroup

/-- The group that `withWritableGroup` selects: an open one, one of the
database, or a new one. -/
def selectGroup : Op GroupKey := .get fun r =>
  if r.writableGroups ≠ [] then choose r.writableGroups
  else do
    let selected ← getWritableGroup
    match selected with
    | some row => do
      wrapErr "opening group" (openRow row)
      return row.id
    | none => wrapErr "creating group" createGroup

/-- A group that was filled is not written any more, and is to be
finalized. -/
def dropFilled (g : GroupKey) : Op Unit := .get fun r => do
  let grp ← if g ∈ r.writableGroups then getGroup g else .fault .panic
  if grp.state ≠ .writable then
    .modify fun r => { r with
      writableGroups := r.writableGroups.erase g, tasks := r.tasks ++ [g] }
  else .ret ()

/-- `withWritableGroup`; when `cb` fails the group stays as it is. -/
def withWritableGroup {α : Type} (cb : GroupKey → Op α) : Op (GroupKey × α) := do
  let selectedGroup ← selectGroup
  let a ← cb selectedGroup
  dropFilled selectedGroup
  return (selectedGroup, a)

end

end Rbstor

end Ribs
