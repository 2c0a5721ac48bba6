import Ribs.Carlog.Finalize
/-!
# Carlog — runs

A log is used through its operations, one at a time, by a process that
may die: inside an operation, between the steps its plan allows, or
between two operations. The files are then what the process wrote; when
the machine goes down, a suffix of what was not synced may be lost with
it. What the callers were told is kept in the ghost fields.
-/

namespace Ribs

open Common

namespace Carlog

/-- The operations of a log, and how one comes to be open. -/
inductive Cmd where
  | create (staging : Bool)
  | openLog (staging : Bool) (tc : Option TruncCleanup)
  | put (c : List Multihash) (b : List Bytes)
  | commit
  | view (c : List Multihash) (cb : Callback)
  | markReadOnly
  | finalize
  | loadData (car : Bytes) (sz : ℕ)
  | finDataReload (blkEnts carSz : ℕ)
  | writeCar
  | hashSample
  | offload
  | offloadData
  | close

/-- The operation makes a `CarLog`, instead of using one. -/
def Cmd.Starts : Cmd → Prop
  | create _ => True
  | openLog _ _ => True
  | _ => False

instance : DecidablePred Cmd.Starts := fun c => by
  cases c <;> simp only [Cmd.Starts] <;> infer_instance

variable [X : External]

/-- `m`, without its result. -/
def discard {α : Type} (m : Op α) : Op Unit := do
  let _ ← m
  return ()

def Cmd.op : Cmd → Op Unit
  | create staging => CarLog.create staging
  | openLog staging tc => CarLog.openLog staging tc
  | put c b => CarLog.put c b
  | commit => discard CarLog.commit
  | view c cb => CarLog.view c cb
  | markReadOnly => CarLog.markReadOnly
  | finalize => CarLog.finalize
  | loadData car sz => CarLog.loadData car sz
  | finDataReload blkEnts carSz => CarLog.finDataReload blkEnts carSz
  | writeCar => discard CarLog.writeCar
  | hashSample => discard CarLog.hashSample
  | offload => CarLog.offload
  | offloadData => CarLog.offloadLocalData
  | close => CarLog.close

/-- What happens to a log. -/
inductive Event where
  /-- An operation, under a plan for its steps. -/
  | call (cmd : Cmd) (plan : List Fate)
  /-- The process dies. -/
  | kill
  /-- The machine goes down: of the writes not synced, so many to the data
  file and to the index are kept. -/
  | reboot (keepData keepLevel : ℕ)

/-- A block, as it is put. -/
structure Block where
  hash : Multihash
  data : Bytes
deriving DecidableEq

/-- **The system**: the world, whether a log is open, and what the callers
know. -/
structure Sys where
  world : World
  isUp : Bool
  /-- The blocks of the `Put`s that returned nil: the committed ones, and
  those since the log was opened. -/
  acked : List Block
  /-- The blocks acknowledged before a `Commit` that returned nil. -/
  committed : List Block
  /-- How many index writes, of those not synced, were made when the last
  such `Commit` returned. -/
  mark : ℕ

namespace Sys

/-- Where a log's life begins: none of its files is there. -/
def start (w : World) : Sys := ⟨{ w with disk := .empty, jb := .zero }, false, [], [], 0⟩

/-- The index writes that are not synced. -/
def unsynced (w : World) : ℕ := (w.disk.levelIndex.map fun j => j.later.length).getD 0

/-- The world moves on. -/
def moved (s : Sys) (w : World) : Sys := { s with world := w, mark := min s.mark (unsynced w) }

/-- The process is gone, and with it what was in memory. -/
def down (s : Sys) (w : World) : Sys :=
  { s.moved { w with jb := .zero } with isUp := false, acked := s.committed }

/-- What the caller of an operation that returned nil knows. -/
def noted (s : Sys) : Cmd → Sys
  | .put c b => { s with acked := s.acked ++ List.zipWith Block.mk c b }
  | .commit => { s with committed := s.acked, mark := unsynced s.world }
  | .close => s.down s.world
  | _ => s

/-- After an operation. A panic, or a wait without end, is the end of the
process. -/
def after (s : Sys) (cmd : Cmd) : Outcome World Err Unit → Sys
  | .ok _ w => { s.moved w with isUp := true }.noted cmd
  | .err _ w => if cmd.Starts then s.down w else s.moved w
  | .crash w => s.down w
  | .fault _ w => s.down w

/-- What a machine going down leaves of the files. -/
def lose (keepData keepLevel : ℕ) (d : Disk) : Disk :=
  { d with
    blockLog := d.blockLog.map fun j => j.survive keepData
    levelIndex := d.levelIndex.map fun j => j.survive keepLevel }

/-- One event. A log is opened when none is open, and used when one is. -/
def next (s : Sys) : Event → Sys
  | .call cmd plan =>
    if cmd.Starts ∧ s.isUp = false ∨ ¬ cmd.Starts ∧ s.isUp then
      s.after cmd (cmd.op.run s.world plan)
    else s
  | .kill => s.down s.world
  | .reboot keepData keepLevel =>
    s.down { s.world with disk := lose keepData keepLevel s.world.disk }

def run (s : Sys) (es : List Event) : Sys := es.foldl next s

/-- Every event of a run meets a condition on the state it happens in. -/
def Always (C : Sys → Event → Prop) : Sys → List Event → Prop
  | _, [] => True
  | s, e :: es => C s e ∧ (s.next e).Always C es

/-- **An invariant of the steps holds after a run.** -/
theorem run_invariant {I : Sys → Prop} {C : Sys → Event → Prop}
    (hstep : ∀ s e, I s → C s e → I (s.next e)) {s : Sys} {es : List Event} (hs : I s)
    (h : s.Always C es) : I (s.run es) := by
  induction es generalizing s with
  | nil => exact hs
  | cons e es ih => exact ih (hstep s e hs h.1) h.2

end Sys

end Carlog

end Ribs
