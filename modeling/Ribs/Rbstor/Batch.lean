import Ribs.Rbstor.Group
/-!
# Rbstor — batches

A batch puts its blocks into writable groups, as many as fit into one at a
time, and remembers the groups. `Flush` syncs those of them that are still
writable.
-/

namespace Ribs

open Common

namespace Rbstor

open Carlog (Block)

/-- `ribBatch`. -/
structure Batch where
  currentWriteTarget : GroupKey
  /-- A set. -/
  toFlush : List GroupKey

/-- `Session.Batch`. -/
def Batch.new : Batch := ⟨undefGroupKey, []⟩

/-- An iteration of the loop of `Batch.Put`: the group selected, what was
written to it, and whether it was taken out of `writableGroups`. -/
structure Iter where
  group : GroupKey
  blocks : List Block
  retired : Bool

namespace Batch

variable [X : Carlog.External]

/-- One iteration of the loop of `Put`, with the blocks not done. -/
def putStep (bt : Batch) (b : List Block) : Op (Batch × Iter) := do
  let (gk, wrote) ← wrapErr "write to group" (withWritableGroup fun g => Group.put g b)
  .get fun r => .ret
    (⟨gk, bt.toFlush.insert gk⟩, ⟨gk, b.take wrote, decide (gk ∉ r.writableGroups)⟩)

/-- `Put`: the loop, with its iterations. Without fuel it does not end. -/
def put : ℕ → Batch → List Block → Op (Option (Batch × List Iter))
  | _, bt, [] => .ret (some (bt, []))
  | 0, _, _ :: _ => .ret none
  | fuel + 1, bt, blk :: b => do
    let (bt, it) ← bt.putStep (blk :: b)
    let rest ← put fuel bt ((blk :: b).drop it.blocks.length)
    return rest.map fun e => (e.1, it :: e.2)

/-- The sync of one key in the loop of `Flush`, made when the key is found
in `writableGroups`, with the lock of the store released. -/
def syncKey (key : GroupKey) : Op Unit := wrapErr "sync group" (Group.sync key)

/-- The end of `Flush`: the top index is synced. -/
def flushIndex : Op Unit := wrapErr "flush top index" (.step .index id)

end Batch

end Rbstor

end Ribs
