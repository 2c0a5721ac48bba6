import Ribs.Carlog.Index
/-!
# Carlog — the write side

`Put` appends the blocks that the index does not have to the log, through
the buffer, and then writes their offsets to the index as one batch.
`Commit` flushes the buffer, syncs the data file and moves the head's
`retiredAt` to the end of the data.
-/

namespace Ribs

open Common

namespace Carlog

variable [X : External]

/-- `lru.Cache.Add`: to the front; the last of too many goes. -/
def lruAdd (lru : List (I64 × Bytes)) (k : I64) (v : Bytes) : List (I64 × Bytes) :=
  ((k, v) :: lru.filter fun e => e.1 ≠ k).take writeLRUEntries

/-- `lru.Cache.Get`: a hit moves to the front. -/
def lruGet (lru : List (I64 × Bytes)) (k : I64) : Option (Bytes × List (I64 × Bytes)) :=
  (lru.find? fun e => e.1 = k).map fun e => (e.2, e :: lru.filter fun e => e.1 ≠ k)

namespace CarLog

def readableIndex : Op ReadableIndex := .get fun w => deref w.jb.rIdx

/-- Append one entry of the parts `d` to the buffer; the result is its
size in the log. -/
def ldWrite (d : List Bytes) : Op ℕ := do
  let sum := (d.map List.length).sum
  bufWrite (putUvarint sum)
  d.forM bufWrite
  return sum + (putUvarint sum).length

/-- Append one block: at `dataLen`, into the buffer and the LRU. -/
def putBlock (m : Multihash) (blk : Bytes) : Op I64 := .get fun w => do
  let bcid := (Cid.mk raw m).bytes
  let offset := makeOffsetLen w.jb.dataLen (bcid.length + blk.length)
  let n ← wrapErr "writing block" (ldWrite [bcid, blk])
  .get fun w => do
    let lru ← deref w.jb.writeLru
    modifyJb fun j => { j with
      writeLru := some (lruAdd lru offset blk)
      dataLen := j.dataLen + n }
    return offset

/-- The loop of `Put`; what the index has is skipped. -/
def putBlocks : List (Multihash × Bytes × Bool) → Op (List I64)
  | [] => .ret []
  | (m, blk, has) :: rest => do
    if has then do
      let offsets ← putBlocks rest
      return -1 :: offsets
    else do
      failIf (maxEntryLen < blk.length) (.text "block too large")
      let offset ← putBlock m blk
      let offsets ← putBlocks rest
      return offset :: offsets

/-- `Put`, with the index lock held for reading. -/
def putLocked (c : List Multihash) (b : List Bytes) : Op Unit := .get fun w => do
  failIf (w.jb.wIdx.isNone) (.text "cannot write to read-only (or closing) jbob")
  failIf (c.length ≠ b.length) (.text "hash list length doesn't match blocks length")
  let idx ← readableIndex
  let hasList ← idx.has c
  let offsets ← putBlocks (c.zip (b.zip hasList))
  wrapErr "updating index" (LevelDBIndex.put LevelDBIndex.modifyLevel c offsets)

def put (c : List Multihash) (b : List Bytes) : Op Unit := do
  rLockIdx
  (putLocked c b).andThen rUnlockIdx

/-- Flush what is buffered. -/
def flushBuffered : Op Unit := .get fun w => do
  let b ← deref w.jb.dataBuffered
  if b.buf = [] then .ret () else flush

/-- `Commit`, with the index lock held for reading and a write index. -/
def commitLocked : Op ℕ := do
  wrapErr "flushing buffered data" flushBuffered
  wrapErr "sync data" dataSync
  .get fun w =>
    let commit := (mutHead fun h =>
      if h.retiredAt = w.jb.dataLen then .error .errNothingToCommit
      else .ok { h with retiredAt := w.jb.dataLen })
    let moved : Op ℕ := do
      let _ ← commit
      return w.jb.dataLen
    moved.handle fun e =>
      if e = .errNothingToCommit then .ret w.jb.dataLen else .throw (.wrap "mutate head" e)

/-- Without a write index there is nothing to commit. -/
def commit : Op ℕ := do
  rLockIdx
  .get fun w =>
    if w.jb.wIdx.isNone then do
      rUnlockIdx
      return 0
    else commitLocked.andThen rUnlockIdx

end CarLog

end Carlog

end Ribs
