import Ribs.Carlog.Write
/-!
# Carlog — the read side

`View` gets the places of the blocks from the index and hands out each
block from the LRU or from the file; when the file does not reach far
enough yet, the buffer is flushed. A log with an external index reads
from the staging storage. `iterate` walks the entries of the file.
-/

namespace Ribs

open Common

namespace Carlog

variable [X : External]

/-- What a `View` callback returns: nothing, or an error. -/
abbrev Callback := Call → Option ℕ

/-- Call a callback. -/
def Callback.call (cb : Callback) (c : Call) : Op Unit :=
  .get fun w => .put { w with calls := w.calls ++ [c] } <|
    match cb c with
    | none => .ret ()
    | some n => .throw (.callback n)

namespace CarLog

def pos : Op ℕ := .get fun w => deref w.jb.dataPos

/-- Where the payload of an entry starts behind its offset: the length of
the length prefix, computed again from the packed length. -/
def lenlen (entLen : ℤ) : ℕ := (putUvarint (entLen % 2 ^ 64).toNat).length

/-- Make sure the file reaches up to `limit`; `dataAt` is how far it was
last known to reach, and the result how far it is now. -/
def reach (dataAt : ℕ) (limit : ℤ) : Op ℕ := do
  if limit ≤ dataAt then return dataAt
  else do
    let dataAt ← pos
    if limit ≤ dataAt then return dataAt
    else do
      wrapErr "flushing buffered data" flushBuffered
      let dataAt ← pos
      failIf (dataAt < limit) (.text "entry beyond range after flush")
      return dataAt

/-- The `n` bytes at `off` of the uploaded object. -/
def stagedReadAt (off n : ℕ) : Op Bytes := do
  ioRead
  .get fun w =>
    match w.staged with
    | none => .throw .notExist
    | some s =>
      if off + n ≤ s.data.length then .ret ((s.data.drop off).take n) else .throw .eof

/-- The payload of an entry, by its packed place, through `readAt`; a
negative length is a slice out of bounds. -/
def readEntry (readAt : ℕ → ℕ → Op Bytes) (loc : I64) : Op Bytes := do
  let (off, entLen) := fromOffsetLen loc
  if entLen < 0 then .fault .panic
  else do
    let ent ← wrapErr "reading entry" (readAt (off + lenlen entLen) entLen.toNat)
    match X.cidFromBytes ent with
    | none => .throw (.text "parsing cid")
    | some (n, _) => .ret (ent.drop n)

/-- One block of `View`; the result is how far the file is known to reach. -/
def viewAt (cb : Callback) (i : ℕ) (loc : I64) (dataAt : ℕ) : Op ℕ := .get fun w => do
  if loc = -1 then do
    cb.call ⟨i, false, []⟩
    return dataAt
  else do
    let lru ← deref w.jb.writeLru
    match lruGet lru loc with
    -- a recent write, which need not be in the file yet
    | some (v, lru) => do
      modifyJb fun j => { j with writeLru := some lru }
      cb.call ⟨i, true, v⟩
      return dataAt
    | none => do
      let (off, entLen) := fromOffsetLen loc
      -- the buffer is flushed if the entry is not in the file
      let dataAt ← reach dataAt (off + lenlen entLen + entLen)
      let data ← readEntry dataReadAt loc
      cb.call ⟨i, true, data⟩
      return dataAt

/-- The loop of `View`, from index `i` on. -/
def viewLocs (cb : Callback) : ℕ → List I64 → ℕ → Op Unit
  | _, [], _ => .ret ()
  | i, loc :: locs, dataAt => do
    let dataAt ← viewAt cb i loc dataAt
    viewLocs cb (i + 1) locs dataAt

/-- One block of `viewExternal`. -/
def viewStagedAt (cb : Callback) (i : ℕ) (loc : I64) : Op Unit :=
  if loc = -1 then cb.call ⟨i, false, []⟩
  else do
    let data ← readEntry stagedReadAt loc
    cb.call ⟨i, true, data⟩

/-- The loop of `viewExternal`. -/
def viewStaged (cb : Callback) : ℕ → List I64 → Op Unit
  | _, [] => .ret ()
  | i, loc :: locs => do
    viewStagedAt cb i loc
    viewStaged cb (i + 1) locs

/-- Behind the index lookup: the read is counted, and the lock let go. -/
def withPendingRead (m : Op Unit) : Op Unit := do
  addPendingRead
  rUnlockIdx
  m.andThen donePendingRead

def viewExternal (b : Bsst.BSST) (c : List Multihash) (cb : Callback) : Op Unit := do
  let locs ← attempt (BSSTIndex.get b c)
  withPendingRead do
    match locs with
    | .error e => .throw (.wrap "getting value locations" e)
    | .ok locs => .get fun w => do
      failIf (w.jb.staging = false) (.text "staging storage not set")
      viewStaged cb 0 locs

def view (c : List Multihash) (cb : Callback) : Op Unit := do
  rLockIdx
  .get fun w =>
    match w.jb.eIdx, w.jb.rIdx with
    -- an external log answers from the staging storage
    | some b, _ => viewExternal b c cb
    | none, none => do
      rUnlockIdx
      .throw (.text "cannot read from closing or offloaded carlog")
    | none, some idx => do
      let locs ← attempt (idx.get c)
      withPendingRead do
        match locs with
        | .error e => .throw (.wrap "getting value locations" e)
        | .ok locs => do
          let dataAt ← pos
          viewLocs cb 0 locs dataAt

/-! ## Walking the file -/

/-- What `iterate` hands to its callback. -/
structure LogEntry where
  off : ℕ
  length : ℕ
  cid : Cid
  data : Bytes

/-- The entries in the bytes behind offset `off`, and the error the walk
ends with. The first argument bounds their number. -/
def walk : ℕ → ℕ → Bytes → List LogEntry × Option Err
  | _, _, [] => ([], none)
  | 0, _, _ :: _ => ([], none)
  | fuel + 1, off, bs@(_ :: _) =>
    match readUvarint bs with
    | .error .eof => ([], some .unexpectedEOF)
    | .error .overflow => ([], some .varintOverflow)
    | .ok (entLen, rest) =>
      if maxAllowedSectionSize < entLen then ([], some (.text "malformed car"))
      else if rest.length < entLen then
        ([], some (.wrap "reading entry" (if rest = [] then .eof else .unexpectedEOF)))
      else
        match X.cidFromBytes (rest.take entLen) with
        | none => ([], some (.text "parsing cid"))
        | some (n, c) =>
          let r := walk fuel (off + frameSize entLen) (rest.drop entLen)
          (⟨off, entLen, c, (rest.take entLen).drop n⟩ :: r.1, r.2)

/-- Walk the file from `dataStart` to `dataEnd`; `b` is what the callback
keeps from call to call. What it writes lies behind `dataEnd`. -/
def iterate {β : Type} (dataEnd : ℕ) (cb : β → LogEntry → Op β) (b : β) : Op β := .get fun w =>
  if dataEnd ≤ w.jb.dataStart then .ret b
  else do
    let _ ← openData
    -- the reader ends at `dataEnd`, whatever is behind it
    let bs := ((blockLog w).drop w.jb.dataStart).take (dataEnd - w.jb.dataStart)
    let (ents, err) := walk bs.length w.jb.dataStart bs
    let b ← ents.foldlM (fun b e => do
      ioRead
      cb b e) b
    ioRead
    match err with
    | none => .ret b
    | some e => .throw e

end CarLog

end Carlog

end Ribs
