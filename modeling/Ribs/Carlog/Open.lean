import Ribs.Carlog.Read
/-!
# Carlog — creating, opening and closing a log

`Open` takes up a log where a crash may have left it: an unfinished top
tree is cut off, and a writable log is truncated to the head's
`retiredAt`, in the index and then in the data file. `Close` clears the
index pointers before it commits.
-/

namespace Ribs

open Common

namespace Carlog

variable [X : External]

/-- `TruncCleanup`, a callback that may return an error. -/
abbrev TruncCleanup := ℕ → List Multihash → Option ℕ

namespace CarLog

def setJb (j : CarLog) : Op Unit := modifyJb fun _ => j

/-! ## Create -/

/-- `os.Mkdir`, and the head and the data file with `O_EXCL`. -/
def makeNew (taken : Disk → Bool) (f : Disk → Disk) : Op Unit := .get fun w => do
  ioRead
  failIf (taken w.disk = true) .exist
  ioWrite f

def create (staging : Bool) : Op Unit := do
  wrapErr "mkdir index path" <|
    makeNew (fun d => d.indexPath) fun d => { d with indexPath := true }
  wrapErr "opening head" <|
    makeNew (fun d => d.head.isSome) fun d => { d with head := some none }
  wrapErr "opening head" <|
    makeNew (fun d => d.blockLog.isSome) fun d => { d with blockLog := some (.clean []) }
  let header := carHeader placeholderCid
  wrapErr "writing placeholder header" <|
    ioWrite (writeBlockLog false fun bs => overwrite bs 0 header)
  wrapErr "sync new data file" <|
    ioWrite fun d => { d with blockLog := d.blockLog.map Journal.sync }
  -- the head gets its content behind the data file
  let at_ := header.length
  wrapErr "HEAD WRITE ERROR" <| writeHead
    { valid := true, retiredAt := at_, dataStart := at_, dataEnd := 0, readOnly := false,
      finalized := false, offloaded := false, isExternal := false, layerOffsets := [] }
  wrapErr "head sync" ioRead
  let idx ← wrapErr "creating leveldb index" (createLevel Disk.levelIndex setLevel)
  setJb { CarLog.zero with
    staging := staging
    head := some true
    data := some ⟨true, false, at_⟩
    dataPos := some at_
    dataBuffered := some ⟨[], none⟩
    dataLen := at_
    dataStart := at_
    wIdx := some idx
    rIdx := some (.level idx)
    writeLru := some [] }

/-! ## Open -/

/-- The head, off the head file. -/
def openHead : Op Head := do
  wrapErr "opening head" ioRead
  .get fun w =>
    match w.disk.head with
    | none => .throw (.wrap "opening head" .notExist)
    | some none => .throw (.wrap "HEAD READ ERROR" .eof)
    | some (some h) => do
      wrapErr "HEAD READ ERROR" ioRead
      return h

def openBlockLog : Op DataFile := do
  ioRead
  .get fun w => if w.disk.blockLog.isSome then .ret ⟨true, true, 0⟩ else .throw .notExist

/-- A batch of entries for the index that is built. -/
def putFixed (ents : List LogEntry) : Op Unit :=
  wrapErr "putting to index" <|
    LevelDBIndex.put LevelDBIndex.modifyLevelTemp (ents.map fun e => e.cid.hash)
      (ents.map fun e => makeOffsetLen e.off e.length)

/-- `fixLevelIndex`: rebuild the index from the retired part of the file,
in batches. -/
def fixLevelIndex (retiredAt : ℕ) : Op Unit := do
  let buf ← wrapErr "iterating over data" <| iterate retiredAt (fun buf e =>
    if 50000 ≤ (buf ++ [e]).length then do
      putFixed (buf ++ [e])
      return []
    else .ret (buf ++ [e])) []
  runIf (buf ≠ []) (putFixed buf)

/-- The missing index is built aside and moved into place. -/
def fixLevel (retiredAt : ℕ) : Op LevelDBIndex := do
  let _ ← wrapErr "creating (fixLevelIndex) leveldb index" (createLevel Disk.levelTemp setLevelTemp)
  wrapErr "fixing leveldb index" (fixLevelIndex retiredAt)
  wrapErr "closing temp level index" LevelDBIndex.close
  -- a crash between the two leaves no index
  wrapErr "removing old level index" (ioWrite (setLevel none))
  wrapErr "renaming temp level index"
    (ioWrite fun d => { d with levelIndex := d.levelTemp, levelTemp := none })
  wrapErr "opening fixed leveldb index" openLevel

/-- The index that the head calls for. -/
def openIndex (h : Head) : Op Unit := .get fun w =>
  if h.isExternal then do
    let idx ← wrapErr "opening bsst index" (openBSST .canon)
    failIf (w.jb.staging = false) (.text "carlog: External but staging storage not set")
    modifyJb fun j => { j with eIdx := some idx }
  else if h.finalized then do
    let idx ← wrapErr "opening bsst index" (openBSST .index)
    modifyJb fun j => { j with rIdx := some (.bsst idx) }
  else do
    let idx ← openLevel.handle fun e =>
      -- a missing index is rebuilt, a broken one is not
      if e = .notExist then fixLevel h.retiredAt else .throw (.wrap "opening leveldb index" e)
    modifyJb fun j => { j with
      rIdx := some (.level idx)
      wIdx := if h.readOnly then none else some idx }

/-- Take what lies at or above `offset` out of the index, and then out of
the data file. With nothing to take out of the index, the file stays. -/
def truncate (offset : ℕ) (onRemove : Option TruncCleanup) : Op Unit := .get fun w => do
  failIf (w.jb.wIdx.isNone) (.text "cannot truncate a read-only jbob")
  failIf (onRemove.isNone) (.text "onRemove callback is nil")
  let toTruncate ← wrapErr "getting multihashes to truncate" (LevelDBIndex.toTruncate offset)
  if toTruncate = [] then return ()
  else do
    match onRemove.bind fun f => f offset toTruncate with
    -- the callback goes first, so that nothing refers to what is cut off
    | some n => .throw (.wrap "truncate callback error" (.callback n))
    | none => do
      .modify fun w => { w with cleaned := w.cleaned ++ [toTruncate] }
      wrapErr "deleting multihashes from jbob index" (LevelDBIndex.del toTruncate)
      wrapErr "truncating data file" (dataTruncate offset)
      modifyJb fun j => { j with dataLen := offset }
      let _ ← wrapErr "updating head after truncate"
        (mutHead fun h => .ok { h with retiredAt := offset })
      return ()

/-- Cut off an unfinished top tree; the result is the length of the file. -/
def cutTopTree (h : Head) (dataLen : ℕ) : Op ℕ :=
  if 0 < h.dataEnd ∧ h.layerOffsets = [] then do
    wrapErr "truncate data file (cut unfinished top tree)" (dataTruncate h.dataEnd)
    let _ ← wrapErr "mutating head" (mutHead fun h => .ok { h with dataEnd := 0 })
    wrapErr "stat top-trunc data len" ioRead
    .get fun w => .ret (blockLog w).length
  else .ret dataLen

/-- Data ahead of the head: there was an unclean shutdown during a write.
A writable log is always checked. -/
def replay (h : Head) (dataLen : ℕ) (tc : Option TruncCleanup) : Op Unit := .get fun w =>
  if h.retiredAt < dataLen ∨ w.jb.wIdx.isSome then do
    failIf (h.readOnly = true)
      (.text "read only(!) data file is shorter than head says it should be")
    wrapErr "truncating jbob" (truncate h.retiredAt tc)
  else .ret ()

/-- Writes go on at `dataLen`. -/
def seekEnd : Op Unit := do
  wrapErr "seeking to data end" ioRead
  modifyJb fun j => { j with
    data := j.data.map fun f => { f with off := j.dataLen }
    dataPos := some j.dataLen
    dataBuffered := some ⟨[], none⟩ }

/-- `Open`, of a log whose data file is there. -/
def openWithData (staging : Bool) (h : Head) (f : DataFile) (tc : Option TruncCleanup) : Op Unit := do
  wrapErr "stat data len" ioRead
  .get fun w => do
    let dataLen := (blockLog w).length
    failIf (dataLen < h.retiredAt) (.text "data file is shorter than head says it should be")
    setJb { CarLog.zero with
      staging := staging
      head := some true
      data := some f
      dataLen := dataLen
      dataStart := h.dataStart
      dataEnd := h.dataEnd
      layerOffsets := h.layerOffsets
      writeLru := some [] }
    openIndex h
    let dataLen ← cutTopTree h dataLen
    replay h dataLen tc
    seekEnd

/-- `Open`, of an external log whose data file is gone. -/
def openNoData (staging : Bool) (h : Head) : Op Unit := do
  setJb { CarLog.zero with
    staging := staging
    head := some true
    dataStart := h.dataStart
    dataEnd := h.dataEnd
    layerOffsets := h.layerOffsets
    writeLru := some [] }
  openIndex h

/-- `Open`. -/
def openLog (staging : Bool) (tc : Option TruncCleanup) : Op Unit := do
  let h ← openHead
  if h.offloaded then do
    -- an offloaded log has neither data nor an index here
    wrapErr "close head" ioRead
    setJb { CarLog.zero with staging := staging, layerOffsets := h.layerOffsets }
  else do
    let file ← attempt openBlockLog
    match file with
    | .ok f => openWithData staging h f tc
    | .error e =>
      if e = .notExist ∧ h.isExternal then openNoData staging h
      else .throw (.wrap "opening data" e)

/-! ## Close -/

/-- `Close` of a log without a local index: closed already, offloaded or
external. -/
def closeRest (j : CarLog) : Op Unit := do
  runIf (j.data.isSome) do
    let _ ← wrapErr "committing head" commit
    wrapErr "closing data" dataClose
  runIf (j.head.isSome) (wrapErr "closing head" headClose)
  runIf (j.eIdx.isSome) (wrapErr "closing e index" BSSTIndex.close)

def close : Op Unit := do
  -- the indexes are out of reach before pending reads are waited for
  lockIdx
  .get fun w => do
    modifyJb fun j => { j with rIdx := none, wIdx := none }
    unlockIdx
    waitPendingReads
    match w.jb.rIdx with
    | none => closeRest w.jb
    | some ri => do
      let _ ← wrapErr "committing head" commit
      wrapErr "closing data" dataClose
      wrapErr "closing head" headClose
      wrapErr "closing index" ri.close

end CarLog

end Carlog

end Ribs
