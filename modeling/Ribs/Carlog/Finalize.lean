import Ribs.Carlog.TopTree
/-!
# Carlog — finalizing and offloading

A log that takes no more writes is finalized: in place, with a BSST index
of the log, or into the staging storage, with a BSST index of the
canonical CAR. A finalized log can be offloaded, and its data loaded
again. Locks are taken and released by hand along the return paths.
-/

namespace Ribs

open Common

namespace Carlog

variable [X : External]

/-- What `statReader` knows after a listing: how much was read, and
whether to the end. -/
structure StatRead where
  read : ℕ
  eof : Bool

namespace CarLog

/-! ## Saving and loading the sample -/

def saveMHList (list : List Multihash) : Op Unit := do
  ioWrite fun d => { d with hashSample := some [] }
  ioWrite fun d => { d with hashSample := some list.flatten }

def readMHList (data : Bytes) : Except Err (List Multihash) :=
  match h : X.readMultihash data with
  | .error _ => .error (.text "multihash")
  | .ok none => .ok []
  | .ok (some (m, rest)) =>
    have := X.readMultihash_lt data m rest h
    (readMHList rest).map fun l => m :: l
termination_by data.length

def loadMHList : Op (List Multihash) := do
  ioRead
  .get fun w =>
    match w.disk.hashSample with
    | none => .throw .notExist
    | some data =>
      match readMHList data with
      | .error e => .throw e
      | .ok l => .ret l

/-! ## The canonical index source -/

/-- The entries of a CAR stream behind its header, from offset `at_` on,
and whether the end was reached. A failed read ends the list. -/
def listEntries : ℕ → ℕ → Bytes → Except Err (Bsst.Source × Bool)
  | 0, _, _ => .ok ([], true)
  | fuel + 1, at_, bs =>
    match readFrame maxAllowedSectionSize bs with
    | .error .eof => .ok ([], true)
    -- also a stream that ends inside of an entry counts as read to its end
    | .error .unexpectedEOF => .ok ([], true)
    | .error _ => .ok ([], false)
    | .ok (d, rest) =>
      match X.cidFromBytes d with
      | none => .error (.text "decode block cid")
      | some (_, c) =>
        (listEntries fuel (at_ + frameSize d.length) rest).map fun r =>
          ((c.hash, [makeOffsetLen at_ d.length]) :: r.1, r.2)

/-- The source ended: its error, which the pipe hands to the reader, is
none, or is itself the end of a file. -/
def endsClean : Except Err Unit → Bool
  | .ok _ => true
  | .error e => e = .eof

/-- `carIdxSource.List`, of what a CAR source has written until it ended
with `r`. -/
def listStream (stream : Bytes) (r : Except Err Unit) : Except Err (Bsst.Source × StatRead) :=
  match readFrame maxAllowedSectionSize stream with
  | .error _ => .error (.text "read header")
  | .ok (hb, rest) =>
    match X.decodeHeader hb with
    | none => .error (.text "read header")
    | some (_, roots) =>
      (listEntries (rest.length + 1) (framed (X.encodeHeader roots)).length rest).map fun l =>
        (l.1, ⟨stream.length, l.2 && endsClean r⟩)

/-- `carIdxSource.List`, of a CAR source whose output is read while it is
written. -/
def listCar (carSource : Op Unit) : Op (Bsst.Source × StatRead) := do
  let (stream, r) ← captureOutput carSource
  match listStream stream r with
  | .error e => .throw e
  | .ok x => .ret x

/-- `staging.Upload`. -/
def upload (size : ℕ) (src : Op Unit) : Op Unit := do
  let (stream, r) ← captureOutput src
  match r with
  | .error e => .throw e
  | .ok _ => .step .io fun w => { w with staged := some ⟨size, stream⟩ }

/-- `WriteCar` as a CAR source. -/
def writeCarTo : Op Unit := do
  let _ ← writeCar
  return ()

/-! ## Finalization -/

/-- `MarkReadOnly`, with the index lock held. -/
def markReadOnlyLocked : Op Unit := .get fun w => do
  failIf (w.jb.wIdx.isNone) .errReadOnly
  let _ ← wrapErr "marking as read-only" (mutHead fun h => .ok { h with readOnly := true })
  modifyJb fun j => { j with wIdx := none }

def markReadOnly : Op Unit := do
  lockIdx
  markReadOnlyLocked.andThen unlockIdx

def dropLevel : Op Unit := .get fun w => do
  failIf (w.jb.wIdx.isSome) (.text "cannot drop level on read-write jbob")
  wrapErr "removing leveldb index" (ioWrite (setLevel none))

/-- `err = j.rIdx.Close()`, and the new index set before the error is
returned. -/
def swapIndex (set : CarLog → CarLog) : Op Unit := do
  let idx ← readableIndex
  let r ← attempt idx.close
  modifyJb set
  match r with
  | .error e => .throw e
  | .ok _ => wrapErr "drop level index" dropLevel

/-- The top tree is generated with the lock let go. -/
def genTopUnlocked : Op Unit := do
  unlockIdx
  let r ← attempt genTopCar
  lockIdx
  match r with
  | .error e => .throw (.wrap "generating top car" e)
  | .ok _ => .ret ()

/-- In place; `hasTop` when the top tree was generated before. -/
def finalizeLocal (hasTop : Bool) : Op Unit := do
  let idx ← readableIndex
  let (bss, _) ← wrapErr "creating bsst index" (createBSST .index idx.entries idx.list)
  wrapErr "saving hash sample" (saveMHList bss.createSample)
  -- reads go to the old index up to here
  lockIdx
  let marked : Op Unit := do
    let _ ← wrapErr "marking as finalized" (mutHead fun h => .ok { h with finalized := true })
    swapIndex fun j => { j with rIdx := some (.bsst bss) }
    runIf (hasTop = false) genTopUnlocked
  marked.andThen unlockIdx

/-- Into the staging storage. -/
def finalizeStaged (hasTop : Bool) : Op Unit := do
  runIf (hasTop = false) (wrapErr "generating top car" genTopCar)
  let idx ← readableIndex
  let ents ← wrapErr "getting ridx ent count" idx.entries
  let (bss, stat) ← wrapErr "write canonical bsst index"
    (createBSST .canon (.ret ents) (listCar writeCarTo))
  -- the index is of what was read, which must be all of the CAR
  failIf (stat.eof = false) (.text "didn't read whole file")
  wrapErr "saving hash sample" (saveMHList bss.createSample)
  wrapErr "send car to staging storage" (upload stat.read writeCarTo)
  lockIdx
  let marked : Op Unit := do
    let _ ← wrapErr "marking as finalized"
      (mutHead fun h => .ok { h with finalized := true, isExternal := true })
    swapIndex fun j => { j with eIdx := some bss, rIdx := none }
  marked.andThen unlockIdx

def finalize : Op Unit := do
  lockIdx
  .get fun w =>
    if w.jb.finalizing then do
      unlockIdx
      .throw (.text "already finalizing")
    else do
      modifyJb fun j => { j with finalizing := true }
      -- `finalizing` stays set when this returns an error
      if w.jb.wIdx.isSome then do
        unlockIdx
        .throw (.text "cannot finalize read-write jbob")
      else do
        let h ← onErr (wrapErr "checking if finalized" (mutHead fun h => .ok h)) unlockIdx
        -- a finalized log is left with the lock held
        if h.finalized then return ()
        else do
          unlockIdx
          if w.jb.staging then finalizeStaged (h.layerOffsets ≠ [])
          else finalizeLocal (h.layerOffsets ≠ [])

/-! ## Loading data -/

/-- Remove `fil.car`; an error is only logged. -/
def dropFilCar : Op Unit :=
  Prog.handle (ioWrite fun d => { d with filCar := none }) fun _ => .ret ()

/-- Copy the reader's bytes into `fil.car`; `n` of them were written. -/
def copyFilCar (car : Bytes) : Op ℕ :=
  .io (modifyDisk fun d => { d with filCar := some car })
    (fun n => modifyDisk fun d => { d with filCar := some (car.take n) })
    fun ok => if ok then .ret car.length else .throw .io

/-- `LoadData`, with the index lock held. -/
def loadDataLocked (car : Bytes) (sz : ℕ) : Op Unit := .get fun w => do
  failIf (w.jb.head.isSome) (.text "cannot load data into non-offloaded jbob")
  failIf (w.jb.staging = false) (.text "cannot load data without staging storage yet")
  wrapErr "opening data file" (ioWrite fun d => { d with filCar := some [] })
  let n ← attempt (copyFilCar car)
  let cerr ← attempt ioRead
  match n, cerr with
  | .error e, _ => do
    dropFilCar
    .throw (.wrap "writing car to data file" e)
  | .ok n, cerr =>
    -- fewer bytes than were announced: what was written is removed
    if n ≠ sz then do
      dropFilCar
      .throw (.text "expected to write")
    else
      match cerr with
      | .error e => .throw (.wrap "closing data file" e)
      | .ok _ => .ret ()

def loadData (car : Bytes) (sz : ℕ) : Op Unit := do
  lockIdx
  (loadDataLocked car sz).andThen unlockIdx

/-- `fil.car` up to `carSz` bytes, copied to a writer. -/
def copyCar (car : Bytes) (carSz : ℕ) : Op Unit := do
  ioRead
  writeOutput (car.take carSz)

/-- The head is open: the data was reloaded before, or never offloaded. -/
def checkReloaded : Op Unit := do
  let h ← wrapErr "getting head state" (mutHead fun h => .ok h)
  failIf (h.offloaded = true) (.text "carlog is offloaded AND somehow has head open")
  if h.isExternal ∧ h.finalized then do
    wrapErr "checking if staging has data" ioRead
    .get fun w => failIf (w.staged.isNone)
      (.text "staging doesn't have data, but the carlog does appear as if it went through FinDataReload")
  else .throw (.text "cannot load data into non-offloaded jbob")

/-- Open the head again, and mark the log as external. -/
def reopenHead : Op Unit := do
  let h ← openHead
  failIf (h.layerOffsets = []) (.text "no layer offsets")
  modifyJb fun j => { j with
    head := some true
    layerOffsets := h.layerOffsets
    dataStart := h.dataStart
    dataEnd := h.dataEnd }
  let _ ← wrapErr "marking as non-offloaded"
    -- the last step: a log that was not reloaded is still offloaded
    (mutHead fun h => .ok { h with isExternal := true, offloaded := false })
  return ()

/-- `fil.car`, opened. -/
def openFilCar : Op Bytes := do
  ioRead
  .get fun w =>
    match w.disk.filCar with
    | none => .throw .notExist
    | some car => .ret car

/-- `FinDataReload`, with the index lock held. -/
def finDataReloadLocked (blkEnts carSz : ℕ) : Op Unit := .get fun w => do
  failIf (w.jb.staging = false) (.text "cannot load data without staging storage yet")
  if w.jb.head.isSome then checkReloaded
  else do
    let car ← wrapErr "opening data file" openFilCar
    let (bss, stat) ← wrapErr "write canonical bsst index"
      (createBSST .canon (.ret blkEnts) (listCar (copyCar car carSz)))
    -- the index is set before the CAR is known to be whole
    modifyJb fun j => { j with eIdx := some bss }
    failIf (stat.eof = false) (.text "didn't read whole file")
    wrapErr "stat data file" ioRead
    wrapErr "seek to start" ioRead
    wrapErr "uploading car to staging" (upload car.length (copyCar car carSz))
    wrapErr "closing fil.car" ioRead
    wrapErr "removing fil.car" (ioWrite fun d => { d with filCar := none })
    reopenHead

def finDataReload (blkEnts carSz : ℕ) : Op Unit := do
  lockIdx
  (finDataReloadLocked blkEnts carSz).andThen unlockIdx

/-! ## Offloading -/

def hashSample : Op (List Multihash) := do
  lockReadState
  .get fun w => do
    -- this return leaves the lock held
    failIf (w.jb.layerOffsets = []) (.text "cannot read hash sample in a non-finalized car log")
    unlockReadState
    wrapErr "loading hash sample" loadMHList

/-- Close and remove the data file. -/
def offloadData : Op Unit := .get fun w => do
  runIf (w.jb.data.isSome) (wrapErr "closing data file" dataClose)
  modifyJb fun j => { j with data := none, dataPos := none, dataBuffered := none, writeLru := none }
  wrapErr "removing data file" (ioWrite fun d => { d with blockLog := none })

/-- Mark the head, and drop the index pointers. The index lock is held, and
is let go in any case. -/
def offloadIndexes : Op Unit := .get fun w => do
  onErr (failIf (w.jb.wIdx.isSome) (.text "group still writable")) unlockIdx
  onErr (failIf (w.jb.rIdx.isNone ∧ w.jb.eIdx.isNone) .errAlreadyOffloaded) unlockIdx
  let _ ← onErr (wrapErr "updating head to mark as offloaded"
    (mutHead fun h => .ok { h with offloaded := true })) unlockIdx
  runIf (w.jb.rIdx.isSome) do
    let idx ← readableIndex
    onErr (wrapErr "closing readable index" idx.close) unlockIdx
    modifyJb fun j => { j with rIdx := none }
  runIf (w.jb.eIdx.isSome) do
    onErr (wrapErr "closing external index" BSSTIndex.close) unlockIdx
    modifyJb fun j => { j with eIdx := none }
  unlockIdx

/-- `Offload` of a log with layers. -/
def offloadLayers : Op Unit := do
  lockIdx
  offloadIndexes
  -- reads that have begun may finish on the data file
  waitPendingReads
  offloadData
  wrapErr "removing bsst index" (ioWrite (BsstPath.index.set none))
  wrapErr "removing external bsst index" (ioWrite (BsstPath.canon.set none))
  wrapErr "closing head" headClose
  modifyJb fun j => { j with head := none }

def offload : Op Unit := do
  lockReadState
  .get fun w =>
    if w.jb.layerOffsets = [] then do
      unlockReadState
      .throw (.text "cannot offload in a non-finalized car log")
    else offloadLayers.andThen unlockReadState

/-- `OffloadData`, with the index lock held. -/
def offloadLocalDataLocked : Op Unit := .get fun w => do
  failIf (w.jb.eIdx.isNone ∨ w.jb.staging = false)
    (.text "cannot offload data in a non-external-index car log")
  waitPendingReads
  wrapErr "offload data" offloadData

/-- `OffloadData`. -/
def offloadLocalData : Op Unit := do
  lockIdx
  offloadLocalDataLocked.andThen unlockIdx

end CarLog

end Carlog

end Ribs
