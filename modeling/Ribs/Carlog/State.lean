import Ribs.Carlog.Format
import Ribs.Common.Journal
import Ribs.Common.Prog
/-!
# Carlog — the world of a log

What a log's operations read and change: the files below its two
directories, the object in the staging storage, and the `CarLog` in
memory. Of each file the state says what a crash can leave of it. A step
of input and output may fail; files opened with `O_SYNC` are durable as
soon as they are written.
-/

namespace Ribs

open Common

namespace Carlog

/-- The contents of the LevelDB index. -/
abbrev Index := Std.TreeMap Multihash I64

/-- The files of a log. -/
structure Disk where
  /-- The index directory exists. -/
  indexPath : Bool
  /-- The head file, written with `O_SYNC`; its content once it is whole. -/
  head : Option (Option Head)
  blockLog : Option (Journal Bytes)
  levelIndex : Option (Journal Index)
  /-- `index.level.temp`, of a repair. -/
  levelTemp : Option (Journal Index)
  bsstIndex : Option Bytes
  bsstIndexCanon : Option Bytes
  hashSample : Option Bytes
  filCar : Option Bytes

def Disk.empty : Disk := ⟨false, none, none, none, none, none, none, none, none⟩

/-- The uploaded object, with the size that was announced for it. -/
structure Staged where
  size : ℕ
  data : Bytes

/-- An open or closed data file, and its offset. -/
structure DataFile where
  isOpen : Bool
  /-- Opened with `O_SYNC`. -/
  osync : Bool
  off : ℕ
deriving DecidableEq

/-- `bufio.Writer`, with the error that stops it. -/
structure BufWriter where
  buf : Bytes
  err : Option Err
deriving DecidableEq

/-- The handle of the LevelDB index. -/
structure LevelDBIndex where

/-- `ReadableIndex`. -/
inductive ReadableIndex where
  | level (idx : LevelDBIndex)
  | bsst (b : Bsst.BSST)

/-- `sync.RWMutex`. -/
structure RWMutex where
  writer : Bool
  readers : ℕ
deriving DecidableEq

/-- **The log in memory.** -/
structure CarLog where
  /-- The storage of staged logs is configured. -/
  staging : Bool
  /-- The head file, and whether it is open. -/
  head : Option Bool
  data : Option DataFile
  /-- The position of `appendCounter`. -/
  dataPos : Option ℕ
  dataBuffered : Option BufWriter
  dataLen : ℕ
  /-- The length of the CAR header. -/
  dataStart : ℕ
  /-- Byte offset of the end of the last layer. -/
  dataEnd : ℕ
  layerOffsets : List ℕ
  idxLk : RWMutex
  wIdx : Option LevelDBIndex
  rIdx : Option ReadableIndex
  eIdx : Option Bsst.BSST
  /-- The latest writes by packed offset, the last used first. -/
  writeLru : Option (List (I64 × Bytes))
  readStateLk : Bool
  pendingReads : ℕ
  finalizing : Bool

/-- A log that is not open. -/
def CarLog.zero : CarLog where
  staging := false
  head := none
  data := none
  dataPos := none
  dataBuffered := none
  dataLen := 0
  dataStart := 0
  dataEnd := 0
  layerOffsets := []
  idxLk := ⟨false, 0⟩
  wIdx := none
  rIdx := none
  eIdx := none
  writeLru := none
  readStateLk := false
  pendingReads := 0
  finalizing := false

/-- A call of a `View` callback. -/
structure Call where
  cidx : ℕ
  found : Bool
  data : Bytes
deriving DecidableEq

/-- **The world**: files, staging storage and memory, the calls of the
callbacks so far, and the random numbers that salts are drawn from. -/
structure World where
  disk : Disk
  staged : Option Staged
  jb : CarLog
  calls : List Call
  /-- What the callback of `Open` was told to clean up, and has. -/
  cleaned : List (List Multihash)
  /-- What the writer of a `WriteCar` got. -/
  out : Bytes
  rand : ℕ → Digest
  drawn : ℕ

/-- Nothing is there. -/
def World.empty : World where
  disk := .empty
  staged := none
  jb := .zero
  calls := []
  cleaned := []
  out := []
  rand := fun _ => ⟨List.replicate 32 0, Bsst.length_zeroDigest⟩
  drawn := 0

abbrev Op := Prog World Err

/-! ## Memory, locks and steps -/

def modifyJb (f : CarLog → CarLog) : Op Unit := .modify fun w => { w with jb := f w.jb }

def modifyDisk (f : Disk → Disk) (w : World) : World := { w with disk := f w.disk }

/-- `return err` when the condition holds. -/
def failIf (c : Prop) [Decidable c] (e : Err) : Op Unit := if c then .throw e else .ret ()

/-- `m`, when the condition holds. -/
def runIf (c : Prop) [Decidable c] (m : Op Unit) : Op Unit := if c then m else .ret ()

/-- Run `c` before an error of `m` is returned. -/
def onErr {α : Type} (m : Op α) (c : Op Unit) : Op α :=
  m.handle fun e => c.bind fun _ => .throw e

/-- The result or the error of `m`, to go on with either. -/
def attempt {α : Type} (m : Op α) : Op (Except Err α) :=
  .handle (m.bind fun a => .ret (.ok a)) fun e => .ret (.error e)

/-- A nil dereference when there is nothing. -/
def deref {α : Type} : Option α → Op α
  | some a => .ret a
  | none => .fault .panic

/-- `xerrors.Errorf("...: %w", err)`. -/
def wrapErr {α : Type} (s : String) (m : Op α) : Op α := m.handle fun e => .throw (.wrap s e)

/-- A read that may fail. -/
def ioRead : Op Unit := .step .io id

def ioWrite (f : Disk → Disk) : Op Unit := .step .io (modifyDisk f)

namespace CarLog

def lockIdx : Op Unit := .get fun w =>
  if w.jb.idxLk = ⟨false, 0⟩ then modifyJb fun j => { j with idxLk := ⟨true, 0⟩ }
  else .fault .blocked

def unlockIdx : Op Unit := .get fun w =>
  if w.jb.idxLk.writer then modifyJb fun j => { j with idxLk := ⟨false, 0⟩ }
  else .fault .badUnlock

def rLockIdx : Op Unit := .get fun w =>
  if w.jb.idxLk.writer then .fault .blocked
  else modifyJb fun j => { j with idxLk := ⟨false, j.idxLk.readers + 1⟩ }

def rUnlockIdx : Op Unit := .get fun w =>
  if w.jb.idxLk.readers = 0 then .fault .badUnlock
  else modifyJb fun j => { j with idxLk := { j.idxLk with readers := j.idxLk.readers - 1 } }

def lockReadState : Op Unit := .get fun w =>
  if w.jb.readStateLk then .fault .blocked
  else modifyJb fun j => { j with readStateLk := true }

def unlockReadState : Op Unit := .get fun w =>
  if w.jb.readStateLk then modifyJb fun j => { j with readStateLk := false }
  else .fault .badUnlock

def addPendingRead : Op Unit := modifyJb fun j => { j with pendingReads := j.pendingReads + 1 }

def donePendingRead : Op Unit := modifyJb fun j => { j with pendingReads := j.pendingReads - 1 }

def waitPendingReads : Op Unit := .get fun w =>
  if w.jb.pendingReads = 0 then .ret () else .fault .blocked

/-! ## The data file -/

/-- `bs` with `p` written at `off`; a gap reads as zeros. -/
def overwrite (bs : Bytes) (off : ℕ) (p : Bytes) : Bytes :=
  bs.take off ++ List.replicate (off - bs.length) 0 ++ p ++ bs.drop (off + p.length)

/-- The open data file, or the error of using it. -/
def openData : Op DataFile := .get fun w =>
  match w.jb.data with
  | none => .throw .invalid
  | some f => if f.isOpen then .ret f else .throw .closed

/-- The bytes of the block log. -/
def blockLog (w : World) : Bytes := (w.disk.blockLog.map Journal.current).getD []

/-- Give the block log new contents, through a file opened with `O_SYNC`
or not. -/
def writeBlockLog (osync : Bool) (f : Bytes → Bytes) (d : Disk) : Disk :=
  { d with blockLog := d.blockLog.map fun j =>
      let j := j.write (f j.current)
      if osync then j.sync else j }

/-- `appendCounter.Write`: at the file's offset, and counted. -/
def appendFile (p : Bytes) (w : World) : World :=
  match w.jb.data with
  | none => w
  | some f =>
    { w with
      disk := writeBlockLog f.osync (fun bs => overwrite bs f.off p) w.disk
      jb := { w.jb with
        data := some { f with off := f.off + p.length }
        dataPos := w.jb.dataPos.map (· + p.length) } }

def setBuffered (b : BufWriter) (w : World) : World :=
  { w with jb := { w.jb with dataBuffered := some b } }

/-- Write `p` through, and what is then in the buffer: nothing, or `keep n`
after an error behind `n` bytes. -/
def writeOut (p : Bytes) (keep : ℕ → Bytes) : Op Unit := .get fun w =>
  if (w.jb.data.map DataFile.isOpen).getD false then
    .io (fun w => setBuffered ⟨[], none⟩ (appendFile p w))
      (fun n w => setBuffered ⟨keep n, some .io⟩ (appendFile (p.take n) w))
      fun ok => if ok then .ret () else .throw .io
  else .put (setBuffered ⟨keep 0, some .closed⟩ w) (.throw .closed)

/-- `bufio.Writer.Flush`. -/
def flush : Op Unit := .get fun w =>
  match w.jb.dataBuffered with
  | none => .fault .panic
  | some ⟨_, some e⟩ => .throw e
  | some ⟨buf, none⟩ => if buf = [] then .ret () else writeOut buf fun n => buf.drop n

/-- `bufio.Writer.Write`: what does not fit fills the buffer and flushes
it, and what is larger than the empty buffer is written through. -/
def bufWrite (p : Bytes) : Op Unit := .get fun w =>
  match w.jb.dataBuffered with
  | none => .fault .panic
  | some ⟨_, some e⟩ => .throw e
  | some ⟨buf, none⟩ =>
    let available := jbobBufSize - buf.length
    if p.length ≤ available then .modify (setBuffered ⟨buf ++ p, none⟩)
    else if buf = [] then writeOut p fun _ => []
    else do
      .modify (setBuffered ⟨buf ++ p.take available, none⟩)
      flush
      if (p.drop available).length ≤ jbobBufSize then
        .modify (setBuffered ⟨p.drop available, none⟩)
      else writeOut (p.drop available) fun _ => []

/-- `data.ReadAt`: the `n` bytes at `off`, or an error past the end. -/
def dataReadAt (off n : ℕ) : Op Bytes := do
  let _ ← openData
  ioRead
  .get fun w =>
    if off + n ≤ (blockLog w).length then .ret (((blockLog w).drop off).take n) else .throw .eof

def dataWriteAt (p : Bytes) (off : ℕ) : Op Unit := do
  let f ← openData
  .io (modifyDisk (writeBlockLog f.osync fun bs => overwrite bs off p))
    (fun n => modifyDisk (writeBlockLog f.osync fun bs => overwrite bs off (p.take n)))
    fun ok => if ok then .ret () else .throw .io

/-- Not a write: `O_SYNC` does not make it durable. -/
def dataTruncate (n : ℕ) : Op Unit := do
  let _ ← openData
  ioWrite (writeBlockLog false fun bs => bs.take n ++ List.replicate (n - bs.length) 0)

def dataSync : Op Unit := do
  let _ ← openData
  ioWrite fun d => { d with blockLog := d.blockLog.map Journal.sync }

def dataClose : Op Unit := do
  let f ← openData
  .step .io fun w => { w with jb := { w.jb with data := some { f with isOpen := false } } }

/-! ## The head -/

/-- The head, read from the open head file. -/
def readHead : Op Head := .get fun w =>
  match w.jb.head with
  | none => .throw .invalid
  | some false => .throw .closed
  | some true => do
    ioRead
    match w.disk.head with
    | some (some h) => .ret h
    | _ => .throw .eof

/-- Write the whole head. A write that fails on the way leaves no head. -/
def writeHead (h : Head) : Op Unit :=
  .io (modifyDisk fun d => { d with head := some (some h) })
    (fun n => modifyDisk fun d => if n = 0 then d else { d with head := some none })
    fun ok => if ok then .ret () else .throw .io

/-- The result is the head that was read, for the callers whose closure
looks at it. -/
def mutHead (change : Head → Except Err Head) : Op Head := do
  let h ← wrapErr "read head" readHead
  failIf (h.valid = false) (.text "stored head invalid")
  match change h with
  | .error e => .throw e
  | .ok h' => do
    wrapErr "HEAD WRITE ERROR" (writeHead h')
    wrapErr "head sync" ioRead
    return h

def headClose : Op Unit := .get fun w =>
  match w.jb.head with
  | none => .throw .invalid
  | some false => .throw .closed
  | some true => .step .io fun w => { w with jb := { w.jb with head := some false } }

end CarLog

end Carlog

end Ribs
