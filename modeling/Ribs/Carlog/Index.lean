import Ribs.Carlog.State
/-!
# Carlog — the indexes

A writable log has a LevelDB index; a finalized one has a BSST file. A
batch of `Put` is written without syncing, a batch of `Del` is synced.
-/

namespace Ribs

open Common

namespace Carlog

variable [X : External]

/-! ## LevelDB -/

/-- `OpenLevelDBIndex(path, true)`, of the index or of its repair. -/
def createLevel (get : Disk → Option (Journal Index))
    (set : Option (Journal Index) → Disk → Disk) : Op LevelDBIndex := do
  ioRead
  .get fun w =>
    if (get w.disk).isSome then .throw .exist
    else do
      ioWrite (set (some (.clean ∅)))
      return ⟨⟩

/-- `OpenLevelDBIndex(path, false)`. -/
def openLevel : Op LevelDBIndex := do
  ioRead
  .get fun w => if w.disk.levelIndex.isSome then .ret ⟨⟩ else .throw .notExist

def setLevel (x : Option (Journal Index)) (d : Disk) : Disk := { d with levelIndex := x }

def setLevelTemp (x : Option (Journal Index)) (d : Disk) : Disk := { d with levelTemp := x }

namespace LevelDBIndex

/-- The contents, read. -/
def contents : Op Index := do
  ioRead
  .get fun w =>
    match w.disk.levelIndex with
    | some j => .ret j.current
    | none => .throw .closed

def has (c : List Multihash) : Op (List Bool) := do
  let t ← contents
  return c.map fun m => t.contains m

/-- `-1` if not found. -/
def get (c : List Multihash) : Op (List I64) := do
  let t ← contents
  return c.map fun m => (t[m]?).getD (-1)

def entries : Op ℕ := do
  let t ← contents
  return t.size

/-- The keys in order, each with its offset. -/
def source (t : Index) : Bsst.Source := t.toList.map fun e => (e.1, [e.2])

def list : Op (Bsst.Source × Unit) := do
  let t ← contents
  return (source t, ())

/-- The multihashes at or above an offset. -/
def truncated (t : Index) (atOrAbove : ℕ) : List Multihash :=
  (t.toList.filter fun e => atOrAbove ≤ (fromOffsetLen e.2).1).map Prod.fst

def toTruncate (atOrAbove : ℕ) : Op (List Multihash) := do
  let t ← contents
  return truncated t atOrAbove

/-- A batch of entries; an offset of `-1` means skip. -/
def putBatch (t : Index) (es : List (Multihash × I64)) : Index :=
  es.foldl (fun t e => if e.2 = -1 then t else t.insert e.1 e.2) t

/-- `Put`, not synced. -/
def put (modifyLevel : (Journal Index → Journal Index) → Disk → Disk) (c : List Multihash)
    (offs : List I64) : Op Unit :=
  ioWrite (modifyLevel fun j => j.write (putBatch j.current (c.zip offs)))

def modifyLevel (f : Journal Index → Journal Index) (d : Disk) : Disk :=
  { d with levelIndex := d.levelIndex.map f }

def modifyLevelTemp (f : Journal Index → Journal Index) (d : Disk) : Disk :=
  { d with levelTemp := d.levelTemp.map f }

/-- `Del`, synced. -/
def del (c : List Multihash) : Op Unit :=
  ioWrite (modifyLevel fun j => (j.write (c.foldl (fun t m => t.erase m) j.current)).sync)

def close : Op Unit := ioRead

end LevelDBIndex

/-! ## BSST -/

/-- The two BSST files of a log. -/
inductive BsstPath where
  | index
  /-- `fil.bsst`, addressing the canonical CAR. -/
  | canon

namespace BsstPath

def get : BsstPath → Disk → Option Bytes
  | index, d => d.bsstIndex
  | canon, d => d.bsstIndexCanon

def set (x : Option Bytes) : BsstPath → Disk → Disk
  | index, d => { d with bsstIndex := x }
  | canon, d => { d with bsstIndexCanon := x }

end BsstPath

namespace BSSTIndex

/-- The outcome of a lookup. -/
def result {α : Type} : Except Bsst.LookupError α → Op α
  | .ok a => .ret a
  | .error .readBucket => .throw (.wrap "read bucket" .eof)
  | .error _ => .fault .panic

def has (b : Bsst.BSST) (c : List Multihash) : Op (List Bool) := do
  ioRead
  result (b.has c)

def get (b : Bsst.BSST) (c : List Multihash) : Op (List I64) := do
  ioRead
  result (b.get c)

def close : Op Unit := ioRead

end BSSTIndex

/-- `OpenBSSTIndex`. -/
def openBSST (path : BsstPath) : Op Bsst.BSST := do
  wrapErr "open file" ioRead
  .get fun w =>
    match path.get w.disk with
    | none => .throw (.wrap "open file" .notExist)
    | some f =>
      match Bsst.openFile f with
      | none => .throw (.text "read header")
      | some b => .ret b

def drawSalt : Op Digest := .get fun w => .put { w with drawn := w.drawn + 1 } (.ret (w.rand w.drawn))

/-- `CreateBSSTIndex`, from an index source: its count, and its list with
what else the source learns while it lists. -/
def createBSST {β : Type} (path : BsstPath) (entries : Op ℕ) (list : Op (Bsst.Source × β)) :
    Op (Bsst.BSST × β) := do
  let ents ← wrapErr "getting level index entries" entries
  wrapErr "bsst create" do
    wrapErr "open file" (ioWrite (path.set (some [])))
    -- a salt of its own for each file
    let salt ← drawSalt
    wrapErr "write header" (ioWrite (path.set (some Bsst.hdrBuf)))
    wrapErr "sync header" ioRead
    let (source, extra) ← wrapErr "write buckets" list
    match Bsst.buckets salt ents source with
    | .error _ => .fault .panic
    | .ok (out, levels) => do
      wrapErr "flush buckets" (ioWrite (path.set (some (Bsst.hdrBuf ++ out))))
      -- the buckets are durable before the header says that they are there
      wrapErr "sync buckets" ioRead
      wrapErr "marshal header"
        (ioWrite (path.set (some (Bsst.finalHdr (Bsst.header salt ents levels) ++ out))))
      wrapErr "sync header" ioRead
      wrapErr "close written bsst" ioRead
      let b ← wrapErr "reopen bsst" (openBSST path)
      return ({ b with createSample := Bsst.createSample source }, extra)

namespace ReadableIndex

def has : ReadableIndex → List Multihash → Op (List Bool)
  | level _, c => LevelDBIndex.has c
  | bsst b, c => BSSTIndex.has b c

def get : ReadableIndex → List Multihash → Op (List I64)
  | level _, c => LevelDBIndex.get c
  | bsst b, c => BSSTIndex.get b c

/-- `Entries`, which a BSST index does not support. -/
def entries : ReadableIndex → Op ℕ
  | level _ => LevelDBIndex.entries
  | bsst _ => .fault .panic

def list : ReadableIndex → Op (Bsst.Source × Unit)
  | level _ => LevelDBIndex.list
  | bsst _ => .fault .panic

def close : ReadableIndex → Op Unit
  | level _ => LevelDBIndex.close
  | bsst _ => BSSTIndex.close

end ReadableIndex

end Carlog

end Ribs
