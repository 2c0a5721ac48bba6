import Ribs.Carlog.Open
import Ribs.Common.Chunks
/-!
# Carlog — the top tree, and the canonical CAR

`genTopCar` appends the layers of the top tree behind the entries of the
log, each a list of blocks linking up to `arity` blocks of the layer
below, until one block is left, and makes it the root of the file's
header. `WriteCar` reads the layers with one reader each and writes the
tree out depth first.
-/

namespace Ribs

open Common

namespace Carlog

variable [X : External]

namespace CarLog

/-! ## Generation -/

/-- Append a block of links; `nextLinks` are the links to its layer. -/
def writeLinkBlock (nextLinks links : List Cid) : Op (List Cid) := do
  let data := X.encodeLinks links
  let n ← wrapErr "writing block" (ldWrite [(nodeCid data).bytes, data])
  modifyJb fun j => { j with dataLen := j.dataLen + n }
  return nextLinks ++ [nodeCid data]

/-- The callback over the bottom layer: a block for every `arity` entries.
It keeps the links of the block being filled, and those to the layer. -/
def collectLink (links : List Cid × List Cid) (e : LogEntry) : Op (List Cid × List Cid) :=
  if (links.1 ++ [e.cid]).length = arity then do
    let nextLinks ← wrapErr "writing link block" (writeLinkBlock links.2 (links.1 ++ [e.cid]))
    return ([], nextLinks)
  else .ret (links.1 ++ [e.cid], links.2)

/-- The block that is not full. -/
def finishLayer (links : List Cid × List Cid) : Op (List Cid) :=
  if links.1 = [] then .ret links.2
  else wrapErr "writing link block" (writeLinkBlock links.2 links.1)

/-- `for len(nextLinks) > 1`: a layer for every round; `layerOffsets` are
the layers so far. There are fewer rounds than links. -/
def genLayers : ℕ → List Cid → List ℕ → Op (List Cid × List ℕ)
  | 0, nextLinks, layerOffsets => .ret (nextLinks, layerOffsets)
  | fuel + 1, nextLinks, layerOffsets => .get fun w =>
    if 1 < nextLinks.length then do
      let next ← (chunks arity nextLinks).foldlM
        (fun next links => wrapErr "writing link block" (writeLinkBlock next links)) []
      genLayers fuel next (layerOffsets ++ [w.jb.dataLen])
    else .ret (nextLinks, layerOffsets)

/-- Put the root into the file's header; the result is the length of the
header. -/
def updateHeader (root : Cid) : Op ℕ := do
  let headerBuf ← wrapErr "reading data car header" (dataReadAt 0 128)
  match readUvarint headerBuf with
  | .error _ => .throw (.text "reading data car header invalid length")
  | .ok (hlen, rest) => do
    let n := headerBuf.length - rest.length
    if rest.length < hlen then .fault .panic
    else
      match X.decodeHeader (rest.take hlen) with
      | none => .throw (.text "invalid header")
      | some (version, roots) => do
        failIf (version ≠ 1) (.text "invalid header version")
        failIf (roots.length ≠ 1) (.text "expected 1 root")
        let headerBytes := X.encodeHeader [root]
        failIf (headerBytes.length ≠ hlen) (.text "invalid header length")
        wrapErr "writing updated header" (dataWriteAt (headerBuf.take n ++ headerBytes) 0)
        wrapErr "sync data with final header" dataSync
        return n + hlen

/-- The state a top tree can be started, or started again, from. -/
def checkResume (j : CarLog) : Op Unit :=
  runIf (j.dataEnd ≠ 0) do
    failIf (j.layerOffsets ≠ []) (.text "cannot generate top car - already generated, have layers")
    failIf (j.dataLen ≠ j.dataEnd) (.text "cannot generate top car - data length mismatch")
    let pos ← deref j.dataPos
    failIf (pos ≠ j.dataEnd) (.text "cannot generate top car - data position mismatch")

def genTopCar : Op Unit := .get fun w => do
  failIf (w.jb.wIdx.isSome) (.text "cannot generate top car on writable carlog")
  wrapErr "flushing buffered data" flushBuffered
  wrapErr "sync data" dataSync
  .get fun w => do
    checkResume w.jb
    -- the end of the bottom layer, in memory and in the head
    let dataEnd := w.jb.dataLen
    modifyJb fun j => { j with dataEnd := dataEnd }
    let _ ← wrapErr "updating head, setting data end"
      (mutHead fun h => .ok { h with dataEnd := dataEnd })
    -- the first layer links to the blocks, `arity` to a node
    let links ← wrapErr "iterate jbob" (iterate dataEnd collectLink ([], []))
    let nextLinks ← finishLayer links
    let (nextLinks, layerOffsets) ← genLayers nextLinks.length nextLinks [0, dataEnd]
    match nextLinks with
    | [root] => do
      wrapErr "flushing buffered data" flushBuffered
      wrapErr "sync data" dataSync
      let first ← updateHeader root
      let layerOffsets := layerOffsets.set 0 first
      -- a `WriteCar` waits until the head has the layers as well
      lockReadState
      modifyJb fun j => { j with layerOffsets := layerOffsets }
      .get fun w => do
        let r ← attempt (mutHead fun h => .ok
          { h with layerOffsets := layerOffsets, dataEnd := dataEnd, retiredAt := w.jb.dataLen })
        unlockReadState
        match r with
        | .ok _ => .ret ()
        | .error e => .throw e
    | _ => .throw (.text "expected 1 link to top layer")

/-! ## Output -/

/-- Write `p` to the writer of a `WriteCar`. -/
def writeOutput (p : Bytes) : Op Unit :=
  .io (fun w => { w with out := w.out ++ p }) (fun n w => { w with out := w.out ++ p.take n })
    fun ok => if ok then .ret () else .throw .io

/-- `carutil.ReadNode`, from offset `off` of the data file: the CID, the
data, and where the next node starts. -/
def readNode (off : ℕ) : Op (Cid × Bytes × ℕ) := do
  let _ ← openData
  ioRead
  .get fun w =>
    match readFrame maxAllowedSectionSize ((blockLog w).drop off) with
    | .error .eof => .throw .eof
    | .error .unexpectedEOF => .throw .unexpectedEOF
    | .error .overflow => .throw .varintOverflow
    | .error .tooLarge => .throw (.text "malformed car; header is bigger than util.MaxAllowedSectionSize")
    | .ok (d, _) =>
      match X.cidFromBytes d with
      | none => .throw (.text "cid")
      | some (n, c) => .ret (c, d.drop n, off + frameSize d.length)

/-- The readers of the layers, and the bytes written. -/
structure CarWriter where
  layers : List ℕ
  size : ℕ

/-- Write one block. -/
def writeBlock (s : CarWriter) (c : Cid) (data : Bytes) : Op CarWriter := do
  let p := framed (c.bytes ++ data)
  writeOutput p
  return { s with size := s.size + p.length }

/-- The links of a node, when it is not a leaf. -/
def nodeLinks (c : Cid) (data : Bytes) : Op (List Cid) :=
  if c.codec = raw then .ret []
  else
    match X.decodeLinks data with
    | none => .throw (.text "decoding layer links")
    | some links => .ret links

/-- Write the node and, read off the layers below, what it links to. -/
def writeNode : ℕ → CarWriter → Cid → Bytes → Op CarWriter
  | 0, s, c, data => do
    let s ← wrapErr "writing node" (writeBlock s c data)
    let links ← nodeLinks c data
    -- below the bottom layer there is no reader
    if links = [] then return s else .fault .panic
  | atLayer + 1, s, c, data => do
    let s ← wrapErr "writing node" (writeBlock s c data)
    let links ← nodeLinks c data
    links.foldlM (fun s ci => do
      let off ← deref s.layers[atLayer]?
      let (c, data, next) ← wrapErr "reading node" (readNode off)
      -- the layers hold their nodes in the order of the links above
      failIf (c ≠ ci) (.text "expected cid")
      writeNode atLayer { s with layers := s.layers.set atLayer next } c data) s

/-- `WriteCar`: the size of the CAR, and its root. -/
def writeCar : Op (ℕ × Cid) := do
  lockReadState
  .get fun w =>
    if w.jb.layerOffsets = [] then do
      unlockReadState
      .throw (.text "no layers, finalize first")
    else do
      unlockReadState
      let layers := w.jb.layerOffsets
      let (rcid, node, _) ← wrapErr "reading root block" (readNode (layers.getLast?.getD 0))
      let header := carHeader rcid
      wrapErr "write car header" (writeOutput header)
      let s ← wrapErr "writing canonical tree"
        (writeNode (layers.length - 1) ⟨layers, header.length⟩ rcid node)
      return (s.size, rcid)

/-- Run `m` with a new writer: what the writer got, and the outcome. -/
def captureOutput {α : Type} (m : Op α) : Op (Bytes × Except Err α) := do
  .modify fun w => { w with out := [] }
  let r ← attempt m
  .get fun w => .ret (w.out, r)

end CarLog

end Carlog

end Ribs
