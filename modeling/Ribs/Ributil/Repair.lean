import Ribs.Carlog.Format
import Ribs.Common.Prog
/-!
# Ributil — repairing a CAR

`RepairCarLog` reads a canonical CAR whose bytes may be damaged, and hands
out the CAR as it was. It knows which CID comes next, from the links of
the nodes before it, finds where the entry's length ends by the CID behind
it, and asks for the block when what it reads is not the block of the CID.
-/

namespace Ribs

open Common

namespace Ributil

export Carlog (Cid Multihash)

open Carlog (External maxAllowedSectionSize dagCBOR)

inductive Err where
  | eof
  | text (s : String)
  /-- Of the callback. -/
  | callback
  | wrap (s : String) (e : Err)
deriving DecidableEq

def minReadDecision : ℕ := 100

def maxCorruptPct : ℕ := 10

/-! ## The reader -/

/-- **A repair reader.** -/
structure RepairCarLog where
  /-- What is left of the source. -/
  source : Bytes
  /-- The CIDs that are expected, the top layer first. -/
  expectCidStack : List (List Cid)
  readBuf : Bytes
  totalRead : ℕ
  bad : ℕ
  /-- Of the `Read` under way. -/
  wasCorrupt : Bool
  /-- The calls of `repairBlock` so far. -/
  repairs : ℕ

/-- What the package takes from outside: hash functions, and the callback
that repairs blocks, which may answer differently from call to call. -/
structure Blocks where
  /-- `c.Prefix().Sum(data)`. -/
  sum : Cid → Bytes → Option Cid
  repairBlock : ℕ → Cid → Option Bytes → Option Bytes

abbrev Op := Prog RepairCarLog Err

def failIf (c : Prop) [Decidable c] (e : Err) : Op Unit := if c then .throw e else .ret ()

def wrapErr {α : Type} (s : String) (m : Op α) : Op α := m.handle fun e => .throw (.wrap s e)

/-- `b[:n]`. -/
def sliceTo (n : ℕ) (b : Bytes) : Op Bytes := if b.length < n then .fault .panic else .ret (b.take n)

/-- `b[n:]`. -/
def sliceFrom (n : ℕ) (b : Bytes) : Op Bytes :=
  if b.length < n then .fault .panic else .ret (b.drop n)

@[simp] theorem sliceTo_of_le {n : ℕ} {b : Bytes} (h : n ≤ b.length) :
    sliceTo n b = .ret (b.take n) := if_neg (Nat.not_lt.mpr h)

@[simp] theorem sliceFrom_of_le {n : ℕ} {b : Bytes} (h : n ≤ b.length) :
    sliceFrom n b = .ret (b.drop n) := if_neg (Nat.not_lt.mpr h)

/-! ## Finding the CID -/

/-- `bits.OnesCount8`. -/
def onesCount8 (b : UInt8) : ℕ := (List.range 8).countP fun i => b.toNat.testBit i

/-- The bits that agree. -/
def overlap (patt b : Bytes) : ℕ := (List.zipWith (fun p b => 8 - onesCount8 (p ^^^ b)) patt b).sum

/-- `b32overlap`, which indexes `b` as far as the pattern goes. -/
def b32overlap (patt b : Bytes) : Op ℕ :=
  if b.length < patt.length then .fault .panic else .ret (overlap patt b)

/-- The loop of `match32Bytes`, with the best offset so far. -/
def matchLoop (pattern buf : Bytes) : List ℕ → ℕ × ℕ → Op (ℕ × ℕ)
  | [], best => .ret best
  | i :: offs, best => do
    let overlap ← b32overlap pattern (← sliceFrom i buf)
    if overlap = 32 * 8 then .ret (i, 256)
    else matchLoop pattern buf offs (if best.2 < overlap then (i, overlap) else best)

/-- A round in range. -/
theorem matchLoop_cons {pattern buf : Bytes} {i : ℕ} {offs : List ℕ} {best : ℕ × ℕ}
    (h : i + pattern.length ≤ buf.length) : matchLoop pattern buf (i :: offs) best =
      if overlap pattern (buf.drop i) = 32 * 8 then .ret (i, 256)
      else matchLoop pattern buf offs (if best.2 < overlap pattern (buf.drop i) then
        (i, overlap pattern (buf.drop i)) else best) := by
  have hlen : ¬ (buf.drop i).length < pattern.length := by
    rw [List.length_drop]
    omega
  rw [matchLoop, sliceFrom_of_le (by omega)]
  change (b32overlap pattern (buf.drop i) >>= _) = _
  rw [b32overlap, if_neg hlen]
  rfl

/-- `match32Bytes`: the offset, and how many bits agree there. -/
def match32Bytes (pattern buf : Bytes) : Op (ℕ × ℕ) :=
  if pattern.length ≠ 32 then .throw (.text "pattern must be 32 bytes")
  else if buf.length < 4 + 32 then .throw (.text "buf must be at least 36 bytes")
  else matchLoop pattern buf [0, 1, 2, 3] (0, 0)

/-! ## Reading -/

namespace RepairCarLog

/-- `bufio.Reader.Peek`. -/
def peek (n : ℕ) : Op Bytes := .get fun r =>
  if r.source.length < n then .throw .eof else .ret (r.source.take n)

/-- `bufio.Reader.Discard`. -/
def discard (n : ℕ) : Op Unit := .get fun r =>
  if r.source.length < n then .put { r with source := [] } (.throw .eof)
  else .put { r with source := r.source.drop n } (.ret ())

/-- The next CID that is expected is taken off the stack. -/
def popCid : Op Cid := .get fun r =>
  match r.expectCidStack with
  | [] => .throw .eof
  | [] :: _ => .fault .panic
  | [c] :: rest => .put { r with expectCidStack := rest } (.ret c)
  | (c :: c' :: layer) :: rest => .put { r with expectCidStack := (c' :: layer) :: rest } (.ret c)

def setCorrupt : Op Unit := .modify fun r => { r with wasCorrupt := true }

variable (B : Blocks)

/-- The callback is asked for the block. -/
def repairBlock (c : Cid) (bad : Option Bytes) : Op Bytes := .get fun r =>
  .put { r with repairs := r.repairs + 1 } <|
    match B.repairBlock r.repairs c bad with
    | none => .throw (.wrap "repair block" .callback)
    | some goodData => .ret goodData

/-- The entry is made anew. -/
def remake (c : Cid) : Op Bytes := do
  setCorrupt
  let goodData ← repairBlock B c none
  return c.bytes ++ goodData

/-- The entry behind the length, as the length has it; `varint` are the
bytes of the length. -/
def readEntry (c : Cid) (varint : Bytes) : Op Bytes :=
  match readUvarint varint with
  | .error _ => remake B c
  | .ok (vEntLen, _) =>
    -- a length that cannot be: the entry is made from the repair blocks
    if maxAllowedSectionSize < vEntLen then remake B c
    else (peek vEntLen).handle fun _ => remake B c

/-- An entry that is too short for the CID is made anew. -/
def lengthen (c : Cid) (ent : Bytes) : Op Bytes :=
  if ent.length < c.bytes.length then remake B c else .ret ent

omit B in
/-- The CID is put right. This is a copy here: in the source it is
discarded with the entry. -/
def fixCid (c : Cid) (ent : Bytes) : Op Bytes := do
  let cidBytes ← sliceTo c.bytes.length ent
  if cidBytes ≠ c.bytes then do
    setCorrupt
    return c.bytes ++ ent.drop c.bytes.length
  else .ret ent

/-- The data is put right, when it is not what the CID says. -/
def fixData (c : Cid) (ent : Bytes) : Op Bytes := do
  let data ← sliceFrom c.bytes.length ent
  match B.sum c data with
  | none => .throw (.text "hash data")
  | some hash =>
    if hash ≠ c then do
      setCorrupt
      let goodData ← repairBlock B c (some data)
      return c.bytes ++ goodData
    else .ret ent

variable [X : External]

/-- The links of a node are expected next. -/
def pushLinks (c : Cid) (ent : Bytes) : Op Unit :=
  if c.codec = dagCBOR then do
    let data ← sliceFrom c.bytes.length ent
    match X.decodeLinks data with
    | none => .throw (.text "decoding layer links")
    | some links => .modify fun r => { r with expectCidStack := links :: r.expectCidStack }
  else .ret ()

/-- The entry is ready: it goes into the read buffer, its links onto the
stack, and the source moves on. -/
def emit (c : Cid) (ent : Bytes) : Op Unit := do
  .modify fun r => { r with readBuf := framed ent }
  pushLinks c ent
  wrapErr "discard entry" (discard ent.length)

/-- The next entry. -/
def nextEntry : Op Unit := do
  let c ← popCid
  let maxExpectedCIDLen := 4
  failIf (c.bytes.length < 32) (.text "cid length less than 32 bytes")
  let cidLenEnt ← wrapErr "peek entry" (peek (c.bytes.length + maxExpectedCIDLen))
  let pattern ← sliceTo 32 c.bytes
  let buf ← sliceFrom 1 cidLenEnt
  let (cidOff, _) ← wrapErr "match cid pos" (match32Bytes pattern buf)
  -- the CID tells how long the length is, right or wrong
  let varintLen := cidOff + 1
  wrapErr "discard varint len bytes" (discard varintLen)
  let varint ← sliceTo varintLen cidLenEnt
  let ent ← readEntry B c varint
  let ent ← lengthen B c ent
  let ent ← fixCid c ent
  let ent ← fixData B c ent
  emit c ent

/-- At most `n` bytes of the read buffer. -/
def copyOut (n : ℕ) : Op Bytes := .get fun r =>
  .put { r with readBuf := r.readBuf.drop n } (.ret (r.readBuf.take n))

/-- What is deferred: the corrupt entries are counted, and too many of them
are an error. -/
def checkCorrupt (e : Option Err) : Op (Option Err) := do
  .modify fun r => { r with bad := if r.wasCorrupt then r.bad + 1 else r.bad }
  .get fun r =>
    -- an error of the entry is replaced by this one
    if minReadDecision < r.totalRead ∧ maxCorruptPct < r.bad * 100 / r.totalRead then
      .ret (some (.text "too many corrupt blocks, aborting"))
    else .ret e

/-- What `Read` returns behind the next entry, or its error. -/
def finish (n : ℕ) : Except Err Unit → Op (Bytes × Option Err)
  | .error e => do
    let e ← checkCorrupt (some e)
    return ([], e)
  | .ok _ => do
    let out ← copyOut n
    let e ← checkCorrupt none
    return (out, e)

/-- `Read`, into a buffer of `n` bytes: what it returns, and the error. -/
def read (n : ℕ) : Op (Bytes × Option Err) := .get fun r =>
  if r.readBuf ≠ [] then do
    let out ← copyOut n
    return (out, none)
  else do
    .modify fun r => { r with totalRead := r.totalRead + 1, wasCorrupt := false }
    let res ← (nextEntry B).attempt
    finish n res

/-- Reads into buffers of these sizes, up to the first error. -/
def reads : List ℕ → Op (Bytes × Option Err)
  | [] => .ret ([], none)
  | n :: ns => do
    let (out, e) ← read B n
    match e with
    | some e => return (out, some e)
    | none => do
      let (more, e) ← reads ns
      return (out ++ more, e)

omit B

/-- `NewCarRepairReader`. -/
def newCarRepairReader (source : Bytes) (root : Cid) : Except Err RepairCarLog :=
  match readFrame maxAllowedSectionSize source with
  | .error _ => .error (.text "read car header")
  | .ok (hb, rest) =>
    match X.decodeHeader hb with
    | none => .error (.text "read car header")
    | some (version, roots) =>
      if version ≠ 1 then .error (.text "unsupported car version")
      else
        match roots with
        | [r] =>
          if r ≠ root then .error (.text "root cid mismatch")
          else .ok ⟨rest, [[root]], Carlog.carHeader r, 0, 0, false, 0⟩
        | _ => .error (.text "expected 1 root")

end RepairCarLog

end Ributil

end Ribs
