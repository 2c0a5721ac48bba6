import Ribs.Bsst.Create
import Mathlib.Order.Nat
import Mathlib.Data.Nat.Count
/-!
# BSST — looking a multihash up

`Has` and `Get` walk the levels. At each level they read the one bucket
the key can be in, test its bit in the bucket's bloom filter, count the
filter's bits up to it for a first position and scan from there. After a
miss in the filter the loop goes on at the same level: the level's bucket
numbers advance only behind a scan.
-/

namespace Ribs

open Common

namespace Bsst

/-- An open file: its bytes, its header, and the sample `Create` keeps. -/
structure BSST where
  f : Bytes
  h : BSSTHeader
  createSample : List Multihash

variable [X : External]

/-- `Open`: the header block, zero past the end of the file. -/
def openFile (f : Bytes) : Option BSST :=
  let buf := f.take bucketSize ++ List.replicate (bucketSize - f.length) 0
  if f = [] then none
  else if buf.take 8 = bsstMagic then (X.unmarshal (buf.drop 8)).map fun h => ⟨f, h, []⟩
  else none

/-- How `Create` fails when no step of its input and output does. -/
inductive CreateError where
  | build (e : BuildError)
  | reopen
deriving DecidableEq, Repr

/-- `Create`: the file is written and opened again. -/
def createOpen (salt : Digest) (entries : ℕ) (source : Source) : Except CreateError BSST :=
  match create salt entries source with
  | .error e => .error (.build e)
  | .ok f =>
    match openFile f with
    | none => .error .reopen
    | some b => .ok { b with createSample := createSample source }

/-- `ReadAt`: the `n` bytes at `off`, or an error past the end. -/
def readAt (f : Bytes) (off n : ℕ) : Option Bytes :=
  if off + n ≤ f.length then some ((f.drop off).take n) else none

/-- How a lookup fails: a read past the end, or a panic. -/
inductive LookupError where
  | readBucket
  | divideByZero
  | outOfRange
deriving DecidableEq, Repr

/-- `bits.OnesCount64`. -/
def onesCount (x : BitVec 64) : ℕ := Nat.count (fun i => x.getLsbD i = true) 64

/-- The masks `m0` to `m3` of the bits up to `bloomEntIdx`, one for each
64-bit word of the filter, computed without branches. -/
def offMask (bloomEntIdx : ℕ) (word : Fin 4) : BitVec 64 :=
  let mLast : BitVec 64 := BitVec.allOnes 64 >>> (63 - bloomEntIdx % 64)
  let bei6 : BitVec 64 := BitVec.ofNat 64 bloomEntIdx >>> 6
  let inM2 := BitVec.ofNat 64 bloomEntIdx >>> 7 &&& 1
  let inM1 := inM2 ||| bei6
  let inM3 := inM2 &&& bei6
  match word with
  | 0 => mLast ||| -inM1
  | 1 => mLast &&& -inM1 ||| -inM2
  | 2 => mLast &&& -inM2 ||| -inM3
  | 3 => mLast &&& -inM3

/-- The words `b0` to `b3` of a filter. -/
def bloomWord (bloom : Bytes) (word : Fin 4) : BitVec 64 :=
  BitVec.ofNat 64 (leNat ((bloom.drop (8 * word)).take 8))

/-- The filter's bits under the masks. -/
def minOffCount (bloom : Bytes) (bloomEntIdx : ℕ) : ℕ :=
  onesCount (bloomWord bloom 0 &&& offMask bloomEntIdx 0) +
    onesCount (bloomWord bloom 1 &&& offMask bloomEntIdx 1) +
    onesCount (bloomWord bloom 2 &&& offMask bloomEntIdx 2) +
    onesCount (bloomWord bloom 3 &&& offMask bloomEntIdx 3)

/-- The position the scan of a bucket starts at. -/
def minOffIdx (bloom : Bytes) (bloomEntIdx : ℕ) : ℕ := minOffCount bloom bloomEntIdx - 1

/-- The bytes of position `entIdx` of a bucket. -/
def entryAt (bucketBuf : Bytes) (entIdx : ℕ) : Bytes :=
  (bucketBuf.drop (entIdx * entrySize)).take entrySize

/-- The first position at or past `start` that holds the key. -/
def scan (bucketBuf : Bytes) (k : Digest) (start : ℕ) : Option ℕ :=
  (List.range' start (bucketUserEntries - start)).find? fun entIdx =>
    (entryAt bucketBuf entIdx).take entKeyBytes == k.1.take entKeyBytes

/-- The offset in position `entIdx` of a bucket. -/
def offAt (bucketBuf : Bytes) (entIdx : ℕ) : I64 :=
  BitVec.ofNat 64 (leNat (((entryAt bucketBuf entIdx).drop entKeyBytes).take 8))

/-- The loop over the levels that `Has` and `Get` share, for one key; its
first argument is the number of levels left. -/
def lookup (f : Bytes) (k : Digest) : ℕ → (prevLevelBuckets levelBuckets : ℕ) →
    Except LookupError (Option I64)
  | 0, _, _ => .ok none
  | level + 1, prevLevelBuckets, levelBuckets =>
    if levelBuckets = 0 ∨ bucketRange levelBuckets / bucketBloomFilterEntries = 0 then
      .error .divideByZero
    else
      let ind := bucketInd k (bucketRange levelBuckets) prevLevelBuckets
      match readAt f ((ind.1 + 1) * bucketSize) bucketSize with
      | none => .error .readBucket
      | some bucketBuf =>
        let bloom := bucketBuf.drop (bucketUserEntries * entrySize)
        if bloom.length ≤ ind.2 / 8 then .error .outOfRange
        else if !bloomTest bloom ind.2 then
          -- `continue`: the bucket numbers stay those of this level
          lookup f k level prevLevelBuckets levelBuckets
        else
          match scan bucketBuf k (minOffIdx bloom ind.2) with
          | some entIdx => .ok (some (offAt bucketBuf entIdx))
          -- not in this bucket: the entry may have overflowed to the level below
          | none => lookup f k level (prevLevelBuckets + levelBuckets)
              (nextLevelBuckets levelBuckets)

/-- The lookup of one multihash. -/
def BSST.find (b : BSST) (c : Multihash) : Except LookupError (Option I64) :=
  lookup b.f (makeMHKey b.h.salt c 0) b.h.levels 0 b.h.l0Buckets

/-- `Has`. -/
def BSST.has (b : BSST) (c : List Multihash) : Except LookupError (List Bool) :=
  c.mapM fun m => do return (← b.find m).isSome

/-- `Get`: what is not found is left zero in the output. -/
def BSST.get (b : BSST) (c : List Multihash) : Except LookupError (List I64) :=
  c.mapM fun m => do return (← b.find m).getD 0

omit X in
/-- A query list is answered one by one. -/
theorem mapM_eq_ok {α β ε : Type} {c : List α} {f : α → Except ε β} {g : α → β}
    (h : ∀ m ∈ c, f m = .ok (g m)) : c.mapM f = .ok (c.map g) := by
  induction c with
  | nil => rfl
  | cons m c ih =>
    rw [List.mapM_cons, h m List.mem_cons_self, ih fun m' hm' => h m' (List.mem_cons_of_mem _ hm')]
    rfl

end Bsst

end Ribs
