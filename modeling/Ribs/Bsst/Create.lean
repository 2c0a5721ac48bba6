import Ribs.Bsst.Format
/-!
# BSST — writing the file

`create` hashes the multihashes of a source with the file's salt, sorts
them by key and writes them level by level: an entry whose bucket is full
is left for the level below, after its bit was set in the bucket's bloom
filter. The loops run over the entries in key order and flush every
bucket they pass, so the writer holds the contents of one bucket.
-/

namespace Ribs

open Common

namespace Bsst

/-- How writing panics, and `unfinished` when the level loop would go on. -/
inductive BuildError where
  /-- `buckets not sorted`. -/
  | notSorted
  /-- An index past the bloom filter. -/
  | outOfRange
  | divideByZero
  | unfinished
deriving DecidableEq, Repr

/-- The variables of the writing loop. -/
structure Writer where
  /-- What `bufWriter` was given. -/
  out : Bytes
  inBucket : ℕ
  bucketEnts : ℕ
  bloomHead : Bytes

/-- Pad the bucket, write its bloom filter and start the next one. -/
def Writer.flushBucket (w : Writer) : Writer where
  out := w.out ++ (List.replicate (bucketUserEntries - w.bucketEnts) nullEntry).flatten ++
    w.bloomHead
  inBucket := w.inBucket + 1
  bucketEnts := 0
  bloomHead := emptyBloom

/-- `for inBucket != bucketIdx`: flush until the bucket is reached. A
bucket that is already behind is the panic of `flushBucket`. -/
def Writer.flushTo (w : Writer) (bucketIdx : ℕ) : Except BuildError Writer :=
  -- the entries are sorted, so no bucket is reached twice
  if bucketIdx < w.inBucket then .error .notSorted
  else .ok (Writer.flushBucket^[bucketIdx - w.inBucket] w)

/-- `for inBucket < levelBuckets+prevLevelBuckets`. -/
def Writer.flushRest (w : Writer) (total : ℕ) : Writer :=
  Writer.flushBucket^[total - w.inBucket] w

/-- Update the bloom filter of the bucket. -/
def Writer.setBloom (w : Writer) (bloomEntIdx : ℕ) : Writer :=
  { w with bloomHead := bloomSet w.bloomHead bloomEntIdx }

def Writer.writeEntry (w : Writer) (hash : MultiHashHash) : Writer :=
  { w with out := w.out ++ entryBytes hash, bucketEnts := w.bucketEnts + 1 }

/-- The loop over the entries of a level; it returns the entries left for
the next one. -/
def writeLevel (prevLevelBuckets levelBuckets : ℕ) :
    Writer → List MultiHashHash → Except BuildError (Writer × List MultiHashHash)
  | w, [] => .ok (w, [])
  | w, hash :: list =>
    let ind := bucketInd hash.mhh (bucketRange levelBuckets) prevLevelBuckets
    if bucketRange levelBuckets / bucketBloomFilterEntries = 0 then .error .divideByZero
    else
      match w.flushTo ind.1 with
      | .error e => .error e
      | .ok w =>
        if bucketBloomFilterSize ≤ ind.2 / 8 then .error .outOfRange
        else
          -- the bit is set also for an entry that does not fit here
          let w := w.setBloom ind.2
          if bucketUserEntries ≤ w.bucketEnts then
            (writeLevel prevLevelBuckets levelBuckets w list).map fun r => (r.1, hash :: r.2)
          else
            writeLevel prevLevelBuckets levelBuckets (w.writeEntry hash) list

/-- `for len(nextLevel) > 0`. The result is the writer and the number of
levels written. -/
def writeLevels : ℕ → (level prevLevelBuckets levelBuckets : ℕ) → Writer → List MultiHashHash →
    Except BuildError (Writer × ℕ)
  | _, level, _, _, w, [] => .ok (w, level)
  | 0, _, _, _, _, _ :: _ => .error .unfinished
  | fuel + 1, level, prevLevelBuckets, levelBuckets, w, hash :: list =>
    if levelBuckets = 0 then .error .divideByZero
    else
      match writeLevel prevLevelBuckets levelBuckets w (hash :: list) with
      | .error e => .error e
      | .ok (w, nextLevel) =>
        -- the buckets behind the last entry are flushed empty
        writeLevels fuel (level + 1) (prevLevelBuckets + levelBuckets)
          (nextLevelBuckets levelBuckets) (w.flushRest (prevLevelBuckets + levelBuckets)) nextLevel

/-- What a source lists: a multihash, and its offsets. -/
abbrev Source := List (Multihash × List I64)

variable [X : External]

/-- The keyed entries of a source, one for each offset. -/
def Source.entries (source : Source) (salt : Digest) : List MultiHashHash :=
  source.flatMap fun e => e.2.mapIdx fun i off => makeMHH salt e.1 i off

/-- `entries / MeanEntriesPerBucket`, rounded up. -/
def l0Buckets (entries : ℕ) : ℕ := (entries + meanEntriesPerBucket - 1) / meanEntriesPerBucket

/-- The header block before the file is finalized: the magic and zeros.
The first `MarshalCBOR` appends behind the block's slice and leaves it. -/
def hdrBuf : Bytes := bsstMagic ++ List.replicate (bucketSize - bsstMagic.length) 0

/-- The buckets of the file, and the number of levels. -/
def buckets (salt : Digest) (entries : ℕ) (source : Source) : Except BuildError (Bytes × ℕ) := do
  let list := X.sortSlice (source.entries salt)
  let (w, level) ← writeLevels list.length 0 0 (l0Buckets entries) ⟨[], 0, 0, emptyBloom⟩ list
  return (w.out, level)

/-- The header as it is finalized. -/
def header (salt : Digest) (entries levels : ℕ) : BSSTHeader where
  l0Buckets := l0Buckets entries
  bucketSize := bucketSize
  entries := entries
  salt := salt
  levels := levels
  levelFactor := levelFactor
  finalized := true

/-- The header block with the finalized header over it, at offset 8. -/
def finalHdr (h : BSSTHeader) : Bytes :=
  bsstMagic ++ X.marshal h ++ hdrBuf.drop (bsstMagic.length + (X.marshal h).length)

/-- The first multihashes of the source, kept as a sample. -/
def createSample (source : Source) : List Multihash :=
  (source.map Prod.fst).take bsstCIDSampleSize

/-- **The file `Create` leaves.** -/
def create (salt : Digest) (entries : ℕ) (source : Source) : Except BuildError Bytes := do
  let (out, levels) ← buckets salt entries source
  return finalHdr (header salt entries levels) ++ out

end Bsst

end Ribs
