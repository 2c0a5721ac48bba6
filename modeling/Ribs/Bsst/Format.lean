import Ribs.Common.Endian
import Mathlib.Data.List.Sort
import Mathlib.Tactic.IntervalCases
/-!
# BSST — the file format

A BSST file is a header block and then levels of buckets. A bucket holds
up to `bucketUserEntries` entries of 32 bytes, 24 of the key and 8 of the
offset, and a 256-bit bloom filter in the place of the last entry. The
first 64 bits of a key name its bucket in a level and its bit in the
bucket's filter.
-/

namespace Ribs

open Common

namespace Bsst

def bucketSize : ℕ := 4096

def entriesPerBucket : ℕ := 128

def entrySize : ℕ := bucketSize / entriesPerBucket

/-- 24 bytes of the key, 8 for the user offset. -/
def entKeyBytes : ℕ := 24

def bucketHeaderEntries : ℕ := 1

def bucketUserEntries : ℕ := entriesPerBucket - bucketHeaderEntries

def bucketBloomFilterSize : ℕ := entrySize

def bucketBloomFilterEntries : ℕ := bucketBloomFilterSize * 8

def meanEntriesPerBucket : ℕ := entriesPerBucket / 2 + entriesPerBucket / 4

def levelFactor : ℕ := 16384

def maxUint64 : ℕ := 2 ^ 64 - 1

/-- `"BSST\x00\x00\x01\x00"`. -/
def bsstMagic : Bytes := [0x42, 0x53, 0x53, 0x54, 0, 0, 1, 0]

def bsstCIDSampleSize : ℕ := 1024

/-- The 32 bytes of a SHA-256 sum, or of a salt. -/
abbrev Digest := { b : Bytes // b.length = 32 }

/-- Zeros make a digest. -/
theorem length_zeroDigest : (List.replicate 32 0 : Bytes).length = 32 := List.length_replicate

/-- `int64`, as its bits. -/
abbrev I64 := BitVec 64

abbrev Multihash := Bytes

structure BSSTHeader where
  l0Buckets : ℕ
  bucketSize : ℕ
  entries : ℕ
  salt : Digest
  levels : ℕ
  levelFactor : ℕ
  finalized : Bool
deriving DecidableEq

/-- The header's integers are non-negative `int64`s. -/
structure BSSTHeader.Fits (h : BSSTHeader) : Prop where
  l0Buckets : h.l0Buckets < 2 ^ 63
  bucketSize : h.bucketSize < 2 ^ 63
  entries : h.entries < 2 ^ 63
  levels : h.levels < 2 ^ 63
  levelFactor : h.levelFactor < 2 ^ 63

structure MultiHashHash where
  mhh : Digest
  off : I64
deriving DecidableEq

/-- **What the package takes from outside**: a hash function, `sort.Slice`
by key, which orders equal keys in any way, and the header's CBOR, which
fits the header block behind the magic and is read back whatever
follows it. -/
class External where
  sum256 : Bytes → Digest
  sortSlice : List MultiHashHash → List MultiHashHash
  sortSlice_perm : ∀ l, (sortSlice l).Perm l
  sortSlice_sorted : ∀ l, (sortSlice l).Pairwise fun a b => ¬ b.mhh.1 < a.mhh.1
  marshal : BSSTHeader → Bytes
  unmarshal : Bytes → Option BSSTHeader
  length_marshal : ∀ h : BSSTHeader, h.Fits → (marshal h).length ≤ 4088
  unmarshal_marshal : ∀ h : BSSTHeader, h.Fits → ∀ rest, unmarshal (marshal h ++ rest) = some h

variable [X : External]

/-- `[salt][i: le64][c[:64]]`, hashed. -/
def makeMHKey (salt : Digest) (c : Multihash) (i : ℕ) : Digest :=
  X.sum256 (salt.1 ++ leBytes 8 i ++ (c.take 64 ++ List.replicate (64 - c.length) 0))

def makeMHH (salt : Digest) (c : Multihash) (i : ℕ) (off : I64) : MultiHashHash :=
  ⟨makeMHKey salt c i, off⟩

/-! ## Buckets -/

/-- The bucket numbers of a level share the 64-bit range evenly. -/
def bucketRange (levelBuckets : ℕ) : ℕ := maxUint64 / levelBuckets

/-- The first 64 bits of a key. -/
def hashIdx (k : Digest) : ℕ := beNat (k.1.take 8)

/-- The bucket of a key, and its bit in the bucket's bloom filter. -/
def bucketInd (k : Digest) (bucketRange prevLevelBuckets : ℕ) : ℕ × ℕ :=
  (prevLevelBuckets + hashIdx k / bucketRange,
    hashIdx k % bucketRange / (bucketRange / bucketBloomFilterEntries))

/-- The number of buckets of the level below. -/
def nextLevelBuckets (levelBuckets : ℕ) : ℕ := (levelBuckets + levelFactor - 1) / levelFactor

def nullEntry : Bytes := List.replicate entrySize 0

def emptyBloom : Bytes := List.replicate bucketBloomFilterSize 0

/-- The bytes of an entry: its key cut to 24 bytes, and its offset. -/
def entryBytes (h : MultiHashHash) : Bytes :=
  h.mhh.1.take entKeyBytes ++ leBytes (entrySize - entKeyBytes) h.off.toNat

/-- `bloomHead[b/8] |= 1 << (b%8)`. -/
def bloomSet (bloom : Bytes) (b : ℕ) : Bytes :=
  bloom.modify (b / 8) fun x => x ||| 1 <<< (b % 8).toUInt8

/-- `bloom[b/8] & (1 << (b%8)) != 0`. -/
def bloomTest (bloom : Bytes) (b : ℕ) : Bool :=
  bloom.getD (b / 8) 0 &&& 1 <<< (b % 8).toUInt8 != 0

/-! ## The small lemmas of the format -/

omit X

@[simp] theorem length_nullEntry : nullEntry.length = 32 := by simp [nullEntry, entrySize,
  bucketSize, entriesPerBucket]

@[simp] theorem length_emptyBloom : emptyBloom.length = 32 := by
  simp [emptyBloom, bucketBloomFilterSize, entrySize, bucketSize, entriesPerBucket]

@[simp] theorem length_entryBytes (h : MultiHashHash) : (entryBytes h).length = 32 := by
  simp [entryBytes, entKeyBytes, entrySize, bucketSize, entriesPerBucket, h.mhh.2]

/-- An entry starts with its key. -/
theorem take_entryBytes (h : MultiHashHash) : (entryBytes h).take entKeyBytes =
    h.mhh.1.take entKeyBytes := by
  rw [entryBytes, List.take_append_of_le_length (by simp [entKeyBytes, h.mhh.2]), List.take_take,
    Nat.min_self]

/-- And ends with its offset. -/
theorem off_entryBytes (h : MultiHashHash) :
    BitVec.ofNat 64 (leNat (((entryBytes h).drop entKeyBytes).take 8)) = h.off := by
  have hlen : (h.mhh.1.take entKeyBytes).length = entKeyBytes := by simp [entKeyBytes, h.mhh.2]
  have hoff : h.off.toNat < 256 ^ 8 := by have := h.off.isLt; norm_num at this ⊢; exact this
  have hdrop : (entryBytes h).drop entKeyBytes = leBytes 8 h.off.toNat := by
    rw [entryBytes, List.drop_append_of_le_length hlen.ge, List.drop_of_length_le hlen.le]
    rfl
  rw [hdrop, List.take_of_length_le (length_leBytes 8 _).le, leNat_leBytes hoff,
    BitVec.ofNat_toNat, BitVec.setWidth_eq]

@[simp] theorem length_bloomSet (bloom : Bytes) (b : ℕ) :
    (bloomSet bloom b).length = bloom.length := by simp [bloomSet]

theorem toNat_one_shiftLeft {i : ℕ} (hi : i < 8) : ((1 : UInt8) <<< i.toUInt8).toNat = 2 ^ i := by
  interval_cases i <;> rfl

/-- The bit test of the source is the bit. -/
theorem bloomTest_eq (bloom : Bytes) (b : ℕ) :
    bloomTest bloom b = (bloom.getD (b / 8) 0).toNat.testBit (b % 8) := by
  have hi : b % 8 < 8 := Nat.mod_lt _ (by norm_num)
  have hpos : 0 < 2 ^ (b % 8) := Nat.two_pow_pos _
  rw [bloomTest]
  generalize bloom.getD (b / 8) 0 = x
  have hand : (x &&& 1 <<< (b % 8).toUInt8).toNat =
      (x.toNat.testBit (b % 8)).toNat * 2 ^ (b % 8) := by
    rw [UInt8.toNat_and, toNat_one_shiftLeft hi, Nat.and_two_pow]
  generalize x &&& 1 <<< (b % 8).toUInt8 = y at hand
  have hzero : y = 0 ↔ y.toNat = 0 := UInt8.toNat_inj.symm
  cases hbit : x.toNat.testBit (b % 8) <;> rw [hbit] at hand
  · simpa using hzero.mpr (by simpa using hand)
  · simp only [bne_iff_ne, ne_eq, hzero, hand]
    simp

/-- **Setting a bit sets that bit** and no other. -/
theorem bloomTest_bloomSet {bloom : Bytes} {b : ℕ} (hb : b / 8 < bloom.length) (j : ℕ) :
    bloomTest (bloomSet bloom b) j = (bloomTest bloom j || decide (j = b)) := by
  have hi : b % 8 < 8 := Nat.mod_lt _ (by norm_num)
  simp only [bloomTest_eq, bloomSet, List.getD_eq_getElem?_getD, List.getElem?_modify]
  by_cases hbyte : b / 8 = j / 8
  · have hj : j / 8 < bloom.length := hbyte ▸ hb
    simp only [hbyte, List.getElem?_eq_getElem hj, if_true, Option.map_eq_map, Option.map_some,
      Option.getD_some, UInt8.toNat_or, toNat_one_shiftLeft hi, Nat.testBit_or,
      Nat.testBit_two_pow]
    congr 1
    exact decide_eq_decide.mpr (by omega)
  · have hne : j ≠ b := fun h => hbyte (by rw [h])
    simp [hne, hbyte]

@[simp] theorem bloomTest_emptyBloom (j : ℕ) : bloomTest emptyBloom j = false := by
  rw [bloomTest_eq, emptyBloom, List.getD_eq_getElem?_getD, List.getElem?_replicate]
  split <;> simp

end Bsst

end Ribs
