import Ribs.Bsst.Format
import Ribs.Common.Cbor
import Ribs.Common.Sha256
/-!
# BSST — the encodings, to be evaluated

What the package takes from outside, as it is on well-formed inputs:
SHA-256, a sort, and the CBOR of the header, with a strict decoder. The
instance is scoped, so that no result depends on it by accident.
-/

namespace Ribs

open Common

namespace Bsst

namespace Encoding

/-! ## The header -/

/-- The keys of the header's map, each with what comes between it and the
value before. -/
def saltKey : Bytes := 0xa7 :: cborText [0x53, 0x61, 0x6c, 0x74] ++ cborHead 2 32

def levelsKey : Bytes := cborText [0x4c, 0x65, 0x76, 0x65, 0x6c, 0x73]

def entriesKey : Bytes := cborText [0x45, 0x6e, 0x74, 0x72, 0x69, 0x65, 0x73]

def finalizedKey : Bytes := cborText [0x46, 0x69, 0x6e, 0x61, 0x6c, 0x69, 0x7a, 0x65, 0x64]

def l0BucketsKey : Bytes := cborText [0x4c, 0x30, 0x42, 0x75, 0x63, 0x6b, 0x65, 0x74, 0x73]

def bucketSizeKey : Bytes := cborText [0x42, 0x75, 0x63, 0x6b, 0x65, 0x74, 0x53, 0x69, 0x7a, 0x65]

def levelFactorKey : Bytes := cborText [0x4c, 0x65, 0x76, 0x65, 0x6c, 0x46, 0x61, 0x63, 0x74, 0x6f, 0x72]

/-- A field of a number: its key, and its value. -/
def uintField (key : Bytes) (n : ℕ) : Bytes := key ++ cborHead 0 n

def readUintField (key bs : Bytes) : Option (ℕ × Bytes) :=
  (expect key bs).bind (readCborHead 0)

/-- `true` and `false` have the numbers 21 and 20. -/
def boolField (key : Bytes) (b : Bool) : Bytes := key ++ cborHead 7 (if b then 21 else 20)

def readBoolField (key bs : Bytes) : Option (Bool × Bytes) :=
  ((expect key bs).bind (readCborHead 7)).bind fun r =>
    if r.1 = 21 then some (true, r.2) else if r.1 = 20 then some (false, r.2) else none

def saltField (salt : Digest) : Bytes := saltKey ++ salt.1

def readSalt (bs : Bytes) : Option (Digest × Bytes) :=
  ((expect saltKey bs).bind (takeBytes 32)).bind fun r =>
    if h : r.1.length = 32 then some (⟨r.1, h⟩, r.2) else none

def marshal (h : BSSTHeader) : Bytes :=
  saltField h.salt ++ (uintField levelsKey h.levels ++ (uintField entriesKey h.entries ++
    (boolField finalizedKey h.finalized ++ (uintField l0BucketsKey h.l0Buckets ++
    (uintField bucketSizeKey h.bucketSize ++ uintField levelFactorKey h.levelFactor)))))

def unmarshal (bs : Bytes) : Option BSSTHeader := do
  let (salt, bs) ← readSalt bs
  let (levels, bs) ← readUintField levelsKey bs
  let (entries, bs) ← readUintField entriesKey bs
  let (finalized, bs) ← readBoolField finalizedKey bs
  let (l0Buckets, bs) ← readUintField l0BucketsKey bs
  let (bucketSize, bs) ← readUintField bucketSizeKey bs
  let (levelFactor, _) ← readUintField levelFactorKey bs
  some ⟨l0Buckets, bucketSize, entries, salt, levels, levelFactor, finalized⟩

theorem readUintField_append (key : Bytes) {n : ℕ} (h : n < 2 ^ 63) (rest : Bytes) :
    readUintField key (uintField key n ++ rest) = some (n, rest) := by
  rw [readUintField, uintField, List.append_assoc, expect_append, Option.bind_some]
  exact readCborHead_cborHead (by norm_num) (by omega) rest

theorem readBoolField_append (key : Bytes) (b : Bool) (rest : Bytes) :
    readBoolField key (boolField key b ++ rest) = some (b, rest) := by
  rw [readBoolField, boolField, List.append_assoc, expect_append, Option.bind_some,
    readCborHead_cborHead (by norm_num) (by split <;> norm_num)]
  cases b <;> rfl

theorem readSalt_append (salt : Digest) (rest : Bytes) :
    readSalt (saltField salt ++ rest) = some (salt, rest) := by
  rw [readSalt, saltField, List.append_assoc, expect_append, Option.bind_some, takeBytes_append salt.2,
    Option.bind_some, dif_pos salt.2]

/-- **The header is read back**, whatever follows it. -/
theorem unmarshal_marshal {h : BSSTHeader} (hfits : h.Fits) (rest : Bytes) :
    unmarshal (marshal h ++ rest) = some h := by
  rw [marshal, List.append_assoc, List.append_assoc, List.append_assoc, List.append_assoc,
    List.append_assoc, List.append_assoc, unmarshal, readSalt_append]
  simp only [Option.bind_eq_bind, Option.bind_some, readUintField_append _ hfits.levels,
    readUintField_append _ hfits.entries, readBoolField_append,
    readUintField_append _ hfits.l0Buckets, readUintField_append _ hfits.bucketSize,
    readUintField_append _ hfits.levelFactor]

theorem length_uintField_le (key : Bytes) (n : ℕ) :
    (uintField key n).length ≤ key.length + 9 := by
  rw [uintField, List.length_append]
  exact Nat.add_le_add_left (length_cborHead_le 0 n) _

theorem length_boolField_le (key : Bytes) (b : Bool) :
    (boolField key b).length ≤ key.length + 9 := by
  rw [boolField, List.length_append]
  exact Nat.add_le_add_left (length_cborHead_le 7 _) _

theorem length_marshal (h : BSSTHeader) : (marshal h).length ≤ 4088 := by
  have h1 := length_uintField_le levelsKey h.levels
  have h2 := length_uintField_le entriesKey h.entries
  have h3 := length_boolField_le finalizedKey h.finalized
  have h4 := length_uintField_le l0BucketsKey h.l0Buckets
  have h5 := length_uintField_le bucketSizeKey h.bucketSize
  have h6 := length_uintField_le levelFactorKey h.levelFactor
  have hkeys : saltKey.length = 8 ∧ levelsKey.length = 7 ∧ entriesKey.length = 8 ∧
      finalizedKey.length = 10 ∧ l0BucketsKey.length = 10 ∧ bucketSizeKey.length = 11 ∧
      levelFactorKey.length = 12 := by decide
  simp only [hkeys] at h1 h2 h3 h4 h5 h6
  simp only [marshal, saltField, List.length_append, h.salt.2, hkeys]
  generalize (uintField levelsKey h.levels).length = a at *
  omega

/-! ## The instance -/

/-- The order of the bytes of keys. -/
def KeyLe (a b : MultiHashHash) : Prop := ¬ b.mhh.1 < a.mhh.1

instance : DecidableRel KeyLe := fun _ _ => inferInstanceAs (Decidable (¬ _))

instance : Std.Total KeyLe := ⟨fun a b => List.le_total a.mhh.1 b.mhh.1⟩

instance : IsTrans MultiHashHash KeyLe := ⟨fun _ _ _ hab hbc => List.le_trans hab hbc⟩

scoped instance : External where
  sum256 b := ⟨sha256 b, length_sha256 b⟩
  sortSlice l := l.insertionSort KeyLe
  sortSlice_perm l := l.perm_insertionSort KeyLe
  sortSlice_sorted l := l.pairwise_insertionSort KeyLe
  marshal := marshal
  unmarshal := unmarshal
  length_marshal h _ := length_marshal h
  unmarshal_marshal _ hfits rest := unmarshal_marshal hfits rest

end Encoding

end Bsst

end Ribs
