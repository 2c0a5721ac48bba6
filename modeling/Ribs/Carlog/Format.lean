import Ribs.Common.Frame
import Ribs.Bsst.Lookup
import Std.Data.TreeMap.Lemmas
/-!
# Carlog — entries, offsets and the head

A log is a CAR file: a header and then frames, each the bytes of a CID
followed by data. An index maps the multihash of a block to the place of
its entry, offset and length packed into one `int64`, 40 bits for the
offset and 24 for the length. What is durable beside the file is the
head.
-/

namespace Ribs

open Common

namespace Carlog

export Bsst (Digest I64 Multihash)

def jbobBufSize : ℕ := 16 <<< 20

def writeLRUEntries : ℕ := 128

/-- The most links of a node of the top tree. -/
def arity : ℕ := 2048

def maxEntryLen : ℕ := 1 <<< (64 - 40)

/-- `carutil.MaxAllowedSectionSize`. -/
def maxAllowedSectionSize : ℕ := 32 <<< 20

/-! ## CIDs -/

/-- A CIDv1. -/
structure Cid where
  codec : ℕ
  hash : Multihash
deriving DecidableEq

/-- `cid.Raw`. -/
def raw : ℕ := 0x55

/-- `cid.DagCBOR`. -/
def dagCBOR : ℕ := 0x71

def Cid.bytes (c : Cid) : Bytes := putUvarint 1 ++ putUvarint c.codec ++ c.hash

/-- **A multihash**: the code of a hash function, and a digest. -/
def ValidMultihash (m : Multihash) : Prop :=
  ∃ code digest, code < 2 ^ 63 ∧ digest.length ≤ 128 ∧
    m = putUvarint code ++ putUvarint digest.length ++ digest

/-- The multihash of a SHA-256 sum. -/
def sha256Multihash (d : Digest) : Multihash := 0x12 :: 0x20 :: d.1

/-- A multihash of a SHA-256 sum. -/
def IsSha256 (m : Multihash) : Prop := ∃ d : Digest, m = sha256Multihash d

/-- **What the package takes from outside**: CID parsing, DAG-CBOR for
lists of links and for the roots of a CAR header, and multihash streams,
on top of what the `bsst` package takes. -/
class External extends Bsst.External where
  /-- `cid.CidFromBytes`: the length of a CID, and the CID. -/
  cidFromBytes : Bytes → Option (ℕ × Cid)
  cidFromBytes_nil : cidFromBytes [] = none
  cidFromBytes_bytes : ∀ (codec : ℕ) (m : Multihash) (data : Bytes), codec = raw ∨ codec = dagCBOR →
    ValidMultihash m →
    cidFromBytes ((Cid.mk codec m).bytes ++ data) = some ((Cid.mk codec m).bytes.length, ⟨codec, m⟩)
  /-- The bytes of a list of links. -/
  encodeLinks : List Cid → Bytes
  decodeLinks : Bytes → Option (List Cid)
  decodeLinks_encodeLinks : ∀ links : List Cid, links.length ≤ arity →
    (∀ c ∈ links, (c.codec = raw ∨ c.codec = dagCBOR) ∧ IsSha256 c.hash) →
    decodeLinks (encodeLinks links) = some links
  length_encodeLinks : ∀ links : List Cid, links.length ≤ arity →
    (∀ c ∈ links, (c.codec = raw ∨ c.codec = dagCBOR) ∧ IsSha256 c.hash) →
    41 * links.length < (encodeLinks links).length ∧
      (encodeLinks links).length ≤ 41 * links.length + 9
  /-- The bytes of a version 1 CAR header. -/
  encodeHeader : List Cid → Bytes
  decodeHeader : Bytes → Option (ℕ × List Cid)
  decodeHeader_encodeHeader : ∀ c : Cid, c.codec = raw ∨ c.codec = dagCBOR →
    ValidMultihash c.hash → c.bytes.length = 36 → decodeHeader (encodeHeader [c]) = some (1, [c])
  length_encodeHeader : ∀ c : Cid, c.bytes.length = 36 → (encodeHeader [c]).length = 58
  /-- A multihash off a stream; `none` at its end. -/
  readMultihash : Bytes → Except Unit (Option (Multihash × Bytes))
  readMultihash_lt : ∀ b m rest, readMultihash b = .ok (some (m, rest)) → rest.length < b.length

/-- The 36 bytes of the root of a log that is not finalized. -/
def placeholderCid : Cid := ⟨raw, 0x00 :: 0x20 :: List.replicate 32 0⟩

variable [X : External]

/-- The CID of a block of the top tree. -/
def nodeCid (data : Bytes) : Cid := ⟨dagCBOR, sha256Multihash (X.sum256 data)⟩

/-- `car.WriteHeader`. -/
def carHeader (root : Cid) : Bytes := framed (X.encodeHeader [root])

omit X

/-! ## Packed offsets -/

/-- `int64(length)<<40 | off&0xFFFF_FFFF_FF`. -/
def makeOffsetLen (off length : ℕ) : I64 :=
  BitVec.ofNat 64 length <<< 40 ||| BitVec.ofNat 64 off &&& 0xFFFFFFFFFF

/-- The offset, and the length with the sign of the packed number. -/
def fromOffsetLen (offlen : I64) : ℕ × ℤ :=
  ((offlen &&& 0xFFFFFFFFFF).toNat, (offlen.sshiftRight 40).toInt)

/-! ## The head -/

structure Head where
  valid : Bool
  /-- Byte offset just after the last retired operation. -/
  retiredAt : ℕ
  dataStart : ℕ
  /-- Byte offset of the start of the second layer. -/
  dataEnd : ℕ
  readOnly : Bool
  finalized : Bool
  offloaded : Bool
  isExternal : Bool
  /-- Byte offsets of the start of each layer. -/
  layerOffsets : List ℕ
deriving DecidableEq

/-! ## Errors -/

inductive Err where
  /-- A step of input or output failed. -/
  | io
  | notExist
  | exist
  /-- `os.ErrClosed`. -/
  | closed
  /-- `os.ErrInvalid`, of a nil file. -/
  | invalid
  | eof
  | unexpectedEOF
  | varintOverflow
  | errNothingToCommit
  | errReadOnly
  | errAlreadyOffloaded
  /-- What a callback returned. -/
  | callback (n : ℕ)
  | text (s : String)
  | wrap (s : String) (e : Err)
deriving DecidableEq

end Carlog

end Ribs
