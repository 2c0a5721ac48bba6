import Ribs.Bsst.CborGen
import Ribs.Carlog.Format
/-!
# Carlog — the record of the head

The head is stored as CBOR, a map of ten fields, in the first bytes of a
buffer of `headSize` bytes that is zero behind it. `MarshalCBOR` writes
through a `bytes.Buffer` over that array: what does not fit goes to memory
that nobody reads, and the array keeps its zeros.
-/

namespace Ribs

open Common

namespace Carlog

open Bsst (CborGen zeros)

/-- `HeadSize`. -/
def headSize : ℕ := 512

/-! ## The names of the fields -/

/-- `"Valid"`. -/
def nameValid : Bytes := [0x56, 0x61, 0x6c, 0x69, 0x64]

/-- `"DataEnd"`. -/
def nameDataEnd : Bytes := [0x44, 0x61, 0x74, 0x61, 0x45, 0x6e, 0x64]

/-- `"Version"`. -/
def nameVersion : Bytes := [0x56, 0x65, 0x72, 0x73, 0x69, 0x6f, 0x6e]

/-- `"External"`. -/
def nameExternal : Bytes := [0x45, 0x78, 0x74, 0x65, 0x72, 0x6e, 0x61, 0x6c]

/-- `"ReadOnly"`. -/
def nameReadOnly : Bytes := [0x52, 0x65, 0x61, 0x64, 0x4f, 0x6e, 0x6c, 0x79]

/-- `"DataStart"`. -/
def nameDataStart : Bytes := [0x44, 0x61, 0x74, 0x61, 0x53, 0x74, 0x61, 0x72, 0x74]

/-- `"Finalized"`. -/
def nameFinalized : Bytes := [0x46, 0x69, 0x6e, 0x61, 0x6c, 0x69, 0x7a, 0x65, 0x64]

/-- `"Offloaded"`. -/
def nameOffloaded : Bytes := [0x4f, 0x66, 0x66, 0x6c, 0x6f, 0x61, 0x64, 0x65, 0x64]

/-- `"RetiredAt"`. -/
def nameRetiredAt : Bytes := [0x52, 0x65, 0x74, 0x69, 0x72, 0x65, 0x64, 0x41, 0x74]

/-- `"LayerOffsets"`. -/
def nameLayerOffsets : Bytes :=
  [0x4c, 0x61, 0x79, 0x65, 0x72, 0x4f, 0x66, 0x66, 0x73, 0x65, 0x74, 0x73]

variable [C : CborGen]

/-! ## Writing -/

/-- The fields in the order they are written, each with the writes of its
value. No head has a version but 0. -/
def headFields (h : Head) : List (Bytes × List Bytes) :=
  [(nameValid, [C.writeBool h.valid]),
    (nameDataEnd, [C.writeMajorTypeHeader 0 h.dataEnd]),
    (nameVersion, [C.writeMajorTypeHeader 0 0]),
    (nameExternal, [C.writeBool h.isExternal]),
    (nameReadOnly, [C.writeBool h.readOnly]),
    (nameDataStart, [C.writeMajorTypeHeader 0 h.dataStart]),
    (nameFinalized, [C.writeBool h.finalized]),
    (nameOffloaded, [C.writeBool h.offloaded]),
    (nameRetiredAt, [C.writeMajorTypeHeader 0 h.retiredAt]),
    (nameLayerOffsets, C.writeMajorTypeHeader 4 h.layerOffsets.length ::
      h.layerOffsets.map (C.writeMajorTypeHeader 0))]

/-- The writes of a field: its name, a text string, and its value. -/
def fieldWrites (f : Bytes × List Bytes) : List Bytes :=
  C.writeMajorTypeHeader 3 f.1.length :: f.1 :: f.2

/-- The writes of `MarshalCBOR`. -/
def headWrites (h : Head) : List Bytes := [170] :: (headFields h).flatMap fieldWrites

/-- What they write. -/
def marshalHead (h : Head) : Bytes := (headWrites h).flatten

/-- A `bytes.Buffer` over `headBuf[:0]`: what has been written into the
array, and whether the buffer has moved on to memory of its own. -/
structure HeadBuf where
  array : Bytes
  spilled : Bool
deriving DecidableEq

namespace HeadBuf

/-- `Write`. -/
def write (b : HeadBuf) (p : Bytes) : HeadBuf :=
  if b.spilled = false ∧ b.array.length + p.length ≤ headSize then ⟨b.array ++ p, false⟩
  -- the buffer grows, and what follows does not reach the array
  else { b with spilled := true }

/-- The array, which was zeroed before. -/
def bytes (b : HeadBuf) : Bytes := b.array ++ zeros (headSize - b.array.length)

end HeadBuf

/-- `h.MarshalCBOR(bytes.NewBuffer(headBuf[:0]))`. It does not take more
layers than `MaxLength`. -/
def encodeHead (h : Head) : Option HeadBuf :=
  if C.maxLength < h.layerOffsets.length then none
  else some ((headWrites h).foldl HeadBuf.write ⟨[], false⟩)

/-! ## Reading -/

/-- The elements of an array of `int64`. -/
def readInts : ℕ → Bytes → Option (List ℕ × Bytes)
  | 0, bs => some ([], bs)
  | n + 1, bs => do
    let (x, bs) ← Bsst.readInt64 bs
    let (xs, bs) ← readInts n bs
    return (x.toNat :: xs, bs)

/-- The value of the layer offsets. -/
def readLayerOffsets (bs : Bytes) : Option (List ℕ × Bytes) := do
  let (maj, extra, bs) ← C.readHeader bs
  if C.maxLength < extra ∨ maj ≠ 4 then none else readInts extra bs

/-- The `switch` over the name. -/
def readHeadField (h : Head) (name bs : Bytes) : Option (Head × Bytes) :=
  if name = nameValid then (Bsst.readFinalized bs).map fun r => ({ h with valid := r.1 }, r.2)
  else if name = nameDataEnd then
    (Bsst.readInt64 bs).map fun r => ({ h with dataEnd := r.1.toNat }, r.2)
  else if name = nameVersion then (Bsst.readInt64 bs).map fun r => (h, r.2)
  else if name = nameExternal then
    (Bsst.readFinalized bs).map fun r => ({ h with isExternal := r.1 }, r.2)
  else if name = nameReadOnly then
    (Bsst.readFinalized bs).map fun r => ({ h with readOnly := r.1 }, r.2)
  else if name = nameDataStart then
    (Bsst.readInt64 bs).map fun r => ({ h with dataStart := r.1.toNat }, r.2)
  else if name = nameFinalized then
    (Bsst.readFinalized bs).map fun r => ({ h with finalized := r.1 }, r.2)
  else if name = nameOffloaded then
    (Bsst.readFinalized bs).map fun r => ({ h with offloaded := r.1 }, r.2)
  else if name = nameRetiredAt then
    (Bsst.readInt64 bs).map fun r => ({ h with retiredAt := r.1.toNat }, r.2)
  else if name = nameLayerOffsets then
    (readLayerOffsets bs).map fun r => ({ h with layerOffsets := r.1 }, r.2)
  -- an unknown name is passed over with its value
  else some (h, C.scanForLinks bs)

/-- `for i := uint64(0); i < n; i++`. -/
def readHeadFields : ℕ → Head → Bytes → Option Head
  | 0, h, _ => some h
  | n + 1, h, bs => do
    let (name, bs) ← C.readString bs
    let (h, bs) ← readHeadField h name bs
    readHeadFields n h bs

/-- `Head{}`. -/
def zeroHead : Head where
  valid := false
  retiredAt := 0
  dataStart := 0
  dataEnd := 0
  readOnly := false
  finalized := false
  offloaded := false
  isExternal := false
  layerOffsets := []

/-- `UnmarshalCBOR`. -/
def unmarshalHead (bs : Bytes) : Option Head := do
  let (maj, extra, bs) ← C.readHeader bs
  if maj ≠ 5 ∨ C.maxLength < extra then none else readHeadFields extra zeroHead bs

/-! ## In place -/

/-- **The offsets of a head are `int64`.** -/
structure Head.Int64 (h : Head) : Prop where
  retiredAt : h.retiredAt < 2 ^ 63
  dataStart : h.dataStart < 2 ^ 63
  dataEnd : h.dataEnd < 2 ^ 63
  layerOffsets : ∀ o ∈ h.layerOffsets, o < 2 ^ 63

variable {h h' : Head}

omit C in
/-- Writes that fit stay in the array. -/
theorem foldl_write {ps : List Bytes} {a : Bytes}
    (hle : a.length + ps.flatten.length ≤ headSize) :
    ps.foldl HeadBuf.write ⟨a, false⟩ = ⟨a ++ ps.flatten, false⟩ := by
  induction ps generalizing a with
  | nil => simp
  | cons p ps ih =>
    rw [List.flatten_cons, List.length_append] at hle
    have hwrite : HeadBuf.write ⟨a, false⟩ p = ⟨a ++ p, false⟩ := by
      unfold HeadBuf.write
      exact if_pos ⟨rfl, by simp only; omega⟩
    rw [List.foldl_cons, hwrite, ih (by rw [List.length_append]; omega), List.flatten_cons,
      List.append_assoc]

theorem length_header_le (maj n : ℕ) (hmaj : maj < 8) (hn : n < 2 ^ 64) :
    (C.writeMajorTypeHeader maj n).length ≤ 9 := by
  rw [C.writeMajorTypeHeader_eq maj n hmaj hn]
  exact length_cborHead_le maj n

theorem length_writeBool_le (b : Bool) : (C.writeBool b).length ≤ 9 := by
  rw [C.writeBool_eq]
  exact length_cborHead_le _ _

theorem length_layers_le {offs : List ℕ} (h64 : ∀ o ∈ offs, o < 2 ^ 63) :
    (offs.map (C.writeMajorTypeHeader 0)).flatten.length ≤ 9 * offs.length := by
  induction offs with
  | nil => simp
  | cons o offs ih =>
    obtain ⟨ho, hoffs⟩ := List.forall_mem_cons.mp h64
    have hhead := length_header_le 0 o (by omega) (by omega)
    have := ih hoffs
    rw [List.map_cons, List.flatten_cons, List.length_append, List.length_cons]
    omega

/-- A field takes no more than its names and two heads, when its value is
one head. -/
theorem length_field_le (name : Bytes) {value : Bytes} (hname : name.length ≤ 9)
    (hvalue : value.length ≤ 9) : (fieldWrites (name, [value])).flatten.length ≤ 27 := by
  have := length_header_le 3 name.length (by omega) (by omega)
  simp only [fieldWrites, List.flatten_cons, List.flatten_nil, List.length_append, List.length_nil]
  omega

/-- **The length of a record**: nine fields of one head each, and the
layers. -/
theorem length_marshalHead_le (h64 : h.Int64) (hlen : h.layerOffsets.length < 2 ^ 63) :
    (marshalHead h).length ≤ 274 + 9 * h.layerOffsets.length := by
  have hint : ∀ n < 2 ^ 63, (C.writeMajorTypeHeader 0 n).length ≤ 9 := fun n hn =>
    length_header_le 0 n (by omega) (by omega)
  have h1 := length_field_le nameValid (by decide) (length_writeBool_le h.valid)
  have h2 := length_field_le nameDataEnd (by decide) (hint _ h64.dataEnd)
  have h3 := length_field_le nameVersion (by decide) (hint 0 (by omega))
  have h4 := length_field_le nameExternal (by decide) (length_writeBool_le h.isExternal)
  have h5 := length_field_le nameReadOnly (by decide) (length_writeBool_le h.readOnly)
  have h6 := length_field_le nameDataStart (by decide) (hint _ h64.dataStart)
  have h7 := length_field_le nameFinalized (by decide) (length_writeBool_le h.finalized)
  have h8 := length_field_le nameOffloaded (by decide) (length_writeBool_le h.offloaded)
  have h9 := length_field_le nameRetiredAt (by decide) (hint _ h64.retiredAt)
  have hlayers := length_layers_le h64.layerOffsets
  have harray := length_header_le 4 h.layerOffsets.length (by omega) (by omega)
  have hname := length_header_le 3 nameLayerOffsets.length (by omega) (by decide)
  have hten : nameLayerOffsets.length = 12 := rfl
  have hlast : (fieldWrites (nameLayerOffsets, C.writeMajorTypeHeader 4 h.layerOffsets.length ::
      h.layerOffsets.map (C.writeMajorTypeHeader 0))).flatten.length ≤
        30 + 9 * h.layerOffsets.length := by
    simp only [fieldWrites, List.flatten_cons, List.length_append]
    omega
  simp only [marshalHead, headWrites, headFields, List.flatMap_cons, List.flatMap_nil,
    List.flatten_cons, List.flatten_append, List.length_append, List.length_cons, List.length_nil,
    List.append_nil]
  omega

/-- **A head with few layers is encoded in place.** -/
theorem encodeHead_eq (h64 : h.Int64) (hlayers : h.layerOffsets.length ≤ 26)
    (hmax : h.layerOffsets.length ≤ C.maxLength) :
    encodeHead h = some ⟨marshalHead h, false⟩ := by
  have hle := length_marshalHead_le h64 (by omega)
  unfold encodeHead
  rw [if_neg (by omega), foldl_write]
  · rfl
  · change 0 + (marshalHead h).length ≤ 512
    omega

/-! ## What is read back -/

/-- The field is read as what makes `h'` of `h`. -/
def ReadsField (h : Head) (f : Bytes × List Bytes) (h' : Head) : Prop :=
  ∀ rest, readHeadField h f.1 (f.2.flatten ++ rest) = some (h', rest)

/-- The fields are read one after the other. -/
def ReadsFields : Head → List (Bytes × List Bytes) → Head → Prop
  | h, [], h' => h = h'
  | h, f :: fs, h' => ∃ g, f.1.length ≤ 12 ∧ ReadsField h f g ∧ ReadsFields g fs h'

theorem readHeadFields_append (hmax : 12 ≤ C.maxLength) {fs : List (Bytes × List Bytes)}
    (hall : ReadsFields h fs h') (rest : Bytes) :
    readHeadFields fs.length h ((fs.flatMap fieldWrites).flatten ++ rest) = some h' := by
  induction fs generalizing h with
  | nil =>
    obtain rfl := hall
    rfl
  | cons f fs ih =>
    obtain ⟨g, hlen, hf, hfs⟩ := hall
    have hbytes : ((f :: fs).flatMap fieldWrites).flatten ++ rest =
        cborText f.1 ++ (f.2.flatten ++ ((fs.flatMap fieldWrites).flatten ++ rest)) := by
      rw [List.flatMap_cons, fieldWrites, C.writeMajorTypeHeader_eq 3 _ (by omega) (by omega),
        cborText]
      simp only [List.flatten_append, List.flatten_cons, List.append_assoc]
    rw [hbytes, List.length_cons, readHeadFields,
      C.readString_cborText _ _ (hlen.trans hmax)]
    simp only [Option.bind_eq_bind, Option.bind_some]
    rw [hf]
    exact ih hfs

theorem readInts_append {offs : List ℕ} (h64 : ∀ o ∈ offs, o < 2 ^ 63) (rest : Bytes) :
    readInts offs.length ((offs.map (C.writeMajorTypeHeader 0)).flatten ++ rest) =
      some (offs, rest) := by
  induction offs with
  | nil => rfl
  | cons o offs ih =>
    obtain ⟨ho, hoffs⟩ := List.forall_mem_cons.mp h64
    rw [List.map_cons, List.flatten_cons, List.append_assoc, List.length_cons, readInts,
      Bsst.readInt64_append ho]
    simp only [Option.bind_eq_bind, Option.bind_some]
    rw [ih hoffs]
    rfl

theorem readLayerOffsets_append {offs : List ℕ} (h64 : ∀ o ∈ offs, o < 2 ^ 63)
    (hlen : offs.length < 2 ^ 63) (hmax : offs.length ≤ C.maxLength) (rest : Bytes) :
    readLayerOffsets ((C.writeMajorTypeHeader 4 offs.length ::
      offs.map (C.writeMajorTypeHeader 0)).flatten ++ rest) = some (offs, rest) := by
  rw [List.flatten_cons, List.append_assoc, C.writeMajorTypeHeader_eq 4 _ (by omega) (by omega),
    readLayerOffsets, C.readHeader_cborHead 4 _ _ (by omega) (by omega)]
  simp only [Option.bind_eq_bind, Option.bind_some]
  rw [if_neg (by omega)]
  exact readInts_append h64 rest

theorem readFinalized_one (b : Bool) (rest : Bytes) :
    Bsst.readFinalized ([C.writeBool b].flatten ++ rest) = some (b, rest) := by
  rw [List.flatten_singleton]
  exact Bsst.readFinalized_append b rest

theorem readInt64_one {n : ℕ} (hn : n < 2 ^ 63) (rest : Bytes) :
    Bsst.readInt64 ([C.writeMajorTypeHeader 0 n].flatten ++ rest) = some ((n : ℤ), rest) := by
  rw [List.flatten_singleton]
  exact Bsst.readInt64_append hn rest

section

variable (h) (bs : Bytes)

theorem readHeadField_valid : readHeadField h nameValid bs =
    (Bsst.readFinalized bs).map fun r => ({ h with valid := r.1 }, r.2) := by
  rw [readHeadField, if_pos rfl]

theorem readHeadField_dataEnd : readHeadField h nameDataEnd bs =
    (Bsst.readInt64 bs).map fun r => ({ h with dataEnd := r.1.toNat }, r.2) := by
  rw [readHeadField, if_neg (by decide), if_pos rfl]

theorem readHeadField_version : readHeadField h nameVersion bs =
    (Bsst.readInt64 bs).map fun r => (h, r.2) := by
  rw [readHeadField, if_neg (by decide), if_neg (by decide), if_pos rfl]

theorem readHeadField_external : readHeadField h nameExternal bs =
    (Bsst.readFinalized bs).map fun r => ({ h with isExternal := r.1 }, r.2) := by
  rw [readHeadField, if_neg (by decide), if_neg (by decide), if_neg (by decide), if_pos rfl]

theorem readHeadField_readOnly : readHeadField h nameReadOnly bs =
    (Bsst.readFinalized bs).map fun r => ({ h with readOnly := r.1 }, r.2) := by
  rw [readHeadField, if_neg (by decide), if_neg (by decide), if_neg (by decide),
    if_neg (by decide), if_pos rfl]

theorem readHeadField_dataStart : readHeadField h nameDataStart bs =
    (Bsst.readInt64 bs).map fun r => ({ h with dataStart := r.1.toNat }, r.2) := by
  rw [readHeadField, if_neg (by decide), if_neg (by decide), if_neg (by decide),
    if_neg (by decide), if_neg (by decide), if_pos rfl]

theorem readHeadField_finalized : readHeadField h nameFinalized bs =
    (Bsst.readFinalized bs).map fun r => ({ h with finalized := r.1 }, r.2) := by
  rw [readHeadField, if_neg (by decide), if_neg (by decide), if_neg (by decide),
    if_neg (by decide), if_neg (by decide), if_neg (by decide), if_pos rfl]

theorem readHeadField_offloaded : readHeadField h nameOffloaded bs =
    (Bsst.readFinalized bs).map fun r => ({ h with offloaded := r.1 }, r.2) := by
  rw [readHeadField, if_neg (by decide), if_neg (by decide), if_neg (by decide),
    if_neg (by decide), if_neg (by decide), if_neg (by decide), if_neg (by decide), if_pos rfl]

theorem readHeadField_retiredAt : readHeadField h nameRetiredAt bs =
    (Bsst.readInt64 bs).map fun r => ({ h with retiredAt := r.1.toNat }, r.2) := by
  rw [readHeadField, if_neg (by decide), if_neg (by decide), if_neg (by decide),
    if_neg (by decide), if_neg (by decide), if_neg (by decide), if_neg (by decide),
    if_neg (by decide), if_pos rfl]

theorem readHeadField_layerOffsets : readHeadField h nameLayerOffsets bs =
    (readLayerOffsets bs).map fun r => ({ h with layerOffsets := r.1 }, r.2) := by
  rw [readHeadField, if_neg (by decide), if_neg (by decide), if_neg (by decide),
    if_neg (by decide), if_neg (by decide), if_neg (by decide), if_neg (by decide),
    if_neg (by decide), if_neg (by decide), if_pos rfl]

end

/-- **The fields of a head are read back.** -/
theorem readsFields_headFields (h64 : h.Int64) (hlen : h.layerOffsets.length < 2 ^ 63)
    (hmax : h.layerOffsets.length ≤ C.maxLength) :
    ReadsFields zeroHead (headFields h) h := by
  refine ⟨{ zeroHead with valid := h.valid }, by simp [nameValid], fun rest => ?_,
    { zeroHead with valid := h.valid, dataEnd := h.dataEnd }, by simp [nameDataEnd],
    fun rest => ?_,
    { zeroHead with valid := h.valid, dataEnd := h.dataEnd }, by simp [nameVersion],
    fun rest => ?_,
    { zeroHead with valid := h.valid, dataEnd := h.dataEnd, isExternal := h.isExternal },
    by simp [nameExternal], fun rest => ?_,
    { zeroHead with
      valid := h.valid, dataEnd := h.dataEnd, isExternal := h.isExternal, readOnly := h.readOnly },
    by simp [nameReadOnly], fun rest => ?_,
    { h with finalized := false, offloaded := false, retiredAt := 0, layerOffsets := [] },
    by simp [nameDataStart], fun rest => ?_,
    { h with offloaded := false, retiredAt := 0, layerOffsets := [] },
    by simp [nameFinalized], fun rest => ?_,
    { h with retiredAt := 0, layerOffsets := [] }, by simp [nameOffloaded], fun rest => ?_,
    { h with layerOffsets := [] }, by simp [nameRetiredAt], fun rest => ?_,
    h, by simp [nameLayerOffsets], fun rest => ?_, rfl⟩
  · exact (readHeadField_valid ..).trans (by rw [readFinalized_one]; rfl)
  · exact (readHeadField_dataEnd ..).trans (by rw [readInt64_one h64.dataEnd]; rfl)
  · exact (readHeadField_version ..).trans (by rw [readInt64_one (by omega)]; rfl)
  · exact (readHeadField_external ..).trans (by rw [readFinalized_one]; rfl)
  · exact (readHeadField_readOnly ..).trans (by rw [readFinalized_one]; rfl)
  · exact (readHeadField_dataStart ..).trans (by rw [readInt64_one h64.dataStart]; rfl)
  · exact (readHeadField_finalized ..).trans (by rw [readFinalized_one]; rfl)
  · exact (readHeadField_offloaded ..).trans (by rw [readFinalized_one]; rfl)
  · exact (readHeadField_retiredAt ..).trans (by rw [readInt64_one h64.retiredAt]; rfl)
  · exact (readHeadField_layerOffsets ..).trans (by
      rw [readLayerOffsets_append h64.layerOffsets hlen hmax]
      rfl)

/-- **A record is read back**, whatever follows it. -/
theorem unmarshalHead_marshalHead (h12 : 12 ≤ C.maxLength) (h64 : h.Int64)
    (hlen : h.layerOffsets.length < 2 ^ 63) (hmax : h.layerOffsets.length ≤ C.maxLength)
    (rest : Bytes) : unmarshalHead (marshalHead h ++ rest) = some h := by
  have hmap : ∀ bs, C.readHeader (170 :: bs) = some (5, 10, bs) := fun bs =>
    C.readHeader_cborHead 5 10 bs (by omega) (by omega)
  unfold unmarshalHead marshalHead headWrites
  rw [List.flatten_cons, List.append_assoc, List.singleton_append, hmap]
  simp only [Option.bind_eq_bind, Option.bind_some]
  rw [if_neg (by omega)]
  exact readHeadFields_append h12 (readsFields_headFields h64 hlen hmax) rest

end Carlog

end Ribs
