import Ribs.Bsst.Format
import Ribs.Common.Cbor
/-!
# BSST — the generated CBOR of the header

`MarshalCBOR` writes a map of seven fields; `UnmarshalCBOR` reads as many
fields as the map says it has, in any order, and passes over names it
does not know. A header that is torn and goes on with zeros is not read,
or only its last field, the level factor, is lost.
-/

namespace Ribs

open Common

namespace Bsst

/-- **What the generated code takes from outside**, the CBOR of `cbg`: heads
are written as they are in CBOR, and nothing else is read as a head. -/
class CborGen where
  maxLength : ℕ
  byteArrayMaxLen : ℕ
  le_maxLength : 11 ≤ maxLength
  le_byteArrayMaxLen : 32 ≤ byteArrayMaxLen
  /-- `CborWriter.WriteMajorTypeHeader`. -/
  writeMajorTypeHeader : ℕ → ℕ → Bytes
  writeMajorTypeHeader_eq : ∀ maj n, maj < 8 → n < 2 ^ 64 → writeMajorTypeHeader maj n = cborHead maj n
  writeBool : Bool → Bytes
  writeBool_eq : ∀ b, writeBool b = cborHead 7 (if b then 21 else 20)
  /-- `CborReader.ReadHeader`: the major type, the number, and what follows. -/
  readHeader : Bytes → Option (ℕ × ℕ × Bytes)
  readHeader_cborHead : ∀ maj n rest, maj < 8 → n < 2 ^ 64 →
    readHeader (cborHead maj n ++ rest) = some (maj, n, rest)
  readHeader_sound : ∀ bs maj n rest, readHeader bs = some (maj, n, rest) →
    readCborHead maj bs = some (n, rest)
  /-- `ReadString`. -/
  readString : Bytes → Option (Bytes × Bytes)
  readString_cborText : ∀ s rest, s.length ≤ maxLength → readString (cborText s ++ rest) = some (s, rest)
  readString_sound : ∀ bs s rest, readString bs = some (s, rest) →
    ∃ n tail, readCborHead 3 bs = some (n, tail) ∧ takeBytes n tail = some (s, rest)
  /-- What `ScanForLinks` leaves: it passes over one item. -/
  scanForLinks : Bytes → Bytes
  scanForLinks_zero : ∀ rest, scanForLinks (0 :: rest) = rest

/-! ## The names of the fields -/

/-- `"Salt"`. -/
def nameSalt : Bytes := [0x53, 0x61, 0x6c, 0x74]

/-- `"Levels"`. -/
def nameLevels : Bytes := [0x4c, 0x65, 0x76, 0x65, 0x6c, 0x73]

/-- `"Entries"`. -/
def nameEntries : Bytes := [0x45, 0x6e, 0x74, 0x72, 0x69, 0x65, 0x73]

/-- `"Finalized"`. -/
def nameFinalized : Bytes := [0x46, 0x69, 0x6e, 0x61, 0x6c, 0x69, 0x7a, 0x65, 0x64]

/-- `"L0Buckets"`. -/
def nameL0Buckets : Bytes := [0x4c, 0x30, 0x42, 0x75, 0x63, 0x6b, 0x65, 0x74, 0x73]

/-- `"BucketSize"`. -/
def nameBucketSize : Bytes := [0x42, 0x75, 0x63, 0x6b, 0x65, 0x74, 0x53, 0x69, 0x7a, 0x65]

/-- `"LevelFactor"`. -/
def nameLevelFactor : Bytes := [0x4c, 0x65, 0x76, 0x65, 0x6c, 0x46, 0x61, 0x63, 0x74, 0x6f, 0x72]

variable [C : CborGen]

/-! ## Writing -/

/-- A field: its name, a text string, and its value. -/
def writeField (f : Bytes × Bytes) : Bytes := C.writeMajorTypeHeader 3 f.1.length ++ f.1 ++ f.2

/-- The fields in the order they are written, each with its value. -/
def fields (h : BSSTHeader) : List (Bytes × Bytes) :=
  [(nameSalt, C.writeMajorTypeHeader 2 h.salt.1.length ++ h.salt.1),
    (nameLevels, C.writeMajorTypeHeader 0 h.levels),
    (nameEntries, C.writeMajorTypeHeader 0 h.entries),
    (nameFinalized, C.writeBool h.finalized),
    (nameL0Buckets, C.writeMajorTypeHeader 0 h.l0Buckets),
    (nameBucketSize, C.writeMajorTypeHeader 0 h.bucketSize),
    (nameLevelFactor, C.writeMajorTypeHeader 0 h.levelFactor)]

/-- `MarshalCBOR`. The integers of a header are not negative. -/
def marshalCBOR (h : BSSTHeader) : Bytes := 167 :: (fields h).flatMap writeField

/-! ## Reading -/

/-- The value of an `int64` field. -/
def readInt64 (bs : Bytes) : Option (ℤ × Bytes) := do
  let (maj, extra, bs) ← C.readHeader bs
  if maj = 0 then
    if 2 ^ 63 ≤ extra then none else some (extra, bs)
  else if maj = 1 then
    if 2 ^ 63 ≤ extra then none else some (-1 - extra, bs)
  else none

/-- The value of the salt. -/
def readSalt (bs : Bytes) : Option (Digest × Bytes) := do
  let (maj, extra, bs) ← C.readHeader bs
  if C.byteArrayMaxLen < extra ∨ maj ≠ 2 ∨ extra ≠ 32 then none
  else
    if h : (bs.take 32).length = 32 then some (⟨bs.take 32, h⟩, bs.drop 32) else none

def readFinalized (bs : Bytes) : Option (Bool × Bytes) := do
  let (maj, extra, bs) ← C.readHeader bs
  if maj ≠ 7 then none
  else if extra = 20 then some (false, bs)
  else if extra = 21 then some (true, bs)
  else none

/-- The `switch` over the name. A negative number of levels is as good as
none, and a number of buckets is converted to `uint64` where it is used. -/
def readField (h : BSSTHeader) (name bs : Bytes) : Option (BSSTHeader × Bytes) :=
  if name = nameSalt then (readSalt bs).map fun r => ({ h with salt := r.1 }, r.2)
  else if name = nameLevels then (readInt64 bs).map fun r => ({ h with levels := r.1.toNat }, r.2)
  else if name = nameEntries then (readInt64 bs).map fun r => ({ h with entries := r.1.toNat }, r.2)
  else if name = nameFinalized then
    (readFinalized bs).map fun r => ({ h with finalized := r.1 }, r.2)
  else if name = nameL0Buckets then
    (readInt64 bs).map fun r => ({ h with l0Buckets := (r.1 % 2 ^ 64).toNat }, r.2)
  else if name = nameBucketSize then
    (readInt64 bs).map fun r => ({ h with bucketSize := r.1.toNat }, r.2)
  else if name = nameLevelFactor then
    (readInt64 bs).map fun r => ({ h with levelFactor := r.1.toNat }, r.2)
  else some (h, C.scanForLinks bs)

/-- A round of the loop. -/
def nextField (h : BSSTHeader) (bs : Bytes) : Option (BSSTHeader × Bytes) :=
  (C.readString bs).bind fun r => readField h r.1 r.2

/-- `for i := uint64(0); i < n; i++`. -/
def unmarshalFields : ℕ → BSSTHeader → Bytes → Option BSSTHeader
  | 0, h, _ => some h
  | n + 1, h, bs => (nextField h bs).bind fun r => unmarshalFields n r.1 r.2

/-- `BSSTHeader{}`. -/
def zeroHeader : BSSTHeader := ⟨0, 0, 0, ⟨List.replicate 32 0, length_zeroDigest⟩, 0, 0, false⟩

/-- `UnmarshalCBOR`. -/
def unmarshalCBOR (bs : Bytes) : Option BSSTHeader := do
  let (maj, extra, bs) ← C.readHeader bs
  if maj ≠ 5 ∨ C.maxLength < extra then none
  else unmarshalFields extra zeroHeader bs

section

variable (h : BSSTHeader) (bs : Bytes)

theorem readField_salt : readField h nameSalt bs =
    (readSalt bs).map fun r => ({ h with salt := r.1 }, r.2) := by
  rw [readField, if_pos rfl]

theorem readField_levels : readField h nameLevels bs =
    (readInt64 bs).map fun r => ({ h with levels := r.1.toNat }, r.2) := by
  rw [readField, if_neg (by decide), if_pos rfl]

theorem readField_entries : readField h nameEntries bs =
    (readInt64 bs).map fun r => ({ h with entries := r.1.toNat }, r.2) := by
  rw [readField, if_neg (by decide), if_neg (by decide), if_pos rfl]

theorem readField_finalized : readField h nameFinalized bs =
    (readFinalized bs).map fun r => ({ h with finalized := r.1 }, r.2) := by
  rw [readField, if_neg (by decide), if_neg (by decide), if_neg (by decide), if_pos rfl]

theorem readField_l0Buckets : readField h nameL0Buckets bs =
    (readInt64 bs).map fun r => ({ h with l0Buckets := (r.1 % 2 ^ 64).toNat }, r.2) := by
  rw [readField, if_neg (by decide), if_neg (by decide), if_neg (by decide), if_neg (by decide),
    if_pos rfl]

theorem readField_bucketSize : readField h nameBucketSize bs =
    (readInt64 bs).map fun r => ({ h with bucketSize := r.1.toNat }, r.2) := by
  rw [readField, if_neg (by decide), if_neg (by decide), if_neg (by decide), if_neg (by decide),
    if_neg (by decide), if_pos rfl]

theorem readField_levelFactor : readField h nameLevelFactor bs =
    (readInt64 bs).map fun r => ({ h with levelFactor := r.1.toNat }, r.2) := by
  rw [readField, if_neg (by decide), if_neg (by decide), if_neg (by decide), if_neg (by decide),
    if_neg (by decide), if_neg (by decide), if_pos rfl]

/-- A name with a zero is that of no field. -/
theorem readField_of_zero_mem {name : Bytes} (hzero : 0 ∈ name) :
    readField h name bs = some (h, C.scanForLinks bs) := by
  have hne : ∀ other : Bytes, 0 ∉ other → name ≠ other := fun _ hnot heq => hnot (heq ▸ hzero)
  rw [readField, if_neg (hne _ (by decide)), if_neg (hne _ (by decide)), if_neg (hne _ (by decide)),
    if_neg (hne _ (by decide)), if_neg (hne _ (by decide)), if_neg (hne _ (by decide)),
    if_neg (hne _ (by decide))]

end

/-! ## A header that is whole -/

variable {h h' : BSSTHeader} {f : Bytes × Bytes} {name value bs rest : Bytes} {m : ℕ}

/-- The field is read as what makes `h'` of `h`. -/
def Reads (h : BSSTHeader) (f : Bytes × Bytes) (h' : BSSTHeader) : Prop :=
  ∀ rest, readField h f.1 (f.2 ++ rest) = some (h', rest)

/-- The fields are read one after the other. -/
def ReadsAll : BSSTHeader → List (Bytes × Bytes) → BSSTHeader → Prop
  | h, [], h' => h = h'
  | h, f :: fs, h' => ∃ g, f.1.length ≤ 11 ∧ Reads h f g ∧ ReadsAll g fs h'

theorem writeField_eq (hlen : f.1.length ≤ 11) : writeField f = cborText f.1 ++ f.2 := by
  rw [writeField, C.writeMajorTypeHeader_eq 3 _ (by omega) (by omega), cborText]

theorem nextField_writeField (hlen : f.1.length ≤ 11) (bs : Bytes) :
    nextField h (cborText f.1 ++ bs) = readField h f.1 bs := by
  rw [nextField, C.readString_cborText _ _ (hlen.trans C.le_maxLength)]
  rfl

theorem unmarshalFields_append {fs : List (Bytes × Bytes)} (hall : ReadsAll h fs h') (rest : Bytes) :
    unmarshalFields fs.length h (fs.flatMap writeField ++ rest) = some h' := by
  induction fs generalizing h with
  | nil =>
    obtain rfl := hall
    rfl
  | cons f fs ih =>
    obtain ⟨g, hlen, hf, hfs⟩ := hall
    rw [List.flatMap_cons, writeField_eq hlen, List.append_assoc, List.append_assoc,
      List.length_cons, unmarshalFields, nextField_writeField hlen, hf]
    exact ih hfs

theorem readInt64_append {n : ℕ} (hn : n < 2 ^ 63) (rest : Bytes) :
    readInt64 (C.writeMajorTypeHeader 0 n ++ rest) = some ((n : ℤ), rest) := by
  rw [C.writeMajorTypeHeader_eq 0 n (by omega) (by omega), readInt64,
    C.readHeader_cborHead 0 n rest (by omega) (by omega)]
  simpa using hn

theorem readSalt_append (salt : Digest) (rest : Bytes) :
    readSalt (C.writeMajorTypeHeader 2 salt.1.length ++ salt.1 ++ rest) = some (salt, rest) := by
  have hlen := salt.2
  have hmax := C.le_byteArrayMaxLen
  rw [hlen, C.writeMajorTypeHeader_eq 2 32 (by omega) (by omega), List.append_assoc, readSalt,
    C.readHeader_cborHead 2 32 _ (by omega) (by omega)]
  simp [Nat.not_lt.mpr hmax, List.take_left' hlen, List.drop_left' hlen, hlen]

theorem readFinalized_append (b : Bool) (rest : Bytes) :
    readFinalized (C.writeBool b ++ rest) = some (b, rest) := by
  rw [C.writeBool_eq, readFinalized, C.readHeader_cborHead 7 _ rest (by omega) (by split <;> omega)]
  cases b <;> rfl

/-- The fields but the last, of the header so far. -/
theorem readsAll_init (hfits : h.Fits) :
    ReadsAll zeroHeader (fields h).dropLast { h with levelFactor := 0 } := by
  have h64 : ((h.l0Buckets : ℤ) % 2 ^ 64).toNat = h.l0Buckets := by
    have := hfits.l0Buckets
    omega
  refine ⟨{ zeroHeader with salt := h.salt }, by simp [nameSalt], fun rest => ?_,
    { zeroHeader with salt := h.salt, levels := h.levels }, by simp [nameLevels], fun rest => ?_,
    { zeroHeader with salt := h.salt, levels := h.levels, entries := h.entries },
    by simp [nameEntries], fun rest => ?_,
    { zeroHeader with
      salt := h.salt, levels := h.levels, entries := h.entries, finalized := h.finalized },
    by simp [nameFinalized], fun rest => ?_,
    { h with bucketSize := 0, levelFactor := 0 }, by simp [nameL0Buckets], fun rest => ?_,
    { h with levelFactor := 0 }, by simp [nameBucketSize], fun rest => ?_, rfl⟩
  · exact (readField_salt ..).trans (by rw [readSalt_append]; rfl)
  · exact (readField_levels ..).trans (by rw [readInt64_append hfits.levels]; rfl)
  · exact (readField_entries ..).trans (by rw [readInt64_append hfits.entries]; rfl)
  · exact (readField_finalized ..).trans (by rw [readFinalized_append]; rfl)
  · exact (readField_l0Buckets ..).trans (by
      rw [readInt64_append hfits.l0Buckets, Option.map_some, h64]
      rfl)
  · exact (readField_bucketSize ..).trans (by rw [readInt64_append hfits.bucketSize]; rfl)

theorem ReadsAll.concat {fs : List (Bytes × Bytes)} {g : BSSTHeader} (hall : ReadsAll h fs g)
    (hlen : f.1.length ≤ 11) (hf : Reads g f h') : ReadsAll h (fs ++ [f]) h' := by
  induction fs generalizing h with
  | nil =>
    obtain rfl := hall
    exact ⟨h', hlen, hf, rfl⟩
  | cons f' fs ih =>
    obtain ⟨g', hlen', hf', hfs⟩ := hall
    exact ⟨g', hlen', hf', ih hfs⟩

/-- The field that is written last. -/
def lastField (h : BSSTHeader) : Bytes × Bytes :=
  (nameLevelFactor, C.writeMajorTypeHeader 0 h.levelFactor)

theorem fields_eq (h : BSSTHeader) : fields h = (fields h).dropLast ++ [lastField h] := rfl

theorem readsAll_fields (hfits : h.Fits) : ReadsAll zeroHeader (fields h) h := by
  rw [fields_eq]
  refine (readsAll_init hfits).concat (by simp [lastField, nameLevelFactor]) fun rest => ?_
  exact (readField_levelFactor ..).trans (by
    rw [lastField, readInt64_append hfits.levelFactor]
    rfl)

/-- The map's head. -/
theorem unmarshalCBOR_cons (bs : Bytes) : unmarshalCBOR (167 :: bs) =
    unmarshalFields 7 zeroHeader bs := by
  have hhead : C.readHeader (167 :: bs) = some (5, 7, bs) :=
    C.readHeader_cborHead 5 7 bs (by omega) (by omega)
  have hmax := C.le_maxLength
  rw [unmarshalCBOR, hhead]
  change (if (5 : ℕ) ≠ 5 ∨ C.maxLength < 7 then none else _) = _
  rw [if_neg (by omega)]

/-- **The header is read back**, whatever follows it. -/
theorem unmarshalCBOR_marshalCBOR (hfits : h.Fits) (rest : Bytes) :
    unmarshalCBOR (marshalCBOR h ++ rest) = some h := by
  rw [marshalCBOR, List.cons_append, unmarshalCBOR_cons]
  exact unmarshalFields_append (readsAll_fields hfits) rest

theorem length_marshalCBOR (hfits : h.Fits) : (marshalCBOR h).length ≤ 512 := by
  have hhead : ∀ maj n, maj < 8 → n < 2 ^ 64 → (C.writeMajorTypeHeader maj n).length ≤ 9 :=
    fun maj n hmaj hn => by
      rw [C.writeMajorTypeHeader_eq maj n hmaj hn]
      exact length_cborHead_le maj n
  have hfield : ∀ f : Bytes × Bytes, f.1.length ≤ 11 → f.2.length ≤ 41 →
      (writeField f).length ≤ 61 := fun f hname hvalue => by
    have := hhead 3 f.1.length (by omega) (by omega)
    rw [writeField, List.length_append, List.length_append]
    omega
  have hint : ∀ n < 2 ^ 63, (C.writeMajorTypeHeader 0 n).length ≤ 41 := fun n hn =>
    (hhead 0 n (by omega) (by omega)).trans (by omega)
  have hsalt : (C.writeMajorTypeHeader 2 h.salt.1.length ++ h.salt.1).length ≤ 41 := by
    have := hhead 2 h.salt.1.length (by omega) (by rw [h.salt.2]; omega)
    rw [List.length_append, h.salt.2] at *
    omega
  have hbool : (C.writeBool h.finalized).length ≤ 41 := by
    rw [C.writeBool_eq]
    exact (length_cborHead_le _ _).trans (by omega)
  have h1 := hfield (nameSalt, _) (by simp [nameSalt]) hsalt
  have h2 := hfield (nameLevels, _) (by simp [nameLevels]) (hint _ hfits.levels)
  have h3 := hfield (nameEntries, _) (by simp [nameEntries]) (hint _ hfits.entries)
  have h4 := hfield (nameFinalized, _) (by simp [nameFinalized]) hbool
  have h5 := hfield (nameL0Buckets, _) (by simp [nameL0Buckets]) (hint _ hfits.l0Buckets)
  have h6 := hfield (nameBucketSize, _) (by simp [nameBucketSize]) (hint _ hfits.bucketSize)
  have h7 := hfield (nameLevelFactor, _) (by simp [nameLevelFactor]) (hint _ hfits.levelFactor)
  simp only [marshalCBOR, fields, List.flatMap_cons, List.flatMap_nil, List.length_cons,
    List.length_append, List.length_nil]
  omega

/-! ## A header that is torn -/

/-- What the file holds where nothing was written. -/
def zeros (m : ℕ) : Bytes := List.replicate m 0

omit C in
@[simp] theorem length_zeros (m : ℕ) : (zeros m).length = m := List.length_replicate

omit C in
theorem zeros_succ (m : ℕ) : zeros (m + 1) = 0 :: zeros m := rfl

omit C in
@[simp] theorem drop_zeros (n m : ℕ) : (zeros m).drop n = zeros (m - n) := List.drop_replicate

theorem readHeader_zeros : C.readHeader (zeros (m + 1)) = some (0, 0, zeros m) :=
  C.readHeader_cborHead 0 0 _ (by omega) (by omega)

/-- A zero is no string. -/
theorem nextField_zeros : nextField h (zeros (m + 1)) = none := by
  rw [nextField]
  rcases hs : C.readString (zeros (m + 1)) with _ | ⟨s, rest⟩
  · rfl
  · obtain ⟨n, tail, hread, -⟩ := C.readString_sound _ _ _ hs
    exact absurd (drop_of_readCborHead hread).1 (by decide)

/-- **A torn head is followed by zeros.** -/
theorem readHeader_torn {maj n maj' n' : ℕ} (hmaj : maj < 8) (j : ℕ) (hm : 0 < m)
    (hread : C.readHeader ((cborHead maj n).take j ++ zeros m) = some (maj', n', rest)) :
    ∃ m', m ≤ m' + 9 ∧ rest = zeros m' := by
  have hsound := C.readHeader_sound _ _ _ _ hread
  obtain ⟨b, tail, hhead, -, htail⟩ := cborHead_eq_cons hmaj n
  have hle := length_cborHead_le maj n
  rw [hhead, List.length_cons] at hle
  rcases j with _ | j
  · obtain ⟨m, rfl⟩ : ∃ k, m = k + 1 := ⟨m - 1, by omega⟩
    rw [List.take_zero, List.nil_append, zeros_succ] at hsound
    exact ⟨m, by omega, (drop_of_readCborHead hsound).2⟩
  · rw [hhead, List.take_succ_cons, List.cons_append] at hsound
    refine ⟨m - (tail.length - (tail.take j).length), by omega, ?_⟩
    rw [(drop_of_readCborHead hsound).2, ← htail, List.drop_append, drop_zeros,
      List.drop_of_length_le (by rw [List.length_take]; omega), List.nil_append]

/-- **What a torn field is like**: its name has no zero, and behind what is
left of its value, however that is read, there are zeros. -/
structure Tearable (f : Bytes × Bytes) : Prop where
  length_name : f.1.length ≤ 11
  name : 0 ∉ f.1
  value : ∀ h j m h' rest, 0 < m → readField h f.1 (f.2.take j ++ zeros m) = some (h', rest) →
    ∃ m', m ≤ m' + 41 ∧ rest = zeros m'

theorem readInt64_torn {n : ℕ} (hn : n < 2 ^ 64) (j : ℕ) (hm : 0 < m) {x : ℤ}
    (hread : readInt64 ((C.writeMajorTypeHeader 0 n).take j ++ zeros m) = some (x, rest)) :
    ∃ m', m ≤ m' + 41 ∧ rest = zeros m' := by
  rw [C.writeMajorTypeHeader_eq 0 n (by omega) hn, readInt64] at hread
  rcases hhead : C.readHeader ((cborHead 0 n).take j ++ zeros m) with _ | ⟨maj, extra, bs⟩
  · simp [hhead] at hread
  obtain ⟨m', hm', rfl⟩ := readHeader_torn (by omega) j hm hhead
  rw [hhead] at hread
  refine ⟨m', by omega, ?_⟩
  simp only [Option.bind_eq_bind, Option.bind_some] at hread
  split_ifs at hread <;> exact (Prod.mk.inj (Option.some.inj hread)).2.symm

theorem readFinalized_torn (b : Bool) (j : ℕ) (hm : 0 < m) {x : Bool}
    (hread : readFinalized ((C.writeBool b).take j ++ zeros m) = some (x, rest)) :
    ∃ m', m ≤ m' + 41 ∧ rest = zeros m' := by
  rw [C.writeBool_eq, readFinalized] at hread
  rcases hhead : C.readHeader ((cborHead 7 (if b then 21 else 20)).take j ++ zeros m) with
    _ | ⟨maj, extra, bs⟩
  · simp [hhead] at hread
  obtain ⟨m', hm', rfl⟩ := readHeader_torn (by omega) j hm hhead
  rw [hhead] at hread
  refine ⟨m', by omega, ?_⟩
  simp only [Option.bind_eq_bind, Option.bind_some] at hread
  split_ifs at hread <;> exact (Prod.mk.inj (Option.some.inj hread)).2.symm

theorem readSalt_torn (salt : Digest) (j : ℕ) (hm : 0 < m) {x : Digest}
    (hread : readSalt ((C.writeMajorTypeHeader 2 salt.1.length ++ salt.1).take j ++ zeros m) =
      some (x, rest)) : ∃ m', m ≤ m' + 41 ∧ rest = zeros m' := by
  have hlen := salt.2
  rw [hlen, C.writeMajorTypeHeader_eq 2 32 (by omega) (by omega), readSalt] at hread
  rcases hhead : C.readHeader ((cborHead 2 32 ++ salt.1).take j ++ zeros m) with
    _ | ⟨maj, extra, bs⟩
  · simp [hhead] at hread
  -- what follows the head is zeros, when the head is torn, or the torn salt
  obtain ⟨s, m', hs, hm', rfl⟩ : ∃ s m', s.length ≤ 32 ∧ m ≤ m' + 9 ∧ bs = s ++ zeros m' := by
    rcases Nat.lt_or_ge j (cborHead 2 32).length with hj | hj
    · rw [List.take_append_of_le_length hj.le] at hhead
      obtain ⟨m', hm', rfl⟩ := readHeader_torn (by omega) j hm hhead
      exact ⟨[], m', by simp, hm', rfl⟩
    · rw [List.take_append, List.take_of_length_le hj, List.append_assoc,
        C.readHeader_cborHead 2 32 _ (by omega) (by omega)] at hhead
      obtain ⟨-, h⟩ := Prod.mk.inj (Option.some.inj hhead)
      obtain ⟨-, rfl⟩ := Prod.mk.inj h
      exact ⟨salt.1.take (j - (cborHead 2 32).length), m, by rw [List.length_take]; omega, by omega,
        rfl⟩
  rw [hhead] at hread
  simp only [Option.bind_eq_bind, Option.bind_some] at hread
  split_ifs at hread
  obtain ⟨-, rfl⟩ := Prod.mk.inj (Option.some.inj hread)
  refine ⟨m' - (32 - s.length), by omega, ?_⟩
  rw [List.drop_append, List.drop_of_length_le hs, List.nil_append, drop_zeros]

/-- Every field of a header can be torn so. -/
theorem tearable_fields (hfits : h.Fits) : ∀ f ∈ fields h, Tearable f := by
  have hint : ∀ {name : Bytes} {n : ℕ} {s : BSSTHeader → ℤ → BSSTHeader}, name.length ≤ 11 →
      0 ∉ name → n < 2 ^ 63 → (∀ h bs, readField h name bs =
        (readInt64 bs).map fun r => (s h r.1, r.2)) →
      Tearable (name, C.writeMajorTypeHeader 0 n) := by
    intro name n s hlen hzero hn hset
    refine ⟨hlen, hzero, fun h j m h' rest hm hread => ?_⟩
    rw [hset] at hread
    obtain ⟨r, hr, heq⟩ := Option.map_eq_some_iff.mp hread
    obtain ⟨-, rfl⟩ := Prod.mk.inj heq
    exact readInt64_torn (by omega) j hm hr
  simp only [fields, List.forall_mem_cons, List.not_mem_nil, false_implies, implies_true, and_true]
  refine ⟨?_, ?_, ?_, ?_, ?_, ?_, ?_⟩
  · refine ⟨by simp [nameSalt], by simp [nameSalt], fun g j m h' rest hm hread => ?_⟩
    rw [readField_salt] at hread
    obtain ⟨r, hr, heq⟩ := Option.map_eq_some_iff.mp hread
    obtain ⟨-, rfl⟩ := Prod.mk.inj heq
    exact readSalt_torn _ j hm hr
  · exact hint (s := fun h x => { h with levels := x.toNat }) (by decide) (by decide)
      hfits.levels readField_levels
  · exact hint (s := fun h x => { h with entries := x.toNat }) (by decide) (by decide)
      hfits.entries readField_entries
  · refine ⟨by simp [nameFinalized], by simp [nameFinalized], fun g j m h' rest hm hread => ?_⟩
    rw [readField_finalized] at hread
    obtain ⟨r, hr, heq⟩ := Option.map_eq_some_iff.mp hread
    obtain ⟨-, rfl⟩ := Prod.mk.inj heq
    exact readFinalized_torn _ j hm hr
  · exact hint (s := fun h x => { h with l0Buckets := (x % 2 ^ 64).toNat }) (by decide) (by decide)
      hfits.l0Buckets readField_l0Buckets
  · exact hint (s := fun h x => { h with bucketSize := x.toNat }) (by decide) (by decide)
      hfits.bucketSize readField_bucketSize
  · exact hint (s := fun h x => { h with levelFactor := x.toNat }) (by decide) (by decide)
      hfits.levelFactor readField_levelFactor

/-- A torn text string is not read, or is read as one with a zero in it. -/
theorem readString_torn {s s' : Bytes} (hlen : s.length ≤ 11) {k : ℕ}
    (hk : k < (cborText s).length) (hm : 12 ≤ m)
    (hread : C.readString ((cborText s).take k ++ zeros m) = some (s', rest)) :
    0 ∈ s' ∧ ∃ m', m ≤ m' + 12 ∧ rest = zeros m' := by
  have hhead : cborHead 3 s.length = [(32 * 3 + s.length).toUInt8] := if_pos (by omega)
  rw [cborText, hhead, List.length_append, List.length_singleton] at hk
  obtain ⟨n, tail, hn, htail⟩ := C.readString_sound _ _ _ hread
  rcases k with _ | k
  · obtain ⟨m, rfl⟩ : ∃ k, m = k + 1 := ⟨m - 1, by omega⟩
    exact absurd (drop_of_readCborHead hn).1 (by decide)
  · rw [cborText, hhead, List.singleton_append, List.take_succ_cons, List.cons_append,
      ← List.singleton_append, ← hhead, readCborHead_cborHead (by omega) (by omega)] at hn
    obtain ⟨rfl, rfl⟩ := Prod.mk.inj (Option.some.inj hn)
    have hcut : (s.take k).length = k := by rw [List.length_take]; omega
    rw [takeBytes, if_neg (by rw [List.length_append, hcut, length_zeros]; omega)] at htail
    obtain ⟨rfl, rfl⟩ := Prod.mk.inj (Option.some.inj htail)
    refine ⟨?_, m - (s.length - k), by omega, ?_⟩
    · rw [List.take_append, hcut]
      refine List.mem_append_right _ ?_
      obtain ⟨i, hi⟩ : ∃ i, s.length - k = i + 1 := ⟨s.length - k - 1, by omega⟩
      obtain ⟨m, rfl⟩ : ∃ k, m = k + 1 := ⟨m - 1, by omega⟩
      rw [hi, zeros_succ, List.take_succ_cons]
      exact List.mem_cons_self
    · rw [List.drop_append, hcut, List.drop_of_length_le (by rw [hcut]; omega), List.nil_append,
        drop_zeros]

/-- **Behind a torn field** there are zeros, and the header is as it was, or
as what is left of the field makes it. -/
theorem nextField_torn (hf : Tearable f) {k : ℕ} (hm : 64 ≤ m)
    (hread : nextField h ((writeField f).take k ++ zeros m) = some (h', rest)) :
    ∃ m', rest = zeros (m' + 1) ∧ (h' = h ∨ ∃ bs, readField h f.1 bs = some (h', rest)) := by
  rw [writeField_eq hf.length_name] at hread
  rcases Nat.lt_or_ge k (cborText f.1).length with hname | hname
  · rw [List.take_append_of_le_length hname.le, nextField] at hread
    obtain ⟨⟨s, bs⟩, hs, hfield⟩ := Option.bind_eq_some_iff.mp hread
    obtain ⟨hzero, m', hm', rfl⟩ := readString_torn hf.length_name hname (by omega) hs
    obtain ⟨m', rfl⟩ : ∃ k, m' = k + 2 := ⟨m' - 2, by omega⟩
    rw [readField_of_zero_mem h _ hzero, zeros_succ, C.scanForLinks_zero] at hfield
    obtain ⟨rfl, rfl⟩ := Prod.mk.inj (Option.some.inj hfield)
    exact ⟨m', rfl, Or.inl rfl⟩
  · rw [List.take_append, List.take_of_length_le hname, List.append_assoc,
      nextField_writeField hf.length_name] at hread
    obtain ⟨m', hm', rfl⟩ := hf.value _ _ _ _ _ (by omega) hread
    obtain ⟨m', rfl⟩ : ∃ k, m' = k + 1 := ⟨m' - 1, by omega⟩
    exact ⟨m', rfl, Or.inr ⟨_, hread⟩⟩

/-- Only what the last field makes of it differs. -/
theorem unmarshalFields_torn {fs : List (Bytes × Bytes)} {g : BSSTHeader} (hall : ReadsAll h fs g)
    (hfs : ∀ f ∈ fs, Tearable f) (hf : Tearable f) {k : ℕ} (hm : 64 ≤ m)
    (hread : unmarshalFields (fs.length + 1) h
      (((fs ++ [f]).flatMap writeField).take k ++ zeros m) = some h') :
    h' = g ∨ ∃ bs rest, readField g f.1 bs = some (h', rest) := by
  induction fs generalizing h k with
  | nil =>
    obtain rfl := hall
    simp only [List.nil_append, List.flatMap_cons, List.flatMap_nil, List.append_nil] at hread
    obtain ⟨⟨g, rest⟩, hnext, hg⟩ := Option.bind_eq_some_iff.mp hread
    obtain rfl : g = h' := Option.some.inj hg
    obtain ⟨m', -, hg⟩ := nextField_torn hf hm hnext
    exact hg.imp_right fun ⟨bs, hbs⟩ => ⟨bs, rest, hbs⟩
  | cons f' fs ih =>
    obtain ⟨g', hlen, hreads, hall⟩ := hall
    obtain ⟨hf', hfs⟩ := List.forall_mem_cons.mp hfs
    rw [List.cons_append, List.flatMap_cons] at hread
    obtain ⟨⟨g'', rest⟩, hnext, hrest⟩ := Option.bind_eq_some_iff.mp hread
    rcases Nat.lt_or_ge k (writeField f').length with hfield | hfield
    · rw [List.take_append_of_le_length hfield.le] at hnext
      obtain ⟨m', rfl, -⟩ := nextField_torn hf' hm hnext
      rw [List.length_cons, unmarshalFields, nextField_zeros] at hrest
      exact absurd hrest (by simp)
    · rw [List.take_append, List.take_of_length_le hfield, List.append_assoc,
        writeField_eq hlen, List.append_assoc, nextField_writeField hlen, hreads] at hnext
      obtain ⟨rfl, rfl⟩ := Prod.mk.inj (Option.some.inj hnext)
      rw [← writeField_eq hlen] at hrest
      exact ih hall hfs hrest

/-- **A torn header** that is read lacks at most its level factor. -/
theorem unmarshalCBOR_torn (hfits : h.Fits) (k : ℕ) (hm : 64 ≤ m)
    (hread : unmarshalCBOR ((marshalCBOR h).take k ++ zeros m) = some h') :
    ∃ x, h' = { h with levelFactor := x } := by
  rcases k with _ | k
  · obtain ⟨m, rfl⟩ : ∃ k, m = k + 1 := ⟨m - 1, by omega⟩
    rw [List.take_zero, List.nil_append, unmarshalCBOR, readHeader_zeros] at hread
    exact absurd hread (by simp)
  · rw [marshalCBOR, List.take_succ_cons, List.cons_append, unmarshalCBOR_cons] at hread
    have htear := tearable_fields hfits
    rw [fields_eq] at hread htear
    have hinit : ∀ f ∈ (fields h).dropLast, Tearable f := fun f hf =>
      htear f (List.mem_append_left _ hf)
    have hlast := htear (lastField h) (by simp)
    rcases unmarshalFields_torn (readsAll_init hfits) hinit hlast hm hread with
      rfl | ⟨bs, rest, hbs⟩
    · exact ⟨0, rfl⟩
    · rw [lastField, readField_levelFactor] at hbs
      obtain ⟨r, -, heq⟩ := Option.map_eq_some_iff.mp hbs
      obtain ⟨rfl, -⟩ := Prod.mk.inj heq
      exact ⟨_, rfl⟩

/-- **What the package takes from outside, with the generated code** for the
header. -/
abbrev External.withCborGen (E : External) : External :=
  { E with
    marshal := marshalCBOR
    unmarshal := unmarshalCBOR
    length_marshal := fun _ hfits => (length_marshalCBOR hfits).trans (by omega)
    unmarshal_marshal := fun _ hfits rest => unmarshalCBOR_marshalCBOR hfits rest }

/-! ## The CBOR, to be evaluated -/

namespace Encoding

omit C

/-- A head in the fewest bytes that hold its number. -/
def readHeader : Bytes → Option (ℕ × ℕ × Bytes)
  | [] => none
  | b :: bs => (readCborHead (b.toNat / 32) (b :: bs)).bind fun r =>
    if (cborHead (b.toNat / 32) r.1).length + r.2.length = bs.length + 1 then
      some (b.toNat / 32, r.1, r.2)
    else none

def readString (bs : Bytes) : Option (Bytes × Bytes) :=
  (readHeader bs).bind fun r =>
    if r.1 = 3 ∧ r.2.1 ≤ 8192 then takeBytes r.2.1 r.2.2 else none

/-- What is left behind so many items. -/
def scanItems : ℕ → ℕ → Bytes → Bytes
  | 0, _, bs => bs
  | _ + 1, 0, bs => bs
  | fuel + 1, items + 1, bs =>
    match readHeader bs with
    | none => bs
    | some (maj, n, rest) =>
      if maj = 2 ∨ maj = 3 then scanItems fuel items (rest.drop n)
      else scanItems fuel (items + if maj = 4 then n else if maj = 5 then 2 * n else
        if maj = 6 then 1 else 0) rest

theorem readHeader_cborHead {maj n : ℕ} (rest : Bytes) (hmaj : maj < 8) (hn : n < 2 ^ 64) :
    readHeader (cborHead maj n ++ rest) = some (maj, n, rest) := by
  obtain ⟨b, tail, hhead, hb, -⟩ := cborHead_eq_cons hmaj n
  have hread := readCborHead_cborHead hmaj hn rest
  have hlen : (cborHead maj n).length + rest.length = (tail ++ rest).length + 1 := by
    rw [hhead, List.length_cons, List.length_append]
    omega
  rw [hhead, List.cons_append] at hread ⊢
  rw [readHeader, hb, hread]
  exact if_pos hlen

theorem readHeader_sound {bs : Bytes} {maj n : ℕ} {rest : Bytes}
    (h : readHeader bs = some (maj, n, rest)) : readCborHead maj bs = some (n, rest) := by
  cases bs with
  | nil => simp [readHeader] at h
  | cons b bs =>
    obtain ⟨r, hr, hif⟩ := Option.bind_eq_some_iff.mp h
    split_ifs at hif
    obtain ⟨rfl, hr'⟩ := Prod.mk.inj (Option.some.inj hif)
    obtain ⟨rfl, rfl⟩ := Prod.mk.inj hr'
    exact hr

scoped instance : CborGen where
  maxLength := 8192
  byteArrayMaxLen := 2 <<< 20
  le_maxLength := by decide
  le_byteArrayMaxLen := by decide
  writeMajorTypeHeader := cborHead
  writeMajorTypeHeader_eq _ _ _ _ := rfl
  writeBool b := cborHead 7 (if b then 21 else 20)
  writeBool_eq _ := rfl
  readHeader := readHeader
  readHeader_cborHead _ _ rest hmaj hn := readHeader_cborHead rest hmaj hn
  readHeader_sound _ _ _ _ := readHeader_sound
  readString := readString
  readString_cborText s rest hs := by
    rw [readString, cborText, List.append_assoc, readHeader_cborHead _ (by omega) (by omega)]
    exact (if_pos ⟨rfl, hs⟩).trans (takeBytes_append rfl rest)
  readString_sound bs s rest h := by
    obtain ⟨⟨maj, n, tail⟩, hhead, hif⟩ := Option.bind_eq_some_iff.mp h
    split_ifs at hif with hmaj
    obtain ⟨rfl, -⟩ := hmaj
    exact ⟨n, tail, readHeader_sound hhead, hif⟩
  scanForLinks bs := scanItems (bs.length + 1) 1 bs
  scanForLinks_zero rest := by
    have hread : readHeader (0 :: rest) = some (0, 0, rest) :=
      (readHeader_cborHead rest (by omega) (by omega) : readHeader (cborHead 0 0 ++ rest) = _)
    cases rest <;> simp [scanItems, hread]

end Encoding

end Bsst

end Ribs
