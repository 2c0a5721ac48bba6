import Ribs.Bsst.CborGen
import Ribs.Bsst.Encoding
import Ribs.Bsst.Exact
/-!
# BSST — files are all or nothing

A crash leaves what the first bytes of the writes of `Create` make of the
file. Until the finalized header is begun there are zeros in its place,
and `Open` takes them for no map; from then on the buckets are there.
-/

namespace Ribs

open Common

namespace Bsst

/-! ## Crashes -/

/-- Bytes written at an offset of a file that goes as far. -/
def writeAt (f : Bytes) (off : ℕ) (p : Bytes) : Bytes := f.take off ++ p ++ f.drop (off + p.length)

/-- What the first `n` bytes of writes, each at its offset, make of a file. -/
def writeFirst : ℕ → List (ℕ × Bytes) → Bytes → Bytes
  | _, [], f => f
  | n, (off, p) :: ws, f =>
    if n < p.length then writeAt f off (p.take n) else writeFirst (n - p.length) ws (writeAt f off p)

section

variable [X : External]

/-- The writes of `Create`, in program order: the header block, the buckets,
and the finalized header. -/
def createWrites (h : BSSTHeader) (out : Bytes) : List (ℕ × Bytes) :=
  [(0, hdrBuf), (bucketSize, out), (bsstMagic.length, X.marshal h)]

/-- **The file a crash leaves** of `Create`, after `n` bytes. -/
def crashed (salt : Digest) (entries : ℕ) (source : Source) (n : ℕ) : Except BuildError Bytes := do
  let (out, levels) ← buckets salt entries source
  return writeFirst n (createWrites (header salt entries levels) out) []

/-! ## What the file is -/

omit X in
theorem hdrBuf_eq : hdrBuf = bsstMagic ++ zeros 4088 := rfl

omit X in
@[simp] theorem length_hdrBuf : hdrBuf.length = bucketSize := by
  rw [hdrBuf_eq, List.length_append, length_zeros]
  rfl

omit X in
theorem writeAt_nil (p : Bytes) : writeAt [] 0 p = p := by simp [writeAt]

omit X in
theorem writeAt_length (f p : Bytes) : writeAt f f.length p = f ++ p := by simp [writeAt]

/-- The header block with `p` written behind the magic. -/
def hdrWith (p : Bytes) : Bytes := bsstMagic ++ (p ++ zeros (4088 - p.length))

omit X in
theorem length_hdrWith {p : Bytes} (hp : p.length ≤ 4088) : (hdrWith p).length = bucketSize := by
  simp only [hdrWith, List.length_append, length_zeros]
  change 8 + (p.length + (4088 - p.length)) = 4096
  omega

omit X in
theorem writeAt_hdrBuf {p : Bytes} (hp : p.length ≤ 4088) (out : Bytes) :
    writeAt (hdrBuf ++ out) bsstMagic.length p = hdrWith p ++ out := by
  rw [writeAt, hdrBuf_eq, List.append_assoc bsstMagic, List.take_left, ← List.drop_drop,
    List.drop_left, List.drop_append_of_le_length (by rw [length_zeros]; exact hp), drop_zeros,
    hdrWith]
  simp only [List.append_assoc]

/-- **Where a crash can be**: behind the header block there is nothing but a
part of the buckets, or the buckets and a part of the finalized header. -/
theorem writeFirst_createWrites {h : BSSTHeader} (hh : h.Fits) (out : Bytes) (n : ℕ) :
    (∃ k, writeFirst n (createWrites h out) [] = (hdrBuf ++ out).take k) ∨
      ∃ k, writeFirst n (createWrites h out) [] = hdrWith ((X.marshal h).take k) ++ out := by
  have hmarshal := X.length_marshal h hh
  rw [createWrites, writeFirst]
  split_ifs with hhdr
  · refine Or.inl ⟨n, ?_⟩
    rw [writeAt_nil, List.take_append_of_le_length hhdr.le]
  have hfile : writeAt (writeAt [] 0 hdrBuf) bucketSize out = hdrBuf ++ out := by
    rw [writeAt_nil, ← length_hdrBuf, writeAt_length]
  rw [writeFirst]
  split_ifs with hout
  · refine Or.inl ⟨n, ?_⟩
    rw [writeAt_nil, ← length_hdrBuf, writeAt_length, List.take_append,
      List.take_of_length_le (Nat.not_lt.mp hhdr)]
  rw [hfile, writeFirst]
  split_ifs
  · exact Or.inr ⟨_, writeAt_hdrBuf (by rw [List.length_take]; omega) out⟩
  · refine Or.inr ⟨(X.marshal h).length, ?_⟩
    rw [List.take_length]
    exact writeAt_hdrBuf hmarshal out

/-! ## Opening what a crash left -/

/-- What `Open` reads of a file with a header block. -/
theorem openFile_hdrWith {p : Bytes} (hp : p.length ≤ 4088) (out : Bytes) :
    openFile (hdrWith p ++ out) =
      (X.unmarshal (p ++ zeros (4088 - p.length))).map fun h => ⟨hdrWith p ++ out, h, []⟩ := by
  have hlen := length_hdrWith hp
  have hne : hdrWith p ++ out ≠ [] := by
    simp [hdrWith, bsstMagic]
  have hpad : bucketSize - (hdrWith p ++ out).length = 0 := by
    rw [List.length_append, hlen]
    omega
  simp only [openFile, if_neg hne, List.take_left' hlen, hpad, List.replicate_zero, List.append_nil]
  rw [if_pos (show (hdrWith p).take 8 = bsstMagic from rfl)]
  rfl

/-- **Zeros are no header.** -/
theorem openFile_unfinished [CborGen] (hu : X.unmarshal = unmarshalCBOR) (out : Bytes) (k : ℕ) :
    openFile ((hdrBuf ++ out).take k) = none := by
  have hnone : ∀ m, unmarshalCBOR (zeros (m + 1)) = none := by
    intro m
    rw [unmarshalCBOR, readHeader_zeros]
    rfl
  rcases Nat.lt_or_ge k bucketSize with hk | hk
  · have hfile : (hdrBuf ++ out).take k = hdrBuf.take k :=
      List.take_append_of_le_length (by rw [length_hdrBuf]; exact hk.le)
    have hlen : (hdrBuf.take k).length = k := by
      rw [List.length_take, length_hdrBuf]
      omega
    have hdrop : (hdrBuf.take k ++ zeros (bucketSize - k)).drop 8 = zeros 4088 := by
      have hmagic : hdrBuf.drop 8 = zeros 4088 := rfl
      have hzeros : (zeros 4088).take (k - 8) = zeros (k - 8) := by
        simp only [bucketSize] at hk
        rw [zeros, List.take_replicate, min_eq_left (by omega), zeros]
      rw [List.drop_append, List.drop_take, hmagic, hzeros, hlen, drop_zeros, zeros, zeros,
        List.replicate_append_replicate, zeros]
      simp only [bucketSize] at hk ⊢
      congr 1
      omega
    rw [hfile, openFile]
    simp only [hlen, List.take_of_length_le (show (hdrBuf.take k).length ≤ bucketSize by omega)]
    change (if _ then none else if _ then (X.unmarshal ((hdrBuf.take k ++
      zeros (bucketSize - k)).drop 8)).map _ else none) = none
    rw [hdrop, hu, hnone]
    simp
  · have hfile : (hdrBuf ++ out).take k = hdrWith [] ++ out.take (k - bucketSize) := by
      rw [List.take_append, length_hdrBuf, List.take_of_length_le (by rw [length_hdrBuf]; exact hk)]
      rfl
    rw [hfile, openFile_hdrWith (by simp), hu]
    exact congrArg (Option.map _) (hnone 4087)

omit X in
/-- A lookup does not look at the header block. -/
theorem lookup_congr {hdr hdr' out : Bytes} (hlen : hdr.length = bucketSize)
    (hlen' : hdr'.length = bucketSize) (k : Digest) (level prev lb : ℕ) :
    lookup (hdr ++ out) k level prev lb = lookup (hdr' ++ out) k level prev lb := by
  have hread : ∀ b, readAt (hdr ++ out) ((b + 1) * bucketSize) bucketSize =
      readAt (hdr' ++ out) ((b + 1) * bucketSize) bucketSize := by
    intro b
    have hskip : (b + 1) * bucketSize = bucketSize + b * bucketSize := by ring
    rw [readAt, readAt, List.length_append, List.length_append, hlen, hlen', hskip,
      ← List.drop_drop, ← List.drop_drop, List.drop_left' hlen, List.drop_left' hlen']
  induction level generalizing prev lb with
  | zero => rfl
  | succ level ih => simp only [lookup, hread, ih]

/-- A crashed file that opens, with the header of the file but for the level
factor, answers as the file does. -/
theorem find_eq {hdr hdr' out : Bytes} {h : BSSTHeader} {x : ℕ} {sample sample' : List Multihash}
    (hlen : hdr.length = bucketSize) (hlen' : hdr'.length = bucketSize) (m : Multihash) :
    (⟨hdr ++ out, { h with levelFactor := x }, sample⟩ : BSST).find m =
      (⟨hdr' ++ out, h, sample'⟩ : BSST).find m :=
  lookup_congr hlen hlen' _ _ _ _

/-- **BSST files are all or nothing.** Until the finalized header is begun
`Open` fails, whatever was written behind the header block. And where the
first `n` bytes of the writes of `Create` are left, `Open` fails or every
`Has` and every `Get` answers as on the file that is complete. -/
theorem crashed_allOrNothing [CborGen] (hm : X.marshal = marshalCBOR)
    (hu : X.unmarshal = unmarshalCBOR) :
    (∀ out n, openFile ((hdrBuf ++ out).take n) = none) ∧
      ∀ salt entries source out levels, buckets salt entries source = .ok (out, levels) →
        (header salt entries levels).Fits → ∀ n, ∃ f file b,
          crashed salt entries source n = .ok f ∧ create salt entries source = .ok file ∧
            openFile file = some b ∧ (openFile f = none ∨ ∃ b', openFile f = some b' ∧
              ∀ c, b'.has c = b.has c ∧ b'.get c = b.get c) := by
  refine ⟨fun out n => openFile_unfinished hu out n, ?_⟩
  intro salt entries source out levels hbuckets hfits n
  refine ⟨_, _, _, by rw [crashed, hbuckets]; rfl, by rw [create, hbuckets]; rfl,
    openFile_finalHdr hfits out, ?_⟩
  rcases writeFirst_createWrites hfits out n with ⟨k, hf⟩ | ⟨k, hf⟩
  · exact Or.inl (by rw [hf, openFile_unfinished hu])
  have hlen : ((X.marshal (header salt entries levels)).take k).length ≤ 4088 := by
    have := X.length_marshal _ hfits
    rw [List.length_take]
    omega
  rw [hf, openFile_hdrWith hlen, hu, hm]
  rcases hread : unmarshalCBOR _ with _ | h'
  · exact Or.inl rfl
  have hk : ((marshalCBOR (header salt entries levels)).take k).length ≤ 4088 := hm ▸ hlen
  have hzeros : 64 ≤ 4088 - ((marshalCBOR (header salt entries levels)).take k).length := by
    have := length_marshalCBOR hfits
    rw [List.length_take]
    omega
  obtain ⟨x, rfl⟩ := unmarshalCBOR_torn hfits k hzeros hread
  refine Or.inr ⟨_, rfl, fun c => ?_⟩
  have hfind : ∀ m, BSST.find ⟨hdrWith ((marshalCBOR (header salt entries levels)).take k) ++ out,
      { header salt entries levels with levelFactor := x }, []⟩ m = BSST.find ⟨finalHdr
        (header salt entries levels) ++ out, header salt entries levels, []⟩ m :=
    find_eq (length_hdrWith hk) (length_finalHdr hfits)
  simp only [BSST.has, BSST.get, hfind, true_and]

end

section

open Encoding

/-- A source of one multihash. -/
def oneHash : Source := [(0x12 :: 0x20 :: sha256 [0], [7])]

/-- Crashes of writing one entry. -/
theorem crashed_oneHash : ∃ out levels, buckets zeroSalt 1 oneHash = .ok (out, levels) ∧
    ∀ n, ∃ f file b, crashed (X := .withCborGen inferInstance) zeroSalt 1 oneHash n = .ok f ∧
      create (X := .withCborGen inferInstance) zeroSalt 1 oneHash = .ok file ∧
      openFile (X := .withCborGen inferInstance) file = some b ∧
      (openFile (X := .withCborGen inferInstance) f = none ∨
        ∃ b', openFile (X := .withCborGen inferInstance) f = some b' ∧
          ∀ c, b'.has c = b.has c ∧ b'.get c = b.get c) := by
  obtain ⟨levels, out, -, hbuckets, hfits⟩ :=
    buckets_layout (firstLevel_ready le_rfl (by omega)) (keysInRange_of_ok keysOk_twoHashes)
      (by omega) (by decide +kernel)
  exact ⟨out, levels, hbuckets, (crashed_allOrNothing (X := .withCborGen inferInstance) rfl rfl).2
    zeroSalt 1 _ out levels hbuckets hfits⟩

end

end Bsst

end Ribs
