import Ribs.Carlog.Format
/-!
# Carlog — the bytes of a log, as pieces

A log is its header and a sequence of pieces: entries, and what an
unclean shutdown may have left in between. `EntryIn` says that a packed
offset is the place of an entry among them. A place stays what it is when
pieces are appended, and when pieces behind it are cut off.
-/

namespace Ribs

open Common

namespace Carlog

/-! ## Packed offsets -/

theorem toNat_offMask : (0xFFFFFFFFFF : I64).toNat = 2 ^ 40 - 1 := by decide

/-- The low 40 bits are the offset. -/
theorem fst_fromOffsetLen (off length : ℕ) :
    (fromOffsetLen (makeOffsetLen off length)).1 = off % 2 ^ 40 := by
  rw [fromOffsetLen, makeOffsetLen]
  simp only [BitVec.toNat_and, BitVec.toNat_or, BitVec.toNat_shiftLeft, BitVec.toNat_ofNat,
    toNat_offMask, Nat.and_two_pow_sub_one_eq_mod]
  apply Nat.eq_of_testBit_eq
  intro i
  simp only [Nat.testBit_mod_two_pow, Nat.testBit_or, Nat.testBit_shiftLeft]
  by_cases h : i < 40
  · have h40 : ¬ 40 ≤ i := by omega
    have h64 : i < 64 := by omega
    simp [h, h40, h64]
  · simp [h]

/-- The two parts do not overlap. -/
theorem toNat_makeOffsetLen {off length : ℕ} (h : length < 2 ^ 24) :
    (makeOffsetLen off length).toNat = 2 ^ 40 * length + off % 2 ^ 40 := by
  rw [makeOffsetLen]
  simp only [BitVec.toNat_and, BitVec.toNat_or, BitVec.toNat_shiftLeft, BitVec.toNat_ofNat,
    toNat_offMask, Nat.and_two_pow_sub_one_eq_mod]
  rw [Nat.mod_eq_of_lt (by omega : length < 2 ^ 64), Nat.shiftLeft_eq,
    Nat.mod_eq_of_lt (by omega : length * 2 ^ 40 < 2 ^ 64), Nat.mod_mod_of_dvd _ (by norm_num),
    Nat.mul_comm, ← Nat.two_pow_add_eq_or_of_lt (Nat.mod_lt _ (by norm_num))]

/-- The high bits are the length, while it stays below the sign. -/
theorem snd_fromOffsetLen {off length : ℕ} (h : length < 2 ^ 23) :
    (fromOffsetLen (makeOffsetLen off length)).2 = length := by
  have hnat : (makeOffsetLen off length).toNat = _ := toNat_makeOffsetLen (h.trans (by norm_num))
  have hint : (makeOffsetLen off length).toInt = (2 ^ 40 * length + off % 2 ^ 40 : ℕ) := by
    rw [BitVec.toInt_eq_toNat_of_lt (by rw [hnat]; omega), hnat]
  rw [fromOffsetLen]
  simp only [BitVec.toInt_sshiftRight, hint]
  rw [Int.shiftRight_eq_div_pow]
  omega

/-- Such a place is not the `-1` of an absent block. -/
theorem makeOffsetLen_ne_neg_one {off length : ℕ} (h : length < 2 ^ 23) :
    makeOffsetLen off length ≠ -1 := by
  intro heq
  have : (makeOffsetLen off length).toNat = _ := toNat_makeOffsetLen (h.trans (by norm_num))
  have hneg : (-1 : I64).toNat = 2 ^ 64 - 1 := by decide
  rw [heq, hneg] at this
  omega

/-! ## Pieces -/

/-- The payload of an entry: a CID, and data. -/
def payload (m : Multihash) (data : Bytes) : Bytes := (Cid.mk raw m).bytes ++ data

/-- A part of the log behind its header. -/
inductive Piece where
  | entry (m : Multihash) (data : Bytes)
  /-- What a crash left of an entry. -/
  | torn (bytes : Bytes)

def Piece.bytes : Piece → Bytes
  | entry m data => framed (payload m data)
  | torn bytes => bytes

variable [X : External]

/-- The header of a log that is not finalized. -/
def headerBytes : Bytes := carHeader placeholderCid

/-- **The bytes of a log** of these pieces. -/
def stream (ps : List Piece) : Bytes := headerBytes ++ ps.flatMap Piece.bytes

omit X in
/-- The placeholder has the size of a root. -/
theorem length_placeholderCid : placeholderCid.bytes.length = 36 := by
  simp [Cid.bytes, placeholderCid, raw, putUvarint, putUvarintAux, maxVarintLen64]

theorem length_headerBytes : headerBytes.length = 59 := by
  rw [headerBytes, carHeader, length_framed, X.length_encodeHeader _ length_placeholderCid]
  rfl

theorem stream_nil : stream [] = headerBytes := List.append_nil _

theorem stream_append (ps qs : List Piece) :
    stream (ps ++ qs) = stream ps ++ qs.flatMap Piece.bytes := by
  simp [stream]

theorem stream_concat_entry (ps : List Piece) (m : Multihash) (data : Bytes) :
    stream (ps ++ [.entry m data]) = stream ps ++ framed (payload m data) := by
  simp [stream_append, Piece.bytes]

theorem stream_isPrefix {ps qs : List Piece} (h : ps <+: qs) : stream ps <+: stream qs := by
  obtain ⟨rest, rfl⟩ := h
  rw [stream_append]
  exact List.prefix_append _ _

/-! ## The place of an entry -/

/-- **The place of an entry** among pieces, packed. -/
def EntryIn (ps : List Piece) (m : Multihash) (data : Bytes) (v : I64) : Prop :=
  ∃ pre post, ps = pre ++ .entry m data :: post ∧
    v = makeOffsetLen (stream pre).length (payload m data).length

/-- No entry starts above the limit of an offset. -/
def Small (ps : List Piece) : Prop := (stream ps).length ≤ 2 ^ 40

/-- An entry stands somewhere in the log. -/
theorem frameAt_of_mem {ps : List Piece} {m : Multihash} {data : Bytes} (h : .entry m data ∈ ps) :
    ∃ off, FrameAt (stream ps) off (payload m data) := by
  obtain ⟨pre, post, rfl⟩ := List.append_of_mem h
  refine ⟨_, stream pre, post.flatMap Piece.bytes, ?_, rfl⟩
  rw [stream_append, List.flatMap_cons, Piece.bytes, List.append_assoc]

namespace EntryIn

variable {ps qs : List Piece} {m m' : Multihash} {data data' : Bytes} {v : I64}

theorem of_isPrefix (h : EntryIn ps m data v) (hpre : ps <+: qs) : EntryIn qs m data v := by
  obtain ⟨pre, post, rfl, hv⟩ := h
  obtain ⟨rest, rfl⟩ := hpre
  exact ⟨pre, post ++ rest, by simp, hv⟩

theorem append (h : EntryIn ps m data v) (rest : List Piece) : EntryIn (ps ++ rest) m data v :=
  h.of_isPrefix (List.prefix_append _ _)

theorem mem (h : EntryIn ps m data v) : .entry m data ∈ ps := by
  obtain ⟨pre, post, rfl, -⟩ := h
  simp

/-- The offset of the place. -/
theorem off_eq (h : EntryIn ps m data v) (hsmall : Small ps) :
    ∃ pre post, ps = pre ++ .entry m data :: post ∧
      v = makeOffsetLen (stream pre).length (payload m data).length ∧
        (fromOffsetLen v).1 = (stream pre).length := by
  obtain ⟨pre, post, rfl, rfl⟩ := h
  have hlt : (stream pre).length < 2 ^ 40 := by
    have hpos := frameSize_pos (payload m data).length
    rw [Small, stream_append, List.length_append, List.flatMap_cons, List.length_append, Piece.bytes,
      length_framed] at hsmall
    omega
  exact ⟨pre, post, rfl, rfl, by rw [fst_fromOffsetLen, Nat.mod_eq_of_lt hlt]⟩

/-- **Cutting pieces off** leaves the places that start before the cut. -/
theorem restrict (h : EntryIn qs m data v) (hsmall : Small qs) (hpre : ps <+: qs)
    (hlt : (fromOffsetLen v).1 < (stream ps).length) : EntryIn ps m data v := by
  obtain ⟨pre, post, rfl, hv, hfst⟩ := h.off_eq hsmall
  have hlen : pre.length < ps.length := by
    by_contra hle
    have hps : ps <+: pre :=
      List.prefix_of_prefix_length_le hpre (List.prefix_append _ _) (Nat.not_lt.mp hle)
    have := (stream_isPrefix hps).length_le
    omega
  have hpre' : pre ++ [.entry m data] <+: ps := by
    have hall : pre ++ [.entry m data] <+: pre ++ .entry m data :: post := ⟨post, by simp⟩
    exact List.prefix_of_prefix_length_le hall hpre (by simpa)
  obtain ⟨rest, rfl⟩ := hpre'
  exact ⟨pre, rest, by simp, hv⟩

end EntryIn

/-- The entry behind the pieces has its place at their end. -/
theorem entryIn_concat (ps : List Piece) (m : Multihash) (data : Bytes) :
    EntryIn (ps ++ [.entry m data]) m data
      (makeOffsetLen (stream ps).length (payload m data).length) :=
  ⟨ps, [], rfl, rfl⟩

end Carlog

end Ribs
