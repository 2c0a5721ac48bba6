import Mathlib.Algebra.BigOperators.Group.List.Basic
import Mathlib.Data.Nat.Log
import Mathlib.Tactic.Ring
import Ribs.Carlog.Format
import Ribs.Common.Merkle
import Ribs.Common.Sha256
/-!
# Ributil — piece commitments

A piece is zero-padded to `127 * 2 ^ k` bytes. Every 127 of them are spread
over four nodes of 254 bits, and the root of the binary tree over the nodes,
hashed with SHA-256 less two bits, is the commitment of the piece. The
functions that compute one are those of other packages; what they are
documented to do is stated here.
-/

namespace Ribs

open Common
open Carlog (Cid)

namespace Ributil

/-! ## The commitment of a piece -/

/-- The two highest bits of a node are zero. -/
def trunc254 (digest : Bytes) : Bytes := digest.modify 31 (· &&& 0x3f)

/-- The node over two. -/
def commNode (l r : Bytes) : Bytes := trunc254 (sha256 (l ++ r))

/-- **Fr32 padding**: 127 bytes as four nodes of 254 bits. -/
def fr32 (quad : Bytes) : List Bytes :=
  (List.range 4).map fun i => leBytes 32 (leNat quad / 2 ^ (254 * i) % 2 ^ 254)

/-- The leaves of the tree over a piece. -/
def commLeaves (bs : Bytes) : List Bytes := (chunks 127 bs).flatMap fr32

/-- The commitment of a piece that has its full `127 * 2 ^ k` bytes. -/
def pieceRoot (k : ℕ) (bs : Bytes) : Bytes := Merkle.root commNode (k + 2) (commLeaves bs)

/-- The height of the least piece that so many bytes fit in. -/
def pieceHeight (len : ℕ) : ℕ := Nat.clog 2 ((len + 126) / 127)

/-- Its size, with the padding of its nodes. -/
def paddedSize (len : ℕ) : ℕ := 128 * 2 ^ pieceHeight len

def zeroPad (k : ℕ) (bs : Bytes) : Bytes := bs ++ List.replicate (127 * 2 ^ k - bs.length) 0

/-- **The piece commitment**: the bytes are padded to the least piece that
they fit in. -/
def commP (bs : Bytes) : Bytes :=
  pieceRoot (pieceHeight bs.length) (zeroPad (pieceHeight bs.length) bs)

/-- It is the least piece. -/
theorem pieceHeight_le_iff {len k : ℕ} : pieceHeight len ≤ k ↔ len ≤ 127 * 2 ^ k := by
  unfold pieceHeight
  rw [Nat.clog_le_iff_le_pow (by decide)]
  omega

theorem lt_pieceHeight_iff {len k : ℕ} : k < pieceHeight len ↔ 127 * 2 ^ k < len := by
  rw [← Nat.not_le, pieceHeight_le_iff, Nat.not_le]

theorem pieceHeight_eq {len k : ℕ} (hle : len ≤ 127 * 2 ^ k)
    (hlt : ∀ i, i < k → 127 * 2 ^ i < len) : pieceHeight len = k := by
  refine Nat.le_antisymm (pieceHeight_le_iff.mpr hle) ?_
  by_contra hk
  rw [Nat.not_le] at hk
  have := hlt _ hk
  exact Nat.lt_irrefl _ (lt_pieceHeight_iff.mpr this)

theorem paddedSize_le_of_le {len k : ℕ} (h : pieceHeight len ≤ k) : paddedSize len ≤ 128 * 2 ^ k :=
  Nat.mul_le_mul_left 128 (Nat.pow_le_pow_right (by decide) h)

theorem length_zeroPad {k : ℕ} {bs : Bytes} (h : bs.length ≤ 127 * 2 ^ k) :
    (zeroPad k bs).length = 127 * 2 ^ k := by
  unfold zeroPad
  rw [List.length_append, List.length_replicate]
  omega

theorem length_commNode (l r : Bytes) : (commNode l r).length = 32 := by
  rw [commNode, trunc254, List.length_modify, length_sha256]

theorem length_pieceRoot (k : ℕ) (bs : Bytes) : (pieceRoot k bs).length = 32 :=
  Merkle.root_of_node (P := fun d : Bytes => d.length = 32) length_commNode (Nat.succ_pos _) _

theorem commLeaves_append {bs bs' : Bytes} (h : 127 ∣ bs.length) :
    commLeaves (bs ++ bs') = commLeaves bs ++ commLeaves bs' := by
  rw [commLeaves, chunks_append (by decide) h, List.flatMap_append, commLeaves, commLeaves]

theorem length_fr32 (quad : Bytes) : (fr32 quad).length = 4 := by
  rw [fr32, List.length_map, List.length_range]

/-- Four leaves for every 127 bytes. -/
theorem length_commLeaves {n : ℕ} {bs : Bytes} (h : bs.length = 127 * n) :
    (commLeaves bs).length = 4 * n := by
  induction n generalizing bs with
  | zero => rw [List.length_eq_zero_iff.mp (by omega : bs.length = 0)]; rfl
  | succ n ih =>
    have hne : bs ≠ [] := List.ne_nil_of_length_pos (by omega)
    have hdrop : (commLeaves (bs.drop 127)).length = 4 * n := ih (by rw [List.length_drop]; omega)
    rw [commLeaves] at hdrop ⊢
    rw [chunks_of_ne_nil (by decide) hne, List.flatMap_cons, List.length_append, length_fr32, hdrop]
    omega

/-- **A piece is committed to in pieces**: the tree over the roots of `2 ^ m`
equal pieces is the tree over the whole of them. -/
theorem pieceRoot_flatten {k m : ℕ} {cs : List Bytes} (hlen : cs.length = 2 ^ m)
    (h : ∀ c ∈ cs, c.length = 127 * 2 ^ k) :
    pieceRoot (k + m) cs.flatten = Merkle.root commNode m (cs.map (pieceRoot k)) := by
  have hleaves : commLeaves cs.flatten = (cs.map commLeaves).flatten := by
    clear hlen
    induction cs with
    | nil => rfl
    | cons c cs ih =>
      obtain ⟨hc, hcs⟩ := List.forall_mem_cons.mp h
      rw [List.flatten_cons, commLeaves_append ⟨_, hc⟩, ih hcs, List.map_cons, List.flatten_cons]
  have hroot : ∀ c, pieceRoot k c = Merkle.root commNode (k + 2) (commLeaves c) := fun _ => rfl
  rw [pieceRoot, hleaves, show k + m + 2 = k + 2 + m by omega,
    Merkle.root_flatten (by rw [List.length_map, hlen]), List.map_map]
  · rfl
  · intro l hl
    obtain ⟨c, hc, rfl⟩ := List.mem_map.mp hl
    rw [length_commLeaves (h c hc), Nat.pow_add]
    omega

/-! ## What other packages do -/

inductive RegisteredSealProof where
  | stackedDrg64GiBV1

structure PieceInfo where
  size : ℕ
  pieceCID : Cid

/-- **The functions of other packages**. An error that the callers do not
look at is left out. -/
structure CommpLib where
  /-- `Write` into a new `commp.Calc`, and its `Digest`. -/
  digest : Bytes → Bytes × ℕ
  pieceCommitmentV1ToCID : Bytes → Cid
  /-- For a size without padding. -/
  zeroPieceCommitment : ℕ → Cid
  generateUnsealedCID : RegisteredSealProof → List PieceInfo → Except String Cid

variable {lib : CommpLib} {size : ℕ}

/-- **What they are documented to do** for pieces of up to `size` bytes. -/
structure CommpLib.Documented (lib : CommpLib) (size : ℕ) : Prop where
  /-- There is no commitment of less than 65 bytes. -/
  digest : ∀ bs : Bytes, 65 ≤ bs.length → paddedSize bs.length ≤ size →
    lib.digest bs = (commP bs, paddedSize bs.length)
  zero : ∀ k, 128 * 2 ^ k ≤ size → lib.zeroPieceCommitment (127 * 2 ^ k) =
    lib.pieceCommitmentV1ToCID (commP (List.replicate (127 * 2 ^ k) 0))
  /-- Equal pieces, as many as a power of two, are the leaves of a tree. -/
  unsealed : ∀ k m (ds : List Bytes), ds.length = 2 ^ m → (∀ d ∈ ds, d.length = 32) →
    128 * 2 ^ (k + m) ≤ size →
    lib.generateUnsealedCID .stackedDrg64GiBV1
        (ds.map fun d => ⟨128 * 2 ^ k, lib.pieceCommitmentV1ToCID d⟩) =
      .ok (lib.pieceCommitmentV1ToCID (Merkle.root commNode m ds))

/-- The padding of a piece that is full is none. -/
theorem commP_of_full {k : ℕ} {bs : Bytes} (h : bs.length = 127 * 2 ^ k) :
    commP bs = pieceRoot k bs ∧ paddedSize bs.length = 128 * 2 ^ k := by
  have hheight : pieceHeight bs.length = k := by
    refine pieceHeight_eq (le_of_eq h) fun i hi => ?_
    have := Nat.pow_lt_pow_right (a := 2) (by decide) hi
    omega
  rw [commP, paddedSize, hheight, zeroPad, h, Nat.sub_self, List.replicate_zero, List.append_nil]
  exact ⟨rfl, rfl⟩

/-- The commitment of the least zero piece. -/
example : commP (List.replicate 127 0) =
    [0x37, 0x31, 0xbb, 0x99, 0xac, 0x68, 0x9f, 0x66, 0xee, 0xf5, 0x97, 0x3e, 0x4a, 0x94, 0xda, 0x18,
      0x8f, 0x4d, 0xdc, 0xae, 0x58, 0x07, 0x24, 0xfc, 0x6f, 0x3f, 0xd6, 0x0d, 0xfd, 0x48, 0x83,
      0x33] := by decide +kernel

/-! ## A library that does what is documented -/

/-- The head of the multihash of a commitment. -/
def commPrefix : Bytes := putUvarint 0x1012 ++ putUvarint 32

/-- **The functions of Filecoin**, up to a sector of 64 GiB, and for equal
pieces that are as many as a power of two. -/
def filecoin : CommpLib where
  digest bs := if bs.length < 65 then ([], 0) else (commP bs, paddedSize bs.length)
  pieceCommitmentV1ToCID d := ⟨0xf101, commPrefix ++ d⟩
  zeroPieceCommitment size := ⟨0xf101, commPrefix ++ commP (List.replicate size 0)⟩
  generateUnsealedCID _ pieces :=
    if pieces = [] then .error "no pieces provided"
    else if 2 ^ 36 < (pieces.map PieceInfo.size).sum then .error "larger than sector size"
    else
      let ds := pieces.map fun p => p.pieceCID.hash.drop commPrefix.length
      .ok ⟨0xf101, commPrefix ++ Merkle.root commNode (Nat.clog 2 pieces.length) ds⟩

theorem filecoin_documented : filecoin.Documented (2 ^ 36) where
  digest bs hlen _ := if_neg (Nat.not_lt.mpr hlen)
  zero k _ := rfl
  unsealed k m ds hlen _ hsize := by
    have hne : ds ≠ [] := List.ne_nil_of_length_pos (by rw [hlen]; exact Nat.two_pow_pos m)
    have hsum : (ds.map fun _ => 128 * 2 ^ k).sum = 128 * 2 ^ (k + m) := by
      rw [List.map_const', List.sum_replicate_nat, hlen, Nat.pow_add]
      ring
    unfold filecoin
    dsimp only
    rw [if_neg (mt List.map_eq_nil_iff.mp hne), List.map_map, List.map_map, List.length_map, hlen,
      Nat.clog_pow 2 m (by decide), if_neg]
    · simp [Function.comp_def]
    · change ¬ 2 ^ 36 < (ds.map fun _ => 128 * 2 ^ k).sum
      rw [hsum]
      exact Nat.not_lt.mpr hsize

/-- What is documented of larger pieces is documented of smaller ones. -/
theorem CommpLib.Documented.mono {size' : ℕ} (h : lib.Documented size) (hle : size' ≤ size) :
    lib.Documented size' where
  digest bs hlen hsize := h.digest bs hlen (hsize.trans hle)
  zero k hsize := h.zero k (hsize.trans hle)
  unsealed k m ds hlen hds hsize := h.unsealed k m ds hlen hds (hsize.trans hle)

end Ributil

end Ribs
