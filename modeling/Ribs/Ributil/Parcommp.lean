import Mathlib.Data.Nat.Size
import Mathlib.Tactic.Ring
import Mathlib.Data.PNat.Defs
import Ribs.Common.Runs
import Ribs.Ributil.Commp
/-!
# Ributil — the commitment of a stream

A `DataCidWriter` cuts what is written to it into chunks of the size of a
full piece of 8 MiB, and gives each full chunk to a goroutine, with one
of as many buffers as there are processors. `Sum` collects the commitments
of the chunks, adds the one of what is left, and fills up with zero pieces:
the commitment over them is the one of the whole payload.
-/

namespace Ribs

open Common
open Carlog (Cid)

namespace Ributil

/-! ## The writer -/

structure DataCIDSize where
  payloadSize : ℕ
  pieceSize : ℕ
  pieceCID : Cid

def commPBufPad : ℕ := 8 <<< 20

/-- `CommPBuf`, the bytes of a chunk. -/
@[irreducible] def commPBuf : ℕ := commPBufPad - commPBufPad / 128

/-- `PaddedPieceSize.Unpadded`. -/
def unpadded (size : ℕ) : ℕ := size - size / 128

structure Ciderr where
  c : Cid
  err : Option String

/-- Where the goroutine of a leaf is. -/
inductive LeafAt where
  /-- Before it has read its buffer. -/
  | calculating
  /-- Before its channel has the result. -/
  | sending (r : Ciderr)
  /-- Before its buffer is free. -/
  | leaving
  | done

/-- A leaf: its goroutine, and the channel, which has room for one. -/
structure Leaf where
  bufIdx : ℕ
  at_ : LeafAt
  chan : Option Ciderr

/-- Where the caller is. -/
inductive WriterAt where
  | calling
  /-- At the head of the loop of `Write`. -/
  | writing (p : Bytes)
  /-- At `<-w.throttle`. -/
  | taking (p : Bytes)
  /-- Before the buffer is copied, and the goroutine starts. -/
  | starting (p : Bytes) (bufIdx : ℕ)
  /-- In `Sum`, with so many leaves received. -/
  | receiving (leaves : List Cid)
  | returned (res : Except String DataCIDSize)

/-- **A `DataCidWriter`**, and its caller. -/
structure DataCidWriter where
  len : ℕ
  buf : Bytes
  leaves : List Leaf
  tbufs : List Bytes
  /-- The buffers that are free, if it was made. -/
  throttle : Option (List ℕ)
  at_ : WriterAt
  /-- The `Write`s to come, behind which is `Sum`. -/
  calls : List Bytes

inductive WriterEvent where
  | main
  | leaf (i : ℕ)

namespace DataCidWriter

/-- A new writer, and what is written to it. -/
def start (writes : List Bytes) : DataCidWriter :=
  ⟨0, List.replicate commPBuf 0, [], [], none, .calling, writes⟩

/-- The head of `Write`. `numCPU` is `runtime.NumCPU()`. -/
def begin (numCPU : ℕ+) (w : DataCidWriter) : DataCidWriter :=
  let w := { w with throttle := some (w.throttle.getD (List.range numCPU)) }
  if w.tbufs = [] then { w with tbufs := List.replicate numCPU (List.replicate commPBuf 0) } else w

/-- The loop of `Write`, up to where a chunk is full. -/
def writeStep (p : Bytes) (w : DataCidWriter) : DataCidWriter :=
  if p = [] then { w with at_ := .calling }
  else
    let buffered := w.len % commPBuf
    let copied := min (commPBuf - buffered) p.length
    let w := { w with
      buf := w.buf.take buffered ++ p.take copied ++ w.buf.drop (buffered + copied)
      len := w.len + copied }
    -- the chunk is full, and goes to a leaf of its own
    if copied > 0 ∧ w.len % commPBuf = 0 then { w with at_ := .taking (p.drop copied) }
    else { w with at_ := .writing (p.drop copied) }

/-- A copy of the chunk in the buffer taken, and the goroutine for it. -/
def startLeaf (p : Bytes) (bufIdx : ℕ) (w : DataCidWriter) : DataCidWriter :=
  { w with
    tbufs := w.tbufs.set bufIdx w.buf
    leaves := w.leaves ++ [⟨bufIdx, .calculating, none⟩]
    at_ := .writing p }

/-- `1 << bits.Len(uint(n - 1)) - n`. Of no leaves, `uint(n - 1)` has 64 bits
and nothing is left of the shift. -/
def fillerLeaves (n : ℕ) : ℕ := if n = 0 then 0 else 1 <<< Nat.size (n - 1) - n

/-- `Sum` behind the last leaf. -/
def stitch (lib : CommpLib) (rawLen : ℕ) (leaves : List Cid) : Except String DataCIDSize :=
  let leaves := leaves ++
    List.replicate (fillerLeaves leaves.length) (lib.zeroPieceCommitment commPBuf)
  match leaves with
  | [leaf] => .ok ⟨rawLen, leaves.length * commPBufPad, leaf⟩
  | _ =>
    match lib.generateUnsealedCID .stackedDrg64GiBV1 (leaves.map fun l => ⟨commPBufPad, l⟩) with
    | .error e => .error ("generating unsealed CID: " ++ e)
    | .ok p => .ok ⟨rawLen, leaves.length * commPBufPad, p⟩

/-- `Sum` behind the leaves received. -/
def finish (lib : CommpLib) (len : ℕ) (buf : Bytes) (leaves : List Cid) :
    Except String DataCIDSize :=
  let lastLen := len % commPBuf
  if lastLen = 0 then stitch lib len leaves
  else
    -- a rest behind chunks is filled up to a chunk; a rest alone is not
    let last := if leaves = [] then buf.take lastLen
      else buf.take lastLen ++ List.replicate (commPBuf - lastLen) 0
    let (pb, pps) := lib.digest last
    let p := lib.pieceCommitmentV1ToCID pb
    if unpadded pps < commPBuf then .ok ⟨len, pps, p⟩
    else stitch lib len (leaves ++ [p])

/-- A leaf is received. -/
def receive (lib : CommpLib) (got : List Cid) (w : DataCidWriter) : DataCidWriter :=
  match w.leaves[got.length]? with
  | none => { w with at_ := .returned (finish lib w.len w.buf got) }
  | some leaf =>
    match leaf.chan with
    | none => w
    | some r =>
      let w := { w with leaves := w.leaves.set got.length { leaf with chan := none } }
      match r.err with
      -- `Sum` returns on the first error, and leaves the other leaves be
      | some e =>
        { w with at_ := .returned (.error s!"processing leaf {got.length}: {e}") }
      | none => { w with at_ := .receiving (got ++ [r.c]) }

/-- A step of the caller. -/
def mainStep (lib : CommpLib) (numCPU : ℕ+) (w : DataCidWriter) : DataCidWriter :=
  match w.at_ with
  | .calling =>
    match w.calls with
    | p :: calls => { w.begin numCPU with at_ := .writing p, calls := calls }
    | [] => { w with at_ := .receiving [] }
  | .writing p => w.writeStep p
  | .taking p =>
    match w.throttle with
    | some (bufIdx :: free) => { w with throttle := some free, at_ := .starting p bufIdx }
    | _ => w
  | .starting p bufIdx => w.startLeaf p bufIdx
  | .receiving got => w.receive lib got
  | .returned _ => w

/-- The buffer of a leaf is free again. -/
def giveBack (numCPU : ℕ+) (i : ℕ) (leaf : Leaf) (w : DataCidWriter) : DataCidWriter :=
  match w.throttle with
  | none => w
  | some free =>
    if free.length < numCPU then
      { w with
        leaves := w.leaves.set i { leaf with at_ := .done }
        throttle := some (free ++ [leaf.bufIdx]) }
    else w

/-- A step of the goroutine of a leaf. -/
def leafStep (lib : CommpLib) (numCPU : ℕ+) (i : ℕ) (w : DataCidWriter) : DataCidWriter :=
  match w.leaves[i]? with
  | none => w
  | some leaf =>
    match leaf.at_ with
    | .calculating =>
      match w.tbufs[leaf.bufIdx]? with
      | none => w
      | some tbuf =>
        let l := lib.pieceCommitmentV1ToCID (lib.digest tbuf).1
        { w with leaves := w.leaves.set i { leaf with at_ := .sending ⟨l, none⟩ } }
    | .sending r =>
      match leaf.chan with
      | some _ => w
      | none => { w with leaves := w.leaves.set i { leaf with at_ := .leaving, chan := some r } }
    | .leaving => w.giveBack numCPU i leaf
    | .done => w

def next (lib : CommpLib) (numCPU : ℕ+) (w : DataCidWriter) : WriterEvent → DataCidWriter
  | .main => w.mainStep lib numCPU
  | .leaf i => w.leafStep lib numCPU i

end DataCidWriter

/-! ## What `Sum` makes of the leaves -/

variable {lib : CommpLib} {payload buf : Bytes}

theorem commPBuf_eq : commPBuf = 127 * 2 ^ 16 := by
  unfold commPBuf commPBufPad
  decide

theorem commPBufPad_eq : commPBufPad = 128 * 2 ^ 16 := by decide

theorem commPBuf_pos : 0 < commPBuf := by
  rw [commPBuf_eq]
  decide

/-- A size of a piece less its padding. -/
theorem unpadded_padded (k : ℕ) : unpadded (128 * 2 ^ k) = 127 * 2 ^ k := by
  unfold unpadded
  omega

/-- The leaf of a chunk. -/
def leafCid (lib : CommpLib) (chunk : Bytes) : Cid :=
  lib.pieceCommitmentV1ToCID (lib.digest chunk).1

/-- The chunk `i` of a payload. -/
def chunkOf (payload : Bytes) (i : ℕ) : Bytes := (payload.drop (i * commPBuf)).take commPBuf

/-- What `Sum` is to return. -/
def summed (lib : CommpLib) (payload : Bytes) : DataCIDSize where
  payloadSize := payload.length
  pieceSize := paddedSize payload.length
  pieceCID := lib.pieceCommitmentV1ToCID (commP payload)

/-- With the filler there are as many leaves as the least power of two that
is enough. -/
theorem add_fillerLeaves {n : ℕ} (hn : 0 < n) :
    n + DataCidWriter.fillerLeaves n = 2 ^ Nat.size (n - 1) := by
  have hlt := Nat.lt_size_self (n - 1)
  unfold DataCidWriter.fillerLeaves
  rw [if_neg (Nat.ne_of_gt hn), Nat.one_shiftLeft]
  omega

/-- **The leaves of a tree** are stitched to its root. -/
theorem stitch_of_filled {size k rawLen : ℕ} {leaves : List Cid} {ds : List Bytes}
    (hlib : lib.Documented size)
    (hfill : leaves ++ List.replicate (DataCidWriter.fillerLeaves leaves.length)
      (lib.zeroPieceCommitment commPBuf) = ds.map lib.pieceCommitmentV1ToCID)
    (hlen : ds.length = 2 ^ k) (hds : ∀ d ∈ ds, d.length = 32)
    (hsize : 128 * 2 ^ (16 + k) ≤ size) :
    DataCidWriter.stitch lib rawLen leaves =
      .ok ⟨rawLen, 128 * 2 ^ (16 + k), lib.pieceCommitmentV1ToCID (Merkle.root commNode k ds)⟩ := by
  have hpad : 2 ^ k * commPBufPad = 128 * 2 ^ (16 + k) := by
    rw [commPBufPad_eq, Nat.pow_add]
    ring
  unfold DataCidWriter.stitch
  dsimp only
  rw [hfill]
  split
  · rename_i leaf hleaf
    obtain ⟨d, rfl, rfl⟩ := List.map_eq_singleton_iff.mp hleaf
    have hk : k = 0 := by
      by_contra hk
      exact absurd hlen.symm (Nat.ne_of_gt (Nat.one_lt_two_pow hk))
    subst hk
    rw [List.length_map, hlen, hpad]
    rfl
  · have hgen := hlib.unsealed 16 k ds hlen hds hsize
    rw [← commPBufPad_eq] at hgen
    rw [List.map_map, List.length_map, hlen, hpad]
    change (match lib.generateUnsealedCID .stackedDrg64GiBV1
      (ds.map fun d => ⟨commPBufPad, lib.pieceCommitmentV1ToCID d⟩) with
      | .error e => _
      | .ok p => _) = _
    rw [hgen]

/-- So many chunks, the last one with less than a chunk of zeros behind it,
make a piece that is as high as the tree over them. -/
theorem pieceHeight_of_chunks {n z len : ℕ} (hn : 0 < n) (hlen : len + z = n * commPBuf)
    (hz : z < commPBuf) (hlong : 127 * 2 ^ 15 < len) :
    pieceHeight len = 16 + Nat.size (n - 1) := by
  have hlt := Nat.lt_size_self (n - 1)
  generalize hk : Nat.size (n - 1) = k at hlt ⊢
  refine pieceHeight_eq ?_ fun i hi => ?_
  · have hle : n * commPBuf ≤ 2 ^ k * commPBuf := Nat.mul_le_mul_right _ (by omega)
    rw [commPBuf_eq] at hle hlen
    rw [Nat.pow_add]
    omega
  · rcases Nat.lt_or_ge i 16 with hsmall | hbig
    · have := Nat.pow_le_pow_right (n := 2) (by decide) (Nat.le_of_lt_succ hsmall)
      omega
    · have hpow : 2 ^ (i - 16) ≤ n - 1 := by
        rw [← Nat.not_lt, ← Nat.size_le, hk]
        omega
      have hle : 2 ^ (i - 16) * commPBuf ≤ (n - 1) * commPBuf := Nat.mul_le_mul_right _ hpow
      have hi' : 2 ^ i = 2 ^ (i - 16) * 2 ^ 16 := by rw [← Nat.pow_add, Nat.sub_add_cancel hbig]
      rw [Nat.sub_mul] at hle
      rw [commPBuf_eq] at hle hlen hz
      omega

/-- The zero piece that the leaves are filled up with. -/
def zeroChunk : Bytes := List.replicate commPBuf 0

theorem length_zeroChunk : zeroChunk.length = 127 * 2 ^ 16 := by
  rw [zeroChunk, List.length_replicate, commPBuf_eq]

/-- Full chunks and the zero pieces behind them are the padded payload. -/
theorem flatten_filled {cs : List Bytes} {f k z : ℕ} (hcs : ∀ c ∈ cs, c.length = commPBuf)
    (hflat : cs.flatten = payload ++ List.replicate z 0) (hfilled : cs.length + f = 2 ^ k) :
    (cs ++ List.replicate f zeroChunk).flatten = zeroPad (16 + k) payload := by
  have hlen : payload.length + z = cs.length * commPBuf := by
    rw [← length_flatten_of_forall hcs, hflat, List.length_append, List.length_replicate]
  have hzeros : z + f * commPBuf = 127 * 2 ^ (16 + k) - payload.length := by
    have hsum : 2 ^ k * commPBuf = cs.length * commPBuf + f * commPBuf := by
      rw [← Nat.add_mul, hfilled]
    rw [commPBuf_eq] at hsum hlen ⊢
    rw [Nat.pow_add]
    omega
  rw [List.flatten_append, hflat, zeroChunk, List.flatten_replicate_replicate,
    List.append_assoc, List.replicate_append_replicate, hzeros, zeroPad]

/-- **Full chunks that make up the payload**, the last one with zeros behind
it, are stitched to its commitment. -/
theorem stitch_chunks {cs : List Bytes} {z : ℕ} (hlib : lib.Documented (paddedSize payload.length))
    (hne : cs ≠ []) (hcs : ∀ c ∈ cs, c.length = commPBuf) (hz : z < commPBuf)
    (hflat : cs.flatten = payload ++ List.replicate z 0) (hlong : 127 * 2 ^ 15 < payload.length) :
    DataCidWriter.stitch lib payload.length
        (cs.map fun c => lib.pieceCommitmentV1ToCID (pieceRoot 16 c)) = .ok (summed lib payload) := by
  have hn : 0 < cs.length := List.length_pos_of_ne_nil hne
  have hlen : payload.length + z = cs.length * commPBuf := by
    rw [← length_flatten_of_forall hcs, hflat, List.length_append, List.length_replicate]
  have hfilled := add_fillerLeaves hn
  have hheight := pieceHeight_of_chunks hn hlen hz hlong
  generalize Nat.size (cs.length - 1) = k at hfilled hheight
  have hpadded : paddedSize payload.length = 128 * 2 ^ (16 + k) := by rw [paddedSize, hheight]
  have hflatten := flatten_filled hcs hflat hfilled
  set all := cs ++ List.replicate (DataCidWriter.fillerLeaves cs.length) zeroChunk with hall
  have hallLen : all.length = 2 ^ k := by
    rw [hall, List.length_append, List.length_replicate, hfilled]
  have hfull : ∀ c ∈ all, c.length = 127 * 2 ^ 16 := by
    intro c hc
    rcases List.mem_append.mp hc with hc | hc
    · rw [hcs c hc, commPBuf_eq]
    · rw [List.eq_of_mem_replicate hc, length_zeroChunk]
  have hroot : commP payload = Merkle.root commNode k (all.map (pieceRoot 16)) := by
    rw [commP, hheight, ← hflatten, pieceRoot_flatten hallLen hfull]
  have hfiller : lib.zeroPieceCommitment commPBuf =
      lib.pieceCommitmentV1ToCID (pieceRoot 16 zeroChunk) := by
    rw [← (commP_of_full length_zeroChunk).1, zeroChunk, commPBuf_eq]
    refine hlib.zero 16 ?_
    rw [hpadded]
    exact Nat.mul_le_mul_left _ (Nat.pow_le_pow_right (by decide) (Nat.le_add_right 16 k))
  have hfill : cs.map (fun c => lib.pieceCommitmentV1ToCID (pieceRoot 16 c)) ++
      List.replicate (DataCidWriter.fillerLeaves (cs.map fun c =>
        lib.pieceCommitmentV1ToCID (pieceRoot 16 c)).length) (lib.zeroPieceCommitment commPBuf) =
      (all.map (pieceRoot 16)).map lib.pieceCommitmentV1ToCID := by
    rw [List.length_map, hfiller, hall, List.map_append, List.map_append, List.map_map,
      List.map_replicate, List.map_replicate]
    rfl
  have hds : ∀ d ∈ all.map (pieceRoot 16), d.length = 32 := by
    intro d hd
    obtain ⟨c, -, rfl⟩ := List.mem_map.mp hd
    exact length_pieceRoot 16 c
  rw [stitch_of_filled hlib hfill (by rw [List.length_map, hallLen]) hds (le_of_eq hpadded.symm),
    summed, hroot, hpadded]

theorem length_chunkOf {i : ℕ} (hi : i < payload.length / commPBuf) :
    (chunkOf payload i).length = commPBuf := by
  have hle : (i + 1) * commPBuf ≤ payload.length :=
    (Nat.mul_le_mul_right _ hi).trans (Nat.div_mul_le_self ..)
  rw [Nat.succ_mul] at hle
  rw [chunkOf, List.length_take, List.length_drop]
  omega

/-- The first chunks of a payload. -/
theorem flatten_chunkOf (payload : Bytes) (n : ℕ) :
    ((List.range n).map (chunkOf payload)).flatten = payload.take (n * commPBuf) := by
  induction n with
  | zero => simp
  | succ n ih =>
    rw [List.range_succ, List.map_append, List.flatten_append, ih, Nat.succ_mul, List.take_add]
    simp [chunkOf]

/-- The commitment of a full chunk. -/
theorem digest_chunk {chunk : Bytes} (hlib : lib.Documented (paddedSize payload.length))
    (hlong : 127 * 2 ^ 15 < payload.length) (h : chunk.length = commPBuf) :
    lib.digest chunk = (pieceRoot 16 chunk, 128 * 2 ^ 16) := by
  have hlen := h
  rw [commPBuf_eq] at hlen
  obtain ⟨hroot, hsize⟩ := commP_of_full hlen
  have hheight : 16 ≤ pieceHeight payload.length := lt_pieceHeight_iff.mpr hlong
  have hle : 128 * 2 ^ 16 ≤ paddedSize payload.length :=
    Nat.mul_le_mul_left _ (Nat.pow_le_pow_right (by decide) hheight)
  rw [hlib.digest chunk (by omega) (hsize ▸ hle), hroot, hsize]

/-- The leaves of the full chunks. -/
theorem leaves_eq {q : ℕ} (hlib : lib.Documented (paddedSize payload.length))
    (hlong : 127 * 2 ^ 15 < payload.length) (hq : payload.length / commPBuf = q) :
    (List.range q).map (fun i => leafCid lib (chunkOf payload i)) =
      ((List.range q).map (chunkOf payload)).map
        fun c => lib.pieceCommitmentV1ToCID (pieceRoot 16 c) := by
  rw [List.map_map]
  refine List.map_congr_left fun i hi => ?_
  have hchunk := length_chunkOf (hq.symm ▸ List.mem_range.mp hi)
  rw [leafCid, digest_chunk hlib hlong hchunk]
  rfl

/-- `Sum` with a rest in the buffer, `last` with the zeros behind it. -/
theorem finish_of_last {len pps : ℕ} {leaves : List Cid} {last pb : Bytes}
    (hr : len % commPBuf ≠ 0) (hlast : (if leaves = [] then buf.take (len % commPBuf)
      else buf.take (len % commPBuf) ++ List.replicate (commPBuf - len % commPBuf) 0) = last)
    (hd : lib.digest last = (pb, pps)) :
    DataCidWriter.finish lib len buf leaves =
      if unpadded pps < commPBuf then .ok ⟨len, pps, lib.pieceCommitmentV1ToCID pb⟩
      else DataCidWriter.stitch lib len (leaves ++ [lib.pieceCommitmentV1ToCID pb]) := by
  unfold DataCidWriter.finish
  rw [if_neg hr]
  simp only [hlast, hd]

/-- `Sum` of less than a chunk. -/
theorem finish_of_lt (hlib : lib.Documented (paddedSize payload.length))
    (hlen : 65 ≤ payload.length) (hlt : payload.length < commPBuf)
    (hrest : buf.take payload.length = payload) :
    DataCidWriter.finish lib payload.length buf [] = .ok (summed lib payload) := by
  have hmod := Nat.mod_eq_of_lt hlt
  rw [finish_of_last (by omega) (by rw [if_pos rfl, hmod, hrest]) (hlib.digest payload hlen le_rfl)]
  split_ifs with hsmall
  · rfl
  · -- the least piece is the one of a chunk
    have hheight : pieceHeight payload.length = 16 := by
      refine Nat.le_antisymm (pieceHeight_le_iff.mpr ?_) ?_
      · rw [← commPBuf_eq]
        omega
      · by_contra hlow
        have hpow := Nat.pow_lt_pow_right (a := 2) (by decide) (Nat.lt_of_not_le hlow)
        rw [paddedSize, unpadded_padded, commPBuf_eq] at hsmall
        omega
    have hpad : (zeroPad 16 payload).length = commPBuf := by
      rw [length_zeroPad (pieceHeight_le_iff.mp (le_of_eq hheight)), commPBuf_eq]
    have hcs : ∀ c ∈ [zeroPad 16 payload], c.length = commPBuf :=
      List.forall_mem_singleton.mpr hpad
    have hstitch := stitch_chunks (z := commPBuf - payload.length) hlib (List.cons_ne_nil _ _) hcs
      (by omega)
      (by rw [List.flatten_singleton, zeroPad, commPBuf_eq])
      (lt_pieceHeight_iff.mp (by omega))
    rw [List.map_singleton] at hstitch
    rw [commP, hheight]
    exact hstitch

/-- **`Sum` is right about the leaves**: what it makes of those of the full
chunks, and of the rest in the buffer, is the commitment. -/
theorem finish_eq (hlib : lib.Documented (paddedSize payload.length)) (hlen : 65 ≤ payload.length)
    (hrest : buf.take (payload.length % commPBuf) =
      payload.drop (payload.length / commPBuf * commPBuf)) :
    DataCidWriter.finish lib payload.length buf
        ((List.range (payload.length / commPBuf)).map fun i => leafCid lib (chunkOf payload i)) =
      .ok (summed lib payload) := by
  have hdiv := Nat.div_add_mod' payload.length commPBuf
  have hmod := Nat.mod_lt payload.length commPBuf_pos
  rcases Nat.eq_zero_or_pos (payload.length / commPBuf) with hq | hq
  · have hlt : payload.length < commPBuf := (Nat.div_eq_zero_iff_lt commPBuf_pos).mp hq
    rw [hq, Nat.zero_mul, List.drop_zero, Nat.mod_eq_of_lt hlt] at hrest
    rw [hq, List.range_zero, List.map_nil]
    exact finish_of_lt hlib hlen hlt hrest
  have hlong : 127 * 2 ^ 15 < payload.length := by
    have hle : 1 * commPBuf ≤ payload.length / commPBuf * commPBuf := Nat.mul_le_mul_right _ hq
    rw [commPBuf_eq] at hle hdiv
    omega
  have hcs : ∀ c ∈ (List.range (payload.length / commPBuf)).map (chunkOf payload),
      c.length = commPBuf := by
    intro c hc
    obtain ⟨i, hi, rfl⟩ := List.mem_map.mp hc
    exact length_chunkOf (List.mem_range.mp hi)
  have hne : (List.range (payload.length / commPBuf)).map (chunkOf payload) ≠ [] := by
    rw [Ne, List.map_eq_nil_iff, List.range_eq_nil]
    omega
  have hflatten := flatten_chunkOf payload (payload.length / commPBuf)
  rw [leaves_eq hlib hlong rfl]
  -- the full chunks are all there is
  by_cases hr : payload.length % commPBuf = 0
  · unfold DataCidWriter.finish
    rw [if_pos hr]
    refine stitch_chunks hlib hne hcs commPBuf_pos ?_ hlong
    rw [hflatten, List.replicate_zero, List.append_nil, List.take_of_length_le (by omega)]
  · -- the rest is filled up with zeros to a chunk
    have hlast : (payload.drop (payload.length / commPBuf * commPBuf) ++
        List.replicate (commPBuf - payload.length % commPBuf) 0).length = commPBuf := by
      rw [List.length_append, List.length_drop, List.length_replicate]
      omega
    rw [finish_of_last hr (by rw [if_neg (mt List.map_eq_nil_iff.mp hne), hrest])
      (digest_chunk hlib hlong hlast), unpadded_padded, if_neg (by rw [commPBuf_eq]; omega)]
    have hstitch := stitch_chunks (z := commPBuf - payload.length % commPBuf) hlib
      (List.append_ne_nil_of_left_ne_nil hne [_])
      (List.forall_mem_append.mpr ⟨hcs, List.forall_mem_singleton.mpr hlast⟩) (by omega)
      (by rw [List.flatten_append, hflatten, List.flatten_singleton, ← List.append_assoc,
        List.take_append_drop]) hlong
    rw [List.map_append, List.map_singleton] at hstitch
    exact hstitch

/-! ## What holds along a run -/

namespace DataCidWriter

variable {numCPU : ℕ+} {w w' : DataCidWriter} {tbufs : List Bytes} {leaf leaf' : Leaf} {i n : ℕ}

/-- What is still to be written. -/
def rest (w : DataCidWriter) : Bytes :=
  match w.at_ with
  | .writing p => p ++ w.calls.flatten
  | .taking p => p ++ w.calls.flatten
  | .starting p _ => p ++ w.calls.flatten
  | _ => w.calls.flatten

/-- How much of the buffer is of no leaf. -/
def pending (w : DataCidWriter) : ℕ := w.len - w.leaves.length * commPBuf

/-- The buffer holds a full chunk. -/
def Full : WriterAt → Prop
  | .taking _ => True
  | .starting _ _ => True
  | _ => False

/-- **The data**: what was written is in the leaves and in the buffer. -/
structure DataOk (payload : Bytes) (w : DataCidWriter) : Prop where
  len_le : w.len ≤ payload.length
  unwritten : payload.drop w.len = w.rest
  buf : w.buf.length = commPBuf
  flushed : w.leaves.length * commPBuf ≤ w.len
  buffered : w.buf.take w.pending = (payload.drop (w.leaves.length * commPBuf)).take w.pending
  full : Full w.at_ → w.pending = commPBuf
  short : ¬ Full w.at_ → w.pending < commPBuf

/-- How many leaves were received. -/
def got (w : DataCidWriter) : ℕ :=
  match w.at_ with
  | .receiving l => l.length
  | .returned _ => w.leaves.length
  | _ => 0

/-- **A leaf** `i`, of which the first `n` were received. -/
inductive LeafOk (lib : CommpLib) (payload : Bytes) (tbufs : List Bytes) (n i : ℕ) : Leaf → Prop
  | calculating {bufIdx} (hi : n ≤ i) (h : tbufs[bufIdx]? = some (chunkOf payload i)) :
    LeafOk lib payload tbufs n i ⟨bufIdx, .calculating, none⟩
  | sending {bufIdx} (hi : n ≤ i) :
    LeafOk lib payload tbufs n i
      ⟨bufIdx, .sending ⟨leafCid lib (chunkOf payload i), none⟩, none⟩
  | sent {bufIdx at_} (hi : n ≤ i) (hat : at_ = .leaving ∨ at_ = .done) :
    LeafOk lib payload tbufs n i ⟨bufIdx, at_, some ⟨leafCid lib (chunkOf payload i), none⟩⟩
  | received {bufIdx at_} (hi : i < n) (hat : at_ = .leaving ∨ at_ = .done) :
    LeafOk lib payload tbufs n i ⟨bufIdx, at_, none⟩

/-- The buffer that a goroutine still has. -/
def slot (leaf : Leaf) : Option ℕ :=
  match leaf.at_ with
  | .done => none
  | _ => some leaf.bufIdx

/-- The buffer that the caller has. -/
def held : WriterAt → List ℕ
  | .starting _ bufIdx => [bufIdx]
  | _ => []

/-- All of the buffers. -/
def bufs (numCPU : ℕ+) (w : DataCidWriter) : List ℕ :=
  w.throttle.getD (List.range numCPU) ++ held w.at_ ++ (w.leaves.map slot).filterMap id

/-- The caller is in a `Write`. -/
def InWrite : WriterAt → Prop
  | .writing _ => True
  | .taking _ => True
  | .starting _ _ => True
  | _ => False

/-- **The buffers**: each is free, or one has it. -/
structure BufsOk (numCPU : ℕ+) (w : DataCidWriter) : Prop where
  perm : (w.bufs numCPU).Perm (List.range numCPU)
  made : w.throttle ≠ none → w.tbufs.length = numCPU
  unmade : w.throttle = none → w.tbufs = [] ∧ w.leaves = [] ∧ ¬ InWrite w.at_

/-- **`Sum`**: what was received, or what it returned. -/
def SumOk (lib : CommpLib) (payload : Bytes) (w : DataCidWriter) : Prop :=
  match w.at_ with
  | .receiving l => w.calls = [] ∧ l.length ≤ w.leaves.length ∧
    l = (List.range l.length).map fun i => leafCid lib (chunkOf payload i)
  | .returned res => w.calls = [] ∧ res = finish lib w.len w.buf
    ((List.range w.leaves.length).map fun i => leafCid lib (chunkOf payload i))
  | _ => True

structure Inv (lib : CommpLib) (numCPU : ℕ+) (payload : Bytes) (w : DataCidWriter) : Prop where
  data : DataOk payload w
  leaves : ∀ i leaf, w.leaves[i]? = some leaf → LeafOk lib payload w.tbufs w.got i leaf
  bufs : BufsOk numCPU w
  sum : SumOk lib payload w

theorem DataOk.of_eq (h : DataOk payload w) (hlen : w'.len = w.len) (hbuf : w'.buf = w.buf)
    (hleaves : w'.leaves.length = w.leaves.length) (hrest : w'.rest = w.rest)
    (hfull : Full w'.at_ ↔ Full w.at_) : DataOk payload w' := by
  have hpending : w'.pending = w.pending := by rw [pending, pending, hlen, hleaves]
  constructor
  · rw [hlen]
    exact h.len_le
  · rw [hlen, hrest]
    exact h.unwritten
  · rw [hbuf]
    exact h.buf
  · rw [hleaves, hlen]
    exact h.flushed
  · rw [hbuf, hpending, hleaves]
    exact h.buffered
  · rw [hfull, hpending]
    exact h.full
  · rw [hfull, hpending]
    exact h.short

theorem BufsOk.moves (h : BufsOk numCPU w) (hperm : (w'.bufs numCPU).Perm (w.bufs numCPU))
    (htbufs : w'.tbufs = w.tbufs) (hthrottle : w'.throttle = none ↔ w.throttle = none)
    (hleaves : w.leaves = [] → w'.leaves = []) (hat : InWrite w'.at_ → InWrite w.at_) :
    BufsOk numCPU w' where
  perm := hperm.trans h.perm
  made hne := by
    rw [htbufs]
    exact h.made (mt hthrottle.mpr hne)
  unmade hnone := by
    obtain ⟨hnil, hleaf, hw⟩ := h.unmade (hthrottle.mp hnone)
    exact ⟨htbufs.trans hnil, hleaves hleaf, mt hat hw⟩

/-! ### The caller -/

theorem start_inv (writes : List Bytes) : Inv lib numCPU writes.flatten (start writes) where
  data := by
    refine ⟨Nat.zero_le _, rfl, List.length_replicate, ?_, ?_, nofun, fun _ => ?_⟩
    · exact Nat.le_of_eq (Nat.zero_mul _)
    · rw [pending, start, Nat.zero_sub, List.take_zero, List.take_zero]
    · rw [pending, start, Nat.zero_sub]
      exact commPBuf_pos
  leaves i leaf hi := by simp [start] at hi
  bufs := by
    refine ⟨?_, fun h => absurd rfl h, fun _ => ⟨rfl, rfl, id⟩⟩
    simp [bufs, start, held]
  sum := trivial

theorem begin_len (numCPU : ℕ+) (w : DataCidWriter) : (w.begin numCPU).len = w.len := by
  unfold begin
  dsimp only
  split <;> rfl

theorem begin_buf (numCPU : ℕ+) (w : DataCidWriter) : (w.begin numCPU).buf = w.buf := by
  unfold begin
  dsimp only
  split <;> rfl

theorem begin_leaves (numCPU : ℕ+) (w : DataCidWriter) : (w.begin numCPU).leaves = w.leaves := by
  unfold begin
  dsimp only
  split <;> rfl

theorem begin_throttle (numCPU : ℕ+) (w : DataCidWriter) :
    (w.begin numCPU).throttle = some (w.throttle.getD (List.range numCPU)) := by
  unfold begin
  dsimp only
  split <;> rfl

theorem begin_tbufs (numCPU : ℕ+) (w : DataCidWriter) :
    w.tbufs ≠ [] ∧ (w.begin numCPU).tbufs = w.tbufs ∨
      w.tbufs = [] ∧ (w.begin numCPU).tbufs.length = numCPU := by
  unfold begin
  dsimp only
  split_ifs with hnil
  · exact Or.inr ⟨hnil, List.length_replicate⟩
  · exact Or.inl ⟨hnil, rfl⟩

/-- A leaf does not look at a buffer that is not there. -/
theorem LeafOk.begin (h : LeafOk lib payload w.tbufs n i leaf) :
    LeafOk lib payload (w.begin numCPU).tbufs n i leaf := by
  cases h with
  | calculating hi htbuf =>
    rcases begin_tbufs numCPU w with ⟨-, heq⟩ | ⟨hnil, -⟩
    · exact .calculating hi (heq ▸ htbuf)
    · rw [hnil] at htbuf
      exact absurd htbuf nofun
  | sending hi => exact .sending hi
  | sent hi hat => exact .sent hi hat
  | received hi hat => exact .received hi hat

/-- A `Write` begins. -/
theorem call_inv {p : Bytes} {calls : List Bytes} (h : Inv lib numCPU payload w)
    (hat : w.at_ = .calling) (hcalls : w.calls = p :: calls) :
    Inv lib numCPU payload { w.begin numCPU with at_ := .writing p, calls := calls } where
  data := by
    refine h.data.of_eq (begin_len ..) (begin_buf ..) (congrArg _ (begin_leaves ..)) ?_ ?_
    · rw [rest, rest, hat, hcalls]
      rfl
    · rw [hat]
      exact Iff.rfl
  leaves i leaf hi := by
    have hgot : w.got = 0 := by rw [got, hat]
    have hleaf := h.leaves i leaf (begin_leaves numCPU w ▸ hi)
    rw [hgot] at hleaf
    exact hleaf.begin
  bufs := by
    refine ⟨?_, fun _ => ?_, fun hnone => absurd ((begin_throttle ..).symm.trans hnone) nofun⟩
    · have hperm := h.bufs.perm
      rw [bufs, hat] at hperm
      rw [bufs]
      dsimp only
      rw [begin_throttle, begin_leaves]
      exact hperm
    · rcases begin_tbufs numCPU w with ⟨hne, heq⟩ | ⟨-, hlen⟩
      · exact heq ▸ h.bufs.made fun hnone => hne (h.bufs.unmade hnone).1
      · exact hlen
  sum := trivial

/-- Behind the last `Write`, `Sum` begins. -/
theorem sum_inv (h : Inv lib numCPU payload w) (hat : w.at_ = .calling) (hcalls : w.calls = []) :
    Inv lib numCPU payload { w with at_ := .receiving [] } where
  data := h.data.of_eq rfl rfl rfl (by rw [rest, rest, hat]) (by rw [hat]; exact Iff.rfl)
  leaves i leaf hi := by
    have hleaf := h.leaves i leaf hi
    rw [got, hat] at hleaf
    exact hleaf
  bufs := h.bufs.moves (by rw [bufs, bufs, hat]; exact List.Perm.refl _) rfl Iff.rfl id nofun
  sum := ⟨hcalls, Nat.zero_le _, rfl⟩

/-- Bytes put behind what the buffer holds of no leaf. -/
theorem DataOk.append {p : Bytes} {copied : ℕ} {at_ : WriterAt} (h : DataOk payload w)
    (hat : w.at_ = .writing p) (hfits : w.pending + copied ≤ commPBuf) (hle : copied ≤ p.length)
    (hrest : rest { w with at_ := at_ } = p.drop copied ++ w.calls.flatten)
    (hfull : Full at_ ↔ w.pending + copied = commPBuf) :
    DataOk payload { w with
      buf := w.buf.take w.pending ++ p.take copied ++ w.buf.drop (w.pending + copied)
      len := w.len + copied
      at_ := at_ } := by
  have hflushed := h.flushed
  have hbuf := h.buf
  have hdrop : payload.drop w.len = p ++ w.calls.flatten := by
    rw [h.unwritten, rest, hat]
  -- what is pending is behind the leaves
  have hlen : w.len = w.leaves.length * commPBuf + w.pending := by
    rw [pending]
    omega
  have hpending : w.len + copied - w.leaves.length * commPBuf = w.pending + copied := by omega
  have htake : (w.buf.take w.pending).length = w.pending := by
    rw [List.length_take, hbuf]
    omega
  constructor
  · have hlength := congrArg List.length hdrop
    rw [List.length_drop, List.length_append] at hlength
    have := h.len_le
    dsimp only
    omega
  · refine Eq.trans ?_ hrest.symm
    rw [← List.drop_drop, hdrop, List.drop_append_of_le_length hle]
  · rw [List.length_append, List.length_append, htake, List.length_take, List.length_drop, hbuf]
    omega
  · exact Nat.le_add_right_of_le hflushed
  · rw [pending]
    dsimp only
    rw [hpending, List.take_append_of_le_length, List.take_of_length_le]
    · rw [List.take_add, ← h.buffered, List.drop_drop, ← hlen, hdrop,
        List.take_append_of_le_length hle]
    · rw [List.length_append, htake, List.length_take]
      omega
    · rw [List.length_append, htake, List.length_take]
      omega
  · change Full at_ → w.len + copied - w.leaves.length * commPBuf = commPBuf
    rw [hpending]
    exact hfull.mp
  · change ¬ Full at_ → w.len + copied - w.leaves.length * commPBuf < commPBuf
    rw [hpending]
    intro hnot
    have := mt hfull.mpr hnot
    omega

/-- What is written goes into the buffer, as much of it as fits in. -/
theorem DataOk.write {p : Bytes} (h : DataOk payload w) (hat : w.at_ = .writing p) :
    DataOk payload (w.writeStep p) := by
  have hshort := h.short (by rw [hat]; exact id)
  have hflushed := h.flushed
  have hlen : w.len = w.leaves.length * commPBuf + w.pending := by
    rw [pending]
    omega
  have hbuffered : w.len % commPBuf = w.pending := by
    rw [hlen, Nat.mul_add_mod', Nat.mod_eq_of_lt hshort]
  unfold writeStep
  by_cases hp : p = []
  · rw [if_pos hp]
    subst hp
    exact h.of_eq rfl rfl rfl (by rw [rest, rest, hat]; rfl) (by rw [hat]; exact Iff.rfl)
  · rw [if_neg hp]
    dsimp only
    have hpos := List.length_pos_of_ne_nil hp
    have hmod : (w.len + min (commPBuf - w.pending) p.length) % commPBuf =
        (w.pending + min (commPBuf - w.pending) p.length) % commPBuf := by
      rw [hlen, Nat.add_assoc, Nat.mul_add_mod']
    rw [hbuffered, hmod]
    split_ifs with hfull
    · refine h.append hat (by omega) (Nat.min_le_right ..) rfl (iff_of_true trivial ?_)
      by_contra hne
      rw [Nat.mod_eq_of_lt (by omega)] at hfull
      omega
    · refine h.append hat (by omega) (Nat.min_le_right ..) rfl (iff_of_false id fun heq => ?_)
      rw [heq, Nat.mod_self] at hfull
      omega

/-- What the loop of `Write` leaves as it was. -/
theorem writeStep_keeps (p : Bytes) :
    (w.writeStep p).leaves = w.leaves ∧ (w.writeStep p).tbufs = w.tbufs ∧
      (w.writeStep p).throttle = w.throttle ∧ (w.writeStep p).got = 0 ∧
      held (w.writeStep p).at_ = [] ∧ SumOk lib payload (w.writeStep p) := by
  unfold writeStep
  by_cases hp : p = []
  · rw [if_pos hp]
    exact ⟨rfl, rfl, rfl, rfl, rfl, trivial⟩
  · rw [if_neg hp]
    dsimp only
    split
    · exact ⟨rfl, rfl, rfl, rfl, rfl, trivial⟩
    · exact ⟨rfl, rfl, rfl, rfl, rfl, trivial⟩

theorem write_inv {p : Bytes} (h : Inv lib numCPU payload w) (hat : w.at_ = .writing p) :
    Inv lib numCPU payload (w.writeStep p) := by
  obtain ⟨hleaves, htbufs, hthrottle, hgot, hheld, hsum⟩ :=
    writeStep_keeps p
  refine ⟨h.data.write hat, fun i leaf hi => ?_, ?_, hsum⟩
  · have hleaf := h.leaves i leaf (hleaves ▸ hi)
    rw [got, hat] at hleaf
    rw [htbufs, hgot]
    exact hleaf
  · refine h.bufs.moves ?_ htbufs (by rw [hthrottle]) (hleaves.trans ·) fun _ => ?_
    · rw [bufs, bufs, hthrottle, hheld, hleaves, hat]
      exact List.Perm.refl _
    · rw [hat]
      trivial

/-- A free buffer is taken. -/
theorem take_inv {p : Bytes} {bufIdx : ℕ} {free : List ℕ} (h : Inv lib numCPU payload w)
    (hat : w.at_ = .taking p) (hthrottle : w.throttle = some (bufIdx :: free)) :
    Inv lib numCPU payload { w with throttle := some free, at_ := .starting p bufIdx } where
  data := h.data.of_eq rfl rfl rfl (by rw [rest, rest, hat]) (by rw [hat]; exact Iff.rfl)
  leaves i leaf hi := by
    have hleaf := h.leaves i leaf hi
    rw [got, hat] at hleaf
    exact hleaf
  bufs := by
    refine h.bufs.moves ?_ rfl ?_ id fun _ => ?_
    · rw [bufs, bufs, hat, hthrottle]
      refine List.Perm.append_right _ ?_
      change (free ++ [bufIdx]).Perm (bufIdx :: free ++ [])
      rw [List.append_nil]
      exact List.perm_append_singleton bufIdx free
    · rw [hthrottle]
      exact ⟨nofun, nofun⟩
    · rw [hat]
      trivial
  sum := trivial

/-- The buffer that the caller has is one of them. -/
theorem BufsOk.held_lt {p : Bytes} {bufIdx : ℕ} (h : BufsOk numCPU w)
    (hat : w.at_ = .starting p bufIdx) : bufIdx < numCPU := by
  have hperm := h.perm
  rw [DataCidWriter.bufs, hat] at hperm
  exact List.mem_range.mp (hperm.mem_iff.mp (by simp [held]))

/-- No goroutine has it. -/
theorem BufsOk.slot_ne {p : Bytes} {bufIdx : ℕ} (h : BufsOk numCPU w)
    (hat : w.at_ = .starting p bufIdx) (hi : w.leaves[i]? = some leaf) :
    slot leaf ≠ some bufIdx := by
  intro hslot
  have hperm := h.perm
  rw [DataCidWriter.bufs, hat] at hperm
  have hnodup := hperm.nodup_iff.mpr List.nodup_range
  have hmem : bufIdx ∈ (w.leaves.map slot).filterMap id :=
    List.mem_filterMap.mpr ⟨_, List.mem_map.mpr ⟨leaf, List.mem_of_getElem? hi, hslot⟩, rfl⟩
  exact (List.nodup_append.mp hnodup).2.2 bufIdx (by simp [held]) bufIdx hmem rfl

/-- The chunk in the buffer becomes a leaf. -/
theorem DataOk.startLeaf {p : Bytes} {bufIdx : ℕ} (h : DataOk payload w)
    (hat : w.at_ = .starting p bufIdx) :
    w.buf = chunkOf payload w.leaves.length ∧ DataOk payload (w.startLeaf p bufIdx) := by
  have hfull := h.full (by rw [hat]; trivial)
  have hbuffered := h.buffered
  have hflushed := h.flushed
  have hpos := commPBuf_pos
  have hlen : w.len = (w.leaves.length + 1) * commPBuf := by
    rw [pending] at hfull
    rw [Nat.succ_mul]
    omega
  have hleaves : (w.startLeaf p bufIdx).leaves.length = w.leaves.length + 1 :=
    List.length_append.trans rfl
  have hpending : (w.startLeaf p bufIdx).pending = 0 := by
    rw [pending, hleaves, ← hlen]
    exact Nat.sub_self _
  rw [hfull] at hbuffered
  refine ⟨?_, h.len_le, ?_, h.buf, ?_, ?_, fun hnot => absurd hnot id, fun _ => ?_⟩
  · rw [chunkOf, ← hbuffered, List.take_of_length_le (le_of_eq h.buf)]
  · exact h.unwritten.trans (by rw [rest, hat]; rfl)
  · rw [hleaves, ← hlen]
    exact Nat.le_refl _
  · rw [hpending, List.take_zero, List.take_zero]
  · rw [hpending]
    exact hpos

/-- A buffer that a goroutine reads is not written. -/
theorem LeafOk.set {bufIdx : ℕ} {buf : Bytes} (h : LeafOk lib payload tbufs n i leaf)
    (hslot : slot leaf ≠ some bufIdx) : LeafOk lib payload (tbufs.set bufIdx buf) n i leaf := by
  cases h with
  | calculating hi htbuf =>
    refine .calculating hi ?_
    rw [List.getElem?_set_ne fun heq => hslot (congrArg some heq.symm)]
    exact htbuf
  | sending hi => exact .sending hi
  | sent hi hat => exact .sent hi hat
  | received hi hat => exact .received hi hat

/-- The goroutine of a leaf starts. -/
theorem startLeaf_inv {p : Bytes} {bufIdx : ℕ} (h : Inv lib numCPU payload w)
    (hat : w.at_ = .starting p bufIdx) : Inv lib numCPU payload (w.startLeaf p bufIdx) := by
  obtain ⟨hbuf, hdata⟩ := h.data.startLeaf hat
  have hthrottle : w.throttle ≠ none := fun hnone =>
    (h.bufs.unmade hnone).2.2 (by rw [hat]; trivial)
  refine ⟨hdata, fun i leaf hi => ?_, ⟨?_, fun _ => ?_, fun hnone => absurd hnone hthrottle⟩,
    trivial⟩
  · rw [startLeaf] at hi ⊢
    dsimp only at hi ⊢
    rcases Nat.lt_trichotomy i w.leaves.length with hlt | rfl | hgt
    · rw [List.getElem?_append_left hlt] at hi
      have hleaf := h.leaves i leaf hi
      rw [got, hat] at hleaf
      exact hleaf.set (h.bufs.slot_ne hat hi)
    · rw [List.getElem?_concat_length] at hi
      obtain rfl := Option.some.inj hi
      refine .calculating (Nat.zero_le _) ?_
      rw [List.getElem?_set_self (by rw [h.bufs.made hthrottle]; exact h.bufs.held_lt hat), hbuf]
    · rw [List.getElem?_eq_none] at hi
      · exact absurd hi nofun
      · rw [List.length_append]
        exact hgt
  · have hperm := h.bufs.perm
    rw [bufs, hat] at hperm
    rw [bufs, startLeaf]
    dsimp only
    rw [List.map_append, List.filterMap_append]
    refine List.Perm.trans ?_ hperm
    change (w.throttle.getD (List.range numCPU) ++ [] ++ (_ ++ [bufIdx])).Perm
      (w.throttle.getD (List.range numCPU) ++ [bufIdx] ++ _)
    rw [List.append_nil, List.append_assoc]
    exact List.perm_append_comm.append_left _
  · exact List.length_set.trans (h.bufs.made hthrottle)

/-! ### The leaves -/

theorem set_self_of_getElem? {α : Type} {l : List α} {a : α} (h : l[i]? = some a) :
    l.set i a = l := by
  obtain ⟨hi, rfl⟩ := List.getElem?_eq_some_iff.mp h
  exact List.set_getElem_self hi

theorem slots_set {l : List Leaf} (hi : l[i]? = some leaf) (hslot : slot leaf' = slot leaf) :
    (l.set i leaf').map slot = l.map slot := by
  rw [List.map_set, hslot]
  exact set_self_of_getElem? (by rw [List.getElem?_map, hi]; rfl)

/-- **A leaf goes on**, and keeps its buffer. -/
theorem Inv.setLeaf (h : Inv lib numCPU payload w) (hi : w.leaves[i]? = some leaf)
    (hok : LeafOk lib payload w.tbufs w.got i leaf') (hslot : slot leaf' = slot leaf) :
    Inv lib numCPU payload { w with leaves := w.leaves.set i leaf' } where
  data := h.data.of_eq rfl rfl List.length_set rfl Iff.rfl
  leaves k l hk := by
    have hgot : got { w with leaves := w.leaves.set i leaf' } = w.got := by
      unfold got
      split <;> simp_all
    rw [hgot]
    by_cases hki : k = i
    · subst hki
      rw [List.getElem?_set_self (List.getElem?_eq_some_iff.mp hi).1] at hk
      exact Option.some.inj hk ▸ hok
    · rw [List.getElem?_set_ne (Ne.symm hki)] at hk
      exact h.leaves k l hk
  bufs := by
    refine h.bufs.moves ?_ rfl Iff.rfl (fun hnil => ?_) id
    · rw [DataCidWriter.bufs, DataCidWriter.bufs]
      dsimp only
      rw [slots_set hi hslot]
    · rw [hnil] at hi
      exact absurd hi nofun
  sum := by
    have hsum := h.sum
    unfold SumOk at hsum ⊢
    rw [List.length_set]
    exact hsum

/-- One more leaf is received, another one. -/
theorem LeafOk.later (h : LeafOk lib payload tbufs n i leaf) (hne : i ≠ n) :
    LeafOk lib payload tbufs (n + 1) i leaf := by
  cases h with
  | calculating hi htbuf => exact .calculating (by omega) htbuf
  | sending hi => exact .sending (by omega)
  | sent hi hat => exact .sent (by omega) hat
  | received hi hat => exact .received (by omega) hat

/-- Behind the last leaf, `Sum` returns. -/
theorem return_inv {l : List Cid} (h : Inv lib numCPU payload w) (hat : w.at_ = .receiving l)
    (hnone : w.leaves[l.length]? = none) :
    Inv lib numCPU payload { w with at_ := .returned (finish lib w.len w.buf l) } := by
  have hsum := h.sum
  simp only [SumOk, hat] at hsum
  obtain ⟨hcalls, hle, hl⟩ := hsum
  have hlen : l.length = w.leaves.length := Nat.le_antisymm hle (List.getElem?_eq_none_iff.mp hnone)
  refine ⟨h.data.of_eq rfl rfl rfl (by rw [rest, rest, hat]) (by rw [hat]; exact Iff.rfl),
    fun i leaf hi => ?_, ?_, ⟨hcalls, ?_⟩⟩
  · have hleaf := h.leaves i leaf hi
    rw [got, hat] at hleaf
    dsimp only at hleaf
    rw [hlen] at hleaf
    exact hleaf
  · exact h.bufs.moves (by rw [bufs, bufs, hat]; exact List.Perm.refl _) rfl Iff.rfl id nofun
  · rw [← hlen, ← hl]

/-- **A leaf is received**, which is the one of its chunk. -/
theorem receive_inv {l : List Cid} (h : Inv lib numCPU payload w) (hat : w.at_ = .receiving l) :
    Inv lib numCPU payload (w.receive lib l) := by
  unfold receive
  split
  · exact return_inv h hat ‹_›
  · rename_i leaf hi
    have hsum := h.sum
    simp only [SumOk, hat] at hsum
    obtain ⟨hcalls, hle, hl⟩ := hsum
    have hleaf := h.leaves _ leaf hi
    rw [got, hat] at hleaf
    dsimp only at hleaf
    cases hleaf with
    | calculating => exact h
    | sending => exact h
    | received => exact h
    | sent hle' hdone =>
      rename_i bufIdx at_
      have hlt := (List.getElem?_eq_some_iff.mp hi).1
      refine ⟨h.data.of_eq rfl rfl List.length_set (by rw [rest, rest, hat])
        (by rw [hat]; exact Iff.rfl), fun k leaf hk => ?_, ?_, hcalls, ?_, ?_⟩
      · change LeafOk lib payload w.tbufs (l ++ [_]).length k leaf
        rw [List.length_append, List.length_singleton]
        by_cases hkl : k = l.length
        · subst hkl
          rw [List.getElem?_set_self hlt] at hk
          obtain rfl := Option.some.inj hk
          exact .received (Nat.lt_succ_self _) hdone
        · rw [List.getElem?_set_ne (Ne.symm hkl)] at hk
          have hleaf := h.leaves k leaf hk
          rw [got, hat] at hleaf
          exact hleaf.later hkl
      · refine h.bufs.moves ?_ rfl Iff.rfl (fun hnil => ?_) nofun
        · rw [bufs, bufs, hat]
          dsimp only
          rw [slots_set hi (show slot ⟨bufIdx, at_, none⟩ = slot ⟨bufIdx, at_, some _⟩ from rfl)]
          exact List.Perm.refl _
        · rw [hnil] at hlt
          exact absurd hlt (Nat.not_lt_zero _)
      · rw [List.length_append, List.length_singleton, List.length_set]
        exact hlt
      · rw [List.length_append, List.length_singleton, List.range_succ, List.map_append, ← hl]
        rfl

/-- **A step of the caller.** -/
theorem mainStep_inv (h : Inv lib numCPU payload w) :
    Inv lib numCPU payload (w.mainStep lib numCPU) := by
  unfold mainStep
  split
  · split
    · exact call_inv h ‹_› ‹_›
    · exact sum_inv h ‹_› ‹_›
  · exact write_inv h ‹_›
  · split
    · exact take_inv h ‹_› ‹_›
    · exact h
  · exact startLeaf_inv h ‹_›
  · exact receive_inv h ‹_›
  · exact h

/-- A buffer that was one's is free. -/
theorem perm_filterMap_set {l : List (Option ℕ)} {b : ℕ} (h : l[i]? = some (some b)) :
    (l.filterMap id).Perm (b :: (l.set i none).filterMap id) := by
  induction l generalizing i with
  | nil => exact absurd h nofun
  | cons a l ih =>
    cases i with
    | zero =>
      obtain rfl := Option.some.inj h
      exact List.Perm.refl _
    | succ i =>
      have htail := ih (List.getElem?_cons_succ.symm.trans h)
      rw [List.set_cons_succ]
      cases a with
      | none => exact htail
      | some c => exact (htail.cons c).trans (List.Perm.swap b c _)

/-- What the goroutine sent is there, or was received. -/
theorem LeafOk.done (h : LeafOk lib payload tbufs n i leaf) (hat : leaf.at_ = .leaving) :
    LeafOk lib payload tbufs n i { leaf with at_ := .done } := by
  cases h with
  | calculating => exact absurd hat nofun
  | sending => exact absurd hat nofun
  | sent hi _ => exact .sent hi (Or.inr rfl)
  | received hi _ => exact .received hi (Or.inr rfl)

/-- **A buffer is given back** behind the last step of a leaf. -/
theorem giveBack_inv (h : Inv lib numCPU payload w) (hi : w.leaves[i]? = some leaf)
    (hat : leaf.at_ = .leaving) : Inv lib numCPU payload (w.giveBack numCPU i leaf) := by
  unfold giveBack
  split
  · exact h
  rename_i free hthrottle
  split_ifs
  swap
  · exact h
  have hslots : (w.leaves.map slot)[i]? = some (some leaf.bufIdx) := by
    rw [List.getElem?_map, hi, Option.map_some, slot, hat]
  refine ⟨h.data.of_eq rfl rfl List.length_set rfl Iff.rfl, fun k l hk => ?_, ?_, ?_⟩
  · have hgot : got { w with
        leaves := w.leaves.set i { leaf with at_ := .done }
        throttle := some (free ++ [leaf.bufIdx]) } = w.got := by
      unfold got
      dsimp only
      rw [List.length_set]
    rw [hgot]
    by_cases hki : k = i
    · subst hki
      rw [List.getElem?_set_self (List.getElem?_eq_some_iff.mp hi).1] at hk
      exact Option.some.inj hk ▸ (h.leaves k leaf hi).done hat
    · rw [List.getElem?_set_ne (Ne.symm hki)] at hk
      exact h.leaves k l hk
  · refine h.bufs.moves ?_ rfl ⟨nofun, fun hnone => ?_⟩ (fun hnil => ?_) id
    · rw [bufs, bufs, hthrottle]
      dsimp only
      rw [List.map_set, show slot { leaf with at_ := .done } = none from rfl]
      refine List.Perm.trans ?_ ((perm_filterMap_set hslots).symm.append_left _)
      change (free ++ [leaf.bufIdx] ++ held w.at_ ++ _).Perm (free ++ held w.at_ ++ (_ :: _))
      rw [List.append_assoc, List.append_assoc, List.append_assoc, List.singleton_append]
      exact List.perm_middle.symm.append_left free
    · rw [hthrottle] at hnone
      exact absurd hnone nofun
    · rw [hnil] at hi
      exact absurd hi nofun
  · have hsum := h.sum
    unfold SumOk at hsum ⊢
    rw [List.length_set]
    exact hsum

/-- **A step of a leaf.** -/
theorem leafStep_inv (h : Inv lib numCPU payload w) :
    Inv lib numCPU payload (w.leafStep lib numCPU i) := by
  unfold leafStep
  split
  · exact h
  · rename_i leaf hi
    obtain ⟨bufIdx, at_, chan⟩ := leaf
    have hleaf := h.leaves i _ hi
    cases hleaf with
    | calculating hle htbuf =>
      dsimp only
      rw [htbuf]
      exact h.setLeaf hi (.sending hle) rfl
    | sending hle => exact h.setLeaf hi (.sent hle (Or.inl rfl)) rfl
    | sent hle hat =>
      rcases hat with rfl | rfl
      · exact giveBack_inv h hi rfl
      · exact h
    | received hlt hat =>
      rcases hat with rfl | rfl
      · exact giveBack_inv h hi rfl
      · exact h

/-- **One event.** -/
theorem next_inv {e : WriterEvent} (h : Inv lib numCPU payload w) :
    Inv lib numCPU payload (w.next lib numCPU e) := by
  cases e with
  | main => exact mainStep_inv h
  | leaf i => exact leafStep_inv h

/-! ## Every call of `Sum` returns -/

def leafLeft (leaf : Leaf) : ℕ :=
  match leaf.at_ with
  | .calculating => 3
  | .sending _ => 2
  | .leaving => 1
  | .done => 0

def atLeft : WriterAt → ℕ
  | .calling => 2
  | .writing p => 8 * p.length + 3
  | .taking p => 8 * p.length + 9
  | .starting p _ => 8 * p.length + 8
  | .receiving _ => 1
  | .returned _ => 0

/-- How many steps there may still be. -/
def left (w : DataCidWriter) : ℕ :=
  atLeft w.at_ + (w.calls.map fun p => 8 * p.length + 2).sum +
    (w.leaves.map leafLeft).sum + (w.leaves.length - w.got)

theorem sum_set {l : List Leaf} (hi : l[i]? = some leaf) :
    ((l.set i leaf').map leafLeft).sum + leafLeft leaf = (l.map leafLeft).sum + leafLeft leaf' := by
  induction l generalizing i with
  | nil => exact absurd hi nofun
  | cons a l ih =>
    cases i with
    | zero =>
      obtain rfl := Option.some.inj hi
      rw [List.set_cons_zero, List.map_cons, List.map_cons, List.sum_cons, List.sum_cons]
      omega
    | succ i =>
      have htail := ih (List.getElem?_cons_succ.symm.trans hi)
      rw [List.set_cons_succ, List.map_cons, List.map_cons, List.sum_cons, List.sum_cons]
      omega

theorem writeStep_left {p : Bytes} (hat : w.at_ = .writing p) :
    (w.writeStep p).left < w.left := by
  have hleft : w.left = 8 * p.length + 3 + (w.calls.map fun p => 8 * p.length + 2).sum +
      (w.leaves.map leafLeft).sum + w.leaves.length := by
    rw [left, got, hat]
    rfl
  have hpos := Nat.mod_lt w.len commPBuf_pos
  rw [hleft]
  unfold writeStep
  by_cases hp : p = []
  · rw [if_pos hp, left, got]
    dsimp only [atLeft]
    omega
  · rw [if_neg hp]
    have hlen := List.length_pos_of_ne_nil hp
    have hdrop := List.length_drop (i := min (commPBuf - w.len % commPBuf) p.length) (l := p)
    dsimp only
    split_ifs
    · rw [left, got]
      dsimp only [atLeft]
      omega
    · rw [left, got]
      dsimp only [atLeft]
      omega

theorem startLeaf_left {p : Bytes} {bufIdx : ℕ} (hat : w.at_ = .starting p bufIdx) :
    (w.startLeaf p bufIdx).left < w.left := by
  rw [left, left, got, got, hat, startLeaf]
  dsimp only [atLeft]
  rw [List.map_append, List.sum_append, List.length_append, List.map_singleton, List.sum_singleton,
    List.length_singleton]
  dsimp only [leafLeft]
  omega

theorem receive_left {l : List Cid} (hat : w.at_ = .receiving l) :
    w.receive lib l = w ∨ (w.receive lib l).left < w.left := by
  have hleft : w.left = 1 + (w.calls.map fun p => 8 * p.length + 2).sum +
      (w.leaves.map leafLeft).sum + (w.leaves.length - l.length) := by
    rw [left, got, hat]
    rfl
  rw [hleft]
  unfold receive
  split
  · refine Or.inr ?_
    rw [left, got]
    dsimp only [atLeft]
    omega
  · rename_i leaf hi
    have hlt := (List.getElem?_eq_some_iff.mp hi).1
    have hsum : ((w.leaves.set l.length { leaf with chan := none }).map leafLeft).sum + leafLeft leaf =
        (w.leaves.map leafLeft).sum + leafLeft leaf := sum_set hi
    split
    · exact Or.inl rfl
    · refine Or.inr ?_
      dsimp only
      split
      · rw [left, got]
        dsimp only [atLeft]
        rw [List.length_set]
        omega
      · rw [left, got]
        dsimp only [atLeft]
        rw [List.length_set, List.length_append, List.length_singleton]
        omega

/-- **Every step of the caller is one less.** -/
theorem mainStep_left : w.mainStep lib numCPU = w ∨ (w.mainStep lib numCPU).left < w.left := by
  unfold mainStep
  split
  · rename_i hat
    refine Or.inr ?_
    split
    · rename_i p calls hcalls
      rw [left, left, got, got, hat, hcalls]
      dsimp only [atLeft]
      rw [begin_leaves, List.map_cons, List.sum_cons]
      omega
    · rw [left, left, got, got, hat]
      dsimp only [atLeft]
      rw [List.length_nil]
      omega
  · exact Or.inr (writeStep_left ‹_›)
  · rename_i p hat
    split
    · refine Or.inr ?_
      rw [left, left, got, got, hat]
      dsimp only [atLeft]
      omega
    · exact Or.inl rfl
  · exact Or.inr (startLeaf_left ‹_›)
  · exact receive_left ‹_›
  · exact Or.inl rfl

/-- A leaf that goes on has less steps before it. -/
theorem setLeaf_left {throttle : Option (List ℕ)} (hi : w.leaves[i]? = some leaf)
    (hlt : leafLeft leaf' < leafLeft leaf) :
    left { w with leaves := w.leaves.set i leaf', throttle := throttle } < w.left := by
  have hsum : ((w.leaves.set i leaf').map leafLeft).sum + leafLeft leaf =
      (w.leaves.map leafLeft).sum + leafLeft leaf' := sum_set hi
  have hgot : got { w with leaves := w.leaves.set i leaf', throttle := throttle } = w.got := by
    unfold got
    dsimp only
    rw [List.length_set]
  rw [left, left, hgot]
  dsimp only
  rw [List.length_set]
  omega

/-- **And every one of a leaf.** -/
theorem leafStep_left :
    w.leafStep lib numCPU i = w ∨ (w.leafStep lib numCPU i).left < w.left := by
  unfold leafStep
  split
  · exact Or.inl rfl
  · rename_i leaf hi
    obtain ⟨bufIdx, at_, chan⟩ := leaf
    cases at_ with
    | calculating =>
      dsimp only
      split
      · exact Or.inl rfl
      · exact Or.inr (setLeaf_left hi (Nat.lt_succ_self 2))
    | sending r =>
      dsimp only
      split
      · exact Or.inl rfl
      · exact Or.inr (setLeaf_left hi (Nat.lt_succ_self 1))
    | leaving =>
      dsimp only
      unfold giveBack
      split
      · exact Or.inl rfl
      · split_ifs
        · exact Or.inr (setLeaf_left hi (Nat.lt_succ_self 0))
        · exact Or.inl rfl
    | done => exact Or.inl rfl

/-- A step that leaves another leaf in the place of one. -/
theorem setLeaf_ne {throttle : Option (List ℕ)} (hi : w.leaves[i]? = some leaf)
    (hne : leaf' ≠ leaf) : { w with leaves := w.leaves.set i leaf', throttle := throttle } ≠ w := by
  intro heq
  have hleaves := congrArg (fun w : DataCidWriter => w.leaves[i]?) heq
  dsimp only at hleaves
  rw [List.getElem?_set_self (List.getElem?_eq_some_iff.mp hi).1, hi] at hleaves
  exact hne (Option.some.inj hleaves)

/-- There is room for the buffer of a leaf. -/
theorem giveBack_moves (h : BufsOk numCPU w) (hi : w.leaves[i]? = some leaf)
    (hat : leaf.at_ = .leaving) : w.giveBack numCPU i leaf ≠ w := by
  have hthrottle : w.throttle ≠ none := fun hnone => by
    rw [(h.unmade hnone).2.1] at hi
    exact absurd hi nofun
  obtain ⟨free, hfree⟩ := Option.ne_none_iff_exists'.mp hthrottle
  have hlen := h.perm.length_eq
  have hmem : leaf.bufIdx ∈ (w.leaves.map slot).filterMap id :=
    List.mem_filterMap.mpr ⟨_, List.mem_map.mpr ⟨leaf, List.mem_of_getElem? hi,
      by rw [slot, hat]⟩, rfl⟩
  have hpos := List.length_pos_of_mem hmem
  rw [bufs, hfree, Option.getD_some, List.length_append, List.length_append,
    List.length_range] at hlen
  unfold giveBack
  rw [hfree]
  dsimp only
  rw [if_pos (by omega)]
  refine setLeaf_ne hi fun heq => ?_
  have hdone := congrArg Leaf.at_ heq
  rw [hat] at hdone
  exact absurd hdone nofun

/-- **A leaf that is not done can go on.** -/
theorem leaf_moves (h : Inv lib numCPU payload w) (hi : w.leaves[i]? = some leaf)
    (hne : leaf.at_ ≠ .done) : w.leafStep lib numCPU i ≠ w := by
  unfold leafStep
  rw [hi]
  dsimp only
  cases h.leaves i leaf hi with
  | calculating hle htbuf =>
    dsimp only
    rw [htbuf]
    exact setLeaf_ne hi nofun
  | sending hle => exact setLeaf_ne hi nofun
  | sent hle hat =>
    rcases hat with rfl | rfl
    · exact giveBack_moves h.bufs hi rfl
    · exact absurd rfl hne
  | received hlt hat =>
    rcases hat with rfl | rfl
    · exact giveBack_moves h.bufs hi rfl
    · exact absurd rfl hne

/-- While no buffer is free, a leaf has one. -/
theorem BufsOk.exists_busy {p : Bytes} (h : BufsOk numCPU w) (hat : w.at_ = .taking p)
    (hfree : w.throttle = some []) :
    ∃ (i : ℕ) (leaf : Leaf), w.leaves[i]? = some leaf ∧ leaf.at_ ≠ .done := by
  have hperm := h.perm
  rw [DataCidWriter.bufs, hat, hfree] at hperm
  have hmem : 0 ∈ (w.leaves.map slot).filterMap id :=
    hperm.mem_iff.mpr (List.mem_range.mpr numCPU.pos)
  obtain ⟨_, hslot, hsome⟩ := List.mem_filterMap.mp hmem
  obtain ⟨leaf, hleaf, rfl⟩ := List.mem_map.mp hslot
  obtain ⟨i, hi⟩ := List.mem_iff_getElem?.mp hleaf
  refine ⟨i, leaf, hi, fun hdone => ?_⟩
  rw [slot, hdone] at hsome
  exact absurd hsome nofun

/-- **Something can always go on** until `Sum` has returned. -/
theorem exists_step (h : Inv lib numCPU payload w) (hret : ∀ res, w.at_ ≠ .returned res) :
    ∃ e, w.next lib numCPU e ≠ w := by
  have hmain : (w.mainStep lib numCPU).at_ ≠ w.at_ → ∃ e, w.next lib numCPU e ≠ w :=
    fun hne => ⟨.main, fun heq => hne (congrArg DataCidWriter.at_ heq)⟩
  cases hat : w.at_ with
  | calling =>
    refine hmain ?_
    unfold mainStep
    rw [hat]
    dsimp only
    split <;> exact nofun
  | writing p =>
    have hlt := writeStep_left hat
    refine ⟨.main, fun heq => ?_⟩
    unfold next mainStep at heq
    rw [hat] at heq
    dsimp only at heq
    rw [heq] at hlt
    exact Nat.lt_irrefl _ hlt
  -- no buffer is free: then a leaf has one, and goes on
  | taking p =>
    cases hthrottle : w.throttle with
    | none => exact absurd (by rw [hat]; trivial) (h.bufs.unmade hthrottle).2.2
    | some free =>
      cases free with
      | nil =>
        obtain ⟨i, leaf, hi, hne⟩ := h.bufs.exists_busy hat hthrottle
        exact ⟨.leaf i, leaf_moves h hi hne⟩
      | cons bufIdx free =>
        refine hmain ?_
        unfold mainStep
        rw [hat, hthrottle]
        exact nofun
  | starting p bufIdx =>
    refine hmain ?_
    unfold mainStep
    rw [hat]
    exact nofun
  | receiving l =>
    cases hi : w.leaves[l.length]? with
    | none =>
      refine hmain ?_
      unfold mainStep receive
      rw [hat]
      dsimp only
      rw [hi]
      exact nofun
    | some leaf =>
      have hleaf := h.leaves _ leaf hi
      rw [got, hat] at hleaf
      -- the leaf has sent its sum, or can still move
      cases hleaf with
      | calculating => exact ⟨.leaf l.length, leaf_moves h hi nofun⟩
      | sending => exact ⟨.leaf l.length, leaf_moves h hi nofun⟩
      | received hlt => exact absurd hlt (Nat.lt_irrefl _)
      | sent hle hdone =>
        refine hmain ?_
        unfold mainStep receive
        rw [hat]
        dsimp only
        rw [hi]
        dsimp only
        intro heq
        have hlen := congrArg List.length (WriterAt.receiving.inj heq)
        rw [List.length_append, List.length_singleton] at hlen
        omega
  | returned res => exact absurd hat (hret res)

/-- A writer behind the events. -/
abbrev run (lib : CommpLib) (numCPU : ℕ+) (writes : List Bytes) (es : List WriterEvent) :
    DataCidWriter :=
  runEvents (next lib numCPU) (start writes) es

/-- **What `Sum` returned** is made of the whole payload. -/
theorem Inv.returned {res : Except String DataCIDSize} (h : Inv lib numCPU payload w)
    (hat : w.at_ = .returned res) :
    w.buf.take (payload.length % commPBuf) =
        payload.drop (payload.length / commPBuf * commPBuf) ∧
      res = finish lib payload.length w.buf
        ((List.range (payload.length / commPBuf)).map fun i => leafCid lib (chunkOf payload i)) := by
  have hsum := h.sum
  simp only [SumOk, hat] at hsum
  obtain ⟨hcalls, hres⟩ := hsum
  have hunwritten := h.data.unwritten
  simp only [rest, hat, hcalls, List.flatten_nil] at hunwritten
  have hle := h.data.len_le
  have hge := List.drop_eq_nil_iff.mp hunwritten
  have hlen : w.len = payload.length := Nat.le_antisymm hle hge
  have hshort := h.data.short (by rw [hat]; exact id)
  have hflushed := h.data.flushed
  have hbuffered := h.data.buffered
  have hsplit : payload.length = w.leaves.length * commPBuf + w.pending := by
    rw [pending]
    omega
  have hdiv : payload.length / commPBuf = w.leaves.length := by
    rw [hsplit, Nat.add_comm, Nat.add_mul_div_right _ _ commPBuf_pos, Nat.div_eq_of_lt hshort,
      Nat.zero_add]
  have hmod : payload.length % commPBuf = w.pending := by
    rw [hsplit, Nat.mul_add_mod', Nat.mod_eq_of_lt hshort]
  rw [hdiv, hmod, ← hlen]
  refine ⟨?_, hres⟩
  rw [hbuffered, List.take_of_length_le]
  rw [List.length_drop, hsplit]
  omega

/-- **The commitment of a stream is the one of the whole payload**, however
it is cut into `Write`s and in whatever order the leaves are done: what `Sum`
returns is the commitment of the least piece that the payload fits in, the
size of this piece, and the payload's length. And `Sum` returns. -/
theorem sum_eq_commP (lib : CommpLib) (numCPU : ℕ+) (writes : List Bytes)
    (hlen : 65 ≤ writes.flatten.length)
    (hlib : lib.Documented (paddedSize writes.flatten.length)) (es : List WriterEvent) :
    (∀ res, (run lib numCPU writes es).at_ = .returned res →
      res = .ok ⟨writes.flatten.length, paddedSize writes.flatten.length,
        lib.pieceCommitmentV1ToCID (commP writes.flatten)⟩) ∧
    Ends (next lib numCPU) (fun w => ∃ res, w.at_ = .returned res) (start writes) := by
  refine ⟨fun res hret => ?_, ?_⟩
  · have hinv : Inv lib numCPU writes.flatten (run lib numCPU writes es) :=
      runEvents_stable (fun _ _ => next_inv) (start_inv writes) es
    generalize run lib numCPU writes es = w at hret hinv
    obtain ⟨hrest, hres⟩ := hinv.returned hret
    exact hres.trans (finish_eq hlib hlen hrest)
  · refine ends_of_lowers (I := Inv lib numCPU writes.flatten) (f := left) (fun _ _ => next_inv)
      ?_ ?_ (start_inv writes)
    · intro w e _ hne
      cases e with
      | main => exact mainStep_left.resolve_left hne
      | leaf i => exact leafStep_left.resolve_left hne
    · exact fun w h hdone => exists_step h fun res hret => hdone ⟨res, hret⟩

/-- One byte more than a chunk, cut one byte before the chunk is full. -/
theorem sum_eq_commP_twoLeaves :
    let writes : List Bytes := [List.replicate (commPBuf - 1) 1, [2, 3]]
    ∃ es, (run filecoin 1 writes es).at_ = .returned (.ok ⟨writes.flatten.length,
      paddedSize writes.flatten.length, filecoin.pieceCommitmentV1ToCID (commP writes.flatten)⟩) := by
  intro writes
  have hlen : writes.flatten.length = 127 * 2 ^ 16 + 1 := by
    rw [List.flatten_cons, List.length_append, List.length_replicate, commPBuf_eq]
    rfl
  have hsize : paddedSize writes.flatten.length ≤ 2 ^ 36 :=
    paddedSize_le_of_le (k := 29) (pieceHeight_le_iff.mpr (by rw [hlen]; decide))
  have hall := sum_eq_commP filecoin 1 writes (by rw [hlen]; decide)
    (filecoin_documented.mono hsize)
  obtain ⟨es, res, hret⟩ := (hall []).2.exists_done
  exact ⟨es, hret.trans (congrArg _ ((hall es).1 res hret))⟩

end DataCidWriter

end Ributil

end Ribs
