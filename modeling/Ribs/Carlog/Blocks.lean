import Ribs.Carlog.CanonTree
import Ribs.Carlog.Durable
import Ribs.Carlog.Walk
/-!
# Carlog — the blocks of a log

When no `Open` of a run has left a torn end in the log, the log is its
header and whole entries, of blocks that were handed to it: in the file,
and behind that in the buffer. The index has places of these entries only.
-/

namespace Ribs

open Common

namespace Carlog

/-- The pieces of a log that is made of these blocks. -/
def pieces (bs : List Block) : List Piece := bs.map fun b => .entry b.hash b.data

/-- The blocks among the pieces. -/
def blocksOf (ps : List Piece) : List Block :=
  (ps.filterMap Piece.block?).map fun e => ⟨e.1, e.2⟩

theorem mem_blocksOf {ps : List Piece} {b : Block} :
    b ∈ blocksOf ps ↔ .entry b.hash b.data ∈ ps := by
  constructor
  · intro h
    obtain ⟨e, he, rfl⟩ := List.mem_map.mp h
    obtain ⟨p, hp, hblock⟩ := List.mem_filterMap.mp he
    cases p with
    | entry m d =>
      obtain rfl := Option.some.inj hblock
      exact hp
    | torn _ => exact absurd hblock (by simp [Piece.block?])
  · intro h
    exact List.mem_map.mpr ⟨(b.hash, b.data), List.mem_filterMap.mpr ⟨_, h, rfl⟩, rfl⟩

theorem blocksOf_append (ps qs : List Piece) :
    blocksOf (ps ++ qs) = blocksOf ps ++ blocksOf qs := by
  simp [blocksOf]

section

variable [X : External]

/-- **Without torn ends** the blocks make the bytes of the log. -/
theorem stream_blocksOf {ps : List Piece} (h : ∀ p ∈ ps, p.Entire) :
    stream (pieces (blocksOf ps)) = stream ps := by
  unfold stream
  congr 1
  induction ps with
  | nil => rfl
  | cons p ps ih =>
    obtain ⟨hp, hps⟩ := List.forall_mem_cons.mp h
    cases p with
    | entry m d => exact congrArg (Piece.bytes (.entry m d) ++ ·) (ih hps)
    | torn bs =>
      obtain rfl : bs = [] := hp
      exact ih hps

/-- An entry is one of the blocks, behind those before it. -/
theorem EntryIn.exists_blocks {ps : List Piece} {m : Multihash} {d : Bytes} {v : I64}
    (h : EntryIn ps m d v) (hentire : ∀ p ∈ ps, p.Entire) : ∃ pre post,
      blocksOf ps = pre ++ ⟨m, d⟩ :: post ∧
        v = makeOffsetLen (stream (pieces pre)).length (payload m d).length := by
  obtain ⟨pre, post, rfl, rfl⟩ := h
  refine ⟨blocksOf pre, blocksOf post, ?_, ?_⟩
  · rw [blocksOf_append]
    rfl
  · rw [stream_blocksOf fun p hp => hentire p (List.mem_append_left _ hp)]

end

/-! ## The log -/

section

variable [X : External] {W : Prop} {Is : Multihash → Bytes → Prop} {E : Prop} {F : Fates}
  {ts ss : List Piece} {w : World}

theorem Readable.entire (h : Readable True Is E ts ss w) : ∀ p ∈ ss, p.Entire :=
  fun p hp => (h.good p hp).2.2 trivial

/-- The blocks are proper, and were handed to the log. -/
theorem Readable.handed (h : Readable W Is E ts ss w) {b : Block} (hb : b ∈ blocksOf ss) :
    Is b.hash b.data ∧ ValidMultihash b.hash ∧ (payload b.hash b.data).length < 2 ^ 23 := by
  have hgood := h.good _ (mem_blocksOf.mp hb)
  exact ⟨hgood.1, hgood.2.1⟩

/-- A walk takes them. -/
theorem Readable.whole (h : Readable W Is E ts ss w) : ∀ p ∈ pieces (blocksOf ss), p.Whole := by
  intro p hp
  obtain ⟨b, hb, rfl⟩ := List.mem_map.mp hp
  obtain ⟨-, hvalid, hshort⟩ := h.handed hb
  have hmax : maxEntryLen = 16777216 := rfl
  rw [payload, List.length_append] at hshort
  exact ⟨hvalid, by omega⟩

/-- **A log of whole entries**: the bytes of the file and of the buffer, up
to the length of the log, are those of its blocks, and a walk meets each of
them and nothing else. There is nothing behind them unless for `E`. -/
structure WellFormed (Is : Multihash → Bytes → Prop) (E : Prop) (bs : List Block) (w : World) :
    Prop where
  handed : ∀ b ∈ bs, Is b.hash b.data
  bytes : (written w).take w.jb.dataLen = stream (pieces bs)
  dataLen : w.jb.dataLen = (stream (pieces bs)).length
  exact : (written w).length = w.jb.dataLen ∨ E
  walk : CarLog.walk w.jb.dataLen w.jb.dataStart (((written w).take w.jb.dataLen).drop
    w.jb.dataStart) = (walked headerBytes.length (pieces bs), none)

/-- The buffer did not stop, unless for `E`. -/
theorem Readable.wellFormed (h : Readable True Is E ts ss w) : WellFormed Is E (blocksOf ss) w := by
  have hstream := stream_blocksOf h.entire
  obtain ⟨j, f, b, ht⟩ := h.reads.tail
  have hwritten : written w = j.current ++ b.buf := by
    simp only [written, CarLog.blockLog, ht.log, ht.buffered, Option.map_some, Option.getD_some]
  have htake : (written w).take w.jb.dataLen = stream (pieces (blocksOf ss)) := by
    rw [hwritten, h.dataLen, hstream]
    exact (List.prefix_iff_eq_take.mp ht.stream).symm
  refine ⟨fun b hb => (h.handed hb).1, htake, by rw [hstream, h.dataLen], ?_, ?_⟩
  · by_cases herr : b.err = none
    · left
      rw [hwritten, h.dataLen, ht.eq (Or.inl herr)]
    · exact Or.inr (ht.err herr)
  · have hdrop : (stream (pieces (blocksOf ss))).drop w.jb.dataStart =
        (pieces (blocksOf ss)).flatMap Piece.bytes := by
      rw [h.dataStart, stream, List.drop_left]
    rw [htake, hdrop, h.dataStart]
    refine walk_whole h.whole ?_
    rw [h.dataLen, ← hstream, stream, List.length_append]
    omega

/-- **The place of a block**: it starts where the blocks before it end. -/
def PlaceOf (bs : List Block) (m : Multihash) (v : I64) : Prop := ∃ pre d post,
  bs = pre ++ ⟨m, d⟩ :: post ∧
    v = makeOffsetLen (stream (pieces pre)).length (payload m d).length

theorem EntryIn.placeOf {m : Multihash} {d : Bytes} {v : I64} (h : EntryIn ss m d v)
    (hentire : ∀ p ∈ ss, p.Entire) : PlaceOf (blocksOf ss) m v := by
  obtain ⟨pre, post, hbs, hv⟩ := h.exists_blocks hentire
  exact ⟨pre, d, post, hbs, hv⟩

theorem mem_blocksOf_of_hasPlace {k : ℕ} {b : Block} (h : HasPlace k ss b w) : b ∈ blocksOf ss := by
  obtain ⟨v, hentry, -⟩ := h
  exact mem_blocksOf.mpr hentry.mem

end

section

open Encoding
open scoped Bsst.Encoding

theorem mended_once : (Sys.start .empty).Always Mended committedOnce := by
  refine ⟨?_, ?_, ?_, ?_, ?_, trivial⟩
  · rintro staging tc plan ⟨⟩
  · rintro staging tc plan ⟨⟩
  · rintro staging tc plan ⟨⟩
  · rintro staging tc plan ⟨⟩
  · rintro staging tc plan - - - h hh
    have hhead : ((Sys.start .empty).run (committedOnce.take 4)).world.disk.head =
        some (some (logHead 66 false)) := by decide +kernel
    obtain rfl : h = logHead 66 false := Option.some.inj (Option.some.inj (hh.symm.trans hhead))
    decide +kernel

end

end Carlog

end Ribs
