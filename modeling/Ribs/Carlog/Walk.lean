import Ribs.Carlog.Live
/-!
# Carlog — the entries of a log, walked

A log that consists of entries is walked entry by entry, each with the
offset it starts at. `logEntries` is what a walk of all that was written
hands out, whether it has reached the file or is still buffered.
-/

namespace Ribs

open Common

namespace Carlog

open CarLog (walk LogEntry blockLog)

/-! ## The entries among pieces -/

/-- A block, when the piece is an entry. -/
def Piece.block? : Piece → Option (Multihash × Bytes)
  | entry m data => some (m, data)
  | torn _ => none

/-- **An entry as `Put` makes them.** -/
def Piece.Whole : Piece → Prop
  | entry m data => ValidMultihash m ∧ data.length ≤ maxEntryLen
  | torn _ => False

/-- What a walk hands out for the pieces behind offset `off`. -/
def walked : ℕ → List Piece → List LogEntry
  | _, [] => []
  | off, .entry m data :: ps =>
    ⟨off, (payload m data).length, ⟨raw, m⟩, data⟩ ::
      walked (off + frameSize (payload m data).length) ps
  | off, .torn b :: ps => walked (off + b.length) ps

/-- The block of an entry. -/
def CarLog.LogEntry.block (e : LogEntry) : Multihash × Bytes := (e.cid.hash, e.data)

theorem map_block_walked (off : ℕ) (ps : List Piece) :
    (walked off ps).map LogEntry.block = ps.filterMap Piece.block? := by
  induction ps generalizing off with
  | nil => rfl
  | cons p ps ih =>
    cases p with
    | entry m data => rw [walked, List.map_cons, ih]; rfl
    | torn b => rw [walked, ih]; rfl

/-- An entry is no larger than what a walk takes. -/
theorem length_payload_le {m : Multihash} {data : Bytes} (hm : ValidMultihash m)
    (hdata : data.length ≤ maxEntryLen) : (payload m data).length ≤ maxAllowedSectionSize := by
  obtain ⟨code, digest, -, hdigest, rfl⟩ := hm
  have h1 := length_putUvarint_le 1
  have h2 := length_putUvarint_le raw
  have h3 := length_putUvarint_le code
  have h4 := length_putUvarint_le digest.length
  have hmax : maxEntryLen = 16777216 := rfl
  have hsection : maxAllowedSectionSize = 33554432 := rfl
  simp only [payload, Cid.bytes, List.length_append, maxVarintLen64] at *
  omega

variable [X : External]

/-- **Walking entries** hands them out, one by one. -/
theorem walk_whole {n off : ℕ} {ps : List Piece} (h : ∀ p ∈ ps, p.Whole)
    (hn : (ps.flatMap Piece.bytes).length ≤ n) :
    walk n off (ps.flatMap Piece.bytes) = (walked off ps, none) := by
  induction ps generalizing n off with
  | nil => cases n <;> rfl
  | cons p ps ih =>
    obtain ⟨hp, hps⟩ := List.forall_mem_cons.mp h
    cases p with
    | torn b => exact hp.elim
    | entry m data =>
      obtain ⟨hm, hdata⟩ := hp
      have hlen := length_payload_le hm hdata
      have hsection : maxAllowedSectionSize = 33554432 := rfl
      rw [List.flatMap_cons, List.length_append, Piece.bytes, length_framed] at hn
      have hpos := frameSize_pos (payload m data).length
      obtain ⟨n, rfl⟩ : ∃ k, n = k + 1 := ⟨n - 1, by omega⟩
      have hcons : ((Piece.entry m data :: ps).flatMap Piece.bytes) =
          putUvarint (payload m data).length ++ (payload m data ++ ps.flatMap Piece.bytes) := by
        rw [List.flatMap_cons, Piece.bytes, framed, List.append_assoc]
      obtain ⟨x, xs, hx⟩ := List.exists_cons_of_ne_nil
        (putUvarint_ne_nil (x := (payload m data).length))
      have hread : readUvarint ((Piece.entry m data :: ps).flatMap Piece.bytes) =
          .ok ((payload m data).length, payload m data ++ ps.flatMap Piece.bytes) := by
        rw [hcons]
        exact readUvarint_putUvarint (by omega) _
      have hcid : X.cidFromBytes (payload m data) = some ((Cid.mk raw m).bytes.length, ⟨raw, m⟩) :=
        X.cidFromBytes_bytes raw m data (Or.inl rfl) hm
      have hdrop : (payload m data).drop (Cid.mk raw m).bytes.length = data := by
        rw [payload, List.drop_left]
      have hne : (Piece.entry m data :: ps).flatMap Piece.bytes =
          x :: (xs ++ (payload m data ++ ps.flatMap Piece.bytes)) := by rw [hcons, hx]; rfl
      have hfit :
          ¬ (payload m data ++ ps.flatMap Piece.bytes).length < (payload m data).length := by
        rw [List.length_append]
        omega
      rw [hne, walk, ← hne, hread]
      simp only [if_neg (Nat.not_lt.mpr hlen), if_neg hfit, List.take_left, List.drop_left, hcid,
        hdrop]
      rw [ih hps (by omega)]
      rfl

/-! ## The entries of a log -/

/-- What was written to the data file, and what is buffered behind it. -/
def written (w : World) : Bytes :=
  blockLog w ++ ((w.jb.dataBuffered.map BufWriter.buf).getD [])

/-- **The entries of the log**, up to its length. -/
def logEntries (w : World) : List LogEntry :=
  let bs := ((written w).take w.jb.dataLen).drop w.jb.dataStart
  (walk bs.length w.jb.dataStart bs).1

variable {G : Piece → Prop} {E exact : Prop} {ts ss : List Piece} {w : World}

theorem Live.logEntries_eq (h : Live G E exact ts ss w) (hwhole : ∀ p ∈ ss, p.Whole) :
    logEntries w = walked headerBytes.length ss := by
  obtain ⟨j, f, b, ht⟩ := h.tail
  have hwritten : written w = j.current ++ b.buf := by
    simp only [written, blockLog, ht.log, ht.buffered, Option.map_some, Option.getD_some]
  have htake : (written w).take w.jb.dataLen = stream ss := by
    rw [hwritten, h.dataLen]
    exact (List.prefix_iff_eq_take.mp ht.stream).symm
  have hdrop : (stream ss).drop w.jb.dataStart = ss.flatMap Piece.bytes := by
    rw [h.dataStart, stream, List.drop_left]
  unfold logEntries
  rw [htake, hdrop, h.dataStart]
  exact congrArg Prod.fst (walk_whole hwhole (le_refl _))

/-- The blocks of the log. -/
theorem Live.map_block (h : Live G E exact ts ss w) (hwhole : ∀ p ∈ ss, p.Whole) :
    (logEntries w).map LogEntry.block = ss.filterMap Piece.block? := by
  rw [h.logEntries_eq hwhole, map_block_walked]

omit X in
/-- A `Put` of blocks appends whole entries, if any. -/
theorem putOk_whole {c : List Multihash} {b : List Bytes} (hvalid : ∀ m ∈ c, ValidMultihash m) :
    PutOk Piece.Whole w c b := by
  intro j _ m d hmem hd
  simp only [freshEntries, List.mem_map, List.mem_filter, Prod.exists] at hmem
  obtain ⟨m', d', ⟨hmem, -⟩, heq⟩ := hmem
  obtain ⟨rfl, rfl⟩ := Piece.entry.inj heq
  exact ⟨hvalid _ (List.of_mem_zip hmem).1, hd⟩

end Carlog

end Ribs
