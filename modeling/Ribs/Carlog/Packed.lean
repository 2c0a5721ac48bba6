import Ribs.Carlog.Encoding
import Ribs.Carlog.Read
import Ribs.Carlog.Rules
import Ribs.Carlog.Stream
import Ribs.Common.Respects
/-!
# Carlog — packed places

The place of an entry, offset and length, is one number: 40 bits of
offset, and 24 bits of length with a sign. `Put` checks the length of the
data against 24 bits; what it packs is the length of CID and data, and
`View` takes the sign for real. So a place is read back as it was packed,
and the entry with it, just where CID and data stay below 23 bits.
-/

namespace Ribs

open Common

namespace Carlog

/-! ## All lengths -/

/-- Of a length the low 24 bits are packed. -/
theorem toNat_packed (off length : ℕ) :
    (makeOffsetLen off length).toNat = 2 ^ 40 * (length % 2 ^ 24) + off % 2 ^ 40 := by
  have hshift : BitVec.ofNat 64 length <<< 40 = BitVec.ofNat 64 (length % 2 ^ 24) <<< 40 := by
    apply BitVec.eq_of_toNat_eq
    simp only [BitVec.toNat_shiftLeft, BitVec.toNat_ofNat, Nat.shiftLeft_eq]
    omega
  have hmod : makeOffsetLen off length = makeOffsetLen off (length % 2 ^ 24) :=
    congrArg (· ||| BitVec.ofNat 64 off &&& 0xFFFFFFFFFF) hshift
  rw [hmod, toNat_makeOffsetLen (Nat.mod_lt _ (by norm_num))]

/-- **The length that is read back**, of 24 bits with a sign. -/
theorem snd_packed (off length : ℕ) :
    (fromOffsetLen (makeOffsetLen off length)).2 =
      if length % 2 ^ 24 < 2 ^ 23 then (length % 2 ^ 24 : ℤ) else (length % 2 ^ 24 : ℤ) - 2 ^ 24 := by
  rw [fromOffsetLen]
  simp only [BitVec.toInt_sshiftRight]
  rw [BitVec.toInt_eq_toNat_cond, toNat_packed, Int.shiftRight_eq_div_pow]
  split_ifs <;> push_cast <;> omega

/-- **A place is read back as it was packed**, and is not the one that
stands for an absent block, just where the length stays below the sign. -/
theorem packed_iff {off length : ℕ} (hoff : off < 2 ^ 40) :
    fromOffsetLen (makeOffsetLen off length) = (off, (length : ℤ)) ∧ makeOffsetLen off length ≠ -1 ↔
      length < 2 ^ 23 := by
  have hfst := fst_fromOffsetLen off length
  have hsnd := snd_packed off length
  constructor
  · rintro ⟨heq, -⟩
    rw [heq] at hsnd
    dsimp only at hsnd
    split_ifs at hsnd <;> omega
  · intro h
    refine ⟨Prod.ext ?_ (snd_fromOffsetLen h), makeOffsetLen_ne_neg_one h⟩
    rw [hfst]
    exact Nat.mod_eq_of_lt hoff

/-! ## Reading an entry back -/

section

variable [X : External] {w : World} {m : Multihash} {off : ℕ} {data : Bytes} {cb : Callback}
variable {Q : List Call → Prop}

/-- Where `Put` has written an entry that the write LRU has not kept: its
frame is in the file, and its packed place in the index. -/
structure Written (w : World) (m : Multihash) (off : ℕ) (data : Bytes) : Prop where
  frame : FrameAt (CarLog.blockLog w) off (payload m data)
  place : ∃ j, w.disk.levelIndex = some j ∧
    (j.current[m]?).getD (-1) = makeOffsetLen off (payload m data).length
  index : ∃ idx, w.jb.rIdx = some (.level idx)
  noExternal : w.jb.eIdx = none
  idxLk : w.jb.idxLk.writer = false
  lru : ∃ l, w.jb.writeLru = some l ∧ lruGet l (makeOffsetLen off (payload m data).length) = none
  file : ∃ f, w.jb.data = some f ∧ f.isOpen = true
  pos : ∃ p, w.jb.dataPos = some p ∧ off + frameSize (payload m data).length ≤ p

/-- `View` hands out the data, as found, and nothing else. -/
def ReadsBack (w : World) (m : Multihash) (data : Bytes) : Prop :=
  ∀ cb, ((CarLog.view [m] cb).run w []).state.calls = w.calls ++ [⟨0, true, data⟩]

namespace CarLog

/-- `View` of one hash is the reading of its place. -/
theorem wp_view_one {loc : I64} {p : ℕ} {j : Journal Index} {idx : LevelDBIndex}
    (hidx : w.jb.rIdx = some (.level idx)) (hext : w.jb.eIdx = none)
    (hlk : w.jb.idxLk.writer = false) (hlevel : w.disk.levelIndex = some j)
    (hloc : (j.current[m]?).getD (-1) = loc) (hpos : w.jb.dataPos = some p)
    (hat : ∀ w', w'.disk = w.disk → w'.jb.data = w.jb.data → w'.jb.writeLru = w.jb.writeLru →
      w'.calls = w.calls → wp calm (viewAt cb 0 loc p) (.always fun u => Q u.calls) w') :
    wp calm (view [m] cb) (.always fun u => Q u.calls) w := by
  unfold view rLockIdx
  rw [wp_bind]
  simp only [wp_get, hlk, Bool.false_eq_true, if_false, wp_modifyJb, hidx, hext]
  unfold ReadableIndex.get LevelDBIndex.get LevelDBIndex.contents
  simp [hlevel, withPendingRead, addPendingRead, rUnlockIdx, pos, hpos, donePendingRead]
  refine ⟨?_, fun _ => False.elim, False.elim⟩
  rw [show (18446744073709551615#64 : I64) = -1 from rfl, hloc, viewLocs, wp_bind]
  exact wp_mono (hat _ rfl rfl rfl rfl) (fun _ _ => id) (fun _ _ => id) (fun _ => id) fun _ _ => id

omit X in
/-- The bytes of the file, where they are there. -/
theorem wp_dataReadAt {n : ℕ} {f : DataFile} (hf : w.jb.data = some f) (hopen : f.isOpen = true)
    (hlen : off + n ≤ (blockLog w).length) {Q : Post World Err Bytes}
    (hok : Q.ok (((blockLog w).drop off).take n) w) : wp calm (dataReadAt off n) Q w := by
  unfold dataReadAt openData
  rw [wp_bind]
  simp only [wp_get, hf, hopen, if_true, wp_ret, wp_bind, wp_ioRead, if_pos hlen]
  exact ⟨hok, fun h => h.elim fun _ => False.elim, False.elim⟩

omit X in
theorem wp_dataReadAt_le {n : ℕ} {f : DataFile} (hf : w.jb.data = some f)
    (hopen : f.isOpen = true) : wp calm (dataReadAt off n)
    ⟨fun b u => u = w ∧ b.length ≤ n, fun _ u => u = w, fun _ => False, fun _ u => u = w⟩ w := by
  unfold dataReadAt openData
  rw [wp_bind]
  simp only [wp_get, hf, hopen, if_true, wp_ret, wp_bind, wp_ioRead]
  refine ⟨?_, fun h => h.elim fun _ => False.elim, False.elim⟩
  split_ifs
  · exact ⟨rfl, List.length_take_le _ _⟩
  · rfl

omit X in
/-- A file that reaches far enough is not flushed. -/
theorem wp_reach {dataAt : ℕ} {limit : ℤ} (h : limit ≤ dataAt) {Q : Post World Err ℕ}
    (hok : Q.ok dataAt w) : wp calm (reach dataAt limit) Q w := by
  unfold reach
  rw [if_pos h]
  exact hok

omit X in
theorem lenlen_natCast {n : ℕ} (h : n < 2 ^ 64) : lenlen n = (putUvarint n).length := by
  unfold lenlen
  congr 2
  omega

/-- A place that the LRU does not have, and that the file reaches. -/
theorem wp_viewAt_miss {loc : I64} {p : ℕ} {l : List (I64 × Bytes)} (hloc : loc ≠ -1)
    (hl : w.jb.writeLru = some l) (hmiss : lruGet l loc = none)
    (hp : (fromOffsetLen loc).1 + lenlen (fromOffsetLen loc).2 + (fromOffsetLen loc).2 ≤ p)
    (h : wp calm (readEntry dataReadAt loc) ⟨fun d u => Q (u.calls ++ [⟨0, true, d⟩]),
      fun _ u => Q u.calls, fun _ => False, fun _ u => Q u.calls⟩ w) :
    wp calm (viewAt cb 0 loc p) (.always fun u => Q u.calls) w := by
  have hcall : ∀ d u, Q (u.calls ++ [⟨0, true, d⟩]) →
      wp calm (cb.call ⟨0, true, d⟩) (.always fun u => Q u.calls) u := by
    intro d u hu
    unfold Callback.call
    simp only [wp_get, wp_put]
    cases cb ⟨0, true, d⟩ with
    | none => exact hu
    | some n => exact hu
  unfold viewAt
  rw [wp_get, if_neg hloc, wp_bind, hl, wp_deref_some]
  dsimp only
  rw [hmiss]
  dsimp only
  rw [wp_bind]
  refine wp_reach hp ?_
  dsimp only
  rw [wp_bind]
  refine wp_mono h (fun d u hu => ?_) (fun _ _ => id) (fun _ => False.elim) fun _ _ => id
  dsimp only
  rw [wp_bind]
  exact wp_mono (hcall d u hu) (fun _ _ => id) (fun _ _ => id) (fun _ => id) fun _ _ => id

/-- **An entry is read back**, by a place that says its length. -/
theorem wp_readEntry_short (hoff : off < 2 ^ 40) (hm : ValidMultihash m)
    (hshort : (payload m data).length < 2 ^ 23)
    (hframe : FrameAt (blockLog w) off (payload m data)) {f : DataFile} (hf : w.jb.data = some f)
    (hopen : f.isOpen = true) {Q : Post World Err Bytes} (hok : Q.ok data w) :
    wp calm (readEntry dataReadAt (makeOffsetLen off (payload m data).length)) Q w := by
  have hplace := ((packed_iff hoff).mpr hshort).1
  unfold readEntry
  rw [hplace]
  dsimp only
  have hlen : lenlen (payload m data).length = (putUvarint (payload m data).length).length :=
    lenlen_natCast (by omega)
  rw [if_neg (Int.not_lt.mpr (Int.natCast_nonneg _)), hlen, wp_bind, wp_wrapErr]
  have hend : off + (putUvarint (payload m data).length).length + (payload m data).length ≤
      (blockLog w).length := by
    have := hframe.end_le
    unfold frameSize at this
    omega
  refine wp_dataReadAt hf hopen hend ?_
  dsimp only
  rw [hframe.payload_eq, payload]
  rw [X.cidFromBytes_bytes raw m data (Or.inl rfl) hm]
  dsimp only
  rw [List.drop_left]
  exact hok

omit X in
/-- A CID is short. -/
theorem length_cid_le (hm : ValidMultihash m) : (Cid.mk raw m).bytes.length ≤ 168 := by
  obtain ⟨code, digest, -, hdigest, rfl⟩ := hm
  have h₁ := length_putUvarint_le 1
  have h₂ := length_putUvarint_le raw
  have h₃ := length_putUvarint_le code
  have h₄ := length_putUvarint_le digest.length
  simp only [Cid.bytes, List.length_append, maxVarintLen64] at *
  omega

omit X in
/-- Less is asked of the file than the entry takes. -/
theorem reach_long (hlong : 2 ^ 23 ≤ (payload m data).length) (hm : ValidMultihash m)
    (hdata : data.length ≤ maxEntryLen) {loc : I64}
    (hloc : loc = makeOffsetLen off (payload m data).length) :
    (fromOffsetLen loc).1 + lenlen (fromOffsetLen loc).2 + (fromOffsetLen loc).2 ≤
      (off + frameSize (payload m data).length : ℕ) := by
  have hcid := length_cid_le hm
  have hlen : (payload m data).length = (Cid.mk raw m).bytes.length + data.length :=
    List.length_append
  have hmax : maxEntryLen = 2 ^ 24 := rfl
  have hsnd := snd_packed off (payload m data).length
  have hfst := fst_fromOffsetLen off (payload m data).length
  rw [← hloc] at hsnd hfst
  have hprefix : lenlen (fromOffsetLen loc).2 ≤ maxVarintLen64 := length_putUvarint_le _
  have hframe := lt_frameSize (payload m data).length
  simp only [maxVarintLen64] at hprefix
  have hmod : off % 2 ^ 40 ≤ off := Nat.mod_le _ _
  split_ifs at hsnd <;> push_cast <;> omega

/-- **A place that lost part of the length** gives less than the data, or
nothing at all. -/
theorem wp_readEntry_long (hlong : 2 ^ 23 ≤ (payload m data).length) (hm : ValidMultihash m)
    (hdata : data.length ≤ maxEntryLen) {f : DataFile} (hf : w.jb.data = some f)
    (hopen : f.isOpen = true) :
    wp calm (readEntry dataReadAt (makeOffsetLen off (payload m data).length))
      ⟨fun d u => u = w ∧ d.length < data.length, fun _ u => u = w, fun _ => False,
        fun _ u => u = w⟩ w := by
  have hcid := length_cid_le hm
  have hlen : (payload m data).length = (Cid.mk raw m).bytes.length + data.length :=
    List.length_append
  have hmax : maxEntryLen = 2 ^ 24 := rfl
  have hsnd := snd_packed off (payload m data).length
  unfold readEntry
  generalize fromOffsetLen (makeOffsetLen off (payload m data).length) = place at hsnd
  obtain ⟨o, entLen⟩ := place
  dsimp only at hsnd ⊢
  by_cases hneg : entLen < 0
  · rw [if_pos hneg]
    rfl
  -- what is left of the length are the few bytes above 24 bits
  have hshort : entLen.toNat < data.length := by
    split_ifs at hsnd <;> omega
  rw [if_neg hneg, wp_bind, wp_wrapErr]
  refine wp_mono (wp_dataReadAt_le hf hopen) ?_ (fun _ _ => id) (fun _ => id) fun _ _ => id
  rintro ent u ⟨rfl, hent⟩
  dsimp only
  cases X.cidFromBytes ent with
  | none => rfl
  | some r =>
    refine ⟨rfl, ?_⟩
    rw [List.length_drop]
    omega

theorem wp_view_short (h : Written w m off data) (hoff : off < 2 ^ 40) (hm : ValidMultihash m)
    (hshort : (payload m data).length < 2 ^ 23) :
    wp calm (view [m] cb) (.always fun u => u.calls = w.calls ++ [⟨0, true, data⟩]) w := by
  obtain ⟨j, hlevel, hloc⟩ := h.place
  obtain ⟨idx, hidx⟩ := h.index
  obtain ⟨l, hl, hmiss⟩ := h.lru
  obtain ⟨f, hf, hopen⟩ := h.file
  obtain ⟨p, hpos, hp⟩ := h.pos
  obtain ⟨hplace, hne⟩ := (packed_iff hoff).mpr hshort
  refine wp_view_one (Q := (· = w.calls ++ [⟨0, true, data⟩])) hidx h.noExternal h.idxLk hlevel hloc
    hpos fun w' hdisk hdata' hlru hcalls => ?_
  have hframe : FrameAt (blockLog w') off (payload m data) := by
    unfold blockLog
    rw [hdisk]
    exact h.frame
  refine wp_viewAt_miss (Q := (· = w.calls ++ [⟨0, true, data⟩])) hne (hlru.trans hl) hmiss ?_ ?_
  · rw [hplace]
    dsimp only
    rw [lenlen_natCast (by omega)]
    unfold frameSize at hp
    omega
  · refine wp_readEntry_short hoff hm hshort hframe (hdata'.trans hf) hopen ?_
    exact congrArg (· ++ [(⟨0, true, data⟩ : Call)]) hcalls

/-- **Such an entry is not read back.** -/
theorem wp_view_long (h : Written w m off data) (hm : ValidMultihash m)
    (hdata : data.length ≤ maxEntryLen) (hlong : 2 ^ 23 ≤ (payload m data).length) :
    wp calm (view [m] cb) (.always fun u => u.calls ≠ w.calls ++ [⟨0, true, data⟩]) w := by
  obtain ⟨j, hlevel, hloc⟩ := h.place
  obtain ⟨idx, hidx⟩ := h.index
  obtain ⟨l, hl, hmiss⟩ := h.lru
  obtain ⟨f, hf, hopen⟩ := h.file
  obtain ⟨p, hpos, hp⟩ := h.pos
  refine wp_view_one (Q := (· ≠ w.calls ++ [⟨0, true, data⟩])) hidx h.noExternal h.idxLk hlevel hloc
    hpos fun w' hdisk hdata' hlru hcalls => ?_
  have hcall : ∀ c : Call, c ≠ ⟨0, true, data⟩ → w'.calls ++ [c] ≠ w.calls ++ [⟨0, true, data⟩] := by
    intro c hc heq
    rw [hcalls, List.append_cancel_left_eq, List.cons.injEq] at heq
    exact hc heq.1
  have hnone : w'.calls ≠ w.calls ++ [⟨0, true, data⟩] := by
    rw [hcalls]
    simp
  by_cases habsent : makeOffsetLen off (payload m data).length = -1
  · rw [habsent, viewAt, wp_get, if_pos rfl, wp_bind]
    unfold Callback.call
    simp only [wp_get, wp_put]
    have hfound : w'.calls ++ [⟨0, false, []⟩] ≠ w.calls ++ [⟨0, true, data⟩] :=
      hcall _ (by simp)
    cases cb ⟨0, false, []⟩ with
    | none => exact hfound
    | some n => exact hfound
  · refine wp_viewAt_miss (Q := (· ≠ w.calls ++ [⟨0, true, data⟩])) habsent (hlru.trans hl) hmiss
      ?_ ?_
    · exact (reach_long hlong hm hdata rfl).trans (by exact_mod_cast hp)
    · refine wp_mono (wp_readEntry_long hlong hm hdata (hdata'.trans hf) hopen) ?_ ?_
        (fun _ => id) ?_
      · rintro d u ⟨rfl, hd⟩
        refine hcall _ fun heq => ?_
        rw [Call.mk.injEq] at heq
        rw [heq.2.2] at hd
        exact absurd hd (lt_irrefl _)
      · rintro _ u rfl
        exact hnone
      · rintro _ u rfl
        exact hnone

end CarLog

/-- **The packed place of an entry that `Put` accepts**: it is read back as
it was packed, and not taken for that of an absent block, and `View` reads
the entry back from where it was written, if and only if CID and data stay
below 23 bits. -/
theorem packed_place_iff (hoff : off < 2 ^ 40) (hm : ValidMultihash m)
    (hdata : data.length ≤ maxEntryLen) :
    (fromOffsetLen (makeOffsetLen off (payload m data).length) =
        (off, ((payload m data).length : ℤ)) ∧
      makeOffsetLen off (payload m data).length ≠ -1 ↔ (payload m data).length < 2 ^ 23) ∧
    ∀ w, Written w m off data → (ReadsBack w m data ↔ (payload m data).length < 2 ^ 23) := by
  refine ⟨packed_iff hoff, fun w hw => ⟨fun hback => ?_, fun hshort cb => ?_⟩⟩
  · by_contra hlong
    have hlen := Nat.le_of_not_lt hlong
    exact (wp_sound (CarLog.wp_view_long hw hm hdata hlen) within_nil).state (hback fun _ => none)
  · exact (wp_sound (CarLog.wp_view_short hw hoff hm hshort) within_nil).state

end

theorem validMultihash_seven : ValidMultihash [0, 1, 7] := ⟨0, [7], by decide, by decide, rfl⟩

section

open Encoding

/-- A block of one byte, the first of a log. -/
theorem packed_place_seven :
    (fromOffsetLen (makeOffsetLen 59 (payload [0, 1, 7] [7]).length) =
        (59, ((payload [0, 1, 7] [7]).length : ℤ)) ∧
      makeOffsetLen 59 (payload [0, 1, 7] [7]).length ≠ -1 ↔
        (payload [0, 1, 7] [7]).length < 2 ^ 23) ∧
    ∀ w, Written w [0, 1, 7] 59 [7] →
      (ReadsBack w [0, 1, 7] [7] ↔ (payload [0, 1, 7] [7]).length < 2 ^ 23) :=
  packed_place_iff (by norm_num) validMultihash_seven (by decide)

end

/-- Eight megabytes are accepted, and their length is read back negative. -/
theorem packed_place_lost : ¬ ∀ (off : ℕ) (m : Multihash) (data : Bytes), off < 2 ^ 40 →
    ValidMultihash m → data.length ≤ maxEntryLen →
    fromOffsetLen (makeOffsetLen off (payload m data).length) =
        (off, ((payload m data).length : ℤ)) ∧
      makeOffsetLen off (payload m data).length ≠ -1 := by
  intro h
  have hdata : (List.replicate (2 ^ 23) (0 : UInt8)).length ≤ maxEntryLen := by
    rw [List.length_replicate]
    decide
  have hlen : (payload [0, 1, 7] (List.replicate (2 ^ 23) 0)).length = 5 + 2 ^ 23 := by
    rw [payload, List.length_append, List.length_replicate]
    rfl
  have hshort := (packed_iff (by norm_num)).mp (h 59 _ _ (by norm_num) validMultihash_seven hdata)
  rw [hlen] at hshort
  omega

end Carlog

end Ribs
