import Ribs.Carlog.Rules
import Ribs.Carlog.System
import Ribs.Ributil.Complete
/-!
# Ributil — an undamaged CAR

`WriteCar` writes a tree of blocks depth first, and the repair reader goes
through it in the same order. In front of every entry it looks at a fixed
number of bytes, as many as the length and the CID can take, whatever the
length of the entry is.
-/

namespace Ribs

open Common

namespace Ributil

open Carlog (External raw)

/-! ## The order of the blocks -/

/-- **Blocks in depth-first order**: those of the CIDs, one after the other,
and behind each block the blocks it links to. -/
inductive DepthFirst [X : External] : List Cid → List (Cid × Bytes) → Prop
  | nil : DepthFirst [] []
  | leaf {c : Cid} {cs : List Cid} {data : Bytes} {bs : List (Cid × Bytes)}
    (hc : c.codec = raw) (h : DepthFirst cs bs) : DepthFirst (c :: cs) ((c, data) :: bs)
  | node {c : Cid} {cs links : List Cid} {data : Bytes} {bs : List (Cid × Bytes)}
    (hc : c.codec ≠ raw) (hlinks : X.decodeLinks data = some links)
    (h : DepthFirst (links ++ cs) bs) : DepthFirst (c :: cs) ((c, data) :: bs)

theorem entries_append (bs bs' : List (Cid × Bytes)) :
    entries (bs ++ bs') = entries bs ++ entries bs' := by
  simp [entries]

theorem entries_cons (b : Cid × Bytes) (bs : List (Cid × Bytes)) :
    entries (b :: bs) = framed (b.1.bytes ++ b.2) ++ entries bs := by
  simp [entries]

end Ributil

/-! ## What is written -/

namespace Carlog

open Ributil (DepthFirst entries entries_append)

variable [X : External]

namespace CarLog

omit X in
theorem wp_writeOutput {p : Bytes} {w : World} : wp anyFate (writeOutput p)
    (.returns fun _ w' => w'.out = w.out ++ p) w :=
  ⟨rfl, fun _ _ => trivial, fun _ => trivial⟩

theorem wp_readNode {off : ℕ} {w : World} : wp anyFate (readNode off)
    (.returns fun _ w' => w'.out = w.out) w := by
  have hopen : wp anyFate openData (.returns fun _ w' => w' = w) w := by
    unfold openData
    rw [wp_get]
    rcases w.jb.data with _ | f
    · trivial
    · dsimp only
      split_ifs
      · exact rfl
      · trivial
  refine wp_returns_seq hopen fun _ u hu => ?_
  subst hu
  refine wp_returns_seq (R := fun _ w' => w' = u) (wp_ioRead.mpr
    ⟨rfl, fun _ => trivial, fun _ => trivial⟩) fun _ v hv => ?_
  subst hv
  rw [wp_get]
  rcases readFrame maxAllowedSectionSize ((blockLog v).drop off) with e | ⟨d, tail⟩
  · cases e <;> trivial
  · dsimp only
    rcases X.cidFromBytes d with _ | ⟨n, c⟩
    · trivial
    · exact rfl

omit X in
theorem wp_writeBlock {s : CarWriter} {c : Cid} {data : Bytes} {w : World} :
    wp anyFate (wrapErr "writing node" (writeBlock s c data)) (.returns fun s' w' =>
      w'.out = w.out ++ entries [(c, data)] ∧
        s' = { s with size := s.size + (entries [(c, data)]).length }) w := by
  have hone : entries [(c, data)] = framed (c.bytes ++ data) := by simp [entries]
  rw [hone]
  exact wp_returns_handle (wp_returns_seq wp_writeOutput fun _ _ hu => ⟨hu, rfl⟩)

/-- The links are those that are written below the node. -/
theorem wp_nodeLinks {c : Cid} {data : Bytes} {w : World} : wp anyFate (nodeLinks c data)
    (.returns fun links w' => w' = w ∧ ∀ cs bs, DepthFirst (links ++ cs) bs →
      DepthFirst (c :: cs) ((c, data) :: bs)) w := by
  unfold nodeLinks
  split_ifs with hc
  · exact ⟨rfl, fun cs bs h => .leaf hc h⟩
  · rcases hlinks : X.decodeLinks data with _ | links
    · trivial
    · exact ⟨rfl, fun cs bs h => .node hc hlinks h⟩

/-- **A node is written with all that is below it**, depth first. -/
theorem wp_writeNode (atLayer : ℕ) (s : CarWriter) (c : Cid) (data : Bytes) (w : World) :
    wp anyFate (writeNode atLayer s c data) (.returns fun s' w' => ∃ bs,
      w'.out = w.out ++ entries bs ∧ s'.size = s.size + (entries bs).length ∧
        ∀ cs post, DepthFirst cs post → DepthFirst (c :: cs) (bs ++ post)) w := by
  induction atLayer generalizing s c data w with
  | zero =>
    unfold writeNode
    refine wp_returns_seq wp_writeBlock fun s₁ u hu => ?_
    obtain ⟨hout, rfl⟩ := hu
    refine wp_returns_seq wp_nodeLinks fun links v hv => ?_
    obtain ⟨rfl, hlinks⟩ := hv
    rw [wp_ite]
    refine ⟨fun hnil => ?_, fun _ => trivial⟩
    subst hnil
    exact ⟨[(c, data)], hout, rfl, fun cs post h => hlinks cs post h⟩
  | succ atLayer ih =>
    unfold writeNode
    refine wp_returns_seq wp_writeBlock fun s₁ u hu => ?_
    obtain ⟨hout, rfl⟩ := hu
    refine wp_returns_seq wp_nodeLinks fun links v hv => ?_
    obtain ⟨rfl, hlinks⟩ := hv
    -- what is written below it, up to one of the links
    let below (pre : List Cid) (s' : CarWriter) (w' : World) : Prop := ∃ bs,
      w'.out = w.out ++ entries ((c, data) :: bs) ∧
        s'.size = s.size + (entries ((c, data) :: bs)).length ∧
        ∀ cs post, DepthFirst cs post → DepthFirst (pre ++ cs) (bs ++ post)
    -- the loop over the links, from none of them on
    have hstart : below [] { s with size := s.size + (entries [(c, data)]).length } v :=
      ⟨[], hout, rfl, fun _ _ h => h⟩
    refine wp_returns_mono (wp_foldlM (I := below) ?_ hstart links) fun s' w' h => ?_
    · -- one of them
      rintro pre ci s' w' ⟨bs, hout', hsize, hpre⟩
      rcases s'.layers[atLayer]? with _ | off
      · trivial
      refine wp_returns_seq (R := fun x t => x = off ∧ t = w') ⟨rfl, rfl⟩ fun x t ht => ?_
      obtain ⟨rfl, rfl⟩ := ht
      refine wp_returns_seq (R := fun _ t' => t'.out = t.out) (wp_returns_handle wp_readNode)
        fun x t ht => ?_
      obtain ⟨ci', data', next⟩ := x
      refine wp_returns_seq (R := fun _ t' => t' = t ∧ ci' = ci) (wp_failIf.mpr
        ⟨fun _ => trivial, fun h => ⟨rfl, not_not.mp h⟩⟩) fun _ t' ht' => ?_
      obtain ⟨rfl, rfl⟩ := ht'
      refine wp_returns_mono (ih _ ci' data' _) fun s'' w'' h => ?_
      obtain ⟨bs', hout'', hsize', hnode⟩ := h
      refine ⟨bs ++ bs', ?_, ?_, fun cs post h => ?_⟩
      · rw [hout'', ht, hout', ← List.cons_append, entries_append, List.append_assoc]
      · rw [hsize', hsize, ← List.cons_append, entries_append, List.length_append, Nat.add_assoc]
      · rw [List.append_assoc, List.append_assoc]
        exact hpre _ _ (hnode cs post h)
    · obtain ⟨bs, hout', hsize, hbelow⟩ := h
      exact ⟨(c, data) :: bs, hout', hsize, fun cs post h => hlinks cs _ (hbelow cs post h)⟩

/-- **What `WriteCar` emits**: the header with the root, and the entries of
its blocks in depth-first order. -/
theorem wp_writeCar (w : World) : wp anyFate writeCar (.returns fun x w' => ∃ bs,
    w'.out = w.out ++ (carHeader x.2 ++ entries bs) ∧
      x.1 = (carHeader x.2 ++ entries bs).length ∧ DepthFirst [x.2] bs) w := by
  have hlock : ∀ u, wp anyFate lockReadState (.returns fun _ w' => w'.out = u.out) u := by
    intro u
    unfold lockReadState
    rw [wp_get]
    split_ifs
    · trivial
    · exact rfl
  have hunlock : ∀ u, wp anyFate unlockReadState (.returns fun _ w' => w'.out = u.out) u := by
    intro u
    unfold unlockReadState
    rw [wp_get]
    split_ifs
    · exact rfl
    · trivial
  unfold writeCar
  refine wp_returns_seq (hlock w) fun _ u hu => ?_
  rw [wp_get, wp_ite]
  refine ⟨fun _ => wp_returns_seq (hunlock u) fun _ _ _ => trivial, fun _ => ?_⟩
  refine wp_returns_seq (hunlock u) fun _ v hv => ?_
  refine wp_returns_seq (wp_returns_handle wp_readNode) fun x t ht => ?_
  obtain ⟨rcid, node, next⟩ := x
  refine wp_returns_seq (wp_returns_handle wp_writeOutput) fun _ t' ht' => ?_
  refine wp_returns_seq (wp_returns_handle (wp_writeNode _ _ _ _ _)) fun s' w' h => ?_
  obtain ⟨bs, hout, hsize, hbs⟩ := h
  refine ⟨bs, ?_, ?_, ?_⟩
  · rw [hout, ht', ht, hv, hu, List.append_assoc]
  · rw [List.length_append]
    exact hsize
  · have := hbs [] [] .nil
    rwa [List.append_nil] at this

end CarLog

end Carlog

namespace Ributil

open Carlog (External dagCBOR raw maxAllowedSectionSize maxEntryLen IsSha256 sha256Multihash)

/-! ## Finding a CID that is not damaged -/

theorem onesCount8_eq_zero {b : UInt8} (h : onesCount8 b = 0) : b = 0 := by
  rw [onesCount8, List.countP_eq_zero] at h
  refine UInt8.toNat_inj.mp (Nat.eq_of_testBit_eq fun i => ?_)
  by_cases hi : i < 8
  · simpa using h i (List.mem_range.mpr hi)
  · have hlt : b.toNat < 2 ^ i := b.toNat_lt.trans_le (Nat.pow_le_pow_right (by omega) (by omega))
    simp [Nat.testBit_lt_two_pow hlt]

theorem overlap_cons (p b : UInt8) (patt bs : Bytes) :
    overlap (p :: patt) (b :: bs) = 8 - onesCount8 (p ^^^ b) + overlap patt bs := by
  simp [overlap]

theorem overlap_self (patt rest : Bytes) : overlap patt (patt ++ rest) = 8 * patt.length := by
  induction patt with
  | nil => rfl
  | cons p patt ih =>
    have hzero : onesCount8 (p ^^^ p) = 0 := by
      rw [UInt8.xor_self]
      rfl
    rw [List.cons_append, overlap_cons, ih, hzero, List.length_cons]
    omega

/-- **All bits agree** with the pattern itself only. -/
theorem eq_of_overlap {patt b : Bytes} (h : overlap patt b = 8 * patt.length) :
    ∃ rest, b = patt ++ rest := by
  induction patt generalizing b with
  | nil => exact ⟨b, rfl⟩
  | cons p patt ih =>
    cases b with
    | nil =>
      simp [overlap] at h
    | cons x b =>
      have hle := overlap_le patt b
      rw [overlap_cons, List.length_cons] at h
      have hzero : onesCount8 (p ^^^ x) = 0 := by omega
      obtain rfl : p = x := UInt8.xor_eq_zero_iff.mp (onesCount8_eq_zero hzero)
      obtain ⟨rest, rfl⟩ := ih (b := b) (by omega)
      exact ⟨rest, rfl⟩

section

variable [X : External]

/-- **An intact block**: its CID has the SHA-256 sum of its data, and it is
not larger than `Put` allows. -/
structure Intact (b : Cid × Bytes) : Prop where
  codec : b.1.codec = raw ∨ b.1.codec = dagCBOR
  hash : b.1.hash = sha256Multihash (X.sum256 b.2)
  size : b.2.length ≤ maxEntryLen

/-- Hashing does what the package of CIDs says. -/
def Blocks.Sums (B : Blocks) : Prop :=
  ∀ c data, IsSha256 c.hash → B.sum c data = some (sha256Cid c.codec data)

/-- A node without links. -/
def Hollow (b : Cid × Bytes) : Prop := b.1.codec ≠ raw ∧ X.decodeLinks b.2 = some []

/-- **Blocks that the reader does not stumble over**: the last one has three
bytes of data, and none is a node without links. -/
def Readable (bs : List (Cid × Bytes)) : Prop :=
  (∀ b ∈ bs.getLast?, 3 ≤ b.2.length) ∧ ∀ b ∈ bs, ¬ Hollow b

variable {c : Cid} {data : Bytes} {bs : List (Cid × Bytes)}

/-- The CID of a SHA-256 sum. -/
theorem Intact.bytes_eq (h : Intact (c, data)) : ∃ codec digest,
    c.bytes = 0x01 :: codec :: 0x12 :: 0x20 :: digest ∧ (codec = 0x55 ∨ codec = 0x71) ∧
      digest.length = 32 := by
  have hone : putUvarint 1 = [0x01] := rfl
  have hraw : putUvarint raw = [0x55] := rfl
  have hnode : putUvarint dagCBOR = [0x71] := rfl
  have hhash : c.hash = 0x12 :: 0x20 :: (X.sum256 data).1 := h.hash
  have hlen := (X.sum256 data).2
  rcases h.codec with hc | hc <;> simp only at hc
  · exact ⟨0x55, _, by rw [Carlog.Cid.bytes, hc, hhash, hone, hraw]; rfl, Or.inl rfl, hlen⟩
  · exact ⟨0x71, _, by rw [Carlog.Cid.bytes, hc, hhash, hone, hnode]; rfl, Or.inr rfl, hlen⟩

theorem Intact.length_cid (h : Intact (c, data)) : c.bytes.length = 36 := by
  obtain ⟨codec, digest, heq, -, hlen⟩ := h.bytes_eq
  rw [heq]
  simp [hlen]

theorem Intact.length_le (h : Intact (c, data)) :
    (c.bytes ++ data).length ≤ maxAllowedSectionSize := by
  have hsize : data.length ≤ 16777216 := h.size
  have hmax : maxAllowedSectionSize = 33554432 := rfl
  rw [List.length_append, h.length_cid]
  omega

/-- The length of an entry takes four bytes at most. -/
theorem Intact.length_putUvarint_le (h : Intact (c, data)) :
    (putUvarint (c.bytes ++ data).length).length ≤ 4 := by
  have hle := h.length_le
  have hmax : maxAllowedSectionSize = 33554432 := rfl
  exact length_putUvarintAux_le_of_lt (k := 3) (by omega)

theorem Readable.tail {b : Cid × Bytes} (h : Readable (b :: bs)) : Readable bs := by
  refine ⟨fun b' hb' => h.1 b' ?_, fun b' hb' => h.2 b' (List.mem_cons_of_mem _ hb')⟩
  rw [List.getLast?_cons, Option.mem_def.mp hb']
  rfl

/-- There is always enough left to look at. -/
theorem Readable.forty_le (h : Readable bs) (hintact : ∀ b ∈ bs, Intact b) (hne : bs ≠ []) :
    40 ≤ (entries bs).length :=
  Regular.forty_le ⟨fun b hb => (hintact b hb).length_cid, h.1⟩ hne

/-- **What the reader looks at** is there in front of the last block only if
the block has three bytes. -/
theorem Readable.cons (h : Readable bs) (hblock : Intact (c, data)) (hsolid : ¬ Hollow (c, data))
    (h40 : 40 ≤ (entries ((c, data) :: bs)).length) : Readable ((c, data) :: bs) := by
  refine ⟨fun b hb => ?_, List.forall_mem_cons.mpr ⟨hsolid, h.2⟩⟩
  rcases List.eq_nil_or_concat bs with rfl | ⟨init, last, rfl⟩
  · obtain rfl : (c, data) = b := by simpa using hb
    by_contra hshort
    have hlen := hblock.length_cid
    have hone : (putUvarint (c.bytes ++ data).length).length ≤ 1 := by
      refine length_putUvarintAux_le_of_lt (k := 0) ?_
      rw [List.length_append]
      simp only at hshort
      omega
    simp only [entries, List.map_cons, List.map_nil, frames_singleton, framed,
      List.length_append] at h40 hone
    simp only at hshort
    omega
  · refine h.1 b ?_
    rw [List.concat_eq_append] at hb ⊢
    rw [List.getLast?_cons_of_ne_nil (by simp)] at hb
    exact hb

omit X in
/-- The first byte of a CID is none of the three behind it. -/
theorem drop_ne {codec : UInt8} {bs bs' : Bytes} {d : ℕ} (hcodec : codec = 0x55 ∨ codec = 0x71)
    (hpos : 0 < d) (hle : d ≤ 3) : (0x01 :: codec :: 0x12 :: 0x20 :: bs).drop d ≠ 0x01 :: bs' := by
  have hone : (0x01 : UInt8) ≠ codec := by rcases hcodec with rfl | rfl <;> decide
  interval_cases d <;> simp [hone.symm]

/-- **A CID that is not damaged is found where it is**. -/
theorem Intact.aligned (h : Intact (c, data)) (more : Bytes) :
    Aligned c (putUvarint (c.bytes ++ data).length).length
      (framed (c.bytes ++ data) ++ more) := by
  refine ⟨h.length_putUvarint_le, fun j hj hne => ?_⟩
  have hpos := length_putUvarint_pos (x := (c.bytes ++ data).length)
  have hle := h.length_putUvarint_le
  obtain ⟨codec, digest, hbytes, hcodec, hlen⟩ := h.bytes_eq
  have hpatt : (c.bytes.take 32).length = 32 := by rw [List.length_take, h.length_cid]; rfl
  generalize hv : putUvarint (c.bytes ++ data).length = varint at *
  have hsrc : framed (c.bytes ++ data) ++ more = varint ++ (c.bytes ++ (data ++ more)) := by
    rw [framed, hv]
    simp
  have hat : (framed (c.bytes ++ data) ++ more).drop varint.length = c.bytes ++ (data ++ more) := by
    rw [hsrc, List.drop_left]
  have hfull : overlap (c.bytes.take 32) (c.bytes ++ (data ++ more)) = 256 := by
    conv_lhs => rw [← List.take_append_drop 32 c.bytes, List.append_assoc, List.take_append_drop]
    rw [overlap_self, hpatt]
  rw [hat, hfull]
  have hmax := overlap_le (c.bytes.take 32) ((framed (c.bytes ++ data) ++ more).drop (j + 1))
  rw [hpatt] at hmax
  refine Nat.lt_of_le_of_ne hmax fun hall => ?_
  obtain ⟨rest, hrest⟩ := eq_of_overlap (hall.trans (by rw [hpatt]))
  rw [hbytes] at hat hrest
  have htake : (0x01 :: codec :: 0x12 :: 0x20 :: digest).take 32 =
      0x01 :: codec :: 0x12 :: 0x20 :: digest.take 28 := rfl
  rw [htake] at hrest
  rcases Nat.lt_or_ge (j + 1) varint.length with hlt | hge
  · obtain ⟨d, hd⟩ : ∃ d, varint.length = j + 1 + d := ⟨varint.length - (j + 1), by omega⟩
    rw [hd, ← List.drop_drop, hrest] at hat
    exact drop_ne hcodec (by omega) (by omega) hat
  · obtain ⟨d, hd⟩ : ∃ d, j + 1 = varint.length + d := ⟨j + 1 - varint.length, by omega⟩
    rw [hd, ← List.drop_drop, hat] at hrest
    exact drop_ne hcodec (by omega) (by omega) hrest

/-! ## One entry -/

namespace RepairCarLog

variable {B : Blocks} {cs : List Cid} {stack stack' : List (List Cid)}
  {more : Bytes} {r : RepairCarLog}

omit X in
/-- The next CID is taken off the stack. -/
theorem exists_popCid (hlayers : ∀ layer ∈ r.expectCidStack, layer ≠ [])
    (hflat : r.expectCidStack.flatten = c :: cs) : ∃ stack, (∀ layer ∈ stack, layer ≠ []) ∧
      stack.flatten = cs ∧ wp calm popCid
        (Sure fun c' r' => c' = c ∧ r' = { r with expectCidStack := stack }) r := by
  rcases hs : r.expectCidStack with _ | ⟨_ | ⟨x, _ | ⟨x', layer⟩⟩, rest⟩
  · rw [hs] at hflat
    exact absurd hflat (by simp)
  · exact absurd rfl (hlayers [] (by rw [hs]; exact List.mem_cons_self))
  · rw [hs] at hflat hlayers
    obtain ⟨rfl, rfl⟩ := List.cons.inj hflat
    refine ⟨rest, fun l hl => hlayers l (List.mem_cons_of_mem _ hl), rfl, ?_⟩
    simp [popCid, wp, hs, Sure]
  · rw [hs] at hflat hlayers
    obtain ⟨rfl, rfl⟩ := List.cons.inj hflat
    refine ⟨(x' :: layer) :: rest, ?_, rfl, ?_⟩
    · exact List.forall_mem_cons.mpr ⟨by simp, fun l hl => hlayers l (List.mem_cons_of_mem _ hl)⟩
    · simp [popCid, wp, hs, Sure]

/-- The links of a node come onto the stack. -/
def Pushed (c : Cid) (data : Bytes) (stack stack' : List (List Cid)) : Prop :=
  (c.codec = raw ∧ stack' = stack) ∨
    (c.codec ≠ raw ∧ ∃ links, X.decodeLinks data = some links ∧ stack' = links :: stack)

theorem sure_emit_intact (hblock : Intact (c, data))
    (hpushed : Pushed c data r.expectCidStack stack')
    (hsource : r.source = c.bytes ++ data ++ more) : wp calm (emit c (c.bytes ++ data))
      (Sure fun _ r' => r' = { r with
        expectCidStack := stack'
        readBuf := framed (c.bytes ++ data)
        source := more }) r := by
  refine sure_seq (R := fun _ r' => r' = { r with readBuf := framed (c.bytes ++ data) }) rfl ?_
  rintro - _ rfl
  refine sure_seq (R := fun _ r' => r' = { r with
    expectCidStack := stack'
    readBuf := framed (c.bytes ++ data) }) ?_ ?_
  · unfold pushLinks
    rcases hpushed with ⟨hc, rfl⟩ | ⟨hc, links, hlinks, rfl⟩
    · rw [if_neg (by rw [hc]; decide)]
      rfl
    · rw [if_pos (hblock.codec.resolve_left hc),
        sliceFrom_of_le (by rw [List.length_append]; omega), List.drop_left]
      rw [wp_bind, wp_ret]
      dsimp only
      rw [hlinks]
      rfl
  · rintro - _ rfl
    refine sure_wrapErr (sure_mono (sure_discard ?_) ?_)
    · have hlen : r.source.length = (c.bytes ++ data).length + more.length := by
        rw [hsource, List.length_append]
      change (c.bytes ++ data).length ≤ r.source.length
      omega
    · rintro - _ rfl
      rw [hsource, List.drop_left]

/-- An intact entry is read in full, -/
theorem sure_readEntry_intact {varint : Bytes} (hblock : Intact (c, data))
    (hsource : r.source = c.bytes ++ data ++ more)
    (hread : readUvarint varint = .ok ((c.bytes ++ data).length, [])) :
    wp calm (readEntry B c varint)
      (Sure fun ent r' => ent = c.bytes ++ data ∧ r' = r) r := by
  have hlen : r.source.length = (c.bytes ++ data).length + more.length := by
    rw [hsource, List.length_append]
  unfold readEntry
  rw [hread]
  dsimp only
  rw [if_neg (Nat.not_lt.mpr hblock.length_le), wp_handle]
  refine wp_mono (sure_peek (by omega)) ?_ (fun _ _ => False.elim) (fun _ => id) fun _ _ => id
  rintro _ _ ⟨rfl, rfl⟩
  exact ⟨by rw [hsource, List.take_left], rfl⟩

omit X in
/-- it is long enough for its CID, -/
theorem sure_lengthen_intact : wp calm (lengthen B c (c.bytes ++ data))
    (Sure fun ent r' => ent = c.bytes ++ data ∧ r' = r) r := by
  unfold lengthen
  rw [if_neg (by rw [List.length_append]; omega)]
  exact ⟨rfl, rfl⟩

omit X in
/-- it starts with it, -/
theorem sure_fixCid_intact : wp calm (fixCid c (c.bytes ++ data))
    (Sure fun ent r' => ent = c.bytes ++ data ∧ r' = r) r := by
  unfold fixCid
  rw [sliceTo_of_le (by rw [List.length_append]; omega), List.take_left]
  change wp calm (if c.bytes ≠ c.bytes then _ else _) _ r
  rw [if_neg (not_not.mpr rfl)]
  exact ⟨rfl, rfl⟩

/-- and its data is what the CID says. -/
theorem sure_fixData_intact (hB : B.Sums) (hblock : Intact (c, data)) :
    wp calm (fixData B c (c.bytes ++ data))
      (Sure fun ent r' => ent = c.bytes ++ data ∧ r' = r) r := by
  have hsum : B.sum c data = some c := by
    rw [hB c data ⟨_, hblock.hash⟩, sha256Cid, ← hblock.hash]
  unfold fixData
  rw [sliceFrom_of_le (by rw [List.length_append]; omega), List.drop_left]
  rw [wp_bind, wp_ret]
  dsimp only
  rw [hsum]
  change wp calm (if c ≠ c then _ else _) _ r
  rw [if_neg (not_not.mpr rfl)]
  exact ⟨rfl, rfl⟩

/-- **An intact entry goes through as it is**, when there is as much left as
the reader looks at. -/
theorem sure_nextEntry_intact (hB : B.Sums) (hblock : Intact (c, data))
    (hpop : wp calm popCid (Sure fun c' r' => c' = c ∧ r' = { r with expectCidStack := stack }) r)
    (hpushed : Pushed c data stack stack')
    (hsource : r.source = framed (c.bytes ++ data) ++ more) (h40 : 40 ≤ r.source.length) :
    wp calm (nextEntry B) (Sure fun _ r' => r' = { r with
      expectCidStack := stack'
      readBuf := framed (c.bytes ++ data)
      source := more }) r := by
  have hlen := hblock.length_cid
  have hle := hblock.length_le
  have h64 : (c.bytes ++ data).length < 2 ^ 64 := hle.trans_lt (by decide)
  have hpos := length_putUvarint_pos (x := (c.bytes ++ data).length)
  have hfour := hblock.length_putUvarint_le
  -- the expected CID is found right behind the varint
  obtain ⟨overlap, hmatch⟩ := match32Bytes_of_aligned hlen h40 hpos
    (by rw [hsource]; exact hblock.aligned more)
  have hframe : r.source = putUvarint (c.bytes ++ data).length ++ (c.bytes ++ data ++ more) := by
    rw [hsource, framed, List.append_assoc]
  generalize hv' : putUvarint (c.bytes ++ data).length = varint at *
  refine sure_seq hpop ?_
  rintro _ u ⟨rfl, hu⟩
  rename_i c
  have husource : u.source = r.source := by rw [hu]
  refine sure_seq (R := fun _ r' => r' = u) ?_ ?_
  · rw [failIf, if_neg (by omega)]
    rfl
  rintro - u rfl
  refine sure_seq (sure_wrapErr (sure_peek (by rw [husource, hlen]; exact h40))) ?_
  rintro cidLenEnt u ⟨rfl, rfl⟩
  refine sure_seq (sure_sliceTo (n := 32) (by omega)) ?_
  rintro _ u ⟨rfl, rfl⟩
  refine sure_seq (sure_sliceFrom (n := 1) (by rw [List.length_take, husource]; omega)) ?_
  rintro _ u ⟨rfl, rfl⟩
  refine sure_seq (R := fun x r' => x.1 + 1 = varint.length ∧ r' = u) (sure_wrapErr ?_) ?_
  · rw [husource, hlen, hmatch]
    exact ⟨Nat.sub_add_cancel hpos, rfl⟩
  rintro ⟨cidOff, maxOverlap⟩ u ⟨hoff, rfl⟩
  simp only [hoff]
  refine sure_seq (sure_wrapErr (sure_discard (by rw [husource]; omega))) ?_
  rintro - v hv
  have hvarint : (u.source.take (c.bytes.length + 4)).take varint.length = varint := by
    rw [List.take_take, husource, hframe, min_eq_left (by omega), List.take_left]
  have hvsource : v.source = c.bytes ++ data ++ more := by
    rw [hv, husource, hframe, List.drop_left]
  refine sure_seq (sure_sliceTo (by rw [List.length_take, husource]; omega)) ?_
  rintro _ v ⟨rfl, rfl⟩
  rw [hvarint]
  have hread : readUvarint varint = .ok ((c.bytes ++ data).length, []) := by
    have := readUvarint_putUvarint h64 []
    rwa [hv', List.append_nil] at this
  -- nothing is found to be wrong with it
  refine sure_seq (sure_readEntry_intact hblock hvsource hread) ?_
  rintro _ v ⟨rfl, rfl⟩
  refine sure_seq sure_lengthen_intact ?_
  rintro _ v ⟨rfl, rfl⟩
  refine sure_seq sure_fixCid_intact ?_
  rintro _ v ⟨rfl, rfl⟩
  refine sure_seq (sure_fixData_intact hB hblock) ?_
  rintro _ v ⟨rfl, rfl⟩
  -- it is handed out, and its links are expected next
  have hstack : v.expectCidStack = stack := by rw [hv, hu]
  refine sure_mono (sure_emit_intact hblock (by rw [hstack]; exact hpushed) hvsource) ?_
  rintro - _ rfl
  rw [hv, hu]

/-! ## Reading -/

/-- **Between two reads** of an undamaged CAR, at the blocks `bs`. -/
structure Undamaged (bs : List (Cid × Bytes)) (r : RepairCarLog) : Prop where
  layers : ∀ layer ∈ r.expectCidStack, layer ≠ []
  depthFirst : DepthFirst r.expectCidStack.flatten bs
  intact : ∀ b ∈ bs, Intact b
  source : r.source = entries bs
  bad : r.bad = 0
  repairs : r.repairs = 0

theorem Undamaged.withBuf (h : Undamaged bs r) (buf : Bytes) :
    Undamaged bs { r with readBuf := buf } :=
  ⟨h.layers, h.depthFirst, h.intact, h.source, h.bad, h.repairs⟩

/-- The next read is of an entry. -/
theorem read_of_readBuf_nil (hbuf : r.readBuf = []) {n : ℕ} {Q : Post _ _ _} :
    wp calm (read B n) Q r = wp calm ((nextEntry B).attempt >>= finish n) Q (started r) := by
  unfold read
  change wp calm (if _ then _ else _) _ r = _
  rw [if_neg (not_not.mpr hbuf)]
  rfl

/-- A read from the buffer. -/
theorem sure_read_buf (hbuf : r.readBuf ≠ []) (n : ℕ) : wp calm (read B n)
    (Sure fun x r' => x = (r.readBuf.take n, none) ∧
      r' = { r with readBuf := r.readBuf.drop n }) r := by
  unfold read
  change wp calm (if _ then _ else _) _ r
  rw [if_pos hbuf]
  exact ⟨rfl, rfl⟩

omit X in
/-- When nothing was corrupt so far, reading is not given up. -/
theorem sure_checkCorrupt_zero {e : Option Err} (hclean : r.wasCorrupt = false) (hbad : r.bad = 0) :
    wp calm (checkCorrupt e) (Sure fun e' r' => e' = e ∧ r' = r) r := by
  refine sure_mono (sure_checkCorrupt fun _ => ?_) fun e' r' h => ⟨h.1, ?_⟩
  · rw [hclean, hbad]
    simp
  · have hsame : (if r.wasCorrupt then r.bad + 1 else r.bad) = r.bad := by simp [hclean]
    rw [h.2, hsame]

/-- **A read of the next entry**. Behind a node without links nothing is
expected next. -/
theorem sure_read_block (hB : B.Sums) (h : Undamaged ((c, data) :: bs) r) (hbuf : r.readBuf = [])
    (h40 : 40 ≤ r.source.length) (n : ℕ) : wp calm (read B n)
      (Sure fun x r' => x = ((framed (c.bytes ++ data)).take n, none) ∧
        r'.readBuf = (framed (c.bytes ++ data)).drop n ∧
        ((¬ Hollow (c, data) ∧ Undamaged bs r') ∨
          (Hollow (c, data) ∧ ∃ rest, r'.expectCidStack = [] :: rest))) r := by
  have hblock : Intact (c, data) := h.intact _ List.mem_cons_self
  have hintact : ∀ b ∈ bs, Intact b := fun b hb => h.intact b (List.mem_cons_of_mem _ hb)
  have hsource : (started r).source = framed (c.bytes ++ data) ++ entries bs :=
    h.source.trans (entries_cons _ _)
  rw [read_of_readBuf_nil hbuf, wp_bind, wp_attempt]
  obtain ⟨cs, hflat, hbehind⟩ : ∃ cs, r.expectCidStack.flatten = c :: cs ∧
      ∀ stack, (∀ layer ∈ stack, layer ≠ []) → stack.flatten = cs → ∃ stack',
        Pushed c data stack stack' ∧
          ((¬ Hollow (c, data) ∧ (∀ layer ∈ stack', layer ≠ []) ∧ DepthFirst stack'.flatten bs) ∨
            (Hollow (c, data) ∧ ∃ rest, stack' = [] :: rest)) := by
    -- the block is a leaf or a node; the links of a node come on top of the stack
    have hpre := h.depthFirst
    generalize hflat : r.expectCidStack.flatten = expected at hpre
    cases hpre with
    | leaf hc hpre =>
      refine ⟨_, rfl, fun stack hlayers hstack => ⟨stack, Or.inl ⟨hc, rfl⟩, Or.inl ?_⟩⟩
      refine ⟨?_, hlayers, ?_⟩
      · exact fun hhollow => hhollow.1 hc
      · rw [hstack]
        exact hpre
    | @node _ cs links _ _ hc hlinks hpre =>
      refine ⟨cs, rfl, fun stack hlayers hstack => ?_⟩
      refine ⟨links :: stack, Or.inr ⟨hc, links, hlinks, rfl⟩, ?_⟩
      -- an empty layer is pushed all the same
      by_cases hnil : links = []
      · subst hnil
        exact Or.inr ⟨⟨hc, hlinks⟩, stack, rfl⟩
      · refine Or.inl ⟨fun hhollow => hnil ?_, List.forall_mem_cons.mpr ⟨hnil, hlayers⟩, ?_⟩
        · exact Option.some.inj (hlinks.symm.trans hhollow.2)
        · rw [List.flatten_cons, hstack]
          exact hpre
  obtain ⟨stack, hlayers, hstack, hpop⟩ := exists_popCid (r := started r) h.layers hflat
  obtain ⟨stack', hpushed, hnext⟩ := hbehind stack hlayers hstack
  refine wp_mono (sure_nextEntry_intact hB hblock hpop hpushed hsource h40) ?_
    (fun _ _ => False.elim) (fun _ => id) fun _ _ => id
  rintro _ u hu
  refine sure_seq (R := fun out r' => out = u.readBuf.take n ∧
    r' = { u with readBuf := u.readBuf.drop n }) ⟨rfl, rfl⟩ ?_
  rintro _ v ⟨rfl, rfl⟩
  refine sure_seq (sure_checkCorrupt_zero (by rw [hu]; rfl) (by rw [hu]; exact h.bad)) ?_
  rintro _ w ⟨rfl, rfl⟩
  refine ⟨by rw [hu], by rw [hu], hnext.imp ?_ ?_⟩
  · rintro ⟨hsolid, hlayers', hpre⟩
    rw [hu]
    exact ⟨hsolid, hlayers', hpre, hintact, rfl, h.bad, h.repairs⟩
  · rintro ⟨hhollow, rest, hrest⟩
    rw [hu]
    exact ⟨hhollow, rest, hrest⟩

/-- Behind the last block the reader is at the end. -/
theorem sure_read_end (h : Undamaged [] r) (hbuf : r.readBuf = []) (n : ℕ) : wp calm (read B n)
    (Sure fun x r' => x = ([], some .eof) ∧ r'.bad = 0 ∧ r'.repairs = 0) r := by
  have hnil : r.expectCidStack = [] := by
    have hpre := h.depthFirst
    rcases hs : r.expectCidStack with _ | ⟨_ | ⟨c, layer⟩, rest⟩
    · rfl
    · exact absurd rfl (h.layers [] (by rw [hs]; exact List.mem_cons_self))
    · rw [hs] at hpre
      cases hpre
  have hpop : wp calm (nextEntry B) ⟨fun _ _ => False, fun e r' => e = .eof ∧ r' = started r,
      fun _ => False, fun _ _ => False⟩ (started r) := by
    refine wp_seq (R := ⟨fun _ _ => False, fun e r' => e = .eof ∧ r' = started r,
      fun _ => False, fun _ _ => False⟩) ?_ (fun _ _ => False.elim) (fun _ _ => id) (fun _ => id)
      fun _ _ => id
    simp [popCid, wp, started, hnil]
  rw [read_of_readBuf_nil hbuf, wp_bind, wp_attempt]
  refine wp_mono hpop (fun _ _ => False.elim) ?_ (fun _ => id) fun _ _ => id
  rintro _ _ ⟨rfl, rfl⟩
  refine sure_seq (sure_checkCorrupt_zero rfl h.bad) ?_
  rintro _ u ⟨rfl, rfl⟩
  exact ⟨rfl, h.bad, h.repairs⟩

/-- What one `Read` into `n` bytes returns, with the error. -/
def ReadSame (bs : List (Cid × Bytes)) (n : ℕ) (r : RepairCarLog) (out : Bytes)
    (r' : RepairCarLog) : Option Err → Prop
  | none => ∃ bs', Undamaged bs' r' ∧ Readable bs' ∧ left bs r = out ++ left bs' r' ∧
      (0 < n → out ≠ [])
  | some e => e = .eof ∧ out = [] ∧ left bs r = [] ∧ r'.bad = 0 ∧ r'.repairs = 0

theorem sure_read_same (hB : B.Sums) (h : Undamaged bs r) (hread : Readable bs) (n : ℕ) :
    wp calm (read B n) (Sure fun x r' => ReadSame bs n r x.1 r' x.2) r := by
  have hout : ∀ {buf : Bytes}, buf ≠ [] → 0 < n → buf.take n ≠ [] := by
    intro buf hne hn
    rw [← List.length_pos_iff] at hne ⊢
    rw [List.length_take]
    omega
  by_cases hbuf : r.readBuf = []
  · cases bs with
    | nil =>
      refine sure_mono (sure_read_end h hbuf n) ?_
      rintro _ u ⟨rfl, hbad, hrepairs⟩
      exact ⟨rfl, rfl, by simp [left, hbuf, entries], hbad, hrepairs⟩
    | cons b bs =>
      obtain ⟨c, data⟩ := b
      have h40 := hread.forty_le h.intact (by simp)
      rw [← h.source] at h40
      refine sure_mono (sure_read_block hB h hbuf h40 n) ?_
      rintro _ u ⟨rfl, hubuf, hu⟩
      have hsolid := hread.2 (c, data) List.mem_cons_self
      rcases hu with ⟨-, hu⟩ | ⟨hhollow, -⟩
      · refine ⟨bs, hu, hread.tail, ?_, hout (framed_ne_nil _)⟩
        rw [left, left, hbuf, hubuf, entries_cons, List.nil_append, ← List.append_assoc,
          List.take_append_drop]
      · exact absurd hhollow hsolid
  · refine sure_mono (sure_read_buf hbuf n) ?_
    rintro _ _ ⟨rfl, rfl⟩
    refine ⟨bs, h.withBuf _, hread, ?_, hout hbuf⟩
    rw [left, left, ← List.append_assoc, List.take_append_drop]

/-- **All reads of an undamaged CAR.** -/
theorem sure_reads_same (hB : B.Sums) (ns : List ℕ) (h : Undamaged bs r) (hread : Readable bs) :
    wp calm (reads B ns) (Sure fun x r' => r'.repairs = 0 ∧ r'.bad = 0 ∧
      (x.2 = none ∨ x.2 = some .eof) ∧ x.1 <+: left bs r ∧ (x.2 = some .eof → x.1 = left bs r) ∧
        ((left bs r).length < ns.countP (0 < ·) → x.2 = some .eof)) r := by
  induction ns generalizing bs r with
  | nil =>
    exact ⟨h.repairs, h.bad, Or.inl rfl, List.nil_prefix, fun hnone => absurd hnone (by simp),
      fun hlt => absurd hlt (by simp)⟩
  | cons n ns ih =>
    refine sure_seq (sure_read_same hB h hread n) ?_
    rintro ⟨out, _ | e⟩ u hu
    · obtain ⟨bs', hu', hread', hleft, hout⟩ := hu
      refine sure_seq (ih hu' hread') ?_
      rintro ⟨more, e⟩ v ⟨hrepairs, hbad, he, hpre, heof, hmany⟩
      refine ⟨hrepairs, hbad, he, ?_, fun hend => ?_, fun hlt => hmany ?_⟩
      · rw [hleft]
        exact (List.prefix_append_right_inj out).mpr hpre
      · rw [hleft]
        exact congrArg (out ++ ·) (heof hend)
      · rw [hleft, List.length_append, List.countP_cons] at hlt
        by_cases hn : 0 < n
        · have hpos : 0 < out.length := List.length_pos_iff.mpr (hout hn)
          simp only [hn, decide_true, if_true] at hlt
          omega
        · simp only [hn, decide_false] at hlt
          simp at hlt
          omega
    · obtain ⟨rfl, rfl, hleft, hbad, hrepairs⟩ := hu
      rw [hleft]
      exact ⟨hrepairs, hbad, Or.inr rfl, List.nil_prefix, fun _ => rfl, fun _ => rfl⟩

omit X in
theorem returns_of_sure {α : Type} {m : Op α} {R R' : α → RepairCarLog → Prop}
    (h : wp calm m (Sure R) r) (himp : ∀ a t, R a t → R' a t) : wp calm m (.returns R') r :=
  wp_mono h himp (fun _ _ => False.elim) (fun _ => False.elim) fun _ _ => False.elim

/-- Behind a node without links there is no next CID to take. -/
theorem read_hollow {rest : List (List Cid)} (hstack : r.expectCidStack = [] :: rest)
    (hbuf : r.readBuf = []) (n : ℕ) : wp calm (read B n) (.returns fun _ _ => False) r := by
  have hpop : wp calm popCid ⟨fun _ _ => False, fun _ _ => False, fun _ => False,
      fun _ _ => True⟩ (started r) := by
    simp [popCid, wp, started, hstack]
  rw [read_of_readBuf_nil hbuf, wp_bind, wp_attempt]
  exact wp_seq hpop (fun _ _ => False.elim) (fun _ _ => False.elim) (fun _ => False.elim)
    fun _ _ => id

/-- **Looking ahead fails** where less is left than the reader looks at. -/
theorem read_short (h : Undamaged ((c, data) :: bs) r) (hbuf : r.readBuf = [])
    (hshort : r.source.length < 40) (n : ℕ) :
    wp calm (read B n) (Sure fun x _ => x.2 = some (.wrap "peek entry" .eof)) r := by
  have hlen := (h.intact _ List.mem_cons_self).length_cid
  obtain ⟨cs, hflat⟩ : ∃ cs, r.expectCidStack.flatten = c :: cs := by
    have hpre := h.depthFirst
    generalize r.expectCidStack.flatten = expected at hpre
    cases hpre <;> exact ⟨_, rfl⟩
  obtain ⟨stack, -, -, hpop⟩ := exists_popCid (r := started r) h.layers hflat
  have hnext : wp calm (nextEntry B) ⟨fun _ _ => False, fun e r' => e = .wrap "peek entry" .eof ∧
      r'.wasCorrupt = false ∧ r'.bad = 0, fun _ => False, fun _ _ => False⟩ (started r) := by
    refine wp_seq hpop ?_ (fun _ _ => False.elim) (fun _ => id) fun _ _ => id
    rintro _ u ⟨rfl, hu⟩
    rename_i c
    have husource : u.source = r.source := by rw [hu]; rfl
    refine wp_seq (R := ⟨fun _ r' => r' = u, fun _ _ => False, fun _ => False, fun _ _ => False⟩)
      ?_ ?_ (fun _ _ => False.elim) (fun _ => id) fun _ _ => id
    · rw [failIf, if_neg (by omega)]
      rfl
    rintro - u rfl
    have hpeek : wp calm (wrapErr "peek entry" (peek (c.bytes.length + 4)))
        ⟨fun _ _ => False, fun e r' => e = .wrap "peek entry" .eof ∧ r'.wasCorrupt = false ∧
          r'.bad = 0, fun _ => False, fun _ _ => False⟩ u := by
      have hlt : u.source.length < c.bytes.length + 4 := by
        rw [husource, hlen]
        exact hshort
      rw [wrapErr, wp_handle, peek]
      change wp calm (if _ then _ else _) _ u
      rw [if_pos hlt]
      exact ⟨rfl, by rw [hu]; rfl, by rw [hu]; exact h.bad⟩
    exact wp_seq hpeek (fun _ _ => False.elim) (fun _ _ => id) (fun _ => id) fun _ _ => id
  rw [read_of_readBuf_nil hbuf, wp_bind, wp_attempt]
  refine wp_mono hnext (fun _ _ => False.elim) ?_ (fun _ => id) fun _ _ => id
  rintro e u ⟨rfl, hclean, hbad⟩
  refine sure_seq (sure_checkCorrupt_zero hclean hbad) ?_
  rintro _ _ ⟨rfl, rfl⟩
  rfl

/-- Reading goes on until it ends in another way than it should. -/
theorem reads_cons_stumbles {n : ℕ} {ns : List ℕ} (h : wp calm (read B n) (.returns fun x u =>
      x.2 ≠ some .eof ∧ (x.2 = none → wp calm (reads B ns)
        (.returns fun x _ => x.2 ≠ none ∧ x.2 ≠ some .eof) u)) r) :
    wp calm (reads B (n :: ns)) (.returns fun x _ => x.2 ≠ none ∧ x.2 ≠ some .eof) r := by
  refine wp_returns_seq h ?_
  rintro ⟨out, _ | e⟩ u ⟨hne, hrest⟩
  · exact wp_returns_seq (hrest rfl) fun x _ hx => hx
  · exact ⟨by simp, hne⟩

omit X in
/-- Buffers that the entries fit into, and one more. -/
def buffers (bs : List (Cid × Bytes)) : List ℕ :=
  bs.map (fun b => (framed (b.1.bytes ++ b.2)).length) ++ [1]

/-- **A reader that stumbles**: with such buffers reading ends, and not with
`io.EOF`. -/
theorem stumbles (hB : B.Sums) (h : Undamaged bs r) (hbuf : r.readBuf = [])
    (hnot : ¬ Readable bs) : wp calm (reads B (buffers bs))
      (.returns fun x _ => x.2 ≠ none ∧ x.2 ≠ some .eof) r := by
  induction bs generalizing r with
  | nil => exact absurd ⟨by simp, by simp⟩ hnot
  | cons b bs ih =>
    obtain ⟨c, data⟩ := b
    have hblock : Intact (c, data) := h.intact _ List.mem_cons_self
    change wp calm (reads B ((framed (c.bytes ++ data)).length :: buffers bs)) _ r
    rcases Nat.lt_or_ge r.source.length 40 with hshort | h40
    · refine reads_cons_stumbles (returns_of_sure (read_short h hbuf hshort _) ?_)
      rintro ⟨out, e⟩ u rfl
      exact ⟨by simp, fun hnone => absurd hnone (by simp)⟩
    · have hlong := h40
      rw [h.source] at hlong
      refine reads_cons_stumbles (returns_of_sure (sure_read_block hB h hbuf h40 _) ?_)
      rintro _ u ⟨rfl, hubuf, hu⟩
      rw [List.drop_length] at hubuf
      refine ⟨by simp, fun _ => ?_⟩
      rcases hu with ⟨hsolid, hu⟩ | ⟨-, rest, hstack⟩
      · exact ih hu hubuf fun hrest => hnot (hrest.cons hblock hsolid hlong)
      · obtain ⟨m, ms, hms⟩ : ∃ m ms, buffers bs = m :: ms :=
          List.exists_cons_of_ne_nil (by simp [buffers])
        rw [hms]
        refine reads_cons_stumbles (wp_returns_mono (read_hollow hstack hubuf m) ?_)
        exact fun _ _ => False.elim

end RepairCarLog

open RepairCarLog

/-! ## Undamaged CARs -/

/-- **A CAR goes through the reader unchanged**: with buffers of any sizes
what is read are its bytes, up to `io.EOF` and without an error before it;
the callback is never asked for a block, and no entry counts as corrupt. -/
def Unchanged (B : Blocks) (root : Cid) (car : Bytes) : Prop :=
  ∃ r, newCarRepairReader car root = .ok r ∧ ∀ ns, ∃ out e r',
    (reads B ns).run r [] = .ok (out, e) r' ∧ r'.repairs = 0 ∧ r'.bad = 0 ∧
      (e = none ∨ e = some .eof) ∧ out <+: car ∧ (e = some .eof → out = car) ∧
        (car.length < ns.countP (0 < ·) → e = some .eof)

variable {B : Blocks} {root : Cid}

/-- **Of intact blocks** exactly the readable ones go through unchanged. -/
theorem unchanged_iff_readable (hB : B.Sums) (hbs : DepthFirst [root] bs)
    (hintact : ∀ b ∈ bs, Intact b) :
    Unchanged B root (Carlog.carHeader root ++ entries bs) ↔ Readable bs := by
  obtain ⟨data, rest, rfl⟩ : ∃ data rest, bs = (root, data) :: rest := by
    cases hbs <;> exact ⟨_, _, rfl⟩
  have hroot : Intact (root, data) := hintact _ List.mem_cons_self
  have hmh : Carlog.ValidMultihash root.hash := by
    have hhash : root.hash = sha256Multihash (X.sum256 data) := hroot.hash
    rw [hhash]
    exact Carlog.Encoding.validMultihash_of_isSha256 ⟨_, rfl⟩
  have hnew := newCarRepairReader_carHeader hroot.codec hmh hroot.length_cid
    (entries ((root, data) :: rest))
  generalize (root, data) :: rest = bs at *
  have hstart : Undamaged bs ⟨entries bs, [[root]], Carlog.carHeader root, 0, 0, false, 0⟩ :=
    ⟨by simp, hbs, hintact, rfl, rfl, rfl⟩
  constructor
  · rintro ⟨r, hr, hreads⟩
    obtain rfl := Except.ok.inj (hnew.symm.trans hr)
    by_contra hnot
    have hne : Carlog.carHeader root ≠ [] := framed_ne_nil _
    have hstumbles : wp calm (reads B ((Carlog.carHeader root).length :: buffers bs))
        (.returns fun x _ => x.2 ≠ none ∧ x.2 ≠ some .eof)
        ⟨entries bs, [[root]], Carlog.carHeader root, 0, 0, false, 0⟩ := by
      refine reads_cons_stumbles (returns_of_sure (sure_read_buf hne _) ?_)
      rintro _ _ ⟨rfl, rfl⟩
      exact ⟨by simp, fun _ => stumbles hB (hstart.withBuf _) List.drop_length hnot⟩
    obtain ⟨out, e, r', hrun, -, -, he, -⟩ := hreads _
    have hsat := wp_sound hstumbles within_nil
    rw [hrun] at hsat
    rcases he with rfl | rfl
    · exact hsat.1 rfl
    · exact hsat.2 rfl
  · intro hread
    refine ⟨_, hnew, fun ns => ?_⟩
    have hsat := wp_sound (sure_reads_same hB ns hstart hread) within_nil
    rcases hrun : (reads B ns).run _ [] with ⟨x, r'⟩ | ⟨e, r'⟩ | r' | ⟨k, r'⟩ <;> rw [hrun] at hsat
    · exact ⟨x.1, x.2, r', rfl, hsat⟩
    all_goals exact absurd hsat id

/-- **An undamaged CAR goes through the repair reader unchanged** if and only
if its last block has three bytes of data, and no node of it is without
links: this is so for whatever `WriteCar` writes of intact blocks. -/
theorem writeCar_unchanged_iff (hB : B.Sums) {w w' : Carlog.World} {plan : List Fate}
    {car : Bytes} {n : ℕ} (hrun : (Carlog.CarLog.captureOutput Carlog.CarLog.writeCar).run w plan =
      .ok (car, .ok (n, root)) w') :
    ∃ bs, car = Carlog.carHeader root ++ entries bs ∧ DepthFirst [root] bs ∧
      ((∀ b ∈ bs, Intact b) → (Unchanged B root car ↔ Readable bs)) := by
  have hwrites : wp anyFate (Carlog.CarLog.captureOutput Carlog.CarLog.writeCar)
      (.returns fun x _ => ∀ y, x.2 = .ok y → ∃ bs,
        x.1 = Carlog.carHeader y.2 ++ entries bs ∧ DepthFirst [y.2] bs) w := by
    refine wp_returns_seq (R := fun _ u => u.out = []) (by rw [wp_modify]; exact rfl)
      fun _ u hu => ?_
    rw [wp_bind, Carlog.wp_attempt]
    refine wp_mono (Carlog.CarLog.wp_writeCar u) ?_ (fun _ _ _ y hy => absurd hy (by simp))
      (fun _ => id) fun _ _ => id
    rintro x v ⟨bs, hout, -, hbs⟩ y hy
    obtain rfl := Except.ok.inj hy
    refine ⟨bs, ?_, hbs⟩
    rw [hu, List.nil_append] at hout
    exact hout
  have hsat := wp_sound hwrites (within_anyFate plan)
  rw [hrun] at hsat
  obtain ⟨bs, hcar, hbs⟩ := hsat _ rfl
  refine ⟨bs, hcar, hbs, fun hintact => ?_⟩
  rw [show car = _ from hcar]
  exact unchanged_iff_readable hB hbs hintact

end

section

open Carlog.Encoding

/-- A log of one block, put and finalized. -/
def oneBlockLog (data : Bytes) : Carlog.Sys :=
  (Carlog.Sys.start .empty).run [.call (.create false) [],
    .call (.put [sha256Multihash (Bsst.External.sum256 data)] [data]) [], .call .commit [],
    .call .markReadOnly [], .call .finalize []]

/-- The blocks of its CAR: the root, which links to the block, and the block. -/
def oneBlock (data : Bytes) : List (Cid × Bytes) :=
  let leaf := sha256Cid raw data
  [(Carlog.nodeCid (encodeLinks [leaf]), encodeLinks [leaf]), (leaf, data)]

/-- Its CAR. -/
def oneBlockCar (data : Bytes) : Bytes :=
  Carlog.carHeader (Carlog.nodeCid (encodeLinks [sha256Cid raw data])) ++ entries (oneBlock data)

/-- What a run of `WriteCar` emitted. -/
def emitted (w : Carlog.World) : Option (Bytes × ℕ × Cid) :=
  match (Carlog.CarLog.captureOutput Carlog.CarLog.writeCar).run w [] with
  | .ok (car, .ok (n, root)) _ => some (car, n, root)
  | _ => none

theorem run_of_emitted {w : Carlog.World} {car : Bytes} {n : ℕ} {root : Cid}
    (h : emitted w = some (car, n, root)) : ∃ w',
      (Carlog.CarLog.captureOutput Carlog.CarLog.writeCar).run w [] =
        .ok (car, .ok (n, root)) w' := by
  unfold emitted at h
  split at h
  · next w' hrun =>
    obtain ⟨rfl, rfl, rfl⟩ : _ = car ∧ _ = n ∧ _ = root := by simpa using h
    exact ⟨w', hrun⟩
  · exact absurd h (by simp)

/-- Hashing as the package of CIDs does, and a callback that never returns a
block. -/
def sha256Sums : Blocks where
  sum c data := some (sha256Cid c.codec data)
  repairBlock _ _ _ := none

theorem sums_sha256Sums : sha256Sums.Sums := fun _ _ _ => rfl

theorem depthFirst_oneBlock (data : Bytes) :
    DepthFirst [Carlog.nodeCid (encodeLinks [sha256Cid raw data])] (oneBlock data) := by
  have hlinks : decodeLinks (encodeLinks [sha256Cid raw data]) = some [sha256Cid raw data] :=
    decodeLinks_encodeLinks (by
      simp only [List.mem_singleton, forall_eq]
      exact ⟨Or.inl rfl, validMultihash_of_isSha256 ⟨_, rfl⟩⟩) (by simp)
  have hnode : dagCBOR ≠ raw := by decide
  exact .node hnode hlinks (.leaf rfl .nil)

theorem intact_oneBlock {data : Bytes} (hsize : data.length ≤ maxEntryLen) :
    ∀ b ∈ oneBlock data, Intact b := by
  have hlinks : (encodeLinks [sha256Cid raw data]).length ≤ maxEntryLen := by
    have hone : 1 ≤ Carlog.arity := by decide
    have hmax : 41 * 1 + 9 ≤ maxEntryLen := by decide
    refine (External.length_encodeLinks [sha256Cid raw data] hone ?_).2.trans hmax
    simp only [List.mem_singleton, forall_eq]
    exact ⟨Or.inl rfl, _, rfl⟩
  intro b hb
  rcases List.mem_pair.mp hb with rfl | rfl
  · exact ⟨Or.inr rfl, rfl, hlinks⟩
  · exact ⟨Or.inl rfl, rfl, hsize⟩

/-- The root of the CAR of a block of one byte. -/
def oneByteRoot : Cid := Carlog.nodeCid (encodeLinks [sha256Cid raw [7]])

theorem run_oneByte : ∃ w',
    (Carlog.CarLog.captureOutput Carlog.CarLog.writeCar).run (oneBlockLog [7]).world [] =
      .ok (oneBlockCar [7], .ok (176, oneByteRoot)) w' :=
  run_of_emitted (by decide +kernel)

/-- **A CAR that ends with a block of one byte** is emitted, and is not read
to its end. -/
theorem not_unchanged_oneByte : ∃ w' bs,
    (Carlog.CarLog.captureOutput Carlog.CarLog.writeCar).run (oneBlockLog [7]).world [] =
        .ok (oneBlockCar [7], .ok (176, oneByteRoot)) w' ∧
      oneBlockCar [7] = Carlog.carHeader oneByteRoot ++ entries bs ∧
      DepthFirst [oneByteRoot] bs ∧ (∀ b ∈ bs, Intact b) ∧
      ¬ Unchanged sha256Sums oneByteRoot (oneBlockCar [7]) := by
  obtain ⟨w', hrun⟩ := run_oneByte
  have hintact : ∀ b ∈ oneBlock [7], Intact b := intact_oneBlock (by decide)
  refine ⟨w', oneBlock [7], hrun, rfl, depthFirst_oneBlock [7], hintact, fun h => ?_⟩
  have hread := (unchanged_iff_readable sums_sha256Sums (depthFirst_oneBlock [7]) hintact).mp h
  exact absurd (hread.1 (sha256Cid raw [7], [7]) rfl) (by decide)

/-- The CAR of that log. -/
theorem writeCar_unchanged_iff_oneByte : ∃ bs,
    oneBlockCar [7] = Carlog.carHeader oneByteRoot ++ entries bs ∧ DepthFirst [oneByteRoot] bs ∧
      ((∀ b ∈ bs, Intact b) →
        (Unchanged sha256Sums oneByteRoot (oneBlockCar [7]) ↔ Readable bs)) := by
  obtain ⟨w', hrun⟩ := run_oneByte
  exact writeCar_unchanged_iff sums_sha256Sums hrun

end

end Ributil

end Ribs
