import Ribs.Carlog.Encoding
import Ribs.Ributil.Repair
/-!
# Ributil — a repaired CAR is never wrong

Whatever the source is, what the reader hands out is the beginning of the
canonical CAR: the stack holds the CIDs that are still to come, depth
first, and an entry goes out only when its data is that of its CID.
-/

namespace Ribs

open Common

namespace Ributil

open Carlog (External dagCBOR raw maxAllowedSectionSize)

/-! ## Canonical CARs -/

/-- A block and the blocks it links to. -/
inductive Tree where
  | node (cid : Cid) (data : Bytes) (links : List Tree)

namespace Tree

def cid : Tree → Cid
  | node c _ _ => c

mutual

/-- The blocks, depth first. -/
def blocks : Tree → List (Cid × Bytes)
  | node c data links => (c, data) :: blocksOf links

def blocksOf : List Tree → List (Cid × Bytes)
  | [] => []
  | t :: ts => t.blocks ++ blocksOf ts

end

variable [X : External]

mutual

/-- **A canonical tree**: a block is a leaf, or its data are its links, of
which there is one. -/
def Canonical : Tree → Prop
  | node c data links => (c.codec = raw ∧ links = []) ∨
      (c.codec = dagCBOR ∧ X.decodeLinks data = some (links.map cid) ∧ links ≠ [] ∧
        CanonicalAll links)

def CanonicalAll : List Tree → Prop
  | [] => True
  | t :: ts => t.Canonical ∧ CanonicalAll ts

end

end Tree

/-- The frames of blocks. -/
def entries (bs : List (Cid × Bytes)) : Bytes := frames (bs.map fun b => b.1.bytes ++ b.2)

section

variable [X : External]

/-- **The canonical CAR** of a tree. -/
def Tree.car (t : Tree) : Bytes := Carlog.carHeader t.cid ++ entries t.blocks

/-- The blocks that follow when the CIDs are expected, one after the other
and each with what it links to. -/
inductive Preorder : List Cid → List (Cid × Bytes) → Prop
  | nil : Preorder [] []
  | leaf {c : Cid} {cs : List Cid} {data : Bytes} {bs : List (Cid × Bytes)}
    (hc : c.codec ≠ dagCBOR) (h : Preorder cs bs) : Preorder (c :: cs) ((c, data) :: bs)
  | node {c : Cid} {cs links : List Cid} {data : Bytes} {bs : List (Cid × Bytes)}
    (hc : c.codec = dagCBOR) (hlinks : X.decodeLinks data = some links) (hne : links ≠ [])
    (h : Preorder (links ++ cs) bs) : Preorder (c :: cs) ((c, data) :: bs)

namespace Tree

mutual

theorem preorder_blocks {cs : List Cid} {bs : List (Cid × Bytes)} (hbs : Preorder cs bs) :
    ∀ t : Tree, t.Canonical → Preorder (t.cid :: cs) (t.blocks ++ bs)
  | node c data links, h => by
    rw [Canonical] at h
    rw [blocks, List.cons_append]
    rcases h with ⟨hc, rfl⟩ | ⟨hc, hlinks, hne, hall⟩
    · exact .leaf (by rw [cid, hc]; decide) hbs
    · exact .node hc hlinks (by simpa using hne) (preorder_blocksOf hbs links hall)

theorem preorder_blocksOf {cs : List Cid} {bs : List (Cid × Bytes)} (hbs : Preorder cs bs) :
    ∀ ts : List Tree, CanonicalAll ts → Preorder (ts.map cid ++ cs) (blocksOf ts ++ bs)
  | [], _ => by simpa [blocksOf] using hbs
  | t :: ts, h => by
    rw [CanonicalAll] at h
    rw [blocksOf, List.append_assoc, List.map_cons, List.cons_append]
    exact preorder_blocks (preorder_blocksOf hbs ts h.2) t h.1

end

theorem Canonical.preorder {t : Tree} (h : t.Canonical) : Preorder [t.cid] t.blocks := by
  simpa using preorder_blocks .nil t h

end Tree

end

/-! ## Programs of the reader -/

/-- A program that neither panics nor ends with `io.EOF`. -/
def Safe {α : Type} (R : α → RepairCarLog → Prop) : Post RepairCarLog Err α :=
  ⟨R, fun e _ => e ≠ .eof, fun _ => False, fun _ _ => False⟩

section

variable {α β : Type} {m : Op α} {R R' : α → RepairCarLog → Prop} {U : β → RepairCarLog → Prop}
  {r : RepairCarLog}

theorem safe_mono (h : wp calm m (Safe R) r) (himp : ∀ a t, R a t → R' a t) :
    wp calm m (Safe R') r :=
  wp_mono h himp (fun _ _ => id) (fun _ => id) fun _ _ => id

theorem safe_seq {f : α → Op β} (h : wp calm m (Safe R) r)
    (hok : ∀ a t, R a t → wp calm (f a) (Safe U) t) : wp calm (m >>= f) (Safe U) r :=
  wp_seq h hok (fun _ _ => id) (fun _ => id) fun _ _ => id

/-- Only another error is expected of `m`. -/
theorem safe_wrapErr {s : String} (h : wp calm m ⟨R, fun _ _ => True, fun _ => False,
    fun _ _ => False⟩ r) : wp calm (wrapErr s m) (Safe R) r := by
  rw [wrapErr, wp_handle]
  exact wp_mono h (fun _ _ => id) (fun _ _ _ => by simp [Safe]) (fun _ => id) fun _ _ => id

theorem safe_failIf {c : Prop} [Decidable c] {s : String} {R : Unit → RepairCarLog → Prop}
    (h : ¬ c → R () r) : wp calm (failIf c (.text s)) (Safe R) r := by
  unfold failIf
  split_ifs with hc
  · simp [Safe]
  · exact h hc

theorem safe_sliceTo {n : ℕ} {b : Bytes} (h : n ≤ b.length) :
    wp calm (sliceTo n b) (Safe fun d r' => d = b.take n ∧ r' = r) r := by
  rw [sliceTo_of_le h]
  exact ⟨rfl, rfl⟩

theorem safe_sliceFrom {n : ℕ} {b : Bytes} (h : n ≤ b.length) :
    wp calm (sliceFrom n b) (Safe fun d r' => d = b.drop n ∧ r' = r) r := by
  rw [sliceFrom_of_le h]
  exact ⟨rfl, rfl⟩

/-- The offset is one of those that are tried. -/
theorem wp_matchLoop {pattern buf : Bytes} {offs : List ℕ} {best : ℕ × ℕ} {k : ℕ}
    (hbest : best.1 ≤ k) (hle : ∀ i ∈ offs, i ≤ k) (hlen : k + pattern.length ≤ buf.length) :
    wp calm (matchLoop pattern buf offs best) (Safe fun x r' => x.1 ≤ k ∧ r' = r) r := by
  induction offs generalizing best with
  | nil => exact ⟨hbest, rfl⟩
  | cons i offs ih =>
    obtain ⟨hi, hoffs⟩ := List.forall_mem_cons.mp hle
    rw [matchLoop_cons (by omega)]
    split_ifs
    · exact ⟨hi, rfl⟩
    · exact ih hi hoffs
    · exact ih hbest hoffs

theorem wp_match32Bytes {pattern buf : Bytes} : wp calm (match32Bytes pattern buf)
    ⟨fun x r' => x.1 ≤ 3 ∧ r' = r, fun _ _ => True, fun _ => False, fun _ _ => False⟩ r := by
  unfold match32Bytes
  split_ifs with hpattern hbuf
  · trivial
  · trivial
  · exact wp_mono (wp_matchLoop (k := 3) (by omega) (by decide) (by omega)) (fun _ _ => id)
      (fun _ _ _ => trivial) (fun _ => id) fun _ _ => id

end

/-- What a step leaves that works on the entry only. -/
def SameStack (r r' : RepairCarLog) : Prop := r'.expectCidStack = r.expectCidStack

/-- **The callback and the hash functions are right** about the blocks: a
block of a CID is the block, and the callback returns the block. -/
structure Blocks.Right (B : Blocks) (bs : List (Cid × Bytes)) : Prop where
  sum : ∀ b ∈ bs, ∀ d, B.sum b.1 d = some b.1 → d = b.2
  repairBlock : ∀ b ∈ bs, ∀ n bad d, B.repairBlock n b.1 bad = some d → d = b.2

/-- **A callback that never fails**, and hash functions that tell the blocks
from all else. -/
structure Blocks.Exact (B : Blocks) (bs : List (Cid × Bytes)) : Prop where
  sum : ∀ b ∈ bs, ∀ d, ∃ hash, B.sum b.1 d = some hash ∧ (hash = b.1 ↔ d = b.2)
  repairBlock : ∀ b ∈ bs, ∀ n bad, B.repairBlock n b.1 bad = some b.2

theorem Blocks.Exact.right {B : Blocks} {bs : List (Cid × Bytes)} (h : B.Exact bs) : B.Right bs where
  sum b hb d hd := by
    obtain ⟨hash, hsum, hiff⟩ := h.sum b hb d
    exact hiff.mp (Option.some.inj (hsum.symm.trans hd))
  repairBlock b hb n bad d hd := (Option.some.inj ((h.repairBlock b hb n bad).symm.trans hd)).symm

namespace RepairCarLog

variable {B : Blocks} {c : Cid} {data : Bytes} {bs : List (Cid × Bytes)} {r r' : RepairCarLog}

theorem wp_peek {n : ℕ} : wp calm (peek n)
    ⟨fun d r' => r' = r ∧ d = r.source.take n ∧ n ≤ r.source.length,
      fun _ r' => r' = r ∧ r.source.length < n, fun _ => False, fun _ _ => False⟩ r := by
  unfold peek
  change wp calm (if _ then _ else _) _ r
  split_ifs with h
  · exact ⟨rfl, h⟩
  · exact ⟨rfl, rfl, Nat.not_lt.mp h⟩

theorem wp_discard {n : ℕ} : wp calm (discard n)
    ⟨fun _ r' => n ≤ r.source.length ∧ r' = { r with source := r.source.drop n }, fun _ _ => True,
      fun _ => False, fun _ _ => False⟩ r := by
  unfold discard
  change wp calm (if _ then _ else _) _ r
  split_ifs with h
  · trivial
  · exact ⟨Nat.not_lt.mp h, rfl⟩

/-- What the callback returns is the block. -/
theorem wp_repairBlock (hB : B.Right ((c, data) :: bs)) (bad : Option Bytes) :
    wp calm (repairBlock B c bad) (Safe fun d r' => d = data ∧ SameStack r r') r := by
  cases hd : B.repairBlock r.repairs c bad with
  | none => simp [repairBlock, wp, hd, Safe]
  | some d =>
    have hright := hB.repairBlock (c, data) List.mem_cons_self _ _ _ hd
    simpa [repairBlock, wp, hd, Safe, SameStack] using hright

theorem wp_remake (hB : B.Right ((c, data) :: bs)) :
    wp calm (remake B c) (Safe fun ent r' => ent = c.bytes ++ data ∧ SameStack r r') r := by
  refine safe_seq (R := fun _ r' => SameStack r r') rfl ?_
  intro _ u hu
  refine safe_seq (wp_repairBlock hB none) ?_
  rintro _ v ⟨rfl, hv⟩
  exact ⟨rfl, hv.trans hu⟩

theorem wp_readEntry (hB : B.Right ((c, data) :: bs)) (varint : Bytes) :
    wp calm (readEntry B c varint) (Safe fun _ r' => SameStack r r') r := by
  unfold readEntry
  have hremake : ∀ r, wp calm (remake B c) (Safe fun _ r' => SameStack r r') r := fun r =>
    safe_mono (wp_remake hB) fun _ _ h => h.2
  split
  · exact hremake r
  split_ifs
  · exact hremake r
  rw [wp_handle]
  refine wp_mono wp_peek ?_ ?_ (fun _ => id) fun _ _ => id
  · rintro d _ ⟨rfl, -⟩
    rfl
  · rintro e _ ⟨rfl, -⟩
    exact hremake _

theorem wp_lengthen (hB : B.Right ((c, data) :: bs)) (ent : Bytes) : wp calm (lengthen B c ent)
    (Safe fun ent r' => c.bytes.length ≤ ent.length ∧ SameStack r r') r := by
  unfold lengthen
  split_ifs with hshort
  · exact safe_mono (wp_remake hB) fun _ _ h => ⟨by rw [h.1, List.length_append]; omega, h.2⟩
  · exact ⟨Nat.not_lt.mp hshort, rfl⟩

/-- An entry begins with its CID. -/
theorem wp_fixCid {ent : Bytes} (hlen : c.bytes.length ≤ ent.length) : wp calm (fixCid c ent)
    (Safe fun ent r' => (∃ d, ent = c.bytes ++ d) ∧ SameStack r r') r := by
  unfold fixCid
  rw [sliceTo_of_le hlen]
  change wp calm (if _ then _ else _) _ r
  split_ifs with heq
  · exact safe_seq (R := fun _ r' => SameStack r r') rfl fun _ _ hv => ⟨⟨_, rfl⟩, hv⟩
  · refine ⟨⟨ent.drop c.bytes.length, ?_⟩, rfl⟩
    conv_lhs => rw [← List.take_append_drop c.bytes.length ent, not_not.mp heq]

/-- **Behind the check of the hash** the entry is the block's. -/
theorem wp_fixData (hB : B.Right ((c, data) :: bs)) {d : Bytes} :
    wp calm (fixData B c (c.bytes ++ d))
      (Safe fun ent r' => ent = c.bytes ++ data ∧ SameStack r r') r := by
  unfold fixData
  rw [sliceFrom_of_le (by rw [List.length_append]; omega), List.drop_left]
  rw [wp_bind, wp_ret]
  dsimp only
  cases hsum : B.sum c d with
  | none => simp [Safe]
  | some hash =>
    by_cases heq : hash = c
    · subst heq
      have hd := hB.sum (hash, data) List.mem_cons_self d hsum
      change wp calm (if hash ≠ hash then _ else _) _ r
      rw [if_neg (by simp)]
      exact ⟨by rw [hd], rfl⟩
    · change wp calm (if hash ≠ c then _ else _) _ r
      rw [if_pos heq]
      refine safe_seq (R := fun _ r' => SameStack r r') rfl ?_
      intro _ u hu
      refine safe_seq (wp_repairBlock hB _) ?_
      rintro _ v ⟨rfl, hv⟩
      exact ⟨rfl, hv.trans hu⟩

end RepairCarLog

/-! ## The stack -/

section

variable [X : External]

/-- The reader expects these blocks. -/
structure Pending (bs : List (Cid × Bytes)) (r : RepairCarLog) : Prop where
  layers : ∀ layer ∈ r.expectCidStack, layer ≠ []
  preorder : Preorder r.expectCidStack.flatten bs

/-- The reader is at the block `(c, data)`, and expects `bs` behind it. -/
structure At (c : Cid) (data : Bytes) (bs : List (Cid × Bytes)) (r : RepairCarLog) : Prop where
  layers : ∀ layer ∈ r.expectCidStack, layer ≠ []
  preorder : Preorder (c :: r.expectCidStack.flatten) ((c, data) :: bs)

theorem At.sameStack {c : Cid} {data : Bytes} {bs : List (Cid × Bytes)} {r r' : RepairCarLog}
    (h : At c data bs r) (hr : SameStack r r') : At c data bs r' :=
  ⟨by rw [hr]; exact h.layers, by rw [hr]; exact h.preorder⟩

namespace RepairCarLog

variable {B : Blocks} {c : Cid} {data : Bytes} {bs : List (Cid × Bytes)} {r r' : RepairCarLog}

theorem wp_popCid (h : Pending bs r) : wp calm popCid
    ⟨fun c r' => ∃ data bs', bs = (c, data) :: bs' ∧ At c data bs' r',
      fun _ _ => bs = [], fun _ => False, fun _ _ => False⟩ r := by
  obtain ⟨hlayers, hpre⟩ := h
  unfold popCid
  rw [wp]
  rcases hs : r.expectCidStack with _ | ⟨_ | ⟨c, _ | ⟨c', layer⟩⟩, rest⟩
  · rw [hs] at hpre
    cases hpre
    rfl
  · exact absurd rfl (hlayers [] (by rw [hs]; exact List.mem_cons_self))
  · rw [hs] at hpre hlayers
    obtain ⟨data, bs', rfl⟩ : ∃ data bs', bs = (c, data) :: bs' := by
      cases hpre <;> exact ⟨_, _, rfl⟩
    exact ⟨data, bs', rfl, fun l hl => hlayers l (List.mem_cons_of_mem _ hl), hpre⟩
  · rw [hs] at hpre hlayers
    obtain ⟨data, bs', rfl⟩ : ∃ data bs', bs = (c, data) :: bs' := by
      cases hpre <;> exact ⟨_, _, rfl⟩
    refine ⟨data, bs', rfl, ?_, hpre⟩
    exact List.forall_mem_cons.mpr ⟨by simp, fun l hl => hlayers l (List.mem_cons_of_mem _ hl)⟩

/-- What is expected behind a block: the blocks it links to come first. -/
theorem wp_pushLinks (h : At c data bs r) : wp calm (pushLinks c (c.bytes ++ data))
    (Safe fun _ r' => Pending bs r' ∧ r' = { r with expectCidStack := r'.expectCidStack }) r := by
  obtain ⟨hlayers, hpre⟩ := h
  unfold pushLinks
  cases hpre with
  | leaf hc hpre =>
    rw [if_neg hc]
    exact ⟨⟨hlayers, hpre⟩, rfl⟩
  | node hc hlinks hne hpre =>
    rw [if_pos hc, sliceFrom_of_le (by rw [List.length_append]; omega), List.drop_left]
    rw [wp_bind, wp_ret]
    dsimp only
    rw [hlinks]
    exact ⟨⟨List.forall_mem_cons.mpr ⟨hne, hlayers⟩, hpre⟩, rfl⟩

theorem wp_emit (h : At c data bs r) : wp calm (emit c (c.bytes ++ data))
    (Safe fun _ r' => Pending bs r' ∧ r'.readBuf = framed (c.bytes ++ data)) r := by
  refine safe_seq (R := fun _ r' => At c data bs r' ∧ r'.readBuf = framed (c.bytes ++ data))
    ⟨⟨h.layers, h.preorder⟩, rfl⟩ ?_
  rintro - u ⟨hu, hbuf⟩
  refine safe_seq (wp_pushLinks hu) ?_
  rintro - v ⟨hv, heq⟩
  refine safe_wrapErr (wp_mono wp_discard ?_ (fun _ _ _ => trivial) (fun _ => id) fun _ _ => id)
  rintro - _ ⟨-, rfl⟩
  exact ⟨⟨hv.layers, hv.preorder⟩, by rw [heq]; exact hbuf⟩

/-- **The next entry** is the one of the block that is expected next. -/
theorem wp_nextEntry (hB : B.Right bs) (h : Pending bs r) : wp calm (nextEntry B)
    ⟨fun _ r' => ∃ c data bs', bs = (c, data) :: bs' ∧ Pending bs' r' ∧
        r'.readBuf = framed (c.bytes ++ data),
      fun e _ => e = .eof → bs = [], fun _ => False, fun _ _ => False⟩ r := by
  refine wp_seq (wp_popCid h) ?_ (fun _ _ h _ => h) (fun _ => id) fun _ _ => id
  rintro c u ⟨data, bs', rfl, hu⟩
  -- behind `popCid` there is a block left, so no error is the end
  have hsafe : ∀ {m : Op Unit} {u}, wp calm m (Safe fun _ r' => Pending bs' r' ∧
      r'.readBuf = framed (c.bytes ++ data)) u → wp calm m
      ⟨fun _ r' => ∃ c' data' bs'', (c, data) :: bs' = (c', data') :: bs'' ∧ Pending bs'' r' ∧
        r'.readBuf = framed (c'.bytes ++ data'),
        fun e _ => e = .eof → (c, data) :: bs' = [], fun _ => False, fun _ _ => False⟩ u :=
    fun hm => wp_mono hm (fun _ _ hp => ⟨c, data, bs', rfl, hp⟩)
      (fun _ _ hne he => absurd he hne) (fun _ => id) fun _ _ => id
  refine hsafe ?_
  refine safe_seq (R := fun _ r' => 32 ≤ c.bytes.length ∧ r' = u)
    (safe_failIf fun hlong => ⟨Nat.not_lt.mp hlong, rfl⟩) ?_
  rintro - u ⟨h32, rfl⟩
  refine safe_seq (R := fun d r' => c.bytes.length + 4 ≤ d.length ∧ r' = u)
    (safe_wrapErr (wp_mono wp_peek ?_ (fun _ _ _ => trivial) (fun _ => id) fun _ _ => id)) ?_
  · rintro _ r' ⟨rfl, rfl, hle⟩
    exact ⟨by rw [List.length_take]; omega, rfl⟩
  rintro cidLenEnt u ⟨hpeek, rfl⟩
  refine safe_seq (safe_sliceTo h32) ?_
  rintro _ u ⟨rfl, rfl⟩
  refine safe_seq (safe_sliceFrom (n := 1) (by omega)) ?_
  rintro _ u ⟨rfl, rfl⟩
  refine safe_seq (safe_wrapErr wp_match32Bytes) ?_
  rintro ⟨cidOff, maxOverlap⟩ u ⟨hoff, rfl⟩
  refine safe_seq (R := fun _ r' => SameStack u r') (safe_wrapErr (wp_mono wp_discard ?_
    (fun _ _ _ => trivial) (fun _ => id) fun _ _ => id)) ?_
  · rintro - _ ⟨-, rfl⟩
    rfl
  rintro - v hv
  have hvarint : cidOff + 1 ≤ cidLenEnt.length := by
    simp only at hoff
    omega
  refine safe_seq (safe_sliceTo hvarint) ?_
  rintro _ v ⟨rfl, rfl⟩
  -- an entry that these steps let through is the block's
  refine safe_seq (wp_readEntry hB _) ?_
  intro ent w hw
  refine safe_seq (wp_lengthen hB ent) ?_
  rintro ent x ⟨hlong, hx⟩
  refine safe_seq (wp_fixCid hlong) ?_
  rintro _ y ⟨⟨d, rfl⟩, hy⟩
  refine safe_seq (wp_fixData hB) ?_
  rintro _ z ⟨rfl, hz⟩
  exact wp_emit (hu.sameStack (hz.trans (hy.trans (hx.trans (hw.trans hv)))))

/-! ## Reading -/

/-- What is still to be handed out. -/
def left (bs : List (Cid × Bytes)) (r : RepairCarLog) : Bytes := r.readBuf ++ entries bs

/-- What one `Read` returns, with the error `e`. -/
def ReadOut (bs : List (Cid × Bytes)) (r : RepairCarLog) (out : Bytes) (r' : RepairCarLog) :
    Option Err → Prop
  | none => ∃ bs', bs' <:+ bs ∧ Pending bs' r' ∧ left bs r = out ++ left bs' r'
  | some e => out <+: left bs r ∧ (e = .eof → out = left bs r)

omit X in
theorem wp_checkCorrupt {e : Option Err} : wp calm (checkCorrupt e)
    ⟨fun e' r' => r' = { r with bad := r'.bad } ∧ (e' = e ∨ ∃ s, e' = some (.text s)),
      fun _ _ => False, fun _ => False, fun _ _ => False⟩ r := by
  unfold checkCorrupt
  change wp calm (if _ then _ else _) _ _
  split_ifs
  · exact ⟨rfl, Or.inr ⟨_, rfl⟩⟩
  · exact ⟨rfl, Or.inl rfl⟩

/-- Part of the read buffer goes out. -/
theorem readOut_copyOut {n : ℕ} {u v : RepairCarLog} {bs' : List (Cid × Bytes)} {e : Option Err}
    (hsuffix : bs' <:+ bs) (hu : Pending bs' u) (hleft : left bs r = left bs' u)
    (hv : v = { u with readBuf := u.readBuf.drop n, bad := v.bad })
    (he : e = none ∨ ∃ s, e = some (.text s)) : ReadOut bs r (u.readBuf.take n) v e := by
  have hall : left bs r = u.readBuf.take n ++ left bs' v := by
    rw [hleft, left, left, hv, ← List.append_assoc, List.take_append_drop]
  rcases he with rfl | ⟨s, rfl⟩
  · exact ⟨bs', hsuffix, ⟨by rw [hv]; exact hu.layers, by rw [hv]; exact hu.preorder⟩, hall⟩
  · exact ⟨⟨_, hall.symm⟩, fun h => absurd h (by simp)⟩

theorem wp_read (hB : B.Right bs) (h : Pending bs r) (n : ℕ) : wp calm (read B n)
    ⟨fun x r' => ReadOut bs r x.1 r' x.2, fun _ _ => False, fun _ => False, fun _ _ => False⟩ r := by
  unfold read
  change wp calm (if _ then _ else _) _ r
  split_ifs with hbuf
  · exact readOut_copyOut (u := r) (List.suffix_refl bs) h rfl rfl (Or.inl rfl)
  have hbuf : r.readBuf = [] := not_not.mp hbuf
  have hstart : Pending bs { r with totalRead := r.totalRead + 1, wasCorrupt := false } :=
    ⟨h.layers, h.preorder⟩
  change wp calm ((nextEntry B).attempt >>= finish n) _
    { r with totalRead := r.totalRead + 1, wasCorrupt := false }
  rw [wp_bind, wp_attempt]
  refine wp_mono (wp_nextEntry hB hstart) ?_ ?_ (fun _ => id) fun _ _ => id
  · rintro - u ⟨c, data, bs', rfl, hu, hubuf⟩
    have hleft : left ((c, data) :: bs') r = left bs' u := by
      simp [left, entries, hbuf, hubuf]
    change wp calm (checkCorrupt none >>= _) _ { u with readBuf := u.readBuf.drop n }
    refine wp_seq wp_checkCorrupt ?_ (fun _ _ => id) (fun _ => id) fun _ _ => id
    rintro e v ⟨hv, he⟩
    exact readOut_copyOut (List.suffix_cons _ bs') hu hleft hv he
  · intro e u hne
    change wp calm (checkCorrupt (some e) >>= _) _ u
    refine wp_seq wp_checkCorrupt ?_ (fun _ _ => id) (fun _ => id) fun _ _ => id
    rintro e' v ⟨-, he⟩
    have hout : ∀ x, (x = .eof → bs = []) → ReadOut bs r [] v (some x) := fun x hx =>
      ⟨List.nil_prefix, fun hxe => by simp [left, entries, hbuf, hx hxe]⟩
    rcases he with rfl | ⟨s, rfl⟩
    · exact hout e hne
    · exact hout _ fun h => absurd h (by simp)

theorem wp_reads (ns : List ℕ) {bs : List (Cid × Bytes)} {r : RepairCarLog} (hB : B.Right bs)
    (h : Pending bs r) : wp calm (reads B ns)
      ⟨fun x _ => x.1 <+: left bs r ∧ (x.2 = some .eof → x.1 = left bs r),
        fun _ _ => False, fun _ => False, fun _ _ => False⟩ r := by
  induction ns generalizing bs r with
  | nil => exact ⟨List.nil_prefix, fun h => absurd h (by simp)⟩
  | cons n ns ih =>
    refine wp_seq (wp_read hB h n) ?_ (fun _ _ => id) (fun _ => id) fun _ _ => id
    rintro ⟨out, _ | e⟩ u hu
    · obtain ⟨bs', hsuffix, hpending, hleft⟩ := hu
      have hB' : B.Right bs' := ⟨fun b hb => hB.sum b (hsuffix.subset hb),
        fun b hb => hB.repairBlock b (hsuffix.subset hb)⟩
      refine wp_seq (ih hB' hpending) ?_ (fun _ _ => id) (fun _ => id) fun _ _ => id
      rintro ⟨more, e⟩ v ⟨hpre, heof⟩
      rw [hleft]
      exact ⟨(List.prefix_append_right_inj out).mpr hpre, fun he => congrArg (out ++ ·) (heof he)⟩
    · exact ⟨hu.1, fun he => hu.2 (Option.some.inj he)⟩

/-- The header is read, and is given out first. -/
theorem newCarRepairReader_carHeader {root : Cid} (hcodec : root.codec = raw ∨ root.codec = dagCBOR)
    (hmh : Carlog.ValidMultihash root.hash) (hlen : root.bytes.length = 36) (rest : Bytes) :
    newCarRepairReader (Carlog.carHeader root ++ rest) root =
      .ok ⟨rest, [[root]], Carlog.carHeader root, 0, 0, false, 0⟩ := by
  have hheader := X.length_encodeHeader root hlen
  have hread : readFrame maxAllowedSectionSize (Carlog.carHeader root ++ rest) =
      .ok (X.encodeHeader [root], rest) :=
    readFrame_framed (by rw [hheader]; decide) (by rw [hheader]; decide) rest
  simp [newCarRepairReader, hread, X.decodeHeader_encodeHeader root hcodec hmh hlen]

end RepairCarLog

open RepairCarLog

/-- **A repaired CAR is never wrong.** For every source whose header names
the root, and all reads of it, nothing is out of range, what is returned up
to the first error is the beginning of the canonical CAR, and when the
error is `io.EOF` it is all of it. -/
theorem reads_prefix {B : Blocks} {t : Tree} (ht : t.Canonical) (hB : B.Right t.blocks)
    {source : Bytes} {r : RepairCarLog} (hr : newCarRepairReader source t.cid = .ok r)
    (ns : List ℕ) : ∃ out e r', (reads B ns).run r [] = .ok (out, e) r' ∧ out <+: t.car ∧
      (e = some .eof → out = t.car) := by
  have hr : r.expectCidStack = [[t.cid]] ∧ r.readBuf = Carlog.carHeader t.cid := by
    unfold newCarRepairReader at hr
    split at hr
    · simp at hr
    split at hr
    · simp at hr
    split_ifs at hr
    split at hr
    · split_ifs at hr with hroot
      obtain rfl := Except.ok.inj hr
      exact ⟨rfl, by rw [not_not.mp hroot]⟩
    · simp at hr
  have hpending : Pending t.blocks r := by
    refine ⟨?_, ?_⟩
    · rw [hr.1]
      simp
    · rw [hr.1]
      exact ht.preorder
  have hsat := wp_sound (wp_reads ns hB hpending) within_nil
  rcases hrun : (reads B ns).run r [] with ⟨x, r'⟩ | ⟨e, r'⟩ | r' | ⟨k, r'⟩ <;> rw [hrun] at hsat
  · obtain ⟨hpre, heof⟩ := hsat
    have hcar : left t.blocks r = t.car := by rw [left, hr.2, Tree.car]
    exact ⟨x.1, x.2, r', rfl, hcar ▸ hpre, fun he => (heof he).trans hcar⟩
  · exact absurd hsat id
  · exact absurd hsat id
  · exact absurd hsat id

/-- The CID with the SHA-256 sum of the data. -/
def sha256Cid (codec : ℕ) (data : Bytes) : Cid := ⟨codec, Carlog.sha256Multihash (X.sum256 data)⟩

/-- SHA-256, without collisions with the blocks; the callback returns them. -/
def sha256Blocks (bs : List (Cid × Bytes)) : Blocks where
  sum c d := some (if sha256Cid c.codec d = c ∧ (c, d) ∉ bs then ⟨c.codec, []⟩
    else sha256Cid c.codec d)
  repairBlock _ c _ := bs.lookup c

/-- Blocks with the CIDs of their data. -/
def Summed (bs : List (Cid × Bytes)) : Prop :=
  (bs.map Prod.fst).Nodup ∧ ∀ b ∈ bs, b.1 = sha256Cid b.1.codec b.2

instance {bs : List (Cid × Bytes)} : Decidable (Summed bs) := inferInstanceAs (Decidable (_ ∧ _))

theorem Summed.exact_sha256Blocks {bs : List (Cid × Bytes)} (h : Summed bs) :
    (sha256Blocks bs).Exact bs := by
  obtain ⟨hnodup, hsum⟩ := h
  refine ⟨?_, ?_⟩
  · rintro ⟨c, data⟩ hb d
    have hc : c = sha256Cid c.codec data := hsum _ hb
    refine ⟨_, rfl, ?_⟩
    split_ifs with hcoll
    · refine ⟨fun heq => ?_, ?_⟩
      · have hnil : c.hash = [] := (congrArg Carlog.Cid.hash heq).symm
        rw [hc] at hnil
        exact absurd hnil (by simp [sha256Cid, Carlog.sha256Multihash])
      · rintro rfl
        exact absurd hb hcoll.2
    · refine ⟨fun heq => ?_, ?_⟩
      · have hmem : (c, d) ∈ bs := by_contra fun hnot => hcoll ⟨heq, hnot⟩
        exact (Prod.mk.inj (List.inj_on_of_nodup_map hnodup hmem hb rfl)).2
      · rintro rfl
        exact hc.symm
  · rintro ⟨c, data⟩ hb n bad
    obtain ⟨pre, post, rfl⟩ := List.append_of_mem hb
    refine List.lookup_eq_some_iff.mpr ⟨pre, post, rfl, fun p hp => bne_iff_ne.mpr ?_⟩
    rintro rfl
    rw [List.map_append, List.map_cons] at hnodup
    exact List.nodup_middle.mp hnodup |>.notMem (by
      simpa using Or.inl ⟨p.2, hp⟩)

end

section

open Carlog.Encoding RepairCarLog

/-- A block of three bytes. -/
def leaf : Tree := .node (sha256Cid raw [1, 2, 3]) [1, 2, 3] []

/-- A node that links to it. -/
def node : Tree := .node (sha256Cid dagCBOR (encodeLinks [leaf.cid])) (encodeLinks [leaf.cid]) [leaf]

theorem canonical_leaf : leaf.Canonical := by
  simp [leaf, Tree.Canonical, sha256Cid]

theorem canonical_node : node.Canonical := by
  have hlink : decodeLinks (encodeLinks [leaf.cid]) = some [leaf.cid] :=
    decodeLinks_encodeLinks (by
      simp only [List.mem_singleton, forall_eq]
      exact ⟨Or.inl rfl, validMultihash_of_isSha256 ⟨_, rfl⟩⟩) (by decide)
  rw [node, Tree.Canonical]
  exact Or.inr ⟨rfl, hlink, by simp, canonical_leaf, trivial⟩

/-- The CAR of a root and a leaf, where a byte was lost. -/
theorem reads_prefix_lost : ∃ out e r',
    (reads (sha256Blocks node.blocks) [58, 100]).run
      ⟨(entries node.blocks).drop 1, [[node.cid]], Carlog.carHeader node.cid, 0, 0, false, 0⟩ [] =
        .ok (out, e) r' ∧ out <+: node.car ∧ (e = some .eof → out = node.car) := by
  have hsum : Summed node.blocks := by decide +kernel
  exact reads_prefix canonical_node hsum.exact_sha256Blocks.right
    (newCarRepairReader_carHeader (Or.inr rfl) (validMultihash_of_isSha256 ⟨_, rfl⟩) rfl _) _

end

end Ributil

end Ribs
