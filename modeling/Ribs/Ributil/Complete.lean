import Ribs.Ributil.Sound
/-!
# Ributil — a damaged CAR is repaired

When bits were flipped but no bytes lost, the reader hands out the whole
canonical CAR. The CID behind each length is found by its overlap, and
whatever was damaged the entry is made the length it had, so that the next
entry is where it is looked for. An entry is found corrupt if and only if
its bytes are not what they were.
-/

namespace Ribs

open Common

namespace Ributil

open Carlog (External dagCBOR raw maxAllowedSectionSize)

/-! ## Finding the CID -/

/-- The overlaps only look at as many bytes as the pattern has. -/
theorem overlap_take {patt b : Bytes} {n : ℕ} (h : patt.length ≤ n) :
    overlap patt (b.take n) = overlap patt b := by
  rw [overlap, overlap]
  congr 1
  induction patt generalizing b n with
  | nil => rfl
  | cons p patt ih =>
    obtain ⟨n, rfl⟩ : ∃ m, n = m + 1 := ⟨n - 1, by rw [List.length_cons] at h; omega⟩
    cases b with
    | nil => rfl
    | cons x b =>
      rw [List.take_succ_cons, List.zipWith_cons_cons, List.zipWith_cons_cons,
        ih (by rw [List.length_cons] at h; omega)]

theorem overlap_le (patt b : Bytes) : overlap patt b ≤ 8 * patt.length := by
  rw [overlap]
  induction patt generalizing b with
  | nil => simp
  | cons p patt ih =>
    cases b with
    | nil => simp
    | cons x b =>
      have := ih b
      rw [List.zipWith_cons_cons, List.sum_cons, List.length_cons]
      omega

variable {pattern buf : Bytes} {i : ℕ}

/-- No offset that is left beats the best. -/
theorem matchLoop_of_lt {offs : List ℕ} {best : ℕ × ℕ} (hlen : pattern.length = 32)
    (hbest : best.2 ≤ 256) (h : ∀ j ∈ offs, j + 32 ≤ buf.length ∧
      overlap pattern (buf.drop j) < best.2) :
    matchLoop pattern buf offs best = .ret best := by
  induction offs with
  | nil => rfl
  | cons j offs ih =>
    obtain ⟨⟨hbuf, hj⟩, hoffs⟩ := List.forall_mem_cons.mp h
    rw [matchLoop_cons (by omega), if_neg (by omega), if_neg (by omega)]
    exact ih hoffs

/-- **The offset with the strictly greatest overlap is found.** -/
theorem matchLoop_eq {offs : List ℕ} {best : ℕ × ℕ} (hlen : pattern.length = 32)
    (hnodup : offs.Nodup) (hi : i ∈ offs) (hbuf : ∀ j ∈ offs, j + 32 ≤ buf.length)
    (hbest : best.2 < overlap pattern (buf.drop i))
    (h : ∀ j ∈ offs, j ≠ i → overlap pattern (buf.drop j) < overlap pattern (buf.drop i)) :
    ∃ n, matchLoop pattern buf offs best = .ret (i, n) := by
  have hle := overlap_le pattern (buf.drop i)
  rw [hlen] at hle
  induction offs generalizing best with
  | nil => exact absurd hi List.not_mem_nil
  | cons j offs ih =>
    obtain ⟨hnot, hnodup⟩ := List.nodup_cons.mp hnodup
    obtain ⟨hjbuf, hbuf⟩ := List.forall_mem_cons.mp hbuf
    rw [matchLoop_cons (by omega)]
    by_cases hj : j = i
    · subst hj
      split_ifs with hall
      · exact ⟨_, rfl⟩
      · refine ⟨_, matchLoop_of_lt hlen hle fun k hk => ⟨hbuf k hk, ?_⟩⟩
        refine h k (List.mem_cons_of_mem _ hk) ?_
        rintro rfl
        exact hnot hk
    · have hlt := h j List.mem_cons_self hj
      rw [if_neg (by omega)]
      refine ih hnodup ((List.mem_cons.mp hi).resolve_left (Ne.symm hj)) hbuf ?_
        fun k hk => h k (List.mem_cons_of_mem _ hk)
      split_ifs
      · exact hlt
      · exact hbest

/-- **The CID is where it was**: at the offset where the length ends, the
overlap with the CID is strictly greater than at the three others. -/
def Aligned (c : Cid) (varintLen : ℕ) (src : Bytes) : Prop :=
  varintLen ≤ 4 ∧ ∀ j < 4, j ≠ varintLen - 1 →
    overlap (c.bytes.take 32) (src.drop (j + 1)) <
      overlap (c.bytes.take 32) (src.drop varintLen)

instance {c : Cid} {varintLen : ℕ} {src : Bytes} : Decidable (Aligned c varintLen src) :=
  inferInstanceAs (Decidable (_ ∧ _))

theorem match32Bytes_of_aligned {c : Cid} {varintLen : ℕ} {src : Bytes}
    (hc : c.bytes.length = 36) (hlen : 40 ≤ src.length) (hpos : 0 < varintLen)
    (h : Aligned c varintLen src) : ∃ n,
      match32Bytes (c.bytes.take 32) ((src.take 40).drop 1) = .ret (varintLen - 1, n) := by
  obtain ⟨hle, hgreatest⟩ := h
  have hpatt : (c.bytes.take 32).length = 32 := by rw [List.length_take, hc]; rfl
  have hbuf : ((src.take 40).drop 1).length = 39 := by
    rw [List.length_drop, List.length_take]
    omega
  have hoverlap : ∀ j < 4, overlap (c.bytes.take 32) (((src.take 40).drop 1).drop j) =
      overlap (c.bytes.take 32) (src.drop (j + 1)) := fun j hj => by
    rw [List.drop_drop, List.drop_take, overlap_take (by rw [hpatt]; omega), Nat.add_comm 1 j]
  have hat : varintLen - 1 + 1 = varintLen := by omega
  have hmem : ∀ j, j ∈ [0, 1, 2, 3] ↔ j < 4 := by
    intro j
    simp only [List.mem_cons, List.not_mem_nil, or_false]
    omega
  -- some other offset has less, so that this one has more than nothing
  obtain ⟨k, hk, hne⟩ : ∃ k < 4, k ≠ varintLen - 1 := by
    by_cases h0 : varintLen = 1
    · exact ⟨1, by omega, by omega⟩
    · exact ⟨0, by omega, by omega⟩
  have hless := hgreatest k hk hne
  rw [match32Bytes, if_neg (not_not.mpr hpatt), if_neg (by omega)]
  refine matchLoop_eq hpatt (by decide) ((hmem _).mpr (by omega)) ?_ ?_ fun j hj hne => ?_
  · intro j hj
    have := (hmem j).mp hj
    omega
  · rw [hoverlap _ (by omega), hat]
    exact Nat.lt_of_le_of_lt (Nat.zero_le _) hless
  · rw [hoverlap j ((hmem j).mp hj), hoverlap _ (by omega), hat]
    exact hgreatest j ((hmem j).mp hj) hne

/-! ## One entry -/

/-- A program that returns. -/
def Sure {α : Type} (R : α → RepairCarLog → Prop) : Post RepairCarLog Err α :=
  ⟨R, fun _ _ => False, fun _ => False, fun _ _ => False⟩

section

variable {α β : Type} {m : Op α} {R R' : α → RepairCarLog → Prop} {U : β → RepairCarLog → Prop}
  {r : RepairCarLog}

theorem sure_mono (h : wp calm m (Sure R) r) (himp : ∀ a t, R a t → R' a t) :
    wp calm m (Sure R') r :=
  wp_mono h himp (fun _ _ => id) (fun _ => id) fun _ _ => id

theorem sure_seq {f : α → Op β} (h : wp calm m (Sure R) r)
    (hok : ∀ a t, R a t → wp calm (f a) (Sure U) t) : wp calm (m >>= f) (Sure U) r :=
  wp_seq h hok (fun _ _ => id) (fun _ => id) fun _ _ => id

theorem sure_wrapErr {s : String} (h : wp calm m (Sure R) r) : wp calm (wrapErr s m) (Sure R) r := by
  rw [wrapErr, wp_handle]
  exact wp_mono h (fun _ _ => id) (fun _ _ => False.elim) (fun _ => id) fun _ _ => id

end

/-- **An entry that is not found corrupt**: a length that is allowed, and its
bytes and those behind it as they were. -/
def Passes (ent varint src : Bytes) : Prop :=
  ent.length ≤ maxAllowedSectionSize ∧ varint = putUvarint ent.length ∧ src.take ent.length = ent

instance {ent varint src : Bytes} : Decidable (Passes ent varint src) :=
  inferInstanceAs (Decidable (_ ∧ _))

/-- **An entry under way**: `good` is what it was, `varint` the bytes of its
length, and `got` what there is of it. Until something was found corrupt,
`got` is what the length says; and nothing is when the entry passes. -/
structure Going (good varint : Bytes) (r : RepairCarLog) (got : Bytes) (r' : RepairCarLog) :
    Prop where
  frame : r' = { r with wasCorrupt := r'.wasCorrupt, repairs := r'.repairs }
  clean : r'.wasCorrupt = false → ∃ n rest, readUvarint varint = .ok (n, rest) ∧
    n ≤ maxAllowedSectionSize ∧ n ≤ r.source.length ∧ got = r.source.take n
  same : Passes good varint r.source → r'.wasCorrupt = false ∧ got = good

theorem Going.corrupt {good varint got got' : Bytes} {r u r' : RepairCarLog}
    (h : Going good varint r got u) (hnot : ¬ Passes good varint r.source)
    (hr' : r' = { u with wasCorrupt := true, repairs := r'.repairs }) :
    Going good varint r got' r' := by
  refine ⟨?_, fun hfalse => ?_, fun h => absurd h hnot⟩
  · rw [hr', h.frame]
  · rw [hr'] at hfalse
    exact absurd hfalse (by simp)

/-- **Once the entry is what it was**, it was found corrupt if and only if
it does not pass. -/
theorem Going.wasCorrupt_iff {good varint : Bytes} {r r' : RepairCarLog}
    (h : Going good varint r good r') (hlen : varint.length = (putUvarint good.length).length) :
    r'.wasCorrupt = !decide (Passes good varint r.source) := by
  by_cases hp : Passes good varint r.source
  · simp [hp, (h.same hp).1]
  · cases hc : r'.wasCorrupt with
    | true => simp [hp]
    | false =>
      obtain ⟨n, rest, hread, hmax, hle, hgood⟩ := h.clean hc
      have hn : good.length = n := by rw [hgood, List.length_take]; omega
      subst hn
      exact absurd ⟨hmax, eq_putUvarint_of_readUvarint hread hlen.le, hgood.symm⟩ hp

namespace RepairCarLog

variable {B : Blocks} {c : Cid} {data good varint got : Bytes} {bs : List (Cid × Bytes)}
  {r u r' : RepairCarLog}

theorem sure_sliceTo {n : ℕ} {b : Bytes} (h : n ≤ b.length) :
    wp calm (sliceTo n b) (Sure fun d r' => d = b.take n ∧ r' = r) r := by
  rw [sliceTo_of_le h]
  exact ⟨rfl, rfl⟩

theorem sure_sliceFrom {n : ℕ} {b : Bytes} (h : n ≤ b.length) :
    wp calm (sliceFrom n b) (Sure fun d r' => d = b.drop n ∧ r' = r) r := by
  rw [sliceFrom_of_le h]
  exact ⟨rfl, rfl⟩

theorem sure_repairBlock (hB : B.Exact ((c, data) :: bs)) (bad : Option Bytes) :
    wp calm (repairBlock B c bad)
      (Sure fun d r' => d = data ∧ r' = { r with repairs := r'.repairs }) r := by
  have hright : ∀ n bad, B.repairBlock n c bad = some data :=
    hB.repairBlock (c, data) List.mem_cons_self
  simp [repairBlock, wp, hright, Sure]

/-- What is made anew is what the entry was. -/
theorem sure_remake (hB : B.Exact ((c, data) :: bs)) : wp calm (remake B c)
    (Sure fun ent r' => ent = c.bytes ++ data ∧
      r' = { r with wasCorrupt := true, repairs := r'.repairs }) r := by
  refine sure_seq (R := fun _ r' => r' = { r with wasCorrupt := true }) rfl ?_
  rintro - _ rfl
  refine sure_seq (sure_repairBlock hB none) ?_
  rintro _ u ⟨rfl, hu⟩
  exact ⟨rfl, hu⟩

theorem sure_readEntry (hB : B.Exact ((c, data) :: bs)) (hclean : r.wasCorrupt = false)
    (h64 : (c.bytes ++ data).length < 2 ^ 64)
    (hlen : (c.bytes ++ data).length ≤ r.source.length) (varint : Bytes) :
    wp calm (readEntry B c varint) (Sure fun got r' => Going (c.bytes ++ data) varint r got r') r := by
  have hread : Passes (c.bytes ++ data) varint r.source →
      readUvarint varint = .ok ((c.bytes ++ data).length, []) := by
    rintro ⟨-, rfl, -⟩
    have := readUvarint_putUvarint h64 []
    rwa [List.append_nil] at this
  have hremake : ¬ Passes (c.bytes ++ data) varint r.source → wp calm (remake B c)
      (Sure fun got r' => Going (c.bytes ++ data) varint r got r') r := fun hnot =>
    sure_mono (sure_remake hB) fun got r' h =>
      ⟨by rw [h.2], fun hfalse => by rw [h.2] at hfalse; exact absurd hfalse (by simp),
        fun h => absurd h hnot⟩
  unfold readEntry
  split
  · next e he =>
    exact hremake fun h => by simp [hread h] at he
  · next n rest hn =>
    split_ifs with hlarge
    · refine hremake fun h => ?_
      rw [hread h] at hn
      obtain ⟨rfl, -⟩ := Prod.mk.inj (Except.ok.inj hn)
      exact absurd h.1 (by omega)
    rw [wp_handle]
    refine wp_mono wp_peek ?_ ?_ (fun _ => id) fun _ _ => id
    · rintro got _ ⟨rfl, rfl, hle⟩
      refine ⟨rfl, fun _ => ⟨n, rest, hn, by omega, hle, rfl⟩, fun h => ⟨hclean, ?_⟩⟩
      rw [hread h] at hn
      obtain ⟨rfl, -⟩ := Prod.mk.inj (Except.ok.inj hn)
      exact h.2.2
    · rintro e _ ⟨rfl, hshort⟩
      refine hremake fun h => ?_
      rw [hread h] at hn
      obtain ⟨rfl, -⟩ := Prod.mk.inj (Except.ok.inj hn)
      omega

/-- An entry that passes is long enough. -/
theorem sure_lengthen (hB : B.Exact ((c, data) :: bs))
    (h : Going (c.bytes ++ data) varint r got u) : wp calm (lengthen B c got)
      (Sure fun got r' => Going (c.bytes ++ data) varint r got r' ∧
        c.bytes.length ≤ got.length) u := by
  unfold lengthen
  split_ifs with hshort
  · refine sure_mono (sure_remake hB) fun got' r' hr' => ⟨h.corrupt ?_ hr'.2, ?_⟩
    · intro hp
      rw [(h.same hp).2, List.length_append] at hshort
      omega
    · rw [hr'.1, List.length_append]
      omega
  · exact ⟨h, Nat.not_lt.mp hshort⟩

theorem sure_fixCid (h : Going (c.bytes ++ data) varint r got u)
    (hlong : c.bytes.length ≤ got.length) : wp calm (fixCid c got)
      (Sure fun got r' => Going (c.bytes ++ data) varint r got r' ∧ ∃ d, got = c.bytes ++ d) u := by
  unfold fixCid
  rw [sliceTo_of_le hlong]
  change wp calm (if _ then _ else _) _ u
  split_ifs with heq
  · refine sure_seq (R := fun _ r' => r' = { u with wasCorrupt := true }) rfl ?_
    rintro - _ rfl
    refine ⟨h.corrupt (fun hp => heq ?_) rfl, _, rfl⟩
    rw [(h.same hp).2, List.take_left]
  · refine ⟨h, got.drop c.bytes.length, ?_⟩
    conv_lhs => rw [← List.take_append_drop c.bytes.length got, not_not.mp heq]

theorem sure_fixData (hB : B.Exact ((c, data) :: bs)) {d : Bytes}
    (h : Going (c.bytes ++ data) varint r (c.bytes ++ d) u) :
    wp calm (fixData B c (c.bytes ++ d)) (Sure fun got r' => got = c.bytes ++ data ∧
      Going (c.bytes ++ data) varint r (c.bytes ++ data) r') u := by
  obtain ⟨hash, hsum, hiff⟩ := hB.sum (c, data) List.mem_cons_self d
  unfold fixData
  rw [sliceFrom_of_le (by rw [List.length_append]; omega), List.drop_left]
  rw [wp_bind, wp_ret]
  dsimp only
  rw [hsum]
  change wp calm (if hash ≠ c then _ else _) _ u
  by_cases heq : hash = c
  · obtain rfl : d = data := hiff.mp heq
    rw [if_neg (not_not.mpr heq)]
    exact ⟨rfl, h⟩
  · rw [if_pos heq]
    refine sure_seq (R := fun _ r' => r' = { u with wasCorrupt := true }) rfl ?_
    rintro - _ rfl
    refine sure_seq (sure_repairBlock hB _) ?_
    rintro _ v ⟨rfl, hv⟩
    refine ⟨rfl, h.corrupt (fun hp => heq (hiff.mpr ?_)) hv⟩
    exact List.append_cancel_left (h.same hp).2

end RepairCarLog

/-! ## The next entry -/

/-- Whether the first entry of the source is found corrupt, when it was
that of the block. -/
def found (b : Cid × Bytes) (src : Bytes) : Bool :=
  !decide (Passes (b.1.bytes ++ b.2) (src.take (putUvarint (b.1.bytes ++ b.2).length).length)
    (src.drop (putUvarint (b.1.bytes ++ b.2).length).length))

/-- **Bits were flipped, and no bytes lost**: the CID of each entry is where
it was. -/
def AllAligned : List (Cid × Bytes) → Bytes → Prop
  | [], _ => True
  | (c, data) :: bs, src =>
    Aligned c (putUvarint (c.bytes ++ data).length).length src ∧
      AllAligned bs (src.drop (framed (c.bytes ++ data)).length)

/-- The entries that are found corrupt. -/
def flags : List (Cid × Bytes) → Bytes → List Bool
  | [], _ => []
  | b :: bs, src => found b src :: flags bs (src.drop (framed (b.1.bytes ++ b.2)).length)

/-- **There never are too many corrupt entries**, of those that are still to
be read and from so many read and found corrupt before. Behind the last
entry there is one more read. -/
def Tolerated (totalRead bad : ℕ) (fs : List Bool) : Prop :=
  ∀ j, 0 < j → j ≤ fs.length + 1 → minReadDecision < totalRead + j →
    (bad + (fs.take j).count true) * 100 / (totalRead + j) ≤ maxCorruptPct

theorem Tolerated.tail {totalRead bad : ℕ} {f : Bool} {fs : List Bool}
    (h : Tolerated totalRead bad (f :: fs)) :
    Tolerated (totalRead + 1) (if f then bad + 1 else bad) fs := by
  intro j hj hle hmin
  have := h (j + 1) (by omega) (by rw [List.length_cons]; omega) (by omega)
  have hcount : (if f then bad + 1 else bad) + (fs.take j).count true =
      bad + ((f :: fs).take (j + 1)).count true := by
    rw [List.take_succ_cons, List.count_cons]
    cases f with
    | true => simp only [if_true, beq_self_eq_true]; omega
    | false => simp
  rwa [hcount, Nat.add_assoc, Nat.add_comm 1 j]

/-- Blocks with CIDs of 36 bytes, the last of which has 3 bytes of data. -/
structure Regular (bs : List (Cid × Bytes)) : Prop where
  length_cid : ∀ b ∈ bs, b.1.bytes.length = 36
  last : ∀ b ∈ bs.getLast?, 3 ≤ b.2.length

theorem Regular.tail {b : Cid × Bytes} {bs : List (Cid × Bytes)} (h : Regular (b :: bs)) :
    Regular bs := by
  refine ⟨fun b' hb' => h.length_cid b' (List.mem_cons_of_mem _ hb'), fun b' hb' => h.last b' ?_⟩
  rw [List.getLast?_cons, Option.mem_def.mp hb']
  rfl

/-- So long as a block is left, there is as much as the reader looks at. -/
theorem Regular.forty_le {bs : List (Cid × Bytes)} (h : Regular bs) (hne : bs ≠ []) :
    40 ≤ (entries bs).length := by
  obtain ⟨init, b, rfl⟩ := (List.eq_nil_or_concat bs).resolve_left hne
  rw [List.concat_eq_append] at h ⊢
  have hcid := h.length_cid b (by simp)
  have hdata := h.last b (by simp)
  have hvarint := length_putUvarint_pos (x := (b.1.bytes ++ b.2).length)
  simp only [entries, List.map_append, List.map_singleton, frames_append, frames_singleton,
    List.length_append, length_framed, frameSize] at hvarint ⊢
  omega

section

variable [X : External]

namespace RepairCarLog

variable {B : Blocks} {c : Cid} {data : Bytes} {bs : List (Cid × Bytes)} {r r' : RepairCarLog}

theorem sure_popCid (h : Pending ((c, data) :: bs) r) : wp calm popCid
    (Sure fun c' r' => c' = c ∧ At c data bs r' ∧
      r' = { r with expectCidStack := r'.expectCidStack }) r := by
  obtain ⟨hlayers, hpre⟩ := h
  unfold popCid
  rw [wp]
  rcases hs : r.expectCidStack with _ | ⟨_ | ⟨x, _ | ⟨x', layer⟩⟩, rest⟩
  · rw [hs] at hpre
    cases hpre
  · exact absurd rfl (hlayers [] (by rw [hs]; exact List.mem_cons_self))
  all_goals
    rw [hs] at hpre hlayers
    obtain rfl : x = c := by cases hpre <;> rfl
    refine ⟨rfl, ⟨?_, hpre⟩, rfl⟩
  · exact fun l hl => hlayers l (List.mem_cons_of_mem _ hl)
  · exact List.forall_mem_cons.mpr ⟨by simp, fun l hl => hlayers l (List.mem_cons_of_mem _ hl)⟩

omit X in
theorem sure_peek {n : ℕ} (h : n ≤ r.source.length) :
    wp calm (peek n) (Sure fun d r' => d = r.source.take n ∧ r' = r) r :=
  wp_mono wp_peek (fun _ _ h => ⟨h.2.1, h.1⟩) (fun _ _ hlt => absurd hlt.2 (Nat.not_lt.mpr h))
    (fun _ => id) fun _ _ => id

omit X in
theorem sure_discard {n : ℕ} (h : n ≤ r.source.length) :
    wp calm (discard n) (Sure fun _ r' => r' = { r with source := r.source.drop n }) r := by
  unfold discard
  change wp calm (if _ then _ else _) _ r
  rw [if_neg (Nat.not_lt.mpr h)]
  rfl

theorem sure_pushLinks (h : At c data bs r) : wp calm (pushLinks c (c.bytes ++ data))
    (Sure fun _ r' => Pending bs r' ∧ r' = { r with expectCidStack := r'.expectCidStack }) r := by
  obtain ⟨hlayers, hpre⟩ := h
  unfold pushLinks
  cases hpre with
  | leaf hc hpre =>
    rw [if_neg hc]
    exact ⟨⟨hlayers, hpre⟩, rfl⟩
  | node hc hlinks hne hpre =>
    rw [if_pos hc, sliceFrom_of_le (by rw [List.length_append]; omega), List.drop_left]
    rw [wp_bind, wp_ret]
    dsimp only
    rw [hlinks]
    exact ⟨⟨List.forall_mem_cons.mpr ⟨hne, hlayers⟩, hpre⟩, rfl⟩

theorem sure_emit (h : At c data bs r) (hlen : (c.bytes ++ data).length ≤ r.source.length) :
    wp calm (emit c (c.bytes ++ data)) (Sure fun _ r' => Pending bs r' ∧
      r' = { r with
        expectCidStack := r'.expectCidStack
        readBuf := framed (c.bytes ++ data)
        source := r.source.drop (c.bytes ++ data).length }) r := by
  refine sure_seq (R := fun _ r' => r' = { r with readBuf := framed (c.bytes ++ data) }) rfl ?_
  rintro - _ rfl
  refine sure_seq (sure_pushLinks ⟨h.layers, h.preorder⟩) ?_
  rintro - v ⟨hv, heq⟩
  have hsource : v.source = r.source := by rw [heq]
  refine sure_wrapErr (sure_mono (sure_discard (by rw [hsource]; exact hlen)) ?_)
  rintro - _ rfl
  exact ⟨⟨hv.layers, hv.preorder⟩, by rw [heq]⟩

/-- **The source moves on by the entry**, however it was damaged. -/
theorem sure_nextEntry (hB : B.Exact ((c, data) :: bs)) (h : Pending ((c, data) :: bs) r)
    (hclean : r.wasCorrupt = false) (hc : c.bytes.length = 36) (h40 : 40 ≤ r.source.length)
    (hlen : (framed (c.bytes ++ data)).length ≤ r.source.length)
    (haligned : Aligned c (putUvarint (c.bytes ++ data).length).length r.source) :
    wp calm (nextEntry B) (Sure fun _ r' => Pending bs r' ∧
      r' = { r with
        expectCidStack := r'.expectCidStack
        repairs := r'.repairs
        readBuf := framed (c.bytes ++ data)
        source := r.source.drop (framed (c.bytes ++ data)).length
        wasCorrupt := found (c, data) r.source }) r := by
  rw [framed, List.length_append] at hlen
  -- the expected CID is found right behind the varint, damaged or not
  obtain ⟨overlap, hmatch⟩ := match32Bytes_of_aligned hc h40 length_putUvarint_pos haligned
  have h64 : (c.bytes ++ data).length < 2 ^ 64 :=
    (lt_of_length_putUvarint_le (by decide) haligned.1).trans (by decide)
  refine sure_seq (sure_popCid h) ?_
  rintro _ u ⟨rfl, hu, hur⟩
  rename_i c
  have hsource : u.source = r.source := by rw [hur]
  refine sure_seq (R := fun _ r' => r' = u) ?_ ?_
  · rw [failIf, if_neg (by omega)]
    rfl
  rintro - u rfl
  refine sure_seq (sure_wrapErr (sure_peek (by rw [hsource]; omega))) ?_
  rintro cidLenEnt u ⟨rfl, rfl⟩
  refine sure_seq (sure_sliceTo (n := 32) (by omega)) ?_
  rintro _ u ⟨rfl, rfl⟩
  refine sure_seq (sure_sliceFrom (n := 1) (by rw [List.length_take, hsource]; omega)) ?_
  rintro _ u ⟨rfl, rfl⟩
  refine sure_seq (R := fun x r' => x.1 + 1 = (putUvarint (c.bytes ++ data).length).length ∧ r' = u)
    (sure_wrapErr ?_) ?_
  · rw [hsource, hc, hmatch]
    exact ⟨Nat.sub_add_cancel length_putUvarint_pos, rfl⟩
  rintro ⟨cidOff, maxOverlap⟩ u ⟨hoff, rfl⟩
  simp only [hoff]
  refine sure_seq (sure_wrapErr (sure_discard (by rw [hsource]; omega))) ?_
  rintro - v hv
  have hvarint : (u.source.take (c.bytes.length + 4)).take
      (putUvarint (c.bytes ++ data).length).length =
        r.source.take (putUvarint (c.bytes ++ data).length).length := by
    rw [List.take_take, hsource, min_eq_left (by have := haligned.1; omega)]
  refine sure_seq (sure_sliceTo (by rw [List.length_take, hsource]; have := haligned.1; omega)) ?_
  rintro _ v ⟨rfl, rfl⟩
  rw [hvarint]
  have hvsource : v.source = r.source.drop (putUvarint (c.bytes ++ data).length).length := by
    rw [hv, hsource]
  have hvlen : (c.bytes ++ data).length ≤ v.source.length := by
    rw [hvsource, List.length_drop]
    omega
  -- each step that looks at the entry puts right what it finds, and notes it
  refine sure_seq (sure_readEntry hB (by rw [hv, hur]; exact hclean) h64 hvlen _) ?_
  intro got w hw
  refine sure_seq (sure_lengthen hB hw) ?_
  rintro got x ⟨hx, hlong⟩
  refine sure_seq (sure_fixCid hx hlong) ?_
  rintro _ y ⟨hy, d, rfl⟩
  refine sure_seq (sure_fixData hB hy) ?_
  rintro _ z ⟨rfl, hz⟩
  -- all that was noted, against the bytes of the source
  have hcorrupt : z.wasCorrupt = found (c, data) r.source := by
    rw [hz.wasCorrupt_iff (by rw [List.length_take]; omega), hvsource]
    rfl
  have hzr : z = { v with wasCorrupt := z.wasCorrupt, repairs := z.repairs } := hz.frame
  have hat : At c data bs z := hu.sameStack (by rw [SameStack, hzr, hv])
  have hzsource : z.source = v.source := by rw [hzr]
  refine sure_mono (sure_emit hat (by rw [hzsource]; exact hvlen)) ?_
  rintro - r' ⟨hr', heq⟩
  have hdrop : z.source.drop (c.bytes ++ data).length =
      r.source.drop (framed (c.bytes ++ data)).length := by
    rw [hzsource, hvsource, List.drop_drop, length_framed]
    rfl
  have htotal : z.totalRead = r.totalRead := by rw [hzr, hv, hur]
  have hbad : z.bad = r.bad := by rw [hzr, hv, hur]
  exact ⟨hr', by rw [heq, hdrop, htotal, hbad, hcorrupt]⟩

end RepairCarLog

/-! ## Reading -/

namespace RepairCarLog

variable {B : Blocks} {bs : List (Cid × Bytes)} {r r' : RepairCarLog}

/-- **Between two reads**: the source is at the entries of the blocks that
are expected, and there is nothing the reader could stumble over. -/
structure InStep (B : Blocks) (bs : List (Cid × Bytes)) (r : RepairCarLog) : Prop where
  exact : B.Exact bs
  regular : Regular bs
  pending : Pending bs r
  length : r.source.length = (entries bs).length
  aligned : AllAligned bs r.source
  tolerated : Tolerated r.totalRead r.bad (flags bs r.source)

/-- What was read on the way from `r` to `r'`: the entries of `pre`, and the
source moved on by them. -/
def Moved (pre : List (Cid × Bytes)) (r : RepairCarLog) (out : Bytes) (r' : RepairCarLog) : Prop :=
  r.readBuf ++ entries pre = out ++ r'.readBuf ∧ r'.source = r.source.drop (entries pre).length

omit X in
theorem Moved.trans {pre post : List (Cid × Bytes)} {r u r' : RepairCarLog} {out more : Bytes}
    (h : Moved pre r out u) (h' : Moved post u more r') :
    Moved (pre ++ post) r (out ++ more) r' := by
  have hall : entries (pre ++ post) = entries pre ++ entries post := by simp [entries]
  refine ⟨?_, ?_⟩
  · rw [hall, ← List.append_assoc, h.1, List.append_assoc, h'.1, List.append_assoc]
  · rw [hall, h'.2, h.2, List.drop_drop, List.length_append]

/-- What one `Read` into `n` bytes returns, with the error. -/
def ReadExact (B : Blocks) (bs : List (Cid × Bytes)) (n : ℕ) (r : RepairCarLog) (out : Bytes)
    (r' : RepairCarLog) : Option Err → Prop
  | none => ∃ pre post, bs = pre ++ post ∧ InStep B post r' ∧ Moved pre r out r' ∧
      (0 < n → out ≠ [])
  | some e => e = .eof ∧ bs = [] ∧ out = [] ∧ r.readBuf = [] ∧ Moved [] r out r'

omit X in
theorem sure_checkCorrupt {e : Option Err}
    (h : minReadDecision < r.totalRead →
      (if r.wasCorrupt then r.bad + 1 else r.bad) * 100 / r.totalRead ≤ maxCorruptPct) :
    wp calm (checkCorrupt e) (Sure fun e' r' => e' = e ∧
      r' = { r with bad := if r.wasCorrupt then r.bad + 1 else r.bad }) r := by
  unfold checkCorrupt
  change wp calm (if _ then _ else _) _ _
  rw [if_neg (fun hmany => absurd (h hmany.1) (Nat.not_le.mpr hmany.2))]
  exact ⟨rfl, rfl⟩

/-- Reading from the buffer. -/
theorem InStep.copyOut (h : InStep B bs r) {n : ℕ} (hbuf : r.readBuf ≠ []) :
    ReadExact B bs n r (r.readBuf.take n) { r with readBuf := r.readBuf.drop n } none := by
  refine ⟨[], bs, rfl, ⟨h.exact, h.regular, ⟨h.pending.layers, h.pending.preorder⟩, h.length,
    h.aligned, h.tolerated⟩, ⟨?_, by simp [entries]⟩, fun hn => ?_⟩
  · simp [entries, List.take_append_drop]
  · rw [← List.length_pos_iff] at hbuf ⊢
    rw [List.length_take]
    omega

/-- Behind the last block nothing is expected. -/
theorem InStep.expectCidStack_nil (h : InStep B [] r) : r.expectCidStack = [] := by
  obtain ⟨hlayers, hpre⟩ := h.pending
  rcases hs : r.expectCidStack with _ | ⟨_ | ⟨c, layer⟩, rest⟩
  · rfl
  · exact absurd rfl (hlayers [] (by rw [hs]; exact List.mem_cons_self))
  · rw [hs] at hpre
    cases hpre

/-- The state the next entry is read from. -/
def started (r : RepairCarLog) : RepairCarLog :=
  { r with totalRead := r.totalRead + 1, wasCorrupt := false }

theorem sure_read_nil (h : InStep B [] r) (hbuf : r.readBuf = []) (n : ℕ) :
    wp calm ((nextEntry B).attempt >>= finish n)
      (Sure fun x r' => ReadExact B [] n r x.1 r' x.2) (started r) := by
  have hlast := h.tolerated 1 (by omega) (by simp)
  simp only [flags, List.take_nil, List.count_nil, Nat.add_zero] at hlast
  have hpop : wp calm (nextEntry B) ⟨fun _ _ => False, fun e r' => e = .eof ∧ r' = started r,
      fun _ => False, fun _ _ => False⟩ (started r) := by
    refine wp_seq (R := ⟨fun _ _ => False, fun e r' => e = .eof ∧ r' = started r,
      fun _ => False, fun _ _ => False⟩) ?_ (fun _ _ => False.elim) (fun _ _ => id) (fun _ => id)
      fun _ _ => id
    unfold popCid
    rw [wp, started, h.expectCidStack_nil]
    exact ⟨rfl, rfl⟩
  rw [wp_bind, wp_attempt]
  refine wp_mono hpop (fun _ _ => False.elim) ?_ (fun _ => id) fun _ _ => id
  rintro _ _ ⟨rfl, rfl⟩
  refine sure_seq (sure_checkCorrupt hlast) ?_
  rintro _ u ⟨rfl, rfl⟩
  exact ⟨rfl, rfl, rfl, hbuf, by simp [entries, started], by simp [entries, started]⟩

theorem sure_read_cons {b : Cid × Bytes} (h : InStep B (b :: bs) r) (hbuf : r.readBuf = [])
    (n : ℕ) : wp calm ((nextEntry B).attempt >>= finish n)
      (Sure fun x r' => ReadExact B (b :: bs) n r x.1 r' x.2) (started r) := by
  obtain ⟨c, data⟩ := b
  have hentries : entries ((c, data) :: bs) = framed (c.bytes ++ data) ++ entries bs := by
    simp [entries]
  have hlen := h.length
  rw [hentries, List.length_append] at hlen
  have hnext := sure_nextEntry (r := started r) h.exact
    ⟨h.pending.layers, h.pending.preorder⟩ rfl (h.regular.length_cid _ List.mem_cons_self)
    (by rw [started, h.length]; exact h.regular.forty_le (by simp)) (by rw [started, hlen]; omega)
    h.aligned.1
  -- with this entry there are not too many bad ones yet
  have hnow := h.tolerated 1 (by omega) (by simp)
  rw [wp_bind, wp_attempt]
  refine wp_mono hnext ?_ (fun _ _ => False.elim) (fun _ => id) fun _ _ => id
  rintro - u ⟨hu, heq⟩
  refine sure_seq (R := fun out r' => out = u.readBuf.take n ∧
    r' = { u with readBuf := u.readBuf.drop n }) ⟨rfl, rfl⟩ ?_
  rintro _ v ⟨rfl, rfl⟩
  have hcorrupt : u.wasCorrupt = found (c, data) r.source := by rw [heq]; rfl
  have htotal : u.totalRead = r.totalRead + 1 := by rw [heq]; rfl
  have hbad : u.bad = r.bad := by rw [heq]; rfl
  have hubuf : u.readBuf = framed (c.bytes ++ data) := by rw [heq]
  have husource : u.source = r.source.drop (framed (c.bytes ++ data)).length := by rw [heq]; rfl
  have htolerated := h.tolerated.tail
  refine sure_seq (sure_checkCorrupt ?_) ?_
  · change minReadDecision < u.totalRead →
      (if u.wasCorrupt then u.bad + 1 else u.bad) * 100 / u.totalRead ≤ maxCorruptPct
    rw [htotal, hcorrupt, hbad]
    convert hnow using 4
    cases hf : found (c, data) r.source <;> simp [flags, hf]
  rintro _ w ⟨rfl, rfl⟩
  -- the entry is in the buffer, and the reader in step with the blocks behind it
  refine ⟨[(c, data)], bs, rfl, ⟨?_, h.regular.tail, ⟨hu.layers, hu.preorder⟩, ?_, ?_, ?_⟩,
    ⟨?_, ?_⟩, fun hn => ?_⟩
  · exact ⟨fun b hb => h.exact.sum b (List.mem_cons_of_mem _ hb),
      fun b hb => h.exact.repairBlock b (List.mem_cons_of_mem _ hb)⟩
  · change u.source.length = _
    rw [husource, List.length_drop, hlen]
    omega
  · change AllAligned bs u.source
    rw [husource]
    exact h.aligned.2
  · change Tolerated u.totalRead (if u.wasCorrupt then u.bad + 1 else u.bad) (flags bs u.source)
    rw [htotal, hcorrupt, hbad, husource]
    exact htolerated
  · simp [hbuf, hubuf, entries]
  · change u.source = _
    rw [husource]
    simp [entries]
  · change u.readBuf.take n ≠ []
    rw [hubuf, ← List.length_pos_iff, List.length_take, length_framed]
    have := frameSize_pos (c.bytes ++ data).length
    omega

theorem sure_read (h : InStep B bs r) (n : ℕ) :
    wp calm (read B n) (Sure fun x r' => ReadExact B bs n r x.1 r' x.2) r := by
  unfold read
  change wp calm (if _ then _ else _) _ r
  split_ifs with hbuf
  · exact h.copyOut hbuf
  have hbuf : r.readBuf = [] := not_not.mp hbuf
  cases bs with
  | nil => exact sure_read_nil h hbuf n
  | cons b bs => exact sure_read_cons h hbuf n

/-- Reads end with `io.EOF` when there are enough of them, and with no other
error. -/
theorem sure_reads (ns : List ℕ) {bs : List (Cid × Bytes)} {r : RepairCarLog}
    (h : InStep B bs r) : wp calm (reads B ns) (Sure fun x r' =>
      (x.2 = none ∨ x.2 = some .eof) ∧ (∃ pre post, bs = pre ++ post ∧ Moved pre r x.1 r') ∧
        ((left bs r).length < ns.countP (0 < ·) → x = (left bs r, some .eof))) r := by
  induction ns generalizing bs r with
  | nil =>
    exact ⟨Or.inl rfl, ⟨[], bs, rfl, by simp [entries], by simp [entries]⟩, fun h => by simp at h⟩
  | cons n ns ih =>
    refine sure_seq (sure_read h n) ?_
    rintro ⟨out, _ | e⟩ u hu
    · obtain ⟨pre, post, rfl, hpost, hmoved, hout⟩ := hu
      have hleft : left (pre ++ post) r = out ++ left post u := by
        have hall : entries (pre ++ post) = entries pre ++ entries post := by simp [entries]
        rw [left, left, hall, ← List.append_assoc, hmoved.1, List.append_assoc]
      refine sure_seq (ih hpost) ?_
      rintro ⟨more, e⟩ v ⟨he, ⟨pre', post', rfl, hmoved'⟩, hend⟩
      refine ⟨he, ⟨pre ++ pre', post', by rw [List.append_assoc], hmoved.trans hmoved'⟩, ?_⟩
      intro hmany
      have hrest : (left (pre' ++ post') u).length < ns.countP (0 < ·) := by
        rw [hleft, List.length_append, List.countP_cons] at hmany
        by_cases hn : 0 < n
        · have hpos : 0 < out.length := List.length_pos_iff.mpr (hout hn)
          simp only [hn, decide_true, if_true] at hmany
          omega
        · simp only [hn, decide_false] at hmany
          simp at hmany
          omega
      obtain ⟨rfl, rfl⟩ := Prod.mk.inj (hend hrest)
      rw [hleft]
    · obtain ⟨rfl, rfl, rfl, hbuf, hmoved⟩ := hu
      exact ⟨Or.inr rfl, ⟨[], [], rfl, hmoved⟩, fun _ => by simp [left, entries, hbuf]⟩

end RepairCarLog

open RepairCarLog

/-- **A damaged CAR is repaired.** Flip bits behind the header so that each
CID is still found, and not so many that reading is given up. Then reading
never fails: at every point the source has moved on by exactly the entries
whose bytes were handed out or are in the read buffer, and enough reads
return the canonical CAR and `io.EOF`. -/
theorem reads_repaired {B : Blocks} {t : Tree} (ht : t.Canonical)
    (hmh : Carlog.ValidMultihash t.cid.hash) (hregular : Regular t.blocks) (hB : B.Exact t.blocks)
    {rest : Bytes} (hlen : rest.length = (entries t.blocks).length)
    (haligned : AllAligned t.blocks rest) (htolerated : Tolerated 0 0 (flags t.blocks rest)) :
    ∃ r, newCarRepairReader (Carlog.carHeader t.cid ++ rest) t.cid = .ok r ∧
      ∀ ns, ∃ out e r', (reads B ns).run r [] = .ok (out, e) r' ∧ (e = none ∨ e = some .eof) ∧
        (∃ pre post, t.blocks = pre ++ post ∧
          Carlog.carHeader t.cid ++ entries pre = out ++ r'.readBuf ∧
          r'.source = rest.drop (entries pre).length) ∧
        (t.car.length < ns.countP (0 < ·) → out = t.car ∧ e = some .eof) := by
  have hcid : t.cid.bytes.length = 36 := by
    cases t
    exact hregular.length_cid _ (by rw [Tree.blocks]; exact List.mem_cons_self)
  have hcodec : t.cid.codec = raw ∨ t.cid.codec = dagCBOR := by
    cases t
    rw [Tree.Canonical] at ht
    exact ht.imp And.left And.left
  refine ⟨_, newCarRepairReader_carHeader hcodec hmh hcid rest, fun ns => ?_⟩
  have hstep : InStep B t.blocks ⟨rest, [[t.cid]], Carlog.carHeader t.cid, 0, 0, false, 0⟩ :=
    ⟨hB, hregular, ⟨by simp, ht.preorder⟩, hlen, haligned, htolerated⟩
  have hsat := wp_sound (sure_reads ns hstep) within_nil
  rcases hrun : (reads B ns).run _ [] with ⟨x, r'⟩ | ⟨e, r'⟩ | r' | ⟨k, r'⟩ <;> rw [hrun] at hsat
  · obtain ⟨he, ⟨pre, post, hpre, hmoved⟩, hend⟩ := hsat
    refine ⟨x.1, x.2, r', rfl, he, ⟨pre, post, hpre, hmoved⟩, fun hmany => ?_⟩
    exact Prod.mk.inj (hend hmany)
  all_goals exact absurd hsat id

end

section

open Carlog.Encoding RepairCarLog

instance AllAligned.decidable : ∀ (bs : List (Cid × Bytes)) (src : Bytes),
    Decidable (AllAligned bs src)
  | [], _ => isTrue trivial
  | (c, data) :: bs, src =>
    have := AllAligned.decidable bs (src.drop (framed (c.bytes ++ data)).length)
    inferInstanceAs (Decidable (_ ∧ _))

/-- The canonical CAR of a root and a leaf, and one bit of the first length
flipped. -/
theorem reads_repaired_flip : ∃ r, newCarRepairReader (Carlog.carHeader node.cid ++
      ((entries node.blocks).modify 0 (· ^^^ 0x40))) node.cid = .ok r ∧
    ∀ ns, ∃ out e r', (reads (sha256Blocks node.blocks) ns).run r [] = .ok (out, e) r' ∧
      (e = none ∨ e = some .eof) ∧
      (∃ pre post, node.blocks = pre ++ post ∧
        Carlog.carHeader node.cid ++ entries pre = out ++ r'.readBuf ∧
        r'.source = ((entries node.blocks).modify 0 (· ^^^ 0x40)).drop (entries pre).length) ∧
      (node.car.length < ns.countP (0 < ·) → out = node.car ∧ e = some .eof) := by
  have hsum : Summed node.blocks := by decide +kernel
  refine reads_repaired canonical_node (Carlog.Encoding.validMultihash_of_isSha256 ⟨_, rfl⟩)
    ⟨by decide +kernel, by decide +kernel⟩ hsum.exact_sha256Blocks (by simp) (by decide +kernel) ?_
  intro j _ hj hmin
  have : (flags node.blocks ((entries node.blocks).modify 0 (· ^^^ 0x40))).length = 2 := rfl
  unfold minReadDecision at hmin
  omega

end

end Ributil

end Ribs
