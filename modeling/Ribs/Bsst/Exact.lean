import Ribs.Bsst.Layout
import Ribs.Bsst.Encoding
import Mathlib.Data.List.Pairwise
/-!
# BSST — lookup is exact

A lookup on a laid-out file answers for the keys of the file: what it
returns is the offset of an entry with the key, and it returns nothing
only when there is none. The induction is on the levels. A bloom miss
ends it, since the filter has the bits of the overflowing keys as well; a
scan that finds nothing starts early enough to have passed every entry
of the bucket, so the key can only be in a level below.
-/

namespace Ribs

open Common

namespace Bsst

variable {prev lb : ℕ}

/-- **The answer for a key** among entries, with only the kept bytes of a
key compared. -/
def Answers (list : List MultiHashHash) (k : Digest) : Option I64 → Prop
  | some off => ∃ h ∈ list, keyBytes h.mhh = keyBytes k ∧ h.off = off
  | none => ∀ h ∈ list, keyBytes h.mhh ≠ keyBytes k

/-- The chunks of a level: its buckets. -/
theorem Level.bytes_eq (l : Level) : l.bytes =
    ((List.range' l.prev l.lb).map fun j => bucketBytes l.prev l.lb (l.bucket j)).flatten := by
  rw [Level.bytes, levelBytes, Nat.add_sub_cancel_left, ← List.flatMap_def]
  refine List.flatMap_congr fun j _ => ?_
  split <;> rfl

@[simp] theorem Level.length_bytes (l : Level) : l.bytes.length = l.lb * bucketSize := by
  rw [l.bytes_eq, List.length_flatten, List.map_map]
  simp [Function.comp_def]

/-- A bucket is read where the level has it. -/
theorem readAt_bucket {l : Level} {front rest : Bytes}
    (hfront : front.length = (l.prev + 1) * bucketSize) {i : ℕ} (hle : l.prev ≤ i)
    (hlt : i < l.prev + l.lb) :
    readAt (front ++ (l.bytes ++ rest)) ((i + 1) * bucketSize) bucketSize =
      some (bucketBytes l.prev l.lb (l.bucket i)) := by
  obtain ⟨a, rfl⟩ := Nat.exists_eq_add_of_le hle
  have hoff : (l.prev + a + 1) * bucketSize = front.length + a * bucketSize := by
    rw [hfront]; ring
  have hchunks : ∀ c ∈ (List.range' l.prev l.lb).map
      fun j => bucketBytes l.prev l.lb (l.bucket j), c.length = bucketSize := by
    intro c hc
    obtain ⟨j, -, rfl⟩ := List.mem_map.mp hc
    exact length_bucketBytes _
  have hread := take_drop_flatten hchunks (p := a) (by simp; omega) rest
  rw [List.getElem_map, List.getElem_range', Nat.one_mul, ← l.bytes_eq] at hread
  have hend : (a + 1) * bucketSize ≤ l.lb * bucketSize := Nat.mul_le_mul_right _ (by omega)
  rw [readAt, hoff, List.drop_length_add_append, hread, if_pos]
  rw [List.length_append, List.length_append, l.length_bytes]
  rw [Nat.succ_mul] at hend
  omega

/-- A key's bucket was read: `buf` is it. -/
structure ReadBucket (f : Bytes) (k : Digest) (prev lb : ℕ) (buf : Bytes) : Prop where
  buckets : lb ≠ 0
  range : bucketRange lb / bucketBloomFilterEntries ≠ 0
  read : readAt f (((bucketInd k (bucketRange lb) prev).1 + 1) * bucketSize) bucketSize = some buf
  bit : (bucketInd k (bucketRange lb) prev).2 / 8 <
    (buf.drop (bucketUserEntries * entrySize)).length

/-- A round of the lookup, the key's bucket read. -/
theorem lookup_succ {f buf : Bytes} {k : Digest} (h : ReadBucket f k prev lb buf) (level : ℕ) :
    lookup f k (level + 1) prev lb =
      if !bloomTest (buf.drop (bucketUserEntries * entrySize))
          (bucketInd k (bucketRange lb) prev).2 then lookup f k level prev lb
      else
        match scan buf k (minOffIdx (buf.drop (bucketUserEntries * entrySize))
            (bucketInd k (bucketRange lb) prev).2) with
        | some entIdx => .ok (some (offAt buf entIdx))
        | none => lookup f k level (prev + lb) (nextLevelBuckets lb) := by
  have hcond : ¬ (lb = 0 ∨ bucketRange lb / bucketBloomFilterEntries = 0) :=
    not_or.mpr ⟨h.buckets, h.range⟩
  rw [lookup, if_neg hcond]
  simp only [h.read]
  exact if_neg (Nat.not_le.mpr h.bit)

/-- After a miss in the bloom filter nothing is found: the loop goes on at
the same bucket. -/
theorem lookup_miss {f buf : Bytes} {k : Digest} (h : ReadBucket f k prev lb buf)
    (hmiss : bloomTest (buf.drop (bucketUserEntries * entrySize))
      (bucketInd k (bucketRange lb) prev).2 = false) (level : ℕ) :
    lookup f k level prev lb = .ok none := by
  induction level with
  | zero => rfl
  | succ level ih => rw [lookup_succ h, hmiss, Bool.not_false, if_pos rfl, ih]

/-- Two entries of a bucket with the same kept key have the same bit. -/
theorem bloomOf_eq {h : MultiHashHash} {k : Digest} (hk : keyBytes h.mhh = keyBytes k) :
    bucketOf prev lb h = (bucketInd k (bucketRange lb) prev).1 ∧
      bloomOf prev lb h = (bucketInd k (bucketRange lb) prev).2 := by
  rw [bucketOf, bloomOf, bucketInd_eq hk]
  exact ⟨rfl, rfl⟩

/-- **A scan of a key's bucket is exact** for what the bucket stores. -/
theorem scan_answers {ks : List MultiHashHash} {k : Digest}
    (hknz : keyBytes k ≠ List.replicate entKeyBytes 0)
    (hks : ∀ h ∈ ks, bloomOf prev lb h < bucketBloomFilterEntries)
    (hsorted : ks.Pairwise fun a b => bloomOf prev lb a ≤ bloomOf prev lb b) :
    Answers (ks.take bucketUserEntries) k
      ((scan (bucketBytes prev lb ks) k (minOffIdx (bloomWith prev lb ks)
        (bucketInd k (bucketRange lb) prev).2)).map (offAt (bucketBytes prev lb ks))) := by
  cases hscan : scan (bucketBytes prev lb ks) k (minOffIdx (bloomWith prev lb ks)
      (bucketInd k (bucketRange lb) prev).2) with
  | some p =>
    have hp := List.mem_range'_1.mp (List.mem_of_find?_eq_some hscan)
    have hmatch := List.find?_some hscan
    have hpu : p < bucketUserEntries := by omega
    obtain ⟨hlt, hkey, hoff⟩ := mem_of_entryAt hknz hpu (beq_iff_eq.mp hmatch)
    exact ⟨ks[p], List.mem_take_iff_getElem.mpr ⟨p, by omega, rfl⟩, hkey, hoff.symm⟩
  | none =>
    intro h hh hkey
    obtain ⟨p, hp, rfl⟩ := List.mem_take_iff_getElem.mp hh
    have hlt : p < ks.length := by omega
    have hstart := minOffIdx_le hks hsorted hlt
    rw [(bloomOf_eq hkey).2] at hstart
    refine List.find?_eq_none.mp hscan p (List.mem_range'_1.mpr ⟨hstart, by omega⟩) ?_
    rw [entryAt_bucketBytes ks (by omega), List.getElem?_eq_getElem hlt, Option.map_some,
      Option.getD_some, take_entryBytes, beq_iff_eq]
    exact hkey

/-- **A lookup is exact** for the entries of the level it starts at, if the
key does not look like a null entry; it ends well for any key in range. -/
theorem lookup_answers {n : ℕ} {l : Level} {body : Bytes} (hlayout : Layout n l body)
    (hl : l.Ready) (hkeys : l.KeysInRange) {k : Digest} (hk : l.InRange k) {front rest : Bytes}
    (hfront : front.length = (l.prev + 1) * bucketSize) :
    ∃ r, lookup (front ++ (body ++ rest)) k n l.prev l.lb = .ok r ∧
      (keyBytes k ≠ List.replicate entKeyBytes 0 → Answers l.list k r) := by
  induction hlayout generalizing front with
  | nil hnil => exact ⟨none, rfl, fun _ => by simp [Answers, hnil]⟩
  | @cons n l body hne hlayout ih =>
    obtain ⟨-, -, -, hready, -⟩ := writeLevel_level hl hne hkeys.here []
    have hin := hk.here hne
    have hbit : (bucketInd k (bucketRange l.lb) l.prev).2 < 256 := hin.bloom
    -- the key's bucket, and the number of its bit
    obtain ⟨i, hi⟩ : ∃ i, i = (bucketInd k (bucketRange l.lb) l.prev).1 := ⟨_, rfl⟩
    obtain ⟨b, hb⟩ : ∃ b, b = (bucketInd k (bucketRange l.lb) l.prev).2 := ⟨_, rfl⟩
    have hbloom : (bucketBytes l.prev l.lb (l.bucket i)).drop _ = _ := drop_bucketBytes (l.bucket i)
    have hread : ReadBucket (front ++ (l.bytes ++ body ++ rest)) k l.prev l.lb
        (bucketBytes l.prev l.lb (l.bucket i)) := by
      refine ⟨hl.buckets.ne', hl.range, ?_, ?_⟩
      · rw [List.append_assoc, ← hi]
        exact readAt_bucket hfront (hi ▸ Nat.le_add_right _ _) (hi ▸ hin.bucket)
      · rw [hbloom, length_bloomWith]
        omega
    have hks : ∀ h ∈ l.bucket i, bloomOf l.prev l.lb h < bucketBloomFilterEntries :=
      fun h hh => (hkeys.here h (List.mem_of_mem_filter hh)).bloom
    have hsorted : (keysOf l.prev l.lb l.list i).Pairwise _ := pairwise_keysOf hl.sorted i
    cases htest : bloomTest (bloomWith l.prev l.lb (l.bucket i)) b with
    -- a bloom miss: the key is in no bucket from here on
    | false =>
      refine ⟨none, lookup_miss hread (by rw [hbloom, ← hb, htest]) (n + 1), ?_⟩
      intro _ h hh hkey
      have hmem : h ∈ l.bucket i :=
        List.mem_filter.mpr ⟨hh, decide_eq_true (hi ▸ (bloomOf_eq hkey).1)⟩
      have hset := (bloomTest_bloomWith hks b).mpr ⟨h, hmem, hb ▸ (bloomOf_eq hkey).2⟩
      exact absurd (htest.symm.trans hset) Bool.false_ne_true
    | true =>
      have hscan := fun hknz => scan_answers (k := k) hknz hks hsorted
      rw [lookup_succ hread, hbloom, ← hb, htest, Bool.not_true, if_neg Bool.false_ne_true]
      rw [← hb] at hscan
      cases hfound : scan (bucketBytes l.prev l.lb (l.bucket i)) k
          (minOffIdx (bloomWith l.prev l.lb (l.bucket i)) b) with
      | some p =>
        refine ⟨_, rfl, fun hknz => ?_⟩
        have hscan := hscan hknz
        rw [hfound] at hscan
        obtain ⟨h, hh, hkey⟩ := hscan
        exact ⟨h, List.mem_of_mem_filter (List.mem_of_mem_take hh), hkey⟩
      -- the scan has passed the whole bucket: the level below decides
      | none =>
        obtain ⟨r, hr, hans⟩ := ih hready hkeys.next hk.next (show (front ++ l.bytes).length = _ by
            rw [List.length_append, hfront, l.length_bytes, Level.next]; ring)
        rw [List.append_assoc, ← List.append_assoc l.bytes] at hr
        refine ⟨r, hr, fun hknz => ?_⟩
        have hscan := hscan hknz
        have hans := hans hknz
        rw [hfound] at hscan
        cases r with
        | some off =>
          obtain ⟨h, hh, hkey⟩ := hans
          exact ⟨h, Level.mem_of_mem_next hh, hkey⟩
        | none =>
          intro h hh hkey
          rcases Level.mem_take_or_mem_next hh (hkeys.here h hh) with hst | hnext
          · rw [(bloomOf_eq hkey).1, ← hi] at hst
            exact hscan h hst hkey
          · exact hans h hnext hkey

/-! ## The levels of a file -/

namespace Level

/-- An empty level leaves nothing. -/
theorem iterate_next_nil {l : Level} (hl : l.list = []) (j : ℕ) : (next^[j] l).list = [] := by
  induction j generalizing l with
  | zero => exact hl
  | succ j ih =>
    refine ih (l := l.next) (List.eq_nil_iff_forall_not_mem.mpr fun h hh => ?_)
    have := mem_of_mem_next hh
    rw [hl] at this
    exact absurd this List.not_mem_nil

end Level

/-- With nothing left for the next level, one level decides. -/
theorem Level.inRange_of_next_nil {l : Level} {k : Digest} (hnext : l.next.list = [])
    (h : KeyInRange l.prev l.lb k) : l.InRange k := by
  intro j hj
  cases j with
  | zero => exact h
  | succ j => exact absurd (Level.iterate_next_nil hnext j) hj

/-- **Every level that gets entries is in the file**, where its bucket
numbers say. -/
theorem Layout.iterate {n : ℕ} {l : Level} {body : Bytes} (hlayout : Layout n l body)
    (hl : l.Ready) (hkeys : l.KeysInRange) {j : ℕ} (hj : (Level.next^[j] l).list ≠ []) :
    ∃ pre rest, body = pre ++ ((Level.next^[j] l).bytes ++ rest) ∧
      pre.length + l.prev * bucketSize = (Level.next^[j] l).prev * bucketSize ∧
      (Level.next^[j] l).Ready := by
  induction j generalizing n l body with
  | zero =>
    cases hlayout with
    | nil hnil => exact absurd hnil hj
    | cons hne hrest => exact ⟨[], _, rfl, by simp, hl⟩
  | succ j ih =>
    cases hlayout with
    | nil hnil => exact absurd (Level.iterate_next_nil hnil (j + 1)) hj
    | cons hne hrest =>
      obtain ⟨-, -, -, hready, -⟩ := writeLevel_level hl hne hkeys.here []
      obtain ⟨pre, rest, rfl, hlen, hat⟩ := ih hrest hready hkeys.next hj
      refine ⟨l.bytes ++ pre, rest, by rw [List.append_assoc]; rfl, ?_, hat⟩
      rw [Function.iterate_succ_apply, ← hlen, List.length_append, l.length_bytes, Level.next]
      ring

/-- **The scan of a level starts early enough**: its own bit was counted,
and no position that holds the key lies before its start. -/
theorem minOffIdx_le_of_entryAt {l : Level} (hl : l.Ready)
    (hkeys : ∀ h ∈ l.list, KeyInRange l.prev l.lb h.mhh) {k : Digest}
    (hknz : keyBytes k ≠ List.replicate entKeyBytes 0) {p : ℕ} (hp : p < bucketUserEntries)
    (h : (entryAt (bucketBytes l.prev l.lb (l.bucket (bucketInd k (bucketRange l.lb) l.prev).1))
      p).take entKeyBytes = keyBytes k) :
    0 < minOffCount (bloomWith l.prev l.lb (l.bucket (bucketInd k (bucketRange l.lb) l.prev).1))
        (bucketInd k (bucketRange l.lb) l.prev).2 ∧
      minOffIdx (bloomWith l.prev l.lb (l.bucket (bucketInd k (bucketRange l.lb) l.prev).1))
        (bucketInd k (bucketRange l.lb) l.prev).2 ≤ p := by
  obtain ⟨hlt, hkey, -⟩ := mem_of_entryAt hknz hp h
  have hks : ∀ h ∈ l.bucket (bucketInd k (bucketRange l.lb) l.prev).1,
      bloomOf l.prev l.lb h < bucketBloomFilterEntries :=
    fun h hh => (hkeys h (List.mem_of_mem_filter hh)).bloom
  have hmem := List.getElem_mem hlt
  have hle := minOffIdx_le hks (pairwise_keysOf hl.sorted _) hlt
  have hpos := minOffCount_pos (hks _ hmem) ((bloomTest_bloomWith hks _).mpr ⟨_, hmem, rfl⟩)
  rw [(bloomOf_eq hkey).2] at hle hpos
  exact ⟨hpos, hle⟩

/-! ## `Create`, `Has` and `Get` -/

section

variable [X : External]

/-- The level the writer starts with. -/
def firstLevel (salt : Digest) (n : ℕ) (source : Source) : Level :=
  ⟨0, l0Buckets n, X.sortSlice (source.entries salt)⟩

/-- **What is assumed of the hash function.** The keys that are listed and
looked up differ in what a file keeps of them unless they are the same
key, none of them looks like a null entry, and their buckets and bits are
in range at every level that gets entries. -/
structure KeysOk (salt : Digest) (n : ℕ) (source : Source) (queries : List Multihash) : Prop where
  distinct : (source.entries salt).Pairwise fun a b => keyBytes a.mhh ≠ keyBytes b.mhh
  queried : ∀ m ∈ queries, ∀ e ∈ source, ∀ i < e.2.length,
    keyBytes (makeMHKey salt m 0) = keyBytes (makeMHKey salt e.1 i) → m = e.1 ∧ i = 0
  nonzero : ∀ m ∈ queries, keyBytes (makeMHKey salt m 0) ≠ List.replicate entKeyBytes 0
  inRange : ∀ m ∈ queries, (firstLevel salt n source).InRange (makeMHKey salt m 0)
  listed : ∀ h ∈ source.entries salt, keyBytes h.mhh ≠ List.replicate entKeyBytes 0 ∧
    (firstLevel salt n source).InRange h.mhh

/-- The first offset listed for a multihash. -/
def stored (source : Source) (m : Multihash) : Option I64 :=
  source.findSome? fun e => if e.1 = m then e.2.head? else none

omit X in
theorem l0Buckets_pos {n : ℕ} (hpos : 1 ≤ n) : 0 < l0Buckets n := by
  simp only [l0Buckets, meanEntriesPerBucket, entriesPerBucket]
  omega

/-- The sorted entries are in the order of their hash prefixes. -/
theorem firstLevel_sorted {salt : Digest} {n : ℕ} {source : Source} :
    (firstLevel salt n source).list.Pairwise fun a b => hashIdx a.mhh ≤ hashIdx b.mhh := by
  refine (X.sortSlice_sorted (source.entries salt)).imp fun {a b} h => ?_
  by_contra hlt
  exact h (lt_of_beNat_take_lt (n := 8) (by rw [a.mhh.2, b.mhh.2]) (Nat.not_le.mp hlt))

/-- Fewer than `2^40` entries make fewer buckets than bits in a range. -/
theorem firstLevel_ready {salt : Digest} {n : ℕ} {source : Source} (hpos : 1 ≤ n)
    (hn : n < 2 ^ 40) : (firstLevel salt n source).Ready where
  buckets := l0Buckets_pos hpos
  range := by
    have hle : l0Buckets n ≤ 2 ^ 40 := by
      simp only [l0Buckets, meanEntriesPerBucket, entriesPerBucket]
      omega
    have hrange : maxUint64 / 2 ^ 40 ≤ bucketRange (l0Buckets n) :=
      Nat.div_le_div_left hle (l0Buckets_pos hpos)
    have : (0 : ℕ) < maxUint64 / 2 ^ 40 / bucketBloomFilterEntries := by decide
    exact Nat.ne_of_gt (lt_of_lt_of_le this (Nat.div_le_div_right hrange))
  sorted := firstLevel_sorted

theorem length_finalHdr {h : BSSTHeader} (hh : h.Fits) : (finalHdr h).length = bucketSize := by
  have := X.length_marshal h hh
  simp only [finalHdr, hdrBuf, bsstMagic, bucketSize, List.length_append, List.length_drop,
    List.length_replicate, List.length_cons, List.length_nil]
  omega

/-- **A written file opens**, with the header it was given. -/
theorem openFile_finalHdr {h : BSSTHeader} (hh : h.Fits) (out : Bytes) :
    openFile (finalHdr h ++ out) = some ⟨finalHdr h ++ out, h, []⟩ := by
  have hlen := length_finalHdr hh
  have hne : finalHdr h ++ out ≠ [] := by
    intro hnil
    have := congrArg List.length hnil
    simp only [List.length_append, hlen, List.length_nil, bucketSize] at this
    omega
  have htake : (finalHdr h ++ out).take bucketSize = finalHdr h := List.take_left' hlen
  have hpad : bucketSize - (finalHdr h ++ out).length = 0 := by
    rw [List.length_append, hlen]; omega
  simp only [openFile, htake, hpad, if_neg hne, List.replicate_zero, List.append_nil]
  have hmagic : (finalHdr h).take 8 = bsstMagic ∧
      (finalHdr h).drop 8 = X.marshal h ++ hdrBuf.drop (bsstMagic.length + (X.marshal h).length) :=
    ⟨rfl, rfl⟩
  rw [hmagic.1, hmagic.2, if_pos rfl, X.unmarshal_marshal h hh]
  rfl

theorem mem_entries {source : Source} {salt : Digest} {h : MultiHashHash} :
    h ∈ source.entries salt ↔
      ∃ e ∈ source, ∃ (i : ℕ) (hi : i < e.2.length), h = makeMHH salt e.1 i e.2[i] := by
  simp only [Source.entries, List.mem_flatMap, List.mem_mapIdx, @eq_comm _ h]

variable {salt : Digest} {n : ℕ} {source : Source} {queries : List Multihash}

/-- The answer for a multihash's key is its first offset. -/
theorem answers_eq_stored (hok : KeysOk salt n source queries) {m : Multihash} (hm : m ∈ queries)
    {r : Option I64} (h : Answers (source.entries salt) (makeMHKey salt m 0) r) :
    r = stored source m := by
  have hfirst : ∀ off, stored source m = some off → makeMHH salt m 0 off ∈ source.entries salt := by
    intro off hoff
    obtain ⟨e, he, heq⟩ := List.exists_of_findSome?_eq_some hoff
    split_ifs at heq with hem
    rw [List.head?_eq_getElem?] at heq
    obtain ⟨hlt, hget⟩ := List.getElem?_eq_some_iff.mp heq
    exact mem_entries.mpr ⟨e, he, 0, hlt, by rw [hem, hget]⟩
  cases r with
  | none =>
    cases hst : stored source m with
    | none => rfl
    | some off => exact absurd rfl (h _ (hfirst off hst))
  | some off =>
    obtain ⟨g, hg, hkey, rfl⟩ := h
    obtain ⟨e, he, i, hi, rfl⟩ := mem_entries.mp hg
    obtain ⟨rfl, rfl⟩ := hok.queried m hm e he i hi hkey.symm
    cases hst : stored source e.1 with
    | none =>
      have := List.findSome?_eq_none_iff.mp hst e he
      rw [if_pos rfl, List.head?_eq_none_iff] at this
      simp [this] at hi
    | some off =>
      have : Std.Symm fun a b : MultiHashHash => keyBytes a.mhh ≠ keyBytes b.mhh :=
        ⟨fun _ _ hab => hab.symm⟩
      by_contra hne
      refine hok.distinct.forall hg (hfirst off hst) (fun heq => hne ?_) rfl
      rw [makeMHH, makeMHH, MultiHashHash.mk.injEq] at heq
      rw [makeMHH, heq.2]

omit X in
/-- The header's numbers are `int64`s. -/
theorem header_fits {levels : ℕ} (hn : n < 2 ^ 63) (hlevels : levels < 2 ^ 63) :
    (header salt n levels).Fits := by
  refine ⟨?_, ?_, ?_, hlevels, ?_⟩ <;>
    simp only [header, l0Buckets, meanEntriesPerBucket, entriesPerBucket, bucketSize,
      levelFactor] <;> omega

/-- The listed keys are in range at every level. -/
theorem keysInRange_of_ok (hok : KeysOk salt n source queries) :
    (firstLevel salt n source).KeysInRange :=
  Level.keysInRange_of_inRange fun h hh =>
    (hok.listed h ((X.sortSlice_perm (source.entries salt)).mem_iff.mp hh)).2

/-- **Writing terminates**, and leaves levels laid out. -/
theorem buckets_layout (hready : (firstLevel salt n source).Ready)
    (hkeys : (firstLevel salt n source).KeysInRange) (hn : n < 2 ^ 63)
    (hlen : (source.entries salt).length < 2 ^ 63) :
    ∃ levels body, Layout levels (firstLevel salt n source) body ∧
      buckets salt n source = .ok (body, levels) ∧ (header salt n levels).Fits := by
  have hperm := X.sortSlice_perm (source.entries salt)
  obtain ⟨levels, w, body, hrun, hout, hlayout, hle⟩ := writeLevels_layout hready hkeys _ 0 le_rfl []
  have hlevels : levels < 2 ^ 63 := by
    refine lt_of_le_of_lt hle ?_
    rwa [firstLevel, hperm.length_eq]
  refine ⟨levels, body, hlayout, ?_, header_fits hn hlevels⟩
  have hopen : openWriter 0 (l0Buckets n) [] 0 [] = ⟨[], 0, 0, emptyBloom⟩ := rfl
  simp only [firstLevel, hopen, Nat.zero_add] at hrun
  simp [buckets, hrun, Bind.bind, Except.bind, pure, Except.pure, hout]

/-- The written file is opened. -/
theorem createOpen_eq {levels : ℕ} {body : Bytes} (h : buckets salt n source = .ok (body, levels))
    (hfits : (header salt n levels).Fits) : createOpen salt n source =
      .ok ⟨finalHdr (header salt n levels) ++ body, header salt n levels, createSample source⟩ := by
  have hcreate : create salt n source = .ok (finalHdr (header salt n levels) ++ body) := by
    simp [create, h, Bind.bind, Except.bind, pure, Except.pure]
  simp only [createOpen, hcreate, openFile_finalHdr hfits]

/-- **A lookup in a laid-out file ends well**, with the answer for the
level of all entries. -/
theorem find_answers {levels : ℕ} {body : Bytes} (hready : (firstLevel salt n source).Ready)
    (hkeys : (firstLevel salt n source).KeysInRange)
    (hlayout : Layout levels (firstLevel salt n source) body)
    (hfits : (header salt n levels).Fits) (sample : List Multihash) {m : Multihash}
    (hm : (firstLevel salt n source).InRange (makeMHKey salt m 0)) :
    ∃ r, (⟨finalHdr (header salt n levels) ++ body, header salt n levels, sample⟩ : BSST).find m =
        .ok r ∧
      (keyBytes (makeMHKey salt m 0) ≠ List.replicate entKeyBytes 0 →
        Answers (firstLevel salt n source).list (makeMHKey salt m 0) r) := by
  have hfront : (finalHdr (header salt n levels)).length =
      ((firstLevel salt n source).prev + 1) * bucketSize := by
    rw [length_finalHdr hfits, firstLevel, Nat.zero_add, Nat.one_mul]
  obtain ⟨r, hr, hans⟩ := lookup_answers hlayout hready hkeys hm hfront
  rw [List.append_nil body] at hr
  exact ⟨r, hr, hans⟩

/-- **What is found in a laid-out file** is what is stored. -/
theorem find_stored {levels : ℕ} {body : Bytes} (hpos : 1 ≤ n) (hn : n < 2 ^ 40)
    (hok : KeysOk salt n source queries) (hlayout : Layout levels (firstLevel salt n source) body)
    (hfits : (header salt n levels).Fits) (sample : List Multihash) {m : Multihash}
    (hm : m ∈ queries) :
    (⟨finalHdr (header salt n levels) ++ body, header salt n levels, sample⟩ : BSST).find m =
      .ok (stored source m) := by
  have hperm := X.sortSlice_perm (source.entries salt)
  obtain ⟨r, hr, hans⟩ := find_answers (firstLevel_ready hpos hn) (keysInRange_of_ok hok) hlayout
    hfits sample (hok.inRange m hm)
  have hans := hans (hok.nonzero m hm)
  rw [hr, ← answers_eq_stored hok hm]
  cases r with
  | some off =>
    obtain ⟨h, hh, hkey⟩ := hans
    exact ⟨h, hperm.mem_iff.mp hh, hkey⟩
  | none => exact fun h hh => hans h (hperm.mem_iff.mpr hh)

/-- **The file of a source finds what the source lists**; a source without
entries makes a file without levels. -/
theorem buckets_find (hpos : 1 ≤ n ∨ source = []) (hn : n < 2 ^ 40)
    (hlen : (source.entries salt).length < 2 ^ 63) (hok : KeysOk salt n source queries) :
    ∃ levels body, buckets salt n source = .ok (body, levels) ∧ (header salt n levels).Fits ∧
      ∀ sample, ∀ m ∈ queries,
        (⟨finalHdr (header salt n levels) ++ body, header salt n levels, sample⟩ : BSST).find m =
          .ok (stored source m) := by
  rcases hpos with hpos | rfl
  · obtain ⟨levels, body, hlayout, hbuckets, hfits⟩ := buckets_layout (firstLevel_ready hpos hn)
      (keysInRange_of_ok hok) (hn.trans (by norm_num)) hlen
    exact ⟨levels, body, hbuckets, hfits, fun sample m hm =>
      find_stored hpos hn hok hlayout hfits sample hm⟩
  · have hnil : X.sortSlice (Source.entries [] salt) = [] := (X.sortSlice_perm _).eq_nil
    refine ⟨0, [], ?_, header_fits (hn.trans (by norm_num)) (by norm_num), fun _ _ _ => rfl⟩
    rw [buckets, hnil]
    rfl

/-- The lists that `Has` and `Get` return. -/
theorem BSST.has_get_eq {b : BSST} (h : ∀ m ∈ queries, b.find m = .ok (stored source m)) :
    b.has queries = .ok (queries.map fun m => (stored source m).isSome) ∧
      b.get queries = .ok (queries.map fun m => (stored source m).getD 0) :=
  ⟨mapM_eq_ok fun m hm => by simp [h m hm, Bind.bind, Except.bind, pure, Except.pure],
    mapM_eq_ok fun m hm => by simp [h m hm, Bind.bind, Except.bind, pure, Except.pure]⟩

/-- **BSST lookup is exact.** `Create` succeeds, and on the file it leaves
`Has` and `Get` answer for every list of multihashes as the list of
entries does. At every level the scan of a bucket starts at or before
each position that holds the key looked for. -/
theorem createOpen_exact (hpos : 1 ≤ n) (hn : n < 2 ^ 40)
    (hlen : (source.entries salt).length < 2 ^ 63) (hok : KeysOk salt n source queries) :
    ∃ b, createOpen salt n source = .ok b ∧
      b.has queries = .ok (queries.map fun m => (stored source m).isSome) ∧
      b.get queries = .ok (queries.map fun m => (stored source m).getD 0) ∧
      ∀ m ∈ queries, ∀ j, (Level.next^[j] (firstLevel salt n source)).list ≠ [] →
        ∀ ind, ind = bucketInd (makeMHKey salt m 0)
            (bucketRange (Level.next^[j] (firstLevel salt n source)).lb)
            (Level.next^[j] (firstLevel salt n source)).prev →
          ∃ buf, readAt b.f ((ind.1 + 1) * bucketSize) bucketSize = some buf ∧
            ∀ p < bucketUserEntries, (entryAt buf p).take entKeyBytes =
              keyBytes (makeMHKey salt m 0) →
              0 < minOffCount (buf.drop (bucketUserEntries * entrySize)) ind.2 ∧
              minOffIdx (buf.drop (bucketUserEntries * entrySize)) ind.2 ≤ p := by
  have hready : (firstLevel salt n source).Ready := firstLevel_ready hpos hn
  have hkeys := keysInRange_of_ok hok
  obtain ⟨levels, body, hlayout, hbuckets, hfits⟩ := buckets_layout hready hkeys
    (hn.trans (by norm_num)) hlen
  have hfront : (finalHdr (header salt n levels)).length =
      ((firstLevel salt n source).prev + 1) * bucketSize := by
    rw [length_finalHdr hfits, firstLevel, Nat.zero_add, Nat.one_mul]
  obtain ⟨b, hb⟩ : ∃ b : BSST, b = ⟨finalHdr (header salt n levels) ++ body,
    header salt n levels, createSample source⟩ := ⟨_, rfl⟩
  have hfind : ∀ m ∈ queries, b.find m = .ok (stored source m) :=
    fun m hm => hb ▸ find_stored hpos hn hok hlayout hfits _ hm
  refine ⟨b, by rw [createOpen_eq hbuckets hfits, hb], (BSST.has_get_eq hfind).1,
    (BSST.has_get_eq hfind).2, ?_⟩
  rintro m hm j hj ind rfl
  obtain ⟨pre, rest, hbody, hpre, hreadyj⟩ := hlayout.iterate hready hkeys hj
  have hkeysj := hkeys j
  generalize hl : Level.next^[j] (firstLevel salt n source) = l at *
  have hin : KeyInRange l.prev l.lb (makeMHKey salt m 0) := hl ▸ hok.inRange m hm j (hl ▸ hj)
  have hpres : (finalHdr (header salt n levels) ++ pre).length = (l.prev + 1) * bucketSize := by
    rw [List.length_append, hfront, Nat.add_mul, Nat.add_right_comm, Nat.add_comm (_ * _), hpre]
    ring
  have hread : readAt (finalHdr (header salt n levels) ++ pre ++ (l.bytes ++ rest))
      (((bucketInd (makeMHKey salt m 0) (bucketRange l.lb) l.prev).1 + 1) * bucketSize) bucketSize =
      some (bucketBytes l.prev l.lb (l.bucket _)) :=
    readAt_bucket hpres (Nat.le_add_right _ _) hin.bucket
  refine ⟨_, by rw [hb, hbody, ← hread, List.append_assoc], fun p hp hkey => ?_⟩
  rw [drop_bucketBytes]
  exact minOffIdx_le_of_entryAt hreadyj hkeysj (hok.nonzero m hm) hp hkey

end

section

open Encoding

/-- A listed and an unlisted SHA-256 multihash. -/
def twoHashes : List Multihash := [0x12 :: 0x20 :: sha256 [0], 0x12 :: 0x20 :: sha256 [1]]

def zeroSalt : Digest := ⟨List.replicate 32 0, length_zeroDigest⟩

theorem keysOk_twoHashes : KeysOk zeroSalt 1 [(0x12 :: 0x20 :: sha256 [0], [7])] twoHashes := by
  have hnext : (firstLevel zeroSalt 1 [(0x12 :: 0x20 :: sha256 [0], [7])]).next.list = [] := by
    decide +kernel
  refine ⟨by decide +kernel, by decide +kernel, by decide +kernel, fun m hm => ?_, fun h hh => ?_⟩
  · refine Level.inRange_of_next_nil hnext ⟨?_, ?_⟩ <;> revert m <;> decide +kernel
  · refine ⟨?_, Level.inRange_of_next_nil hnext ⟨?_, ?_⟩⟩ <;> revert h <;> decide +kernel

/-- One of two multihashes is listed, and found. -/
theorem createOpen_twoHashes : ∃ b,
    createOpen zeroSalt 1 [(0x12 :: 0x20 :: sha256 [0], [7])] = .ok b ∧
      b.has twoHashes = .ok [true, false] ∧ b.get twoHashes = .ok [7, 0] := by
  obtain ⟨b, hb, hhas, hget, -⟩ := createOpen_exact (n := 1) le_rfl (by norm_num)
    (by decide +kernel) keysOk_twoHashes
  refine ⟨b, hb, ?_, ?_⟩
  · rw [hhas]
    decide +kernel
  · rw [hget]
    decide +kernel

end

end Bsst

end Ribs
