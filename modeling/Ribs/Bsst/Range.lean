import Ribs.Bsst.Exact
/-!
# BSST — addresses in range

The 64-bit range is shared among the buckets of a level by a truncated
division, and the range of a bucket among the bits of its filter by
another one. What is cut off at the end of either division belongs to no
bucket and to no bit: a hash prefix in there is addressed past the last
one. `Spread` says that a key is not there, and a file is written and
read within its bounds if and only if all its keys are spread.
-/

namespace Ribs

open Common

namespace Bsst

variable {prev lb : ℕ} {k : Digest}

/-- The hash prefix of a key is in the part of the range that the buckets
share, and behind the bucket in the part that the bits share. -/
def Spread (lb : ℕ) (k : Digest) : Prop :=
  hashIdx k < lb * bucketRange lb ∧
    hashIdx k % bucketRange lb <
      bucketBloomFilterEntries * (bucketRange lb / bucketBloomFilterEntries)

instance : Decidable (Spread lb k) := inferInstanceAs (Decidable (_ ∧ _))

/-- **The address of a key at a level**: computed without a division by
zero, one of the level's buckets, and one of the filter's bits. -/
structure Addressed (prev lb : ℕ) (k : Digest) : Prop extends KeyInRange prev lb k where
  range : bucketRange lb / bucketBloomFilterEntries ≠ 0
  lower : prev ≤ (bucketInd k (bucketRange lb) prev).1

/-- **A key is addressed in range just where it is spread.** -/
theorem addressed_iff (prev lb : ℕ) (k : Digest) : Addressed prev lb k ↔ Spread lb k := by
  have hbucket : 0 < bucketRange lb →
      ((bucketInd k (bucketRange lb) prev).1 < prev + lb ↔ hashIdx k < lb * bucketRange lb) :=
    fun hpos => Nat.add_lt_add_iff_left.trans (Nat.div_lt_iff_lt_mul hpos)
  have hbloom : 0 < bucketRange lb / bucketBloomFilterEntries →
      ((bucketInd k (bucketRange lb) prev).2 < bucketBloomFilterEntries ↔
        hashIdx k % bucketRange lb <
          bucketBloomFilterEntries * (bucketRange lb / bucketBloomFilterEntries)) :=
    fun hpos => Nat.div_lt_iff_lt_mul hpos
  have hrange : 0 < bucketRange lb / bucketBloomFilterEntries → 0 < bucketRange lb := fun hpos =>
    Nat.pos_of_ne_zero fun hzero => by simp [hzero] at hpos
  constructor
  · intro h
    have hpos := Nat.pos_of_ne_zero h.range
    exact ⟨(hbucket (hrange hpos)).mp h.bucket, (hbloom hpos).mp h.bloom⟩
  · rintro ⟨hfst, hsnd⟩
    have hpos : 0 < bucketRange lb / bucketBloomFilterEntries := by
      refine Nat.pos_of_ne_zero fun hzero => ?_
      rw [hzero, Nat.mul_zero] at hsnd
      exact absurd hsnd (Nat.not_lt_zero _)
    exact ⟨⟨(hbucket (hrange hpos)).mpr hfst, (hbloom hpos).mpr hsnd⟩, hpos.ne',
      Nat.le_add_right _ _⟩

/-! ## Writing within bounds -/

/-- **The writer stays within its bounds**: no loop over the entries of a
level panics, and none goes on to a bucket past the level's last one. -/
inductive Confined : (prevLevelBuckets levelBuckets : ℕ) → Writer → List MultiHashHash → Prop
  | nil {prev lb : ℕ} {w : Writer} : Confined prev lb w []
  | cons {prev lb : ℕ} {w w' : Writer} {list next : List MultiHashHash} :
      list ≠ [] → writeLevel prev lb w list = .ok (w', next) → w'.inBucket < prev + lb →
      Confined (prev + lb) (nextLevelBuckets lb) (w'.flushRest (prev + lb)) next →
      Confined prev lb w list

theorem Writer.flushBucket_iterate_inBucket (w : Writer) (n : ℕ) :
    (flushBucket^[n] w).inBucket = w.inBucket + n := by
  induction n generalizing w with
  | zero => rfl
  | succ n ih =>
    rw [Function.iterate_succ_apply, ih]
    exact Nat.succ_add_eq_add_succ w.inBucket n

theorem Writer.flushTo_ok {w w₁ : Writer} {i : ℕ} (h : w.flushTo i = .ok w₁) :
    w.inBucket ≤ i ∧ w₁.inBucket = i := by
  unfold flushTo at h
  split_ifs at h with hlt
  rw [← Except.ok.inj h, flushBucket_iterate_inBucket]
  omega

/-- **The loop over the entries passes the bucket of each**, so the last
bucket it is in bounds them all. -/
theorem writeLevel_inBucket {w w' : Writer} {list next : List MultiHashHash}
    (h : writeLevel prev lb w list = .ok (w', next)) :
    w.inBucket ≤ w'.inBucket ∧
      ∀ g ∈ list, bucketOf prev lb g ≤ w'.inBucket ∧
        bloomOf prev lb g < bucketBloomFilterEntries ∧
        bucketRange lb / bucketBloomFilterEntries ≠ 0 := by
  induction list generalizing w next with
  | nil =>
    simp only [writeLevel, Except.ok.injEq, Prod.mk.injEq] at h
    rw [h.1]
    exact ⟨le_rfl, by simp⟩
  | cons hash list ih =>
    obtain ⟨hrange, hbloom, w₁, hflush, hrest⟩ := writeLevel_cons_ok h
    obtain ⟨hle, heq⟩ := Writer.flushTo_ok hflush
    have htail : w₁.inBucket ≤ w'.inBucket ∧ ∀ g ∈ list, bucketOf prev lb g ≤ w'.inBucket ∧
        bloomOf prev lb g < bucketBloomFilterEntries ∧
        bucketRange lb / bucketBloomFilterEntries ≠ 0 := by
      rcases hrest with ⟨-, rest, -, hrest⟩ | hrest <;> have := ih hrest <;> exact this
    refine ⟨by omega, fun g hg => ?_⟩
    rcases List.mem_cons.mp hg with rfl | hg
    · exact ⟨by omega, hbloom, hrange⟩
    · exact htail.2 g hg

/-- The entries of a level that is written within bounds are in range. -/
theorem keyInRange_of_writeLevel {w w' : Writer} {list next : List MultiHashHash}
    (h : writeLevel prev lb w list = .ok (w', next)) (hend : w'.inBucket < prev + lb) :
    ∀ g ∈ list, KeyInRange prev lb g.mhh ∧ bucketRange lb / bucketBloomFilterEntries ≠ 0 := by
  intro g hg
  obtain ⟨hbucket, hbloom, hrange⟩ := (writeLevel_inBucket h).2 g hg
  exact ⟨⟨lt_of_le_of_lt hbucket hend, hbloom⟩, hrange⟩

/-- The loop ends in no later bucket than its entries'. -/
theorem writeLevel_inBucket_lt {total : ℕ} {w w' : Writer} {list next : List MultiHashHash}
    (h : writeLevel prev lb w list = .ok (w', next)) (hw : w.inBucket < total)
    (hlist : ∀ g ∈ list, bucketOf prev lb g < total) : w'.inBucket < total := by
  induction list generalizing w next with
  | nil =>
    simp only [writeLevel, Except.ok.injEq, Prod.mk.injEq] at h
    rwa [← h.1]
  | cons hash list ih =>
    obtain ⟨-, -, w₁, hflush, hrest⟩ := writeLevel_cons_ok h
    have hw₁ : w₁.inBucket < total := by
      rw [(Writer.flushTo_ok hflush).2]
      exact hlist hash List.mem_cons_self
    have htail := fun g hg => hlist g (List.mem_cons_of_mem hash hg)
    rcases hrest with ⟨-, rest, -, hrest⟩ | hrest
    · exact ih hrest hw₁ htail
    · exact ih hrest hw₁ htail

/-- The entries of a level and of the levels below are spread, each at the
levels it gets to. -/
def Level.KeysSpread (l : Level) : Prop :=
  ∀ j, ∀ h ∈ (Level.next^[j] l).list, Spread (Level.next^[j] l).lb h.mhh

theorem Level.KeysSpread.keysInRange {l : Level} (hl : l.KeysSpread) : l.KeysInRange :=
  fun j h hh => ((addressed_iff _ _ _).mpr (hl j h hh)).toKeyInRange

/-- **Spread entries are written within bounds.** -/
theorem Level.KeysSpread.confined {l : Level} (hkeys : l.KeysSpread) (hl : l.Ready)
    (done : Bytes) :
    Confined l.prev l.lb (openWriter l.prev l.lb done l.prev []) l.list := by
  induction hm : l.list.length using Nat.strongRecOn generalizing l done with
  | ind m ih =>
    by_cases hne : l.list = []
    · rw [hne]
      exact .nil
    · obtain ⟨w, hw, hflush, hready, hlen⟩ := writeLevel_level hl hne hkeys.keysInRange.here done
      have hend : w.inBucket < l.prev + l.lb := by
        have hopen : l.prev < l.prev + l.lb := Nat.lt_add_of_pos_right hl.buckets
        exact writeLevel_inBucket_lt hw hopen fun g hg => (hkeys.keysInRange.here g hg).bucket
      refine .cons hne hw hend ?_
      rw [hflush]
      exact ih _ (hm ▸ hlen) (fun j => hkeys (j + 1)) hready _ rfl

/-- **Only spread entries are written within bounds.** -/
theorem Confined.keysSpread {w : Writer} {list : List MultiHashHash}
    (h : Confined prev lb w list) {l : Level} {done : Bytes} (hprev : prev = l.prev)
    (hlb : lb = l.lb) (hlist : list = l.list)
    (hw : w = openWriter l.prev l.lb done l.prev []) (hpos : 0 < l.lb)
    (hsorted : l.list.Pairwise fun a b => hashIdx a.mhh ≤ hashIdx b.mhh) : l.KeysSpread := by
  induction h generalizing l done with
  | nil =>
    intro j h hh
    have := Level.mem_of_mem_iterate hh
    rw [← hlist] at this
    exact absurd this List.not_mem_nil
  | cons hne hrun hend _ ih =>
    subst hprev hlb hlist hw
    have hin := keyInRange_of_writeLevel hrun hend
    obtain ⟨g, hg⟩ := List.exists_mem_of_ne_nil _ hne
    have hready : l.Ready := ⟨hpos, (hin g hg).2, hsorted⟩
    obtain ⟨w, hw, hflush, hnext, -⟩ := writeLevel_level hready hne (fun h hh => (hin h hh).1) done
    rw [hrun, Except.ok.injEq, Prod.mk.injEq] at hw
    intro j
    cases j with
    | zero =>
      intro h hh
      exact (addressed_iff l.prev l.lb h.mhh).mp
        ⟨(hin h hh).1, (hin h hh).2, Nat.le_add_right _ _⟩
    | succ j =>
      have hspread : l.next.KeysSpread :=
        ih rfl rfl hw.2 (hw.1 ▸ hflush) hnext.buckets hnext.sorted
      exact hspread j

/-! ## `Create`, `Has` and `Get` within bounds -/

/-- A query list is answered where each query is. -/
theorem exists_mapM_ok {α β ε : Type} {c : List α} {f : α → Except ε β}
    (h : ∀ m ∈ c, ∃ r, f m = .ok r) : ∃ rs, c.mapM f = .ok rs := by
  induction c with
  | nil => exact ⟨[], rfl⟩
  | cons m c ih =>
    obtain ⟨r, hr⟩ := h m List.mem_cons_self
    obtain ⟨rs, hrs⟩ := ih fun m' hm' => h m' (List.mem_cons_of_mem _ hm')
    refine ⟨r :: rs, ?_⟩
    rw [List.mapM_cons, hr, hrs]
    rfl

section

variable [X : External] {salt : Digest} {n : ℕ} {source : Source} {queries : List Multihash}

/-- **Every address is in range**: the writer stays within its bounds, a
multihash that is looked up is addressed in range at every level of the
file, and `Create`, `Has` and `Get` end well. -/
structure InBounds (salt : Digest) (n : ℕ) (source : Source) (queries : List Multihash) : Prop where
  written : Confined 0 (l0Buckets n) ⟨[], 0, 0, emptyBloom⟩ (X.sortSlice (source.entries salt))
  addressed : ∀ m ∈ queries, ∀ j, (Level.next^[j] (firstLevel salt n source)).list ≠ [] →
    Addressed (Level.next^[j] (firstLevel salt n source)).prev
      (Level.next^[j] (firstLevel salt n source)).lb (makeMHKey salt m 0)
  ends : ∃ b, createOpen salt n source = .ok b ∧
    (∃ r, b.has queries = .ok r) ∧ ∃ r, b.get queries = .ok r

/-- The keys of a source and of queries are spread, at the levels they
get to. -/
structure KeysSpread (salt : Digest) (n : ℕ) (source : Source) (queries : List Multihash) :
    Prop where
  listed : (firstLevel salt n source).KeysSpread
  queried : ∀ m ∈ queries, ∀ j, (Level.next^[j] (firstLevel salt n source)).list ≠ [] →
    Spread (Level.next^[j] (firstLevel salt n source)).lb (makeMHKey salt m 0)

/-- A file that is laid out answers the queries that are in range. -/
theorem exists_has_get {levels : ℕ} {body : Bytes}
    (hfind : ∀ sample, ∀ m ∈ queries, ∃ r,
      (⟨finalHdr (header salt n levels) ++ body, header salt n levels, sample⟩ : BSST).find m =
        .ok r)
    (hbuckets : buckets salt n source = .ok (body, levels)) (hfits : (header salt n levels).Fits) :
    ∃ b, createOpen salt n source = .ok b ∧
      (∃ r, b.has queries = .ok r) ∧ ∃ r, b.get queries = .ok r := by
  refine ⟨_, createOpen_eq hbuckets hfits, exists_mapM_ok fun m hm => ?_,
    exists_mapM_ok fun m hm => ?_⟩ <;>
  · obtain ⟨r, hr⟩ := hfind (createSample source) m hm
    simp [hr, Bind.bind, Except.bind, pure, Except.pure]

/-- **With spread keys everything stays in bounds.** -/
theorem KeysSpread.inBounds (h : KeysSpread salt n source queries) (hpos : 1 ≤ n)
    (hn : n < 2 ^ 63) (hlen : (source.entries salt).length < 2 ^ 63) :
    InBounds salt n source queries := by
  have haddressed : ∀ m ∈ queries, ∀ j, (Level.next^[j] (firstLevel salt n source)).list ≠ [] →
      Addressed (Level.next^[j] (firstLevel salt n source)).prev
        (Level.next^[j] (firstLevel salt n source)).lb (makeMHKey salt m 0) :=
    fun m hm j hj => (addressed_iff _ _ _).mpr (h.queried m hm j hj)
  by_cases hnil : (firstLevel salt n source).list = []
  · -- no level is written, whatever the buckets' range
    have hsort : X.sortSlice (source.entries salt) = [] := hnil
    refine ⟨by rw [hsort]; exact .nil, haddressed, ?_⟩
    have hbuckets : buckets salt n source = .ok ([], 0) := by
      rw [buckets, hsort]
      rfl
    exact exists_has_get (fun _ _ _ => ⟨none, rfl⟩) hbuckets (header_fits hn (by norm_num))
  · obtain ⟨g, hg⟩ := List.exists_mem_of_ne_nil _ hnil
    have hready : (firstLevel salt n source).Ready :=
      ⟨l0Buckets_pos hpos, ((addressed_iff 0 _ g.mhh).mpr (h.listed 0 g hg)).range,
        firstLevel_sorted⟩
    obtain ⟨levels, body, hlayout, hbuckets, hfits⟩ :=
      buckets_layout hready h.listed.keysInRange hn hlen
    refine ⟨h.listed.confined hready [], haddressed,
      exists_has_get (fun sample m hm => ?_) hbuckets hfits⟩
    obtain ⟨r, hr, -⟩ := find_answers hready h.listed.keysInRange hlayout hfits sample
      fun j hj => (haddressed m hm j hj).toKeyInRange
    exact ⟨r, hr⟩

/-- **Only spread keys stay in bounds.** -/
theorem InBounds.keysSpread (h : InBounds salt n source queries) (hpos : 1 ≤ n) :
    KeysSpread salt n source queries where
  listed := by
    have hopen : openWriter 0 (l0Buckets n) [] 0 [] = ⟨[], 0, 0, emptyBloom⟩ := rfl
    exact h.written.keysSpread (l := firstLevel salt n source) rfl rfl rfl hopen.symm
      (l0Buckets_pos hpos) firstLevel_sorted
  queried := fun m hm j hj => (addressed_iff _ _ _).mp (h.addressed m hm j hj)

/-- **BSST addressing is in range just for spread keys**: a key at a level
of any size, and the keys of a source and of queries at the levels of the
file they make. -/
theorem inBounds_iff (hpos : 1 ≤ n) (hn : n < 2 ^ 63)
    (hlen : (source.entries salt).length < 2 ^ 63) :
    (∀ prev lb k, Addressed prev lb k ↔ Spread lb k) ∧
      (InBounds salt n source queries ↔ KeysSpread salt n source queries) := by
  exact ⟨addressed_iff, fun h => h.keysSpread hpos, fun h => h.inBounds hpos hn hlen⟩

end

section

open Encoding

/-- The entries of one multihash make one level. -/
theorem keysSpread_twoHashes :
    KeysSpread zeroSalt 1 [(0x12 :: 0x20 :: sha256 [0], [7])] twoHashes := by
  have hnext : (firstLevel zeroSalt 1 [(0x12 :: 0x20 :: sha256 [0], [7])]).next.list = [] := by
    decide +kernel
  refine ⟨fun j h hh => ?_, fun m hm j hj => ?_⟩
  · cases j with
    | zero => revert h; decide +kernel
    | succ j =>
      have hnil := Level.iterate_next_nil hnext j
      exact absurd (hnil ▸ hh) List.not_mem_nil
  · cases j with
    | zero => revert m; decide +kernel
    | succ j => exact absurd (Level.iterate_next_nil hnext j) hj

/-- A listed and an unlisted multihash are addressed in range. -/
theorem inBounds_twoHashes :
    (∀ prev lb k, Addressed prev lb k ↔ Spread lb k) ∧
      InBounds zeroSalt 1 [(0x12 :: 0x20 :: sha256 [0], [7])] twoHashes := by
  have hiff : (∀ prev lb k, Addressed prev lb k ↔ Spread lb k) ∧
      (InBounds zeroSalt 1 [(0x12 :: 0x20 :: sha256 [0], [7])] twoHashes ↔
        KeysSpread zeroSalt 1 [(0x12 :: 0x20 :: sha256 [0], [7])] twoHashes) :=
    inBounds_iff le_rfl (by norm_num) (by decide +kernel)
  exact ⟨hiff.1, hiff.2.mpr keysSpread_twoHashes⟩

/-- A key that starts with 64 set bits. -/
def onesKey : Digest := ⟨List.replicate 32 0xff, rfl⟩

/-- A multihash whose key is in the part of its bucket that no bit has. -/
def lateHash : Multihash := 0x12 :: 0x20 :: sha256 [0x00, 0x0d, 0xae, 0xb8]

/-- **Addresses out of range.** A key of set bits is addressed behind the
only bucket of a level, and a listed multihash behind the last bit of its
bucket. -/
theorem not_inBounds_lateHash : ¬ Addressed 0 1 onesKey ∧
    ¬ InBounds zeroSalt 1000000004032 [(lateHash, [7])] [] := by
  refine ⟨fun h => absurd ((addressed_iff 0 1 onesKey).mp h) (by decide +kernel), fun h => ?_⟩
  have hlisted := (h.keysSpread (by norm_num)).listed 0
  revert hlisted
  decide +kernel

end

end Bsst

end Ribs
