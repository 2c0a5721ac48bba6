import Ribs.Bsst.Lookup
/-!
# BSST — what a level holds

A level is a family of buckets: bucket `i` holds the first
`bucketUserEntries` keys of the level that fall into it, and its bloom
filter has the bits of all of them. `levelBytes` states it bucket by
bucket and `writeLevel_eq` is the writing loop against it, by induction
on the entries with the contents of the open bucket as the invariant.
What does not fit is `levelNext`.
-/

namespace Ribs

open Common

namespace Bsst

variable {prev lb : ℕ}

/-- The bucket of an entry in the level with `prev` buckets before it. -/
def bucketOf (prev lb : ℕ) (h : MultiHashHash) : ℕ := (bucketInd h.mhh (bucketRange lb) prev).1

/-- Its bit in the bucket's bloom filter. -/
def bloomOf (prev lb : ℕ) (h : MultiHashHash) : ℕ := (bucketInd h.mhh (bucketRange lb) prev).2

/-- **A key is in range at a level**: its bucket is one of the level's and
its bit one of the filter's. -/
structure KeyInRange (prev lb : ℕ) (k : Digest) : Prop where
  bucket : (bucketInd k (bucketRange lb) prev).1 < prev + lb
  bloom : (bucketInd k (bucketRange lb) prev).2 < bucketBloomFilterEntries

/-- The filter with the bits of `ks`. -/
def bloomWith (prev lb : ℕ) (ks : List MultiHashHash) : Bytes :=
  ks.foldl (fun bloom h => bloomSet bloom (bloomOf prev lb h)) emptyBloom

/-- The entries of a bucket that got the keys `ks`. -/
def storedBytes (ks : List MultiHashHash) : Bytes := (ks.take bucketUserEntries).flatMap entryBytes

/-- **The bytes of a bucket** that got the keys `ks`. -/
def bucketBytes (prev lb : ℕ) (ks : List MultiHashHash) : Bytes :=
  storedBytes ks ++ (List.replicate (bucketUserEntries - ks.length) nullEntry).flatten ++
    bloomWith prev lb ks

/-- The keys of `list` that fall into bucket `i`. -/
def keysOf (prev lb : ℕ) (list : List MultiHashHash) (i : ℕ) : List MultiHashHash :=
  list.filter fun h => bucketOf prev lb h = i

/-- The buckets of a level from bucket `i` on, the open bucket `i` having
got `cur` already. -/
def levelBytes (prev lb i : ℕ) (cur list : List MultiHashHash) : Bytes :=
  (List.range' i (prev + lb - i)).flatMap fun j =>
    bucketBytes prev lb ((if j = i then cur else []) ++ keysOf prev lb list j)

/-- What the level leaves for the next one. -/
def levelNext (prev lb i : ℕ) (cur list : List MultiHashHash) : List MultiHashHash :=
  (List.range' i (prev + lb - i)).flatMap fun j =>
    (keysOf prev lb list j).drop (bucketUserEntries - if j = i then cur.length else 0)

/-- The writer with the keys `cur` in the open bucket `i`. -/
def openWriter (prev lb : ℕ) (done : Bytes) (i : ℕ) (cur : List MultiHashHash) : Writer where
  out := done ++ storedBytes cur
  inBucket := i
  bucketEnts := min bucketUserEntries cur.length
  bloomHead := bloomWith prev lb cur

@[simp] theorem bloomWith_nil : bloomWith prev lb [] = emptyBloom := rfl

theorem bloomWith_append_singleton (ks : List MultiHashHash) (h : MultiHashHash) :
    bloomWith prev lb (ks ++ [h]) = bloomSet (bloomWith prev lb ks) (bloomOf prev lb h) := by
  simp [bloomWith]

@[simp] theorem length_bloomWith (ks : List MultiHashHash) :
    (bloomWith prev lb ks).length = 32 := by
  induction ks using List.reverseRecOn with
  | nil => simp
  | append_singleton ks h ih => rw [bloomWith_append_singleton, length_bloomSet, ih]

/-- **The bits of a filter are the bits of its keys.** -/
theorem bloomTest_bloomWith {ks : List MultiHashHash}
    (hks : ∀ h ∈ ks, bloomOf prev lb h < bucketBloomFilterEntries) (j : ℕ) :
    bloomTest (bloomWith prev lb ks) j = true ↔ ∃ h ∈ ks, bloomOf prev lb h = j := by
  induction ks using List.reverseRecOn with
  | nil => simp
  | append_singleton ks h ih =>
    have hlast := hks h (by simp)
    have hlt : bloomOf prev lb h / 8 < (bloomWith prev lb ks).length := by
      rw [length_bloomWith]
      simp only [bucketBloomFilterEntries, bucketBloomFilterSize, entrySize, bucketSize,
        entriesPerBucket] at hlast
      omega
    rw [bloomWith_append_singleton, bloomTest_bloomSet hlt, Bool.or_eq_true, decide_eq_true_eq,
      ih fun h' hh' => hks h' (by simp [hh'])]
    simp [or_and_right, exists_or, eq_comm]

@[simp] theorem length_storedBytes (ks : List MultiHashHash) :
    (storedBytes ks).length = 32 * min bucketUserEntries ks.length := by
  simp [storedBytes, Nat.mul_comm]

@[simp] theorem length_bucketBytes (ks : List MultiHashHash) :
    (bucketBytes prev lb ks).length = bucketSize := by
  simp only [bucketBytes, List.length_append, length_storedBytes, nullEntry,
    List.flatten_replicate_replicate, List.length_replicate, length_bloomWith]
  simp only [bucketUserEntries, entriesPerBucket, bucketHeaderEntries, bucketSize, entrySize]
  omega

theorem storedBytes_append_singleton_of_lt {ks : List MultiHashHash} (h : MultiHashHash)
    (hlt : ks.length < bucketUserEntries) :
    storedBytes (ks ++ [h]) = storedBytes ks ++ entryBytes h := by
  rw [storedBytes, List.take_of_length_le (by simp; omega), storedBytes,
    List.take_of_length_le (by omega)]
  simp

theorem storedBytes_append_singleton_of_le {ks : List MultiHashHash} (h : MultiHashHash)
    (hle : bucketUserEntries ≤ ks.length) : storedBytes (ks ++ [h]) = storedBytes ks := by
  rw [storedBytes, List.take_append_of_le_length hle, storedBytes]

/-! ## The open bucket -/

/-- Flushing writes the bucket and opens the next one. -/
theorem flushBucket_openWriter (done : Bytes) (i : ℕ) (cur : List MultiHashHash) :
    (openWriter prev lb done i cur).flushBucket =
      openWriter prev lb (done ++ bucketBytes prev lb cur) (i + 1) [] := by
  have hpad : bucketUserEntries - min bucketUserEntries cur.length =
      bucketUserEntries - cur.length := by omega
  simp [Writer.flushBucket, openWriter, bucketBytes, hpad, storedBytes]

/-- An entry that fits is written. -/
theorem writeEntry_openWriter (done : Bytes) (i : ℕ) {cur : List MultiHashHash} (h : MultiHashHash)
    (hlt : cur.length < bucketUserEntries) :
    ((openWriter prev lb done i cur).setBloom (bloomOf prev lb h)).writeEntry h =
      openWriter prev lb done i (cur ++ [h]) := by
  simp only [openWriter, Writer.setBloom, Writer.writeEntry,
    storedBytes_append_singleton_of_lt h hlt, bloomWith_append_singleton, List.append_assoc,
    List.length_append, List.length_singleton, Writer.mk.injEq, true_and, and_true]
  omega

/-- An entry that does not fit only sets its bit. -/
theorem setBloom_openWriter (done : Bytes) (i : ℕ) {cur : List MultiHashHash} (h : MultiHashHash)
    (hle : bucketUserEntries ≤ cur.length) :
    (openWriter prev lb done i cur).setBloom (bloomOf prev lb h) =
      openWriter prev lb done i (cur ++ [h]) := by
  simp only [openWriter, Writer.setBloom, storedBytes_append_singleton_of_le h hle,
    bloomWith_append_singleton, List.length_append, List.length_singleton, Writer.mk.injEq,
    true_and, and_true]
  omega

/-! ## The level, bucket by bucket -/

theorem levelBytes_step {i : ℕ} (hi : i < prev + lb) {cur list : List MultiHashHash}
    (hlist : ∀ h ∈ list, i < bucketOf prev lb h) :
    levelBytes prev lb i cur list =
      bucketBytes prev lb cur ++ levelBytes prev lb (i + 1) [] list := by
  have hnone : keysOf prev lb list i = [] :=
    List.filter_eq_nil_iff.mpr fun h hh => by have := hlist h hh; simp; omega
  rw [levelBytes, show prev + lb - i = prev + lb - (i + 1) + 1 by omega, List.range'_succ,
    List.flatMap_cons, if_pos rfl, hnone, List.append_nil, levelBytes]
  congr 1
  refine List.flatMap_congr fun j hj => ?_
  have hji : j ≠ i := by have := (List.mem_range'_1.mp hj).1; omega
  rw [if_neg hji]
  split <;> rfl

theorem levelNext_step {i : ℕ} (hi : i < prev + lb) {cur list : List MultiHashHash}
    (hlist : ∀ h ∈ list, i < bucketOf prev lb h) :
    levelNext prev lb i cur list = levelNext prev lb (i + 1) [] list := by
  have hnone : keysOf prev lb list i = [] :=
    List.filter_eq_nil_iff.mpr fun h hh => by have := hlist h hh; simp; omega
  rw [levelNext, show prev + lb - i = prev + lb - (i + 1) + 1 by omega, List.range'_succ,
    List.flatMap_cons, hnone, List.drop_nil, List.nil_append, levelNext]
  refine List.flatMap_congr fun j hj => ?_
  have hji : j ≠ i := by have := (List.mem_range'_1.mp hj).1; omega
  rw [if_neg hji]
  split <;> simp

/-- An entry of the open bucket joins what the bucket got. -/
theorem levelBytes_cons {i : ℕ} {cur list : List MultiHashHash} {h : MultiHashHash}
    (hh : bucketOf prev lb h = i) :
    levelBytes prev lb i cur (h :: list) = levelBytes prev lb i (cur ++ [h]) list := by
  refine List.flatMap_congr fun j _ => ?_
  by_cases hji : j = i
  · subst hji
    simp [keysOf, hh]
  · have hne : bucketOf prev lb h ≠ j := fun he => hji (by rw [← he, hh])
    simp [keysOf, hji, hne]

theorem levelNext_cons_of_lt {i : ℕ} {cur list : List MultiHashHash} {h : MultiHashHash}
    (hh : bucketOf prev lb h = i) (hlt : cur.length < bucketUserEntries) :
    levelNext prev lb i cur (h :: list) = levelNext prev lb i (cur ++ [h]) list := by
  refine List.flatMap_congr fun j _ => ?_
  by_cases hji : j = i
  · subst hji
    have hpos : bucketUserEntries - cur.length = bucketUserEntries - (cur.length + 1) + 1 := by
      omega
    simp [keysOf, hh, hpos]
  · have hne : bucketOf prev lb h ≠ j := fun he => hji (by rw [← he, hh])
    simp [keysOf, hji, hne]

theorem levelNext_cons_of_le {i : ℕ} (hi : i < prev + lb) {cur list : List MultiHashHash}
    {h : MultiHashHash} (hh : bucketOf prev lb h = i) (hle : bucketUserEntries ≤ cur.length) :
    levelNext prev lb i cur (h :: list) = h :: levelNext prev lb i (cur ++ [h]) list := by
  have hsplit : prev + lb - i = prev + lb - (i + 1) + 1 := by omega
  have hzero : bucketUserEntries - cur.length = 0 := by omega
  have hzero' : bucketUserEntries - (cur ++ [h]).length = 0 := by simp; omega
  rw [levelNext, levelNext, hsplit, List.range'_succ, List.flatMap_cons, List.flatMap_cons,
    if_pos rfl, if_pos rfl, hzero, hzero', List.drop_zero, List.drop_zero]
  have hfirst : keysOf prev lb (h :: list) i = h :: keysOf prev lb list i := by simp [keysOf, hh]
  rw [hfirst, List.cons_append]
  congr 2
  refine List.flatMap_congr fun j hj => ?_
  have hji : j ≠ i := by have := (List.mem_range'_1.mp hj).1; omega
  have hne : bucketOf prev lb h ≠ j := fun he => hji (by rw [← he, hh])
  simp [keysOf, hji, hne]

/-! ## The writing loop -/

/-- Flushing the buckets that are left, when no entry is left. -/
theorem flushRest_openWriter (done : Bytes) (i : ℕ) (cur : List MultiHashHash)
    (hi : i ≤ prev + lb) (hcur : i = prev + lb → cur = []) :
    (openWriter prev lb done i cur).flushRest (prev + lb) =
      openWriter prev lb (done ++ levelBytes prev lb i cur []) (prev + lb) [] := by
  obtain ⟨n, hn⟩ := Nat.exists_eq_add_of_le hi
  have hrest : prev + lb - (openWriter prev lb done i cur).inBucket = n := by
    simp only [openWriter]; omega
  rw [Writer.flushRest, hrest]
  clear hrest
  induction n generalizing done i cur with
  | zero =>
    have hend : i = prev + lb := by omega
    rw [hcur hend, hend]
    simp [levelBytes]
  | succ n ih =>
    have hstep : levelBytes prev lb i cur [] =
        bucketBytes prev lb cur ++ levelBytes prev lb (i + 1) [] [] :=
      levelBytes_step (by omega) (by simp)
    rw [Function.iterate_succ_apply, flushBucket_openWriter,
      ih (done ++ bucketBytes prev lb cur) (i + 1) [] (by omega) (fun _ => rfl) (by omega),
      hstep, List.append_assoc]

/-- An entry behind the open bucket flushes it first. -/
theorem writeLevel_flush {done : Bytes} {i : ℕ} {cur list : List MultiHashHash} {h : MultiHashHash}
    (hlt : i < bucketOf prev lb h) :
    writeLevel prev lb (openWriter prev lb done i cur) (h :: list) =
      writeLevel prev lb (openWriter prev lb (done ++ bucketBytes prev lb cur) (i + 1) [])
        (h :: list) := by
  have hflush : (openWriter prev lb done i cur).flushTo (bucketOf prev lb h) =
      (openWriter prev lb (done ++ bucketBytes prev lb cur) (i + 1) []).flushTo
        (bucketOf prev lb h) := by
    rw [Writer.flushTo, Writer.flushTo, if_neg (by simp only [openWriter]; omega),
      if_neg (by simp only [openWriter]; omega), ← flushBucket_openWriter,
      ← Function.iterate_succ_apply]
    congr 2
    simp only [openWriter, Writer.flushBucket]
    omega
  simp only [writeLevel]
  rw [← bucketOf, hflush]

/-- **The writing loop writes the level.** From a writer with `cur` in the
open bucket `i`, entries in bucket order, in range and not behind `i`. -/
theorem writeLevel_eq (hrange : bucketRange lb / bucketBloomFilterEntries ≠ 0)
    (list : List MultiHashHash) (done : Bytes) (i : ℕ) (cur : List MultiHashHash)
    (hi : i < prev + lb) (hsorted : list.Pairwise fun a b => bucketOf prev lb a ≤ bucketOf prev lb b)
    (hlist : ∀ h ∈ list, i ≤ bucketOf prev lb h ∧ KeyInRange prev lb h.mhh) :
    ∃ w, writeLevel prev lb (openWriter prev lb done i cur) list =
        .ok (w, levelNext prev lb i cur list) ∧
      w.flushRest (prev + lb) =
        openWriter prev lb (done ++ levelBytes prev lb i cur list) (prev + lb) [] := by
  -- the induction is on the entries and the buckets that are left
  obtain ⟨n, hn⟩ := Nat.exists_eq_add_of_lt hi
  induction hm : n + list.length using Nat.strongRecOn generalizing list done i cur n with
  | ind m ih =>
  cases list with
  | nil =>
    refine ⟨openWriter prev lb done i cur, ?_, flushRest_openWriter done i cur hi.le (by omega)⟩
    simp [writeLevel, levelNext, keysOf]
  | cons h list =>
    obtain ⟨hle, hkey⟩ := hlist h List.mem_cons_self
    have hsorted' := List.pairwise_cons.mp hsorted
    rcases Nat.eq_or_lt_of_le hle with heq | hlt
    · -- the entry is of the open bucket
      have htail : ∀ g ∈ list, i ≤ bucketOf prev lb g ∧ KeyInRange prev lb g.mhh := fun g hg =>
        hlist g (List.mem_cons_of_mem _ hg)
      have hopen : (openWriter prev lb done i cur).flushTo (bucketOf prev lb h) =
          .ok (openWriter prev lb done i cur) := by
        simp [Writer.flushTo, openWriter, ← heq]
      have hbloom : ¬ bucketBloomFilterSize ≤ bloomOf prev lb h / 8 := by
        have := hkey.bloom
        simp only [bloomOf, bucketBloomFilterEntries] at this ⊢
        omega
      obtain ⟨w, hw, hflush⟩ := ih (n + list.length) (by simp only [List.length_cons] at hm; omega)
        list done i (cur ++ [h]) hi hsorted'.2 htail n hn rfl
      refine ⟨w, ?_, by rw [hflush, levelBytes_cons heq.symm]⟩
      simp only [writeLevel]
      rw [if_neg hrange, ← bucketOf, ← bloomOf, hopen]
      simp only [if_neg hbloom]
      -- a full bucket only gets the bit; the entry is left for the level below
      by_cases hfull : bucketUserEntries ≤ cur.length
      · have hents : bucketUserEntries ≤ (openWriter prev lb done i (cur ++ [h])).bucketEnts := by
          simp only [openWriter, List.length_append]; omega
        rw [setBloom_openWriter done i h hfull, if_pos hents, hw,
          levelNext_cons_of_le hi heq.symm hfull]
        rfl
      · have hlt : cur.length < bucketUserEntries := Nat.lt_of_not_le hfull
        have hents : ¬ bucketUserEntries ≤
            ((openWriter prev lb done i cur).setBloom (bloomOf prev lb h)).bucketEnts := by
          simp only [openWriter, Writer.setBloom]; omega
        rw [if_neg hents, writeEntry_openWriter done i h hlt, hw,
          levelNext_cons_of_lt heq.symm hlt]
    · -- the entry is of a later bucket, and so are all behind it
      have hall : ∀ g ∈ h :: list, i < bucketOf prev lb g := by
        intro g hg
        rcases List.mem_cons.mp hg with rfl | hg
        · exact hlt
        · exact lt_of_lt_of_le hlt (hsorted'.1 g hg)
      have hbound : bucketOf prev lb h < prev + lb := hkey.bucket
      obtain ⟨w, hw, hflush⟩ := ih (n - 1 + (h :: list).length) (by omega) (h :: list)
        (done ++ bucketBytes prev lb cur) (i + 1) [] (by omega) hsorted
        (fun g hg => ⟨hall g hg, (hlist g hg).2⟩) (n - 1) (by omega) rfl
      refine ⟨w, ?_, ?_⟩
      · rw [writeLevel_flush hlt, hw, levelNext_step (by omega) hall]
      · rw [hflush, levelBytes_step (by omega) hall, List.append_assoc]

end Bsst

end Ribs
