import Ribs.Bsst.Level
import Mathlib.Algebra.Order.BigOperators.Group.List
import Mathlib.Tactic.FinCases
/-!
# BSST — the scan starts early enough

The bloom filter of a bucket is used as a lower bound on the position of
a key. The branch-free masks of a lookup select bits up to the key's own
and no others, so the count of selected bits is at most one more than
the number of set bits below it. The keys of a bucket are written in key
order, so each of those bits is the bit of an entry that comes earlier.
-/

namespace Ribs

open Common

namespace Bsst

variable {prev lb : ℕ}

/-! ## The masks -/

/-- A bit of a word of the filter is a bit of the filter. -/
theorem getLsbD_bloomWord {bloom : Bytes} {i : Fin 4} {t : ℕ} (ht : t < 64) :
    (bloomWord bloom i).getLsbD t = bloomTest bloom (64 * i + t) := by
  have hbyte : t / 8 < 8 := by omega
  rw [bloomWord, BitVec.getLsbD_ofNat, decide_eq_true ht, Bool.true_and, testBit_leNat,
    bloomTest_eq, List.getElem?_take_of_lt hbyte, List.getElem?_drop, List.getD_eq_getElem?_getD,
    show (64 * (i : ℕ) + t) / 8 = 8 * i + t / 8 by omega,
    show (64 * (i : ℕ) + t) % 8 = t % 8 by omega]

/-- The last mask has the low bits up to the key's own. -/
theorem getLsbD_mLast {r t : ℕ} (hr : r < 64) :
    (BitVec.allOnes 64 >>> (63 - r)).getLsbD t = decide (t ≤ r) := by
  rw [BitVec.getLsbD_ushiftRight, BitVec.getLsbD_allOnes]
  exact decide_eq_decide.mpr (by omega)

/-- Shifting the key's bit number right leaves the number of its word. -/
theorem ofNat_ushiftRight {q r : ℕ} (hq : q < 4) (hr : r < 64) :
    BitVec.ofNat 64 (64 * q + r) >>> 6 = BitVec.ofNat 64 q ∧
      BitVec.ofNat 64 (64 * q + r) >>> 7 = BitVec.ofNat 64 (q / 2) := by
  constructor <;> apply BitVec.eq_of_toNat_eq <;>
    simp only [BitVec.toNat_ushiftRight, BitVec.toNat_ofNat, Nat.shiftRight_eq_div_pow] <;> omega

/-- **The masks select no bit above the key's own.** -/
theorem getLsbD_offMask_le {b t : ℕ} (hb : b < 256) {i : Fin 4} (ht : t < 64)
    (h : (offMask b i).getLsbD t = true) : 64 * i + t ≤ b := by
  obtain ⟨q, r, hr, rfl⟩ : ∃ q r, r < 64 ∧ b = 64 * q + r :=
    ⟨b / 64, b % 64, Nat.mod_lt _ (by norm_num), by omega⟩
  have hq : q < 4 := by omega
  obtain ⟨h6, h7⟩ := ofNat_ushiftRight hq hr
  simp only [offMask, show (64 * q + r) % 64 = r by omega, h6, h7] at h
  have hlast := getLsbD_mLast hr (t := t)
  generalize BitVec.allOnes 64 >>> (63 - r) = mLast at h hlast
  interval_cases q <;> fin_cases i <;> simp_all <;> omega

/-- And they select that one. -/
theorem getLsbD_offMask_self {q : Fin 4} {r : ℕ} (hr : r < 64) :
    (offMask (64 * q + r) q).getLsbD r = true := by
  obtain ⟨h6, h7⟩ := ofNat_ushiftRight q.isLt hr
  simp only [offMask, show (64 * (q : ℕ) + r) % 64 = r by omega, h6, h7]
  have hlast := getLsbD_mLast hr (t := r)
  have hones : (-1#64).getLsbD r = true := by
    rw [BitVec.neg_one_eq_allOnes, BitVec.getLsbD_allOnes]
    exact decide_eq_true hr
  generalize BitVec.allOnes 64 >>> (63 - r) = mLast at hlast ⊢
  fin_cases q <;> simp_all

/-! ## The count -/

theorem onesCount_le {x : BitVec 64} {p : ℕ → Prop} [DecidablePred p]
    (h : ∀ t < 64, x.getLsbD t = true → p t) : onesCount x ≤ Nat.count p 64 :=
  Nat.count_mono_left h

theorem onesCount_pos {x : BitVec 64} {t : ℕ} (ht : t < 64) (h : x.getLsbD t = true) :
    0 < onesCount x := by
  rw [onesCount, Nat.count_eq_card_filter_range]
  exact Finset.card_pos.mpr ⟨t, Finset.mem_filter.mpr ⟨Finset.mem_range.mpr ht, h⟩⟩

/-- The masked filter counts bits up to the key's own. -/
theorem minOffCount_le {bloom : Bytes} {b : ℕ} (hb : b < 256) :
    minOffCount bloom b ≤ Nat.count (fun j => bloomTest bloom j = true) b + 1 := by
  have hword : ∀ i : Fin 4, onesCount (bloomWord bloom i &&& offMask b i) ≤
      Nat.count (fun t => bloomTest bloom (64 * i + t) = true ∧ 64 * i + t ≤ b) 64 := by
    refine fun i => onesCount_le fun t ht h => ?_
    rw [BitVec.getLsbD_and, Bool.and_eq_true, getLsbD_bloomWord ht] at h
    exact ⟨h.1, getLsbD_offMask_le hb ht h.2⟩
  have h256 : minOffCount bloom b ≤
      Nat.count (fun j => bloomTest bloom j = true ∧ j ≤ b) (64 + 64 + 64 + 64) := by
    have h0 := hword 0
    have h1 := hword 1
    have h2 := hword 2
    have h3 := hword 3
    simp only [Nat.count_add, minOffCount]
    simp only [Fin.isValue, Fin.val_zero, Nat.mul_zero, Nat.zero_add, Fin.val_one, Nat.mul_one,
      Fin.val_two] at h0 h1 h2
    exact Nat.add_le_add (Nat.add_le_add (Nat.add_le_add h0 h1) h2) h3
  refine h256.trans ((?_ : _ ≤ Nat.count (fun j => bloomTest bloom j = true) (b + 1)).trans ?_)
  · rw [Nat.count_eq_card_filter_range, Nat.count_eq_card_filter_range]
    refine Finset.card_le_card fun j hj => ?_
    rw [Finset.mem_filter, Finset.mem_range] at hj ⊢
    exact ⟨by omega, hj.2.1⟩
  · rw [Nat.count_succ]
    split <;> omega

/-- A lookup that gets past the filter counts its own bit. -/
theorem minOffCount_pos {bloom : Bytes} {b : ℕ} (hb : b < 256) (h : bloomTest bloom b = true) :
    0 < minOffCount bloom b := by
  obtain ⟨q, r, hr, rfl⟩ : ∃ (q : Fin 4) (r : ℕ), r < 64 ∧ b = 64 * q + r :=
    ⟨⟨b / 64, by omega⟩, b % 64, Nat.mod_lt _ (by norm_num), by simp only; omega⟩
  have hpos : 0 < onesCount (bloomWord bloom q &&& offMask (64 * q + r) q) := by
    refine onesCount_pos hr ?_
    rw [BitVec.getLsbD_and, getLsbD_bloomWord hr, h, getLsbD_offMask_self hr]
    rfl
  rw [minOffCount]
  fin_cases q <;> simp only [Fin.reduceFinMk, Fin.zero_eta, Fin.mk_one] at hpos ⊢ <;> omega

/-! ## The keys of a bucket -/

/-- **A bloom filter counts entries.** The set bits below a key's own are
bits of keys before it, when the keys come in the order of their bits. -/
theorem count_bloomWith_le {ks : List MultiHashHash}
    (hks : ∀ h ∈ ks, bloomOf prev lb h < bucketBloomFilterEntries)
    (hsorted : ks.Pairwise fun a b => bloomOf prev lb a ≤ bloomOf prev lb b)
    {p : ℕ} (hp : p < ks.length) :
    Nat.count (fun j => bloomTest (bloomWith prev lb ks) j = true) (bloomOf prev lb ks[p]) ≤ p := by
  classical
  have hsub : (Finset.range (bloomOf prev lb ks[p])).filter
      (fun j => bloomTest (bloomWith prev lb ks) j = true) ⊆
        ((ks.take p).map (bloomOf prev lb)).toFinset := by
    intro j hj
    rw [Finset.mem_filter, Finset.mem_range, bloomTest_bloomWith hks] at hj
    obtain ⟨hlt, h, hh, rfl⟩ := hj
    obtain ⟨q, hq, rfl⟩ := List.getElem_of_mem hh
    have hqp : q < p := by
      by_contra hle
      rcases Nat.eq_or_lt_of_le (Nat.not_lt.mp hle) with rfl | hpq
      · exact absurd hlt (lt_irrefl _)
      · exact absurd (List.pairwise_iff_getElem.mp hsorted p q hp hq hpq) (Nat.not_le.mpr hlt)
    refine List.mem_toFinset.mpr (List.mem_map_of_mem ?_)
    exact List.mem_take_iff_getElem.mpr ⟨q, by omega, rfl⟩
  rw [Nat.count_eq_card_filter_range]
  calc _ ≤ _ := Finset.card_le_card hsub
    _ ≤ ((ks.take p).map (bloomOf prev lb)).length := List.toFinset_card_le _
    _ ≤ p := by simp

/-- **The scan starts at or before every position that holds the key.** -/
theorem minOffIdx_le {ks : List MultiHashHash}
    (hks : ∀ h ∈ ks, bloomOf prev lb h < bucketBloomFilterEntries)
    (hsorted : ks.Pairwise fun a b => bloomOf prev lb a ≤ bloomOf prev lb b)
    {p : ℕ} (hp : p < ks.length) :
    minOffIdx (bloomWith prev lb ks) (bloomOf prev lb ks[p]) ≤ p := by
  have hcount := count_bloomWith_le hks hsorted hp
  have hle : minOffCount (bloomWith prev lb ks) (bloomOf prev lb ks[p]) ≤ _ :=
    minOffCount_le (hks _ (List.getElem_mem hp))
  rw [minOffIdx]
  omega

/-- Keys in order fall into the buckets in order. -/
theorem bucketOf_le {a b : MultiHashHash} (h : hashIdx a.mhh ≤ hashIdx b.mhh) :
    bucketOf prev lb a ≤ bucketOf prev lb b :=
  Nat.add_le_add_left (Nat.div_le_div_right h) prev

/-- Keys in order, and of one bucket, have their bits in order. -/
theorem bloomOf_le {a b : MultiHashHash} (h : hashIdx a.mhh ≤ hashIdx b.mhh)
    (heq : bucketOf prev lb a = bucketOf prev lb b) : bloomOf prev lb a ≤ bloomOf prev lb b := by
  have hdiv : hashIdx a.mhh / bucketRange lb = hashIdx b.mhh / bucketRange lb :=
    Nat.add_left_cancel heq
  refine Nat.div_le_div_right ?_
  have ha := Nat.div_add_mod (hashIdx a.mhh) (bucketRange lb)
  have hb := Nat.div_add_mod (hashIdx b.mhh) (bucketRange lb)
  rw [hdiv] at ha
  omega

/-- The keys of a bucket of a sorted level have their bits in order. -/
theorem pairwise_keysOf {list : List MultiHashHash}
    (hsorted : list.Pairwise fun a b => hashIdx a.mhh ≤ hashIdx b.mhh) (i : ℕ) :
    (keysOf prev lb list i).Pairwise fun a b => bloomOf prev lb a ≤ bloomOf prev lb b := by
  refine (hsorted.filter _).imp_of_mem fun {a b} ha hb h => bloomOf_le h ?_
  have ha' := of_decide_eq_true (List.mem_filter.mp ha).2
  have hb' := of_decide_eq_true (List.mem_filter.mp hb).2
  rw [ha', hb']

end Bsst

end Ribs
