import Mathlib.Data.Rat.Floor
import Ribs.Common.Differences
import Ribs.Rbdeal.GroupUpload
/-!
# Rbdeal — the size of the parts of an upload

A group goes to S3 in parts of one size, the last one apart. When the last
part comes out too small, `CalculateChunkSize` makes the parts a little
smaller and looks again. The remainder of the file jumps about as it does;
that it cannot stay small for 168 sizes in a row is because its fourth
difference is then too close to that of a smooth function.
-/

namespace Ribs

open Common

namespace Rbdeal

def partSize : ℤ := 128 <<< 20

/-- 100 KiB. -/
def adjustmentSize : ℤ := 100 <<< 10

/-- What an `int64` holds of a number. -/
def int64 (x : ℤ) : ℤ := x.bmod (2 ^ 64)

/-- `math.Ceil` of the quotient. -/
def numParts (fileSize chunkSize : ℤ) : ℤ := ⌈(fileSize : ℚ) / chunkSize⌉

/-- The size of the last part, as a number. -/
def restSize (fileSize chunkSize : ℤ) : ℤ := fileSize - (numParts fileSize chunkSize - 1) * chunkSize

def lastPartSize (fileSize chunkSize : ℤ) : ℤ := int64 (restSize fileSize chunkSize)

/-- The loop of `CalculateChunkSize`. -/
def adjustChunkSize (fileSize : ℤ) : ℕ → ℤ → Option ℤ
  | 0, _ => none
  | fuel + 1, chunkSize =>
    if lastPartSize fileSize chunkSize < minPartSize then
      adjustChunkSize fileSize fuel (int64 (chunkSize - adjustmentSize))
    else if chunkSize < lastPartSize fileSize chunkSize then
      adjustChunkSize fileSize fuel (int64 (chunkSize + adjustmentSize))
    else some chunkSize

/-- `CalculateChunkSize`, in so many rounds at most. -/
def calculateChunkSize (fuel : ℕ) (fileSize : ℤ) : Option ℤ :=
  adjustChunkSize fileSize fuel partSize

/-- **Parts of this size can be uploaded.** -/
structure Usable (fileSize chunkSize : ℤ) : Prop where
  pos : 0 < chunkSize
  last_le : restSize fileSize chunkSize ≤ chunkSize
  min_le : (minPartSize : ℤ) ≤ fileSize → minPartSize ≤ restSize fileSize chunkSize

variable {fileSize chunkSize : ℤ}

/-! ## The last part -/

theorem int64_of_mem {x : ℤ} (hlo : -2 ^ 63 ≤ x) (hhi : x < 2 ^ 63) : int64 x = x :=
  Int.bmod_eq_of_le_mul_two (by omega) (by omega)

theorem int64_mem (x : ℤ) : -2 ^ 63 ≤ int64 x ∧ int64 x < 2 ^ 63 := by
  have hlo := Int.le_bmod (x := x) (m := 2 ^ 64) (by norm_num)
  have hhi := Int.bmod_lt (x := x) (m := 2 ^ 64) (by norm_num)
  unfold int64
  omega

/-- **The last part** is not empty, and not larger than the others. -/
theorem restSize_of_pos (fileSize : ℤ) (hc : 0 < chunkSize) :
    0 < restSize fileSize chunkSize ∧ restSize fileSize chunkSize ≤ chunkSize := by
  have hcq : (0 : ℚ) < chunkSize := by exact_mod_cast hc
  have hlt : ((numParts fileSize chunkSize - 1 : ℤ) : ℚ) * chunkSize < fileSize := by
    rw [← lt_div_iff₀ hcq]
    push_cast
    have := Int.ceil_lt_add_one ((fileSize : ℚ) / chunkSize)
    unfold numParts
    linarith
  have hle : (fileSize : ℚ) ≤ (numParts fileSize chunkSize : ℚ) * chunkSize := by
    rw [← div_le_iff₀ hcq]
    exact Int.le_ceil _
  have hlt' : (numParts fileSize chunkSize - 1) * chunkSize < fileSize := by exact_mod_cast hlt
  have hle' : fileSize ≤ numParts fileSize chunkSize * chunkSize := by exact_mod_cast hle
  unfold restSize
  constructor <;> linarith

/-- **With parts of a negative size** it would be of a negative size too. -/
theorem restSize_of_neg (fileSize : ℤ) (hc : chunkSize < 0) :
    chunkSize ≤ restSize fileSize chunkSize ∧ restSize fileSize chunkSize < 0 := by
  have hcq : (chunkSize : ℚ) < 0 := by exact_mod_cast hc
  have hlt : (fileSize : ℚ) < ((numParts fileSize chunkSize - 1 : ℤ) : ℚ) * chunkSize := by
    rw [← lt_div_iff_of_neg hcq]
    push_cast
    have := Int.ceil_lt_add_one ((fileSize : ℚ) / chunkSize)
    unfold numParts
    linarith
  have hle : (numParts fileSize chunkSize : ℚ) * chunkSize ≤ fileSize := by
    rw [← div_le_iff_of_neg hcq]
    exact Int.le_ceil _
  have hlt' : fileSize < (numParts fileSize chunkSize - 1) * chunkSize := by exact_mod_cast hlt
  have hle' : numParts fileSize chunkSize * chunkSize ≤ fileSize := by exact_mod_cast hle
  unfold restSize
  constructor <;> linarith

theorem restSize_le (hc : 0 < chunkSize) (h0 : 0 < fileSize) :
    restSize fileSize chunkSize ≤ fileSize := by
  have hone : 1 ≤ numParts fileSize chunkSize := by
    rw [numParts, Int.one_le_ceil_iff]
    positivity
  have hmul : 0 ≤ (numParts fileSize chunkSize - 1) * chunkSize :=
    mul_nonneg (by omega) hc.le
  unfold restSize
  omega

/-- **The last part of a small file is small**, whatever size the parts
have. -/
theorem lastPartSize_lt_of_small (h0 : 0 < fileSize) (h : fileSize < minPartSize)
    (hlo : -2 ^ 63 ≤ chunkSize) (hhi : chunkSize < 2 ^ 63) :
    lastPartSize fileSize chunkSize < minPartSize := by
  have hmin : (minPartSize : ℤ) = 8388608 := rfl
  unfold lastPartSize
  rcases lt_trichotomy chunkSize 0 with hneg | rfl | hpos
  · obtain ⟨hle, hlt⟩ := restSize_of_neg fileSize hneg
    rw [int64_of_mem (by omega) (by omega)]
    omega
  · have hrest : restSize fileSize 0 = fileSize := by simp [restSize]
    rw [hrest, int64_of_mem (by omega) (by omega)]
    exact h
  · have hrest := restSize_of_pos fileSize hpos
    have hle := restSize_le hpos h0
    rw [int64_of_mem (by omega) (by omega)]
    omega

/-- **The loop does not end on a small file.** -/
theorem adjustChunkSize_of_small (h0 : 0 < fileSize) (h : fileSize < minPartSize) (fuel : ℕ)
    (chunkSize : ℤ) (hlo : -2 ^ 63 ≤ chunkSize) (hhi : chunkSize < 2 ^ 63) :
    adjustChunkSize fileSize fuel chunkSize = none := by
  induction fuel generalizing chunkSize with
  | zero => rfl
  | succ fuel ih =>
    rw [adjustChunkSize, if_pos (lastPartSize_lt_of_small h0 h hlo hhi)]
    obtain ⟨hlo', hhi'⟩ := int64_mem (chunkSize - adjustmentSize)
    exact ih _ hlo' hhi'

/-! ## Large files -/

/-- The sizes that are tried. -/
def tried (j : ℕ) : ℤ := partSize - adjustmentSize * j

/-- How many whole parts of the `j`-th size come before the last one. -/
def wholes (fileSize : ℤ) (j : ℕ) : ℤ := numParts fileSize (tried j) - 1

/-- The last part with the `j`-th size. -/
def lasts (fileSize : ℤ) (j : ℕ) : ℤ := restSize fileSize (tried j)

theorem tried_eq (j : ℕ) : tried j = 134217728 - 102400 * j := rfl

theorem tried_step (j : ℕ) : tried j = tried (j + 1) + 102400 := by
  rw [tried_eq, tried_eq]
  push_cast
  ring

theorem wholes_mul_add (fileSize : ℤ) (j : ℕ) :
    wholes fileSize j * tried j + lasts fileSize j = fileSize := by
  unfold wholes lasts restSize
  ring

/-- The first differences of the number of parts, up to the third. -/
abbrev rise (fileSize : ℤ) : ℕ → ℤ := diff (wholes fileSize)

abbrev rise2 (fileSize : ℤ) : ℕ → ℤ := diff (rise fileSize)

abbrev rise3 (fileSize : ℤ) : ℕ → ℤ := diff (rise2 fileSize)

theorem rise_mul (fileSize : ℤ) (j : ℕ) : rise fileSize j * tried (j + 1) =
    1 * 102400 * wholes fileSize j - diff (lasts fileSize) j :=
  diff_quotient tried_step (wholes_mul_add fileSize) j

theorem rise2_mul (fileSize : ℤ) (j : ℕ) : rise2 fileSize j * tried (j + 2) =
    (1 + 1) * 102400 * rise fileSize j - diff (diff (lasts fileSize)) j :=
  diff_level tried_step (rise_mul fileSize) j

theorem rise3_mul (fileSize : ℤ) (j : ℕ) : rise3 fileSize j * tried (j + 3) =
    (1 + 1 + 1) * 102400 * rise2 fileSize j - diff (diff (diff (lasts fileSize))) j :=
  diff_level tried_step (rise2_mul fileSize) j

theorem rise4_mul (fileSize : ℤ) (j : ℕ) : diff (rise3 fileSize) j * tried (j + 4) =
    (1 + 1 + 1 + 1) * 102400 * rise3 fileSize j - diff (diff (diff (diff (lasts fileSize)))) j :=
  diff_level tried_step (rise3_mul fileSize) j

/-- The last parts are small with the first 172 sizes. -/
def Small (fileSize : ℤ) : Prop := ∀ j ≤ 172, lasts fileSize j < 8388608

variable {fileSize : ℤ}

theorem Small.abs_lasts (h : Small fileSize) : ∀ j ≤ 172, |lasts fileSize j| < 8388608 := by
  intro j hj
  have htried := tried_eq j
  obtain ⟨hpos, -⟩ := restSize_of_pos fileSize (show 0 < tried j by omega)
  rw [abs_lt]
  exact ⟨by unfold lasts; omega, h j hj⟩

/-- The remainders do not change by more than they are large. -/
theorem Small.abs_diff (h : Small fileSize) : ∀ j ≤ 171, |diff (lasts fileSize) j| < 8388608 := by
  intro j hj
  have htried := tried_eq j
  have htried' := tried_eq (j + 1)
  obtain ⟨hpos, -⟩ := restSize_of_pos fileSize (show 0 < tried j by omega)
  obtain ⟨hpos', -⟩ := restSize_of_pos fileSize (show 0 < tried (j + 1) by omega)
  have hlt := h j (by omega)
  have hlt' := h (j + 1) (by omega)
  unfold lasts at hlt hlt'
  rw [diff_apply, abs_lt]
  unfold lasts
  omega

theorem Small.abs_diff2 (h : Small fileSize) :
    ∀ j ≤ 170, |diff (diff (lasts fileSize)) j| < 2 * 8388608 := abs_diff_lt h.abs_diff

theorem Small.abs_diff3 (h : Small fileSize) :
    ∀ j ≤ 169, |diff (diff (diff (lasts fileSize))) j| < 2 * (2 * 8388608) :=
  abs_diff_lt h.abs_diff2

theorem Small.abs_diff4 (h : Small fileSize) :
    ∀ j ≤ 168, |diff (diff (diff (diff (lasts fileSize)))) j| < 2 * (2 * (2 * 8388608)) :=
  abs_diff_lt h.abs_diff3

/-- **There are whole parts** when the file is not small itself. -/
theorem Small.wholes_pos (h : Small fileSize) (hmin : 8388608 ≤ fileSize) :
    0 < wholes fileSize 0 := by
  have heq := wholes_mul_add fileSize 0
  have hlt := h 0 (by omega)
  rw [tried_eq] at heq
  omega

/-- The third difference at the beginning, by the largest `int64`. -/
theorem Small.rise3_zero_le (h : Small fileSize) (hmin : 8388608 ≤ fileSize)
    (hmax : fileSize < 2 ^ 63) :
    0 ≤ rise3 fileSize 0 ∧ rise3 fileSize 0 ≤ 184 := by
  have hpos := h.wholes_pos hmin
  have heq := wholes_mul_add fileSize 0
  have hlast := abs_lt.mp (h.abs_lasts 0 (by omega))
  have h1 := rise_mul fileSize 0
  have h2 := rise2_mul fileSize 0
  have h3 := rise3_mul fileSize 0
  have hd1 := abs_lt.mp (h.abs_diff 0 (by omega))
  have hd2 := abs_lt.mp (h.abs_diff2 0 (by omega))
  have hd3 := abs_lt.mp (h.abs_diff3 0 (by omega))
  rw [tried_eq] at heq h1 h2 h3
  have hwholes : wholes fileSize 0 ≤ 68719476736 := by omega
  have hrise : 0 ≤ rise fileSize 0 ∧ rise fileSize 0 ≤ 52500000 := by omega
  have hrise2 : 0 ≤ rise2 fileSize 0 ∧ rise2 fileSize 0 ≤ 80300 := by omega
  omega

/-- **With the fourth difference zero for long**, there are no whole parts. -/
theorem Small.wholes_eq_zero (h : Small fileSize) (hflat : ∀ j < 164, diff (rise3 fileSize) j = 0) :
    wholes fileSize 0 = 0 := by
  have h3 := flat_eq_zero (rise4_mul fileSize) (L := 164) (fun j hj => h.abs_diff3 j (by omega)) hflat
    (by norm_num)
  have h2 := flat_eq_zero (rise3_mul fileSize) (L := 164) (fun j hj => h.abs_diff2 j (by omega))
    (fun j hj => h3 j hj.le) (by norm_num)
  have h1 := flat_eq_zero (rise2_mul fileSize) (L := 164) (fun j hj => h.abs_diff j (by omega))
    (fun j hj => h2 j hj.le) (by norm_num)
  exact flat_eq_zero (rise_mul fileSize) (L := 164) (fun j hj => h.abs_lasts j (by omega))
    (fun j hj => h1 j hj.le) (by norm_num) 0 (by omega)

/-- **A third difference that is not too large stays**: the fourth one is
less than one. -/
theorem Small.rise3_stays (h : Small fileSize) {j : ℕ} (hj : j ≤ 163)
    (h0 : 0 ≤ rise3 fileSize j) (hle : rise3 fileSize j ≤ 120) : diff (rise3 fileSize) j = 0 := by
  have h4 := rise4_mul fileSize j
  have hd4 := abs_lt.mp (h.abs_diff4 j (by omega))
  have htried := tried_eq (j + 4)
  push_cast at htried
  have hlo : 116000000 < tried (j + 4) := by omega
  rcases lt_trichotomy (diff (rise3 fileSize) j) 0 with hneg | hzero | hpos
  · have hmul : diff (rise3 fileSize) j * tried (j + 4) ≤ -1 * tried (j + 4) :=
      mul_le_mul_of_nonneg_right (by omega) (by omega)
    omega
  · exact hzero
  · have hmul : 1 * tried (j + 4) ≤ diff (rise3 fileSize) j * tried (j + 4) :=
      mul_le_mul_of_nonneg_right (by omega) (by omega)
    omega

theorem Small.rise3_flat (h : Small fileSize) (h0 : 0 ≤ rise3 fileSize 0)
    (hle : rise3 fileSize 0 ≤ 120) {j : ℕ} (hj : j ≤ 163) : rise3 fileSize j = rise3 fileSize 0 := by
  induction j with
  | zero => rfl
  | succ j ih =>
    have hstep := h.rise3_stays (j := j) (by omega) (by rw [ih (by omega)]; exact h0)
      (by rw [ih (by omega)]; exact hle)
    rw [diff_apply] at hstep
    rw [← ih (by omega)]
    omega

/-- **A larger one** moves the third difference of the remainders out of
its bounds within three steps. -/
theorem Small.rise3_not_large (h : Small fileSize) (hlo : 120 < rise3 fileSize 0)
    (hhi : rise3 fileSize 0 ≤ 184) : False := by
  have hstep : ∀ j : ℕ, (rise3 fileSize (j + 1) - rise3 fileSize j) * (133808128 - 102400 * j) =
      409600 * rise3 fileSize j - (diff (diff (diff (lasts fileSize))) (j + 1) -
        diff (diff (diff (lasts fileSize))) j) := by
    intro j
    have h4 := rise4_mul fileSize j
    rw [tried_eq, diff_apply (rise3 fileSize), diff_apply (diff (diff (diff (lasts fileSize))))] at h4
    push_cast at h4
    linear_combination h4
  have h0 := hstep 0
  have h1 := hstep 1
  have h2 := hstep 2
  have he0 := abs_lt.mp (h.abs_diff3 0 (by omega))
  have he1 := abs_lt.mp (h.abs_diff3 1 (by omega))
  have he2 := abs_lt.mp (h.abs_diff3 2 (by omega))
  have he3 := abs_lt.mp (h.abs_diff3 3 (by omega))
  norm_num only at h0 h1 h2
  -- each step is a rise by one or none, and the bounds leave no third one
  have hrise : rise3 fileSize 1 = rise3 fileSize 0 ∨ rise3 fileSize 1 = rise3 fileSize 0 + 1 := by
    omega
  have hrise' : rise3 fileSize 2 = rise3 fileSize 1 ∨ rise3 fileSize 2 = rise3 fileSize 1 + 1 := by
    omega
  have hrise'' : rise3 fileSize 3 = rise3 fileSize 2 ∨ rise3 fileSize 3 = rise3 fileSize 2 + 1 := by
    omega
  rcases hrise with hrise | hrise <;> rcases hrise' with hrise' | hrise' <;>
    rcases hrise'' with hrise'' | hrise'' <;> omega

/-- **The remainders do not all stay small.** -/
theorem not_small (hmin : 8388608 ≤ fileSize) (hmax : fileSize < 2 ^ 63) : ¬ Small fileSize := by
  intro h
  obtain ⟨h0, hle⟩ := h.rise3_zero_le hmin hmax
  rcases Nat.lt_or_ge 120 (rise3 fileSize 0).toNat with hlarge | hsmall
  · exact h.rise3_not_large (by omega) hle
  · have hflat : ∀ j < 164, diff (rise3 fileSize) j = 0 := fun j hj => by
      have heq := h.rise3_flat (j := j) h0 (by omega) (by omega)
      exact h.rise3_stays (by omega) (by omega) (by omega)
    exact absurd (h.wholes_eq_zero hflat) (h.wholes_pos hmin).ne'

/-! ## The loop -/

/-- With a size that is tried, nothing overflows. -/
theorem lastPartSize_tried (h0 : 0 < fileSize) (hmax : fileSize < 2 ^ 63) {j : ℕ} (hj : j ≤ 172) :
    lastPartSize fileSize (tried j) = lasts fileSize j := by
  have htried := tried_eq j
  have hpos : 0 < tried j := by omega
  obtain ⟨hlo, -⟩ := restSize_of_pos fileSize hpos
  have hle := restSize_le hpos h0
  exact int64_of_mem (by omega) (by omega)

theorem lasts_le {j : ℕ} (hj : j ≤ 172) : lasts fileSize j ≤ tried j := by
  have htried := tried_eq j
  exact (restSize_of_pos fileSize (by omega)).2

/-- **The loop ends** at the first size with a last part that is large
enough. -/
theorem adjustChunkSize_tried (h0 : 0 < fileSize) (hmax : fileSize < 2 ^ 63) (n : ℕ) {j : ℕ}
    (hj : j + n ≤ 172) (hn : 8388608 ≤ lasts fileSize (j + n)) :
    ∃ i ≤ 172, adjustChunkSize fileSize (n + 1) (tried j) = some (tried i) ∧
      8388608 ≤ lasts fileSize i := by
  have hmin : (minPartSize : ℤ) = 8388608 := rfl
  induction n generalizing j with
  | zero =>
    refine ⟨j, by omega, ?_, hn⟩
    rw [Nat.add_zero] at hn
    rw [adjustChunkSize, lastPartSize_tried h0 hmax (by omega), if_neg (by omega),
      if_neg (not_lt.mpr (lasts_le (by omega)))]
  | succ n ih =>
    have htried := tried_eq j
    have hnext : int64 (tried j - adjustmentSize) = tried (j + 1) := by
      have hstep := tried_step j
      have htried' := tried_eq (j + 1)
      have hadj : adjustmentSize = 102400 := rfl
      rw [int64_of_mem (by omega) (by omega)]
      omega
    by_cases hsmall : lasts fileSize j < 8388608
    · obtain ⟨i, hi, hloop, hlasts⟩ := ih (j := j + 1) (by omega)
        (by rwa [show j + 1 + n = j + (n + 1) by omega])
      refine ⟨i, hi, ?_, hlasts⟩
      rw [adjustChunkSize, lastPartSize_tried h0 hmax (by omega), if_pos (hmin ▸ hsmall), hnext]
      exact hloop
    · refine ⟨j, by omega, ?_, by omega⟩
      rw [adjustChunkSize, lastPartSize_tried h0 hmax (by omega), if_neg (hmin ▸ hsmall),
        if_neg (not_lt.mpr (lasts_le (by omega)))]

/-- **The computation ends with parts that can be uploaded**, for an
`int64`, if and only if the file is not smaller than the smallest part. -/
theorem calculateChunkSize_usable_iff (h0 : 0 < fileSize) (hmax : fileSize < 2 ^ 63) :
    (∃ fuel c, calculateChunkSize fuel fileSize = some c ∧ Usable fileSize c) ↔
      minPartSize ≤ fileSize := by
  have hmin : (minPartSize : ℤ) = 8388608 := rfl
  constructor
  · rintro ⟨fuel, c, hc, -⟩
    by_contra hsmall
    have hnone := adjustChunkSize_of_small h0 (not_le.mp hsmall) fuel partSize (by decide)
      (by decide)
    exact absurd (hnone.symm.trans hc) (by simp)
  · intro hlarge
    obtain ⟨n, hn, hlasts⟩ : ∃ n ≤ 172, 8388608 ≤ lasts fileSize n := by
      by_contra hnone
      exact not_small (hmin ▸ hlarge) hmax fun j hj => not_le.mp fun hle => hnone ⟨j, hj, hle⟩
    obtain ⟨i, hi, hloop, hlasts⟩ := adjustChunkSize_tried h0 hmax n (j := 0) (by omega)
      (by rwa [Nat.zero_add])
    have htried := tried_eq i
    have hpos : 0 < tried i := by omega
    exact ⟨n + 1, tried i, hloop, hpos, (restSize_of_pos fileSize hpos).2, fun _ => hlasts⟩

/-- The smallest file that goes through. -/
theorem calculateChunkSize_usable_iff_minPart :
    (∃ fuel c, calculateChunkSize fuel 8388608 = some c ∧ Usable 8388608 c) ↔
      (minPartSize : ℤ) ≤ 8388608 :=
  calculateChunkSize_usable_iff (by decide) (by decide)

/-- **A file of one byte**: there is no end to the computation. -/
theorem calculateChunkSize_oneByte :
    ¬ ∃ fuel c, calculateChunkSize fuel 1 = some c ∧ Usable 1 c := by
  rintro ⟨fuel, c, hc, -⟩
  have hone : (0 : ℤ) < 1 := by decide
  have hnone := adjustChunkSize_of_small hone (by decide) fuel partSize (by decide) (by decide)
  exact absurd (hnone.symm.trans hc) (by simp)

end Rbdeal

end Ribs
