import Mathlib.Algebra.Group.ForwardDiff
import Mathlib.Data.Int.Order.Lemmas
import Mathlib.Tactic.LinearCombination
import Mathlib.Tactic.Ring
/-!
# Division by an arithmetic progression

A number is divided by the terms `c 0`, `c 1`, … of a progression that
falls by `a` at each step. Quotients and remainders determine each other
through their differences, at every order: this is what keeps remainders
from staying small for long.
-/

namespace Common

variable {c x y z f : ℕ → ℤ} {a B k : ℤ} {L m : ℕ}

/-- The step of a sequence. -/
abbrev diff (f : ℕ → ℤ) : ℕ → ℤ := fwdDiff 1 f

theorem diff_apply (f : ℕ → ℤ) (j : ℕ) : diff f j = f (j + 1) - f j := rfl

/-- **The first order**: how a quotient grows, by the remainders. -/
theorem diff_quotient {s : ℤ} (hc : ∀ j, c j = c (j + 1) + a) (h : ∀ j, x j * c j + z j = s)
    (j : ℕ) : diff x j * c (j + 1) = 1 * a * x j - diff z j := by
  simp only [diff_apply]
  linear_combination h (j + 1) - h j + x j * hc j

/-- **From one order to the next.** -/
theorem diff_level (hc : ∀ j, c j = c (j + 1) + a)
    (h : ∀ j, diff y j * c (j + m) = k * a * y j - z j) (j : ℕ) :
    diff (diff y) j * c (j + (m + 1)) = (k + 1) * a * diff y j - diff z j := by
  have hnext : diff y (j + 1) * c (j + (m + 1)) = k * a * y (j + 1) - z (j + 1) := by
    rw [show j + (m + 1) = j + 1 + m by omega]
    exact h (j + 1)
  have hcj : c (j + m) = c (j + (m + 1)) + a := hc (j + m)
  rw [diff_apply (diff y), diff_apply z]
  linear_combination hnext - h j + diff y j * hcj - k * a * diff_apply y j

/-- Differences are at most twice as large. -/
theorem abs_diff_lt (h : ∀ j ≤ L + 1, |f j| < B) : ∀ j ≤ L, |diff f j| < 2 * B := by
  intro j hj
  have h0 := abs_lt.mp (h j (by omega))
  have h1 := abs_lt.mp (h (j + 1) (by omega))
  rw [diff_apply, abs_lt]
  omega

theorem eq_of_diff_eq_zero (h : ∀ j < L, diff y j = 0) : ∀ j ≤ L, y j = y 0 := by
  intro j hj
  induction j with
  | zero => rfl
  | succ j ih =>
    have hstep := h j (by omega)
    rw [diff_apply] at hstep
    rw [← ih (by omega)]
    omega

/-- A sequence that rises by `a` each time does so `L` times. -/
theorem eq_of_diff_eq (h : ∀ j < L, diff z j = a) : ∀ j ≤ L, z j = z 0 + j * a := by
  intro j hj
  induction j with
  | zero => simp
  | succ j ih =>
    have hstep := h j (by omega)
    rw [diff_apply] at hstep
    push_cast
    linear_combination hstep + ih (by omega)

/-- **A sequence with bounded values does not rise for long.** -/
theorem eq_zero_of_rises (hz : ∀ j ≤ L, |z j| < B) (h : ∀ j < L, diff z j = k * x 0)
    (hL : 2 * B ≤ L * k) : x 0 = 0 := by
  have hend := eq_of_diff_eq h L le_rfl
  have h0 := abs_lt.mp (hz 0 (Nat.zero_le L))
  have h1 := abs_lt.mp (hz L le_rfl)
  have hB : 0 < B := by omega
  rcases lt_trichotomy (x 0) 0 with hneg | hzero | hpos
  · have hmul : L * k * x 0 ≤ 2 * B * -1 := by nlinarith
    have hassoc : (L : ℤ) * (k * x 0) = L * k * x 0 := (mul_assoc _ _ _).symm
    omega
  · exact hzero
  · have hmul : 2 * B * 1 ≤ L * k * x 0 := by nlinarith
    have hassoc : (L : ℤ) * (k * x 0) = L * k * x 0 := (mul_assoc _ _ _).symm
    omega

/-- **A flat order is null**, where the order below it is bounded. -/
theorem flat_eq_zero (h : ∀ j, diff y j * c (j + m) = k * a * y j - diff z j)
    (hz : ∀ j ≤ L, |z j| < B) (hflat : ∀ j < L, diff y j = 0) (hL : 2 * B ≤ L * (k * a)) :
    ∀ j ≤ L, y j = 0 := by
  have hconst := eq_of_diff_eq_zero hflat
  have h0 : y 0 = 0 := by
    refine eq_zero_of_rises hz (fun j hj => ?_) hL
    have hj' := h j
    rw [hflat j hj, hconst j (by omega)] at hj'
    linear_combination hj'
  exact fun j hj => (hconst j hj).trans h0

end Common
