import Ribs.Common.Uvarint
import Mathlib.Data.Nat.Bitwise
import Mathlib.Data.BitVec
/-!
# Fixed-width integers as bytes

Little-endian and big-endian integers, and the bits of a little-endian
one.
-/

namespace Common

/-- The `k` low bytes of `n`, the lowest first. -/
def leBytes : ℕ → ℕ → Bytes
  | 0, _ => []
  | k + 1, n => (n % 256).toUInt8 :: leBytes k (n / 256)

/-- The number whose bytes are given, the lowest first. -/
def leNat : Bytes → ℕ
  | [] => 0
  | b :: bs => b.toNat + 256 * leNat bs

/-- The number whose bytes are given, the highest first. -/
def beNat (bs : Bytes) : ℕ := leNat bs.reverse

@[simp] theorem length_leBytes (k n : ℕ) : (leBytes k n).length = k := by
  induction k generalizing n <;> simp [leBytes, *]

theorem leNat_lt (bs : Bytes) : leNat bs < 256 ^ bs.length := by
  induction bs with
  | nil => simp [leNat]
  | cons b bs ih =>
    have hb := b.toNat_lt
    simp only [leNat, List.length_cons, pow_succ]
    omega

/-- **A fixed-width integer is read back.** -/
theorem leNat_leBytes {k n : ℕ} (h : n < 256 ^ k) : leNat (leBytes k n) = n := by
  induction k generalizing n with
  | zero => simp only [pow_zero] at h; simp [leBytes, leNat]; omega
  | succ k ih =>
    have hdiv : n / 256 < 256 ^ k := Nat.div_lt_of_lt_mul (by rw [pow_succ] at h; omega)
    simp only [leBytes, leNat, toNat_toUInt8_of_lt (Nat.mod_lt n (by norm_num)), ih hdiv]
    omega

/-- A bit of a little-endian integer is a bit of the byte it lies in. -/
theorem testBit_leNat (bs : Bytes) (i : ℕ) :
    (leNat bs).testBit i = ((bs[i / 8]?).getD 0).toNat.testBit (i % 8) := by
  induction bs generalizing i with
  | nil => simp [leNat]
  | cons b bs ih =>
    have hb : b.toNat < 2 ^ 8 := b.toNat_lt
    have hsplit : leNat (b :: bs) = 2 ^ 8 * leNat bs + b.toNat := by
      simp only [leNat]; omega
    rw [hsplit, Nat.testBit_two_pow_mul_add _ hb]
    by_cases hi : i < 8
    · rw [if_pos hi, Nat.div_eq_of_lt hi, Nat.mod_eq_of_lt hi]
      simp
    · obtain ⟨j, rfl⟩ := Nat.exists_eq_add_of_le (Nat.not_lt.mp hi)
      rw [if_neg hi, Nat.add_sub_cancel_left, ih, Nat.add_div_left _ (by norm_num),
        Nat.add_mod_left]
      simp

theorem leNat_append (a b : Bytes) : leNat (a ++ b) = leNat a + 256 ^ a.length * leNat b := by
  induction a with
  | nil => simp [leNat]
  | cons x a ih =>
    simp only [List.cons_append, leNat, ih, List.length_cons, pow_succ]
    ring

theorem beNat_cons (b : UInt8) (bs : Bytes) :
    beNat (b :: bs) = b.toNat * 256 ^ bs.length + beNat bs := by
  simp [beNat, leNat_append, leNat]
  ring

theorem beNat_lt (bs : Bytes) : beNat bs < 256 ^ bs.length := by
  simpa [beNat] using leNat_lt bs.reverse

/-- **Byte strings of one length compare as the numbers they start with.** -/
theorem lt_of_beNat_take_lt {a b : Bytes} (hlen : a.length = b.length) {n : ℕ}
    (h : beNat (a.take n) < beNat (b.take n)) : a < b := by
  induction n generalizing a b with
  | zero => simp at h
  | succ n ih =>
    rcases a with _ | ⟨x, a⟩ <;> rcases b with _ | ⟨y, b⟩
    · simp at h
    · simp at hlen
    · simp at hlen
    · simp only [List.length_cons, Nat.add_right_cancel_iff] at hlen
      simp only [List.take_succ_cons, beNat_cons, List.length_take, hlen] at h
      rw [List.cons_lt_cons_iff]
      rcases Nat.lt_trichotomy x.toNat y.toNat with hxy | hxy | hxy
      · exact Or.inl (UInt8.lt_iff_toNat_lt.mpr hxy)
      · exact Or.inr ⟨UInt8.toNat_inj.mp hxy, ih hlen (by rw [hxy] at h; omega)⟩
      · have hb := beNat_lt (b.take n)
        rw [List.length_take] at hb
        have hmul : (y.toNat + 1) * 256 ^ min n b.length ≤ x.toNat * 256 ^ min n b.length :=
          Nat.mul_le_mul_right _ hxy
        rw [Nat.add_mul, Nat.one_mul] at hmul
        omega

end Common
