import Mathlib.Data.Nat.Basic
import Mathlib.Data.List.Basic
import Mathlib.Tactic.Ring
/-!
# Unsigned varints

Base-128 little-endian integers of at most 64 bits: seven bits a byte,
the high bit set on every byte but the last. A written integer is read
back, whatever follows it, and leaves what follows it.
-/

namespace Common

abbrev Bytes := List UInt8

/-- The most bytes a 64-bit varint takes. -/
def maxVarintLen64 : ℕ := 10

/-- The varint of `x`, in at most `k` bytes. -/
def putUvarintAux : ℕ → ℕ → Bytes
  | 0, _ => []
  | k + 1, x =>
    if x < 0x80 then [x.toUInt8] else (x % 0x80 + 0x80).toUInt8 :: putUvarintAux k (x / 0x80)

/-- The varint of a 64-bit integer. -/
def putUvarint (x : ℕ) : Bytes := putUvarintAux maxVarintLen64 x

/-- Why reading a varint fails. -/
inductive VarintError where
  | eof
  | overflow
deriving DecidableEq, Repr

/-- Read a varint of at most `k` bytes; the last of them may hold one bit. -/
def readUvarintAux : ℕ → Bytes → Except VarintError (ℕ × Bytes)
  | 0, _ => .error .overflow
  | _ + 1, [] => .error .eof
  | k + 1, b :: rest =>
    if b.toNat < 0x80 then
      if k = 0 ∧ 1 < b.toNat then .error .overflow else .ok (b.toNat, rest)
    else
      match readUvarintAux k rest with
      | .ok (x, rest) => .ok (b.toNat - 0x80 + 0x80 * x, rest)
      | .error e => .error e

/-- Read a 64-bit varint, and what follows it. -/
def readUvarint (bs : Bytes) : Except VarintError (ℕ × Bytes) := readUvarintAux maxVarintLen64 bs

theorem toNat_toUInt8_of_lt {n : ℕ} (h : n < 256) : n.toUInt8.toNat = n := by
  simp [Nat.mod_eq_of_lt h]

theorem putUvarintAux_ne_nil {k x : ℕ} : putUvarintAux (k + 1) x ≠ [] := by
  rw [putUvarintAux]
  split <;> simp

/-- A varint has a byte. -/
theorem putUvarint_ne_nil {x : ℕ} : putUvarint x ≠ [] := putUvarintAux_ne_nil

theorem length_putUvarint_pos {x : ℕ} : 0 < (putUvarint x).length :=
  List.length_pos_of_ne_nil putUvarint_ne_nil

theorem length_putUvarintAux_le (k x : ℕ) : (putUvarintAux k x).length ≤ k := by
  induction k generalizing x with
  | zero => simp [putUvarintAux]
  | succ k ih =>
    rw [putUvarintAux]
    split
    · simp
    · simpa using ih (x / 0x80)

/-- And at most ten. -/
theorem length_putUvarint_le (x : ℕ) : (putUvarint x).length ≤ maxVarintLen64 :=
  length_putUvarintAux_le _ x

/-- A number of `7 * k` bits takes at most `k` bytes. -/
theorem length_putUvarintAux_le_of_lt {k n x : ℕ} (hx : x < 128 ^ (k + 1)) :
    (putUvarintAux n x).length ≤ k + 1 := by
  induction k generalizing n x with
  | zero =>
    cases n with
    | zero => simp [putUvarintAux]
    | succ n => rw [putUvarintAux, if_pos (by omega)]; simp
  | succ k ih =>
    cases n with
    | zero => simp [putUvarintAux]
    | succ n =>
      rw [putUvarintAux]
      split
      · simp
      · have hdiv : x / 0x80 < 128 ^ (k + 1) :=
          Nat.div_lt_of_lt_mul (by rw [pow_succ] at hx; omega)
        simpa using ih hdiv

theorem lt_of_length_putUvarintAux_le {k n x : ℕ} (hn : n < k) (h : (putUvarintAux k x).length ≤ n) :
    x < 128 ^ n := by
  induction k generalizing n x with
  | zero => omega
  | succ k ih =>
    obtain ⟨n, rfl⟩ : ∃ m, n = m + 1 := by
      have hpos := List.length_pos_of_ne_nil (putUvarintAux_ne_nil (k := k) (x := x))
      exact ⟨n - 1, by omega⟩
    rw [putUvarintAux] at h
    split_ifs at h with hsmall
    · calc x < 128 ^ 1 := hsmall
        _ ≤ 128 ^ (n + 1) := Nat.pow_le_pow_right (by omega) (by omega)
    · have hdiv := ih (n := n) (by omega) (by simpa using h)
      rw [pow_succ]
      omega

/-- A number whose varint is short is small. -/
theorem lt_of_length_putUvarint_le {n x : ℕ} (hn : n < maxVarintLen64)
    (h : (putUvarint x).length ≤ n) : x < 128 ^ n :=
  lt_of_length_putUvarintAux_le hn h

/-- Reading what was written: `k + 1` bytes hold the numbers below `2 * 128 ^ k`. -/
theorem readUvarintAux_putUvarintAux (k x : ℕ) (rest : Bytes) (hx : x < 2 * 128 ^ k) :
    readUvarintAux (k + 1) (putUvarintAux (k + 1) x ++ rest) = .ok (x, rest) := by
  induction k generalizing x with
  | zero =>
    have hlt : x < 0x80 := by simp only [pow_zero] at hx; omega
    have hval : x.toUInt8.toNat = x := toNat_toUInt8_of_lt (by omega)
    rw [putUvarintAux, if_pos hlt]
    simp only [List.cons_append, List.nil_append, readUvarintAux, hval, if_pos hlt]
    rw [if_neg (by simp only [pow_zero] at hx; omega)]
  | succ k ih =>
    rw [putUvarintAux]
    by_cases hlt : x < 0x80
    · have hval : x.toUInt8.toNat = x := toNat_toUInt8_of_lt (by omega)
      rw [if_pos hlt]
      simp only [List.cons_append, List.nil_append, readUvarintAux, hval, if_pos hlt]
      rw [if_neg (by omega)]
    · have hval : (x % 0x80 + 0x80).toUInt8.toNat = x % 0x80 + 0x80 :=
        toNat_toUInt8_of_lt (by omega)
      have hdiv : x / 0x80 < 2 * 128 ^ k :=
        Nat.div_lt_of_lt_mul (by rw [pow_succ] at hx; omega)
      rw [if_neg hlt, List.cons_append, readUvarintAux, hval, if_neg (by omega), ih _ hdiv]
      simp only [Except.ok.injEq, Prod.mk.injEq, and_true]
      omega

/-- **A written varint is read back**, and what follows it is left. -/
@[simp] theorem readUvarint_putUvarint {x : ℕ} (hx : x < 2 ^ 64) (rest : Bytes) :
    readUvarint (putUvarint x ++ rest) = .ok (x, rest) :=
  readUvarintAux_putUvarintAux 9 x rest (by norm_num at hx ⊢; exact hx)

theorem length_lt_of_readUvarintAux {k x : ℕ} {bs rest : Bytes}
    (h : readUvarintAux k bs = .ok (x, rest)) : rest.length < bs.length := by
  induction k generalizing bs x with
  | zero => simp [readUvarintAux] at h
  | succ k ih =>
    cases bs with
    | nil => simp [readUvarintAux] at h
    | cons b bs =>
      rw [readUvarintAux] at h
      split_ifs at h
      · obtain ⟨-, rfl⟩ := Prod.mk.inj (Except.ok.inj h)
        simp
      · rcases hread : readUvarintAux k bs with e | ⟨y, rest'⟩ <;> simp only [hread] at h
        · cases h
        · obtain ⟨-, rfl⟩ := Prod.mk.inj (Except.ok.inj h)
          have := ih hread
          rw [List.length_cons]
          omega

/-- Reading takes a byte at least. -/
theorem length_lt_of_readUvarint {x : ℕ} {bs rest : Bytes} (h : readUvarint bs = .ok (x, rest)) :
    rest.length < bs.length := length_lt_of_readUvarintAux h

@[simp] theorem readUvarint_nil : readUvarint [] = .error .eof := rfl

/-- Varints are prefix-free: the number and what follows it are determined. -/
theorem putUvarint_append_inj {x y : ℕ} {a b : Bytes} (hx : x < 2 ^ 64) (hy : y < 2 ^ 64)
    (h : putUvarint x ++ a = putUvarint y ++ b) : x = y ∧ a = b := by
  have hread := readUvarint_putUvarint hx a
  rw [h, readUvarint_putUvarint hy b] at hread
  simpa [eq_comm] using hread

theorem eq_putUvarintAux_of_readUvarintAux {k x : ℕ} {bs rest : Bytes}
    (h : readUvarintAux k bs = .ok (x, rest)) (hlen : bs.length ≤ (putUvarintAux k x).length) :
    bs = putUvarintAux k x := by
  induction k generalizing bs x with
  | zero => simp [readUvarintAux] at h
  | succ k ih =>
    cases bs with
    | nil => simp [readUvarintAux] at h
    | cons b bs =>
      rw [readUvarintAux] at h
      rw [putUvarintAux] at hlen ⊢
      split_ifs at h with hb hover
      · obtain ⟨rfl, -⟩ := Prod.mk.inj (Except.ok.inj h)
        rw [if_pos hb] at hlen ⊢
        have hnil : bs = [] := by simpa using hlen
        rw [hnil]
        simp
      · rcases hread : readUvarintAux k bs with e | ⟨y, rest'⟩ <;> simp only [hread] at h
        · cases h
        · obtain ⟨rfl, rfl⟩ := Prod.mk.inj (Except.ok.inj h)
          have hlt := b.toNat_lt
          have hmod : (b.toNat - 0x80 + 0x80 * y) % 0x80 = b.toNat - 0x80 := by omega
          have hdiv : (b.toNat - 0x80 + 0x80 * y) / 0x80 = y := by omega
          have hbyte : (b.toNat - 0x80 + 0x80).toUInt8 = b := by
            rw [Nat.sub_add_cancel (Nat.not_lt.mp hb)]
            simp
          rw [hmod, hdiv, hbyte] at hlen ⊢
          split_ifs at hlen ⊢ with hsmall
          · have hnil : bs = [] := by simpa using hlen
            rw [hnil] at hread
            cases k <;> simp [readUvarintAux] at hread
          · rw [← ih hread (by simpa using hlen)]

/-- **A varint is the shortest** that is read as its number, and the only
one of its length. -/
theorem eq_putUvarint_of_readUvarint {x : ℕ} {bs rest : Bytes} (h : readUvarint bs = .ok (x, rest))
    (hlen : bs.length ≤ (putUvarint x).length) : bs = putUvarint x :=
  eq_putUvarintAux_of_readUvarintAux h hlen

end Common
