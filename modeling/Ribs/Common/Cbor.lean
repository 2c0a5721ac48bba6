import Ribs.Common.Endian
/-!
# CBOR heads

A CBOR item starts with a head: a major type, and a number in the fewest
bytes that hold it. A head is read back, whatever follows it. `expect`
reads what has to stand there.
-/

namespace Common

/-- The head of major type `major` with the number `n`. -/
def cborHead (major n : ℕ) : Bytes :=
  if n < 24 then [(32 * major + n).toUInt8]
  else if n < 2 ^ 8 then (32 * major + 24).toUInt8 :: (leBytes 1 n).reverse
  else if n < 2 ^ 16 then (32 * major + 25).toUInt8 :: (leBytes 2 n).reverse
  else if n < 2 ^ 32 then (32 * major + 26).toUInt8 :: (leBytes 4 n).reverse
  else (32 * major + 27).toUInt8 :: (leBytes 8 n).reverse

/-- A text string: its head, and its bytes. -/
def cborText (bytes : Bytes) : Bytes := cborHead 3 bytes.length ++ bytes

/-- The number in the next `k` bytes. -/
def readBe (k : ℕ) (bs : Bytes) : Option (ℕ × Bytes) :=
  if bs.length < k then none else some (beNat (bs.take k), bs.drop k)

/-- The number of a head of major type `major`, and what follows it. -/
def readCborHead (major : ℕ) : Bytes → Option (ℕ × Bytes)
  | [] => none
  | b :: bs =>
    if b.toNat / 32 ≠ major then none
    else
      match b.toNat % 32 with
      | 24 => readBe 1 bs
      | 25 => readBe 2 bs
      | 26 => readBe 4 bs
      | 27 => readBe 8 bs
      | n => if n < 24 then some (n, bs) else none

/-- What follows `lit`, which has to come first. -/
def expect (lit bs : Bytes) : Option Bytes :=
  if bs.take lit.length = lit then some (bs.drop lit.length) else none

/-- The next `n` bytes, and what follows them. -/
def takeBytes (n : ℕ) (bs : Bytes) : Option (Bytes × Bytes) :=
  if bs.length < n then none else some (bs.take n, bs.drop n)

@[simp] theorem expect_append (lit rest : Bytes) : expect lit (lit ++ rest) = some rest := by
  simp [expect]

theorem takeBytes_append {n : ℕ} {bs : Bytes} (h : bs.length = n) (rest : Bytes) :
    takeBytes n (bs ++ rest) = some (bs, rest) := by
  subst h
  simp [takeBytes]

theorem beNat_leBytes_reverse {k n : ℕ} (h : n < 256 ^ k) : beNat (leBytes k n).reverse = n := by
  rw [beNat, List.reverse_reverse, leNat_leBytes h]

theorem readBe_append {k n : ℕ} (h : n < 256 ^ k) (rest : Bytes) :
    readBe k ((leBytes k n).reverse ++ rest) = some (n, rest) := by
  have hlen : (leBytes k n).reverse.length = k := by simp
  rw [readBe, if_neg (by simp), List.take_left' hlen, List.drop_left' hlen,
    beNat_leBytes_reverse h]

/-- **A head is read back.** -/
theorem readCborHead_cborHead {major n : ℕ} (hm : major < 8) (hn : n < 2 ^ 64) (rest : Bytes) :
    readCborHead major (cborHead major n ++ rest) = some (n, rest) := by
  have hbyte : ∀ x, x < 32 → (32 * major + x).toUInt8.toNat = 32 * major + x := fun x hx =>
    toNat_toUInt8_of_lt (by omega)
  have hread : ∀ x, x < 32 → ∀ bs, readCborHead major ((32 * major + x).toUInt8 :: bs) =
      match x with
      | 24 => readBe 1 bs
      | 25 => readBe 2 bs
      | 26 => readBe 4 bs
      | 27 => readBe 8 bs
      | n => if n < 24 then some (n, bs) else none := by
    intro x hx bs
    rw [readCborHead, hbyte x hx, if_neg (by omega), Nat.mul_add_mod, Nat.mod_eq_of_lt hx]
  rw [cborHead]
  split_ifs with h1 h2 h3 h4
  · rw [List.singleton_append, hread n (by omega)]
    split <;> first | omega | simp_all
  · rw [List.cons_append, hread 24 (by omega)]
    exact readBe_append (by omega) rest
  · rw [List.cons_append, hread 25 (by omega)]
    exact readBe_append (by omega) rest
  · rw [List.cons_append, hread 26 (by omega)]
    exact readBe_append (by omega) rest
  · rw [List.cons_append, hread 27 (by omega)]
    exact readBe_append (by omega) rest

/-- The bytes of a head behind its first, as the first says. -/
def cborHeadTail (b : UInt8) : ℕ :=
  match b.toNat % 32 with
  | 24 => 1
  | 25 => 2
  | 26 => 4
  | 27 => 8
  | _ => 0

theorem eq_of_readBe {k n : ℕ} {bs rest : Bytes} (h : readBe k bs = some (n, rest)) :
    n = beNat (bs.take k) ∧ rest = bs.drop k := by
  unfold readBe at h
  split_ifs at h
  obtain ⟨rfl, rfl⟩ := Prod.mk.inj (Option.some.inj h)
  exact ⟨rfl, rfl⟩

/-- **Where a head ends** is said by its first byte. -/
theorem drop_of_readCborHead {major n : ℕ} {b : UInt8} {bs rest : Bytes}
    (h : readCborHead major (b :: bs) = some (n, rest)) :
    b.toNat / 32 = major ∧ rest = bs.drop (cborHeadTail b) := by
  rw [readCborHead] at h
  rw [cborHeadTail]
  split_ifs at h with hmajor
  refine ⟨not_not.mp hmajor, ?_⟩
  split at h
  · exact (eq_of_readBe h).2
  · exact (eq_of_readBe h).2
  · exact (eq_of_readBe h).2
  · exact (eq_of_readBe h).2
  · split_ifs at h
    obtain ⟨-, rfl⟩ := Prod.mk.inj (Option.some.inj h)
    rfl

theorem cborHead_eq_cons {major : ℕ} (hm : major < 8) (n : ℕ) : ∃ b tail,
    cborHead major n = b :: tail ∧ b.toNat / 32 = major ∧ tail.length = cborHeadTail b := by
  have hbyte : ∀ x, x < 32 → (32 * major + x).toUInt8.toNat = 32 * major + x := fun x hx =>
    toNat_toUInt8_of_lt (by omega)
  have hdiv : ∀ x, x < 32 → (32 * major + x).toUInt8.toNat / 32 = major := fun x hx => by
    rw [hbyte x hx]
    omega
  have hmod : ∀ x, x < 32 → (32 * major + x).toUInt8.toNat % 32 = x := fun x hx => by
    rw [hbyte x hx]
    omega
  unfold cborHead cborHeadTail
  split_ifs with h1 h2 h3 h4
  · refine ⟨_, _, rfl, hdiv n (by omega), ?_⟩
    rw [hmod n (by omega)]
    split <;> first | rfl | omega
  · exact ⟨_, _, rfl, hdiv 24 (by omega), by rw [hmod 24 (by omega)]; simp⟩
  · exact ⟨_, _, rfl, hdiv 25 (by omega), by rw [hmod 25 (by omega)]; simp⟩
  · exact ⟨_, _, rfl, hdiv 26 (by omega), by rw [hmod 26 (by omega)]; simp⟩
  · exact ⟨_, _, rfl, hdiv 27 (by omega), by rw [hmod 27 (by omega)]; simp⟩

theorem length_cborHead_pos (major n : ℕ) : 0 < (cborHead major n).length := by
  rw [cborHead]
  split_ifs <;> simp

theorem length_cborHead_le (major n : ℕ) : (cborHead major n).length ≤ 9 := by
  rw [cborHead]
  split_ifs <;> simp

end Common
