import Mathlib.Data.List.Basic
import Mathlib.Tactic.Linarith
/-!
# Cutting a list into chunks

`chunks n l` cuts `l` into pieces of `n` elements, the last one possibly
shorter.
-/

namespace Common

variable {α β : Type}

/-- The chunks of a list of at most `fuel` elements. -/
def chunksAux (n : ℕ) : ℕ → List α → List (List α)
  | _, [] => []
  | 0, _ :: _ => []
  | fuel + 1, l@(_ :: _) => l.take n :: chunksAux n fuel (l.drop n)

/-- **The pieces of `n` elements** of a list. -/
def chunks (n : ℕ) (l : List α) : List (List α) := chunksAux n l.length l

@[simp] theorem chunks_nil (n : ℕ) : chunks n ([] : List α) = [] := rfl

theorem chunksAux_eq {n : ℕ} (hn : 0 < n) {fuel : ℕ} {l : List α} (h : l.length ≤ fuel) :
    chunksAux n fuel l = chunks n l := by
  induction fuel using Nat.strongRecOn generalizing l with
  | ind fuel ih =>
    cases l with
    | nil => cases fuel <;> rfl
    | cons a l =>
      cases fuel with
      | zero => simp at h
      | succ fuel =>
        simp only [chunks, List.length_cons, chunksAux]
        have hdrop : ((a :: l).drop n).length ≤ l.length := by
          rw [List.length_drop, List.length_cons]; omega
        simp only [List.length_cons] at h
        rw [ih fuel (by omega) (by omega)]
        rcases Nat.lt_or_ge l.length (fuel + 1) with hlt | hge
        · rw [ih l.length hlt hdrop]
        · omega

/-- The chunks of a list, the first one off. -/
theorem chunks_of_ne_nil {n : ℕ} (hn : 0 < n) {l : List α} (hl : l ≠ []) :
    chunks n l = l.take n :: chunks n (l.drop n) := by
  cases l with
  | nil => exact absurd rfl hl
  | cons a l =>
    have hdrop : ((a :: l).drop n).length ≤ l.length := by
      rw [List.length_drop, List.length_cons]; omega
    rw [chunks, List.length_cons, chunksAux, chunksAux_eq hn hdrop]

/-- Induction along the chunks of a list. -/
theorem chunks_induction {n : ℕ} (hn : 0 < n) {P : List α → Prop} (nil : P [])
    (step : ∀ l, l ≠ [] → P (l.drop n) → P l) (l : List α) : P l := by
  induction hm : l.length using Nat.strongRecOn generalizing l with
  | ind m ih =>
    by_cases hl : l = []
    · exact hl ▸ nil
    · have hpos := List.length_pos_iff.mpr hl
      exact step l hl (ih (l.drop n).length (by rw [List.length_drop]; omega) _ rfl)

/-- **Nothing is lost**, and the order is kept. -/
theorem flatten_chunks {n : ℕ} (hn : 0 < n) (l : List α) : (chunks n l).flatten = l := by
  induction l using chunks_induction hn with
  | nil => rfl
  | step l hl ih => rw [chunks_of_ne_nil hn hl, List.flatten_cons, ih, List.take_append_drop]

theorem length_le_of_mem_chunks {n : ℕ} (hn : 0 < n) {l c : List α} (hc : c ∈ chunks n l) :
    c.length ≤ n := by
  induction l using chunks_induction hn with
  | nil => simp at hc
  | step l hl ih =>
    rw [chunks_of_ne_nil hn hl, List.mem_cons] at hc
    rcases hc with rfl | hc
    · simp
    · exact ih hc

theorem ne_nil_of_mem_chunks {n : ℕ} (hn : 0 < n) {l c : List α} (hc : c ∈ chunks n l) :
    c ≠ [] := by
  induction l using chunks_induction hn with
  | nil => simp at hc
  | step l hl ih =>
    rw [chunks_of_ne_nil hn hl, List.mem_cons] at hc
    rcases hc with rfl | hc
    · rw [← List.length_pos_iff, List.length_take]
      have := List.length_pos_iff.mpr hl
      omega
    · exact ih hc

/-- Chunks of more than one element are fewer than the elements. -/
theorem length_chunks_lt {n : ℕ} (hn : 1 < n) {l : List α} (hl : 1 < l.length) :
    (chunks n l).length < l.length := by
  have hle : ∀ l : List α, (chunks n l).length ≤ l.length := fun l => by
    induction l using chunks_induction (Nat.zero_lt_of_lt hn) with
    | nil => simp
    | step l hl ih =>
      rw [chunks_of_ne_nil (Nat.zero_lt_of_lt hn) hl, List.length_cons]
      rw [List.length_drop] at ih
      have := List.length_pos_iff.mpr hl
      omega
  have hne : l ≠ [] := by rintro rfl; simp at hl
  rw [chunks_of_ne_nil (Nat.zero_lt_of_lt hn) hne, List.length_cons]
  have := hle (l.drop n)
  rw [List.length_drop] at this
  omega

theorem chunks_ne_nil {n : ℕ} (hn : 0 < n) {l : List α} (hl : l ≠ []) : chunks n l ≠ [] := by
  rw [chunks_of_ne_nil hn hl]
  exact List.cons_ne_nil _ _

/-- **What fills its chunks** is cut by itself. -/
theorem chunks_append {n : ℕ} (hn : 0 < n) {l l' : List α} (h : n ∣ l.length) :
    chunks n (l ++ l') = chunks n l ++ chunks n l' := by
  induction l using chunks_induction hn with
  | nil => rfl
  | step l hl ih =>
    have hpos := List.length_pos_iff.mpr hl
    have hle := Nat.le_of_dvd hpos h
    have hdvd : n ∣ (l.drop n).length := by
      rw [List.length_drop]
      exact Nat.dvd_sub h (Nat.dvd_refl n)
    rw [chunks_of_ne_nil hn (List.append_ne_nil_of_left_ne_nil hl _), chunks_of_ne_nil hn hl,
      List.take_append_of_le_length hle, List.drop_append_of_le_length hle, ih hdvd,
      List.cons_append]

/-- **How many pieces there are**: all but the last are full. -/
theorem length_le_chunks {n : ℕ} (hn : 0 < n) (l : List α) :
    l.length ≤ (chunks n l).length * n := by
  induction l using chunks_induction hn with
  | nil => exact Nat.zero_le _
  | step l hl ih =>
    rw [List.length_drop] at ih
    rw [chunks_of_ne_nil hn hl, List.length_cons, Nat.succ_mul]
    omega

theorem chunks_length_lt {n : ℕ} (hn : 0 < n) {l : List α} (hl : l ≠ []) :
    ((chunks n l).length - 1) * n < l.length := by
  induction l using chunks_induction hn with
  | nil => exact absurd rfl hl
  | step l hl ih =>
    have hpos := List.length_pos_iff.mpr hl
    rw [chunks_of_ne_nil hn hl, List.length_cons, Nat.add_sub_cancel]
    by_cases hrest : l.drop n = []
    · rw [hrest, chunks_nil, List.length_nil, Nat.zero_mul]
      exact hpos
    · have hmore := ih hrest
      have hne := List.length_pos_iff.mpr (chunks_ne_nil hn hrest)
      rw [List.length_drop] at hmore
      rw [Nat.sub_mul, Nat.one_mul] at hmore
      have hone : n ≤ (chunks n (l.drop n)).length * n := Nat.le_mul_of_pos_left n hne
      omega

/-- Cutting commutes with mapping. -/
theorem chunks_map {n : ℕ} (hn : 0 < n) (f : α → β) (l : List α) :
    chunks n (l.map f) = (chunks n l).map (List.map f) := by
  induction l using chunks_induction hn with
  | nil => rfl
  | step l hl ih =>
    rw [chunks_of_ne_nil hn hl, chunks_of_ne_nil hn (by simpa using hl), List.map_cons,
      ← List.map_drop, ih, List.map_take]

/-- So many lists of one length. -/
theorem length_flatten_of_forall {n : ℕ} {cs : List (List α)} (h : ∀ c ∈ cs, c.length = n) :
    cs.flatten.length = cs.length * n := by
  induction cs with
  | nil => simp
  | cons c cs ih =>
    obtain ⟨hc, hcs⟩ := List.forall_mem_cons.mp h
    rw [List.flatten_cons, List.length_append, hc, ih hcs, List.length_cons, Nat.succ_mul]
    omega

/-- Lists of one length are taken and dropped as a whole. -/
theorem take_drop_flatten_of_forall {n : ℕ} {cs : List (List α)} (h : ∀ c ∈ cs, c.length = n)
    {i : ℕ} (hi : i ≤ cs.length) :
    cs.flatten.take (i * n) = (cs.take i).flatten ∧
      cs.flatten.drop (i * n) = (cs.drop i).flatten := by
  have hlen : (cs.take i).flatten.length = i * n := by
    rw [length_flatten_of_forall fun c hc => h c (List.mem_of_mem_take hc), List.length_take,
      Nat.min_eq_left hi]
  have hsplit : cs.flatten = (cs.take i).flatten ++ (cs.drop i).flatten := by
    rw [← List.flatten_append, List.take_append_drop]
  rw [hsplit, ← hlen]
  exact ⟨List.take_left, List.drop_left⟩

end Common
