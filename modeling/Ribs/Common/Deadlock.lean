import Mathlib.Data.Set.Basic
import Mathlib.Order.WellFounded
/-!
# Deadlocks

Parties that wait for one another: a set of them is stuck if each of its
members waits for another one of it. Where every party waits for such of a
lower rank only, none is.
-/

namespace Common

variable {ι : Type} {waits : ι → ι → Prop} {S : Set ι}

/-- Each of the set waits for another one of it. -/
def Stuck (waits : ι → ι → Prop) (S : Set ι) : Prop :=
  S.Nonempty ∧ ∀ i ∈ S, ∃ j ∈ S, j ≠ i ∧ waits i j

/-- **A rank rules deadlocks out.** -/
theorem not_stuck_of_rank {rank : ι → ℕ} (h : ∀ i j, waits i j → rank j < rank i) :
    ¬ Stuck waits S := by
  rintro ⟨hS, hwaits⟩
  -- the one of the lowest rank waits for none
  obtain ⟨i, hi, hmin⟩ := WellFounded.has_min (measure rank).wf S hS
  obtain ⟨j, hj, -, hij⟩ := hwaits i hi
  exact hmin j hj (h i j hij)

/-- Two that wait for each other are stuck. -/
theorem stuck_pair {i j : ι} (hij : i ≠ j) (h : waits i j) (h' : waits j i) :
    Stuck waits {i, j} := by
  refine ⟨⟨i, Set.mem_insert ..⟩, ?_⟩
  rintro k (rfl | rfl)
  · exact ⟨j, Set.mem_insert_of_mem _ rfl, hij.symm, h⟩
  · exact ⟨i, Set.mem_insert .., hij, h'⟩

end Common
