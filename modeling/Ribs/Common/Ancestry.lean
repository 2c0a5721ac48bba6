import Mathlib.Logic.Relation
import Mathlib.Data.Nat.Notation
/-!
# Ancestries

Every element has at most one parent, which is lower. The ancestors of an
element are on one line, so two of them can be compared.
-/

namespace Common

/-- **Parents are lower.** -/
structure Ancestry (K : Type) where
  parent : K → Option K
  height : K → ℕ
  height_lt : ∀ {k p}, parent k = some p → height p < height k

namespace Ancestry

variable {K : Type} {T : Ancestry K} {k a b t e : K}

/-- `a` is `k`, or an ancestor of it. -/
def Anc (T : Ancestry K) (k a : K) : Prop := Relation.ReflTransGen (fun k p => T.parent k = some p) k a

/-- `a` is an ancestor of `k`. -/
def Above (T : Ancestry K) (k a : K) : Prop := Relation.TransGen (fun k p => T.parent k = some p) k a

/-- `t` is the highest of `k` and its ancestors that is not above `h`. -/
structure AtOrBelow (T : Ancestry K) (h : ℕ) (k t : K) : Prop where
  anc : T.Anc k t
  le : T.height t ≤ h
  highest : ∀ u, T.Anc k u → T.height u ≤ h → T.height u ≤ T.height t

theorem Anc.refl : T.Anc k k := Relation.ReflTransGen.refl

theorem Anc.trans (h : T.Anc k a) (h' : T.Anc a b) : T.Anc k b := Relation.ReflTransGen.trans h h'

theorem Above.anc (h : T.Above k a) : T.Anc k a := Relation.TransGen.to_reflTransGen h

theorem Above.of_anc (h : T.Anc k a) (h' : T.Above a b) : T.Above k b :=
  Relation.TransGen.trans_right h h'

/-- What no parent has more of, no ancestor has. -/
theorem Anc.le_of_parent {f : K → ℕ} (hf : ∀ k p, T.parent k = some p → f p ≤ f k)
    (h : T.Anc k a) : f a ≤ f k := by
  induction h with
  | refl => exact Nat.le_refl _
  | tail _ hp ih => exact Nat.le_trans (hf _ _ hp) ih

theorem Anc.height_le (h : T.Anc k a) : T.height a ≤ T.height k :=
  h.le_of_parent fun _ _ hp => Nat.le_of_lt (T.height_lt hp)

/-- **Ancestors are on one line.** -/
theorem Anc.total (ha : T.Anc k a) (hb : T.Anc k b) : T.Anc a b ∨ T.Anc b a := by
  refine Relation.ReflTransGen.total_of_right_unique (fun k p q hp hq => ?_) ha hb
  exact Option.some_inj.mp (hp.symm.trans hq)

theorem Anc.above_or (ht : T.Anc k t) (he : T.Anc k e) : T.Above t e ∨ T.Anc e t := by
  rcases ht.total he with h | h
  · rcases Relation.reflTransGen_iff_eq_or_transGen.mp h with rfl | h
    · exact Or.inr .refl
    · exact Or.inl h
  · exact Or.inr h

/-- Below what is above `e` there is a child of `e`. -/
theorem Above.child (h : T.Above k e) : ∃ c, T.Anc k c ∧ T.parent c = some e := by
  obtain ⟨c, hc, hp⟩ := Relation.TransGen.tail'_iff.mp h
  exact ⟨c, hc, hp⟩

end Ancestry

end Common
