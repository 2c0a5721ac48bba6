import Ribs.Common.Chunks
/-!
# Merkle trees

The root of a full binary tree over a list of leaves. A tree whose leaves
are the roots of trees of one height has the root of the tree over all of
their leaves.
-/

namespace Common

namespace Merkle

variable {α : Type} [Inhabited α] {node : α → α → α}

/-- **The root of the tree** of height `k` over `2 ^ k` leaves. -/
def root (node : α → α → α) : ℕ → List α → α
  | 0, l => l.headI
  | k + 1, l => node (root node k (l.take (2 ^ k))) (root node k (l.drop (2 ^ k)))

@[simp] theorem root_singleton (a : α) : root node 0 [a] = a := rfl

/-- What every node has, the root of a tree with a node has. -/
theorem root_of_node {P : α → Prop} (h : ∀ a b, P (node a b)) {k : ℕ} (hk : 0 < k) (l : List α) :
    P (root node k l) := by
  cases k with
  | zero => exact absurd hk (Nat.lt_irrefl 0)
  | succ k => exact h _ _

/-- **A tree of trees**: the root over the roots of `2 ^ m` trees of height
`k` is the root over all of their leaves. -/
theorem root_flatten {k m : ℕ} {cs : List (List α)} (hlen : cs.length = 2 ^ m)
    (h : ∀ c ∈ cs, c.length = 2 ^ k) :
    root node (k + m) cs.flatten = root node m (cs.map (root node k)) := by
  induction m generalizing cs with
  | zero =>
    obtain ⟨c, rfl⟩ := List.length_eq_one_iff.mp hlen
    simp
  | succ m ih =>
    have hle : 2 ^ m ≤ cs.length := by rw [hlen, Nat.pow_succ]; omega
    have hpow : 2 ^ (k + m) = 2 ^ m * 2 ^ k := by rw [Nat.pow_add, Nat.mul_comm]
    obtain ⟨htake, hdrop⟩ := take_drop_flatten_of_forall h hle
    rw [← Nat.add_assoc, root, root, hpow, htake, hdrop, ← List.map_take, ← List.map_drop]
    congr 1
    · refine ih ?_ fun c hc => h c (List.mem_of_mem_take hc)
      rw [List.length_take, Nat.min_eq_left hle]
    · refine ih ?_ fun c hc => h c (List.mem_of_mem_drop hc)
      rw [List.length_drop, hlen, Nat.pow_succ]
      omega

end Merkle

end Common
