import Ribs.Common.Chunks
/-!
# Trees whose leaves are equally deep

A tree of height `d + 1` is the list of the trees of height `d` below its
root. Every node has a label: a leaf that of what it holds, any other node
one that is computed from the labels below it. A forest is packed when
each of its layers is the one below, cut into chunks. What the leaves hold
determines a packed forest of a given height, and how many they are
determines the height of one that is not higher than it has to be.
-/

namespace Common

/-- **A tree of height `d`.** -/
def EvenTree (α : Type) : ℕ → Type
  | 0 => α
  | d + 1 => List (EvenTree α d)

namespace EvenTree

variable {α β : Type} {d n : ℕ}

/-- The trees below the root. -/
def trees (t : EvenTree α (d + 1)) : List (EvenTree α d) := t

/-- The tree over them. -/
def ofTrees (ts : List (EvenTree α d)) : EvenTree α (d + 1) := ts

/-- What is below the roots of a forest. -/
def children (ts : List (EvenTree α (d + 1))) : List (EvenTree α d) := ts.flatMap trees

/-- What the leaves hold, from left to right. -/
def leaves : {d : ℕ} → EvenTree α d → List α
  | 0, a => [a]
  | _ + 1, t => (trees t).flatMap leaves

/-- The forest of leaves only. -/
def ofLeaves (as : List α) : List (EvenTree α 0) := as

theorem flatMap_leaves_ofLeaves (as : List α) : (ofLeaves as).flatMap leaves = as := by
  induction as with
  | nil => rfl
  | cons a as ih => exact congrArg (a :: ·) ih

theorem ofLeaves_flatMap_leaves (ts : List (EvenTree α 0)) : ofLeaves (ts.flatMap leaves) = ts :=
  flatMap_leaves_ofLeaves (α := α) ts

/-- What is below a forest is gone through tree by tree. -/
theorem flatMap_children {γ : Type} (f : EvenTree α d → List γ) (ts : List (EvenTree α (d + 1))) :
    (children ts).flatMap f = ts.flatMap fun t => (trees t).flatMap f := List.flatMap_assoc

/-- A forest has the leaves of what is below it. -/
theorem flatMap_leaves_children (ts : List (EvenTree α (d + 1))) :
    (children ts).flatMap leaves = ts.flatMap leaves := flatMap_children leaves ts

/-! ## Labels -/

section

variable (leaf : α → β) (node : List β → β)

/-- The label of the root. -/
def label : {d : ℕ} → EvenTree α d → β
  | 0, a => leaf a
  | _ + 1, t => node ((trees t).map label)

/-- **The labels, depth first**, those of a node in front of those below it. -/
def preorder : {d : ℕ} → EvenTree α d → List β
  | 0, a => [leaf a]
  | d + 1, t => label leaf node (d := d + 1) t :: (trees t).flatMap preorder

/-- The labels of the nodes that are `k` above the leaves. -/
def level (k : ℕ) : {d : ℕ} → EvenTree α d → List β
  | 0, a => if k = 0 then [leaf a] else []
  | d + 1, t =>
    if k = d + 1 then [label leaf node (d := d + 1) t] else (trees t).flatMap (level k)

/-- Those of them that are below the root. -/
def below (k : ℕ) : {d : ℕ} → EvenTree α d → List β
  | 0, _ => []
  | _ + 1, t => (trees t).flatMap (level leaf node k)

variable {leaf node}

/-- There is nothing above the root. -/
theorem level_of_lt {k : ℕ} (t : EvenTree α d) (h : d < k) : level leaf node k t = [] := by
  induction d with
  | zero =>
    have hk : k ≠ 0 := by omega
    simp only [level, if_neg hk]
  | succ d ih =>
    have hk : k ≠ d + 1 := by omega
    rw [level, if_neg hk]
    exact List.flatMap_eq_nil_iff.mpr fun t _ => ih t (by omega)

/-- The root is the only one of its level. -/
theorem level_self (t : EvenTree α d) : level leaf node d t = [label leaf node t] := by
  cases d with
  | zero => rfl
  | succ d => rw [level, if_pos rfl]

theorem below_self (t : EvenTree α d) : below leaf node d t = [] := by
  cases d with
  | zero => rfl
  | succ d => exact List.flatMap_eq_nil_iff.mpr fun t _ => level_of_lt t (Nat.lt_succ_self d)

theorem below_of_ne {k : ℕ} (t : EvenTree α d) (h : k ≠ d) :
    below leaf node k t = level leaf node k t := by
  cases d with
  | zero => rw [level, if_neg h, below]
  | succ d => rw [level, if_neg h, below]

variable (leaf node) in
/-- **The level of a forest** is that of what is below its roots. -/
theorem flatMap_level_children {k : ℕ} (ts : List (EvenTree α (d + 1))) (h : k ≠ d + 1) :
    ts.flatMap (level leaf node k) = (children ts).flatMap (level leaf node k) := by
  rw [flatMap_children]
  exact List.flatMap_congr fun t _ => by rw [level, if_neg h]

variable (leaf node) in
/-- The lowest level are the leaves. -/
theorem flatMap_level_zero (ts : List (EvenTree α d)) :
    ts.flatMap (level leaf node 0) = (ts.flatMap leaves).map leaf := by
  induction d with
  | zero =>
    induction ts with
    | nil => rfl
    | cons t ts ih => exact congrArg (leaf t :: ·) ih
  | succ d ih =>
    rw [flatMap_level_children leaf node ts (by omega), ih, flatMap_leaves_children]

theorem flatMap_level_self (ts : List (EvenTree α d)) :
    ts.flatMap (level leaf node d) = ts.map (label leaf node) := by
  induction ts with
  | nil => rfl
  | cons t ts ih => rw [List.flatMap_cons, ih, level_self, List.map_cons, List.singleton_append]

/-- Every leaf is among the labels. -/
theorem leaf_mem_preorder {a : α} {t : EvenTree α d} (h : a ∈ leaves t) :
    leaf a ∈ preorder leaf node t := by
  induction d with
  | zero =>
    obtain rfl : a = t := List.mem_singleton.mp h
    exact List.mem_singleton_self _
  | succ d ih =>
    obtain ⟨t', ht', ha⟩ := List.mem_flatMap.mp h
    exact List.mem_cons_of_mem _ (List.mem_flatMap.mpr ⟨t', ht', ih ha⟩)

end

/-! ## Branching -/

/-- Every node has something below it, and not more than `n`. -/
def Branching (n : ℕ) : {d : ℕ} → EvenTree α d → Prop
  | 0, _ => True
  | _ + 1, t => trees t ≠ [] ∧ (trees t).length ≤ n ∧ ∀ t' ∈ trees t, Branching n t'

/-- **What holds of the leaves and passes on to the nodes** holds of every
label. -/
theorem forall_preorder {leaf : α → β} {node : List β → β} {P : β → Prop}
    (hnode : ∀ bs, bs ≠ [] → bs.length ≤ n → (∀ b ∈ bs, P b) → P (node bs)) {t : EvenTree α d}
    (ht : Branching n t) (hleaf : ∀ a ∈ leaves t, P (leaf a)) :
    P (label leaf node t) ∧ ∀ b ∈ preorder leaf node t, P b := by
  induction d with
  | zero =>
    have h0 : P (leaf t) := hleaf t (List.mem_singleton_self t)
    exact ⟨h0, fun b hb => by rwa [List.mem_singleton.mp hb]⟩
  | succ d ih =>
    obtain ⟨hne, hlen, hall⟩ := ht
    have hbelow : ∀ t' ∈ trees t, P (label leaf node t') ∧
        ∀ b ∈ preorder leaf node t', P b := fun t' ht' =>
      ih (hall t' ht') fun a ha => hleaf a (List.mem_flatMap.mpr ⟨t', ht', ha⟩)
    have hroot : P (label leaf node (d := d + 1) t) := by
      refine hnode _ (fun hnil => hne (List.map_eq_nil_iff.mp hnil)) ?_ fun b hb => ?_
      · rwa [List.length_map]
      · obtain ⟨t', ht', rfl⟩ := List.mem_map.mp hb
        exact (hbelow t' ht').1
    refine ⟨hroot, fun b hb => ?_⟩
    rcases List.mem_cons.mp hb with rfl | hb
    · exact hroot
    · obtain ⟨t', ht', hb'⟩ := List.mem_flatMap.mp hb
      exact (hbelow t' ht').2 b hb'

/-! ## Packed forests -/

/-- **Every layer is the one below, cut into chunks** of `n`. -/
def Packed (n : ℕ) : {d : ℕ} → List (EvenTree α d) → Prop
  | 0, _ => True
  | _ + 1, ts => ts = chunks n (children ts) ∧ Packed n (children ts)

/-- A layer above a packed forest. -/
def grow (n : ℕ) (ts : List (EvenTree α d)) : List (EvenTree α (d + 1)) := chunks n ts

theorem children_grow (hn : 0 < n) (ts : List (EvenTree α d)) : children (grow n ts) = ts := by
  have hchunks : children (grow n ts) = (chunks n ts).flatten := List.flatMap_id
  rw [hchunks, flatten_chunks hn]

theorem packed_grow (hn : 0 < n) {ts : List (EvenTree α d)} (h : Packed n ts) :
    Packed n (grow n ts) := by
  refine ⟨?_, ?_⟩
  · rw [children_grow hn]
    rfl
  · rwa [children_grow hn]

/-- What fills its trees keeps them when a last tree comes behind it. -/
theorem grow_append (hn : 0 < n) {ts us : List (EvenTree α d)} (hts : n ∣ ts.length) (hne : us ≠ [])
    (hle : us.length ≤ n) : grow n (ts ++ us) = grow n ts ++ [ofTrees us] := by
  have hlast : chunks n us = [us] := by
    rw [chunks_of_ne_nil hn hne, List.take_of_length_le hle, List.drop_eq_nil_of_le hle, chunks_nil]
  exact (chunks_append hn hts).trans (congrArg (chunks n ts ++ ·) hlast)

/-- **The leaves determine the forest.** -/
theorem Packed.ext {ts us : List (EvenTree α d)} (hts : Packed n ts) (hus : Packed n us)
    (h : ts.flatMap leaves = us.flatMap leaves) : ts = us := by
  induction d with
  | zero => rw [← ofLeaves_flatMap_leaves ts, h, ofLeaves_flatMap_leaves]
  | succ d ih =>
    obtain ⟨hts, hchildren⟩ := hts
    obtain ⟨hus, hchildren'⟩ := hus
    rw [← flatMap_leaves_children, ← flatMap_leaves_children] at h
    rw [hts, hus, ih hchildren hchildren' h]

/-- A node has something below it, and not too much. -/
theorem Packed.node (hn : 0 < n) {ts : List (EvenTree α (d + 1))} (h : Packed n ts)
    {t : List (EvenTree α d)} (ht : t ∈ ts) : t ≠ [] ∧ t.length ≤ n := by
  have hmem : t ∈ chunks n (children ts) := by
    have := h.1
    rwa [← this]
  exact ⟨ne_nil_of_mem_chunks hn hmem, length_le_of_mem_chunks hn hmem⟩

/-- The trees of a packed forest branch as they should. -/
theorem Packed.branching (hn : 0 < n) {ts : List (EvenTree α d)} (h : Packed n ts) :
    ∀ t ∈ ts, Branching n t := by
  induction d with
  | zero => exact fun _ _ => trivial
  | succ d ih =>
    intro t ht
    obtain ⟨hne, hlen⟩ := h.node hn ht
    exact ⟨hne, hlen, fun t' ht' => ih h.2 t' (List.mem_flatMap.mpr ⟨t, ht, ht'⟩)⟩

/-- **How many leaves a packed forest has**: all its trees but the last are
full. -/
theorem Packed.count (hn : 0 < n) {ts : List (EvenTree α d)} (h : Packed n ts) :
    (ts.flatMap leaves).length ≤ ts.length * n ^ d ∧
      (ts ≠ [] → (ts.length - 1) * n ^ d < (ts.flatMap leaves).length) := by
  induction d with
  | zero =>
    have hlen : (ts.flatMap leaves).length = ts.length :=
      congrArg List.length (ofLeaves_flatMap_leaves ts)
    rw [pow_zero, Nat.mul_one, Nat.mul_one, hlen]
    refine ⟨le_rfl, fun hne => ?_⟩
    have hpos := List.length_pos_iff.mpr hne
    omega
  | succ d ih =>
    obtain ⟨hle, hlt⟩ := ih h.2
    have hlen : ts.length = (chunks n (children ts)).length := congrArg List.length h.1
    have hle' := length_le_chunks hn (children ts)
    rw [flatMap_leaves_children] at hle hlt
    rw [← hlen] at hle'
    refine ⟨?_, fun hne => ?_⟩
    · calc (ts.flatMap leaves).length ≤ (children ts).length * n ^ d := hle
        _ ≤ ts.length * n * n ^ d := Nat.mul_le_mul_right _ hle'
        _ = ts.length * n ^ (d + 1) := by rw [Nat.pow_succ', Nat.mul_assoc]
    · have hchildren : children ts ≠ [] := by
        intro hnil
        rw [hnil, chunks_nil] at hlen
        exact hne (List.length_eq_zero_iff.mp hlen)
      have hlt' := chunks_length_lt hn hchildren
      rw [← hlen] at hlt'
      calc (ts.length - 1) * n ^ (d + 1) = (ts.length - 1) * n * n ^ d := by
            rw [Nat.pow_succ', Nat.mul_assoc]
        _ ≤ ((children ts).length - 1) * n ^ d := Nat.mul_le_mul_right _ (by omega)
        _ < (ts.flatMap leaves).length := hlt hchildren

/-- **The tree over `as`**: packed, and not higher than it has to be. There
is always a node above the leaves. -/
structure IsTop (n : ℕ) (as : List α) (t : EvenTree α (d + 1)) : Prop where
  leaves : leaves t = as
  packed : Packed n [t]
  least : d = 0 ∨ 1 < (trees t).length

namespace IsTop

variable {as : List α} {t : EvenTree α (d + 1)}

/-- The nodes right below the root. -/
theorem below (h : IsTop n as t) : Packed n (trees t) := by
  have hchildren : children [t] = trees t := List.flatMap_singleton _ _
  have := h.packed.2
  rwa [hchildren] at this

/-- **The height is that of the number of leaves.** -/
theorem height (hn : 0 < n) (h : IsTop n as t) :
    as.length ≤ n ^ (d + 1) ∧ (0 < d → n ^ d < as.length) := by
  have hroot := h.packed.node hn (List.mem_singleton_self t)
  obtain ⟨hle, -⟩ := h.packed.count hn
  obtain ⟨-, hlt⟩ := h.below.count hn
  have hleaves : (List.flatMap EvenTree.leaves [t]).length = as.length := by
    rw [List.flatMap_singleton, h.leaves]
  rw [hleaves, List.length_singleton, Nat.one_mul] at hle
  refine ⟨hle, fun hd => ?_⟩
  have hmany : 1 < (trees t).length := h.least.resolve_left (by omega)
  have hlt' : ((trees t).length - 1) * n ^ d < as.length := by
    have := hlt hroot.1
    rwa [← h.leaves]
  calc n ^ d = 1 * n ^ d := (Nat.one_mul _).symm
    _ ≤ ((trees t).length - 1) * n ^ d := Nat.mul_le_mul_right _ (by omega)
    _ < as.length := hlt'

/-- **There is one such tree only.** -/
theorem unique (hn : 1 < n) {d' : ℕ} {t' : EvenTree α (d' + 1)} (h : IsTop n as t)
    (h' : IsTop n as t') : (⟨d, t⟩ : Σ d, EvenTree α (d + 1)) = ⟨d', t'⟩ := by
  have hpos : 0 < n := by omega
  obtain ⟨hle, hlt⟩ := h.height hpos
  obtain ⟨hle', hlt'⟩ := h'.height hpos
  have heq : d = d' := by
    by_contra hne
    rcases Nat.lt_or_gt_of_ne hne with hlo | hhi
    · have h1 : n ^ (d + 1) ≤ n ^ d' := Nat.pow_le_pow_right hpos (by omega)
      have h2 := hlt' (by omega)
      omega
    · have h1 : n ^ (d' + 1) ≤ n ^ d := Nat.pow_le_pow_right hpos (by omega)
      have h2 := hlt (by omega)
      omega
  subst heq
  have hone : [t] = [t'] := by
    refine h.packed.ext h'.packed ?_
    rw [List.flatMap_singleton, List.flatMap_singleton, h.leaves, h'.leaves]
  rw [List.cons.inj hone |>.1]

end IsTop

end EvenTree

end Common
