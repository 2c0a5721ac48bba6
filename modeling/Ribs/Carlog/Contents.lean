import Ribs.Carlog.Index
import Ribs.Bsst.Exact
/-!
# Carlog — the contents of an index

What a batch of `Put`, a batch of `Del` and a listing do to the contents
of a LevelDB index, entry by entry, and what a BSST file made of a
listing stores.
-/

namespace Ribs

open Common

namespace Carlog

variable {t : Index} {m : Multihash} {v : I64}

namespace LevelDBIndex

/-- A batch of one entry. -/
theorem getElem?_insert (t : Index) (k m : Multihash) (v : I64) :
    (t.insert k v)[m]? = if k = m then some v else t[m]? := by
  rw [Std.TreeMap.getElem?_insert]
  simp

theorem getElem?_putBatch_of_forall_ne (es : List (Multihash × I64))
    (h : ∀ e ∈ es, e.1 = m → e.2 = -1) : (putBatch t es)[m]? = t[m]? := by
  induction es generalizing t with
  | nil => rfl
  | cons e es ih =>
    obtain ⟨he, hes⟩ := List.forall_mem_cons.mp h
    change (putBatch (if e.2 = -1 then t else t.insert e.1 e.2) es)[m]? = _
    rw [ih hes]
    split_ifs with hv
    · rfl
    · rw [getElem?_insert, if_neg fun hm => hv (he hm)]

/-- **What is in the index after a batch** was there or is in the batch. -/
theorem of_getElem?_putBatch (es : List (Multihash × I64)) (h : (putBatch t es)[m]? = some v) :
    t[m]? = some v ∨ (m, v) ∈ es ∧ v ≠ -1 := by
  induction es generalizing t with
  | nil => exact Or.inl h
  | cons e es ih =>
    rcases ih (t := if e.2 = -1 then t else t.insert e.1 e.2) h with ht | ⟨hmem, hv⟩
    · split_ifs at ht with hv
      · exact Or.inl ht
      · rw [getElem?_insert] at ht
        split_ifs at ht with hm
        · obtain ⟨k, x⟩ := e
          simp only [Option.some.injEq] at ht hm hv
          subst hm ht
          exact Or.inr ⟨List.mem_cons_self, hv⟩
        · exact Or.inl ht
    · exact Or.inr ⟨List.mem_cons_of_mem _ hmem, hv⟩

/-- A batch takes no entry out. -/
theorem isSome_putBatch (es : List (Multihash × I64)) (h : t[m]?.isSome) :
    (putBatch t es)[m]?.isSome := by
  induction es generalizing t with
  | nil => exact h
  | cons e es ih =>
    refine ih (t := if e.2 = -1 then t else t.insert e.1 e.2) ?_
    split_ifs
    · exact h
    · rw [getElem?_insert]
      split_ifs
      · rfl
      · exact h

/-- **What is in a batch is in the index behind it.** -/
theorem isSome_putBatch_of_mem {es : List (Multihash × I64)} (h : (m, v) ∈ es) (hv : v ≠ -1) :
    (putBatch t es)[m]?.isSome := by
  obtain ⟨pre, post, rfl⟩ := List.append_of_mem h
  have happ : putBatch t (pre ++ (m, v) :: post) =
      putBatch ((putBatch t pre).insert m v) post := by
    rw [putBatch, List.foldl_append, List.foldl_cons, if_neg hv]
    rfl
  rw [happ]
  refine isSome_putBatch post ?_
  rw [getElem?_insert, if_pos rfl]
  rfl

/-- After a batch of `Del` the rest is left. -/
theorem getElem?_foldl_erase (c : List Multihash) :
    (c.foldl (fun t m => t.erase m) t)[m]? = if m ∈ c then none else t[m]? := by
  induction c generalizing t with
  | nil => rfl
  | cons k c ih =>
    rw [List.foldl_cons, ih, Std.TreeMap.getElem?_erase]
    by_cases hc : m ∈ c
    · simp [hc]
    · simp [hc, @eq_comm _ m k]

theorem mem_truncated {n : ℕ} : m ∈ truncated t n ↔
    ∃ v, t[m]? = some v ∧ n ≤ (fromOffsetLen v).1 := by
  simp [truncated, Std.TreeMap.mem_toList_iff_getElem?_eq_some]

/-! ## What a file made of a listing stores -/

theorem source_eq_nil : source t = [] ↔ t.size = 0 := by
  rw [source, List.map_eq_nil_iff, ← List.length_eq_zero_iff, Std.TreeMap.length_toList]

theorem stored_source : Bsst.stored (source t) m = t[m]? := by
  cases hst : Bsst.stored (source t) m with
  | none =>
    rw [eq_comm, Option.eq_none_iff_forall_not_mem]
    intro v hv
    have hmem : (m, [v]) ∈ source t :=
      List.mem_map.mpr ⟨(m, v), Std.TreeMap.mem_toList_iff_getElem?_eq_some.mpr hv, rfl⟩
    have := List.findSome?_eq_none_iff.mp hst _ hmem
    simp at this
  | some v =>
    obtain ⟨e, he, heq⟩ := List.exists_of_findSome?_eq_some hst
    obtain ⟨⟨k, x⟩, hx, rfl⟩ := List.mem_map.mp he
    split_ifs at heq with hk
    simp only [List.head?_cons, Option.some.injEq] at heq hk
    subst heq hk
    exact (Std.TreeMap.mem_toList_iff_getElem?_eq_some.mp hx).symm

variable [X : Bsst.External]

theorem length_entries_source (salt : Digest) : ((source t).entries salt).length = t.size := by
  rw [← Std.TreeMap.length_toList, source]
  induction t.toList with
  | nil => rfl
  | cons e es ih =>
    rw [List.map_cons, Bsst.Source.entries, List.flatMap_cons, List.length_append, List.length_cons,
      ← Bsst.Source.entries, ih]
    simp [Nat.add_comm]

end LevelDBIndex

end Carlog

end Ribs
