import Mathlib.Data.List.Basic
import Std.Data.TreeMap.Lemmas
/-!
# Ordered stores of byte keys, written in batches

A store maps keys to values in the order of the keys. A batch of writes
is committed as one: for every key its last write counts. A scan between
two bounds that differ behind a common prefix sees exactly the keys with
that prefix, so that a store can keep families of keys apart.
-/

namespace Common

/-- One write of a batch. -/
inductive Write (K V : Type) where
  | set (k : K) (v : V)
  | delete (k : K)

namespace Write

variable {K V : Type}

def key : Write K V → K
  | set k _ => k
  | delete k => k

/-- What the key has behind the write. -/
def value : Write K V → Option V
  | set _ v => some v
  | delete _ => none

end Write

section

variable {K V : Type} {cmp : K → K → Ordering}

/-- One write. -/
def applyWrite (db : Std.TreeMap K V cmp) : Write K V → Std.TreeMap K V cmp
  | .set k v => db.insert k v
  | .delete k => db.erase k

/-- **A batch**, write by write. -/
def commit (db : Std.TreeMap K V cmp) (ws : List (Write K V)) : Std.TreeMap K V cmp :=
  ws.foldl applyWrite db

@[simp] theorem commit_nil {db : Std.TreeMap K V cmp} : commit db [] = db := rfl

theorem commit_append (db : Std.TreeMap K V cmp) (ws ws' : List (Write K V)) :
    commit db (ws ++ ws') = commit (commit db ws) ws' := List.foldl_append

variable [Std.TransCmp cmp] [Std.LawfulEqCmp cmp] [DecidableEq K]

theorem getElem?_applyWrite (db : Std.TreeMap K V cmp) (w : Write K V) (k : K) :
    (applyWrite db w)[k]? = if w.key = k then w.value else db[k]? := by
  cases w with
  | set k' v =>
    rw [applyWrite, Std.TreeMap.getElem?_insert]
    simp only [Std.LawfulEqCmp.compare_eq_iff_eq, Write.key, Write.value]
    by_cases h : k' = k <;> simp [h]
  | delete k' =>
    rw [applyWrite, Std.TreeMap.getElem?_erase]
    simp only [Std.LawfulEqCmp.compare_eq_iff_eq, Write.key, Write.value]
    by_cases h : k' = k <;> simp [h]

variable {ws : List (Write K V)} {k : K} {x : Option V}

/-- A property of a key's value that every write of the key keeps. -/
theorem commit_induction {P : Option V → Prop} (db : Std.TreeMap K V cmp) (h : P db[k]?)
    (hw : ∀ w ∈ ws, w.key = k → P w.value) : P (commit db ws)[k]? := by
  induction ws generalizing db with
  | nil => exact h
  | cons w ws ih =>
    obtain ⟨hhead, htail⟩ := List.forall_mem_cons.mp hw
    refine ih (applyWrite db w) ?_ htail
    rw [getElem?_applyWrite]
    split_ifs with hk
    · exact hhead hk
    · exact h

/-- A key that is not written keeps its value. -/
theorem getElem?_commit_of_forall_ne (db : Std.TreeMap K V cmp) (h : ∀ w ∈ ws, w.key ≠ k) :
    (commit db ws)[k]? = db[k]? :=
  commit_induction (P := fun x => x = db[k]?) db rfl fun w hw hk => absurd hk (h w hw)

/-- **What is written to a key is behind the batch** what one of its writes
says. -/
theorem commit_of_mem {P : Option V → Prop} (db : Std.TreeMap K V cmp) {w : Write K V}
    (hmem : w ∈ ws) (hk : w.key = k) (hw : ∀ w ∈ ws, w.key = k → P w.value) :
    P (commit db ws)[k]? := by
  obtain ⟨pre, post, rfl⟩ := List.append_of_mem hmem
  rw [commit_append]
  change P (commit (applyWrite (commit db pre) w) post)[k]?
  refine commit_induction _ ?_ fun w' h => hw w' (by simp [h])
  rw [getElem?_applyWrite, if_pos hk]
  exact hw w hmem hk

end

/-! ## Scans -/

section

variable {α : Type} [LT α] [Std.Irrefl (α := α) (· < ·)]

theorem not_append_lt (p x : List α) : ¬ p ++ x < p := by
  induction p with
  | nil => simp
  | cons a p ih => simpa [List.cons_lt_cons_iff, Std.Irrefl.irrefl a] using ih

theorem append_lt_append_iff {p x y : List α} : p ++ x < p ++ y ↔ x < y := by
  induction p with
  | nil => rfl
  | cons a p ih => simpa [List.cons_lt_cons_iff, Std.Irrefl.irrefl a] using ih

omit [Std.Irrefl (α := α) (· < ·)] in
/-- **A scan between bounds behind a prefix** sees keys with the prefix. -/
theorem isPrefix_of_range {p u x : List α} (hge : ¬ x < p) (hlt : x < p ++ u) : p <+: x := by
  induction p generalizing x with
  | nil => exact List.nil_prefix
  | cons a p ih =>
    cases x with
    | nil => exact absurd (List.nil_lt_cons a p) hge
    | cons b x =>
      rw [List.cons_append, List.cons_lt_cons_iff] at hlt
      rw [List.cons_lt_cons_iff, not_or, not_and] at hge
      rcases hlt with hba | ⟨rfl, hlt⟩
      · exact absurd hba hge.1
      · exact (List.prefix_cons_inj b).mpr (ih (hge.2 rfl) hlt)

end

end Common
