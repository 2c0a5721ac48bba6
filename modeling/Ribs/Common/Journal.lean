import Mathlib.Data.List.Basic
/-!
# What a crash can leave of a store

A store that is written without syncing has a durable content and the
contents it went through since. A crash leaves one of them: the durable
one, or that behind some number of the later writes. A sync makes the
current content the durable one. `Journal.All` is what holds of every
content a crash can leave; an invariant of stored data that has to
survive crashes is stated through it.
-/

namespace Common

/-- A store: its durable content, and the contents after each later write. -/
structure Journal (α : Type) where
  durable : α
  later : List α

namespace Journal

variable {α : Type} {P Q : α → Prop}

/-- A store whose content is durable. -/
def clean (x : α) : Journal α := ⟨x, []⟩

/-- What a read sees. -/
def current (j : Journal α) : α := j.later.getLast?.getD j.durable

/-- A write that is not synced. -/
def write (j : Journal α) (x : α) : Journal α := { j with later := j.later ++ [x] }

/-- What was written becomes durable. -/
def sync (j : Journal α) : Journal α := clean j.current

/-- **A crash that keeps the first `keep` later writes.** -/
def survive (j : Journal α) (keep : ℕ) : Journal α :=
  clean ((j.later.take keep).getLast?.getD j.durable)

/-- Every content a crash can leave has `P`. -/
def All (P : α → Prop) (j : Journal α) : Prop := P j.durable ∧ ∀ x ∈ j.later, P x

@[simp] theorem current_clean (x : α) : (clean x).current = x := rfl

@[simp] theorem current_write (j : Journal α) (x : α) : (j.write x).current = x := by
  simp [current, write]

@[simp] theorem current_sync (j : Journal α) : j.sync.current = j.current := rfl

@[simp] theorem later_sync (j : Journal α) : j.sync.later = [] := rfl

@[simp] theorem later_survive (j : Journal α) (keep : ℕ) : (j.survive keep).later = [] := rfl

@[simp] theorem all_clean {x : α} : (clean x).All P ↔ P x := by simp [All, clean]

/-- A crash that loses nothing. -/
theorem current_survive_of_le {j : Journal α} {keep : ℕ} (h : j.later.length ≤ keep) :
    (j.survive keep).current = j.current := by
  rw [survive, current_clean, List.take_of_length_le h, current]

namespace All

variable {j : Journal α}

theorem imp (h : j.All P) (hPQ : ∀ x, P x → Q x) : j.All Q :=
  ⟨hPQ _ h.1, fun x hx => hPQ x (h.2 x hx)⟩

theorem and (h : j.All P) (h' : j.All Q) : j.All fun x => P x ∧ Q x :=
  ⟨⟨h.1, h'.1⟩, fun x hx => ⟨h.2 x hx, h'.2 x hx⟩⟩

theorem getLast (h : j.All P) {xs : List α} (hsub : ∀ x ∈ xs, x ∈ j.later) :
    P (xs.getLast?.getD j.durable) := by
  cases hx : xs.getLast? with
  | none => exact h.1
  | some x => exact h.2 x (hsub x (List.mem_of_getLast? hx))

theorem current (h : j.All P) : P j.current := h.getLast fun _ hx => hx

theorem write (h : j.All P) {x : α} (hx : P x) : (j.write x).All P :=
  ⟨h.1, fun y hy => (List.mem_append.mp hy).elim (h.2 y) fun hy => List.mem_singleton.mp hy ▸ hx⟩

theorem sync (h : j.All P) : j.sync.All P := all_clean.mpr h.current

/-- **What holds of every content holds after a crash.** -/
theorem survive (h : j.All P) (keep : ℕ) : (j.survive keep).All P :=
  all_clean.mpr (h.getLast fun _ hx => List.mem_of_mem_take hx)

end All

/-- Every content a crash that keeps at least `n` later writes can leave
has `P`. -/
def From (n : ℕ) (P : α → Prop) (j : Journal α) : Prop :=
  ∀ keep, n ≤ keep → P (j.survive keep).current

namespace From

variable {j : Journal α} {n : ℕ}

/-- What holds now holds after a crash that keeps everything written so far. -/
theorem of_current (h : P j.current) : j.From j.later.length P := fun keep hkeep => by
  rwa [current_survive_of_le hkeep]

theorem imp (h : j.From n P) (hPQ : ∀ x, P x → Q x) : j.From n Q :=
  fun keep hkeep => hPQ _ (h keep hkeep)

theorem write (h : j.From n P) {x : α} (hx : P x) : (j.write x).From n P := by
  intro keep hkeep
  rcases Nat.lt_or_ge j.later.length keep with hlt | hle
  · rw [current_survive_of_le (by simp [Journal.write]; omega)]
    simpa using hx
  · have := h keep hkeep
    rw [survive, current_clean] at this ⊢
    rwa [Journal.write, List.take_append_of_le_length hle]

theorem current (h : j.From n P) (hn : n ≤ j.later.length) : P j.current := by
  have := h j.later.length hn
  rwa [current_survive_of_le (Nat.le_refl _)] at this

end From

end Journal

end Common
