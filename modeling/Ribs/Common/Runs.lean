import Mathlib.Data.Int.Notation
import Mathlib.Data.List.Basic
/-!
# Runs

A machine takes events one after the other, each of them whole. A
property of the states of its runs is proved through an invariant: it
holds where the run starts, and every event keeps it, the ones that meet
a condition on the state they happen in.
-/

namespace Common

variable {σ ε : Type}

/-- The state behind the events. -/
def runEvents (next : σ → ε → σ) (s : σ) (es : List ε) : σ := es.foldl next s

/-- Every event of a run meets a condition on the state it happens in. -/
def Always (next : σ → ε → σ) (C : σ → ε → Prop) : σ → List ε → Prop
  | _, [] => True
  | s, e :: es => C s e ∧ Always next C (next s e) es

variable {next : σ → ε → σ} {C : σ → ε → Prop} {I : σ → Prop}

/-- What every event meets, whatever state it happens in. -/
theorem Always.and_forall {P : ε → Prop} {s : σ} {es : List ε} (h : Always next C s es)
    (hP : ∀ e ∈ es, P e) : Always next (fun s e => C s e ∧ P e) s es := by
  induction es generalizing s with
  | nil => trivial
  | cons e es ih =>
    obtain ⟨he, hes⟩ := List.forall_mem_cons.mp hP
    exact ⟨⟨h.1, he⟩, ih h.2 hes⟩

/-- A condition on the events alone. -/
theorem always_of_forall {P : ε → Prop} {es : List ε} (h : ∀ e ∈ es, P e) (s : σ) :
    Always next (fun _ e => P e) s es := by
  induction es generalizing s with
  | nil => trivial
  | cons e es ih =>
    obtain ⟨he, hes⟩ := List.forall_mem_cons.mp h
    exact ⟨he, ih hes (next s e)⟩

theorem runEvents_append (s : σ) (es es' : List ε) :
    runEvents next s (es ++ es') = runEvents next (runEvents next s es) es' := List.foldl_append

theorem Always.left {s : σ} {es es' : List ε} (h : Always next C s (es ++ es')) :
    Always next C s es := by
  induction es generalizing s with
  | nil => trivial
  | cons e es ih => exact ⟨h.1, ih h.2⟩

theorem Always.concat {s : σ} {es : List ε} {e : ε} (h : Always next C s es)
    (he : C (runEvents next s es) e) : Always next C s (es ++ [e]) := by
  induction es generalizing s with
  | nil => exact ⟨he, trivial⟩
  | cons e' es ih => exact ⟨h.1, ih h.2 he⟩

/-- **An invariant of the steps holds after a run.** -/
theorem runEvents_invariant (hstep : ∀ s e, I s → C s e → I (next s e)) {s : σ} {es : List ε}
    (hs : I s) (h : Always next C s es) : I (runEvents next s es) := by
  induction es generalizing s with
  | nil => exact hs
  | cons e es ih => exact ih (hstep s e hs h.1) h.2

/-- **What every step keeps** holds after every run. -/
theorem runEvents_stable (hstep : ∀ s e, I s → I (next s e)) {s : σ} (hs : I s) (es : List ε) :
    I (runEvents next s es) := by
  induction es generalizing s with
  | nil => exact hs
  | cons e es ih => exact ih (hstep s e hs)

/-- **What follows from a condition**, wherever the run may be while it is
met. -/
theorem Always.imp_of {D : σ → ε → Prop} (hstep : ∀ s e, I s → C s e → I (next s e))
    (himp : ∀ s e, I s → C s e → D s e) {s : σ} (hs : I s) {es : List ε}
    (h : Always next C s es) : Always next D s es := by
  induction es generalizing s with
  | nil => trivial
  | cons e es ih => exact ⟨himp s e hs h.1, ih (hstep s e hs h.1) h.2⟩

/-- A count that no step lowers. -/
theorem runEvents_le {f : σ → ℤ} (hstep : ∀ s e, I s → I (next s e))
    (hle : ∀ s e, I s → f s ≤ f (next s e)) {s : σ} (hs : I s) (es : List ε) :
    f s ≤ f (runEvents next s es) := by
  induction es generalizing s with
  | nil => exact Int.le_refl _
  | cons e es ih => exact Int.le_trans (hle s e hs) (ih (hstep s e hs))

/-- **A count that rises where the condition is not met**, and stays where
it is, tells whether every event met it. -/
theorem always_iff_of_rises {f : σ → ℤ} (hstep : ∀ s e, I s → I (next s e))
    (hkeep : ∀ s e, I s → C s e → f (next s e) = f s)
    (hrise : ∀ s e, I s → ¬ C s e → f s < f (next s e)) {s : σ} (hs : I s) {es : List ε} :
    Always next C s es ↔ f (runEvents next s es) = f s := by
  have hle : ∀ s e, I s → f s ≤ f (next s e) := fun s e hs => by
    by_cases hC : C s e
    · exact Int.le_of_eq (hkeep s e hs hC).symm
    · exact Int.le_of_lt (hrise s e hs hC)
  induction es generalizing s with
  | nil => exact iff_of_true trivial rfl
  | cons e es ih =>
    by_cases hC : C s e
    · refine (and_iff_right hC).trans ((ih (hstep s e hs)).trans ?_)
      rw [hkeep s e hs hC]
      rfl
    · refine iff_of_false (fun h => hC h.1) fun heq => ?_
      have hlt : f s < f (runEvents next s (e :: es)) :=
        Int.lt_of_lt_of_le (hrise s e hs hC) (runEvents_le hstep hle (hstep s e hs) es)
      omega

/-- **Whether every event met the condition** can be told from the states
of the run: they are good while it is met, and the first event that does
not meet it leads to one that is not. -/
theorem always_iff_throughout {G : σ → Prop} (hstep : ∀ s e, I s → C s e → I (next s e))
    (hgood : ∀ s, I s → G s) (hbad : ∀ s e, I s → ¬ C s e → ¬ G (next s e)) {s : σ} (hs : I s)
    {es : List ε} : Always next C s es ↔ ∀ es', es' <+: es → G (runEvents next s es') := by
  constructor
  · rintro h es' ⟨rest, rfl⟩
    exact hgood _ (runEvents_invariant hstep hs h.left)
  · intro h
    induction es generalizing s with
    | nil => trivial
    | cons e es ih =>
      have hC : C s e := by
        by_contra hC
        exact hbad s e hs hC (h [e] (List.cons_prefix_cons.mpr ⟨rfl, List.nil_prefix⟩))
      exact ⟨hC, ih (hstep s e hs hC) fun es' hes' =>
        h (e :: es') (List.cons_prefix_cons.mpr ⟨rfl, hes'⟩)⟩

/-- **Two conditions that agree** wherever the run may be, while the first
one keeps it there. -/
theorem always_congr {D : σ → ε → Prop} {P : ε → Prop}
    (hstep : ∀ s e, I s → P e → C s e → I (next s e))
    (hiff : ∀ s e, I s → P e → (C s e ↔ D s e)) {s : σ} (hs : I s) {es : List ε}
    (hes : ∀ e ∈ es, P e) : Always next C s es ↔ Always next D s es := by
  induction es generalizing s with
  | nil => exact Iff.rfl
  | cons e es ih =>
    obtain ⟨he, hes⟩ := List.forall_mem_cons.mp hes
    by_cases hC : C s e
    · have hD := (hiff s e hs he).mp hC
      exact and_congr (iff_of_true hC hD) (ih (hstep s e hs he hC) hes)
    · exact iff_of_false (fun h => hC h.1) fun h => hC ((hiff s e hs he).mpr h.1)

/-- **A run comes to an end**: only so many events can each change
something, and while it is not done some event can. -/
def Ends (next : σ → ε → σ) (Done : σ → Prop) (s : σ) : Prop :=
  (∃ n, ∀ es, Always next (fun s e => next s e ≠ s) s es → es.length ≤ n) ∧
    ∀ es, ¬ Done (runEvents next s es) →
      ∃ e, next (runEvents next s es) e ≠ runEvents next s es

/-- A measure that every change lowers bounds the changes. -/
theorem length_le_of_lowers {f : σ → ℕ} (hstep : ∀ s e, I s → I (next s e))
    (hlower : ∀ s e, I s → next s e ≠ s → f (next s e) < f s) {s : σ} (hs : I s) {es : List ε}
    (h : Always next (fun s e => next s e ≠ s) s es) : es.length ≤ f s := by
  induction es generalizing s with
  | nil => exact Nat.zero_le _
  | cons e es ih =>
    have hlt := hlower s e hs h.1
    have hle := ih (hstep s e hs) h.2
    rw [List.length_cons]
    omega

theorem ends_of_lowers {f : σ → ℕ} {Done : σ → Prop} (hstep : ∀ s e, I s → I (next s e))
    (hlower : ∀ s e, I s → next s e ≠ s → f (next s e) < f s)
    (hmoves : ∀ s, I s → ¬ Done s → ∃ e, next s e ≠ s) {s : σ} (hs : I s) :
    Ends next Done s :=
  ⟨⟨f s, fun _ => length_le_of_lowers hstep hlower hs⟩,
    fun es => hmoves _ (runEvents_stable hstep hs es)⟩

/-- A run that comes to an end can be led there. -/
theorem Ends.exists_done {Done : σ → Prop} {s : σ} (h : Ends next Done s) :
    ∃ es, Done (runEvents next s es) := by
  obtain ⟨⟨n, hbound⟩, hmoves⟩ := h
  by_contra hnone
  push Not at hnone
  -- there would be runs of any length in which all changes something
  have hlong : ∀ k, ∃ es, Always next (fun s e => next s e ≠ s) s es ∧ es.length = k := by
    intro k
    induction k with
    | zero => exact ⟨[], trivial, rfl⟩
    | succ k ih =>
      obtain ⟨es, hes, hlen⟩ := ih
      obtain ⟨e, he⟩ := hmoves es (hnone es)
      exact ⟨es ++ [e], hes.concat he, by rw [List.length_append, hlen, List.length_singleton]⟩
  obtain ⟨es, hes, hlen⟩ := hlong (n + 1)
  have := hbound es hes
  omega

end Common
