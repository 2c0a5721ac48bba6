import Mathlib.Logic.Basic
import Mathlib.Data.List.Basic
/-!
# Programs that can fail, crash and misuse a lock

A program over a state `σ` reads and replaces the state and takes steps
of input and output. Such a step succeeds, fails, or is where the
process dies; which one is the environment's choice, given as a *plan*,
one `Fate` for each step. `Prog.run` executes a program under a plan,
`wp` is its weakest precondition over every plan made of allowed fates,
and `wp_sound` connects the two. A postcondition has one clause for each
way a run can end, so an invariant that has to survive a crash is a
postcondition's crash clause.
-/

namespace Common

/-- What happens to one step of input and output. -/
inductive Fate where
  /-- The step is carried out. -/
  | go
  /-- The step reports an error after doing `n` units of its work. -/
  | fail (n : ℕ)
  /-- The process dies before the step. -/
  | die
deriving DecidableEq, Repr

/-- How a program can go wrong without returning. -/
inductive Fault where
  /-- A nil dereference or an index out of range. -/
  | panic
  /-- Waiting for a lock that nobody will release. -/
  | blocked
  /-- Releasing a lock that is not held. -/
  | badUnlock
deriving DecidableEq, Repr

/-- How a run ends, and in which state. -/
inductive Outcome (σ ε α : Type) where
  | ok (a : α) (s : σ)
  | err (e : ε) (s : σ)
  | crash (s : σ)
  | fault (k : Fault) (s : σ)

/-- A program over `σ`, with errors in `ε` and results in `α`. -/
inductive Prog (σ ε α : Type) : Type where
  | ret (a : α)
  | throw (e : ε)
  | fault (k : Fault)
  | get (k : σ → Prog σ ε α)
  | put (s : σ) (k : Prog σ ε α)
  /-- One step of input and output: `act` is its effect, `part n` what is
  left of it when it fails after `n` units. -/
  | io (act : σ → σ) (part : ℕ → σ → σ) (k : Bool → Prog σ ε α)

namespace Prog

variable {σ ε α β : Type}

/-- Sequential composition. -/
def bind : Prog σ ε α → (α → Prog σ ε β) → Prog σ ε β
  | ret a, f => f a
  | throw e, _ => throw e
  | fault k, _ => fault k
  | get k, f => get fun s => (k s).bind f
  | put s k, f => put s (k.bind f)
  | io act part k, f => io act part fun b => (k b).bind f

instance : Monad (Prog σ ε) where
  pure := ret
  bind := bind

/-- Run `m`; when it returns an error, go on with `h`. -/
def handle : Prog σ ε α → (ε → Prog σ ε α) → Prog σ ε α
  | ret a, _ => ret a
  | throw e, h => h e
  | fault k, _ => fault k
  | get k, h => get fun s => (k s).handle h
  | put s k, h => put s (k.handle h)
  | io act part k, h => io act part fun b => (k b).handle h

/-- Run `m` and then `c`, whether `m` returned a result or an error. -/
def andThen : Prog σ ε α → Prog σ ε Unit → Prog σ ε α
  | ret a, c => c.bind fun _ => ret a
  | throw e, c => c.bind fun _ => throw e
  | fault k, _ => fault k
  | get k, c => get fun s => (k s).andThen c
  | put s k, c => put s (k.andThen c)
  | io act part k, c => io act part fun b => (k b).andThen c

/-- The state. -/
def read : Prog σ ε σ := get ret

/-- Change the state, in memory. -/
def modify (f : σ → σ) : Prog σ ε Unit := get fun s => put (f s) (ret ())

/-- One step of input and output that leaves nothing behind when it fails. -/
def step (e : ε) (act : σ → σ) : Prog σ ε Unit :=
  io act (fun _ s => s) fun b => if b then ret () else throw e

/-- The result or the error of `m`, to go on with either. -/
def attempt (m : Prog σ ε α) : Prog σ ε (Except ε α) :=
  .handle (m.bind fun a => .ret (.ok a)) fun e => .ret (.error e)

/-- **A program on a part of the state**, as one on the whole. -/
def zoom {τ ε' : Type} (view : σ → τ) (set : τ → σ → σ) (f : ε' → ε) :
    Prog τ ε' α → Prog σ ε α
  | ret a => ret a
  | throw e => throw (f e)
  | fault k => fault k
  | get k => get fun s => (k (view s)).zoom view set f
  | put t k => get fun s => put (set t s) (k.zoom view set f)
  | io act part k => io (fun s => set (act (view s)) s) (fun n s => set (part n (view s)) s)
      fun b => (k b).zoom view set f

/-- Execution under a plan. When the plan is used up, steps succeed. -/
def run : Prog σ ε α → σ → List Fate → Outcome σ ε α
  | ret a, s, _ => .ok a s
  | throw e, s, _ => .err e s
  | fault k, s, _ => .fault k s
  | get k, s, p => (k s).run s p
  | put s k, _, p => k.run s p
  | io act _ k, s, [] => (k true).run (act s) []
  | io act _ k, s, .go :: p => (k true).run (act s) p
  | io _ part k, s, .fail n :: p => (k false).run (part n s) p
  | io _ _ _, s, .die :: _ => .crash s

end Prog

/-! ## Weakest preconditions -/

/-- **A postcondition**, one clause for each way a run can end. -/
structure Post (σ ε α : Type) where
  ok : α → σ → Prop
  err : ε → σ → Prop
  crash : σ → Prop
  fault : Fault → σ → Prop

variable {σ ε α β : Type}

/-- An outcome meets a postcondition. -/
def Outcome.Sat : Outcome σ ε α → Post σ ε α → Prop
  | .ok a s, Q => Q.ok a s
  | .err e s, Q => Q.err e s
  | .crash s, Q => Q.crash s
  | .fault k s, Q => Q.fault k s

theorem Outcome.Sat.mono {o : Outcome σ ε α} {Q Q' : Post σ ε α} (h : o.Sat Q)
    (hok : ∀ a s, Q.ok a s → Q'.ok a s) (herr : ∀ e s, Q.err e s → Q'.err e s)
    (hcrash : ∀ s, Q.crash s → Q'.crash s) (hfault : ∀ k s, Q.fault k s → Q'.fault k s) :
    o.Sat Q' := by
  cases o with
  | ok a s => exact hok a s h
  | err e s => exact herr e s h
  | crash s => exact hcrash s h
  | fault k s => exact hfault k s h

/-- Steps may end in a fate that `F` allows; success is always allowed. -/
abbrev Fates := Fate → Prop

/-- Nothing fails and nothing crashes. -/
def calm : Fates := fun _ => False

/-- The process may die, no step fails. -/
def mortal : Fates := fun x => x = .die

/-- Anything may happen. -/
def anyFate : Fates := fun _ => True

/-- A plan whose fates are all success or allowed by `F`. -/
def Within (F : Fates) (p : List Fate) : Prop := ∀ x ∈ p, x = .go ∨ F x

/-- **The weakest precondition** of a program, over every plan within `F`. -/
def wp (F : Fates) : Prog σ ε α → Post σ ε α → σ → Prop
  | .ret a, Q, s => Q.ok a s
  | .throw e, Q, s => Q.err e s
  | .fault k, Q, s => Q.fault k s
  | .get k, Q, s => wp F (k s) Q s
  | .put s k, Q, _ => wp F k Q s
  | .io act part k, Q, s => wp F (k true) Q (act s) ∧
      (∀ n, F (.fail n) → wp F (k false) Q (part n s)) ∧ (F .die → Q.crash s)

variable {F : Fates} {m : Prog σ ε α} {Q Q' : Post σ ε α} {s : σ}

/-- **Soundness.** A run under a plan within `F` ends as `wp` says. -/
theorem wp_sound (h : wp F m Q s) {p : List Fate} (hp : Within F p) : (m.run s p).Sat Q := by
  induction m generalizing s p with
  | ret a => exact h
  | throw e => exact h
  | fault k => exact h
  | get k ih => exact ih s h hp
  | put t k ih => exact ih h hp
  | io act part k ih =>
    obtain ⟨hgo, hfail, hdie⟩ := h
    rcases p with _ | ⟨x, p⟩
    · exact ih true hgo hp
    · have hx := hp x List.mem_cons_self
      have hrest : Within F p := fun y hy => hp y (List.mem_cons_of_mem _ hy)
      cases x with
      | go => exact ih true hgo hrest
      | fail n => exact ih false (hfail n (hx.resolve_left (by simp))) hrest
      | die => exact hdie (hx.resolve_left (by simp))

/-- **Completeness.** What every plan within `F` guarantees, `wp` does. -/
theorem wp_complete (h : ∀ p, Within F p → (m.run s p).Sat Q) : wp F m Q s := by
  induction m generalizing s with
  | ret a => exact h [] (by simp [Within])
  | throw e => exact h [] (by simp [Within])
  | fault k => exact h [] (by simp [Within])
  | get k ih => exact ih s h
  | put t k ih => exact ih h
  | io act part k ih =>
    refine ⟨ih true fun p hp => ?_, fun n hn => ih false fun p hp => ?_, fun hd => ?_⟩
    · exact h (.go :: p) (List.forall_mem_cons.mpr ⟨Or.inl rfl, hp⟩)
    · exact h (.fail n :: p) (List.forall_mem_cons.mpr ⟨Or.inr hn, hp⟩)
    · exact h [.die] (by simpa [Within] using hd)

/-- The plan of a run that ends in a crash has it. -/
theorem Prog.die_mem_of_run {p : List Fate} {t : σ} (h : m.run s p = .crash t) : .die ∈ p := by
  induction m generalizing s p with
  | ret a => simp [Prog.run] at h
  | throw e => simp [Prog.run] at h
  | fault k => simp [Prog.run] at h
  | get k ih => exact ih s h
  | put u k ih => exact ih h
  | io act part k ih =>
    rcases p with _ | ⟨x, p⟩
    · exact ih true h
    · cases x with
      | go => exact List.mem_cons_of_mem _ (ih true h)
      | fail n => exact List.mem_cons_of_mem _ (ih false h)
      | die => exact List.mem_cons_self

/-- The empty plan is within any set of fates. -/
theorem within_nil : Within F [] := fun _ h => absurd h List.not_mem_nil

/-- Every plan is within the set of all fates. -/
theorem within_anyFate (p : List Fate) : Within anyFate p := fun _ _ => Or.inr trivial

/-- **Consequence.** -/
theorem wp_mono (h : wp F m Q s) (hok : ∀ a s', Q.ok a s' → Q'.ok a s')
    (herr : ∀ e s', Q.err e s' → Q'.err e s') (hcrash : ∀ s', Q.crash s' → Q'.crash s')
    (hfault : ∀ k s', Q.fault k s' → Q'.fault k s') : wp F m Q' s := by
  induction m generalizing s with
  | ret a => exact hok _ _ h
  | throw e => exact herr _ _ h
  | fault k => exact hfault _ _ h
  | get k ih => exact ih s h
  | put t k ih => exact ih h
  | io act part k ih =>
    exact ⟨ih true h.1, fun n hn => ih false (h.2.1 n hn), fun hd => hcrash _ (h.2.2 hd)⟩

/-- Two postconditions a program meets, it meets together. -/
theorem wp_and (h : wp F m Q s) (h' : wp F m Q' s) :
    wp F m ⟨fun a t => Q.ok a t ∧ Q'.ok a t, fun e t => Q.err e t ∧ Q'.err e t,
      fun t => Q.crash t ∧ Q'.crash t, fun k t => Q.fault k t ∧ Q'.fault k t⟩ s := by
  induction m generalizing s with
  | ret a => exact ⟨h, h'⟩
  | throw e => exact ⟨h, h'⟩
  | fault k => exact ⟨h, h'⟩
  | get k ih => exact ih s h h'
  | put t k ih => exact ih h h'
  | io act part k ih =>
    exact ⟨ih true h.1 h'.1, fun n hn => ih false (h.2.1 n hn) (h'.2.1 n hn),
      fun hd => ⟨h.2.2 hd, h'.2.2 hd⟩⟩

/-- Every run ends in some way. -/
theorem wp_trivial : wp F m ⟨fun _ _ => True, fun _ _ => True, fun _ => True, fun _ _ => True⟩ s := by
  induction m generalizing s with
  | ret a => trivial
  | throw e => trivial
  | fault k => trivial
  | get k ih => exact ih s
  | put t k ih => exact ih
  | io act part k ih => exact ⟨ih true, fun _ _ => ih false, fun _ => trivial⟩

/-- Fewer fates, weaker demands. -/
theorem wp_fates {G : Fates} (hFG : ∀ x, G x → F x) (h : wp F m Q s) : wp G m Q s :=
  wp_complete fun _ hp => wp_sound h fun x hx => (hp x hx).imp_right (hFG x)

/-! ## The rules of the calculus -/

@[simp] theorem wp_pure {a : α} : wp F (pure a : Prog σ ε α) Q s = Q.ok a s := rfl

@[simp] theorem wp_ret {a : α} : wp F (.ret a : Prog σ ε α) Q s = Q.ok a s := rfl

@[simp] theorem wp_throw {e : ε} : wp F (.throw e : Prog σ ε α) Q s = Q.err e s := rfl

@[simp] theorem wp_fault {k : Fault} : wp F (.fault k : Prog σ ε α) Q s = Q.fault k s := rfl

@[simp] theorem wp_read {Q : Post σ ε σ} : wp F (.read : Prog σ ε σ) Q s = Q.ok s s := rfl

@[simp] theorem wp_modify {Q : Post σ ε Unit} {f : σ → σ} :
    wp F (.modify f : Prog σ ε Unit) Q s = Q.ok () (f s) := rfl

@[simp] theorem wp_step {Q : Post σ ε Unit} {e : ε} {f : σ → σ} :
    wp F (.step e f) Q s ↔
      Q.ok () (f s) ∧ ((∃ n, F (.fail n)) → Q.err e s) ∧ (F .die → Q.crash s) := by
  simp [Prog.step, wp]

@[simp] theorem wp_bind {Q : Post σ ε β} {f : α → Prog σ ε β} :
    wp F (m >>= f) Q s =
      wp F m ⟨fun a t => wp F (f a) Q t, Q.err, Q.crash, Q.fault⟩ s := by
  change wp F (m.bind f) Q s = _
  induction m generalizing s with
  | ret a => rfl
  | throw e => rfl
  | fault k => rfl
  | get k ih => exact ih s
  | put t k ih => exact ih
  | io act part k ih => simp only [Prog.bind, wp, ih]

@[simp] theorem wp_handle {h : ε → Prog σ ε α} :
    wp F (m.handle h) Q s =
      wp F m ⟨Q.ok, fun e t => wp F (h e) Q t, Q.crash, Q.fault⟩ s := by
  induction m generalizing s with
  | ret a => rfl
  | throw e => rfl
  | fault k => rfl
  | get k ih => exact ih s
  | put t k ih => exact ih
  | io act part k ih => simp only [Prog.handle, wp, ih]

@[simp] theorem wp_andThen {c : Prog σ ε Unit} :
    wp F (m.andThen c) Q s =
      wp F m ⟨fun a t => wp F c ⟨fun _ u => Q.ok a u, Q.err, Q.crash, Q.fault⟩ t,
        fun e t => wp F c ⟨fun _ u => Q.err e u, Q.err, Q.crash, Q.fault⟩ t,
        Q.crash, Q.fault⟩ s := by
  induction m generalizing s with
  | ret a => exact wp_bind (m := c) (f := fun _ => Prog.ret a)
  | throw e => exact wp_bind (m := c) (f := fun _ => Prog.throw e)
  | fault k => rfl
  | get k ih => exact ih s
  | put t k ih => exact ih
  | io act part k ih => simp only [Prog.andThen, wp, ih]

@[simp] theorem wp_attempt {Q : Post σ ε (Except ε α)} :
    wp F m.attempt Q s =
      wp F m ⟨fun a t => Q.ok (.ok a) t, fun e t => Q.ok (.error e) t, Q.crash, Q.fault⟩ s := by
  rw [Prog.attempt, wp_handle]
  exact wp_bind (m := m) (f := fun a => (.ret (Except.ok a) : Prog σ ε (Except ε α)))

/-- **Zooming.** The rest of the state stays as it is. -/
theorem wp_zoom {τ ε' : Type} {view : σ → τ} {set : τ → σ → σ} {f : ε' → ε} {m : Prog τ ε' α}
    (hview : ∀ t s, view (set t s) = t) (hset : ∀ t t' s, set t (set t' s) = set t s)
    (hsame : ∀ s, set (view s) s = s) (h : wp F m ⟨fun a t => Q.ok a (set t s),
      fun e t => Q.err (f e) (set t s), fun t => Q.crash (set t s),
      fun k t => Q.fault k (set t s)⟩ (view s)) : wp F (m.zoom view set f) Q s := by
  induction m generalizing s with
  | ret a => simpa [Prog.zoom, hsame] using h
  | throw e => simpa [Prog.zoom, hsame] using h
  | fault k => simpa [Prog.zoom, hsame] using h
  | get k ih => exact ih _ h
  | put t k ih => exact ih (s := set t s) (by simpa [wp, hset, hview] using h)
  | io act part k ih =>
    refine ⟨ih true (s := set (act (view s)) s) (by simpa [wp, hset, hview] using h.1),
      fun n hn => ih false (s := set (part n (view s)) s) (by simpa [hset, hview] using h.2.1 n hn),
      fun hd => ?_⟩
    simpa [hsame] using h.2.2 hd

theorem wp_ite {c : Prop} [Decidable c] {m' : Prog σ ε α} :
    wp F (if c then m else m') Q s ↔ (c → wp F m Q s) ∧ (¬ c → wp F m' Q s) := by
  by_cases h : c <;> simp [h]

/-- **Sequencing**, through what the first program guarantees. -/
theorem wp_seq {R : Post σ ε α} {Q : Post σ ε β} {f : α → Prog σ ε β} (h : wp F m R s)
    (hok : ∀ a t, R.ok a t → wp F (f a) Q t) (herr : ∀ e t, R.err e t → Q.err e t)
    (hcrash : ∀ t, R.crash t → Q.crash t) (hfault : ∀ k t, R.fault k t → Q.fault k t) :
    wp F (m >>= f) Q s := by
  rw [wp_bind]
  exact wp_mono h hok herr hcrash hfault

/-- **A loop over a list**, through what holds behind each beginning of it. -/
theorem wp_foldlM {f : α → β → Prog σ ε α} {I : List β → α → σ → Prop} {E : ε → σ → Prop}
    {C : σ → Prop} {D : Fault → σ → Prop}
    (hstep : ∀ pre x a t, I pre a t → wp F (f a x) ⟨fun a' t' => I (pre ++ [x]) a' t', E, C, D⟩ t)
    {pre : List β} {a : α} (h : I pre a s) (l : List β) :
    wp F (l.foldlM f a) ⟨fun a' t => I (pre ++ l) a' t, E, C, D⟩ s := by
  induction l generalizing pre a s with
  | nil => simpa using h
  | cons x l ih =>
    rw [List.foldlM_cons]
    refine wp_seq (hstep pre x a s h) (fun a' t ht => ?_) (fun _ _ => id) (fun _ => id) fun _ _ => id
    have := ih ht
    rwa [List.append_assoc] at this

/-! ## What holds when a program returns -/

/-- **Partial correctness**: nothing is said of the other ways to end. -/
def Post.returns (Q : α → σ → Prop) : Post σ ε α :=
  ⟨Q, fun _ _ => True, fun _ => True, fun _ _ => True⟩

section

variable {R R' : α → σ → Prop} {U : β → σ → Prop}

theorem wp_returns_mono (h : wp F m (.returns R) s) (himp : ∀ a t, R a t → R' a t) :
    wp F m (.returns R') s :=
  wp_mono h himp (fun _ _ _ => trivial) (fun _ _ => trivial) fun _ _ _ => trivial

theorem wp_returns_seq {f : α → Prog σ ε β} (h : wp F m (.returns R) s)
    (hok : ∀ a t, R a t → wp F (f a) (.returns U) t) : wp F (m >>= f) (.returns U) s :=
  wp_seq h hok (fun _ _ _ => trivial) (fun _ _ => trivial) fun _ _ _ => trivial

/-- Whatever the first program returns. -/
theorem wp_returns_after {f : α → Prog σ ε β} (h : ∀ a t, wp F (f a) (.returns U) t) :
    wp F (m >>= f) (.returns U) s :=
  wp_seq wp_trivial (fun a t _ => h a t) (fun _ _ _ => trivial) (fun _ _ => trivial)
    fun _ _ _ => trivial

/-- An error that is changed is still an error. -/
theorem wp_returns_handle {h : ε → ε} (hm : wp F m (.returns R) s) :
    wp F (m.handle fun e => .throw (h e)) (.returns R) s := by
  rw [wp_handle]
  exact wp_mono hm (fun _ _ => id) (fun _ _ _ => trivial) (fun _ => id) fun _ _ => id

theorem wp_returns_attempt (h : wp F m (.returns R) s) :
    wp F m.attempt (.returns fun x t => ∀ a, x = .ok a → R a t) s := by
  rw [wp_attempt]
  refine wp_mono h (fun a t hR b hb => Except.ok.inj hb ▸ hR) (fun e t _ a ha => ?_) (fun _ => id)
    fun _ _ => id
  exact absurd ha (by simp)

theorem wp_returns_step {Q : Unit → σ → Prop} {e : ε} {f : σ → σ} (h : Q () (f s)) :
    wp F (.step e f) (.returns Q) s :=
  wp_step.mpr ⟨h, fun _ => trivial, fun _ => trivial⟩

end

/-! ## What holds when a program returns, with a result or an error -/

/-- A result with `Q`, or an error with `R`; nothing is said of a process
that dies. -/
def Post.settles (Q : α → σ → Prop) (R : σ → Prop) : Post σ ε α :=
  ⟨Q, fun _ s => R s, fun _ => True, fun _ _ => True⟩

section

variable {Q Q' : α → σ → Prop} {R R' : σ → Prop} {U : β → σ → Prop}

theorem wp_settles_mono (h : wp F m (.settles Q R) s) (hok : ∀ a t, Q a t → Q' a t)
    (herr : ∀ t, R t → R' t) : wp F m (.settles Q' R') s :=
  wp_mono h hok (fun _ => herr) (fun _ => id) fun _ _ => id

theorem wp_settles_seq {f : α → Prog σ ε β} (h : wp F m (.settles Q R) s)
    (hok : ∀ a t, Q a t → wp F (f a) (.settles U R) t) : wp F (m >>= f) (.settles U R) s :=
  wp_seq h hok (fun _ _ => id) (fun _ => id) fun _ _ => id

theorem wp_settles_handle {h : ε → ε} (hm : wp F m (.settles Q R) s) :
    wp F (m.handle fun e => .throw (h e)) (.settles Q R) s := by
  rw [wp_handle]
  exact wp_mono hm (fun _ _ => id) (fun _ _ => id) (fun _ => id) fun _ _ => id

/-- What an attempt leaves is settled. -/
theorem wp_settles_attempt (h : wp F m (.settles Q R) s) :
    wp F m.attempt (.settles (fun x t => (∃ a, x = .ok a ∧ Q a t) ∨ (∃ e, x = .error e) ∧ R t)
      R') s := by
  rw [wp_attempt]
  exact wp_mono h (fun a _ hQ => Or.inl ⟨a, rfl, hQ⟩) (fun e _ hR => Or.inr ⟨⟨e, rfl⟩, hR⟩)
    (fun _ => id) fun _ _ => id

theorem wp_settles_step {Q : Unit → σ → Prop} {e : ε} {f : σ → σ} (h : Q () (f s)) (hs : R s) :
    wp F (.step e f) (.settles Q R) s :=
  wp_step.mpr ⟨h, fun _ => hs, fun _ => trivial⟩

end

end Common
