import Ribs.Common.Prog
/-!
# One program simulates another

`exec` is `run` that returns what is left of the plan, so that runs
compose. `SimAt f m m' s` says that `m'`, started at `f s`, does what `m`
does, started at `s`, under every plan, with the states it ends in moved
by `f`. A program that simulates itself along `f` does not depend on what
`f` changes.
-/

namespace Common

variable {σ ε α β : Type}

/-- The outcome, with its state moved. -/
def Outcome.mapState (f : σ → σ) : Outcome σ ε α → Outcome σ ε α
  | .ok a s => .ok a (f s)
  | .err e s => .err e (f s)
  | .crash s => .crash (f s)
  | .fault k s => .fault k (f s)

namespace Prog

/-- How a run ends, and the rest of its plan. -/
def exec : Prog σ ε α → σ → List Fate → Outcome σ ε α × List Fate
  | ret a, s, p => (.ok a s, p)
  | throw e, s, p => (.err e s, p)
  | fault k, s, p => (.fault k s, p)
  | get k, s, p => (k s).exec s p
  | put s k, _, p => k.exec s p
  | io act _ k, s, [] => (k true).exec (act s) []
  | io act _ k, s, .go :: p => (k true).exec (act s) p
  | io _ part k, s, .fail n :: p => (k false).exec (part n s) p
  | io _ _ _, s, .die :: p => (.crash s, p)

theorem run_eq_exec (m : Prog σ ε α) (s : σ) (p : List Fate) : m.run s p = (m.exec s p).1 := by
  induction m generalizing s p with
  | ret a => rfl
  | throw e => rfl
  | fault k => rfl
  | get k ih => exact ih s s p
  | put t k ih => exact ih t p
  | io act part k ih =>
    rcases p with _ | ⟨_ | n | _, p⟩
    · exact ih true _ _
    · exact ih true _ _
    · exact ih false _ _
    · rfl

/-- **Runs compose.** -/
theorem exec_bind (m : Prog σ ε α) (k : α → Prog σ ε β) (s : σ) (p : List Fate) :
    (m >>= k).exec s p =
      match m.exec s p with
      | (.ok a t, p) => (k a).exec t p
      | (.err e t, p) => (.err e t, p)
      | (.crash t, p) => (.crash t, p)
      | (.fault x t, p) => (.fault x t, p) := by
  change (m.bind k).exec s p = _
  induction m generalizing s p with
  | ret a => rfl
  | throw e => rfl
  | fault k => rfl
  | get k ih => exact ih s s p
  | put t k ih => exact ih t p
  | io act part k ih =>
    rcases p with _ | ⟨_ | n | _, p⟩
    · exact ih true _ _
    · exact ih true _ _
    · exact ih false _ _
    · rfl

/-- A program that does not return a result is not gone on from. -/
theorem sat_bind_of_fails {m : Prog σ ε α} {k : α → Prog σ ε β} {s : σ} {p : List Fate}
    {P : Post σ ε α} {Q : Post σ ε β} (h : (m.run s p).Sat P)
    (hfails : ∀ a t, m.run s p ≠ .ok a t) (herr : ∀ e t, P.err e t → Q.err e t)
    (hcrash : ∀ t, P.crash t → Q.crash t) (hfault : ∀ x t, P.fault x t → Q.fault x t) :
    ((m >>= k).run s p).Sat Q := by
  rw [run_eq_exec, exec_bind]
  rw [run_eq_exec] at h hfails
  generalize m.exec s p = o at h hfails
  obtain ⟨_ | _ | _ | _, p⟩ := o
  · exact absurd rfl (hfails _ _)
  · exact herr _ _ h
  · exact hcrash _ h
  · exact hfault _ _ h

theorem exec_handle (m : Prog σ ε α) (h : ε → Prog σ ε α) (s : σ) (p : List Fate) :
    (m.handle h).exec s p =
      match m.exec s p with
      | (.err e t, p) => (h e).exec t p
      | r => r := by
  induction m generalizing s p with
  | ret a => rfl
  | throw e => rfl
  | fault k => rfl
  | get k ih => exact ih s s p
  | put t k ih => exact ih t p
  | io act part k ih =>
    rcases p with _ | ⟨_ | n | _, p⟩
    · exact ih true _ _
    · exact ih true _ _
    · exact ih false _ _
    · rfl

theorem exec_andThen (m : Prog σ ε α) (c : Prog σ ε Unit) (s : σ) (p : List Fate) :
    (m.andThen c).exec s p =
      match m.exec s p with
      | (.ok a t, p) => (c >>= fun _ => ret a).exec t p
      | (.err e t, p) => (c >>= fun _ => throw e).exec t p
      | r => r := by
  induction m generalizing s p with
  | ret a => rfl
  | throw e => rfl
  | fault k => rfl
  | get k ih => exact ih s s p
  | put t k ih => exact ih t p
  | io act part k ih =>
    rcases p with _ | ⟨_ | n | _, p⟩
    · exact ih true _ _
    · exact ih true _ _
    · exact ih false _ _
    · rfl

/-- **A run on a part of the state** leaves the rest. -/
theorem exec_zoom {τ ε' : Type} {view : σ → τ} {set : τ → σ → σ} {f : ε' → ε}
    (hview : ∀ t s, view (set t s) = t) (hset : ∀ t t' s, set t (set t' s) = set t s)
    (hsame : ∀ s, set (view s) s = s) (m : Prog τ ε' α) (s : σ) (p : List Fate) :
    (m.zoom view set f).exec s p =
      match m.exec (view s) p with
      | (.ok a t, p) => (.ok a (set t s), p)
      | (.err e t, p) => (.err (f e) (set t s), p)
      | (.crash t, p) => (.crash (set t s), p)
      | (.fault x t, p) => (.fault x (set t s), p) := by
  induction m generalizing s p with
  | ret a => simp [exec, zoom, hsame]
  | throw e => simp [exec, zoom, hsame]
  | fault k => simp [exec, zoom, hsame]
  | get k ih => exact ih _ s p
  | put t k ih => simpa [exec, zoom, hview, hset] using ih (set t s) p
  | io act part k ih =>
    rcases p with _ | ⟨_ | n | _, p⟩
    · simpa [exec, zoom, hview, hset] using ih true (set (act (view s)) s) []
    · simpa [exec, zoom, hview, hset] using ih true (set (act (view s)) s) p
    · simpa [exec, zoom, hview, hset] using ih false (set (part n (view s)) s) p
    · simp [exec, zoom, hsame]

theorem run_zoom {τ ε' : Type} {view : σ → τ} {set : τ → σ → σ} {f : ε' → ε}
    (hview : ∀ t s, view (set t s) = t) (hset : ∀ t t' s, set t (set t' s) = set t s)
    (hsame : ∀ s, set (view s) s = s) (m : Prog τ ε' α) (s : σ) (p : List Fate) :
    (m.zoom view set f).run s p =
      match m.run (view s) p with
      | .ok a t => .ok a (set t s)
      | .err e t => .err (f e) (set t s)
      | .crash t => .crash (set t s)
      | .fault x t => .fault x (set t s) := by
  rw [run_eq_exec, run_eq_exec, exec_zoom hview hset hsame]
  rcases m.exec (view s) p with ⟨_ | _ | _ | _, q⟩ <;> rfl

/-! ### Runs that return -/

/-- The next step of a plan is carried out. -/
def Goes (p : List Fate) : Prop := ∀ x ∈ p.head?, x = .go

theorem exec_bind_ok_iff {m : Prog σ ε α} {k : α → Prog σ ε β} {s t : σ} {p q : List Fate} {b : β} :
    (m >>= k).exec s p = (.ok b t, q) ↔
      ∃ a u r, m.exec s p = (.ok a u, r) ∧ (k a).exec u r = (.ok b t, q) := by
  rw [exec_bind]
  rcases m.exec s p with ⟨_ | _ | _ | _, r⟩ <;> simp

theorem exec_step_ok_iff {e : ε} {f : σ → σ} {s t : σ} {p q : List Fate} {a : Unit} :
    (Prog.step e f : Prog σ ε Unit).exec s p = (.ok a t, q) ↔
      Goes p ∧ t = f s ∧ q = p.tail := by
  unfold Prog.step Goes
  rcases p with _ | ⟨_ | n | _, p⟩ <;> simp [exec, eq_comm]

/-- An error that is changed is still an error. -/
theorem exec_rethrow_ok_iff {m : Prog σ ε α} {h : ε → ε} {s t : σ} {p q : List Fate} {a : α} :
    (m.handle fun e => .throw (h e)).exec s p = (.ok a t, q) ↔ m.exec s p = (.ok a t, q) := by
  rw [exec_handle]
  rcases m.exec s p with ⟨_ | _ | _ | _, r⟩ <;> simp [exec]

theorem exec_zoom_ok_iff {τ ε' : Type} {view : σ → τ} {set : τ → σ → σ} {f : ε' → ε}
    (hview : ∀ t s, view (set t s) = t) (hset : ∀ t t' s, set t (set t' s) = set t s)
    (hsame : ∀ s, set (view s) s = s) {m : Prog τ ε' α} {s s' : σ} {p q : List Fate} {a : α} :
    (m.zoom view set f).exec s p = (.ok a s', q) ↔
      ∃ t, m.exec (view s) p = (.ok a t, q) ∧ s' = set t s := by
  rw [exec_zoom hview hset hsame]
  rcases m.exec (view s) p with ⟨_ | _ | _ | _, r⟩ <;> simp [eq_comm]
  grind

theorem bind_assoc (m : Prog σ ε α) {γ : Type} (k : α → Prog σ ε β) (h : β → Prog σ ε γ) :
    (m >>= k) >>= h = m >>= fun a => k a >>= h := by
  change (m.bind k).bind h = m.bind fun a => (k a).bind h
  induction m with
  | ret a => rfl
  | throw e => rfl
  | fault k => rfl
  | get k' ih => exact congrArg Prog.get (funext ih)
  | put t k' ih => exact congrArg (Prog.put t) ih
  | io act part k' ih => exact congrArg (Prog.io act part) (funext ih)

/-- A run returns a result. -/
def Returns (m : Prog σ ε α) (s : σ) (p : List Fate) : Prop := ∃ a t q, m.exec s p = (.ok a t, q)

theorem returns_bind_iff {m : Prog σ ε α} {k : α → Prog σ ε β} {s : σ} {p : List Fate} :
    (m >>= k).Returns s p ↔ ∃ a u r, m.exec s p = (.ok a u, r) ∧ (k a).Returns u r := by
  unfold Returns
  simp only [exec_bind_ok_iff]
  constructor
  · rintro ⟨b, t, q, a, u, r, hm, hk⟩
    exact ⟨a, u, r, hm, b, t, q, hk⟩
  · rintro ⟨a, u, r, hm, b, t, q, hk⟩
    exact ⟨b, t, q, a, u, r, hm, hk⟩

theorem returns_step_iff {e : ε} {f : σ → σ} {s : σ} {p : List Fate} :
    (Prog.step e f : Prog σ ε Unit).Returns s p ↔ Goes p :=
  ⟨fun ⟨_, _, _, h⟩ => (exec_step_ok_iff.mp h).1,
    fun h => ⟨(), _, _, exec_step_ok_iff.mpr ⟨h, rfl, rfl⟩⟩⟩

theorem returns_rethrow_iff {m : Prog σ ε α} {h : ε → ε} {s : σ} {p : List Fate} :
    (m.handle fun e => .throw (h e)).Returns s p ↔ m.Returns s p := by
  unfold Returns
  simp only [exec_rethrow_ok_iff]

theorem returns_zoom_iff {τ ε' : Type} {view : σ → τ} {set : τ → σ → σ} {f : ε' → ε}
    (hview : ∀ t s, view (set t s) = t) (hset : ∀ t t' s, set t (set t' s) = set t s)
    (hsame : ∀ s, set (view s) s = s) {m : Prog τ ε' α} {s : σ} {p : List Fate} :
    (m.zoom view set f).Returns s p ↔ m.Returns (view s) p := by
  unfold Returns
  simp only [exec_zoom_ok_iff hview hset hsame]
  constructor
  · rintro ⟨a, _, q, t, h, -⟩
    exact ⟨a, t, q, h⟩
  · rintro ⟨a, t, q, h⟩
    exact ⟨a, _, q, t, h, rfl⟩

theorem exec_attempt (m : Prog σ ε α) (s : σ) (p : List Fate) :
    m.attempt.exec s p =
      match m.exec s p with
      | (.ok a t, p) => (.ok (.ok a) t, p)
      | (.err e t, p) => (.ok (.error e) t, p)
      | (.crash t, p) => (.crash t, p)
      | (.fault x t, p) => (.fault x t, p) := by
  have hbind : (m.bind fun a => (.ret (.ok a) : Prog σ ε (Except ε α))).exec s p = _ :=
    exec_bind m _ s p
  rw [attempt, exec_handle, hbind]
  rcases m.exec s p with ⟨_ | _ | _ | _, r⟩ <;> rfl

/-! ### Runs in which every step is carried out -/

theorem exec_nil (m : Prog σ ε α) (s : σ) : m.exec s [] = (m.run s [], []) := by
  induction m generalizing s with
  | ret a => rfl
  | throw e => rfl
  | fault k => rfl
  | get k ih => exact ih s s
  | put t k ih => exact ih t
  | io act part k ih => exact ih true (act s)

theorem run_bind_nil (m : Prog σ ε α) (k : α → Prog σ ε β) (s : σ) : (m >>= k).run s [] =
    match m.run s [] with
    | .ok a t => (k a).run t []
    | .err e t => .err e t
    | .crash t => .crash t
    | .fault x t => .fault x t := by
  rw [run_eq_exec, exec_bind, exec_nil]
  rcases m.run s [] with ⟨a, t⟩ | _ | _ | _
  · exact (run_eq_exec (k a) t []).symm
  · rfl
  · rfl
  · rfl

/-- An error that is changed. -/
theorem run_rethrow_nil (m : Prog σ ε α) (h : ε → ε) (s : σ) :
    (m.handle fun e => .throw (h e)).run s [] =
      match m.run s [] with
      | .err e t => .err (h e) t
      | r => r := by
  rw [run_eq_exec, exec_handle, exec_nil]
  rcases m.run s [] with _ | _ | _ | _ <;> rfl

end Prog

/-- **`m'` from `f s` does what `m` does from `s`.** -/
def SimAt (f : σ → σ) (m m' : Prog σ ε α) (s : σ) : Prop :=
  ∀ p, m'.exec (f s) p = ((m.exec s p).1.mapState f, (m.exec s p).2)

/-- A program that does not depend on what `f` changes. -/
def Blind (f : σ → σ) (m : Prog σ ε α) : Prop := ∀ s, SimAt f m m s

variable {f : σ → σ} {m m' : Prog σ ε α} {s : σ}

theorem SimAt.run (h : SimAt f m m' s) (p : List Fate) : m'.run (f s) p = (m.run s p).mapState f := by
  rw [Prog.run_eq_exec, Prog.run_eq_exec, h p]

theorem SimAt.get {k k' : σ → Prog σ ε α} (h : SimAt f (k s) (k' (f s)) s) :
    SimAt f (.get k) (.get k') s := h

/-- **Sequencing**, with what the first program can return. -/
theorem SimAt.bind_of {k k' : α → Prog σ ε β} (hm : SimAt f m m' s)
    (hk : ∀ a t p q, m.exec s p = (.ok a t, q) → SimAt f (k a) (k' a) t) :
    SimAt f (m >>= k) (m' >>= k') s := by
  intro p
  rw [Prog.exec_bind, Prog.exec_bind, hm p]
  rcases hr : m.exec s p with ⟨_ | _ | _ | _, q⟩
  · exact hk _ _ p q hr q
  · rfl
  · rfl
  · rfl

theorem SimAt.bind {k k' : α → Prog σ ε β} (hm : SimAt f m m' s)
    (hk : ∀ a t, SimAt f (k a) (k' a) t) : SimAt f (m >>= k) (m' >>= k') s :=
  hm.bind_of fun a t _ _ _ => hk a t

namespace Blind

theorem ret {a : α} : Blind f (.ret a : Prog σ ε α) := fun _ _ => rfl

theorem pure {a : α} : Blind f (Pure.pure a : Prog σ ε α) := fun _ _ => rfl

theorem throw {e : ε} : Blind f (.throw e : Prog σ ε α) := fun _ _ => rfl

theorem fault {k : Fault} : Blind f (.fault k : Prog σ ε α) := fun _ _ => rfl

theorem bind {k : α → Prog σ ε β} (hm : Blind f m) (hk : ∀ a, Blind f (k a)) :
    Blind f (m >>= k) := fun s => (hm s).bind hk

theorem handle {h : ε → Prog σ ε α} (hm : Blind f m) (hh : ∀ e, Blind f (h e)) :
    Blind f (m.handle h) := by
  intro s p
  rw [Prog.exec_handle, Prog.exec_handle, hm s p]
  rcases m.exec s p with ⟨_ | _ | _ | _, q⟩
  · rfl
  · exact hh _ _ q
  · rfl
  · rfl

theorem andThen {c : Prog σ ε Unit} (hm : Blind f m) (hc : Blind f c) :
    Blind f (m.andThen c) := by
  intro s p
  rw [Prog.exec_andThen, Prog.exec_andThen, hm s p]
  rcases m.exec s p with ⟨_ | _ | _ | _, q⟩
  · exact hc.bind (fun _ => ret) _ q
  · exact hc.bind (fun _ => throw) _ q
  · rfl
  · rfl

/-- What is read of the state is the same on both sides. -/
theorem get {k : σ → Prog σ ε α} (hk : ∀ s, SimAt f (k s) (k (f s)) s) : Blind f (.get k) :=
  fun s => SimAt.get (hk s)

theorem ite {c : Prop} [Decidable c] {m' : Prog σ ε α} (hm : Blind f m) (hm' : Blind f m') :
    Blind f (if c then m else m') := by
  split
  · exact hm
  · exact hm'

/-- A change that commutes with `f`. -/
theorem modify {g : σ → σ} (hg : ∀ s, g (f s) = f (g s)) : Blind f (.modify g : Prog σ ε Unit) :=
  fun s _ => by
    change (Outcome.ok () (g (f s)), _) = _
    rw [hg]
    rfl

/-- A step that commutes with `f`. -/
theorem io {act : σ → σ} {part : ℕ → σ → σ} {k : Bool → Prog σ ε α}
    (hact : ∀ s, act (f s) = f (act s)) (hpart : ∀ n s, part n (f s) = f (part n s))
    (hk : ∀ b, Blind f (k b)) : Blind f (.io act part k) := by
  intro s p
  rcases p with _ | ⟨_ | n | _, p⟩
  · simp only [Prog.exec, hact]
    exact hk true _ _
  · simp only [Prog.exec, hact]
    exact hk true _ _
  · simp only [Prog.exec, hpart]
    exact hk false _ _
  · rfl

theorem step {e : ε} {act : σ → σ} (hact : ∀ s, act (f s) = f (act s)) :
    Blind f (.step e act : Prog σ ε Unit) := io hact (fun _ _ => rfl) fun _ => ite ret throw

end Blind

end Common
