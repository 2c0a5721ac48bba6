import Ribs.Common.Respects
/-!
# Programs whose steps do not fail badly

A step that fails may leave part of its work behind. `Prog.Mild C` says of
a run that what its failing steps leave keeps to `C`; `wpMild C` is the
weakest precondition over all such runs. What a program guarantees under
any plan, it guarantees over these.
-/

namespace Common

variable {σ ε α β : Type} {C R : σ → σ → Prop}

/-- **The failing steps of a run keep to `C`**, from the state that they
fail in to what they leave. -/
def Prog.Mild (C : σ → σ → Prop) : Prog σ ε α → σ → List Fate → Prop
  | .ret _, _, _ => True
  | .throw _, _, _ => True
  | .fault _, _, _ => True
  | .get k, s, p => (k s).Mild C s p
  | .put s k, _, p => k.Mild C s p
  | .io act _ k, s, [] => (k true).Mild C (act s) []
  | .io act _ k, s, .go :: p => (k true).Mild C (act s) p
  | .io _ part k, s, .fail n :: p => C s (part n s) ∧ (k false).Mild C (part n s) p
  | .io _ _ _, _, .die :: _ => True

/-- **The weakest precondition**, over the runs whose failing steps keep to
`C`. -/
def wpMild (C : σ → σ → Prop) : Prog σ ε α → Post σ ε α → σ → Prop
  | .ret a, Q, s => Q.ok a s
  | .throw e, Q, s => Q.err e s
  | .fault k, Q, s => Q.fault k s
  | .get k, Q, s => wpMild C (k s) Q s
  | .put s k, Q, _ => wpMild C k Q s
  | .io act part k, Q, s => wpMild C (k true) Q (act s) ∧
      (∀ n, C s (part n s) → wpMild C (k false) Q (part n s)) ∧ Q.crash s

variable {m : Prog σ ε α} {Q Q' : Post σ ε α} {s : σ}

/-- **Soundness.** -/
theorem wpMild_sound (h : wpMild C m Q s) {p : List Fate} (hp : m.Mild C s p) :
    (m.run s p).Sat Q := by
  induction m generalizing s p with
  | ret a => exact h
  | throw e => exact h
  | fault k => exact h
  | get k ih => exact ih s h hp
  | put t k ih => exact ih h hp
  | io act part k ih =>
    obtain ⟨hgo, hfail, hdie⟩ := h
    rcases p with _ | ⟨_ | n | _, p⟩
    · exact ih true hgo hp
    · exact ih true hgo hp
    · exact ih false (hfail n hp.1) hp.2
    · exact hdie

/-- Where nothing fails, nothing fails badly. -/
theorem Prog.mild_nil : m.Mild C s [] := by
  induction m generalizing s with
  | ret a => trivial
  | throw e => trivial
  | fault k => trivial
  | get k ih => exact ih s
  | put t k ih => exact ih
  | io act part k ih => exact ih true

/-- What every plan guarantees. -/
theorem wpMild_of_wp (h : wp anyFate m Q s) : wpMild C m Q s := by
  induction m generalizing s with
  | ret a => exact h
  | throw e => exact h
  | fault k => exact h
  | get k ih => exact ih s h
  | put t k ih => exact ih h
  | io act part k ih =>
    exact ⟨ih true h.1, fun n _ => ih false (h.2.1 n trivial), h.2.2 trivial⟩

theorem wpMild_mono (h : wpMild C m Q s) (hok : ∀ a t, Q.ok a t → Q'.ok a t)
    (herr : ∀ e t, Q.err e t → Q'.err e t) (hcrash : ∀ t, Q.crash t → Q'.crash t)
    (hfault : ∀ k t, Q.fault k t → Q'.fault k t) : wpMild C m Q' s := by
  induction m generalizing s with
  | ret a => exact hok _ _ h
  | throw e => exact herr _ _ h
  | fault k => exact hfault _ _ h
  | get k ih => exact ih s h
  | put t k ih => exact ih h
  | io act part k ih =>
    exact ⟨ih true h.1, fun n hn => ih false (h.2.1 n hn), hcrash _ h.2.2⟩

/-- Two postconditions a program meets, it meets together. -/
theorem wpMild_and (h : wpMild C m Q s) (h' : wpMild C m Q' s) :
    wpMild C m ⟨fun a t => Q.ok a t ∧ Q'.ok a t, fun e t => Q.err e t ∧ Q'.err e t,
      fun t => Q.crash t ∧ Q'.crash t, fun k t => Q.fault k t ∧ Q'.fault k t⟩ s := by
  induction m generalizing s with
  | ret a => exact ⟨h, h'⟩
  | throw e => exact ⟨h, h'⟩
  | fault k => exact ⟨h, h'⟩
  | get k ih => exact ih s h h'
  | put t k ih => exact ih h h'
  | io act part k ih =>
    exact ⟨ih true h.1 h'.1, fun n hn => ih false (h.2.1 n hn) (h'.2.1 n hn), h.2.2, h'.2.2⟩

theorem wpMild_bind {Q : Post σ ε β} {f : α → Prog σ ε β} : wpMild C (m >>= f) Q s =
    wpMild C m ⟨fun a t => wpMild C (f a) Q t, Q.err, Q.crash, Q.fault⟩ s := by
  change wpMild C (m.bind f) Q s = _
  induction m generalizing s with
  | ret a => rfl
  | throw e => rfl
  | fault k => rfl
  | get k ih => exact ih s
  | put t k ih => exact ih
  | io act part k ih => simp only [Prog.bind, wpMild, ih]

theorem wpMild_handle {h : ε → Prog σ ε α} : wpMild C (m.handle h) Q s =
    wpMild C m ⟨Q.ok, fun e t => wpMild C (h e) Q t, Q.crash, Q.fault⟩ s := by
  induction m generalizing s with
  | ret a => rfl
  | throw e => rfl
  | fault k => rfl
  | get k ih => exact ih s
  | put t k ih => exact ih
  | io act part k ih => simp only [Prog.handle, wpMild, ih]

theorem wpMild_andThen {c : Prog σ ε Unit} : wpMild C (m.andThen c) Q s =
    wpMild C m ⟨fun a t => wpMild C c ⟨fun _ u => Q.ok a u, Q.err, Q.crash, Q.fault⟩ t,
      fun e t => wpMild C c ⟨fun _ u => Q.err e u, Q.err, Q.crash, Q.fault⟩ t,
      Q.crash, Q.fault⟩ s := by
  induction m generalizing s with
  | ret a => exact wpMild_bind (m := c) (f := fun _ => Prog.ret a)
  | throw e => exact wpMild_bind (m := c) (f := fun _ => Prog.throw e)
  | fault k => rfl
  | get k ih => exact ih s
  | put t k ih => exact ih
  | io act part k ih => simp only [Prog.andThen, wpMild, ih]

theorem wpMild_attempt {Q : Post σ ε (Except ε α)} : wpMild C m.attempt Q s =
    wpMild C m ⟨fun a t => Q.ok (.ok a) t, fun e t => Q.ok (.error e) t, Q.crash, Q.fault⟩ s := by
  rw [Prog.attempt, wpMild_handle]
  exact wpMild_bind (m := m) (f := fun a => (.ret (Except.ok a) : Prog σ ε (Except ε α)))

theorem wpMild_ret {a : α} : wpMild C (.ret a : Prog σ ε α) Q s = Q.ok a s := rfl

theorem wpMild_pure {a : α} : wpMild C (pure a : Prog σ ε α) Q s = Q.ok a s := rfl

theorem wpMild_throw {e : ε} : wpMild C (.throw e : Prog σ ε α) Q s = Q.err e s := rfl

theorem wpMild_get {k : σ → Prog σ ε α} : wpMild C (.get k) Q s = wpMild C (k s) Q s := rfl

theorem wpMild_step {Q : Post σ ε Unit} {e : ε} {f : σ → σ} :
    wpMild C (.step e f) Q s ↔ Q.ok () (f s) ∧ (C s s → Q.err e s) ∧ Q.crash s := by
  simp [Prog.step, wpMild]

/-- **Zooming.** What a failing step leaves of the part is what it leaves
of the whole. -/
theorem wpMild_zoom {τ ε' : Type} {C' : τ → τ → Prop} {view : σ → τ} {set : τ → σ → σ}
    {f : ε' → ε} {m : Prog τ ε' α} (hview : ∀ t s, view (set t s) = t)
    (hset : ∀ t t' s, set t (set t' s) = set t s) (hsame : ∀ s, set (view s) s = s)
    (hC : ∀ s t, C s (set t s) → C' (view s) t) (h : wpMild C' m ⟨fun a t => Q.ok a (set t s),
      fun e t => Q.err (f e) (set t s), fun t => Q.crash (set t s),
      fun k t => Q.fault k (set t s)⟩ (view s)) : wpMild C (m.zoom view set f) Q s := by
  induction m generalizing s with
  | ret a => simpa [Prog.zoom, wpMild, hsame] using h
  | throw e => simpa [Prog.zoom, wpMild, hsame] using h
  | fault k => simpa [Prog.zoom, wpMild, hsame] using h
  | get k ih => exact ih _ h
  | put t k ih => exact ih (s := set t s) (by simpa [wpMild, hset, hview] using h)
  | io act part k ih =>
    refine ⟨ih true (s := set (act (view s)) s) (by simpa [wpMild, hset, hview] using h.1),
      fun n hn => ih false (s := set (part n (view s)) s) ?_, ?_⟩
    · simpa [hset, hview] using h.2.1 n (hC s _ hn)
    · simpa [hsame] using h.2.2

/-- **No step fails** where none may. A process may die at any step, so the
crash clause tells where the steps are taken. -/
theorem wpMild_of_mortal (h : wp mortal m Q s) (hC : ∀ t u, Q.crash t → ¬ C t u) :
    wpMild C m Q s := by
  induction m generalizing s with
  | ret a => exact h
  | throw e => exact h
  | fault k => exact h
  | get k ih => exact ih s h
  | put t k ih => exact ih h
  | io act part k ih =>
    have hcrash := h.2.2 rfl
    exact ⟨ih true h.1, fun _ hn => absurd hn (hC _ _ hcrash), hcrash⟩

/-! ## With a known beginning -/

/-- The plan begins with these fates; where it is used up, steps succeed. -/
def Starts : List Fate → List Fate → Prop
  | _, [] => True
  | [], x :: b => x = .go ∧ Starts [] b
  | y :: p, x :: b => y = x ∧ Starts p b

/-- **The weakest precondition behind a beginning**: the first steps have
the given fates, those behind them fail mildly. The postcondition is told
how much of the beginning is left. -/
def wpFrom (C : σ → σ → Prop) : List Fate → Prog σ ε α → (List Fate → Post σ ε α) → σ → Prop
  | b, .ret a, Q, s => (Q b).ok a s
  | b, .throw e, Q, s => (Q b).err e s
  | b, .fault k, Q, s => (Q b).fault k s
  | b, .get k, Q, s => wpFrom C b (k s) Q s
  | b, .put s k, Q, _ => wpFrom C b k Q s
  | [], .io act part k, Q, s => wpFrom C [] (k true) Q (act s) ∧
      (∀ n, C s (part n s) → wpFrom C [] (k false) Q (part n s)) ∧ (Q []).crash s
  | .go :: b, .io act _ k, Q, s => wpFrom C b (k true) Q (act s)
  | .fail n :: b, .io _ part k, Q, s => C s (part n s) → wpFrom C b (k false) Q (part n s)
  | .die :: b, .io _ _ _, Q, s => (Q b).crash s

section

variable {b : List Fate} {K K' : List Fate → Post σ ε α}

/-- **Soundness**, for a plan with that beginning. -/
theorem wpFrom_sound (h : wpFrom C b m (fun _ => Q) s) {p : List Fate} (hb : Starts p b)
    (hp : m.Mild C s p) : (m.run s p).Sat Q := by
  induction m generalizing s p b with
  | ret a => exact h
  | throw e => exact h
  | fault k => exact h
  | get k ih => exact ih s h hb hp
  | put t k ih => exact ih h hb hp
  | io act part k ih =>
    rcases b with _ | ⟨x, b⟩
    · obtain ⟨hgo, hfail, hdie⟩ := h
      rcases p with _ | ⟨_ | n | _, p⟩
      · exact ih true hgo trivial hp
      · exact ih true hgo trivial hp
      · exact ih false (hfail n hp.1) trivial hp.2
      · exact hdie
    · rcases p with _ | ⟨y, p⟩
      · obtain ⟨rfl, hb⟩ := hb
        exact ih true h hb hp
      · obtain ⟨rfl, hb⟩ := hb
        cases y with
        | go => exact ih true h hb hp
        | fail n => exact ih false (h hp.1) hb hp.2
        | die => exact h

/-- Behind the beginning. -/
theorem wpFrom_nil : wpFrom C [] m K s = wpMild C m (K []) s := by
  induction m generalizing s with
  | ret a => rfl
  | throw e => rfl
  | fault k => rfl
  | get k ih => exact ih s
  | put t k ih => exact ih
  | io act part k ih => simp only [wpFrom, wpMild, ih]

theorem wpFrom_mono (h : wpFrom C b m K s) (hok : ∀ b a t, (K b).ok a t → (K' b).ok a t)
    (herr : ∀ b e t, (K b).err e t → (K' b).err e t)
    (hcrash : ∀ b t, (K b).crash t → (K' b).crash t)
    (hfault : ∀ b k t, (K b).fault k t → (K' b).fault k t) : wpFrom C b m K' s := by
  induction m generalizing s b with
  | ret a => exact hok _ _ _ h
  | throw e => exact herr _ _ _ h
  | fault k => exact hfault _ _ _ h
  | get k ih => exact ih s h
  | put t k ih => exact ih h
  | io act part k ih =>
    rcases b with _ | ⟨_ | n | _, b⟩
    · exact ⟨ih true h.1, fun n hn => ih false (h.2.1 n hn), hcrash _ _ h.2.2⟩
    · exact ih true h
    · exact fun hn => ih false (h hn)
    · exact hcrash _ _ h

theorem wpFrom_bind {K : List Fate → Post σ ε β} {f : α → Prog σ ε β} :
    wpFrom C b (m >>= f) K s = wpFrom C b m (fun b =>
      ⟨fun a t => wpFrom C b (f a) K t, (K b).err, (K b).crash, (K b).fault⟩) s := by
  change wpFrom C b (m.bind f) K s = _
  induction m generalizing s b with
  | ret a => rfl
  | throw e => rfl
  | fault k => rfl
  | get k ih => exact ih s
  | put t k ih => exact ih
  | io act part k ih => rcases b with _ | ⟨_ | n | _, b⟩ <;> simp only [Prog.bind, wpFrom, ih]

theorem wpFrom_handle {h : ε → Prog σ ε α} : wpFrom C b (m.handle h) K s =
    wpFrom C b m (fun b => ⟨(K b).ok, fun e t => wpFrom C b (h e) K t, (K b).crash,
      (K b).fault⟩) s := by
  induction m generalizing s b with
  | ret a => rfl
  | throw e => rfl
  | fault k => rfl
  | get k ih => exact ih s
  | put t k ih => exact ih
  | io act part k ih => rcases b with _ | ⟨_ | n | _, b⟩ <;> simp only [Prog.handle, wpFrom, ih]

theorem wpFrom_andThen {c : Prog σ ε Unit} : wpFrom C b (m.andThen c) K s =
    wpFrom C b m (fun b =>
      ⟨fun a t => wpFrom C b c (fun b => ⟨fun _ u => (K b).ok a u, (K b).err, (K b).crash,
          (K b).fault⟩) t,
        fun e t => wpFrom C b c (fun b => ⟨fun _ u => (K b).err e u, (K b).err, (K b).crash,
          (K b).fault⟩) t, (K b).crash, (K b).fault⟩) s := by
  induction m generalizing s b with
  | ret a => exact wpFrom_bind (m := c) (f := fun _ => Prog.ret a)
  | throw e => exact wpFrom_bind (m := c) (f := fun _ => Prog.throw e)
  | fault k => rfl
  | get k ih => exact ih s
  | put t k ih => exact ih
  | io act part k ih =>
    rcases b with _ | ⟨_ | n | _, b⟩ <;> simp only [Prog.andThen, wpFrom, ih]

/-- **Zooming.** -/
theorem wpFrom_zoom {τ ε' : Type} {C' : τ → τ → Prop} {view : σ → τ} {set : τ → σ → σ}
    {f : ε' → ε} {m : Prog τ ε' α} (hview : ∀ t s, view (set t s) = t)
    (hset : ∀ t t' s, set t (set t' s) = set t s) (hsame : ∀ s, set (view s) s = s)
    (hC : ∀ s t, C s (set t s) → C' (view s) t) (h : wpFrom C' b m (fun b =>
      ⟨fun a t => (K b).ok a (set t s), fun e t => (K b).err (f e) (set t s),
        fun t => (K b).crash (set t s), fun k t => (K b).fault k (set t s)⟩) (view s)) :
    wpFrom C b (m.zoom view set f) K s := by
  induction m generalizing s b with
  | ret a => simpa [Prog.zoom, wpFrom, hsame] using h
  | throw e => simpa [Prog.zoom, wpFrom, hsame] using h
  | fault k => simpa [Prog.zoom, wpFrom, hsame] using h
  | get k ih => exact ih _ h
  | put t k ih => exact ih (s := set t s) (by simpa [wpFrom, hset, hview] using h)
  | io act part k ih =>
    have hstep : ∀ (t : τ) (v : Bool) (b : List Fate), wpFrom C' b (k v) (fun b =>
        ⟨fun a u => (K b).ok a (set u s), fun e u => (K b).err (f e) (set u s),
          fun u => (K b).crash (set u s), fun x u => (K b).fault x (set u s)⟩) t →
        wpFrom C b ((k v).zoom view set f) K (set t s) := fun t v b ht =>
      ih v (s := set t s) (by simpa [hset, hview] using ht)
    rcases b with _ | ⟨_ | n | _, b⟩
    · refine ⟨hstep _ true [] h.1, fun n hn => hstep _ false [] (h.2.1 n (hC s _ hn)), ?_⟩
      simpa [wpFrom, hsame] using h.2.2
    · exact hstep _ true b h
    · exact fun hn => hstep _ false b (h (hC s _ hn))
    · change (K b).crash s
      simpa [wpFrom, hsame] using h

end

/-! ## Whatever the end -/

theorem wpMild_always_mono {P P' : σ → Prop} (h : wpMild C m (.always P) s)
    (himp : ∀ t, P t → P' t) : wpMild C m (.always P') s :=
  wpMild_mono h (fun _ => himp) (fun _ => himp) himp fun _ => himp

theorem wpMild_always_bind {f : α → Prog σ ε β} {P P' : σ → Prop}
    (h : wpMild C m (.always P) s) (himp : ∀ t, P t → P' t)
    (hf : ∀ a t, P t → wpMild C (f a) (.always P') t) : wpMild C (m >>= f) (.always P') s := by
  rw [wpMild_bind]
  exact wpMild_mono h hf (fun _ => himp) himp fun _ => himp

/-- **Every run whose steps fail mildly goes along `R`.** -/
def RespectsMild (C R : σ → σ → Prop) (m : Prog σ ε α) : Prop :=
  ∀ s, wpMild C m (.always (R s)) s

theorem Respects.mild (h : Respects R m) : RespectsMild C R m := fun s => wpMild_of_wp (h s)

namespace RespectsMild

/-- A weaker relation. -/
theorem mono {R' : σ → σ → Prop} (h : RespectsMild C R m) (himp : ∀ s t, R s t → R' s t) :
    RespectsMild C R' m := fun s => wpMild_always_mono (h s) (himp s)

theorem get {k : σ → Prog σ ε α} (hk : ∀ s, RespectsMild C R (k s)) :
    RespectsMild C R (.get k) := fun s => hk s s

theorem ite {c : Prop} [Decidable c] {m' : Prog σ ε α} (hm : c → RespectsMild C R m)
    (hm' : ¬ c → RespectsMild C R m') : RespectsMild C R (if c then m else m') := by
  split
  · exact hm ‹_›
  · exact hm' ‹_›

theorem attempt (hm : RespectsMild C R m) : RespectsMild C R m.attempt := fun s => by
  rw [wpMild_attempt]
  exact hm s

variable [IsPreorder σ R]

/-- From where a program got to, on. -/
theorem wp_of (h : RespectsMild C R m) {s t : σ} (hst : R s t) :
    wpMild C m (.always (R s)) t :=
  wpMild_always_mono (h t) fun _ => IsTrans.trans _ _ _ hst

theorem bind {f : α → Prog σ ε β} (hm : RespectsMild C R m) (hf : ∀ a, RespectsMild C R (f a)) :
    RespectsMild C R (m >>= f) := fun s =>
  wpMild_always_bind (hm s) (fun _ => id) fun a _ ht => (hf a).wp_of ht

theorem handle {h : ε → Prog σ ε α} (hm : RespectsMild C R m)
    (hh : ∀ e, RespectsMild C R (h e)) : RespectsMild C R (m.handle h) := fun s => by
  rw [wpMild_handle]
  exact wpMild_mono (hm s) (fun _ _ => id) (fun e _ ht => (hh e).wp_of ht) (fun _ => id)
    fun _ _ => id

theorem andThen {c : Prog σ ε Unit} (hm : RespectsMild C R m) (hc : RespectsMild C R c) :
    RespectsMild C R (m.andThen c) := fun s => by
  rw [wpMild_andThen]
  exact wpMild_mono (hm s) (fun _ _ ht => hc.wp_of ht) (fun _ _ ht => hc.wp_of ht) (fun _ => id)
    fun _ _ => id

end RespectsMild

/-! ## Past a known beginning -/

/-- **The run gets past its beginning**, and then has the property whatever
its end. -/
def Past (C : σ → σ → Prop) (b : List Fate) (m : Prog σ ε α) (J : σ → Prop) (s : σ) : Prop :=
  wpFrom C b m (fun b => .always fun t => b = [] ∧ J t) s

namespace Past

variable {b : List Fate} {J J' : σ → Prop}

theorem sound (h : Past C b m J s) {p : List Fate} (hb : Starts p b) (hp : m.Mild C s p) :
    (m.run s p).Sat (.always J) :=
  wpFrom_sound (Q := .always J) (wpFrom_mono h (fun _ _ _ => And.right) (fun _ _ _ => And.right)
    (fun _ _ => And.right) fun _ _ _ => And.right) hb hp

theorem mono (h : Past C b m J s) (himp : ∀ t, J t → J' t) : Past C b m J' s :=
  wpFrom_mono h (fun _ _ t h => ⟨h.1, himp t h.2⟩) (fun _ _ t h => ⟨h.1, himp t h.2⟩)
    (fun _ t h => ⟨h.1, himp t h.2⟩) fun _ _ t h => ⟨h.1, himp t h.2⟩

/-- What goes on behind the beginning. -/
theorem of_wpMild {b : List Fate} (hb : b = []) (h : wpMild C m (.always J) s) :
    Past C b m J s := by
  subst hb
  unfold Past
  rw [wpFrom_nil]
  exact wpMild_always_mono h fun _ ht => ⟨rfl, ht⟩

theorem bind {f : α → Prog σ ε β} (h : Past C b m J s)
    (hf : ∀ a t, J t → wpMild C (f a) (.always J') t) (himp : ∀ t, J t → J' t) :
    Past C b (m >>= f) J' s := by
  unfold Past
  rw [wpFrom_bind]
  exact wpFrom_mono h (fun _ a t ht => of_wpMild ht.1 (hf a t ht.2))
    (fun _ _ t ht => ⟨ht.1, himp t ht.2⟩) (fun _ t ht => ⟨ht.1, himp t ht.2⟩)
    fun _ _ t ht => ⟨ht.1, himp t ht.2⟩

theorem handle {h : ε → Prog σ ε α} (hm : Past C b m J s)
    (hh : ∀ e t, J t → wpMild C (h e) (.always J) t) : Past C b (m.handle h) J s := by
  unfold Past
  rw [wpFrom_handle]
  exact wpFrom_mono hm (fun _ _ _ => id) (fun _ e t ht => of_wpMild ht.1 (hh e t ht.2))
    (fun _ _ => id) fun _ _ _ => id

theorem andThen {c : Prog σ ε Unit} (h : Past C b m J s)
    (hc : ∀ t, J t → wpMild C c (.always J) t) : Past C b (m.andThen c) J s := by
  unfold Past
  rw [wpFrom_andThen]
  exact wpFrom_mono h (fun _ _ t ht => of_wpMild ht.1 (hc t ht.2))
    (fun _ _ t ht => of_wpMild ht.1 (hc t ht.2)) (fun _ _ => id) fun _ _ _ => id

end Past

end Common
