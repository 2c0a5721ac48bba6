import Mathlib.Order.Defs.Unbundled
import Ribs.Common.Prog
/-!
# What a program does to its state

Much of what is to be known of a program does not depend on its result or
on how it ends: which part of the state it leaves alone, or which way it
moves. `Respects R m` says that every run of `m` goes along the relation
`R`, from the state it starts in to the one it leaves, also when it fails
or dies on the way. `R` is a preorder, so it is enough that the steps go
along it, and the rules follow the program.
-/

namespace Common

variable {σ ε α β : Type} {R : σ → σ → Prop}

/-- The state has the property, whatever the end. -/
def Post.always (Q : σ → Prop) : Post σ ε α := ⟨fun _ => Q, fun _ => Q, Q, fun _ => Q⟩

/-- **Every run goes along `R`.** -/
def Respects (R : σ → σ → Prop) (m : Prog σ ε α) : Prop := ∀ s, wp anyFate m (.always (R s)) s

/-- The state that a run leaves. -/
def Outcome.state : Outcome σ ε α → σ
  | .ok _ s => s
  | .err _ s => s
  | .crash s => s
  | .fault _ s => s

theorem Outcome.Sat.state {o : Outcome σ ε α} {Q : σ → Prop} (h : o.Sat (.always Q)) :
    Q o.state := by
  cases o <;> exact h

theorem wp_always_mono {F : Fates} {m : Prog σ ε α} {Q Q' : σ → Prop} {s : σ}
    (h : wp F m (.always Q) s) (himp : ∀ t, Q t → Q' t) : wp F m (.always Q') s :=
  wp_mono h (fun _ => himp) (fun _ => himp) himp fun _ => himp

theorem wp_always_bind {F : Fates} {m : Prog σ ε α} {f : α → Prog σ ε β} {Q Q' : σ → Prop} {s : σ}
    (h : wp F m (.always Q) s) (himp : ∀ t, Q t → Q' t)
    (hf : ∀ a t, Q t → wp F (f a) (.always Q') t) : wp F (m >>= f) (.always Q') s :=
  wp_seq h hf (fun _ => himp) himp fun _ => himp

namespace Respects

variable {m : Prog σ ε α}

/-- A run goes along `R`. -/
theorem run (h : Respects R m) (s : σ) (p : List Fate) : R s (m.run s p).state :=
  (wp_sound (h s) (within_anyFate p)).state

variable [IsPreorder σ R]

/-- From where a program got to, on. -/
theorem wp_of (h : Respects R m) {s t : σ} (hst : R s t) : wp anyFate m (.always (R s)) t :=
  wp_always_mono (h t) fun _ => IsTrans.trans _ _ _ hst

theorem ret {a : α} : Respects R (.ret a : Prog σ ε α) := fun s => refl s

theorem pure {a : α} : Respects R (Pure.pure a : Prog σ ε α) := fun s => refl s

theorem throw {e : ε} : Respects R (.throw e : Prog σ ε α) := fun s => refl s

theorem fault {k : Fault} : Respects R (.fault k : Prog σ ε α) := fun s => refl s

omit [IsPreorder σ R] in
theorem get {k : σ → Prog σ ε α} (hk : ∀ s, Respects R (k s)) : Respects R (.get k) :=
  fun s => hk s s

theorem put {f : σ → σ} {k : σ → Prog σ ε α} (hf : ∀ s, R s (f s)) (hk : ∀ s, Respects R (k s)) :
    Respects R (.get fun s => .put (f s) (k s)) := fun s => (hk s).wp_of (hf s)

omit [IsPreorder σ R] in
theorem modify {f : σ → σ} (hf : ∀ s, R s (f s)) : Respects R (.modify f : Prog σ ε Unit) := hf

theorem io {act : σ → σ} {part : ℕ → σ → σ} {k : Bool → Prog σ ε α} (hact : ∀ s, R s (act s))
    (hpart : ∀ n s, R s (part n s)) (hk : ∀ b, Respects R (k b)) : Respects R (.io act part k) :=
  fun s => ⟨(hk true).wp_of (hact s), fun n _ => (hk false).wp_of (hpart n s), fun _ => refl s⟩

theorem step {e : ε} {act : σ → σ} (hact : ∀ s, R s (act s)) :
    Respects R (.step e act : Prog σ ε Unit) :=
  io hact (fun _ s => refl s) fun b => by
    cases b
    · exact throw
    · exact ret

theorem bind {f : α → Prog σ ε β} (hm : Respects R m) (hf : ∀ a, Respects R (f a)) :
    Respects R (m >>= f) := fun s =>
  wp_always_bind (hm s) (fun _ => id) fun a _ ht => (hf a).wp_of ht

theorem handle {h : ε → Prog σ ε α} (hm : Respects R m) (hh : ∀ e, Respects R (h e)) :
    Respects R (m.handle h) := fun s => by
  rw [wp_handle]
  exact wp_mono (hm s) (fun _ _ => id) (fun e _ ht => (hh e).wp_of ht) (fun _ => id) fun _ _ => id

theorem andThen {c : Prog σ ε Unit} (hm : Respects R m) (hc : Respects R c) :
    Respects R (m.andThen c) := fun s => by
  rw [wp_andThen]
  exact wp_mono (hm s) (fun _ _ ht => hc.wp_of ht) (fun _ _ ht => hc.wp_of ht) (fun _ => id)
    fun _ _ => id

omit [IsPreorder σ R] in
theorem attempt (hm : Respects R m) : Respects R m.attempt := fun s => by
  rw [wp_attempt]
  exact hm s

omit [IsPreorder σ R] in
theorem ite {c : Prop} [Decidable c] {m' : Prog σ ε α} (hm : c → Respects R m)
    (hm' : ¬ c → Respects R m') : Respects R (if c then m else m') := by
  split
  · exact hm ‹_›
  · exact hm' ‹_›

theorem foldlM {l : List β} {f : α → β → Prog σ ε α} (hf : ∀ a b, Respects R (f a b)) (a : α) :
    Respects R (l.foldlM f a) := by
  induction l generalizing a with
  | nil => exact pure
  | cons b l ih =>
    rw [List.foldlM_cons]
    exact (hf a b).bind ih

theorem forM {l : List β} {f : β → Prog σ ε Unit} (hf : ∀ b, Respects R (f b)) :
    Respects R (l.forM f) := by
  induction l with
  | nil => exact pure
  | cons b l ih => exact (hf b).bind fun _ => ih

omit [IsPreorder σ R] in
/-- **Zooming**: a program on a part goes along `R` when it goes along a
relation of that part which is below it. -/
theorem zoom {τ ε' : Type} {R' : τ → τ → Prop} [IsPreorder τ R'] {view : σ → τ}
    {set : τ → σ → σ} {f : ε' → ε} {m : Prog τ ε' α} (hview : ∀ t s, view (set t s) = t)
    (hset : ∀ t t' s, set t (set t' s) = set t s) (hsame : ∀ s, set (view s) s = s)
    (hR : ∀ s t, R' (view s) t → R s (set t s)) (hm : Respects R' m) :
    Respects R (m.zoom view set f) := fun s =>
  wp_zoom hview hset hsame (wp_mono (hm (view s)) (fun _ t => hR s t) (fun _ t => hR s t)
    (fun t => hR s t) fun _ t => hR s t)

end Respects

/-- No matter where a run goes. -/
def Anywhere (_ _ : σ) : Prop := True

instance : IsPreorder σ Anywhere where
  refl _ := trivial
  trans _ _ _ _ _ := trivial

theorem respects_anywhere {m : Prog σ ε α} : Respects Anywhere m := fun _ => wp_trivial

end Common
