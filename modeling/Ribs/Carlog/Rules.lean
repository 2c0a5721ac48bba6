import Ribs.Carlog.State
import Ribs.Common.Respects
/-!
# Carlog — the rules of the world's operations

The weakest preconditions of the combinators and steps that a log's
operations are written in.
-/

namespace Ribs

open Common

namespace Carlog

/-- Some step may report an error. -/
abbrev Failing (F : Fates) : Prop := ∃ n, F (.fail n)

variable {F : Fates} {α : Type} {m : Op α} {w : World}

@[simp] theorem wp_get {Q : Post World Err α} {k : World → Op α} :
    wp F (.get k) Q w = wp F (k w) Q w := rfl

@[simp] theorem wp_put {Q : Post World Err α} {w' : World} :
    wp F (.put w' m) Q w = wp F m Q w' := rfl

@[simp] theorem wp_modifyJb {Q : Post World Err Unit} {f : CarLog → CarLog} :
    wp F (modifyJb f) Q w = Q.ok () { w with jb := f w.jb } := rfl

@[simp] theorem wp_failIf {Q : Post World Err Unit} {c : Prop} [Decidable c] {e : Err} :
    wp F (failIf c e) Q w ↔ (c → Q.err e w) ∧ (¬ c → Q.ok () w) := by
  by_cases h : c <;> simp [failIf, h]

@[simp] theorem wp_runIf {Q : Post World Err Unit} {c : Prop} [Decidable c] {m : Op Unit} :
    wp F (runIf c m) Q w ↔ (c → wp F m Q w) ∧ (¬ c → Q.ok () w) := by
  by_cases h : c <;> simp [runIf, h]

@[simp] theorem wp_wrapErr {Q : Post World Err α} {s : String} :
    wp F (wrapErr s m) Q w =
      wp F m ⟨Q.ok, fun e t => Q.err (.wrap s e) t, Q.crash, Q.fault⟩ w := by
  simp [wrapErr]

@[simp] theorem wp_onErr {Q : Post World Err α} {c : Op Unit} :
    wp F (onErr m c) Q w = wp F m ⟨Q.ok, fun e t =>
      wp F c ⟨fun _ u => Q.err e u, Q.err, Q.crash, Q.fault⟩ t, Q.crash, Q.fault⟩ w := by
  have hc : ∀ e t, wp F (c.bind fun _ => .throw e) Q t =
      wp F c ⟨fun _ u => Q.err e u, Q.err, Q.crash, Q.fault⟩ t := fun e t =>
    wp_bind (m := c) (f := fun _ => Prog.throw e)
  simp only [onErr, wp_handle, hc]

@[simp] theorem wp_attempt {Q : Post World Err (Except Err α)} :
    wp F (attempt m) Q w = wp F m ⟨fun a t => Q.ok (.ok a) t, fun e t => Q.ok (.error e) t,
      Q.crash, Q.fault⟩ w := by
  have hbind : ∀ R : Post World Err (Except Err α), wp F (m.bind fun a => .ret (.ok a)) R w =
      wp F m ⟨fun a t => R.ok (.ok a) t, R.err, R.crash, R.fault⟩ w := fun R =>
    wp_bind (m := m) (f := fun a => (Prog.ret (.ok a) : Op (Except Err α)))
  simp only [attempt, wp_handle, hbind, wp_ret]

@[simp] theorem wp_deref_some {Q : Post World Err α} {a : α} :
    wp F (deref (some a)) Q w = Q.ok a w := rfl

@[simp] theorem wp_ioRead {Q : Post World Err Unit} :
    wp F ioRead Q w ↔ Q.ok () w ∧ (Failing F → Q.err .io w) ∧ (F .die → Q.crash w) := wp_step

@[simp] theorem wp_ioWrite {Q : Post World Err Unit} {f : Disk → Disk} :
    wp F (ioWrite f) Q w ↔ Q.ok () (modifyDisk f w) ∧ (Failing F → Q.err .io w) ∧
      (F .die → Q.crash w) := wp_step

/-- What a write of the files does, and that nothing else happens. -/
theorem wp_ioWrite_eq {f : Disk → Disk} : wp F (ioWrite f)
    ⟨fun _ w' => w' = modifyDisk f w, fun _ w' => Failing F ∧ w' = w, fun w' => w' = w,
      fun _ _ => False⟩ w :=
  wp_ioWrite.mpr ⟨rfl, fun hf => ⟨hf, rfl⟩, fun _ => rfl⟩

theorem wp_ioRead_eq : wp F ioRead
    ⟨fun _ w' => w' = w, fun _ w' => Failing F ∧ w' = w, fun w' => w' = w, fun _ _ => False⟩ w :=
  wp_ioRead.mpr ⟨rfl, fun hf => ⟨hf, rfl⟩, fun _ => rfl⟩

/-- **One step of several**, each of which does nothing when it fails or
dies. -/
theorem wp_stepSeq {α β : Type} {m : Op α} {f : α → Op β} {s : String} {I : World → Prop}
    {R : α → World → Prop} {Q : β → World → Prop} (hI : I w)
    (hm : wp F m ⟨R, fun _ w' => w' = w, fun w' => w' = w, fun _ _ => False⟩ w)
    (hok : ∀ a w', R a w' → wp F (f a) ⟨Q, fun _ w' => I w', I, fun _ _ => False⟩ w') :
    wp F (wrapErr s m >>= f) ⟨Q, fun _ w' => I w', I, fun _ _ => False⟩ w := by
  rw [wp_bind, wp_wrapErr]
  refine wp_mono hm hok ?_ ?_ fun _ _ => False.elim
  · rintro e _ rfl
    exact hI
  · rintro _ rfl
    exact hI

theorem wp_ioWrite_same {f : Disk → Disk} : wp F (ioWrite f)
    ⟨fun _ w' => w' = modifyDisk f w, fun _ w' => w' = w, fun w' => w' = w, fun _ _ => False⟩ w :=
  wp_mono wp_ioWrite_eq (fun _ _ => id) (fun _ _ h => h.2) (fun _ => id) fun _ _ => id

theorem wp_ioRead_same : wp F ioRead
    ⟨fun _ w' => w' = w, fun _ w' => w' = w, fun w' => w' = w, fun _ _ => False⟩ w :=
  wp_mono wp_ioRead_eq (fun _ _ => id) (fun _ _ h => h.2) (fun _ => id) fun _ _ => id

namespace CarLog

/-- Writing the head. -/
theorem wp_writeHead {h : Head} : wp F (writeHead h)
    ⟨fun _ w' => w' = modifyDisk (fun d => { d with head := some (some h) }) w,
      fun _ w' => Failing F ∧ (w' = w ∨ w' = modifyDisk (fun d => { d with head := some none }) w),
      fun w' => w' = w, fun _ _ => False⟩ w := by
  simp only [writeHead, wp, if_true, wp_ret, Bool.false_eq_true, if_false, wp_throw]
  refine ⟨trivial, fun n hn => ⟨⟨n, hn⟩, ?_⟩, fun _ => trivial⟩
  by_cases h0 : n = 0
  · simp only [h0, if_true]
    exact Or.inl rfl
  · simp only [if_neg h0]
    exact Or.inr trivial

end CarLog

end Carlog

end Ribs

/-! ## What an operation does to the world

The rules of `Respects` for the ways operations are put together. -/

namespace Common

namespace Respects

open Ribs.Carlog

variable {α : Type} {R : World → World → Prop} [IsPreorder World R] {m : Op α}

theorem wrapErr {s : String} (hm : Respects R m) : Respects R (wrapErr s m) :=
  hm.handle fun _ => throw

theorem tried (hm : Respects R m) : Respects R (Ribs.Carlog.attempt m) :=
  handle (bind (f := fun a => (.ret (.ok a) : Op (Except Err α))) hm fun _ => ret) fun _ => ret

theorem runIf {c : Prop} [Decidable c] {m : Op Unit} (hm : Respects R m) :
    Respects R (runIf c m) := ite (fun _ => hm) fun _ => ret

theorem failIf {c : Prop} [Decidable c] {e : Err} : Respects R (failIf c e) :=
  ite (fun _ => throw) fun _ => ret

theorem onErr {c : Op Unit} (hm : Respects R m) (hc : Respects R c) : Respects R (onErr m c) :=
  hm.handle fun e => bind (f := fun _ => (.throw e : Op α)) hc fun _ => throw

theorem deref {o : Option α} : Respects R (deref o) := by
  cases o with
  | none => exact fault
  | some a => exact ret

theorem ioRead : Respects R ioRead := step fun w => refl w

omit [IsPreorder World R] in
/-- Both ways go along. -/
theorem either {c : Prop} [Decidable c] {m' : Op α} (hm : Respects R m) (hm' : Respects R m') :
    Respects R (if c then m else m') := ite (fun _ => hm) fun _ => hm'

end Respects

end Common
