import Ribs.Carlog.System
/-!
# Carlog — locks are released

`Locking a b e m` says of a program what it does to the locks whatever
its steps do: started with the locks as in `a`, it returns a result with
the locks as in `b` and an error with the locks as in `e`, and it neither
waits for a lock nor releases one it does not hold. The rules follow the
program's structure, so each function has one lemma. Most functions do
not touch the locks; they are `Quiet`.
-/

namespace Ribs

open Common

namespace Carlog

/-- The locks of a log, and the reads a data file is kept for. -/
structure Locks where
  idxLk : RWMutex
  readStateLk : Bool
  pendingReads : ℕ

/-- The locks held in a world. -/
def World.locks (w : World) : Locks := ⟨w.jb.idxLk, w.jb.readStateLk, w.jb.pendingReads⟩

/-- Nothing is held. -/
def Locks.free : Locks := ⟨⟨false, 0⟩, false, 0⟩

/-- A return leaves the locks as in `ok` or `err`, and what goes wrong is
not a lock's doing. -/
def lockPost {α : Type} (ok err : Locks) : Post World Err α where
  ok := fun _ w => w.locks = ok
  err := fun _ w => w.locks = err
  crash := fun _ => True
  fault := fun k _ => k = .panic

/-- **What a program does to the locks**, with any of its steps failing. -/
def Locking {α : Type} (pre ok err : Locks) (m : Op α) : Prop :=
  ∀ w : World, w.locks = pre → wp anyFate m (lockPost ok err) w

/-- A program that does not touch the locks. -/
def Quiet {α : Type} (m : Op α) : Prop := ∀ a, Locking a a a m

variable {α β : Type} {a b c e e' : Locks} {m : Op α}

/-! ## The rules -/

namespace Locking

theorem ret {x : α} : Locking a a e (.ret x : Op α) := fun _ hw => hw

theorem pure {x : α} : Locking a a e (Pure.pure x : Op α) := fun _ hw => hw

theorem throw {x : Err} : Locking a b a (.throw x : Op α) := fun _ hw => hw

theorem panic : Locking a b e (.fault .panic : Op α) := fun _ _ => rfl

theorem bind {f : α → Op β} (hm : Locking a b e m) (hf : ∀ x, Locking b c e (f x)) :
    Locking a c e (m >>= f) := fun w hw =>
  wp_seq (hm w hw) (fun x t ht => hf x t ht) (fun _ _ h => h) (fun _ h => h) fun _ _ h => h

theorem handle {h : Err → Op α} (hm : Locking a b e m) (hh : ∀ x, Locking e b e' (h x)) :
    Locking a b e' (m.handle h) := fun w hw => by
  rw [wp_handle]
  exact wp_mono (hm w hw) (fun _ _ h => h) (fun x t ht => hh x t ht) (fun _ h => h) fun _ _ h => h

theorem andThen {k : Op Unit} (hm : Locking a b b m) (hk : Locking b c c k) :
    Locking a c c (m.andThen k) := fun w hw => by
  rw [wp_andThen]
  exact wp_mono (hm w hw) (fun x t ht => wp_mono (hk t ht) (fun _ _ h => h) (fun _ _ h => h)
    (fun _ h => h) fun _ _ h => h) (fun x t ht => wp_mono (hk t ht) (fun _ _ h => h)
    (fun _ _ h => h) (fun _ h => h) fun _ _ h => h) (fun _ h => h) fun _ _ h => h

/-- Reading the state. -/
theorem get {k : World → Op α} (hk : ∀ w, w.locks = a → Locking a b e (k w)) :
    Locking a b e (.get k) := fun w hw => hk w hw w hw

theorem ite {p : Prop} [Decidable p] {m' : Op α} (hm : p → Locking a b e m)
    (hm' : ¬ p → Locking a b e m') : Locking a b e (if p then m else m') := by
  split
  · exact hm ‹_›
  · exact hm' ‹_›

theorem onErr {k : Op Unit} (hm : Locking a b e m) (hk : Locking e e' e' k) :
    Locking a b e' (onErr m k) :=
  hm.handle fun _ => hk.bind fun _ => Locking.throw

theorem wrapErr {s : String} (hm : Locking a b e m) : Locking a b e (wrapErr s m) :=
  hm.handle fun _ => Locking.throw

theorem attempt (hm : Locking a b b m) : Locking a b e (attempt m) := by
  have hok : Locking a b b (m.bind fun x => (.ret (.ok x) : Op (Except Err α))) :=
    hm.bind fun _ => Locking.ret
  exact hok.handle fun _ => Locking.ret

theorem runIf {p : Prop} [Decidable p] {m : Op Unit} (hm : p → Locking a a e m) :
    Locking a a e (runIf p m) := .ite hm fun _ => .ret

theorem failIf {p : Prop} [Decidable p] {x : Err} : Locking a a a (failIf p x) :=
  .ite (fun _ => .throw) fun _ => .ret

theorem foldlM {l : List β} {f : α → β → Op α} (hf : ∀ s x, Locking a a e (f s x)) (s : α) :
    Locking a a e (l.foldlM f s) := by
  induction l generalizing s with
  | nil => exact .pure
  | cons x l ih =>
    rw [List.foldlM_cons]
    exact (hf s x).bind ih

theorem forM {l : List β} {f : β → Op Unit} (hf : ∀ x, Locking a a e (f x)) :
    Locking a a e (l.forM f) := by
  induction l with
  | nil => exact .pure
  | cons x l ih => exact (hf x).bind fun _ => ih

end Locking

namespace Quiet

theorem bind {f : α → Op β} (hm : Quiet m) (hf : ∀ x, Quiet (f x)) : Quiet (m >>= f) :=
  fun a => (hm a).bind fun x => hf x a

theorem handle {h : Err → Op α} (hm : Quiet m) (hh : ∀ x, Quiet (h x)) : Quiet (m.handle h) :=
  fun a => (hm a).handle fun x => hh x a

theorem get {k : World → Op α} (hk : ∀ w, Quiet (k w)) : Quiet (.get k) :=
  fun a => .get fun w _ => hk w a

theorem ret {x : α} : Quiet (.ret x : Op α) := fun _ => .ret

theorem pure {x : α} : Quiet (Pure.pure x : Op α) := fun _ => .pure

theorem throw {x : Err} : Quiet (.throw x : Op α) := fun _ => .throw

theorem panic : Quiet (.fault .panic : Op α) := fun _ => .panic

theorem ite {p : Prop} [Decidable p] {m' : Op α} (hm : Quiet m) (hm' : Quiet m') :
    Quiet (if p then m else m') := fun a => .ite (fun _ => hm a) fun _ => hm' a

theorem wrapErr {s : String} (hm : Quiet m) : Quiet (wrapErr s m) := fun a => (hm a).wrapErr

theorem attempt (hm : Quiet m) : Quiet (attempt m) := fun a => (hm a).attempt

theorem runIf {p : Prop} [Decidable p] {m : Op Unit} (hm : Quiet m) : Quiet (runIf p m) :=
  fun a => .runIf fun _ => hm a

theorem failIf {p : Prop} [Decidable p] {x : Err} : Quiet (failIf p x) := fun _ => .failIf

theorem foldlM {l : List β} {f : α → β → Op α} (hf : ∀ s x, Quiet (f s x)) (s : α) :
    Quiet (l.foldlM f s) := fun a => .foldlM (fun s x => hf s x a) s

theorem forM {l : List β} {f : β → Op Unit} (hf : ∀ x, Quiet (f x)) : Quiet (l.forM f) :=
  fun a => .forM fun x => hf x a

/-- A step that keeps the locks. -/
theorem io {act : World → World} {part : ℕ → World → World} {k : Bool → Op α}
    (hact : ∀ w, (act w).locks = w.locks) (hpart : ∀ n w, (part n w).locks = w.locks)
    (hk : ∀ b, Quiet (k b)) : Quiet (.io act part k) := fun a w hw =>
  ⟨hk true a _ ((hact w).trans hw), fun n _ => hk false a _ ((hpart n w).trans hw),
    fun _ => trivial⟩

theorem step {x : Err} {act : World → World} (hact : ∀ w, (act w).locks = w.locks) :
    Quiet (.step x act) := io hact (fun _ _ => rfl) fun _ => ite ret throw

theorem modify {f : World → World} (hf : ∀ w, (f w).locks = w.locks) :
    Quiet (.modify f : Op Unit) := fun _ w hw => (hf w).trans hw

theorem put {f : World → World} {k : World → Op α} (hf : ∀ w, (f w).locks = w.locks)
    (hk : ∀ w, Quiet (k w)) : Quiet (.get fun w => .put (f w) (k w)) :=
  fun a w hw => hk w a _ ((hf w).trans hw)

end Quiet

/-! ## Steps, files and the head -/

namespace CarLog

theorem quiet_ioRead : Quiet ioRead := .step fun _ => rfl

theorem quiet_ioWrite {f : Disk → Disk} : Quiet (ioWrite f) := .step fun _ => rfl

theorem quiet_deref {o : Option α} : Quiet (deref o) := by
  cases o with
  | none => exact .panic
  | some x => exact .ret

theorem quiet_modifyJb {f : CarLog → CarLog}
    (hf : ∀ j, (f j).idxLk = j.idxLk ∧ (f j).readStateLk = j.readStateLk ∧
      (f j).pendingReads = j.pendingReads) : Quiet (modifyJb f) := .modify fun w => by
  obtain ⟨h1, h2, h3⟩ := hf w.jb
  simp only [World.locks, h1, h2, h3]

theorem quiet_openData : Quiet openData := .get fun w => by
  cases w.jb.data with
  | none => exact .throw
  | some f => exact Quiet.ite (p := f.isOpen = true) .ret .throw

theorem locks_appendFile (p : Bytes) (w : World) : (appendFile p w).locks = w.locks := by
  rw [appendFile]
  cases w.jb.data <;> rfl

theorem quiet_writeOut {p : Bytes} {keep : ℕ → Bytes} : Quiet (writeOut p keep) := fun a w hw => by
  by_cases h : (w.jb.data.map DataFile.isOpen).getD false = true
  · have hio : Quiet (.io (fun w => setBuffered ⟨[], none⟩ (appendFile p w))
        (fun n w => setBuffered ⟨keep n, some .io⟩ (appendFile (p.take n) w))
        fun ok => if ok then .ret () else .throw .io : Op Unit) :=
      .io (fun w => locks_appendFile p w) (fun n w => locks_appendFile _ w) fun _ => .ite .ret .throw
    simpa only [writeOut, wp, if_pos h] using hio a w hw
  · simp only [writeOut, wp, if_neg h]
    exact hw

theorem quiet_flush : Quiet flush := .get fun w => by
  rcases w.jb.dataBuffered with _ | ⟨buf, _ | e⟩
  · exact .panic
  · exact .ite .ret quiet_writeOut
  · exact .throw

theorem quiet_bufWrite {p : Bytes} : Quiet (bufWrite p) := .get fun w => by
  rcases w.jb.dataBuffered with _ | ⟨buf, _ | e⟩
  · exact .panic
  · refine .ite (.modify fun _ => rfl) (.ite quiet_writeOut ?_)
    exact .bind (.modify fun _ => rfl) fun _ => quiet_flush.bind fun _ =>
      .ite (.modify fun _ => rfl) quiet_writeOut
  · exact .throw

theorem quiet_dataReadAt {off n : ℕ} : Quiet (dataReadAt off n) :=
  quiet_openData.bind fun _ => quiet_ioRead.bind fun _ => .get fun _ => .ite .ret .throw

theorem quiet_dataWriteAt {p : Bytes} {off : ℕ} : Quiet (dataWriteAt p off) :=
  quiet_openData.bind fun _ => .io (fun _ => rfl) (fun _ _ => rfl) fun _ => .ite .ret .throw

theorem quiet_dataTruncate {n : ℕ} : Quiet (dataTruncate n) :=
  quiet_openData.bind fun _ => quiet_ioWrite

theorem quiet_dataSync : Quiet dataSync := quiet_openData.bind fun _ => quiet_ioWrite

theorem quiet_dataClose : Quiet dataClose := quiet_openData.bind fun _ => .step fun _ => rfl

theorem quiet_readHead : Quiet readHead := .get fun w => by
  rcases w.jb.head with _ | _ | _
  · exact .throw
  · exact .throw
  · refine quiet_ioRead.bind fun _ => ?_
    rcases w.disk.head with _ | _ | h
    · exact .throw
    · exact .throw
    · exact .ret

theorem quiet_writeHead {h : Head} : Quiet (writeHead h) :=
  .io (fun _ => rfl) (fun _ _ => rfl) fun _ => .ite .ret .throw

theorem quiet_mutHead {change : Head → Except Err Head} : Quiet (mutHead change) :=
  quiet_readHead.wrapErr.bind fun h => Quiet.failIf.bind fun _ => by
    cases change h with
    | error e => exact .throw
    | ok h' =>
      exact quiet_writeHead.wrapErr.bind fun _ => quiet_ioRead.wrapErr.bind fun _ => .pure

theorem quiet_headClose : Quiet headClose := .get fun w => by
  rcases w.jb.head with _ | _ | _
  · exact .throw
  · exact .throw
  · exact .step fun _ => rfl

/-! ## Functions that do not touch the locks -/

theorem quiet_createLevel {get : Disk → Option (Journal Index)}
    {set : Option (Journal Index) → Disk → Disk} : Quiet (createLevel get set) :=
  quiet_ioRead.bind fun _ => .get fun _ => .ite .throw (quiet_ioWrite.bind fun _ => .pure)

theorem quiet_openLevel : Quiet openLevel :=
  quiet_ioRead.bind fun _ => .get fun _ => .ite .ret .throw

theorem quiet_contents : Quiet LevelDBIndex.contents := quiet_ioRead.bind fun _ => .get fun w => by
  cases w.disk.levelIndex with
  | none => exact .throw
  | some j => exact .ret

theorem quiet_result {r : Except Bsst.LookupError α} : Quiet (BSSTIndex.result r) := by
  rcases r with (_ | _ | _) | x
  · exact .throw
  · exact .panic
  · exact .panic
  · exact .ret

theorem quiet_drawSalt : Quiet drawSalt := .put (fun _ => rfl) fun _ => .ret

theorem quiet_closeIndex {idx : ReadableIndex} : Quiet idx.close := by
  cases idx with
  | level idx => exact quiet_ioRead
  | bsst b => exact quiet_ioRead

theorem quiet_readableIndex : Quiet readableIndex := .get fun _ => quiet_deref

theorem quiet_ldWrite {d : List Bytes} : Quiet (ldWrite d) :=
  quiet_bufWrite.bind fun _ => (Quiet.forM fun _ => quiet_bufWrite).bind fun _ => .pure

theorem quiet_flushBuffered : Quiet flushBuffered :=
  .get fun _ => quiet_deref.bind fun _ => .ite .ret quiet_flush

theorem quiet_call {cb : Callback} {x : Call} : Quiet (cb.call x) := .put (fun _ => rfl) fun _ => by
  cases cb x with
  | none => exact .ret
  | some n => exact .throw

theorem quiet_pos : Quiet pos := .get fun _ => quiet_deref

theorem quiet_reach {dataAt : ℕ} {limit : ℤ} : Quiet (reach dataAt limit) :=
  .ite .pure <| quiet_pos.bind fun _ => .ite .pure <|
    quiet_flushBuffered.wrapErr.bind fun _ => quiet_pos.bind fun _ => Quiet.failIf.bind fun _ =>
    .pure

theorem quiet_stagedReadAt {off n : ℕ} : Quiet (stagedReadAt off n) :=
  quiet_ioRead.bind fun _ => .get fun w => by
    cases w.staged with
    | none => exact .throw
    | some s => exact Quiet.ite (p := off + n ≤ s.data.length) .ret .throw

theorem quiet_commitLocked : Quiet commitLocked :=
  quiet_flushBuffered.wrapErr.bind fun _ => quiet_dataSync.wrapErr.bind fun _ => .get fun _ =>
    (quiet_mutHead.bind fun _ => .pure).handle fun _ => .ite .ret .throw

theorem quiet_entries {idx : ReadableIndex} : Quiet idx.entries := by
  cases idx with
  | level idx => exact quiet_contents.bind fun _ => .pure
  | bsst b => exact .panic

theorem quiet_list {idx : ReadableIndex} : Quiet idx.list := by
  cases idx with
  | level idx => exact quiet_contents.bind fun _ => .pure
  | bsst b => exact .panic

theorem quiet_putBlock {m : Multihash} {blk : Bytes} : Quiet (putBlock m blk) := by
  refine .get fun _ => quiet_ldWrite.wrapErr.bind fun _ => .get fun _ => quiet_deref.bind fun _ => ?_
  exact .bind (quiet_modifyJb fun _ => ⟨rfl, rfl, rfl⟩) fun _ => .pure

theorem quiet_putBlocks (l : List (Multihash × Bytes × Bool)) : Quiet (putBlocks l) := by
  induction l with
  | nil => exact .ret
  | cons x l ih =>
    obtain ⟨m, blk, has⟩ := x
    exact .ite (ih.bind fun _ => .pure) (Quiet.failIf.bind fun _ => quiet_putBlock.bind fun _ =>
      ih.bind fun _ => .pure)

theorem quiet_checkResume {j : CarLog} : Quiet (checkResume j) :=
  .runIf <| Quiet.failIf.bind fun _ => Quiet.failIf.bind fun _ => quiet_deref.bind fun _ =>
    Quiet.failIf

theorem quiet_writeOutput {p : Bytes} : Quiet (writeOutput p) :=
  .io (fun _ => rfl) (fun _ _ => rfl) fun _ => .ite .ret .throw

theorem quiet_writeBlock {s : CarWriter} {c : Cid} {data : Bytes} : Quiet (writeBlock s c data) :=
  quiet_writeOutput.bind fun _ => .pure

theorem quiet_saveMHList {l : List Multihash} : Quiet (saveMHList l) :=
  quiet_ioWrite.bind fun _ => quiet_ioWrite

theorem quiet_dropLevel : Quiet dropLevel :=
  .get fun _ => Quiet.failIf.bind fun _ => quiet_ioWrite.wrapErr

theorem quiet_swapIndex {set : CarLog → CarLog} (h : Quiet (modifyJb set)) :
    Quiet (swapIndex set) := by
  refine quiet_readableIndex.bind fun _ => quiet_closeIndex.attempt.bind fun r => h.bind fun _ => ?_
  rcases r with e | _ <;> dsimp only
  · exact .throw
  · exact quiet_dropLevel.wrapErr

theorem quiet_copyFilCar {car : Bytes} : Quiet (copyFilCar car) :=
  .io (fun _ => rfl) (fun _ _ => rfl) fun _ => .ite .ret .throw

theorem quiet_dropFilCar : Quiet dropFilCar := quiet_ioWrite.handle fun _ => .ret

theorem quiet_copyCar {car : Bytes} {n : ℕ} : Quiet (copyCar car n) :=
  quiet_ioRead.bind fun _ => quiet_writeOutput

theorem quiet_loadDataLocked {car : Bytes} {sz : ℕ} : Quiet (loadDataLocked car sz) := by
  refine .get fun _ => Quiet.failIf.bind fun _ => Quiet.failIf.bind fun _ =>
    quiet_ioWrite.wrapErr.bind fun _ => quiet_copyFilCar.attempt.bind fun n =>
    quiet_ioRead.attempt.bind fun cerr => ?_
  rcases n with e | n <;> dsimp only
  · exact quiet_dropFilCar.bind fun _ => .throw
  refine .ite (quiet_dropFilCar.bind fun _ => .throw) ?_
  rcases cerr with e | _ <;> dsimp only
  · exact .throw
  · exact .ret

theorem quiet_openHead : Quiet openHead := by
  refine quiet_ioRead.wrapErr.bind fun _ => .get fun w => ?_
  rcases w.disk.head with _ | _ | h <;> dsimp only
  · exact .throw
  · exact .throw
  · exact quiet_ioRead.wrapErr.bind fun _ => .pure

theorem quiet_checkReloaded : Quiet checkReloaded :=
  quiet_mutHead.wrapErr.bind fun _ => Quiet.failIf.bind fun _ =>
    .ite (quiet_ioRead.wrapErr.bind fun _ => .get fun _ => .failIf) .throw

theorem quiet_reopenHead : Quiet reopenHead := by
  refine quiet_openHead.bind fun _ => Quiet.failIf.bind fun _ => ?_
  exact .bind (quiet_modifyJb fun _ => ⟨rfl, rfl, rfl⟩) fun _ =>
    quiet_mutHead.wrapErr.bind fun _ => .pure

theorem quiet_openFilCar : Quiet openFilCar := by
  refine quiet_ioRead.bind fun _ => .get fun w => ?_
  rcases w.disk.filCar with _ | car <;> dsimp only
  · exact .throw
  · exact .ret

theorem quiet_offloadData : Quiet offloadData := by
  refine .get fun _ => (Quiet.runIf quiet_dataClose.wrapErr).bind fun _ => ?_
  exact .bind (quiet_modifyJb fun _ => ⟨rfl, rfl, rfl⟩) fun _ => quiet_ioWrite.wrapErr

/-! ## Lock operations -/

section

variable {i : RWMutex} {r : Bool} {p : ℕ}

theorem locks_eq {w : World} :
    w.locks = ⟨i, r, p⟩ ↔ w.jb.idxLk = i ∧ w.jb.readStateLk = r ∧ w.jb.pendingReads = p := by
  simp [World.locks]

theorem locking_lockIdx : Locking ⟨⟨false, 0⟩, r, p⟩ ⟨⟨true, 0⟩, r, p⟩ e lockIdx := fun w hw => by
  obtain ⟨hi, hr, hp⟩ := locks_eq.mp hw
  simp only [lockIdx, wp, if_pos hi]
  exact locks_eq.mpr ⟨rfl, hr, hp⟩

theorem locking_unlockIdx : Locking ⟨⟨true, 0⟩, r, p⟩ ⟨⟨false, 0⟩, r, p⟩ e unlockIdx :=
  fun w hw => by
    obtain ⟨hi, hr, hp⟩ := locks_eq.mp hw
    simp only [unlockIdx, wp, hi, if_true]
    exact locks_eq.mpr ⟨rfl, hr, hp⟩

theorem locking_rLockIdx : Locking ⟨⟨false, 0⟩, r, p⟩ ⟨⟨false, 1⟩, r, p⟩ e rLockIdx := fun w hw => by
  obtain ⟨hi, hr, hp⟩ := locks_eq.mp hw
  simp only [rLockIdx, wp, hi, Bool.false_eq_true, if_false]
  exact locks_eq.mpr ⟨by simp only [hi], hr, hp⟩

theorem locking_rUnlockIdx : Locking ⟨⟨false, 1⟩, r, p⟩ ⟨⟨false, 0⟩, r, p⟩ e rUnlockIdx :=
  fun w hw => by
    obtain ⟨hi, hr, hp⟩ := locks_eq.mp hw
    simp only [rUnlockIdx, wp, hi, Nat.one_ne_zero, if_false]
    exact locks_eq.mpr ⟨by simp only [hi], hr, hp⟩

theorem locking_lockReadState : Locking ⟨i, false, p⟩ ⟨i, true, p⟩ e lockReadState := fun w hw => by
  obtain ⟨hi, hr, hp⟩ := locks_eq.mp hw
  simp only [lockReadState, wp, hr, Bool.false_eq_true, if_false]
  exact locks_eq.mpr ⟨hi, rfl, hp⟩

theorem locking_unlockReadState : Locking ⟨i, true, p⟩ ⟨i, false, p⟩ e unlockReadState :=
  fun w hw => by
    obtain ⟨hi, hr, hp⟩ := locks_eq.mp hw
    simp only [unlockReadState, wp, hr, if_true]
    exact locks_eq.mpr ⟨hi, rfl, hp⟩

theorem locking_waitPendingReads : Locking ⟨i, r, 0⟩ ⟨i, r, 0⟩ e waitPendingReads := fun w hw => by
  obtain ⟨hi, hr, hp⟩ := locks_eq.mp hw
  simp only [waitPendingReads, wp, hp, if_true]
  exact hw

theorem locking_withPendingRead {m : Op Unit} (hm : Quiet m) :
    Locking ⟨⟨false, 1⟩, r, p⟩ ⟨⟨false, 0⟩, r, p⟩ ⟨⟨false, 0⟩, r, p⟩ (withPendingRead m) := by
  have hadd : Locking ⟨⟨false, 1⟩, r, p⟩ ⟨⟨false, 1⟩, r, p + 1⟩ ⟨⟨false, 0⟩, r, p⟩
      addPendingRead := fun w hw => by
    obtain ⟨hi, hr, hp⟩ := locks_eq.mp hw
    exact locks_eq.mpr ⟨hi, hr, congrArg (· + 1) hp⟩
  have hdone : Locking ⟨⟨false, 0⟩, r, p + 1⟩ ⟨⟨false, 0⟩, r, p⟩ ⟨⟨false, 0⟩, r, p⟩
      donePendingRead := fun w hw => by
    obtain ⟨hi, hr, hp⟩ := locks_eq.mp hw
    exact locks_eq.mpr ⟨hi, hr, by simp only [hp, Nat.add_sub_cancel]⟩
  exact hadd.bind fun _ => locking_rUnlockIdx.bind fun _ => (hm _).andThen hdone

end

/-- **An operation that takes the index lock and lets it go.** -/
theorem locking_withIdx {m : Op Unit} (hm : Quiet m) :
    Locking .free .free .free (do lockIdx; m.andThen unlockIdx) :=
  locking_lockIdx.bind fun _ => (hm _).andThen locking_unlockIdx

theorem locking_commit : Locking .free .free .free commit :=
  locking_rLockIdx.bind fun _ => .get fun _ _ =>
    .ite (fun _ => locking_rUnlockIdx.bind fun _ => .pure)
      fun _ => (quiet_commitLocked _).andThen locking_rUnlockIdx

theorem locking_markReadOnly : Locking .free .free .free markReadOnly := by
  refine locking_withIdx (.get fun _ => Quiet.failIf.bind fun _ => quiet_mutHead.wrapErr.bind
    fun _ => ?_)
  exact quiet_modifyJb fun _ => ⟨rfl, rfl, rfl⟩

theorem locking_closeRest {j : CarLog} : Locking .free .free .free (closeRest j) := by
  refine .bind (.runIf fun _ => locking_commit.wrapErr.bind fun _ => quiet_dataClose.wrapErr _)
    fun _ => .bind (.runIf fun _ => quiet_headClose.wrapErr _) fun _ => .runIf fun _ => ?_
  exact quiet_ioRead.wrapErr _

theorem locking_close : Locking .free .free .free close := by
  refine locking_lockIdx.bind fun _ => .get fun w _ => ?_
  refine .bind (quiet_modifyJb (fun _ => ⟨rfl, rfl, rfl⟩) _) fun _ => locking_unlockIdx.bind fun _ =>
    locking_waitPendingReads.bind fun _ => ?_
  rcases w.jb.rIdx with _ | idx <;> dsimp only
  · exact locking_closeRest
  · exact locking_commit.wrapErr.bind fun _ => (quiet_dataClose.wrapErr _).bind fun _ =>
      (quiet_headClose.wrapErr _).bind fun _ => quiet_closeIndex.wrapErr _

theorem locking_captureOutput {m : Op α} (hm : Locking a a a m) :
    Locking a a a (captureOutput m) :=
  .bind (Quiet.modify (fun _ => rfl) _) fun _ => .bind hm.attempt fun _ => .get fun _ _ => .ret

/-- A change of memory returns no error. -/
theorem locking_modifyJb {f : CarLog → CarLog}
    (hf : ∀ j, (f j).idxLk = j.idxLk ∧ (f j).readStateLk = j.readStateLk ∧
      (f j).pendingReads = j.pendingReads) : Locking a a e (modifyJb f) :=
  quiet_modifyJb hf a

theorem locking_readableIndex : Locking a a e readableIndex := .get fun w _ => by
  rcases w.jb.rIdx with _ | idx
  · exact .panic
  · exact .ret

theorem locking_offloadIndexes {r : Bool} : Locking ⟨⟨true, 0⟩, r, 0⟩ ⟨⟨false, 0⟩, r, 0⟩
    ⟨⟨false, 0⟩, r, 0⟩ offloadIndexes := by
  refine .get fun _ _ => (Locking.failIf.onErr locking_unlockIdx).bind fun _ =>
    (Locking.failIf.onErr locking_unlockIdx).bind fun _ =>
    ((quiet_mutHead.wrapErr _).onErr locking_unlockIdx).bind fun _ => ?_
  refine .bind (.runIf fun _ => locking_readableIndex.bind fun _ =>
    ((quiet_closeIndex.wrapErr _).onErr locking_unlockIdx).bind fun _ => ?_) fun _ =>
    .bind (.runIf fun _ => ((quiet_ioRead.wrapErr _).onErr locking_unlockIdx).bind fun _ => ?_)
    fun _ => locking_unlockIdx
  · exact locking_modifyJb fun _ => ⟨rfl, rfl, rfl⟩
  · exact locking_modifyJb fun _ => ⟨rfl, rfl, rfl⟩

theorem locking_offload : Locking .free .free .free offload := by
  refine locking_lockReadState.bind fun _ => .get fun _ _ =>
    .ite (fun _ => locking_unlockReadState.bind fun _ => .throw) fun _ => .andThen ?_
    locking_unlockReadState
  refine locking_lockIdx.bind fun _ => locking_offloadIndexes.bind fun _ =>
    locking_waitPendingReads.bind fun _ => (quiet_offloadData _).bind fun _ =>
    (quiet_ioWrite.wrapErr _).bind fun _ => (quiet_ioWrite.wrapErr _).bind fun _ =>
    (quiet_headClose.wrapErr _).bind fun _ => ?_
  exact locking_modifyJb fun _ => ⟨rfl, rfl, rfl⟩

theorem locking_offloadLocalData : Locking .free .free .free offloadLocalData :=
  locking_lockIdx.bind fun _ => .andThen (.get fun _ _ => Locking.failIf.bind fun _ =>
    locking_waitPendingReads.bind fun _ => quiet_offloadData.wrapErr _) locking_unlockIdx

theorem locking_loadData {car : Bytes} {sz : ℕ} : Locking .free .free .free (loadData car sz) :=
  locking_withIdx quiet_loadDataLocked

/-- Reading the head gives the head of the open head file, a valid one. -/
theorem wp_mutHead_read (w : World) : wp anyFate (mutHead fun h => .ok h)
    ⟨fun h t => t.locks = w.locks ∧ w.jb.head = some true ∧ w.disk.head = some (some h) ∧
        h.valid = true, fun _ t => t.locks = w.locks,
      fun _ => True, fun k _ => k = .panic⟩ w := by
  have hread : wp anyFate (wrapErr "read head" readHead)
      ⟨fun h _ => w.jb.head = some true ∧ w.disk.head = some (some h), fun _ _ => True,
        fun _ => True, fun _ _ => True⟩ w := by
    rcases hj : w.jb.head with _ | _ | _
    · simp [wrapErr, readHead, wp, hj]
    · simp [wrapErr, readHead, wp, hj]
    · rcases hd : w.disk.head with _ | _ | h <;>
        simp [wrapErr, readHead, ioRead, wp, hj, hd]
  have hhead : wp anyFate (mutHead fun h => .ok h)
      ⟨fun h _ => w.jb.head = some true ∧ w.disk.head = some (some h) ∧ h.valid = true,
        fun _ _ => True, fun _ => True, fun _ _ => True⟩ w := by
    refine wp_seq hread (fun h t hh => ?_) (fun _ _ _ => trivial) (fun _ _ => trivial)
      fun _ _ _ => trivial
    rw [wp_bind, failIf]
    split_ifs with hv
    · trivial
    refine wp_seq wp_trivial (fun _ _ _ => wp_seq wp_trivial
      (fun _ _ _ => ⟨hh.1, hh.2, by simpa using hv⟩) ?_ ?_ ?_) ?_ ?_ ?_ <;> intros <;> trivial
  exact wp_mono (wp_and (quiet_mutHead w.locks w rfl) hhead) (fun _ _ h => h) (fun _ _ h => h.1)
    (fun _ _ => trivial) fun _ _ h => h.1

theorem locking_upload {size : ℕ} {src : Op Unit} (hsrc : Locking a a a src) :
    Locking a a a (upload size src) := by
  refine (locking_captureOutput hsrc).bind fun x => ?_
  obtain ⟨stream, _ | _⟩ := x <;> dsimp only
  · exact .throw
  · exact Quiet.step (fun _ => rfl) _

theorem quiet_makeNew {taken : Disk → Bool} {f : Disk → Disk} : Quiet (makeNew taken f) :=
  .get fun _ => quiet_ioRead.bind fun _ => Quiet.failIf.bind fun _ => quiet_ioWrite

theorem quiet_putFixed {ents : List LogEntry} : Quiet (putFixed ents) := quiet_ioWrite.wrapErr

theorem quiet_truncate {offset : ℕ} {tc : Option TruncCleanup} : Quiet (truncate offset tc) := by
  refine .get fun _ => Quiet.failIf.bind fun _ => Quiet.failIf.bind fun _ =>
    .bind (.wrapErr (quiet_contents.bind fun _ => .pure)) fun toTruncate => .ite .pure ?_
  rcases tc.bind fun f => f offset toTruncate with _ | n <;> dsimp only
  · refine .bind (Quiet.modify fun _ => rfl) fun _ => quiet_ioWrite.wrapErr.bind fun _ =>
      quiet_dataTruncate.wrapErr.bind fun _ => .bind (quiet_modifyJb fun _ => ⟨rfl, rfl, rfl⟩)
        fun _ => ?_
    exact quiet_mutHead.wrapErr.bind fun _ => .pure
  · exact .throw

theorem quiet_cutTopTree {h : Head} {dataLen : ℕ} : Quiet (cutTopTree h dataLen) :=
  .ite (quiet_dataTruncate.wrapErr.bind fun _ => quiet_mutHead.wrapErr.bind fun _ =>
    quiet_ioRead.wrapErr.bind fun _ => .get fun _ => .ret) .ret

theorem quiet_seekEnd : Quiet seekEnd := by
  refine quiet_ioRead.wrapErr.bind fun _ => ?_
  exact quiet_modifyJb fun _ => ⟨rfl, rfl, rfl⟩

/-- A new log has its locks free. -/
theorem locking_setJb {j : CarLog} (h : j.idxLk = ⟨false, 0⟩ ∧ j.readStateLk = false ∧
    j.pendingReads = 0) : Locking a .free e (setJb j) := fun _ _ => locks_eq.mpr h

theorem quiet_replay {h : Head} {dataLen : ℕ} {tc : Option TruncCleanup} :
    Quiet (replay h dataLen tc) :=
  .get fun _ => .ite (Quiet.failIf.bind fun _ => quiet_truncate.wrapErr) .ret

/-! ## Functions that do not touch the locks, of the package's parameters -/

variable [X : External]

theorem quiet_openBSST {path : BsstPath} : Quiet (openBSST path) :=
  quiet_ioRead.wrapErr.bind fun _ => .get fun w => by
    cases path.get w.disk with
    | none => exact .throw
    | some f =>
      dsimp only
      cases Bsst.openFile f with
      | none => exact .throw
      | some b => exact .ret

theorem locking_createBSST {path : BsstPath} {entries : Op ℕ} {list : Op (Bsst.Source × β)}
    (hentries : Locking a a a entries) (hlist : Locking a a a list) :
    Locking a a a (createBSST path entries list) := by
  refine hentries.wrapErr.bind fun ents => .wrapErr ((quiet_ioWrite.wrapErr _).bind fun _ =>
    (quiet_drawSalt _).bind fun salt => (quiet_ioWrite.wrapErr _).bind fun _ =>
    (quiet_ioRead.wrapErr _).bind fun _ => hlist.wrapErr.bind fun l => ?_)
  obtain ⟨source, extra⟩ := l
  dsimp only
  cases Bsst.buckets salt ents source with
  | error e => exact .panic
  | ok r =>
    exact (quiet_ioWrite.wrapErr _).bind fun _ => (quiet_ioRead.wrapErr _).bind fun _ =>
      (quiet_ioWrite.wrapErr _).bind fun _ => (quiet_ioRead.wrapErr _).bind fun _ =>
      (quiet_ioRead.wrapErr _).bind fun _ => (quiet_openBSST.wrapErr _).bind fun _ => .pure

theorem quiet_has {idx : ReadableIndex} {c : List Multihash} : Quiet (idx.has c) := by
  cases idx with
  | level idx => exact quiet_contents.bind fun _ => .pure
  | bsst b => exact quiet_ioRead.bind fun _ => quiet_result

theorem quiet_get {idx : ReadableIndex} {c : List Multihash} : Quiet (idx.get c) := by
  cases idx with
  | level idx => exact quiet_contents.bind fun _ => .pure
  | bsst b => exact quiet_ioRead.bind fun _ => quiet_result

theorem quiet_putLocked {c : List Multihash} {b : List Bytes} : Quiet (putLocked c b) :=
  .get fun _ => Quiet.failIf.bind fun _ => Quiet.failIf.bind fun _ =>
    quiet_readableIndex.bind fun _ => quiet_has.bind fun _ => (quiet_putBlocks _).bind fun _ =>
    quiet_ioWrite.wrapErr

theorem quiet_readEntry {readAt : ℕ → ℕ → Op Bytes} (h : ∀ off n, Quiet (readAt off n))
    {loc : I64} : Quiet (readEntry readAt loc) := by
  refine .ite .panic ((h _ _).wrapErr.bind fun ent => ?_)
  cases X.cidFromBytes ent with
  | none => exact .throw
  | some r => exact .ret

theorem quiet_viewAt {cb : Callback} {i dataAt : ℕ} {loc : I64} :
    Quiet (viewAt cb i loc dataAt) := by
  refine .get fun _ => .ite (quiet_call.bind fun _ => .pure) (quiet_deref.bind fun lru => ?_)
  rcases lruGet lru loc with _ | ⟨v, lru'⟩ <;> dsimp only
  · exact quiet_reach.bind fun _ => (quiet_readEntry fun _ _ => quiet_dataReadAt).bind fun _ =>
      quiet_call.bind fun _ => .pure
  · exact .bind (quiet_modifyJb fun _ => ⟨rfl, rfl, rfl⟩) fun _ => quiet_call.bind fun _ => .pure

theorem quiet_viewLocs {cb : Callback} (locs : List I64) (i dataAt : ℕ) :
    Quiet (viewLocs cb i locs dataAt) := by
  induction locs generalizing i dataAt with
  | nil => exact .ret
  | cons loc locs ih => exact quiet_viewAt.bind fun _ => ih _ _

theorem quiet_viewStaged {cb : Callback} (locs : List I64) (i : ℕ) :
    Quiet (viewStaged cb i locs) := by
  induction locs generalizing i with
  | nil => exact .ret
  | cons loc locs ih =>
    refine .bind (.ite quiet_call ?_) fun _ => ih _
    exact (quiet_readEntry fun _ _ => quiet_stagedReadAt).bind fun _ => quiet_call

theorem quiet_iterate {dataEnd : ℕ} {cb : β → LogEntry → Op β} {b : β}
    (h : ∀ b e, Quiet (cb b e)) : Quiet (iterate dataEnd cb b) := by
  refine .get fun w => .ite .ret (quiet_openData.bind fun _ => (Quiet.foldlM (fun _ _ =>
    quiet_ioRead.bind fun _ => h _ _) _).bind fun _ => quiet_ioRead.bind fun _ => ?_)
  split
  · exact .ret
  · exact .throw

/-! ## The top tree -/

theorem quiet_writeLinkBlock {next links : List Cid} : Quiet (writeLinkBlock next links) := by
  refine quiet_ldWrite.wrapErr.bind fun _ => ?_
  exact .bind (quiet_modifyJb fun _ => ⟨rfl, rfl, rfl⟩) fun _ => .pure

theorem quiet_collectLink {links : List Cid × List Cid} {e : LogEntry} :
    Quiet (collectLink links e) :=
  .ite (quiet_writeLinkBlock.wrapErr.bind fun _ => .pure) .ret

theorem quiet_finishLayer {links : List Cid × List Cid} : Quiet (finishLayer links) :=
  .ite .ret quiet_writeLinkBlock.wrapErr

theorem quiet_genLayers (fuel : ℕ) (next : List Cid) (offs : List ℕ) :
    Quiet (genLayers fuel next offs) := by
  induction fuel generalizing next offs with
  | zero => exact .ret
  | succ fuel ih =>
    exact .get fun _ => .ite ((Quiet.foldlM (fun _ _ => quiet_writeLinkBlock.wrapErr) _).bind
      fun _ => ih _ _) .ret

theorem quiet_updateHeader {root : Cid} : Quiet (updateHeader root) := by
  refine quiet_dataReadAt.wrapErr.bind fun buf => ?_
  rcases readUvarint buf with e | ⟨hlen, rest⟩ <;> dsimp only
  · exact .throw
  refine .ite .panic ?_
  rcases X.decodeHeader (rest.take hlen) with _ | ⟨version, roots⟩ <;> dsimp only
  · exact .throw
  · exact Quiet.failIf.bind fun _ => Quiet.failIf.bind fun _ => Quiet.failIf.bind fun _ =>
      quiet_dataWriteAt.wrapErr.bind fun _ => quiet_dataSync.wrapErr.bind fun _ => .pure

theorem quiet_readNode {off : ℕ} : Quiet (readNode off) := by
  refine quiet_openData.bind fun _ => quiet_ioRead.bind fun _ => .get fun w => ?_
  rcases readFrame maxAllowedSectionSize ((blockLog w).drop off) with
    (_ | _ | _ | _) | ⟨d, rest⟩ <;> dsimp only
  · exact .throw
  · exact .throw
  · exact .throw
  · exact .throw
  rcases X.cidFromBytes d with _ | ⟨n, c⟩ <;> dsimp only
  · exact .throw
  · exact .ret

theorem quiet_nodeLinks {c : Cid} {data : Bytes} : Quiet (nodeLinks c data) := by
  refine .ite .ret ?_
  rcases X.decodeLinks data with _ | links <;> dsimp only
  · exact .throw
  · exact .ret

theorem quiet_writeNode (atLayer : ℕ) (s : CarWriter) (c : Cid) (data : Bytes) :
    Quiet (writeNode atLayer s c data) := by
  induction atLayer generalizing s c data with
  | zero =>
    exact quiet_writeBlock.wrapErr.bind fun _ => quiet_nodeLinks.bind fun _ => .ite .pure .panic
  | succ atLayer ih =>
    refine quiet_writeBlock.wrapErr.bind fun _ => quiet_nodeLinks.bind fun _ =>
      .foldlM (fun s ci => ?_) _
    exact quiet_deref.bind fun _ => quiet_readNode.wrapErr.bind fun _ => Quiet.failIf.bind fun _ =>
      ih _ _ _

/-! ## Listing, saving and uploading -/

theorem quiet_loadMHList : Quiet loadMHList := by
  refine quiet_ioRead.bind fun _ => .get fun w => ?_
  rcases w.disk.hashSample with _ | data <;> dsimp only
  · exact .throw
  rcases readMHList data with e | l <;> dsimp only
  · exact .throw
  · exact .ret

/-! ## The operations -/

theorem locking_put {c : List Multihash} {b : List Bytes} :
    Locking .free .free .free (put c b) :=
  locking_rLockIdx.bind fun _ => (quiet_putLocked _).andThen locking_rUnlockIdx

theorem locking_view {c : List Multihash} {cb : Callback} :
    Locking .free .free .free (view c cb) := by
  refine locking_rLockIdx.bind fun _ => .get fun w _ => ?_
  rcases w.jb.eIdx with _ | b
  · rcases w.jb.rIdx with _ | idx
    · exact locking_rUnlockIdx.bind fun _ => .throw
    · refine .bind (Locking.attempt (quiet_get _)) fun locs => locking_withPendingRead ?_
      rcases locs with x | locs
      · exact .throw
      · exact quiet_pos.bind fun _ => quiet_viewLocs _ _ _
  · refine .bind (Locking.attempt ((quiet_get : Quiet (ReadableIndex.get (.bsst b) c)) _)) fun locs =>
      locking_withPendingRead ?_
    rcases locs with x | locs
    · exact .throw
    · exact .get fun _ => Quiet.failIf.bind fun _ => quiet_viewStaged _ _

theorem locking_genTopCar : Locking .free .free .free genTopCar := by
  refine .get fun _ _ => Locking.failIf.bind fun _ => (quiet_flushBuffered.wrapErr _).bind fun _ =>
    (quiet_dataSync.wrapErr _).bind fun _ => .get fun w _ => (quiet_checkResume _).bind fun _ => ?_
  refine .bind (quiet_modifyJb (fun _ => ⟨rfl, rfl, rfl⟩) _) fun _ =>
    (quiet_mutHead.wrapErr _).bind fun _ =>
    ((quiet_iterate fun _ _ => quiet_collectLink).wrapErr _).bind fun _ =>
    (quiet_finishLayer _).bind fun _ => (quiet_genLayers _ _ _ _).bind fun r => ?_
  obtain ⟨_ | ⟨root, _ | ⟨_, _⟩⟩, layerOffsets⟩ := r <;> dsimp only
  · exact .throw
  · refine (quiet_flushBuffered.wrapErr _).bind fun _ => (quiet_dataSync.wrapErr _).bind fun _ =>
      (quiet_updateHeader _).bind fun _ => locking_lockReadState.bind fun _ => ?_
    refine .bind (quiet_modifyJb (fun _ => ⟨rfl, rfl, rfl⟩) _) fun _ => .get fun _ _ =>
      .bind (Locking.attempt (quiet_mutHead _)) fun r => locking_unlockReadState.bind fun _ => ?_
    rcases r with x | _
    · exact .throw
    · exact .ret
  · exact .throw

theorem locking_writeCar : Locking .free .free .free writeCar :=
  locking_lockReadState.bind fun _ => .get fun _ _ =>
    .ite (fun _ => locking_unlockReadState.bind fun _ => .throw) fun _ =>
      locking_unlockReadState.bind fun _ => (quiet_readNode.wrapErr _).bind fun _ =>
      (quiet_writeOutput.wrapErr _).bind fun _ => ((quiet_writeNode _ _ _ _).wrapErr _).bind fun _ =>
      .pure

theorem locking_listCar {src : Op Unit} (hsrc : Locking a a a src) :
    Locking a a a (listCar src) := by
  refine (locking_captureOutput hsrc).bind fun x => ?_
  obtain ⟨stream, r⟩ := x
  dsimp only
  rcases listStream stream r with _ | x <;> dsimp only
  · exact .throw
  · exact .ret

theorem locking_writeCarTo : Locking .free .free .free writeCarTo :=
  locking_writeCar.bind fun _ => .pure

theorem locking_genTopUnlocked : Locking ⟨⟨true, 0⟩, false, 0⟩ ⟨⟨true, 0⟩, false, 0⟩
    ⟨⟨true, 0⟩, false, 0⟩ genTopUnlocked := by
  refine locking_unlockIdx.bind fun _ => .bind locking_genTopCar.attempt fun r =>
    locking_lockIdx.bind fun _ => ?_
  rcases r with x | _ <;> dsimp only
  · exact .throw
  · exact .ret

theorem locking_finalizeLocal {hasTop : Bool} :
    Locking .free .free .free (finalizeLocal hasTop) := by
  refine (quiet_readableIndex _).bind fun idx =>
    (locking_createBSST (quiet_entries _) (quiet_list _)).wrapErr.bind fun x =>
    (quiet_saveMHList.wrapErr _).bind fun _ => locking_lockIdx.bind fun _ => ?_
  refine .andThen ((quiet_mutHead.wrapErr _).bind fun _ => .bind (quiet_swapIndex ?_ _) fun _ =>
    .runIf fun _ => locking_genTopUnlocked) locking_unlockIdx
  exact quiet_modifyJb fun _ => ⟨rfl, rfl, rfl⟩

theorem locking_finalizeStaged {hasTop : Bool} :
    Locking .free .free .free (finalizeStaged hasTop) := by
  refine .bind (.runIf fun _ => locking_genTopCar.wrapErr) fun _ =>
    (quiet_readableIndex _).bind fun idx => (quiet_entries.wrapErr _).bind fun ents =>
    (locking_createBSST .ret (locking_listCar locking_writeCarTo)).wrapErr.bind fun x =>
    Locking.failIf.bind fun _ => (quiet_saveMHList.wrapErr _).bind fun _ =>
    (locking_upload locking_writeCarTo).wrapErr.bind fun _ => locking_lockIdx.bind fun _ => ?_
  refine .andThen ((quiet_mutHead.wrapErr _).bind fun _ => quiet_swapIndex ?_ _) locking_unlockIdx
  exact quiet_modifyJb fun _ => ⟨rfl, rfl, rfl⟩

theorem locking_finDataReload {blkEnts carSz : ℕ} :
    Locking .free .free .free (finDataReload blkEnts carSz) := by
  refine locking_lockIdx.bind fun _ => .andThen (.get fun _ _ => Locking.failIf.bind fun _ =>
    .ite (fun _ => quiet_checkReloaded _) fun _ => (quiet_openFilCar.wrapErr _).bind fun car =>
    (locking_createBSST .ret (locking_listCar (quiet_copyCar _))).wrapErr.bind fun x => ?_)
    locking_unlockIdx
  refine .bind (quiet_modifyJb (fun _ => ⟨rfl, rfl, rfl⟩) _) fun _ => Locking.failIf.bind fun _ =>
    (quiet_ioRead.wrapErr _).bind fun _ => (quiet_ioRead.wrapErr _).bind fun _ =>
    (locking_upload (quiet_copyCar _)).wrapErr.bind fun _ => (quiet_ioRead.wrapErr _).bind fun _ =>
    (quiet_ioWrite.wrapErr _).bind fun _ => quiet_reopenHead _

/-! ## Making and opening a log -/

theorem quiet_fixLevelIndex {retiredAt : ℕ} : Quiet (fixLevelIndex retiredAt) := by
  refine .bind (.wrapErr (quiet_iterate fun _ _ => .ite ?_ .ret)) fun _ =>
    .runIf quiet_putFixed
  exact quiet_putFixed.bind fun _ => .pure

theorem quiet_fixLevel {retiredAt : ℕ} : Quiet (fixLevel retiredAt) :=
  quiet_createLevel.wrapErr.bind fun _ => quiet_fixLevelIndex.wrapErr.bind fun _ =>
    quiet_ioRead.wrapErr.bind fun _ => quiet_ioWrite.wrapErr.bind fun _ =>
    quiet_ioWrite.wrapErr.bind fun _ => quiet_openLevel.wrapErr

theorem quiet_openIndex {h : Head} : Quiet (openIndex h) := by
  refine .get fun _ => .ite ?_ (.ite ?_ ?_)
  · refine quiet_openBSST.wrapErr.bind fun _ => Quiet.failIf.bind fun _ => ?_
    exact quiet_modifyJb fun _ => ⟨rfl, rfl, rfl⟩
  · refine quiet_openBSST.wrapErr.bind fun _ => ?_
    exact quiet_modifyJb fun _ => ⟨rfl, rfl, rfl⟩
  · refine .bind (.handle quiet_openLevel fun _ => .ite quiet_fixLevel .throw) fun _ => ?_
    exact quiet_modifyJb fun _ => ⟨rfl, rfl, rfl⟩

theorem locking_create {staging : Bool} : Locking .free .free .free (create staging) :=
  (quiet_makeNew.wrapErr _).bind fun _ => (quiet_makeNew.wrapErr _).bind fun _ =>
    (quiet_makeNew.wrapErr _).bind fun _ => (quiet_ioWrite.wrapErr _).bind fun _ =>
    (quiet_ioWrite.wrapErr _).bind fun _ => (quiet_writeHead.wrapErr _).bind fun _ =>
    (quiet_ioRead.wrapErr _).bind fun _ => (quiet_createLevel.wrapErr _).bind fun _ =>
    locking_setJb ⟨rfl, rfl, rfl⟩

theorem locking_openLog {staging : Bool} {tc : Option TruncCleanup} :
    Locking .free .free .free (openLog staging tc) := by
  have hblock : Quiet openBlockLog := quiet_ioRead.bind fun _ => .get fun _ => .ite .ret .throw
  refine (quiet_openHead _).bind fun h => .ite (fun _ => (quiet_ioRead.wrapErr _).bind fun _ =>
    locking_setJb ⟨rfl, rfl, rfl⟩) fun _ => (hblock.attempt _).bind fun file => ?_
  rcases file with x | f <;> dsimp only
  · exact .ite (fun _ => (locking_setJb ⟨rfl, rfl, rfl⟩).bind fun _ => quiet_openIndex _)
      fun _ => .throw
  · exact (quiet_ioRead.wrapErr _).bind fun _ => .get fun _ _ => Locking.failIf.bind fun _ =>
      (locking_setJb ⟨rfl, rfl, rfl⟩).bind fun _ => (quiet_openIndex _).bind fun _ =>
      (quiet_cutTopTree _).bind fun _ => (quiet_replay _).bind fun _ => quiet_seekEnd _

end CarLog

end Carlog

end Ribs
