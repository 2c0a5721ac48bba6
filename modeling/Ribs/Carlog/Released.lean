import Ribs.Carlog.Locks
import Ribs.Carlog.Encoding
/-!
# Carlog — every return lets the locks go

An operation that starts with no lock held returns with none held,
whatever its steps do, but for two return paths that forget one:
`HashSample` of a log without layers keeps `readStateLk`, and `Finalize`
of a log whose head is finalized keeps `idxLk`.
-/

namespace Ribs

open Common

namespace Carlog

/-- The operation returns through a path that forgets a lock: sampling a
log without layers, and finalizing a log whose head is finalized. -/
def Cmd.Forgets (cmd : Cmd) (w : World) : Prop :=
  match cmd with
  | .hashSample => w.jb.layerOffsets = []
  | .finalize => w.jb.finalizing = false ∧ w.jb.wIdx.isNone ∧ w.jb.head = some true ∧
      ∃ h, w.disk.head = some (some h) ∧ h.valid = true ∧ h.finalized = true
  | _ => False

/-- Neither lock is held when the operation returns, and what goes wrong
is not a lock's doing. -/
def Released : Outcome World Err Unit → Prop
  | .ok _ w => w.jb.idxLk = ⟨false, 0⟩ ∧ w.jb.readStateLk = false
  | .err _ w => w.jb.idxLk = ⟨false, 0⟩ ∧ w.jb.readStateLk = false
  | .crash _ => True
  | .fault k _ => k = .panic

theorem released_of_sat {o : Outcome World Err Unit} (h : o.Sat (lockPost .free .free)) :
    Released o := by
  have hfree : ∀ w : World, w.locks = .free →
      w.jb.idxLk = ⟨false, 0⟩ ∧ w.jb.readStateLk = false := fun w hw =>
    ⟨(CarLog.locks_eq.mp hw).1, (CarLog.locks_eq.mp hw).2.1⟩
  cases o with
  | ok a w => exact hfree w h
  | err e w => exact hfree w h
  | crash w => trivial
  | fault k w => exact h

namespace CarLog

/-! ## The two paths -/

/-- Reading the head under the lock, which an error lets go. -/
theorem wp_checkFinalized {w : World} (hw : w.locks = ⟨⟨true, 0⟩, false, 0⟩) :
    wp anyFate (onErr (wrapErr "checking if finalized" (mutHead fun h => .ok h)) unlockIdx)
      ⟨fun h t => t.locks = ⟨⟨true, 0⟩, false, 0⟩ ∧ w.jb.head = some true ∧
          w.disk.head = some (some h) ∧ h.valid = true,
        fun _ t => t.locks = .free, fun _ => True, fun k _ => k = .panic⟩ w := by
  rw [onErr, wp_handle, wrapErr, wp_handle]
  refine wp_mono (wp_mutHead_read w) (fun h t ht => ⟨ht.1.trans hw, ht.2⟩) (fun x t ht => ?_)
    (fun _ _ => trivial) fun _ _ hk => hk
  have hunlock : Locking ⟨⟨true, 0⟩, false, 0⟩ Locks.free .free unlockIdx := locking_unlockIdx
  change wp anyFate (unlockIdx >>= fun _ => Prog.throw _) _ t
  exact wp_seq (hunlock t (ht.trans hw)) (fun _ _ hu => hu) (fun _ _ hu => hu) (fun _ hc => hc)
    fun _ _ hk => hk

variable [X : External]

theorem wp_hashSample {w : World} (hw : w.locks = .free) (hne : w.jb.layerOffsets ≠ []) :
    wp anyFate hashSample (lockPost .free .free) w := by
  obtain ⟨hi, hr, hp⟩ := locks_eq.mp hw
  rw [hashSample, wp_bind]
  simp only [lockReadState, wp, hr, Bool.false_eq_true, if_false, modifyJb, wp_modify, wp_bind,
    failIf, if_neg hne]
  rw [← wp_bind]
  refine (locking_unlockReadState.bind fun _ => quiet_loadMHList.wrapErr _) _ ?_
  exact locks_eq.mpr ⟨hi, rfl, hp⟩

theorem wp_finalize {w : World} (hw : w.locks = .free) (h : ¬ Cmd.finalize.Forgets w) :
    wp anyFate finalize (lockPost .free .free) w := by
  obtain ⟨hi, hr, hp⟩ := locks_eq.mp hw
  have hunlock : Locking ⟨⟨true, 0⟩, false, 0⟩ Locks.free .free unlockIdx := locking_unlockIdx
  rw [finalize, wp_bind]
  simp only [lockIdx, wp, hi, if_true, modifyJb, wp_modify]
  by_cases hfin : w.jb.finalizing = true
  · rw [if_pos hfin]
    exact (hunlock.bind fun _ => .throw) _ (locks_eq.mpr ⟨rfl, hr, hp⟩)
  rw [if_neg hfin, wp_bind, wp_modify]
  by_cases hwr : w.jb.wIdx.isSome = true
  · rw [if_pos hwr]
    exact (hunlock.bind fun _ => .throw) _ (locks_eq.mpr ⟨rfl, hr, hp⟩)
  rw [if_neg hwr]
  refine wp_seq (wp_checkFinalized (locks_eq.mpr ⟨rfl, hr, hp⟩)) ?_ (fun _ _ ht => ht)
    (fun _ _ => trivial) fun _ _ hk => hk
  rintro hd t ⟨ht, hopen, hdisk, hvalid⟩
  have hnot : hd.finalized ≠ true := fun hf =>
    h ⟨by simpa using hfin, by simpa using hwr, hopen, hd, hdisk, hvalid, hf⟩
  rw [if_neg hnot]
  exact (hunlock.bind fun _ => .ite (fun _ => locking_finalizeStaged)
    fun _ => locking_finalizeLocal) t ht

/-! ## One operation -/

/-- **Every operation that does not forget a lock** returns with no lock
held. -/
theorem wp_op {w : World} (hw : w.locks = .free) {cmd : Cmd} (h : ¬ cmd.Forgets w) :
    wp anyFate cmd.op (lockPost .free .free) w := by
  have hdiscard : ∀ {α : Type} {m : Op α}, Locking .free .free .free m →
      Locking .free .free .free (discard m) := fun hm => hm.bind fun _ => .pure
  cases cmd with
  | create staging => exact locking_create w hw
  | openLog staging tc => exact locking_openLog w hw
  | put c b => exact locking_put w hw
  | commit => exact hdiscard locking_commit w hw
  | view c cb => exact locking_view w hw
  | markReadOnly => exact locking_markReadOnly w hw
  | finalize => exact wp_finalize hw h
  | loadData car sz => exact locking_loadData w hw
  | finDataReload blkEnts carSz => exact locking_finDataReload w hw
  | writeCar => exact hdiscard locking_writeCar w hw
  | hashSample =>
    exact wp_seq (wp_hashSample hw h) (fun _ _ ht => ht) (fun _ _ ht => ht) (fun _ ht => ht)
      fun _ _ hk => hk
  | offload => exact locking_offload w hw
  | offloadData => exact locking_offloadLocalData w hw
  | close => exact locking_close w hw

end CarLog

section

variable [X : External]

/-- A path that forgets a lock is a return with a lock held. -/
theorem not_released_of_forgets {w : World} (hw : w.locks = .free) {cmd : Cmd}
    (h : cmd.Forgets w) : ¬ Released (cmd.op.run w []) := by
  obtain ⟨hi, hr, hp⟩ := CarLog.locks_eq.mp hw
  -- nothing fails on the way to the return
  have hheld : wp calm cmd.op ⟨fun _ t => t.jb.idxLk = ⟨true, 0⟩, fun _ t => t.jb.readStateLk = true,
      fun _ => False, fun _ _ => False⟩ w := by
    cases cmd with
    | hashSample =>
      have hne : w.jb.layerOffsets = [] := h
      simp [Cmd.op, discard, CarLog.hashSample, CarLog.lockReadState, wp, hr, modifyJb, failIf, hne]
    | finalize =>
      obtain ⟨hfin, hidx, hopen, hd, hdisk, hvalid, hfinal⟩ := h
      have hwr : w.jb.wIdx = none := by simpa using hidx
      simp [Cmd.op, CarLog.finalize, CarLog.lockIdx, wp, hi, modifyJb, hfin, hwr, onErr, wrapErr,
        CarLog.mutHead, CarLog.readHead, hopen, ioRead, hdisk, failIf, hvalid, CarLog.writeHead,
        hfinal, calm, modifyDisk]
    | _ => exact absurd h id
  have hsat := wp_sound hheld (within_nil (F := calm))
  intro hrel
  cases hrun : cmd.op.run w [] <;> simp only [hrun, Released, Outcome.Sat] at hsat hrel
  · rw [hsat] at hrel
    simp at hrel
  · rw [hsat] at hrel
    simp at hrel

/-! ## Runs -/

/-- No operation of the run forgets a lock. -/
def Remembers (s : Sys) : Event → Prop
  | .call cmd _ => ¬ cmd.Forgets s.world
  | _ => True

/-- Started with the locks free, a run whose operations do not forget a
lock leaves them free. -/
theorem locks_run {s : Sys} (hs : s.world.locks = .free) {es : List Event}
    (h : s.Always Remembers es) : (s.run es).world.locks = .free := by
  refine Sys.run_invariant (I := fun s => s.world.locks = .free) (fun s e hs he => ?_) hs h
  cases e with
  | kill => rfl
  | reboot keepData keepLevel => rfl
  | call cmd plan =>
    simp only [Sys.next]
    split_ifs
    · have hsat := wp_sound (CarLog.wp_op hs he) (within_anyFate plan)
      cases hrun : cmd.op.run s.world plan with
      | ok a w =>
        rw [hrun] at hsat
        cases cmd <;> first | exact hsat | rfl
      | err e w =>
        rw [hrun] at hsat
        simp only [Sys.after]
        split_ifs
        · rfl
        · exact hsat
      | crash w => rfl
      | fault k w => rfl
    · exact hs

/-- **Locks are released on every return.** After any run whose operations
do not forget a lock, an operation lets both locks go whatever its steps
do, and misuses none, exactly when it is not one that forgets a lock. -/
theorem released_iff {s : Sys} (hs : s.world.jb = .zero) {es : List Event}
    (h : s.Always Remembers es) (cmd : Cmd) :
    (∀ plan, Released (cmd.op.run (s.run es).world plan)) ↔ ¬ cmd.Forgets (s.run es).world := by
  have hfree : (s.run es).world.locks = .free := locks_run (by rw [World.locks, hs]; rfl) h
  constructor
  · exact fun hall hforgets => not_released_of_forgets hfree hforgets (hall [])
  · exact fun hnot plan =>
      released_of_sat (wp_sound (CarLog.wp_op hfree hnot) (within_anyFate plan))

end

section

open Encoding

/-- Nothing is forgotten by a `Commit`. -/
theorem released_commit : Released (Cmd.commit.op.run
    ((Sys.start .empty).run [.call (.create false) []]).world []) :=
  (released_iff (s := .start .empty) rfl
    (show Sys.Always _ _ [.call (.create false) []] from ⟨id, trivial⟩) .commit).mpr id []

/-- **A log just made, asked for its sample**, returns with `readStateLk`
held. -/
theorem hashSample_not_released :
    ((Sys.start .empty).run [.call (.create false) []]).isUp = true ∧
      ¬ Released (Cmd.hashSample.op.run
        ((Sys.start .empty).run [.call (.create false) []]).world []) :=
  ⟨rfl, not_released_of_forgets rfl rfl⟩

end

end Carlog

end Ribs
