import Ribs.Carlog.Marked
import Ribs.Carlog.Live
import Ribs.Rbstor.Counters
/-!
# Rbstor — the recorded head

The row of a group records how far its log was committed, and when the
group is opened its log is not cut back behind that. `sync` records what
`Commit` returns. A log that takes no writes any more has nothing to
commit, and its `Commit` returns zero, so a `Sync` that comes after the
group was filled, or the one in `Close`, takes the record back to zero.
-/

namespace Ribs

open Common

namespace Carlog

variable {F : Fates} {w : World}

/-! ## A log that takes no writes -/

namespace CarLog

/-- It is not written. -/
theorem put_shut [X : External] {c : List Multihash} {b : List Bytes} (hnone : w.jb.wIdx = none) :
    wp F (put c b)
      ⟨fun _ _ => False, fun _ w' => w' = w, fun _ => False, fun _ w' => w' = w⟩ w := by
  refine wp_rLocked rfl fun _ => ?_
  simp only [putLocked, wp_get, wp_bind, wp_failIf]
  exact ⟨fun _ => ⟨rfl, rfl⟩, fun h => absurd (by simp [World.setLk, hnone]) h⟩

/-- `Commit` returns zero, or waits; it takes no step. -/
theorem commit_exec_shut (hnone : w.jb.wIdx = none) (p : List Fate) :
    commit.exec w p = (.ok 0 w, p) ∨ commit.exec w p = (.fault .blocked w, p) := by
  unfold commit rLockIdx
  by_cases hlk : w.jb.idxLk.writer = true
  · right
    rw [Prog.exec_bind]
    simp only [Prog.exec, hlk, if_true]
  · left
    have heq : (⟨false, w.jb.idxLk.readers⟩ : RWMutex) = w.jb.idxLk := by
      rw [← show w.jb.idxLk.writer = false by simpa using hlk]
    have hno : w.jb.wIdx.isNone = true := by rw [hnone]; rfl
    rw [Prog.exec_bind]
    simp only [Prog.exec, hlk, Bool.false_eq_true, if_false, modifyJb, Prog.modify, hno, if_true,
      Prog.exec_bind, rUnlockIdx, Nat.add_one_ne_zero, Nat.add_sub_cancel, heq]
    rfl

theorem markReadOnly_shut (hnone : w.jb.wIdx = none) : wp F markReadOnly
    ⟨fun _ _ => False, fun e w' => e = .errReadOnly ∧ w' = w, fun _ => False,
      fun _ w' => w' = w⟩ w := by
  refine wp_locked rfl fun hlk => ?_
  simp only [markReadOnlyLocked, wp_get, wp_bind, wp_failIf]
  refine ⟨fun _ => ⟨rfl, trivial, ?_⟩, fun h => absurd (by simp [World.setLk, hnone]) h⟩
  rw [← hlk]
  rfl

/-- Letting the lock go is no error. -/
theorem wp_unlockIdx_of {Q : Post World Err Unit} (hok : ∀ u, Q.ok () u)
    (hfault : ∀ k u, Q.fault k u) : wp F unlockIdx Q w := by
  rw [unlockIdx, wp_get]
  split_ifs
  · exact hok _
  · exact hfault _ _

/-- Any other log is not refused as read-only. -/
theorem markReadOnly_not_refused (hsome : w.jb.wIdx.isSome) : wp F markReadOnly
    ⟨fun _ _ => True, fun e _ => e ≠ .errReadOnly, fun _ => True, fun _ _ => True⟩ w := by
  rw [markReadOnly, wp_bind, lockIdx, wp_get]
  split_ifs with hlk
  · simp only [wp_modifyJb, wp_andThen, markReadOnlyLocked, wp_get, wp_bind, wp_failIf, wp_wrapErr]
    refine ⟨fun hnone => ?_, fun _ => ?_⟩
    · rw [Option.isNone_iff_eq_none] at hnone
      rw [hnone] at hsome
      exact absurd hsome (by simp)
    · refine wp_mono wp_trivial (fun _ _ _ => ?_) (fun e t _ => ?_) (fun _ => id) fun _ _ => id
      · exact wp_unlockIdx_of (fun _ => trivial) fun _ _ => trivial
      · exact wp_unlockIdx_of (fun _ => by simp) fun _ _ => trivial
  · trivial

/-- `Close` behind the index pointers. -/
def closeFiles (w : World) : Op Unit := do
  unlockIdx
  waitPendingReads
  match w.jb.rIdx with
  | none => closeRest w.jb
  | some ri => do
    let _ ← wrapErr "committing head" commit
    wrapErr "closing data" dataClose
    wrapErr "closing head" headClose
    wrapErr "closing index" ri.close

theorem close_eq : close = (do
    lockIdx
    .get fun w => do
      modifyJb fun j => { j with rIdx := none, wIdx := none }
      closeFiles w) := rfl

theorem shuts_closeFiles (w : World) : KeepsShut (closeFiles w) := by
  refine marks_unlockIdx.bind fun _ => marks_waitPendingReads.bind fun _ => ?_
  rcases w.jb.rIdx with _ | idx
  · exact marks_closeRest
  · exact marks_commit.wrapErr.bind fun _ => marks_dataClose.wrapErr.bind fun _ =>
      marks_headClose.wrapErr.bind fun _ => marks_closeIndex.wrapErr

/-- `Close` leaves a log that takes no writes. -/
theorem close_shuts : wp anyFate close
    (.settles (fun _ w' => w'.jb.wIdx = none) fun w' => w'.jb.wIdx = none) w := by
  rw [close_eq, wp_bind, lockIdx, wp_get]
  split_ifs with hlk
  · simp only [wp_modifyJb, wp_get, wp_bind]
    exact wp_mono (shuts_closeFiles _ _) (fun _ _ h => h.shut rfl) (fun _ _ h => h.shut rfl)
      (fun _ _ => trivial) fun _ _ _ => trivial
  · trivial

end CarLog

end Carlog

namespace Rbstor

open Carlog (Block Piece Live stream)

variable {α : Type} {g : GroupKey} {r r' : Rbs} {grp : Group} {b : List Block}

/-! ## Steps -/

theorem wp_onLog {m : Carlog.Op α} {Q : Post Rbs Err α} {F : Fates}
    (h : wp F m ⟨fun a w => Q.ok a (setLog g w r), fun e w => Q.err (.carlog e) (setLog g w r),
      fun w => Q.crash (setLog g w r), fun k w => Q.fault k (setLog g w r)⟩ (r.log g)) :
    wp F (onLog g m) Q r :=
  wp_zoom (fun t s => by simp [setLog]) (fun t t' s => by simp [setLog])
    (fun s => by simp [setLog]) h

theorem wp_wrapErr {m : Op α} {Q : Post Rbs Err α} {F : Fates} {s : String} :
    wp F (wrapErr s m) Q r =
      wp F m ⟨Q.ok, fun e t => Q.err (.wrap s e) t, Q.crash, Q.fault⟩ r := by
  rw [wrapErr, wp_handle]
  rfl

/-! ## The record -/

/-- `jb_recorded_head` of the group's row. -/
def recordedHead (g : GroupKey) (r : Rbs) : ℤ :=
  ((r.rows.find? fun row => row.id = g).map Row.jbRecordedHead).getD 0

/-- The row of the group records what the head of its log has retired. -/
def AtRetired (g : GroupKey) (r : Rbs) : Prop :=
  ∃ h, (r.log g).disk.head = some (some h) ∧
    ∀ row ∈ r.rows, row.id = g → row.jbRecordedHead = h.retiredAt

theorem recordedHead_map {f : Row → Row} (hid : ∀ row, (f row).id = row.id) :
    recordedHead g { r with rows := r.rows.map f } =
      ((r.rows.find? fun row => row.id = g).map fun row => (f row).jbRecordedHead).getD 0 := by
  simp only [recordedHead, List.find?_map, Function.comp_def, hid, Option.map_map]

/-- Rows that keep their record. -/
theorem recordedHead_map_same {f : Row → Row} (hid : ∀ row, (f row).id = row.id)
    (hsame : ∀ row, (f row).jbRecordedHead = row.jbRecordedHead) :
    recordedHead g { r with rows := r.rows.map f } = recordedHead g r := by
  rw [recordedHead_map hid, recordedHead]
  simp only [hsame]

theorem recordedHead_groupHead {state : GroupState} {x y at_ : ℤ} :
    recordedHead g { r with rows := r.rows.map (groupHead g state x y at_) } =
      if ∃ row ∈ r.rows, row.id = g then at_ else 0 := by
  rw [recordedHead_map groupHead_id]
  cases hrow : r.rows.find? fun row => row.id = g with
  | none =>
    have hnone : ¬ ∃ row ∈ r.rows, row.id = g := by
      rintro ⟨row, hmem, hid⟩
      exact absurd (List.find?_eq_none.mp hrow row hmem) (by simp [hid])
    rw [if_neg hnone]
    rfl
  | some row =>
    have hid : row.id = g := by simpa using List.find?_some hrow
    rw [if_pos ⟨row, List.mem_of_find?_eq_some hrow, hid⟩, Option.map_some, groupHead, if_pos hid]
    rfl

theorem recordedHead_of_none (hnone : ¬ ∃ row ∈ r.rows, row.id = g) : recordedHead g r = 0 := by
  have hrow : (r.rows.find? fun row => row.id = g) = none :=
    List.find?_eq_none.mpr fun row hmem => by simpa using fun hid => hnone ⟨row, hmem, hid⟩
  rw [recordedHead, hrow]
  rfl

/-- Recording what lies ahead. -/
theorem recordedHead_groupHead_of_le {state : GroupState} {x y at_ : ℤ}
    (hle : recordedHead g r ≤ at_) (hpos : 0 ≤ at_) :
    recordedHead g r ≤ recordedHead g { r with rows := r.rows.map (groupHead g state x y at_) } ∧
      recordedHead g { r with rows := r.rows.map (groupHead g state x y at_) } ≤ at_ := by
  rw [recordedHead_groupHead]
  split_ifs with hrow
  · exact ⟨hle, le_refl _⟩
  · exact ⟨(recordedHead_of_none hrow).le, hpos⟩

/-! ## What leaves the record alone -/

/-- The rows and the logs are what they were. -/
structure SameRecord (g : GroupKey) (r r' : Rbs) : Prop where
  rows : r'.rows = r.rows
  log : r'.log g = r.log g

instance : IsPreorder Rbs (SameRecord g) where
  refl _ := ⟨rfl, rfl⟩
  trans _ _ _ h h' := ⟨h'.rows.trans h.rows, h'.log.trans h.log⟩

theorem SameRecord.recordedHead (h : SameRecord g r r') : recordedHead g r' = recordedHead g r := by
  unfold Rbstor.recordedHead
  rw [h.rows]

section

variable [X : Carlog.External]

/-- **What is recorded of a log open for writing is retired.** A log that
takes no writes is not synced. -/
def Recorded (g : GroupKey) (r : Rbs) : Prop :=
  (r.log g).jb.wIdx = none ∨ ∃ ts ss, Live (fun _ => True) True False ts ss (r.log g) ∧
    recordedHead g r ≤ (stream ts).length

theorem Recorded.of_same (h : Recorded g r) (hsame : SameRecord g r r') : Recorded g r' := by
  unfold Recorded
  rw [hsame.log, hsame.recordedHead]
  exact h

theorem Recorded.after {n : ℤ} (h : Recorded g r) (hn : n ≤ recordedHead g r)
    (hsame : SameRecord g r r') : Recorded g r' ∧ n ≤ recordedHead g r' :=
  ⟨h.of_same hsame, hsame.recordedHead.symm ▸ hn⟩

/-- Where a step ends: the record is still right, and not below `n`. -/
def Keeping (g : GroupKey) (n : ℤ) (Q : α → Rbs → Prop) : Post Rbs Err α where
  ok a r' := Recorded g r' ∧ n ≤ recordedHead g r' ∧ Q a r'
  err _ r' := Recorded g r' ∧ n ≤ recordedHead g r'
  crash r' := n ≤ recordedHead g r'
  fault _ r' := n ≤ recordedHead g r'

/-! ## The operations -/

theorem recorded_live {ts ss : List Piece} {w : Carlog.World}
    (hlive : Live (fun _ => True) True False ts ss w)
    (hle : recordedHead g r ≤ (stream ts).length) :
    Recorded g (setLog g w r) := by
  refine Or.inr ⟨ts, ss, ?_, hle⟩
  simpa [setLog] using hlive

/-- **`sync`** of a log that is open for writing records what it retired. -/
theorem wp_sync_recorded {n : ℤ} (hgrp : r.openGroups g = some grp) (h : Recorded g r)
    (hopen : (r.log g).jb.wIdx.isSome) (hn : n ≤ recordedHead g r) :
    wp anyFate (Group.sync g) (Keeping g n fun _ r' => AtRetired g r') r := by
  obtain ⟨ts, ss, hlive, hle⟩ : ∃ ts ss, Live (fun _ => True) True False ts ss (r.log g) ∧
      recordedHead g r ≤ (stream ts).length := by
    rcases h with hnone | h
    · rw [hnone] at hopen
      exact absurd hopen (by simp)
    · exact h
  have hpre : ∀ ts', ts' = ts ∨ ts' = ss → recordedHead g r ≤ (stream ts').length := by
    have hlen := (Carlog.stream_isPrefix hlive.le).length_le
    rintro _ (rfl | rfl)
    · exact hle
    · omega
  rw [Group.sync, wp_bind, wp_wrapErr]
  refine wp_onLog (wp_mono (Carlog.CarLog.wp_commit (E := True) (fun _ => trivial) hlive) ?_ ?_
    (fun _ _ => hn) fun _ _ _ => hn)
  · rintro at_ w ⟨-, rfl, hdone⟩
    change wp anyFate (modifyGroup g Group.committed >>= fun _ => _) _ (setLog g w r)
    obtain ⟨h₁, hhead⟩ := hdone.head
    have hopened : (setLog g w r).openGroups g = some grp := hgrp
    have hkept := recorded_live hdone.live (hpre ss (Or.inr rfl))
    rw [wp_bind, wp_modifyGroup hopened]
    change wp anyFate (getGroup g >>= fun _ => _) _ (setGroup g grp.committed (setLog g w r))
    rw [wp_bind, wp_getGroup setGroup_same]
    change wp anyFate (wrapErr _ _) _ _
    rw [wp_wrapErr, setGroupHead, wp_step]
    refine ⟨?_, fun _ => ⟨hkept, hn⟩, fun _ => hn⟩
    have hrec := @recordedHead_groupHead_of_le g (setGroup g grp.committed (setLog g w r))
      grp.committed.state grp.committed.committedBlocks grp.committed.committedSize _
      (hpre ss (Or.inr rfl)) (by omega)
    refine ⟨Or.inr ⟨ss, ss, ?_, hrec.2⟩, le_trans hn hrec.1, h₁, ?_, fun row hrow hid => ?_⟩
    · simpa [setLog, setGroup] using hdone.live
    · simpa [setLog, setGroup] using hhead
    · rw [hdone.live.head h₁ hhead]
      obtain ⟨row', -, rfl⟩ := List.mem_map.mp hrow
      rw [groupHead_id] at hid
      rw [groupHead, if_pos hid]
      rfl
  · rintro e w ⟨-, ts', hts', hlive'⟩
    exact ⟨recorded_live hlive' (hpre ts' hts'), hn⟩

/-- The write to the log, which is one that is open for writing when it
returns nil. -/
theorem wp_putLog_recorded {n : ℤ} (h : Recorded g r) (hn : n ≤ recordedHead g r) :
    wp anyFate (Group.putLog g b)
      (Keeping g n fun _ r' => (r'.log g).jb.wIdx.isSome = true) r := by
  rw [Group.putLog, wp_bind, wp_wrapErr]
  rcases h with hnone | ⟨ts, ss, hlive, hle⟩
  · refine wp_onLog (wp_mono (Carlog.CarLog.put_shut hnone) (fun _ _ => False.elim) ?_
      (fun _ => False.elim) fun _ _ _ => hn)
    rintro e _ rfl
    exact ⟨Or.inl (by simpa [setLog] using hnone), hn⟩
  · refine wp_onLog (wp_mono (Carlog.CarLog.wp_put (E := True) (fun _ => trivial) hlive
      fun _ _ _ _ _ _ => trivial) ?_ ?_ (fun _ _ => hn) fun _ _ _ => hn)
    · rintro - w ⟨j, t', hdone⟩
      exact ⟨recorded_live hdone.live hle, hn, by simpa [setLog] using hdone.live.wIdx⟩
    · rintro e w ⟨-, j, es, -, -, hlive'⟩
      exact ⟨recorded_live hlive' hle, hn⟩

omit X in
theorem sameRecord_addIndex : Respects (SameRecord g) (Group.addIndex g b) := .get fun r => by
  split
  · exact .fault
  · exact Respects.handle (.step fun _ => ⟨rfl, rfl⟩) fun _ => .throw

theorem wp_write_recorded {n : ℤ} (h : Recorded g r) (hn : n ≤ recordedHead g r) :
    wp anyFate (Group.write g b)
      (Keeping g n fun _ r' => (r'.log g).jb.wIdx.isSome = true) r := by
  rw [Group.write, wp_bind, wp_attempt]
  refine wp_mono (wp_putLog_recorded h hn) ?_ ?_ (fun _ => id) fun _ _ => id
  · rintro - t ⟨ht, hnt, hopen⟩
    change wp anyFate ((Group.addIndex g b).attempt >>= fun add => _) _ t
    rw [wp_bind, wp_attempt]
    refine wp_mono (sameRecord_addIndex t) (fun _ u hu => ?_) (fun _ u hu => ht.after hnt hu)
      (fun u hu => (ht.after hnt hu).2) fun _ u hu => (ht.after hnt hu).2
    rw [← hu.log] at hopen
    exact And.intro (ht.after hnt hu).1 ⟨(ht.after hnt hu).2, hopen⟩
  · rintro e t ⟨ht, hnt⟩
    change wp anyFate ((Group.addIndex g b).attempt >>= fun add => _) _ t
    rw [wp_bind, wp_attempt]
    exact wp_mono (sameRecord_addIndex t) (fun _ u hu => ht.after hnt hu)
      (fun _ u hu => ht.after hnt hu) (fun u hu => (ht.after hnt hu).2)
      fun _ u hu => (ht.after hnt hu).2

/-- A log that is marked read-only, or was before. -/
theorem wp_markReadOnly_recorded {n : ℤ} (h : Recorded g r) (hn : n ≤ recordedHead g r) :
    wp anyFate (onLog g Carlog.CarLog.markReadOnly)
      ⟨fun _ r' => Recorded g r' ∧ n ≤ recordedHead g r' ∧ (r'.log g).jb.wIdx = none,
        fun e r' => Recorded g r' ∧ n ≤ recordedHead g r' ∧
          (e = .carlog .errReadOnly → (r'.log g).jb.wIdx = none),
        fun r' => n ≤ recordedHead g r', fun _ r' => n ≤ recordedHead g r'⟩ r := by
  rcases h with hnone | ⟨ts, ss, hlive, hle⟩
  · refine wp_onLog (wp_mono (Carlog.CarLog.markReadOnly_shut hnone) (fun _ _ => False.elim) ?_
      (fun _ => False.elim) fun _ _ _ => hn)
    rintro e _ ⟨-, rfl⟩
    have hlog : ((setLog g (r.log g) r).log g).jb.wIdx = none := by simpa [setLog] using hnone
    exact ⟨Or.inl hlog, hn, fun _ => hlog⟩
  · have hnot := Carlog.CarLog.markReadOnly_not_refused (F := anyFate) hlive.wIdx
    refine wp_onLog (wp_mono (wp_and (Carlog.CarLog.wp_markReadOnly hlive) hnot) ?_ ?_
      (fun _ _ => hn) fun _ _ _ => hn)
    · rintro - _ ⟨⟨u, -, rfl⟩, -⟩
      have hlog : ((setLog g (Carlog.shut u) r).log g).jb.wIdx = none := by
        simp [setLog, Carlog.shut]
      exact ⟨Or.inl hlog, hn, hlog⟩
    · rintro e w ⟨hlive', hne⟩
      exact ⟨recorded_live hlive' hle, hn, fun h => absurd (Err.carlog.inj h) hne⟩

/-- **`Put`.** -/
theorem wp_put_recorded {n : ℤ} (hgrp : r.openGroups g = some grp) (h : Recorded g r)
    (hn : n ≤ recordedHead g r) :
    wp anyFate (Group.put g b) (Keeping g n fun _ _ => True) r := by
  unfold Group.put
  by_cases hb : b = []
  · rw [if_pos hb]
    exact And.intro h ⟨hn, trivial⟩
  rw [if_neg hb, wp_bind, wp_getGroup hgrp]
  change wp anyFate (if grp.state ≠ .writable then _ else _) _ r
  by_cases hstate : grp.state ≠ .writable
  · rw [if_pos hstate]
    exact And.intro h ⟨hn, trivial⟩
  rw [if_neg hstate, wp_bind, wp_modify]
  have hset : (setGroup g (grp.reserved b) r).openGroups g = some (grp.reserved b) := setGroup_same
  refine wp_seq (wp_and (wp_write_recorded (r := setGroup g (grp.reserved b) r) h hn)
    (sameGroup_write _)) ?_ (fun _ _ ht => ht.1) (fun _ ht => ht.1) fun _ _ ht => ht.1
  rintro _ t ⟨⟨ht, hnt, hopen⟩, hsame⟩
  change wp anyFate (if (grp.reserved b).state = .full then _ else _) _ t
  by_cases hfull : (grp.reserved b).state = .full
  swap
  · rw [if_neg hfull]
    exact And.intro ht ⟨hnt, trivial⟩
  rw [if_pos hfull, wp_bind, Group.retire, wp_bind, wp_wrapErr]
  refine wp_mono (wp_sync_recorded (hsame.trans hset) ht hopen hnt) ?_ (fun _ _ => id)
    (fun _ => id) fun _ _ => id
  rintro - u ⟨hu, hnu, -⟩
  change wp anyFate (wrapErr _ (onLog g Carlog.CarLog.markReadOnly)) _ u
  rw [wp_wrapErr]
  exact wp_mono (wp_markReadOnly_recorded hu hnu) (fun _ _ hv => ⟨hv.1, hv.2.1, trivial⟩)
    (fun _ _ hv => ⟨hv.1, hv.2.1⟩) (fun _ => id) fun _ _ => id

/-! ## What opens no log -/

/-- A log that takes no writes still takes none, and nothing is recorded. -/
structure StaysShut (g : GroupKey) (r r' : Rbs) : Prop where
  shut : (r.log g).jb.wIdx = none → (r'.log g).jb.wIdx = none
  recorded : recordedHead g r' = recordedHead g r

omit X in
instance : IsPreorder Rbs (StaysShut g) where
  refl _ := ⟨id, rfl⟩
  trans _ _ _ h h' := ⟨fun hw => h'.shut (h.shut hw), h'.recorded.trans h.recorded⟩

omit X in
theorem shut_onLog {m : Carlog.Op α} (hm : Carlog.KeepsShut m) :
    Respects (StaysShut g) (onLog g m) :=
  Respects.zoom (fun t s => by simp [setLog]) (fun t t' s => by simp [setLog])
    (fun s => by simp [setLog])
    (fun s t ht => ⟨fun hw => by simpa [setLog] using ht.shut hw, rfl⟩) hm

omit X in
theorem shut_wrapErr {s : String} {m : Op α} (hm : Respects (StaysShut g) m) :
    Respects (StaysShut g) (wrapErr s m) := hm.handle fun _ => .throw

omit X in
theorem shut_getGroup : Respects (StaysShut g) (getGroup g) := .get fun r => by
  cases r.openGroups g with
  | none => exact .fault
  | some grp => exact .ret

omit X in
theorem shut_advanceState {st : GroupState} : Respects (StaysShut g) (Group.advanceState g st) := by
  refine .bind (shut_getGroup.bind fun grp => .modify fun r => ⟨id, rfl⟩) fun _ => .step fun r => ?_
  have hid : ∀ row : Row, (if row.id = g then { row with state := st } else row).id = row.id :=
    fun row => by split_ifs <;> rfl
  have hsame : ∀ row : Row, (if row.id = g then { row with state := st } else row).jbRecordedHead =
      row.jbRecordedHead := fun row => by split_ifs <;> rfl
  exact ⟨id, recordedHead_map_same hid hsame⟩

/-- What is behind a log that takes no writes. -/
theorem keeping_of_shut {n : ℤ} {m : Op α} (hm : Respects (StaysShut g) m)
    (hnone : (r.log g).jb.wIdx = none) (hn : n ≤ recordedHead g r) :
    wp anyFate m (Keeping g n fun _ _ => True) r := by
  have hle : ∀ t, StaysShut g r t → n ≤ recordedHead g t := fun t h => hn.trans h.recorded.ge
  exact wp_mono (hm r) (fun _ t h => ⟨Or.inl (h.shut hnone), hle t h, trivial⟩)
    (fun _ t h => ⟨Or.inl (h.shut hnone), hle t h⟩) hle fun _ => hle

/-- **`Finalize`** goes on when the log is marked read-only. -/
theorem wp_finalize_recorded {n : ℤ} (h : Recorded g r) (hn : n ≤ recordedHead g r) :
    wp anyFate (Group.finalize g) (Keeping g n fun _ _ => True) r := by
  rw [Group.finalize, wp_bind]
  refine wp_failUnless hn ⟨h, hn⟩ fun _ => ?_
  change wp anyFate (_ >>= fun _ => _) _ r
  have hrest : Respects (StaysShut g) (do
      wrapErr "finalize jbob" (onLog g Carlog.CarLog.finalize)
      wrapErr "mark level index dropped" (Group.advanceState g .vrcarDone)) :=
    (shut_wrapErr (shut_onLog Carlog.CarLog.marks_finalize)).bind fun _ =>
      shut_wrapErr shut_advanceState
  rw [wp_bind, wp_handle]
  refine wp_mono (wp_markReadOnly_recorded h hn) (fun _ t ht => ?_) (fun e t ht => ?_) (fun _ => id)
    fun _ _ => id
  · exact keeping_of_shut hrest ht.2.2 ht.2.1
  · dsimp only
    split
    · exact keeping_of_shut hrest (ht.2.2 rfl) ht.2.1
    · exact ⟨ht.1, ht.2.1⟩

/-- **`Close` of the log.** -/
theorem wp_close_recorded {n : ℤ} (hn : n ≤ recordedHead g r) :
    wp anyFate (onLog g Carlog.CarLog.close) (Keeping g n fun _ _ => True) r := by
  have hshut : ∀ w : Carlog.World, w.jb.wIdx = none → Recorded g (setLog g w r) := fun w hw =>
    Or.inl (by simpa [setLog] using hw)
  exact wp_onLog (wp_mono Carlog.CarLog.close_shuts (fun _ w hw => ⟨hshut w hw, hn, trivial⟩)
    (fun _ w hw => ⟨hshut w hw, hn⟩) (fun _ _ => hn) fun _ _ _ => hn)

omit X in
/-- A `Sync` of a log that takes no writes, which cannot write the row. -/
theorem sync_shut_kept {x : Fate} {plan : List Fate} (hnone : (r.log g).jb.wIdx = none)
    (hgrp : r.openGroups g = some grp) (hx : x ≠ .go) : ((Group.sync g).run r (x :: plan)).Sat
    ⟨fun _ _ => False, fun _ => SameRecord g r, SameRecord g r, fun _ => SameRecord g r⟩ := by
  have hsame : setLog g (r.log g) r = r := by simp [setLog]
  have hset : ∀ grp', SameRecord g r (setGroup g grp' r) := fun _ => ⟨rfl, rfl⟩
  rw [Prog.run_eq_exec, Group.sync, Prog.exec_bind, wrapErr, Prog.exec_handle, onLog,
    Prog.exec_zoom (fun t s => by simp [setLog]) (fun t t' s => by simp [setLog])
      fun s => by simp [setLog]]
  rcases Carlog.CarLog.commit_exec_shut hnone (x :: plan) with hcommit | hcommit
  · have hopened : (setGroup g grp.committed r).openGroups g = some grp.committed := setGroup_same
    simp only [hcommit, hsame, modifyGroup, getGroup, Prog.exec_bind, Prog.exec, hgrp, hopened,
      Prog.modify, wrapErr, Prog.exec_handle, setGroupHead, Prog.step]
    cases x with
    | go => exact absurd rfl hx
    | fail n => exact hset _
    | die => exact hset _
  · simp only [hcommit, hsame]
    exact ⟨rfl, rfl⟩

end

/-! ## Runs -/

/-- **A group and what uses it**: the flushes that found it among the
writable groups, and the `Close`s that are behind their `Sync`. Neither
holds a lock of the group there. -/
structure SharedGroup where
  rbs : Rbs
  flushing : ℕ
  closing : ℕ

/-- The process is gone, and with it what was in memory of the group. -/
def Rbs.down (g : GroupKey) (r : Rbs) : Rbs :=
  { r with
    openGroups := Function.update r.openGroups g none
    log := Function.update r.log g { r.log g with jb := .zero } }

/-- What is done with a group, under a plan for its steps. -/
inductive SharedEvent where
  | put (b : List Block) (plan : List Fate)
  | sync (plan : List Fate)
  | flush
  /-- The `Sync` of a `Flush`. -/
  | flushSync (plan : List Fate)
  | finalize (plan : List Fate)
  /-- The `Sync` of a `Close`. -/
  | close (plan : List Fate)
  | closeLog (plan : List Fate)

/-- `Put` of a batch, with the group that it filled dropped from the
writable ones. -/
def batchPut [Carlog.External] (g : GroupKey) (b : List Block) : Op Unit := do
  let _ ← Group.put g b
  .get fun r => if g ∈ r.writableGroups then dropFilled g else .ret ()

namespace SharedEvent

def op [Carlog.External] (g : GroupKey) : SharedEvent → Op Unit
  | put b _ => batchPut g b
  | sync _ => Group.sync g
  | flush => .ret ()
  | flushSync _ => Group.sync g
  | finalize _ => Group.finalize g
  | close _ => Group.sync g
  | closeLog _ => onLog g Carlog.CarLog.close

def plan : SharedEvent → List Fate
  | put _ plan => plan
  | sync plan => plan
  | flush => []
  | flushSync plan => plan
  | finalize plan => plan
  | close plan => plan
  | closeLog plan => plan

/-- The event is a `Sync`. -/
def IsSync : SharedEvent → Prop
  | sync _ => True
  | flushSync _ => True
  | close _ => True
  | _ => False

end SharedEvent

namespace SharedGroup

/-- The group is open; a `Flush` looks for it among the writable ones, and
goes on when it was there, a `Close` when its `Sync` returned nil. -/
def enabled (g : GroupKey) (s : SharedGroup) (e : SharedEvent) : Prop :=
  (s.rbs.openGroups g).isSome ∧
    match e with
    | .flush => g ∈ s.rbs.writableGroups
    | .flushSync _ => 0 < s.flushing
    | .closeLog _ => 0 < s.closing
    | _ => True

instance (g : GroupKey) (s : SharedGroup) (e : SharedEvent) : Decidable (s.enabled g e) := by
  unfold enabled
  cases e <;> infer_instance

def outcome [Carlog.External] (g : GroupKey) (s : SharedGroup) (e : SharedEvent) :
    Outcome Rbs Err Unit :=
  (e.op g).run s.rbs e.plan

/-- Who is between two locks, behind an operation that returned. -/
def returned (s : SharedGroup) (nil : Bool) : SharedEvent → SharedGroup
  | .flush => { s with flushing := s.flushing + 1 }
  | .flushSync _ => { s with flushing := s.flushing - 1 }
  | .close _ => if nil then { s with closing := s.closing + 1 } else s
  | .closeLog _ => { s with closing := s.closing - 1 }
  | _ => s

def next [Carlog.External] (g : GroupKey) (s : SharedGroup) (e : SharedEvent) : SharedGroup :=
  if s.enabled g e then
    match s.outcome g e with
    | .ok _ r => { s with rbs := r }.returned true e
    | .err _ r => { s with rbs := r }.returned false e
    | .crash r => ⟨r.down g, 0, 0⟩
    | .fault _ r => ⟨r.down g, 0, 0⟩
  else s

end SharedGroup

section

variable [X : Carlog.External] {s : SharedGroup} {e : SharedEvent}

/-- **A `Sync` finds a log open for writing**, or cannot write the row. -/
def SyncsOpen (g : GroupKey) (s : SharedGroup) (e : SharedEvent) : Prop :=
  s.enabled g e → e.IsSync → (s.rbs.log g).jb.wIdx.isSome ∨ ∃ x plan, e.plan = x :: plan ∧ x ≠ .go

/-- **The record does not go back**, and a `Sync` that returns nil has
recorded what is retired. -/
def HeadKept (g : GroupKey) (s : SharedGroup) (e : SharedEvent) : Prop :=
  s.enabled g e → recordedHead g s.rbs ≤ recordedHead g (s.outcome g e).state ∧
    (e.IsSync → ∀ r, s.outcome g e = .ok () r → AtRetired g r)

omit X in
theorem sameRecord_dropFilled : Respects (SameRecord g) (dropFilled g) := by
  have hget : Respects (SameRecord g) (getGroup g) := .get fun r => by
    cases r.openGroups g with
    | none => exact .fault
    | some grp => exact .ret
  refine .get fun r => .ite (fun _ => hget.bind fun grp => ?_) fun _ => Respects.fault.bind ?_
  · exact .ite (fun _ => .modify fun _ => ⟨rfl, rfl⟩) fun _ => .ret
  · exact fun grp => .ite (fun _ => .modify fun _ => ⟨rfl, rfl⟩) fun _ => .ret

theorem wp_batchPut_recorded {n : ℤ} (hgrp : r.openGroups g = some grp) (h : Recorded g r)
    (hn : n ≤ recordedHead g r) :
    wp anyFate (batchPut g b) (Keeping g n fun _ _ => True) r := by
  have hdrop : Respects (SameRecord g) (.get fun r : Rbs =>
      if g ∈ r.writableGroups then dropFilled g else .ret ()) :=
    .get fun _ => .ite (fun _ => sameRecord_dropFilled) fun _ => .ret
  refine wp_seq (wp_put_recorded hgrp h hn) (fun _ t ht => ?_) (fun _ _ => id) (fun _ => id)
    fun _ _ => id
  have hafter : ∀ u, SameRecord g t u → Recorded g u ∧ n ≤ recordedHead g u := fun u =>
    ht.1.after ht.2.1
  exact wp_mono (hdrop t) (fun _ u hu => ⟨(hafter u hu).1, (hafter u hu).2, trivial⟩)
    (fun _ u hu => hafter u hu) (fun u hu => (hafter u hu).2) fun _ u hu => (hafter u hu).2

/-- Where an operation ends. -/
theorem outcome_sat {n : ℤ} (hgrp : s.rbs.openGroups g = some grp) (h : Recorded g s.rbs)
    (hn : n ≤ recordedHead g s.rbs) (henabled : s.enabled g e) (hopen : SyncsOpen g s e) :
    (s.outcome g e).Sat (Keeping g n fun _ r' => e.IsSync → AtRetired g r') := by
  have hnot : ∀ {m : Op Unit} {plan : List Fate}, ¬ e.IsSync →
      wp anyFate m (Keeping g n fun _ _ => True) s.rbs →
      (m.run s.rbs plan).Sat (Keeping g n fun _ r' => e.IsSync → AtRetired g r') := by
    intro m plan hno hwp
    refine (wp_sound hwp (within_anyFate plan)).mono (fun _ _ h => ?_) (fun _ _ => id) (fun _ => id)
      fun _ _ => id
    exact And.intro h.1 ⟨h.2.1, fun h => absurd h hno⟩
  have hsync : e.IsSync → ((Group.sync g).run s.rbs e.plan).Sat
      (Keeping g n fun _ r' => e.IsSync → AtRetired g r') := by
    intro he
    by_cases hsome : (s.rbs.log g).jb.wIdx.isSome
    · refine (wp_sound (wp_sync_recorded hgrp h hsome hn) (within_anyFate _)).mono (fun _ _ h => ?_)
        (fun _ _ => id) (fun _ => id) fun _ _ => id
      exact And.intro h.1 ⟨h.2.1, fun _ => h.2.2⟩
    · have hnone : (s.rbs.log g).jb.wIdx = none := by simpa using hsome
      obtain ⟨x, plan, hplan, hx⟩ := (hopen henabled he).resolve_left hsome
      rw [hplan]
      exact (sync_shut_kept hnone hgrp hx).mono (fun _ _ => False.elim) (fun _ _ => h.after hn)
        (fun _ hr => (h.after hn hr).2) fun _ _ hr => (h.after hn hr).2
  cases e with
  | put b plan => exact hnot id (wp_batchPut_recorded hgrp h hn)
  | sync plan => exact hsync trivial
  | flush => exact ⟨h, hn, fun h => h.elim⟩
  | flushSync plan => exact hsync trivial
  | finalize plan => exact hnot id (wp_finalize_recorded h hn)
  | close plan => exact hsync trivial
  | closeLog plan => exact hnot id (wp_close_recorded hn)

omit X in
/-- The process is gone. -/
theorem recorded_down [Carlog.External] : Recorded g (r.down g) := by
  refine Or.inl ?_
  rw [show (r.down g).log g = { r.log g with jb := .zero } from Function.update_self ..]
  rfl

omit X in
theorem returned_rbs {nil : Bool} : (s.returned nil e).rbs = s.rbs := by
  unfold SharedGroup.returned
  split
  · rfl
  · rfl
  · split_ifs <;> rfl
  · rfl
  · rfl

/-- **One operation**, of a group that is open. -/
theorem outcome_recorded (h : Recorded g s.rbs) (hopen : SyncsOpen g s e)
    (henabled : s.enabled g e) : (s.outcome g e).Sat
      (Keeping g (recordedHead g s.rbs) fun _ r' => e.IsSync → AtRetired g r') := by
  obtain ⟨grp, hgrp⟩ := Option.isSome_iff_exists.mp henabled.1
  exact outcome_sat hgrp h (le_refl _) henabled hopen

theorem recorded_next (h : Recorded g s.rbs) (hopen : SyncsOpen g s e) :
    Recorded g (s.next g e).rbs := by
  unfold SharedGroup.next
  by_cases henabled : s.enabled g e
  swap
  · rwa [if_neg henabled]
  rw [if_pos henabled]
  have hsat := outcome_recorded h hopen henabled
  cases hrun : s.outcome g e with
  | ok _ r =>
    rw [hrun] at hsat
    rw [returned_rbs]
    exact hsat.1
  | err _ r =>
    rw [hrun] at hsat
    rw [returned_rbs]
    exact hsat.1
  | crash r => exact recorded_down
  | fault _ r => exact recorded_down

theorem headKept_next (h : Recorded g s.rbs) (hopen : SyncsOpen g s e) : HeadKept g s e := by
  intro henabled
  have hsat := outcome_recorded h hopen henabled
  refine ⟨?_, fun he r hrun => ?_⟩
  · have hle : (s.outcome g e).Sat (.always fun r => recordedHead g s.rbs ≤ recordedHead g r) :=
      hsat.mono (fun _ _ h => h.2.1) (fun _ _ h => h.2) (fun _ => id) fun _ _ => id
    exact hle.state
  · rw [hrun] at hsat
    exact hsat.2.2 he

/-- **The recorded head is kept**, in the runs in which every `Sync` that
can write the row finds the log open for writing. -/
theorem headKept_run (h : Recorded g s.rbs) {es : List SharedEvent}
    (hes : Always (SharedGroup.next g) (SyncsOpen g) s es) :
    Always (SharedGroup.next g) (HeadKept g) s es :=
  Always.imp_of (I := fun s => Recorded g s.rbs) (fun _ _ => recorded_next)
    (fun _ _ => headKept_next) h hes

end

section

open Carlog.Encoding

/-- A new group, open, and what uses it. -/
def openedGroup : SharedGroup := ⟨openedLife.rbs, 0, 0⟩

/-- A `Flush` and a `Close`, with the `Sync` of the `Flush` last. -/
def flushedLate : List SharedEvent :=
  [.put [seven] [], .flush, .close [], .closeLog [], .flushSync []]

theorem recorded_openedGroup : Recorded 1 openedGroup.rbs :=
  Or.inr ⟨[], [], Carlog.CarLog.live_created rfl rfl, by decide⟩

/-- **The record goes back to zero.** -/
theorem record_lost : ¬ Always (SharedGroup.next 1) (HeadKept 1) openedGroup flushedLate := by
  rintro ⟨-, -, -, -, hlast, -⟩
  exact absurd (hlast (by decide)).1 (by decide)

theorem headKept_seven : Always (SharedGroup.next 1) (HeadKept 1) openedGroup
    [.put [seven] [], .flush, .flushSync [], .sync [], .close [], .closeLog []] := by
  refine headKept_run recorded_openedGroup ⟨?_, ?_, ?_, ?_, ?_, ?_, trivial⟩
  · exact fun _ h => h.elim
  · exact fun _ h => h.elim
  · exact fun _ _ => Or.inl rfl
  · exact fun _ _ => Or.inl rfl
  · exact fun _ _ => Or.inl rfl
  · exact fun _ h => h.elim

end

end Rbstor

end Ribs
