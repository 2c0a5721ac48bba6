import Ribs.Carlog.ReadBack
/-!
# Carlog — places that stay

A batch of `Put` is in the index before it is durable, and a machine that
goes down may lose it. What is said of a place is therefore said with a
number of writes: `Found k` holds of a place that is in the index and in
all that a crash leaves of it which keeps `k` of the writes that are not
synced. No operation takes a place away but `Open`, and that one only
places that are not retired.
-/

namespace Ribs

open Common

namespace Carlog

/-- **The place is in the index**, and stays there in a crash that keeps
`k` of the writes that are not synced. -/
def Found (k : ℕ) (m : Multihash) (v : I64) (w : World) : Prop :=
  ∃ j, w.disk.levelIndex = some j ∧ j.From k fun t => t[m]? = some v

section

variable {k k' : ℕ} {m : Multihash} {v : I64} {w w' : World}

namespace Found

theorem mono (h : Found k m v w) (hle : k ≤ k') : Found k' m v w := by
  obtain ⟨j, hj, hfrom⟩ := h
  exact ⟨j, hj, fun keep hkeep => hfrom keep (hle.trans hkeep)⟩

/-- Keeping more than there is keeps all. -/
theorem min_unsynced (h : Found k m v w) : Found (min k (Sys.unsynced w)) m v w := by
  obtain ⟨j, hj, hfrom⟩ := h
  have hlen : Sys.unsynced w = j.later.length := by
    unfold Sys.unsynced
    rw [hj]
    rfl
  refine ⟨j, hj, fun keep hkeep => ?_⟩
  rw [hlen] at hkeep
  rcases Nat.lt_or_ge keep k with hlt | hle
  · -- all of it is kept either way
    have hall : j.later.length ≤ keep := by omega
    rw [Journal.current_survive_of_le hall]
    have := hfrom k le_rfl
    rwa [Journal.current_survive_of_le (hall.trans hlt.le)] at this
  · exact hfrom keep hle

theorem current {j : Journal Index} (h : Found k m v w) (hj : w.disk.levelIndex = some j) :
    j.current[m]? = some v := by
  obtain ⟨j', hj', hfrom⟩ := h
  obtain rfl : j = j' := Option.some.inj (hj.symm.trans hj')
  have := hfrom (max k j.later.length) (le_max_left _ _)
  rwa [Journal.current_survive_of_le (le_max_right _ _)] at this

theorem of_current {j : Journal Index} (hj : w.disk.levelIndex = some j)
    (hv : j.current[m]? = some v) : Found (Sys.unsynced w) m v w := by
  have hlen : Sys.unsynced w = j.later.length := by
    unfold Sys.unsynced
    rw [hj]
    rfl
  rw [hlen]
  exact ⟨j, hj, Journal.From.of_current (P := fun t : Index => t[m]? = some v) hv⟩

theorem congr (h : Found k m v w) (hsame : w'.disk.levelIndex = w.disk.levelIndex) :
    Found k m v w' := by
  obtain ⟨j, hj, hfrom⟩ := h
  exact ⟨j, hsame.trans hj, hfrom⟩

/-- **The machine goes down**, and enough of the writes is kept. -/
theorem lose (h : Found k m v w) {keepData keepLevel : ℕ} (hle : k ≤ keepLevel) :
    Found 0 m v { w with disk := Sys.lose keepData keepLevel w.disk } := by
  obtain ⟨j, hj, hfrom⟩ := h
  refine ⟨j.survive keepLevel, by simp [Sys.lose, hj], fun keep _ => ?_⟩
  rw [Journal.current_survive_of_le (by simp)]
  exact hfrom keepLevel hle

end Found

end

variable [X : External]

variable {F : Fates} {E exact : Prop} {G : Piece → Prop} {ts ss : List Piece} {w w' : World}
  {n : ℕ} {staging : Bool} {tc : Option TruncCleanup}

/-- A `Put` that returned nil takes no place away. -/
theorem PutDone.found {c : List Multihash} {b : List Bytes} {j : Journal Index} {t' : Index} {k : ℕ}
    {m : Multihash} {v : I64} (h : PutDone G E exact ts ss c b w w' j t') (hv : Found k m v w) :
    Found k m v w' := by
  obtain ⟨j', hj', hfrom⟩ := id hv
  obtain rfl : j' = j := Option.some.inj (hj'.symm.trans h.before)
  obtain ⟨u, -, hw'⟩ := h.after
  refine ⟨j'.write t', by rw [hw'], hfrom.write ?_⟩
  exact h.batched.within m v (hv.current hj')

/-! ## What leaves the index alone -/

/-- The index on disk is the same. -/
def SameLevel (w w' : World) : Prop := w'.disk.levelIndex = w.disk.levelIndex

omit X in
instance : IsPreorder World SameLevel where
  refl _ := rfl
  trans _ _ _ h h' := h'.trans h

/-- The index on disk is the same, and so is its handle. -/
def SameIndex (w w' : World) : Prop :=
  w'.disk.levelIndex = w.disk.levelIndex ∧ w'.jb.wIdx = w.jb.wIdx

omit X in
instance : IsPreorder World SameIndex where
  refl _ := ⟨rfl, rfl⟩
  trans _ _ _ h h' := ⟨h'.1.trans h.1, h'.2.trans h.2⟩

/-- **The places below `n` stay.** -/
def PlacesStay (n : ℕ) (w w' : World) : Prop :=
  ∀ k m v, (fromOffsetLen v).1 < n → Found k m v w → Found k m v w'

omit X in
theorem PlacesStay.of_same (h : w'.disk.levelIndex = w.disk.levelIndex) : PlacesStay n w w' :=
  fun _ _ _ _ hv => hv.congr h

omit X in
theorem PlacesStay.trans {w'' : World} (h : PlacesStay n w w') (h' : PlacesStay n w' w'') :
    PlacesStay n w w'' := fun k m v hlt hv => h' k m v hlt (h k m v hlt hv)

/-- They stay, and so does the handle. -/
def KeepsBelow (n : ℕ) (w w' : World) : Prop := PlacesStay n w w' ∧ w'.jb.wIdx = w.jb.wIdx

omit X in
theorem SameIndex.keepsBelow (h : SameIndex w w') : KeepsBelow n w w' := ⟨.of_same h.1, h.2⟩

omit X in
instance : IsPreorder World (KeepsBelow n) where
  refl _ := SameIndex.keepsBelow ⟨rfl, rfl⟩
  trans _ _ _ h h' := ⟨h.1.trans h'.1, h'.2.trans h.2⟩

namespace CarLog

omit X in
theorem respects_openData {R : World → World → Prop} [IsPreorder World R] :
    Respects R openData := .get fun w => by
  cases w.jb.data with
  | none => exact .throw
  | some f => exact Respects.either (c := f.isOpen = true) .ret .throw

omit X in
theorem respects_readHead {R : World → World → Prop} [IsPreorder World R] :
    Respects R readHead := .get fun w => by
  rcases w.jb.head with _ | _ | _
  · exact .throw
  · exact .throw
  · refine Respects.ioRead.bind fun _ => ?_
    cases w.disk.head with
    | none => exact .throw
    | some x =>
      cases x with
      | none => exact .throw
      | some h => exact .ret

omit X in
/-- What the head file does not matter to. -/
theorem respects_mutHead {R : World → World → Prop} [IsPreorder World R]
    (hR : ∀ x w, R w (withHead x w)) {change : Head → Except Err Head} :
    Respects R (mutHead change) := by
  refine respects_readHead.wrapErr.bind fun h => Respects.failIf.bind fun _ => ?_
  cases change h with
  | error e => exact .throw
  | ok h' =>
    have hwrite : Respects R (writeHead h') := by
      refine .io (fun w => hR _ w) (fun n w => ?_) fun b => .either .ret .throw
      by_cases hn : n = 0
      · simp only [hn, if_true]
        exact refl w
      · simp only [if_neg hn]
        exact hR _ w
    exact hwrite.wrapErr.bind fun _ => Respects.ioRead.wrapErr.bind fun _ => .pure

omit X in
theorem sameIndex_dataTruncate : Respects SameIndex (dataTruncate n) :=
  respects_openData.bind fun _ => .step fun _ => ⟨rfl, rfl⟩

omit X in
theorem sameIndex_seekEnd : Respects SameIndex seekEnd :=
  Respects.ioRead.wrapErr.bind fun _ => .modify fun _ => ⟨rfl, rfl⟩

/-! ## `Open` -/

omit X in
/-- **Truncating** takes no place below the offset away. -/
theorem wp_truncate_index : wp anyFate (truncate n tc) (.always (KeepsBelow n w)) w := by
  have hself : KeepsBelow n w w := refl w
  unfold truncate
  rw [wp_get, wp_bind]
  refine wp_failIf.mpr ⟨fun _ => hself, fun _ => ?_⟩
  dsimp only
  rw [wp_bind]
  refine wp_failIf.mpr ⟨fun _ => hself, fun _ => ?_⟩
  unfold LevelDBIndex.toTruncate LevelDBIndex.contents
  simp only [wp_bind, wp_wrapErr, wp_ioRead, wp_get]
  refine ⟨?_, fun _ => hself, fun _ => hself⟩
  cases hj : w.disk.levelIndex with
  | none => exact hself
  | some j =>
    dsimp only
    rw [wp_ret]
    dsimp only
    rw [wp_pure]
    refine wp_ite.mpr ⟨fun _ => hself, fun _ => ?_⟩
    split
    · exact hself
    rw [wp_bind, wp_modify]
    dsimp only
    rw [wp_bind, wp_wrapErr, LevelDBIndex.del, wp_ioWrite]
    refine ⟨?_, fun _ => SameIndex.keepsBelow ⟨rfl, rfl⟩, fun _ => SameIndex.keepsBelow ⟨rfl, rfl⟩⟩
    -- the index is cut, and then nothing changes it
    have hcut : ∀ u : World, u.disk.levelIndex = some (.clean (pruned n j.current)) →
        u.jb.wIdx = w.jb.wIdx → KeepsBelow n w u := by
      refine fun u hu hwIdx => ⟨fun k m v hlt hv => ⟨_, hu, fun keep _ => ?_⟩, hwIdx⟩
      rw [Journal.current_survive_of_le (by simp [Journal.clean]), Journal.current_clean]
      exact getElem?_pruned.mpr ⟨hv.current hj, hlt⟩
    set u : World := modifyDisk (LevelDBIndex.modifyLevel fun j' => (j'.write
      ((LevelDBIndex.truncated j.current n).foldl (fun t m => t.erase m) j'.current)).sync)
      { w with cleaned := w.cleaned ++ [LevelDBIndex.truncated j.current n] } with hu
    have hlevel : u.disk.levelIndex = some (.clean (pruned n j.current)) := by
      simp [hu, modifyDisk, LevelDBIndex.modifyLevel, hj, Journal.sync, pruned]
    have hrest : Respects SameIndex (modifyJb fun j => { j with dataLen := n }) :=
      .modify fun _ => ⟨rfl, rfl⟩
    have hhead : Respects SameIndex (mutHead fun h => .ok { h with retiredAt := n }) :=
      respects_mutHead fun _ _ => ⟨rfl, rfl⟩
    refine wp_always_mono ((sameIndex_dataTruncate.wrapErr.bind fun _ => hrest.bind fun _ =>
      hhead.wrapErr.bind fun _ => .pure) u) fun v hv => ?_
    exact IsTrans.trans _ _ _ (hcut u hlevel rfl) hv.keepsBelow

/-- The log in memory that `Open` gives when it is read-only. -/
def sealedAt (staging : Bool) (len : ℕ) : CarLog := { indexed staging true len with
  data := some ⟨true, true, len⟩
  dataPos := some len
  dataBuffered := some ⟨[], none⟩ }

/-- **What `Open` keeps**: the places of what is retired; and where the log
takes no writes, all of its file is retired. -/
def OpenedAt (n : ℕ) (w w' : World) : Prop := PlacesStay n w w' ∧
  (w'.jb.wIdx = none → w'.disk.blockLog = w.disk.blockLog ∧
    w'.disk.levelIndex.isSome = true ∧ (blockLog w).length = n ∧
      ∃ staging, w'.jb = sealedAt staging n)

/-- Checking the log, and placing the writes. -/
theorem wp_replay_index {readOnly : Bool} {len : ℕ} (hle : n ≤ len)
    (hjb : w.jb = indexed staging readOnly len) :
    wp anyFate (replay (logHead n readOnly) len tc >>= fun _ => seekEnd)
      ⟨fun _ w' => PlacesStay n w w' ∧ (w'.jb.wIdx = none → w'.disk = w.disk ∧ len = n ∧
          w'.jb = sealedAt staging len),
        fun _ w' => PlacesStay n w w', fun w' => PlacesStay n w w', fun _ w' => PlacesStay n w w'⟩
      w := by
  have hself : PlacesStay n w w := .of_same rfl
  rw [wp_bind, replay, wp_get]
  cases readOnly with
  | false =>
    have hw : w.jb.wIdx.isSome := by rw [hjb]; rfl
    rw [if_pos (Or.inr hw), wp_bind, wp_failIf]
    refine ⟨fun hro => absurd hro (by simp [logHead]), fun _ => ?_⟩
    dsimp only [logHead]
    rw [wp_wrapErr]
    refine wp_mono wp_truncate_index ?_ (fun _ _ h => h.1) (fun _ h => h.1) fun _ _ h => h.1
    rintro - u ⟨hu, hwIdx⟩
    have hseek := sameIndex_seekEnd u
    refine wp_mono hseek (fun _ v hv => ⟨hu.trans (.of_same hv.1), fun hnone => ?_⟩)
      (fun _ v hv => hu.trans (.of_same hv.1)) (fun v hv => hu.trans (.of_same hv.1))
      fun _ v hv => hu.trans (.of_same hv.1)
    rw [hv.2, hwIdx] at hnone
    rw [hnone] at hw
    exact absurd hw (by simp)
  | true =>
    refine wp_ite.mpr ⟨fun _ => ?_, fun hnot => ?_⟩
    · rw [wp_bind, wp_failIf]
      exact ⟨fun _ => hself, fun hro => absurd rfl hro⟩
    · -- nothing lies behind what is retired
      have hlen : len = n := by
        have hge : ¬ n < len := fun hlt => hnot (Or.inl hlt)
        omega
      unfold seekEnd
      rw [wp_ret]
      dsimp only
      rw [wp_bind, wp_wrapErr, wp_ioRead]
      refine ⟨⟨.of_same rfl, fun _ => ⟨rfl, hlen, ?_⟩⟩, fun _ => hself, fun _ => hself⟩
      dsimp only
      rw [hjb]
      rfl

/-- **`Open`, once the data file is open.** -/
theorem wp_openWithData_index {readOnly : Bool} (hd : DiskOk G ts ss w.disk)
    (hn : n = (stream ts).length) :
    wp anyFate (openWithData staging (logHead n readOnly) ⟨true, true, 0⟩ tc)
      ⟨fun _ w' => OpenedAt n w w', fun _ w' => PlacesStay n w w', fun w' => PlacesStay n w w',
        fun _ w' => PlacesStay n w w'⟩ w := by
  have hself : PlacesStay n w w := .of_same rfl
  unfold openWithData
  rw [wp_bind, wp_wrapErr, wp_ioRead]
  refine ⟨?_, fun _ => hself, fun _ => hself⟩
  dsimp only
  rw [wp_get, wp_bind, wp_failIf]
  refine ⟨fun _ => hself, fun hnlt => ?_⟩
  have hle : n ≤ (blockLog w).length := not_lt.mp hnlt
  dsimp only
  rw [setJb, wp_bind, wp_modifyJb]
  set u : World := { w with jb := opening staging (blockLog w).length } with hu
  have hmissing : u.disk.levelIndex = none → n ≤ u.jb.dataStart := fun hnone => by
    rw [hn, (hd.nil_of_none hnone).1, stream_nil]
    exact le_rfl
  -- where the index is missing there are no places
  have hvacuous : w.disk.levelIndex = none → ∀ v, PlacesStay n w v := by
    rintro hnone v k m x - ⟨j, hj, -⟩
    rw [hnone] at hj
    exact absurd hj (by simp)
  have hmade : ∀ v, v = u ∨ u.disk.levelIndex = none ∧ IndexMade u v → PlacesStay n w v := by
    rintro v (rfl | ⟨hnone, -⟩)
    · exact hself
    · exact hvacuous hnone v
  show wp anyFate (openIndex (logHead n readOnly) >>= _) _ u
  rw [wp_bind]
  refine wp_mono (wp_openIndex hmissing) ?_ (fun _ => hmade) hmade fun _ _ => False.elim
  rintro - _ ⟨v, hv, rfl⟩
  have htop : cutTopTree (logHead n readOnly) (blockLog w).length = .ret (blockLog w).length := by
    simp [cutTopTree, logHead]
  obtain ⟨hstay, hlog, hindex, hjb⟩ : PlacesStay n w v ∧ v.disk.blockLog = w.disk.blockLog ∧
      v.disk.levelIndex.isSome = true ∧ v.jb = opening staging (blockLog w).length := by
    rcases hv with ⟨rfl, hsome⟩ | ⟨hnone, rfl⟩
    · exact ⟨hself, rfl, hsome, rfl⟩
    · exact ⟨hvacuous hnone _, rfl, rfl, rfl⟩
  dsimp only
  rw [htop, wp_bind, wp_ret]
  dsimp only
  set x : World := { v with jb := { v.jb with
    rIdx := some (.level ⟨⟩), wIdx := if readOnly then none else some ⟨⟩ } } with hx
  have hxjb : x.jb = indexed staging readOnly (blockLog w).length := by
    rw [hx, hjb]
    rfl
  have hxstay : PlacesStay n w x := hstay
  refine wp_mono (wp_replay_index hle hxjb) ?_ (fun _ _ h => hxstay.trans h)
    (fun _ h => hxstay.trans h) fun _ _ h => hxstay.trans h
  rintro - w' ⟨hw', hread⟩
  refine ⟨hxstay.trans hw', fun hnone => ?_⟩
  obtain ⟨hdisk, hlen, hjb'⟩ := hread hnone
  exact ⟨by rw [hdisk]; exact hlog, by rw [hdisk]; exact hindex, hlen, staging, by rw [hjb', hlen]⟩

/-- **`Open`** keeps the places of what is retired, in whatever way it ends. -/
theorem wp_openLog_index (hd : DiskOk G ts ss w.disk) : wp anyFate (openLog staging tc)
    ⟨fun _ w' => OpenedAt (stream ts).length w w', fun _ w' => PlacesStay (stream ts).length w w',
      fun w' => PlacesStay (stream ts).length w w',
      fun _ w' => PlacesStay (stream ts).length w w'⟩ w := by
  have hself : PlacesStay (stream ts).length w w := .of_same rfl
  have hsame : ∀ u, u = w → PlacesStay (stream ts).length w u := by
    rintro _ rfl
    exact hself
  refine wp_seq wp_openHead ?_ (fun _ => hsame) hsame fun _ _ => False.elim
  rintro h _ ⟨rfl, hh⟩
  rw [hd.head h hh]
  refine wp_ite.mpr ⟨fun hoff => absurd hoff (by simp [logHead]), fun _ => ?_⟩
  rw [wp_bind, wp_attempt]
  refine wp_mono wp_openBlockLog ?_ ?_ hsame fun _ _ => False.elim
  · rintro f _ ⟨rfl, rfl⟩
    exact wp_openWithData_index hd rfl
  · rintro e _ rfl
    exact wp_ite.mpr ⟨fun hext => absurd hext.2 (by simp [logHead]), fun _ => hself⟩

/-! ## The operations on a log that takes no writes -/

/-- The log is closing: it can neither be written nor read. -/
def Off (w : World) : Prop := w.jb.wIdx = none ∧ w.jb.rIdx = none ∧ w.jb.eIdx = none

/-- A log that is closing stays so, with its files as they are. -/
def StaysOff (w w' : World) : Prop := Off w → Off w' ∧ w'.disk = w.disk

omit X in
instance : IsPreorder World StaysOff where
  refl _ h := ⟨h, rfl⟩
  trans _ _ _ h h' := fun hw => ⟨(h' (h hw).1).1, (h' (h hw).1).2.trans (h hw).2⟩

omit X in
/-- What a log that is closing does. -/
theorem respects_of_off {α : Type} {m : Op α}
    (h : ∀ w, Off w → wp anyFate m (.always fun w' => Off w' ∧ w'.disk = w.disk) w) :
    Respects StaysOff m := fun w => by
  by_cases hw : Off w
  · exact wp_always_mono (h w hw) fun _ hw' _ => hw'
  · exact wp_mono wp_trivial (fun _ _ _ h => absurd h hw) (fun _ _ _ h => absurd h hw)
      (fun _ _ h => absurd h hw) fun _ _ _ h => absurd h hw

omit X in
theorem off_rLockIdx : Respects StaysOff rLockIdx :=
  .get fun _ => .either .fault (.modify fun _ h => ⟨h, rfl⟩)

omit X in
theorem off_rUnlockIdx : Respects StaysOff rUnlockIdx :=
  .get fun _ => .either .fault (.modify fun _ h => ⟨h, rfl⟩)

omit X in
theorem off_dataClose : Respects StaysOff dataClose :=
  respects_openData.bind fun _ => .step fun _ h => ⟨h, rfl⟩

omit X in
theorem off_headClose : Respects StaysOff headClose := .get fun w => by
  rcases w.jb.head with _ | _ | _
  · exact .throw
  · exact .throw
  · exact .step fun _ h => ⟨h, rfl⟩

omit X in
/-- Without a write index there is nothing to commit. -/
theorem off_commit : Respects StaysOff commit := by
  refine off_rLockIdx.bind fun _ => respects_of_off fun w hw => ?_
  have hnone : w.jb.wIdx.isNone = true := by rw [hw.1]; rfl
  rw [wp_get, if_pos hnone]
  have hunlock : Respects StaysOff (rUnlockIdx >>= fun _ => pure 0 : Op ℕ) :=
    off_rUnlockIdx.bind fun _ => .pure
  exact wp_always_mono (hunlock w) fun _ h => h hw

omit X in
theorem off_closeIndex {idx : ReadableIndex} : Respects StaysOff idx.close := by
  cases idx with
  | level _ => exact Respects.ioRead
  | bsst _ => exact Respects.ioRead

omit X in
theorem off_closeRest {j : CarLog} : Respects StaysOff (closeRest j) := by
  refine Respects.runIf (off_commit.wrapErr.bind fun _ => off_dataClose.wrapErr) |>.bind fun _ => ?_
  exact (Respects.runIf off_headClose.wrapErr).bind fun _ => Respects.runIf Respects.ioRead.wrapErr

omit X in
/-- **`Close`** leaves the files as they are: what is in the buffer goes. -/
theorem wp_close_off (hext : w.jb.eIdx = none) : wp anyFate close
    ⟨fun _ w' => w'.disk = w.disk, fun _ w' => Off w' ∧ w'.disk = w.disk,
      fun w' => w'.disk = w.disk, fun _ w' => w'.disk = w.disk⟩ w := by
  unfold close lockIdx
  rw [wp_bind, wp_get]
  refine wp_ite.mpr ⟨fun _ => ?_, fun _ => rfl⟩
  rw [wp_modifyJb]
  dsimp only
  rw [wp_get, wp_bind, wp_modifyJb]
  set u : World := { w with jb := { w.jb with idxLk := ⟨true, 0⟩, rIdx := none, wIdx := none } } with hu
  have hoff : Off u := ⟨rfl, rfl, hext⟩
  have hunlock : Respects StaysOff unlockIdx :=
    .get fun _ => .either (.modify fun _ h => ⟨h, rfl⟩) .fault
  have hwait : Respects StaysOff waitPendingReads := .get fun _ => .either .ret .fault
  have hdone : ∀ {m : Op Unit}, Respects StaysOff m → wp anyFate m
      ⟨fun _ w' => w'.disk = w.disk, fun _ w' => Off w' ∧ w'.disk = w.disk,
        fun w' => w'.disk = w.disk, fun _ w' => w'.disk = w.disk⟩ u := fun hm =>
    wp_mono (hm u) (fun _ _ h => (h hoff).2) (fun _ _ h => h hoff) (fun _ h => (h hoff).2)
      fun _ _ h => (h hoff).2
  refine hdone (hunlock.bind fun _ => hwait.bind fun _ => ?_)
  split
  · exact off_closeRest
  · exact off_commit.wrapErr.bind fun _ => off_dataClose.wrapErr.bind fun _ =>
      off_headClose.wrapErr.bind fun _ => off_closeIndex.wrapErr

/-- A log that takes no writes refuses them. -/
theorem wp_put_none {c : List Multihash} {b : List Bytes} (hnone : w.jb.wIdx = none) :
    wp F (put c b) ⟨fun _ _ => False, fun _ w' => ∃ lk, w' = w.setLk lk, fun _ => False,
      fun _ w' => w' = w⟩ w := by
  refine wp_rLocked rfl fun _ => ?_
  simp only [putLocked, wp_get, wp_bind, wp_failIf]
  exact ⟨fun _ => ⟨rfl, _, rfl⟩, fun h => absurd (by simp [World.setLk, hnone]) h⟩

omit X in
/-- And it is not marked again. -/
theorem wp_markReadOnly_none (hnone : w.jb.wIdx = none) : wp F markReadOnly
    ⟨fun _ _ => False, fun _ w' => ∃ lk, w' = w.setLk lk, fun _ => False, fun _ w' => w' = w⟩ w := by
  refine wp_locked rfl fun _ => ?_
  simp only [markReadOnlyLocked, wp_get, wp_bind, wp_failIf]
  exact ⟨fun _ => ⟨rfl, _, rfl⟩, fun h => absurd (by simp [World.setLk, hnone]) h⟩

/-- A log that is closing answers nothing. -/
theorem off_view {c : List Multihash} {cb : Callback} : Respects StaysOff (view c cb) := by
  refine off_rLockIdx.bind fun _ => respects_of_off fun w hw => ?_
  rw [wp_get, hw.2.1, hw.2.2]
  have hrefuse : Respects StaysOff (rUnlockIdx >>= fun _ =>
      .throw (.text "cannot read from closing or offloaded carlog") : Op Unit) :=
    off_rUnlockIdx.bind fun _ => .throw
  exact wp_always_mono (hrefuse w) fun _ h => h hw

omit X in
/-- **`MarkReadOnly`** leaves the index alone. -/
theorem sameLevel_markReadOnly : Respects SameLevel markReadOnly := by
  have hlock : Respects SameLevel lockIdx := .get fun _ => .either (.modify fun _ => rfl) .fault
  have hunlock : Respects SameLevel unlockIdx := .get fun _ => .either (.modify fun _ => rfl) .fault
  refine hlock.bind fun _ => .andThen (.get fun _ => Respects.failIf.bind fun _ => ?_) hunlock
  exact (respects_mutHead fun _ _ => rfl).wrapErr.bind fun _ => .modify fun _ => rfl

end CarLog

end Carlog

end Ribs
