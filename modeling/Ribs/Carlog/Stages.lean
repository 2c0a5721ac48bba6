import Ribs.Carlog.HeadKept
/-!
# Carlog — the stages of the head

A log gets its layers in a finalization and keeps them from then on; it is
marked as offloaded by an offload, and that mark is taken back at the end
of a reload only. Neither is lost by what the other operations write.
-/

namespace Ribs

open Common

namespace Carlog

/-- The head has layer offsets. -/
def Layered (o : Option (Option Head)) : Prop := ∃ h, o = some (some h) ∧ h.layerOffsets ≠ []

/-- The head is marked as offloaded. -/
def Marked (o : Option (Option Head)) : Prop := ∃ h, o = some (some h) ∧ h.offloaded = true

/-- The head, if there is one, is not finalized without layers. -/
def NotHollow (o : Option (Option Head)) : Prop :=
  ∀ h, o = some (some h) → h.finalized = true → h.layerOffsets ≠ []

/-- **What no operation takes back**, the end of a reload apart. -/
structure Steady (P : Option (Option Head) → Prop) : Prop where
  retired : ∀ h n, P (some (some h)) → P (some (some { h with retiredAt := n }))
  readOnly : ∀ h, P (some (some h)) → P (some (some { h with readOnly := true }))
  finalized : ∀ h, P (some (some h)) → P (some (some { h with finalized := true }))
  external : ∀ h, P (some (some h)) →
    P (some (some { h with finalized := true, isExternal := true }))
  dataEnd : ∀ h n, P (some (some h)) → P (some (some { h with dataEnd := n }))
  layers : ∀ h l d n, l ≠ [] → P (some (some h)) →
    P (some (some { h with layerOffsets := l, dataEnd := d, retiredAt := n }))
  offloaded : ∀ h, P (some (some h)) → P (some (some { h with offloaded := true }))
  /-- Where there is no head yet, nothing is known. -/
  head : ∀ o, P o → ∃ h, o = some (some h)

theorem steady_layered : Steady Layered where
  retired := fun h _ ⟨_, heq, hl⟩ => ⟨_, rfl, by cases heq; exact hl⟩
  readOnly := fun h ⟨_, heq, hl⟩ => ⟨_, rfl, by cases heq; exact hl⟩
  finalized := fun h ⟨_, heq, hl⟩ => ⟨_, rfl, by cases heq; exact hl⟩
  external := fun h ⟨_, heq, hl⟩ => ⟨_, rfl, by cases heq; exact hl⟩
  dataEnd := fun h _ ⟨_, heq, hl⟩ => ⟨_, rfl, by cases heq; exact hl⟩
  layers := fun _ _ _ _ hne _ => ⟨_, rfl, hne⟩
  offloaded := fun h ⟨_, heq, hl⟩ => ⟨_, rfl, by cases heq; exact hl⟩
  head := fun _ ⟨h, heq, _⟩ => ⟨h, heq⟩

theorem steady_marked : Steady Marked where
  retired := fun h _ ⟨_, heq, hm⟩ => ⟨_, rfl, by cases heq; exact hm⟩
  readOnly := fun h ⟨_, heq, hm⟩ => ⟨_, rfl, by cases heq; exact hm⟩
  finalized := fun h ⟨_, heq, hm⟩ => ⟨_, rfl, by cases heq; exact hm⟩
  external := fun h ⟨_, heq, hm⟩ => ⟨_, rfl, by cases heq; exact hm⟩
  dataEnd := fun h _ ⟨_, heq, hm⟩ => ⟨_, rfl, by cases heq; exact hm⟩
  layers := fun h _ _ _ _ ⟨_, heq, hm⟩ => ⟨_, rfl, by cases heq; exact hm⟩
  offloaded := fun _ _ => ⟨_, rfl, rfl⟩
  head := fun _ ⟨h, heq, _⟩ => ⟨h, heq⟩

variable {α : Type} {P : Option (Option Head) → Prop}

/-- A head that is known stays. -/
theorem KeepsHead.stays {m : Op α} {o : Option (Option Head)} {w : World}
    (hm : KeepsHead (· = o) m) (hw : w.disk.head = o) :
    wpMild Untorn m (.always fun w' => w'.disk.head = o) w :=
  wpMild_always_mono (hm w) fun _ h => h hw

namespace CarLog

/-! ## Writing -/

/-- A change that cannot fail. -/
theorem keeps_mutHead_ok {f : Head → Head}
    (hP : ∀ h, P (some (some h)) → P (some (some (f h)))) :
    KeepsHead P (mutHead fun h => .ok (f h)) :=
  keeps_mutHead fun h _ hok => Except.ok.inj hok ▸ hP h

theorem keeps_commitLocked (hP : Steady P) : KeepsHead P commitLocked := by
  refine keeps_flushBuffered.wrapErr.bind fun _ => keeps_dataSync.wrapErr.bind fun _ =>
    .get fun w => .handle (.bind (keeps_mutHead fun h h' hchange => ?_) fun _ => .pure)
      fun _ => .ite .ret .throw
  split at hchange
  · cases hchange
  · rw [← Except.ok.inj hchange]
    exact hP.retired h _

theorem keeps_commit (hP : Steady P) : KeepsHead P commit :=
  keeps_rLockIdx.bind fun _ => .get fun _ => .ite (keeps_rUnlockIdx.bind fun _ => .pure)
    ((keeps_commitLocked hP).andThen keeps_rUnlockIdx)

theorem keeps_markReadOnly (hP : ∀ h, P (some (some h)) → P (some (some { h with readOnly := true }))) :
    KeepsHead P markReadOnly :=
  keeps_lockIdx.bind fun _ => .andThen (.get fun _ => KeepsHead.failIf.bind fun _ =>
    (keeps_mutHead_ok hP).wrapErr.bind fun _ => .modifyJb) keeps_unlockIdx

theorem keeps_loadData {car : Bytes} {sz : ℕ} : KeepsHead P (loadData car sz) :=
  keeps_lockIdx.bind fun _ => keeps_loadDataLocked.andThen keeps_unlockIdx

/-- `offloadIndexes`, behind the marking of the head. -/
theorem keeps_closeIndexes {c c' : Prop} [Decidable c] [Decidable c'] : KeepsHead P (do
    runIf c do
      let idx ← readableIndex
      onErr (wrapErr "closing readable index" idx.close) unlockIdx
      modifyJb fun j => { j with rIdx := none }
    runIf c' do
      onErr (wrapErr "closing external index" BSSTIndex.close) unlockIdx
      modifyJb fun j => { j with eIdx := none }
    unlockIdx) := by
  refine .bind (.runIf (keeps_readableIndex.bind fun _ =>
    (keeps_closeIndex.wrapErr.onErr keeps_unlockIdx).bind fun _ => .modifyJb)) fun _ =>
    .bind (.runIf (.bind (.onErr (.wrapErr ?_) keeps_unlockIdx) fun _ => .modifyJb))
    fun _ => keeps_unlockIdx
  exact .ioRead

theorem keeps_offloadIndexes (hP : Steady P) : KeepsHead P offloadIndexes :=
  .get fun _ => (KeepsHead.failIf.onErr keeps_unlockIdx).bind fun _ =>
    (KeepsHead.failIf.onErr keeps_unlockIdx).bind fun _ =>
    ((keeps_mutHead_ok hP.offloaded).wrapErr.onErr keeps_unlockIdx).bind fun _ => keeps_closeIndexes

/-- `offload`, behind the marking of the head. -/
theorem keeps_offloadRest : KeepsHead P (do
    waitPendingReads
    offloadData
    wrapErr "removing bsst index" (ioWrite (BsstPath.index.set none))
    wrapErr "removing external bsst index" (ioWrite (BsstPath.canon.set none))
    wrapErr "closing head" headClose
    modifyJb fun j => { j with head := none }) :=
  keeps_waitPendingReads.bind fun _ => keeps_offloadData.bind fun _ =>
    .bind (.wrapErr (.ioWrite fun _ => rfl)) fun _ =>
    .bind (.wrapErr (.ioWrite fun _ => rfl)) fun _ => keeps_headClose.wrapErr.bind fun _ => .modifyJb

theorem keeps_offload (hP : Steady P) : KeepsHead P offload :=
  keeps_lockReadState.bind fun _ => .get fun _ => .ite (keeps_unlockReadState.bind fun _ => .throw)
    (.andThen (keeps_lockIdx.bind fun _ => (keeps_offloadIndexes hP).bind fun _ =>
      keeps_offloadRest) keeps_unlockReadState)

/-! ## Marking -/

/-- **A log that can be offloaded**: its head can be read, it has layers
and an index and is not written any more, and nobody holds its locks. -/
structure Offloadable (w : World) : Prop where
  layers : w.jb.layerOffsets ≠ []
  retired : w.jb.wIdx = none
  index : ¬ (w.jb.rIdx.isNone ∧ w.jb.eIdx.isNone)
  headOpen : w.jb.head = some true
  head : ∃ h, w.disk.head = some (some h) ∧ h.valid = true
  idxLk : w.jb.idxLk = ⟨false, 0⟩
  readStateLk : w.jb.readStateLk = false

/-- **The head is changed** when its reading and its writing go through. -/
theorem past_mutHead {change : Head → Except Err Head} {w : World} {h h' : Head}
    (hopen : w.jb.head = some true) (hhead : w.disk.head = some (some h)) (hvalid : h.valid = true)
    (hchange : change h = .ok h') :
    Past Untorn [.go, .go] (mutHead change) (fun w' => w'.disk.head = some (some h')) w := by
  unfold Past mutHead wrapErr
  rw [wpFrom_bind, wpFrom_handle]
  simp only [readHead, wpFrom, hopen, hhead]
  change wpFrom Untorn [.go] (failIf (h.valid = false) _ >>= _) _ w
  unfold failIf
  rw [if_neg (by simp [hvalid])]
  have hskip : ∀ f : Unit → Op Head, (Prog.ret () >>= f) = f () := fun _ => rfl
  rw [hskip, hchange]
  dsimp only
  rw [wpFrom_bind, wpFrom_handle]
  change Past Untorn [] ((Prog.handle ioRead _ : Op Unit) >>= fun _ => .ret h) _ (modifyDisk _ w)
  have hsync : KeepsHead (· = some (some h'))
      (wrapErr "head sync" ioRead >>= fun _ => (.ret h : Op Head)) :=
    KeepsHead.ioRead.wrapErr.bind fun _ => .ret
  exact .of_wpMild rfl (hsync.stays rfl)

theorem past_offloadIndexes {w : World} {h : Head} (hretired : w.jb.wIdx = none)
    (hindex : ¬ (w.jb.rIdx.isNone ∧ w.jb.eIdx.isNone)) (hopen : w.jb.head = some true)
    (hhead : w.disk.head = some (some h)) (hvalid : h.valid = true) :
    Past Untorn [.go, .go] offloadIndexes
      (fun w' => w'.disk.head = some (some { h with offloaded := true })) w := by
  unfold Past offloadIndexes failIf
  simp only [wpFrom, hretired, if_neg hindex, Option.isSome_none, Bool.false_eq_true, if_false]
  have hskip : ∀ f : Unit → Op Unit, (onErr (.ret ()) unlockIdx >>= f) = f () := fun _ => rfl
  simp only [hskip]
  refine Past.bind (.handle (.handle (past_mutHead hopen hhead hvalid rfl) fun _ _ => id)
    fun e t ht => ?_) (fun _ t ht => ?_) fun _ => id
  · have hunlock : KeepsHead (· = some (some { h with offloaded := true }))
        (unlockIdx >>= fun _ => (.throw e : Op Head)) := keeps_unlockIdx.bind fun _ => .throw
    exact hunlock.stays ht
  · exact keeps_closeIndexes.stays ht

/-- **An offload marks the head** when the steps up to that go through. -/
theorem past_offload {w : World} (hw : Offloadable w) {h : Head}
    (hhead : w.disk.head = some (some h)) :
    Past Untorn [.go, .go] offload
      (fun w' => w'.disk.head = some (some { h with offloaded := true })) w := by
  have hvalid : h.valid = true := by
    obtain ⟨h', hhead', hvalid⟩ := hw.head
    rw [hhead, Option.some_inj, Option.some_inj] at hhead'
    exact hhead' ▸ hvalid
  unfold Past offload lockReadState
  rw [wpFrom_bind]
  simp only [wpFrom, hw.readStateLk, modifyJb, Prog.modify, hw.layers, Bool.false_eq_true, if_false]
  change Past Untorn [.go, .go] (offloadLayers.andThen unlockReadState) _ _
  refine .andThen (J := fun w' : World => w'.disk.head = some (some { h with offloaded := true }))
    ?_ fun t ht => keeps_unlockReadState.stays ht
  unfold offloadLayers Past lockIdx
  rw [wpFrom_bind]
  simp only [wpFrom, hw.idxLk, modifyJb, Prog.modify, if_true]
  refine Past.bind (J := fun w' : World => w'.disk.head = some (some { h with offloaded := true }))
    ?_ (fun _ t ht => keeps_offloadRest.stays ht) fun _ => id
  exact past_offloadIndexes hw.retired hw.index hw.headOpen hhead hvalid

/-! ## Opening -/

theorem keeps_truncate (hP : Steady P) {offset : ℕ} {tc : Option TruncCleanup} :
    KeepsHead P (truncate offset tc) := by
  refine .get fun _ => KeepsHead.failIf.bind fun _ => KeepsHead.failIf.bind fun _ =>
    .bind (.wrapErr (keeps_contents.bind fun _ => .pure)) fun toTruncate => .ite .pure ?_
  rcases tc.bind fun f => f offset toTruncate with _ | n <;> dsimp only
  · exact .bind (.modify fun _ => rfl) fun _ => .bind (.wrapErr (.ioWrite fun _ => rfl)) fun _ =>
      keeps_dataTruncate.wrapErr.bind fun _ => KeepsHead.modifyJb.bind fun _ =>
      (keeps_mutHead_ok fun h => hP.retired h offset).wrapErr.bind fun _ => .pure
  · exact .throw

theorem keeps_cutTopTree (hP : Steady P) {h : Head} {dataLen : ℕ} :
    KeepsHead P (cutTopTree h dataLen) :=
  .ite (keeps_dataTruncate.wrapErr.bind fun _ =>
    (keeps_mutHead_ok fun h => hP.dataEnd h 0).wrapErr.bind fun _ =>
    KeepsHead.ioRead.wrapErr.bind fun _ => .get fun _ => .ret) .ret

theorem keeps_replay (hP : Steady P) {h : Head} {dataLen : ℕ} {tc : Option TruncCleanup} :
    KeepsHead P (replay h dataLen tc) :=
  .get fun _ => .ite (KeepsHead.failIf.bind fun _ => (keeps_truncate hP).wrapErr) .ret

variable [X : External]

theorem keeps_put {c : List Multihash} {b : List Bytes} : KeepsHead P (put c b) :=
  keeps_rLockIdx.bind fun _ => keeps_putLocked.andThen keeps_rUnlockIdx

theorem keeps_openLog (hP : Steady P) {staging : Bool} {tc : Option TruncCleanup} :
    KeepsHead P (openLog staging tc) := by
  have hblock : KeepsHead P openBlockLog :=
    KeepsHead.ioRead.bind fun _ => .get fun _ => .ite .ret .throw
  refine keeps_openHead.bind fun h => .ite (KeepsHead.ioRead.wrapErr.bind fun _ => .modifyJb) <|
    hblock.attempt.bind fun file => ?_
  rcases file with x | f <;> dsimp only
  · exact .ite (KeepsHead.modifyJb.bind fun _ => keeps_openIndex) .throw
  · exact KeepsHead.ioRead.wrapErr.bind fun _ => .get fun _ => KeepsHead.failIf.bind fun _ =>
      KeepsHead.modifyJb.bind fun _ => keeps_openIndex.bind fun _ =>
      (keeps_cutTopTree hP).bind fun _ => (keeps_replay hP).bind fun _ => keeps_seekEnd

/-- **A log is not created over another one**: with a head in place,
nothing of it is lost. -/
theorem keeps_create (hP : Steady P) {staging : Bool} : KeepsHead P (create staging) := by
  intro w
  by_cases hw : P w.disk.head
  · obtain ⟨h, hhead⟩ := hP.head _ hw
    have hmk : KeepsHead (fun o => o = some (some h)) (wrapErr "mkdir index path" <|
        makeNew (fun d => d.indexPath) fun d => { d with indexPath := true }) :=
      .wrapErr (.get fun _ => KeepsHead.ioRead.bind fun _ => KeepsHead.failIf.bind fun _ =>
        .ioWrite fun _ => rfl)
    have hstays : ∀ t : World, t.disk.head = some (some h) → HeadStays P w t := fun t ht _ => by
      rw [ht, ← hhead]
      exact hw
    unfold create
    refine wpMild_always_bind (wpMild_always_mono (hmk w) fun t ht => ht hhead) (hstays ·)
      fun _ t ht => ?_
    -- the head is there, so it cannot be made
    have hfails : wpMild Untorn (wrapErr "opening head" <|
        makeNew (fun d => d.head.isSome) fun d => { d with head := some none })
        ⟨fun _ _ => False, fun _ => HeadStays P w, HeadStays P w, fun _ => HeadStays P w⟩ t := by
      unfold wrapErr makeNew ioRead
      rw [wpMild_handle]
      have hfail : wpMild Untorn (failIf (t.disk.head.isSome = true) .exist >>= fun _ =>
          ioWrite fun d => { d with head := some none })
          ⟨fun _ _ => False, fun _ => HeadStays P w, HeadStays P w, fun _ => HeadStays P w⟩ t := by
        unfold failIf
        rw [if_pos (by rw [ht]; rfl)]
        exact hstays t ht
      exact ⟨hfail, fun _ _ => hstays t ht, hstays t ht⟩
    rw [wpMild_bind]
    exact wpMild_mono hfails (fun _ _ => False.elim) (fun _ _ => id) (fun _ => id) fun _ _ => id
  · exact wpMild_of_wp (wp_mono wp_trivial (fun _ _ _ h => absurd h hw)
      (fun _ _ _ h => absurd h hw) (fun _ _ h => absurd h hw) fun _ _ _ h => absurd h hw)

/-! ## Finalizing -/

/-- The layers are only added to. -/
theorem gives_genLayers {fuel : ℕ} {next : List Cid} {offs : List ℕ} (hoffs : offs ≠ []) :
    Gives (fun r _ => r.2 ≠ []) (genLayers fuel next offs) := by
  induction fuel generalizing next offs with
  | zero => exact fun _ => hoffs
  | succ fuel ih =>
    refine .get fun w => .ite (fun _ => ?_) fun _ _ => hoffs
    exact .after fun _ => ih (List.append_ne_nil_of_right_ne_nil _ (List.cons_ne_nil _ _))

theorem keeps_genTopCar (hP : Steady P) : KeepsHead P genTopCar := by
  refine .get fun _ => KeepsHead.failIf.bind fun _ => keeps_flushBuffered.wrapErr.bind fun _ =>
    keeps_dataSync.wrapErr.bind fun _ => .get fun w => keeps_checkResume.bind fun _ =>
    KeepsHead.modifyJb.bind fun _ =>
    (keeps_mutHead_ok fun h => hP.dataEnd h w.jb.dataLen).wrapErr.bind fun _ =>
    (keeps_iterate fun _ _ => keeps_collectLink).wrapErr.bind fun _ =>
    keeps_finishLayer.bind fun _ => (keeps_genLayers _ _ _).bind_of
      (gives_genLayers (List.cons_ne_nil _ _)) fun r hr => ?_
  obtain ⟨_ | ⟨root, _ | ⟨_, _⟩⟩, layerOffsets⟩ := r <;> dsimp only
  · exact .throw
  · refine keeps_flushBuffered.wrapErr.bind fun _ => keeps_dataSync.wrapErr.bind fun _ =>
      keeps_updateHeader.bind fun first => keeps_lockReadState.bind fun _ =>
      KeepsHead.modifyJb.bind fun _ => .get fun w => ?_
    refine .bind (.attempt (keeps_mutHead_ok fun h => hP.layers h _ _ _ ?_)) fun r =>
      keeps_unlockReadState.bind fun _ => ?_
    · exact fun hnil => hr ((List.set_eq_nil_iff ..).mp hnil)
    · rcases r with x | _
      · exact .throw
      · exact .ret
  · exact .throw

/-- **The top tree comes with its layers.** -/
theorem gives_genTopCar : GivesHead Layered genTopCar := by
  refine .get fun _ => .after fun _ => .after fun _ => .after fun _ => .get fun w => .after fun _ =>
    .after fun _ => .after fun _ => .after fun _ => .after fun _ =>
    .bind (gives_genLayers (List.cons_ne_nil _ _)) fun r hr => ?_
  obtain ⟨_ | ⟨root, _ | ⟨_, _⟩⟩, layerOffsets⟩ := r <;> dsimp only
  · exact .throw
  · refine .after fun _ => .after fun _ => .after fun first => .after fun _ => .after fun _ =>
      .get fun w => ?_
    have hne : layerOffsets.set 0 first ≠ [] := fun hnil => hr ((List.set_eq_nil_iff ..).mp hnil)
    refine Gives.release (fun u => ?_) keeps_unlockReadState (fun _ => .throw) fun _ => .ret
    refine wpMild_mono wpMild_mutHead ?_ (fun _ _ _ => trivial) (fun _ _ => trivial)
      fun _ _ _ => trivial
    rintro h t ⟨h', -, hchange, hhead⟩
    exact ⟨h', hhead, Except.ok.inj hchange ▸ hne⟩
  · exact .throw

theorem keeps_genTopUnlocked (hP : Steady P) : KeepsHead P genTopUnlocked := by
  refine keeps_unlockIdx.bind fun _ => (keeps_genTopCar hP).attempt.bind fun r =>
    keeps_lockIdx.bind fun _ => ?_
  rcases r with x | _
  · exact .throw
  · exact .ret

theorem gives_genTopUnlocked : GivesHead Layered genTopUnlocked :=
  .after fun _ => Gives.release gives_genTopCar keeps_lockIdx (fun _ => .throw) fun _ => .ret

theorem keeps_finalizeLocal (hP : Steady P) {hasTop : Bool} :
    KeepsHead P (finalizeLocal hasTop) := by
  refine keeps_readableIndex.bind fun idx =>
    (keeps_createBSST keeps_entries keeps_list).wrapErr.bind fun x =>
    keeps_saveMHList.wrapErr.bind fun _ => keeps_lockIdx.bind fun _ => ?_
  exact .andThen ((keeps_mutHead_ok hP.finalized).wrapErr.bind fun _ => keeps_swapIndex.bind fun _ =>
    .runIf (keeps_genTopUnlocked hP)) keeps_unlockIdx

theorem keeps_finalizeStaged (hP : Steady P) {hasTop : Bool} :
    KeepsHead P (finalizeStaged hasTop) := by
  refine .bind (.runIf (keeps_genTopCar hP).wrapErr) fun _ => keeps_readableIndex.bind fun idx =>
    keeps_entries.wrapErr.bind fun ents =>
    (keeps_createBSST .ret (keeps_listCar keeps_writeCarTo)).wrapErr.bind fun x =>
    KeepsHead.failIf.bind fun _ => keeps_saveMHList.wrapErr.bind fun _ =>
    (keeps_upload keeps_writeCarTo).wrapErr.bind fun _ => keeps_lockIdx.bind fun _ => ?_
  exact .andThen ((keeps_mutHead_ok hP.external).wrapErr.bind fun _ => keeps_swapIndex) keeps_unlockIdx

theorem keeps_finalize (hP : Steady P) : KeepsHead P finalize := by
  refine keeps_lockIdx.bind fun _ => .get fun w => .ite (keeps_unlockIdx.bind fun _ => .throw) <|
    KeepsHead.modifyJb.bind fun _ => .ite (keeps_unlockIdx.bind fun _ => .throw) <|
    ((keeps_mutHead_ok fun _ => id).wrapErr.onErr keeps_unlockIdx).bind fun h =>
    .ite .pure <| keeps_unlockIdx.bind fun _ =>
    .ite (keeps_finalizeStaged hP) (keeps_finalizeLocal hP)

/-- **In place**: the log has its layers, from before or now. -/
theorem gives_finalizeLocal {hasTop : Bool} {w : World}
    (htop : hasTop = true → Layered w.disk.head) :
    wpMild Untorn (finalizeLocal hasTop) (.returns fun _ w' => Layered w'.disk.head) w := by
  cases hasTop with
  | true =>
    exact wpMild_mono (keeps_finalizeLocal steady_layered w) (fun _ _ h => h (htop rfl))
      (fun _ _ _ => trivial) (fun _ _ => trivial) fun _ _ _ => trivial
  | false =>
    have hgives : GivesHead Layered (finalizeLocal false) :=
      .after fun idx => .after fun x => .after fun _ => .after fun _ =>
        .andThen (.after fun _ => .after fun _ => gives_genTopUnlocked) keeps_unlockIdx
    exact hgives w

/-- **Into the staging storage**. -/
theorem gives_finalizeStaged {hasTop : Bool} {w : World}
    (htop : hasTop = true → Layered w.disk.head) :
    wpMild Untorn (finalizeStaged hasTop) (.returns fun _ w' => Layered w'.disk.head) w := by
  cases hasTop with
  | true =>
    exact wpMild_mono (keeps_finalizeStaged steady_layered w) (fun _ _ h => h (htop rfl))
      (fun _ _ _ => trivial) (fun _ _ => trivial) fun _ _ _ => trivial
  | false =>
    have hgives : GivesHead Layered (finalizeStaged false) := by
      refine .keep gives_genTopCar.wrapErr fun _ => keeps_readableIndex.bind fun idx =>
        keeps_entries.wrapErr.bind fun ents =>
        (keeps_createBSST .ret (keeps_listCar keeps_writeCarTo)).wrapErr.bind fun x =>
        KeepsHead.failIf.bind fun _ => keeps_saveMHList.wrapErr.bind fun _ =>
        (keeps_upload keeps_writeCarTo).wrapErr.bind fun _ => keeps_lockIdx.bind fun _ => ?_
      exact .andThen ((keeps_mutHead_ok steady_layered.external).wrapErr.bind fun _ =>
        keeps_swapIndex) keeps_unlockIdx
    exact hgives w

/-- **A finalization comes with layers**, of a log whose head is not hollow:
a finalized one is left as it is. -/
theorem gives_finalize {w : World} (hw : NotHollow w.disk.head) :
    wpMild Untorn finalize (.returns fun _ w' => Layered w'.disk.head) w := by
  have hlock : ∀ {m : Op Unit} {f : Unit → Op Unit} {v : World}, KeepsHead (· = v.disk.head) m →
      (∀ u : World, u.disk.head = v.disk.head →
        wpMild Untorn (f ()) (.returns fun _ w' => Layered w'.disk.head) u) →
      wpMild Untorn (m >>= f) (.returns fun _ w' => Layered w'.disk.head) v := fun hm hf => by
    rw [wpMild_bind]
    exact wpMild_mono (hm _) (fun _ u hu => hf u (hu rfl)) (fun _ _ _ => trivial)
      (fun _ _ => trivial) fun _ _ _ => trivial
  refine hlock keeps_lockIdx fun u hu => ?_
  change wpMild Untorn (ite _ _ _) _ u
  split
  · exact Gives.after (fun _ => Gives.throw) u
  refine hlock .modifyJb fun v hv => ?_
  split
  · exact Gives.after (fun _ => Gives.throw) v
  unfold onErr wrapErr
  rw [wpMild_bind, wpMild_handle, wpMild_handle]
  refine wpMild_mono wpMild_mutHead ?_ (fun e t _ => ?_) (fun _ _ => trivial) fun _ _ => False.elim
  · rintro h t ⟨h', hhead, hchange, hhead'⟩
    rw [← Except.ok.inj hchange] at hhead'
    rw [hv, hu] at hhead
    change wpMild Untorn (if h.finalized = true then _ else _) _ t
    by_cases hfin : h.finalized = true
    · rw [if_pos hfin]
      exact ⟨h, hhead', hw h hhead hfin⟩
    · have htop : decide (h.layerOffsets ≠ []) = true → Layered (some (some h)) := fun hne =>
        ⟨h, rfl, of_decide_eq_true hne⟩
      rw [if_neg hfin]
      refine hlock keeps_unlockIdx fun t' ht' => ?_
      rw [hhead'] at ht'
      split
      · exact gives_finalizeStaged (by rw [ht']; exact htop)
      · exact gives_finalizeLocal (by rw [ht']; exact htop)
  · exact Gives.after (m := unlockIdx)
      (f := fun _ => (.throw (.wrap "checking if finalized" e) : Op Head)) (fun _ => Gives.throw) t

/-! ## Reloading -/

omit X in
theorem keeps_reopenHead
    (hP : ∀ h, P (some (some h)) → P (some (some { h with isExternal := true, offloaded := false }))) :
    KeepsHead P reopenHead :=
  keeps_openHead.bind fun _ => KeepsHead.failIf.bind fun _ => KeepsHead.modifyJb.bind fun _ =>
    (keeps_mutHead_ok hP).wrapErr.bind fun _ => .pure

/-- **A reload** may take the mark back, and nothing else. -/
theorem keeps_finDataReload
    (hP : ∀ h, P (some (some h)) → P (some (some { h with isExternal := true, offloaded := false })))
    {blkEnts carSz : ℕ} : KeepsHead P (finDataReload blkEnts carSz) := by
  have hcheck : KeepsHead P checkReloaded :=
    (keeps_mutHead_ok fun _ => id).wrapErr.bind fun _ => KeepsHead.failIf.bind fun _ =>
      .ite (KeepsHead.ioRead.wrapErr.bind fun _ => .get fun _ => .failIf) .throw
  refine keeps_lockIdx.bind fun _ => .andThen (.get fun _ => KeepsHead.failIf.bind fun _ =>
    .ite hcheck <| keeps_openFilCar.wrapErr.bind fun car =>
    (keeps_createBSST .ret (keeps_listCar keeps_copyCar)).wrapErr.bind fun x => ?_) keeps_unlockIdx
  exact KeepsHead.modifyJb.bind fun _ => KeepsHead.failIf.bind fun _ =>
    KeepsHead.ioRead.wrapErr.bind fun _ => KeepsHead.ioRead.wrapErr.bind fun _ =>
    (keeps_upload keeps_copyCar).wrapErr.bind fun _ => KeepsHead.ioRead.wrapErr.bind fun _ =>
    .bind (.wrapErr (.ioWrite fun _ => rfl)) fun _ => keeps_reopenHead hP

end CarLog

end Carlog

end Ribs
