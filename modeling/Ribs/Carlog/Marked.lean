import Ribs.Carlog.System
import Ribs.Carlog.Rules
import Ribs.Carlog.Encoding
import Ribs.Common.Respects
/-!
# Carlog — the mark of `Finalize`

`Finalize` marks the log in memory before it does anything else, so that
no second one runs beside it. Nothing takes the mark back, neither the
error returns of `Finalize` nor any other operation: an attempt that
failed is the last one until the log is opened again.
-/

namespace Ribs

open Common

namespace Carlog

/-- A marked log stays marked. -/
def MarkStays (w w' : World) : Prop := w.jb.finalizing = true → w'.jb.finalizing = true

instance : IsPreorder World MarkStays where
  refl _ := id
  trans _ _ _ h h' := fun hw => h' (h hw)

/-- **`m` takes no mark back**, whatever its steps do. -/
def KeepsMark {α : Type} (m : Op α) : Prop := Respects MarkStays m

/-- A marked log stays marked, and one that takes no writes takes none
later. -/
structure Stays (w w' : World) : Prop where
  mark : MarkStays w w'
  shut : w.jb.wIdx = none → w'.jb.wIdx = none

instance : IsPreorder World Stays where
  refl _ := ⟨id, id⟩
  trans _ _ _ h h' := ⟨fun hw => h'.mark (h.mark hw), fun hw => h'.shut (h.shut hw)⟩

/-- `m` takes no mark back, and opens no log for writing. -/
def KeepsShut {α : Type} (m : Op α) : Prop := Respects Stays m

theorem KeepsShut.keepsMark {α : Type} {m : Op α} (hm : KeepsShut m) : KeepsMark m := fun w =>
  wp_always_mono (hm w) fun _ => Stays.mark

variable {α β : Type} {m : Op α}

/-! ## Steps, files and the head -/

namespace CarLog

theorem marks_ioWrite {f : Disk → Disk} : KeepsShut (ioWrite f) := .step fun _ => ⟨id, id⟩

theorem marks_modifyJb {f : CarLog → CarLog}
    (hf : ∀ j, (j.finalizing = true → (f j).finalizing = true) ∧
      (j.wIdx = none → (f j).wIdx = none)) : KeepsShut (modifyJb f) :=
  Respects.modify fun w => ⟨(hf w.jb).1, (hf w.jb).2⟩

theorem marks_writeOut {p : Bytes} {keep : ℕ → Bytes} : KeepsShut (writeOut p keep) := by
  have happend : ∀ p w, (appendFile p w).jb.finalizing = w.jb.finalizing ∧
      (appendFile p w).jb.wIdx = w.jb.wIdx := fun p w => by
    unfold appendFile
    cases w.jb.data <;> exact ⟨rfl, rfl⟩
  have hio : ∀ keep : ℕ → Bytes, KeepsShut (.io (fun w => setBuffered ⟨[], none⟩ (appendFile p w))
      (fun n w => setBuffered ⟨keep n, some .io⟩ (appendFile (p.take n) w))
      fun ok => if ok then .ret () else .throw .io : Op Unit) := fun keep =>
    .io (fun w => ⟨(happend p w).1.trans, (happend p w).2.trans⟩)
      (fun n w => ⟨(happend _ w).1.trans, (happend _ w).2.trans⟩)
      fun _ => .either .ret .throw
  intro w
  change wp anyFate (ite _ _ _) _ w
  split
  · exact hio keep w
  · exact ⟨id, id⟩

theorem marks_lockIdx : KeepsShut lockIdx :=
  .get fun _ => .either (marks_modifyJb fun _ => ⟨id, id⟩) .fault

theorem marks_unlockIdx : KeepsShut unlockIdx :=
  .get fun _ => .either (marks_modifyJb fun _ => ⟨id, id⟩) .fault

theorem marks_rLockIdx : KeepsShut rLockIdx :=
  .get fun _ => .either .fault (marks_modifyJb fun _ => ⟨id, id⟩)

theorem marks_rUnlockIdx : KeepsShut rUnlockIdx :=
  .get fun _ => .either .fault (marks_modifyJb fun _ => ⟨id, id⟩)

theorem marks_lockReadState : KeepsShut lockReadState :=
  .get fun _ => .either .fault (marks_modifyJb fun _ => ⟨id, id⟩)

theorem marks_unlockReadState : KeepsShut unlockReadState :=
  .get fun _ => .either (marks_modifyJb fun _ => ⟨id, id⟩) .fault

theorem marks_waitPendingReads : KeepsShut waitPendingReads := .get fun _ => .either .ret .fault

theorem marks_openData : KeepsShut openData := .get fun w => by
  cases w.jb.data with
  | none => exact .throw
  | some f => exact Respects.either (c := f.isOpen = true) .ret .throw

theorem marks_flush : KeepsShut flush := .get fun w => by
  rcases w.jb.dataBuffered with _ | ⟨buf, _ | e⟩
  · exact .fault
  · exact .either .ret marks_writeOut
  · exact .throw

theorem marks_bufWrite {p : Bytes} : KeepsShut (bufWrite p) := .get fun w => by
  rcases w.jb.dataBuffered with _ | ⟨buf, _ | e⟩
  · exact .fault
  · refine .either (.modify fun _ => ⟨id, id⟩) (.either marks_writeOut ?_)
    exact .bind (.modify fun _ => ⟨id, id⟩) fun _ => marks_flush.bind fun _ =>
      .either (.modify fun _ => ⟨id, id⟩) marks_writeOut
  · exact .throw

theorem marks_dataReadAt {off n : ℕ} : KeepsShut (dataReadAt off n) :=
  marks_openData.bind fun _ => Respects.ioRead.bind fun _ => .get fun _ => .either .ret .throw

theorem marks_dataWriteAt {p : Bytes} {off : ℕ} : KeepsShut (dataWriteAt p off) :=
  marks_openData.bind fun _ => .io (fun _ => ⟨id, id⟩) (fun _ _ => ⟨id, id⟩)
    fun _ => .either .ret .throw

theorem marks_dataSync : KeepsShut dataSync := marks_openData.bind fun _ => marks_ioWrite

theorem marks_dataClose : KeepsShut dataClose :=
  marks_openData.bind fun _ => .step fun _ => ⟨id, id⟩

theorem marks_readHead : KeepsShut readHead := .get fun w => by
  rcases w.jb.head with _ | _ | _
  · exact .throw
  · exact .throw
  · refine Respects.ioRead.bind fun _ => ?_
    rcases w.disk.head with _ | _ | h
    · exact .throw
    · exact .throw
    · exact .ret

theorem marks_writeHead {h : Head} : KeepsShut (writeHead h) :=
  .io (fun _ => ⟨id, id⟩) (fun _ _ => ⟨id, id⟩) fun _ => .either .ret .throw

theorem marks_mutHead {change : Head → Except Err Head} : KeepsShut (mutHead change) :=
  marks_readHead.wrapErr.bind fun h => Respects.failIf.bind fun _ => by
    cases change h with
    | error e => exact .throw
    | ok h' =>
      exact marks_writeHead.wrapErr.bind fun _ => Respects.ioRead.wrapErr.bind fun _ => .pure

theorem marks_headClose : KeepsShut headClose := .get fun w => by
  rcases w.jb.head with _ | _ | _
  · exact .throw
  · exact .throw
  · exact .step fun _ => ⟨id, id⟩

theorem marks_contents : KeepsShut LevelDBIndex.contents :=
  Respects.ioRead.bind fun _ => .get fun w => by
  cases w.disk.levelIndex with
  | none => exact .throw
  | some j => exact .ret

theorem marks_result {r : Except Bsst.LookupError α} : KeepsShut (BSSTIndex.result r) := by
  rcases r with (_ | _ | _) | x
  · exact .throw
  · exact .fault
  · exact .fault
  · exact .ret

theorem marks_drawSalt : KeepsShut drawSalt := .put (fun _ => ⟨id, id⟩) fun _ => .ret

theorem marks_closeIndex {idx : ReadableIndex} : KeepsShut idx.close := by
  cases idx with
  | level idx => exact Respects.ioRead
  | bsst b => exact Respects.ioRead

theorem marks_readableIndex : KeepsShut readableIndex := .get fun _ => Respects.deref

theorem marks_ldWrite {d : List Bytes} : KeepsShut (ldWrite d) :=
  marks_bufWrite.bind fun _ => (Respects.forM fun _ => marks_bufWrite).bind fun _ => .pure

theorem marks_flushBuffered : KeepsShut flushBuffered :=
  .get fun _ => Respects.deref.bind fun _ => .either .ret marks_flush

theorem marks_call {cb : Callback} {x : Call} : KeepsShut (cb.call x) :=
  .put (fun _ => ⟨id, id⟩) fun _ => by
  cases cb x with
  | none => exact .ret
  | some n => exact .throw

theorem marks_pos : KeepsShut pos := .get fun _ => Respects.deref

theorem marks_reach {dataAt : ℕ} {limit : ℤ} : KeepsShut (reach dataAt limit) :=
  .either .pure <| marks_pos.bind fun _ => .either .pure <|
    marks_flushBuffered.wrapErr.bind fun _ => marks_pos.bind fun _ => Respects.failIf.bind fun _ =>
    .pure

theorem marks_stagedReadAt {off n : ℕ} : KeepsShut (stagedReadAt off n) :=
  Respects.ioRead.bind fun _ => .get fun w => by
    cases w.staged with
    | none => exact .throw
    | some s => exact Respects.either (c := off + n ≤ s.data.length) .ret .throw

theorem marks_commitLocked : KeepsShut commitLocked :=
  marks_flushBuffered.wrapErr.bind fun _ => marks_dataSync.wrapErr.bind fun _ => .get fun _ =>
    (marks_mutHead.bind fun _ => .pure).handle fun _ => .either .ret .throw

theorem marks_entries {idx : ReadableIndex} : KeepsShut idx.entries := by
  cases idx with
  | level idx => exact marks_contents.bind fun _ => .pure
  | bsst b => exact .fault

theorem marks_list {idx : ReadableIndex} : KeepsShut idx.list := by
  cases idx with
  | level idx => exact marks_contents.bind fun _ => .pure
  | bsst b => exact .fault

theorem marks_putBlock {m : Multihash} {blk : Bytes} : KeepsShut (putBlock m blk) := by
  refine .get fun _ => marks_ldWrite.wrapErr.bind fun _ => .get fun _ =>
    Respects.deref.bind fun _ => ?_
  exact .bind (marks_modifyJb fun _ => ⟨id, id⟩) fun _ => .pure

theorem marks_putBlocks (l : List (Multihash × Bytes × Bool)) : KeepsShut (putBlocks l) := by
  induction l with
  | nil => exact .ret
  | cons x l ih =>
    obtain ⟨m, blk, has⟩ := x
    exact .either (ih.bind fun _ => .pure)
      (Respects.failIf.bind fun _ => marks_putBlock.bind fun _ =>
      ih.bind fun _ => .pure)

theorem marks_checkResume {j : CarLog} : KeepsShut (checkResume j) :=
  .runIf <| Respects.failIf.bind fun _ => Respects.failIf.bind fun _ => Respects.deref.bind fun _ =>
    Respects.failIf

theorem marks_writeOutput {p : Bytes} : KeepsShut (writeOutput p) :=
  .io (fun _ => ⟨id, id⟩) (fun _ _ => ⟨id, id⟩) fun _ => .either .ret .throw

theorem marks_writeBlock {s : CarWriter} {c : Cid} {data : Bytes} :
    KeepsShut (writeBlock s c data) :=
  marks_writeOutput.bind fun _ => .pure

theorem marks_saveMHList {l : List Multihash} : KeepsShut (saveMHList l) :=
  marks_ioWrite.bind fun _ => marks_ioWrite

theorem marks_dropLevel : KeepsShut dropLevel :=
  .get fun _ => Respects.failIf.bind fun _ => marks_ioWrite.wrapErr

theorem marks_swapIndex {set : CarLog → CarLog} (h : KeepsShut (modifyJb set)) :
    KeepsShut (swapIndex set) := by
  refine marks_readableIndex.bind fun _ => marks_closeIndex.tried.bind fun r => h.bind fun _ => ?_
  rcases r with e | _ <;> dsimp only
  · exact .throw
  · exact marks_dropLevel.wrapErr

theorem marks_copyFilCar {car : Bytes} : KeepsShut (copyFilCar car) :=
  .io (fun _ => ⟨id, id⟩) (fun _ _ => ⟨id, id⟩) fun _ => .either .ret .throw

theorem marks_dropFilCar : KeepsShut dropFilCar := marks_ioWrite.handle fun _ => .ret

theorem marks_copyCar {car : Bytes} {n : ℕ} : KeepsShut (copyCar car n) :=
  Respects.ioRead.bind fun _ => marks_writeOutput

theorem marks_loadDataLocked {car : Bytes} {sz : ℕ} : KeepsShut (loadDataLocked car sz) := by
  refine .get fun _ => Respects.failIf.bind fun _ => Respects.failIf.bind fun _ =>
    marks_ioWrite.wrapErr.bind fun _ => marks_copyFilCar.tried.bind fun n =>
    Respects.ioRead.tried.bind fun cerr => ?_
  rcases n with e | n <;> dsimp only
  · exact marks_dropFilCar.bind fun _ => .throw
  refine .either (marks_dropFilCar.bind fun _ => .throw) ?_
  rcases cerr with e | _ <;> dsimp only
  · exact .throw
  · exact .ret

theorem marks_openHead : KeepsShut openHead := by
  refine Respects.ioRead.wrapErr.bind fun _ => .get fun w => ?_
  rcases w.disk.head with _ | _ | h <;> dsimp only
  · exact .throw
  · exact .throw
  · exact Respects.ioRead.wrapErr.bind fun _ => .pure

theorem marks_checkReloaded : KeepsShut checkReloaded :=
  marks_mutHead.wrapErr.bind fun _ => Respects.failIf.bind fun _ =>
    .either (Respects.ioRead.wrapErr.bind fun _ => .get fun _ => .failIf) .throw

theorem marks_reopenHead : KeepsShut reopenHead := by
  refine marks_openHead.bind fun _ => Respects.failIf.bind fun _ => ?_
  exact .bind (marks_modifyJb fun _ => ⟨id, id⟩) fun _ =>
    marks_mutHead.wrapErr.bind fun _ => .pure

theorem marks_openFilCar : KeepsShut openFilCar := by
  refine Respects.ioRead.bind fun _ => .get fun w => ?_
  rcases w.disk.filCar with _ | car <;> dsimp only
  · exact .throw
  · exact .ret

theorem marks_offloadData : KeepsShut offloadData := by
  refine .get fun _ => (Respects.runIf marks_dataClose.wrapErr).bind fun _ => ?_
  exact .bind (marks_modifyJb fun _ => ⟨id, id⟩) fun _ => marks_ioWrite.wrapErr

theorem marks_captureOutput {m : Op α} (hm : KeepsShut m) : KeepsShut (captureOutput m) :=
  .bind (.modify fun _ => ⟨id, id⟩) fun _ => hm.tried.bind fun _ => .get fun _ => .ret

theorem marks_upload {size : ℕ} {src : Op Unit} (hsrc : KeepsShut src) :
    KeepsShut (upload size src) := by
  refine (marks_captureOutput hsrc).bind fun x => ?_
  obtain ⟨stream, _ | _⟩ := x <;> dsimp only
  · exact .throw
  · exact .step fun _ => ⟨id, id⟩

theorem marks_withPendingRead {m : Op Unit} (hm : KeepsShut m) : KeepsShut (withPendingRead m) := by
  refine .bind (marks_modifyJb fun _ => ⟨id, id⟩) fun _ =>
    marks_rUnlockIdx.bind fun _ => hm.andThen ?_
  exact marks_modifyJb fun _ => ⟨id, id⟩

theorem marks_commit : KeepsShut commit :=
  marks_rLockIdx.bind fun _ => .get fun _ => .either (marks_rUnlockIdx.bind fun _ => .pure)
    (marks_commitLocked.andThen marks_rUnlockIdx)

theorem marks_markReadOnly : KeepsShut markReadOnly := by
  refine marks_lockIdx.bind fun _ => .andThen (.get fun _ => Respects.failIf.bind fun _ =>
    marks_mutHead.wrapErr.bind fun _ => ?_) marks_unlockIdx
  exact marks_modifyJb fun _ => ⟨id, fun _ => rfl⟩

theorem marks_closeRest {j : CarLog} : KeepsShut (closeRest j) :=
  .bind (.runIf (marks_commit.wrapErr.bind fun _ => marks_dataClose.wrapErr)) fun _ =>
    .bind (.runIf marks_headClose.wrapErr) fun _ => .runIf Respects.ioRead.wrapErr

theorem marks_close : KeepsShut close := by
  refine marks_lockIdx.bind fun _ => .get fun w =>
    .bind (marks_modifyJb fun _ => ⟨id, fun _ => rfl⟩) fun _ =>
    marks_unlockIdx.bind fun _ => marks_waitPendingReads.bind fun _ => ?_
  rcases w.jb.rIdx with _ | idx <;> dsimp only
  · exact marks_closeRest
  · exact marks_commit.wrapErr.bind fun _ => marks_dataClose.wrapErr.bind fun _ =>
      marks_headClose.wrapErr.bind fun _ => marks_closeIndex.wrapErr

theorem marks_offloadIndexes : KeepsShut offloadIndexes := by
  refine .get fun _ => (Respects.failIf.onErr marks_unlockIdx).bind fun _ =>
    (Respects.failIf.onErr marks_unlockIdx).bind fun _ =>
    (marks_mutHead.wrapErr.onErr marks_unlockIdx).bind fun _ => ?_
  refine .bind (.runIf (marks_readableIndex.bind fun _ =>
    (marks_closeIndex.wrapErr.onErr marks_unlockIdx).bind fun _ => ?_)) fun _ =>
    .bind (.runIf ((Respects.ioRead.wrapErr.onErr marks_unlockIdx).bind fun _ => ?_))
    fun _ => marks_unlockIdx
  · exact marks_modifyJb fun _ => ⟨id, id⟩
  · exact marks_modifyJb fun _ => ⟨id, id⟩

theorem marks_offload : KeepsShut offload := by
  refine marks_lockReadState.bind fun _ => .get fun _ =>
    .either (marks_unlockReadState.bind fun _ => .throw) (.andThen ?_ marks_unlockReadState)
  refine marks_lockIdx.bind fun _ => marks_offloadIndexes.bind fun _ =>
    marks_waitPendingReads.bind fun _ => marks_offloadData.bind fun _ =>
    marks_ioWrite.wrapErr.bind fun _ => marks_ioWrite.wrapErr.bind fun _ =>
    marks_headClose.wrapErr.bind fun _ => ?_
  exact marks_modifyJb fun _ => ⟨id, id⟩

theorem marks_offloadLocalData : KeepsShut offloadLocalData :=
  marks_lockIdx.bind fun _ => .andThen (.get fun _ => Respects.failIf.bind fun _ =>
    marks_waitPendingReads.bind fun _ => marks_offloadData.wrapErr) marks_unlockIdx

theorem marks_loadData {car : Bytes} {sz : ℕ} : KeepsShut (loadData car sz) :=
  marks_lockIdx.bind fun _ => marks_loadDataLocked.andThen marks_unlockIdx

/-- What holds of a marked log holds when an operation returned. -/
theorem KeepsShut.settles {m : Op α} (hm : KeepsShut m) {w : World}
    (hw : w.jb.finalizing = true) : wp anyFate m
      (.settles (fun _ w' => w'.jb.finalizing = true) fun w' => w'.jb.finalizing = true) w :=
  wp_mono (hm w) (fun _ _ h => h.mark hw) (fun _ _ h => h.mark hw) (fun _ _ => trivial)
    fun _ _ _ => trivial

/-! ## Functions of the package's parameters -/

variable [X : External]

theorem marks_openBSST {path : BsstPath} : KeepsShut (openBSST path) :=
  Respects.ioRead.wrapErr.bind fun _ => .get fun w => by
    cases path.get w.disk with
    | none => exact .throw
    | some f =>
      dsimp only
      cases Bsst.openFile f with
      | none => exact .throw
      | some b => exact .ret

theorem marks_has {idx : ReadableIndex} {c : List Multihash} : KeepsShut (idx.has c) := by
  cases idx with
  | level idx => exact marks_contents.bind fun _ => .pure
  | bsst b => exact Respects.ioRead.bind fun _ => marks_result

theorem marks_get {idx : ReadableIndex} {c : List Multihash} : KeepsShut (idx.get c) := by
  cases idx with
  | level idx => exact marks_contents.bind fun _ => .pure
  | bsst b => exact Respects.ioRead.bind fun _ => marks_result

theorem marks_putLocked {c : List Multihash} {b : List Bytes} : KeepsShut (putLocked c b) :=
  .get fun _ => Respects.failIf.bind fun _ => Respects.failIf.bind fun _ =>
    marks_readableIndex.bind fun _ => marks_has.bind fun _ => (marks_putBlocks _).bind fun _ =>
    marks_ioWrite.wrapErr

theorem marks_readEntry {readAt : ℕ → ℕ → Op Bytes} (h : ∀ off n, KeepsShut (readAt off n))
    {loc : I64} : KeepsShut (readEntry readAt loc) := by
  refine .either .fault ((h _ _).wrapErr.bind fun ent => ?_)
  cases X.cidFromBytes ent with
  | none => exact .throw
  | some r => exact .ret

theorem marks_viewAt {cb : Callback} {i dataAt : ℕ} {loc : I64} :
    KeepsShut (viewAt cb i loc dataAt) := by
  refine .get fun _ => .either (marks_call.bind fun _ => .pure) (Respects.deref.bind fun lru => ?_)
  rcases lruGet lru loc with _ | ⟨v, lru'⟩ <;> dsimp only
  · exact marks_reach.bind fun _ => (marks_readEntry fun _ _ => marks_dataReadAt).bind fun _ =>
      marks_call.bind fun _ => .pure
  · exact .bind (marks_modifyJb fun _ => ⟨id, id⟩) fun _ => marks_call.bind fun _ => .pure

theorem marks_viewLocs {cb : Callback} (locs : List I64) (i dataAt : ℕ) :
    KeepsShut (viewLocs cb i locs dataAt) := by
  induction locs generalizing i dataAt with
  | nil => exact .ret
  | cons loc locs ih => exact marks_viewAt.bind fun _ => ih _ _

theorem marks_viewStaged {cb : Callback} (locs : List I64) (i : ℕ) :
    KeepsShut (viewStaged cb i locs) := by
  induction locs generalizing i with
  | nil => exact .ret
  | cons loc locs ih =>
    refine .bind (.either marks_call ?_) fun _ => ih _
    exact (marks_readEntry fun _ _ => marks_stagedReadAt).bind fun _ => marks_call

theorem marks_iterate {dataEnd : ℕ} {cb : β → LogEntry → Op β} {b : β}
    (h : ∀ b e, KeepsShut (cb b e)) : KeepsShut (iterate dataEnd cb b) := by
  refine .get fun w => .either .ret (marks_openData.bind fun _ => (Respects.foldlM (fun _ _ =>
    Respects.ioRead.bind fun _ => h _ _) _).bind fun _ => Respects.ioRead.bind fun _ => ?_)
  split
  · exact .ret
  · exact .throw

theorem marks_writeLinkBlock {next links : List Cid} : KeepsShut (writeLinkBlock next links) := by
  refine marks_ldWrite.wrapErr.bind fun _ => ?_
  exact .bind (marks_modifyJb fun _ => ⟨id, id⟩) fun _ => .pure

theorem marks_collectLink {links : List Cid × List Cid} {e : LogEntry} :
    KeepsShut (collectLink links e) :=
  .either (marks_writeLinkBlock.wrapErr.bind fun _ => .pure) .ret

theorem marks_finishLayer {links : List Cid × List Cid} : KeepsShut (finishLayer links) :=
  .either .ret marks_writeLinkBlock.wrapErr

theorem marks_genLayers (fuel : ℕ) (next : List Cid) (offs : List ℕ) :
    KeepsShut (genLayers fuel next offs) := by
  induction fuel generalizing next offs with
  | zero => exact .ret
  | succ fuel ih =>
    exact .get fun _ => .either ((Respects.foldlM (fun _ _ => marks_writeLinkBlock.wrapErr) _).bind
      fun _ => ih _ _) .ret

theorem marks_updateHeader {root : Cid} : KeepsShut (updateHeader root) := by
  refine marks_dataReadAt.wrapErr.bind fun buf => ?_
  rcases readUvarint buf with e | ⟨hlen, rest⟩ <;> dsimp only
  · exact .throw
  refine .either .fault ?_
  rcases X.decodeHeader (rest.take hlen) with _ | ⟨version, roots⟩ <;> dsimp only
  · exact .throw
  · exact Respects.failIf.bind fun _ => Respects.failIf.bind fun _ => Respects.failIf.bind fun _ =>
      marks_dataWriteAt.wrapErr.bind fun _ => marks_dataSync.wrapErr.bind fun _ => .pure

theorem marks_readNode {off : ℕ} : KeepsShut (readNode off) := by
  refine marks_openData.bind fun _ => Respects.ioRead.bind fun _ => .get fun w => ?_
  rcases readFrame maxAllowedSectionSize ((blockLog w).drop off) with
    (_ | _ | _ | _) | ⟨d, rest⟩ <;> dsimp only
  · exact .throw
  · exact .throw
  · exact .throw
  · exact .throw
  rcases X.cidFromBytes d with _ | ⟨n, c⟩ <;> dsimp only
  · exact .throw
  · exact .ret

theorem marks_nodeLinks {c : Cid} {data : Bytes} : KeepsShut (nodeLinks c data) := by
  refine .either .ret ?_
  rcases X.decodeLinks data with _ | links <;> dsimp only
  · exact .throw
  · exact .ret

theorem marks_writeNode (atLayer : ℕ) (s : CarWriter) (c : Cid) (data : Bytes) :
    KeepsShut (writeNode atLayer s c data) := by
  induction atLayer generalizing s c data with
  | zero =>
    exact marks_writeBlock.wrapErr.bind fun _ => marks_nodeLinks.bind fun _ => .either .pure .fault
  | succ atLayer ih =>
    refine marks_writeBlock.wrapErr.bind fun _ => marks_nodeLinks.bind fun _ =>
      .foldlM (fun s ci => ?_) _
    exact Respects.deref.bind fun _ => marks_readNode.wrapErr.bind fun _ =>
      Respects.failIf.bind fun _ =>
      ih _ _ _

theorem marks_loadMHList : KeepsShut loadMHList := by
  refine Respects.ioRead.bind fun _ => .get fun w => ?_
  rcases w.disk.hashSample with _ | data <;> dsimp only
  · exact .throw
  rcases readMHList data with e | l <;> dsimp only
  · exact .throw
  · exact .ret

theorem marks_createBSST {path : BsstPath} {entries : Op ℕ} {list : Op (Bsst.Source × β)}
    (hentries : KeepsShut entries) (hlist : KeepsShut list) :
    KeepsShut (createBSST path entries list) := by
  refine hentries.wrapErr.bind fun ents => .wrapErr (marks_ioWrite.wrapErr.bind fun _ =>
    marks_drawSalt.bind fun salt => marks_ioWrite.wrapErr.bind fun _ =>
    Respects.ioRead.wrapErr.bind fun _ => hlist.wrapErr.bind fun l => ?_)
  obtain ⟨source, extra⟩ := l
  dsimp only
  cases Bsst.buckets salt ents source with
  | error e => exact .fault
  | ok r =>
    exact marks_ioWrite.wrapErr.bind fun _ => Respects.ioRead.wrapErr.bind fun _ =>
      marks_ioWrite.wrapErr.bind fun _ => Respects.ioRead.wrapErr.bind fun _ =>
      Respects.ioRead.wrapErr.bind fun _ => marks_openBSST.wrapErr.bind fun _ => .pure

theorem marks_genTopCar : KeepsShut genTopCar := by
  refine .get fun _ => Respects.failIf.bind fun _ => marks_flushBuffered.wrapErr.bind fun _ =>
    marks_dataSync.wrapErr.bind fun _ => .get fun w => marks_checkResume.bind fun _ => ?_
  refine .bind (marks_modifyJb fun _ => ⟨id, id⟩) fun _ => marks_mutHead.wrapErr.bind fun _ =>
    (marks_iterate fun _ _ => marks_collectLink).wrapErr.bind fun _ =>
    marks_finishLayer.bind fun _ => (marks_genLayers _ _ _).bind fun r => ?_
  obtain ⟨_ | ⟨root, _ | ⟨_, _⟩⟩, layerOffsets⟩ := r <;> dsimp only
  · exact .throw
  · refine marks_flushBuffered.wrapErr.bind fun _ => marks_dataSync.wrapErr.bind fun _ =>
      marks_updateHeader.bind fun _ => marks_lockReadState.bind fun _ => ?_
    refine .bind (marks_modifyJb fun _ => ⟨id, id⟩) fun _ => .get fun _ =>
      marks_mutHead.tried.bind fun r => marks_unlockReadState.bind fun _ => ?_
    rcases r with x | _
    · exact .throw
    · exact .ret
  · exact .throw

theorem marks_writeCar : KeepsShut writeCar :=
  marks_lockReadState.bind fun _ => .get fun _ =>
    .either (marks_unlockReadState.bind fun _ => .throw) <|
      marks_unlockReadState.bind fun _ => marks_readNode.wrapErr.bind fun _ =>
      marks_writeOutput.wrapErr.bind fun _ => (marks_writeNode _ _ _ _).wrapErr.bind fun _ => .pure

theorem marks_listCar {src : Op Unit} (hsrc : KeepsShut src) :
    KeepsShut (listCar src) := by
  refine (marks_captureOutput hsrc).bind fun x => ?_
  obtain ⟨stream, r⟩ := x
  dsimp only
  rcases listStream stream r with _ | x <;> dsimp only
  · exact .throw
  · exact .ret

theorem marks_writeCarTo : KeepsShut writeCarTo :=
  marks_writeCar.bind fun _ => .pure

/-! ## The operations -/

theorem marks_put {c : List Multihash} {b : List Bytes} : KeepsShut (put c b) :=
  marks_rLockIdx.bind fun _ => marks_putLocked.andThen marks_rUnlockIdx

theorem marks_view {c : List Multihash} {cb : Callback} : KeepsShut (view c cb) := by
  refine marks_rLockIdx.bind fun _ => .get fun w => ?_
  rcases w.jb.eIdx with _ | b
  · rcases w.jb.rIdx with _ | idx
    · exact marks_rUnlockIdx.bind fun _ => .throw
    · refine marks_get.tried.bind fun locs => marks_withPendingRead ?_
      rcases locs with x | locs
      · exact .throw
      · exact marks_pos.bind fun _ => marks_viewLocs _ _ _
  · have hget : KeepsShut (ReadableIndex.get (.bsst b) c) := marks_get
    refine hget.tried.bind fun locs => marks_withPendingRead ?_
    rcases locs with x | locs
    · exact .throw
    · exact .get fun _ => Respects.failIf.bind fun _ => marks_viewStaged _ _

theorem marks_genTopUnlocked : KeepsShut genTopUnlocked := by
  refine marks_unlockIdx.bind fun _ => marks_genTopCar.tried.bind fun r =>
    marks_lockIdx.bind fun _ => ?_
  rcases r with x | _ <;> dsimp only
  · exact .throw
  · exact .ret

theorem marks_finalizeLocal {hasTop : Bool} : KeepsShut (finalizeLocal hasTop) := by
  refine marks_readableIndex.bind fun idx =>
    (marks_createBSST marks_entries marks_list).wrapErr.bind fun x =>
    marks_saveMHList.wrapErr.bind fun _ => marks_lockIdx.bind fun _ => ?_
  refine .andThen (marks_mutHead.wrapErr.bind fun _ => .bind (marks_swapIndex ?_) fun _ =>
    .runIf marks_genTopUnlocked) marks_unlockIdx
  exact marks_modifyJb fun _ => ⟨id, id⟩

theorem marks_finalizeStaged {hasTop : Bool} : KeepsShut (finalizeStaged hasTop) := by
  refine .bind (.runIf marks_genTopCar.wrapErr) fun _ =>
    marks_readableIndex.bind fun idx => marks_entries.wrapErr.bind fun ents =>
    (marks_createBSST .ret (marks_listCar marks_writeCarTo)).wrapErr.bind fun x =>
    Respects.failIf.bind fun _ => marks_saveMHList.wrapErr.bind fun _ =>
    (marks_upload marks_writeCarTo).wrapErr.bind fun _ => marks_lockIdx.bind fun _ => ?_
  refine .andThen (marks_mutHead.wrapErr.bind fun _ => marks_swapIndex ?_) marks_unlockIdx
  exact marks_modifyJb fun _ => ⟨id, id⟩

theorem marks_finDataReload {blkEnts carSz : ℕ} : KeepsShut (finDataReload blkEnts carSz) := by
  refine marks_lockIdx.bind fun _ => .andThen (.get fun _ => Respects.failIf.bind fun _ =>
    .either marks_checkReloaded (marks_openFilCar.wrapErr.bind fun car =>
    (marks_createBSST .ret (marks_listCar marks_copyCar)).wrapErr.bind fun x => ?_))
    marks_unlockIdx
  refine .bind (marks_modifyJb fun _ => ⟨id, id⟩) fun _ => Respects.failIf.bind fun _ =>
    Respects.ioRead.wrapErr.bind fun _ => Respects.ioRead.wrapErr.bind fun _ =>
    (marks_upload marks_copyCar).wrapErr.bind fun _ => Respects.ioRead.wrapErr.bind fun _ =>
    marks_ioWrite.wrapErr.bind fun _ => marks_reopenHead

theorem marks_hashSample : KeepsShut hashSample :=
  marks_lockReadState.bind fun _ => .get fun _ => Respects.failIf.bind fun _ =>
    marks_unlockReadState.bind fun _ => marks_loadMHList.wrapErr

/-- `Finalize` behind its mark. -/
def finalizeMarked (w : World) : Op Unit :=
  if w.jb.wIdx.isSome then do
    unlockIdx
    .throw (.text "cannot finalize read-write jbob")
  else do
    let h ← onErr (wrapErr "checking if finalized" (mutHead fun h => .ok h)) unlockIdx
    if h.finalized then return ()
    else do
      unlockIdx
      if w.jb.staging then finalizeStaged (h.layerOffsets ≠ [])
      else finalizeLocal (h.layerOffsets ≠ [])

theorem finalize_eq : finalize = (do
    lockIdx
    .get fun w =>
      if w.jb.finalizing then do
        unlockIdx
        .throw (.text "already finalizing")
      else do
        modifyJb fun j => { j with finalizing := true }
        finalizeMarked w) := rfl

theorem marks_finalizeMarked (w : World) : KeepsShut (finalizeMarked w) := by
  refine .either (marks_unlockIdx.bind fun _ => .throw) ?_
  refine (marks_mutHead.wrapErr.onErr marks_unlockIdx).bind fun h => .either .pure ?_
  exact marks_unlockIdx.bind fun _ => .either marks_finalizeStaged marks_finalizeLocal

theorem marks_finalize : KeepsShut finalize := by
  rw [finalize_eq]
  refine marks_lockIdx.bind fun _ => .get fun w => .either (marks_unlockIdx.bind fun _ => .throw) ?_
  exact .bind (marks_modifyJb fun _ => ⟨fun _ => rfl, id⟩) fun _ => marks_finalizeMarked w

/-- **A `Finalize` that returned has marked the log**, with or without an
error. -/
theorem finalize_settles (w : World) : wp anyFate finalize
    (.settles (fun _ w' => w'.jb.finalizing = true) fun w' => w'.jb.finalizing = true) w := by
  rw [finalize_eq, wp_bind]
  unfold lockIdx
  rw [wp_get]
  split
  · by_cases hfin : w.jb.finalizing = true
    · simp only [wp_modifyJb, wp_get, hfin, if_true]
      exact KeepsShut.settles (marks_unlockIdx.bind fun _ => .throw) rfl
    · simp only [wp_modifyJb, wp_get, hfin]
      exact KeepsShut.settles (marks_finalizeMarked _) rfl
  · trivial

omit X in
/-- A lock that is taken and let go is as it was. -/
theorem setIdxLk_free {w : World} (h : w.jb.idxLk = ⟨false, 0⟩) :
    { w with jb := { w.jb with idxLk := ⟨false, 0⟩ } } = w := by
  rw [← h]

/-- **A `Finalize` is refused**: the error says that one was begun before,
and nothing is done; or the index lock is not free, and it waits. -/
def Refused (w : World) (o : Outcome World Err Unit) : Prop :=
  o = if w.jb.idxLk = ⟨false, 0⟩ then .err (.text "already finalizing") w else .fault .blocked w

/-- **A marked log is not finalized again.** -/
theorem finalize_run_marked {w : World} (hw : w.jb.finalizing = true) (plan : List Fate) :
    Refused w (finalize.run w plan) := by
  unfold Refused
  have hwp : wp anyFate finalize ⟨fun _ _ => False,
      fun e w' => w.jb.idxLk = ⟨false, 0⟩ ∧ e = .text "already finalizing" ∧ w' = w,
      fun _ => False, fun k w' => w.jb.idxLk ≠ ⟨false, 0⟩ ∧ k = .blocked ∧ w' = w⟩ w := by
    rw [finalize_eq, wp_bind]
    unfold lockIdx
    rw [wp_get]
    split
    · rename_i hlk
      simp only [wp_modifyJb, wp_get]
      rw [if_pos hw]
      simp only [wp_bind, unlockIdx, wp_get, wp_modifyJb, wp_throw, if_true]
      exact ⟨hlk, trivial, setIdxLk_free hlk⟩
    · rename_i hlk
      exact ⟨hlk, rfl, rfl⟩
  have hsat := wp_sound hwp (within_anyFate plan)
  cases hrun : finalize.run w plan with
  | ok _ w' =>
    rw [hrun] at hsat
    exact hsat.elim
  | crash w' =>
    rw [hrun] at hsat
    exact hsat.elim
  | err e w' =>
    rw [hrun] at hsat
    obtain ⟨hlk, rfl, rfl⟩ := hsat
    rw [if_pos hlk]
  | fault k w' =>
    rw [hrun] at hsat
    obtain ⟨hlk, rfl, rfl⟩ := hsat
    rw [if_neg hlk]

end CarLog

/-! ## Runs of one process -/

section

variable [X : External]

/-- The operation does not make a log, so it keeps the mark, and opens no
log for writing. -/
theorem Cmd.keepsShut {cmd : Cmd} (h : ¬ cmd.Starts) : KeepsShut cmd.op := by
  cases cmd with
  | create staging => exact absurd trivial h
  | openLog staging tc => exact absurd trivial h
  | put c b => exact CarLog.marks_put
  | commit => exact CarLog.marks_commit.bind fun _ => .pure
  | view c cb => exact CarLog.marks_view
  | markReadOnly => exact CarLog.marks_markReadOnly
  | finalize => exact CarLog.marks_finalize
  | loadData car sz => exact CarLog.marks_loadData
  | finDataReload blkEnts carSz => exact CarLog.marks_finDataReload
  | writeCar => exact CarLog.marks_writeCar.bind fun _ => .pure
  | hashSample => exact CarLog.marks_hashSample.bind fun _ => .pure
  | offload => exact CarLog.marks_offload
  | offloadData => exact CarLog.marks_offloadLocalData
  | close => exact CarLog.marks_close

/-- The log stays open: the event is not the end of its process. -/
def StaysUp (s : Sys) (e : Event) : Prop := (s.next e).isUp = true

/-- **A mark stays for as long as the log is open.** -/
theorem marked_run {s : Sys} (hup : s.isUp = true) (hs : s.world.jb.finalizing = true)
    {es : List Event} (hes : s.Always StaysUp es) :
    (s.run es).world.jb.finalizing = true := by
  refine (Sys.run_invariant (I := fun s => s.isUp = true ∧ s.world.jb.finalizing = true)
    (fun s e hs he => ⟨he, ?_⟩) ⟨hup, hs⟩ hes).2
  obtain ⟨hup, hfin⟩ := hs
  cases e with
  | kill => exact absurd he Bool.false_ne_true
  | reboot keepData keepLevel => exact absurd he Bool.false_ne_true
  | call cmd plan =>
    simp only [Sys.next] at he ⊢
    split_ifs at he ⊢ with hrun
    · have hnot : ¬ cmd.Starts := by
        rcases hrun with ⟨-, hdown⟩ | ⟨hnot, -⟩
        · rw [hup] at hdown
          exact absurd hdown (by decide)
        · exact hnot
      have hstays := (Cmd.keepsShut hnot).keepsMark.run s.world plan hfin
      cases hout : cmd.op.run s.world plan with
      | ok a w =>
        rw [hout] at he hstays
        cases cmd <;> first | exact hstays | exact absurd he Bool.false_ne_true
      | err e w =>
        rw [hout] at hstays
        simp only [Sys.after, if_neg hnot]
        exact hstays
      | crash w =>
        rw [hout] at he
        exact absurd he Bool.false_ne_true
      | fault k w =>
        rw [hout] at he
        exact absurd he Bool.false_ne_true
    · exact hfin

/-- **A `Finalize` that failed is not retried.** Whatever it failed for and
whatever is done to the log afterwards, every later `Finalize` of its
process is refused for the earlier one. -/
theorem finalize_not_retried {s : Sys} (hup : s.isUp = true) {p : List Fate} {e : Err}
    {w : World} (hfail : Cmd.finalize.op.run s.world p = .err e w) {es : List Event}
    (hes : (s.next (.call .finalize p)).Always StaysUp es) (later : List Fate) :
    CarLog.Refused ((s.next (.call .finalize p)).run es).world
      (Cmd.finalize.op.run ((s.next (.call .finalize p)).run es).world later) := by
  have hmarked : w.jb.finalizing = true := by
    have hsat := wp_sound (CarLog.finalize_settles s.world) (within_anyFate p)
    change (Cmd.finalize.op.run s.world p).Sat _ at hsat
    rw [hfail] at hsat
    exact hsat
  have hnext : s.next (.call .finalize p) = s.moved w := by
    have hcall : Cmd.finalize.Starts ∧ s.isUp = false ∨ ¬ Cmd.finalize.Starts ∧ s.isUp = true :=
      Or.inr ⟨id, hup⟩
    simp only [Sys.next, if_pos hcall, hfail, Sys.after]
    exact if_neg id
  rw [hnext] at hes ⊢
  exact CarLog.finalize_run_marked (marked_run (s := s.moved w) hup hmarked hes) later

end

section

open Encoding
open scoped Bsst.Encoding

/-- A log with one committed block. -/
def oneCommitted : List Event :=
  [.call (.create false) [], .call (.put [0x12 :: 0x20 :: sha256 [7]] [[7]]) [], .call .commit []]

/-- A log that is still writable is not finalized, and not later either. -/
theorem finalize_not_retried_early : CarLog.Refused
    ((((Sys.start .empty).run oneCommitted).next (.call .finalize [])).run
      [.call .markReadOnly []]).world
    (Cmd.finalize.op.run ((((Sys.start .empty).run oneCommitted).next (.call .finalize [])).run
      [.call .markReadOnly []]).world []) :=
  finalize_not_retried (s := (Sys.start .empty).run oneCommitted) (p := []) rfl
    (e := .text "cannot finalize read-write jbob") rfl
    (show Sys.Always _ _ [.call .markReadOnly []] from ⟨rfl, trivial⟩) []

/-- The error of a run, if it returned one. -/
def errorOf : Outcome World Err Unit → Option Err
  | .err e _ => some e
  | _ => none

/-- The run returned nil. -/
def returnedNil : Outcome World Err Unit → Bool
  | .ok _ _ => true
  | _ => false

/-- **The cause is gone, and the log is not finalized.** A `Finalize` of a
log that is still writable fails; `MarkReadOnly` is called, and `Finalize`
is refused. Without the first attempt it returns nil. -/
theorem finalize_refused_early :
    errorOf (Cmd.finalize.op.run ((Sys.start .empty).run oneCommitted).world []) =
        some (.text "cannot finalize read-write jbob") ∧
      errorOf (Cmd.finalize.op.run ((Sys.start .empty).run (oneCommitted ++
        [.call .finalize [], .call .markReadOnly []])).world []) =
        some (.text "already finalizing") ∧
      returnedNil (Cmd.finalize.op.run ((Sys.start .empty).run (oneCommitted ++
        [.call .markReadOnly []])).world []) = true := by
  decide +kernel

end

end Carlog

end Ribs
