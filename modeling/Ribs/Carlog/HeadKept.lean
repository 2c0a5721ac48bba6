import Ribs.Carlog.System
import Ribs.Common.Mild
/-!
# Carlog — what the operations do to the head

What is known of the head in the file survives an operation, whatever
fails in it and wherever the process dies, as long as no write of the head
fails on the way. Most functions do not write the head at all, so they
keep all that is known of it; the others change a field or two.
-/

namespace Ribs

open Common

namespace Carlog

/-- No write of the head fails on the way. -/
def Untorn (w w' : World) : Prop := w'.disk.head = some none → w.disk.head = some none

/-- What is known of the head file is still so. -/
def HeadStays (P : Option (Option Head) → Prop) (w w' : World) : Prop :=
  P w.disk.head → P w'.disk.head

/-- **`m` keeps what is known of the head.** -/
def KeepsHead {α : Type} (P : Option (Option Head) → Prop) (m : Op α) : Prop :=
  RespectsMild Untorn (HeadStays P) m

variable {α β : Type} {P : Option (Option Head) → Prop} {m : Op α}

instance : IsPreorder World (HeadStays P) where
  refl _ h := h
  trans _ _ _ h h' := fun hP => h' (h hP)

/-! ## The rules -/

namespace KeepsHead

theorem bind {f : α → Op β} (hm : KeepsHead P m) (hf : ∀ a, KeepsHead P (f a)) :
    KeepsHead P (m >>= f) := RespectsMild.bind hm hf

theorem handle {h : Err → Op α} (hm : KeepsHead P m) (hh : ∀ e, KeepsHead P (h e)) :
    KeepsHead P (m.handle h) := RespectsMild.handle hm hh

theorem andThen {c : Op Unit} (hm : KeepsHead P m) (hc : KeepsHead P c) :
    KeepsHead P (m.andThen c) := RespectsMild.andThen hm hc

theorem get {k : World → Op α} (hk : ∀ w, KeepsHead P (k w)) : KeepsHead P (.get k) :=
  RespectsMild.get hk

theorem ret {a : α} : KeepsHead P (.ret a : Op α) := Respects.ret.mild

theorem pure {a : α} : KeepsHead P (Pure.pure a : Op α) := Respects.pure.mild

theorem throw {e : Err} : KeepsHead P (.throw e : Op α) := Respects.throw.mild

theorem fault {k : Fault} : KeepsHead P (.fault k : Op α) := Respects.fault.mild

theorem ite {c : Prop} [Decidable c] {m' : Op α} (hm : KeepsHead P m) (hm' : KeepsHead P m') :
    KeepsHead P (if c then m else m') := RespectsMild.ite (fun _ => hm) fun _ => hm'

theorem wrapErr {s : String} (hm : KeepsHead P m) : KeepsHead P (wrapErr s m) :=
  hm.handle fun _ => throw

theorem attempt (hm : KeepsHead P m) : KeepsHead P (attempt m) :=
  handle (RespectsMild.bind (f := fun a => (.ret (.ok a) : Op (Except Err α))) hm fun _ => ret)
    fun _ => ret

theorem runIf {c : Prop} [Decidable c] {m : Op Unit} (hm : KeepsHead P m) :
    KeepsHead P (runIf c m) := ite hm ret

theorem failIf {c : Prop} [Decidable c] {e : Err} : KeepsHead P (failIf c e) := ite throw ret

theorem onErr {c : Op Unit} (hm : KeepsHead P m) (hc : KeepsHead P c) : KeepsHead P (onErr m c) :=
  hm.handle fun e => RespectsMild.bind (f := fun _ => (.throw e : Op α)) hc fun _ => throw

theorem foldlM {l : List β} {f : α → β → Op α} (hf : ∀ a b, KeepsHead P (f a b)) (a : α) :
    KeepsHead P (l.foldlM f a) := by
  induction l generalizing a with
  | nil => exact pure
  | cons b l ih =>
    rw [List.foldlM_cons]
    exact (hf a b).bind ih

theorem forM {l : List β} {f : β → Op Unit} (hf : ∀ b, KeepsHead P (f b)) :
    KeepsHead P (l.forM f) := by
  induction l with
  | nil => exact pure
  | cons b l ih => exact (hf b).bind fun _ => ih

/-- A step that does not touch the head. -/
theorem io {act : World → World} {part : ℕ → World → World} {k : Bool → Op α}
    (hact : ∀ w, (act w).disk.head = w.disk.head)
    (hpart : ∀ n w, (part n w).disk.head = w.disk.head) (hk : ∀ b, KeepsHead P (k b)) :
    KeepsHead P (.io act part k) := fun w => by
  refine ⟨(hk true).wp_of ?_, fun n _ => (hk false).wp_of ?_, id⟩
  · unfold HeadStays
    rw [hact]
    exact id
  · unfold HeadStays
    rw [hpart]
    exact id

theorem step {e : Err} {act : World → World} (hact : ∀ w, (act w).disk.head = w.disk.head) :
    KeepsHead P (.step e act : Op Unit) := io hact (fun _ _ => rfl) fun _ => ite ret throw

theorem put {f : World → World} {k : World → Op α} (hf : ∀ w, (f w).disk.head = w.disk.head)
    (hk : ∀ w, KeepsHead P (k w)) : KeepsHead P (.get fun w => .put (f w) (k w)) := fun w => by
  refine (hk w).wp_of ?_
  unfold HeadStays
  rw [hf]
  exact id

theorem modify {f : World → World} (hf : ∀ w, (f w).disk.head = w.disk.head) :
    KeepsHead P (.modify f : Op Unit) := put hf fun _ => ret

theorem modifyJb {f : CarLog → CarLog} : KeepsHead P (modifyJb f) := modify fun _ => rfl

theorem ioRead : KeepsHead P ioRead := step fun _ => rfl

theorem ioWrite {f : Disk → Disk} (hf : ∀ d, (f d).head = d.head) : KeepsHead P (ioWrite f) :=
  step fun w => hf w.disk

theorem deref {o : Option α} : KeepsHead P (deref o) := by
  cases o with
  | none => exact fault
  | some a => exact ret

end KeepsHead

/-! ## Functions that do not write the head -/

namespace CarLog

theorem keeps_openData : KeepsHead P openData := .get fun w => by
  cases w.jb.data with
  | none => exact .throw
  | some f => exact KeepsHead.ite (c := f.isOpen = true) .ret .throw

theorem head_appendFile {p : Bytes} {w : World} : (appendFile p w).disk.head = w.disk.head := by
  unfold appendFile
  cases w.jb.data <;> rfl

theorem keeps_writeOut {p : Bytes} {keep : ℕ → Bytes} : KeepsHead P (writeOut p keep) := by
  intro w
  change wpMild Untorn (ite _ _ _) _ w
  split
  · exact KeepsHead.io (k := fun ok => if ok then .ret () else .throw .io)
      (fun _ => head_appendFile) (fun _ _ => head_appendFile) (fun _ => .ite .ret .throw) w
  · exact id

theorem keeps_flush : KeepsHead P flush := .get fun w => by
  rcases w.jb.dataBuffered with _ | ⟨buf, _ | e⟩
  · exact .fault
  · exact .ite .ret keeps_writeOut
  · exact .throw

theorem keeps_bufWrite {p : Bytes} : KeepsHead P (bufWrite p) := .get fun w => by
  rcases w.jb.dataBuffered with _ | ⟨buf, _ | e⟩
  · exact .fault
  · refine .ite (.modify fun _ => rfl) (.ite keeps_writeOut ?_)
    exact .bind (.modify fun _ => rfl) fun _ => keeps_flush.bind fun _ =>
      .ite (.modify fun _ => rfl) keeps_writeOut
  · exact .throw

theorem keeps_dataReadAt {off n : ℕ} : KeepsHead P (dataReadAt off n) :=
  keeps_openData.bind fun _ => KeepsHead.ioRead.bind fun _ => .get fun _ => .ite .ret .throw

theorem keeps_dataWriteAt {p : Bytes} {off : ℕ} : KeepsHead P (dataWriteAt p off) :=
  keeps_openData.bind fun _ => .io (fun _ => rfl) (fun _ _ => rfl) fun _ => .ite .ret .throw

theorem keeps_dataTruncate {n : ℕ} : KeepsHead P (dataTruncate n) :=
  keeps_openData.bind fun _ => .ioWrite fun _ => rfl

theorem keeps_dataSync : KeepsHead P dataSync := keeps_openData.bind fun _ => .ioWrite fun _ => rfl

theorem keeps_dataClose : KeepsHead P dataClose := keeps_openData.bind fun _ => .step fun _ => rfl

theorem keeps_readHead : KeepsHead P readHead := .get fun w => by
  rcases w.jb.head with _ | _ | _
  · exact .throw
  · exact .throw
  · refine KeepsHead.ioRead.bind fun _ => ?_
    rcases w.disk.head with _ | _ | h
    · exact .throw
    · exact .throw
    · exact .ret

theorem keeps_headClose : KeepsHead P headClose := .get fun w => by
  rcases w.jb.head with _ | _ | _
  · exact .throw
  · exact .throw
  · exact .step fun _ => rfl

theorem keeps_lockIdx : KeepsHead P lockIdx := .get fun _ => .ite .modifyJb .fault

theorem keeps_unlockIdx : KeepsHead P unlockIdx := .get fun _ => .ite .modifyJb .fault

theorem keeps_rLockIdx : KeepsHead P rLockIdx := .get fun _ => .ite .fault .modifyJb

theorem keeps_rUnlockIdx : KeepsHead P rUnlockIdx := .get fun _ => .ite .fault .modifyJb

theorem keeps_lockReadState : KeepsHead P lockReadState := .get fun _ => .ite .fault .modifyJb

theorem keeps_unlockReadState : KeepsHead P unlockReadState := .get fun _ => .ite .modifyJb .fault

theorem keeps_waitPendingReads : KeepsHead P waitPendingReads := .get fun _ => .ite .ret .fault

theorem keeps_createLevel {get : Disk → Option (Journal Index)}
    {set : Option (Journal Index) → Disk → Disk} (hset : ∀ o d, (set o d).head = d.head) :
    KeepsHead P (createLevel get set) :=
  KeepsHead.ioRead.bind fun _ => .get fun _ =>
    .ite .throw (.bind (.ioWrite fun _ => hset _ _) fun _ => .pure)

theorem keeps_openLevel : KeepsHead P openLevel :=
  KeepsHead.ioRead.bind fun _ => .get fun _ => .ite .ret .throw

theorem keeps_contents : KeepsHead P LevelDBIndex.contents :=
  KeepsHead.ioRead.bind fun _ => .get fun w => by
    cases w.disk.levelIndex with
    | none => exact .throw
    | some j => exact .ret

theorem keeps_result {r : Except Bsst.LookupError α} : KeepsHead P (BSSTIndex.result r) := by
  rcases r with (_ | _ | _) | x
  · exact .throw
  · exact .fault
  · exact .fault
  · exact .ret

theorem keeps_drawSalt : KeepsHead P drawSalt := .put (fun _ => rfl) fun _ => .ret

theorem keeps_closeIndex {idx : ReadableIndex} : KeepsHead P idx.close := by
  cases idx with
  | level idx => exact .ioRead
  | bsst b => exact .ioRead

theorem keeps_readableIndex : KeepsHead P readableIndex := .get fun _ => .deref

theorem keeps_ldWrite {d : List Bytes} : KeepsHead P (ldWrite d) :=
  keeps_bufWrite.bind fun _ => (KeepsHead.forM fun _ => keeps_bufWrite).bind fun _ => .pure

theorem keeps_flushBuffered : KeepsHead P flushBuffered :=
  .get fun _ => KeepsHead.deref.bind fun _ => .ite .ret keeps_flush

theorem keeps_entries {idx : ReadableIndex} : KeepsHead P idx.entries := by
  cases idx with
  | level idx => exact keeps_contents.bind fun _ => .pure
  | bsst b => exact .fault

theorem keeps_list {idx : ReadableIndex} : KeepsHead P idx.list := by
  cases idx with
  | level idx => exact keeps_contents.bind fun _ => .pure
  | bsst b => exact .fault

theorem keeps_putBlock {m : Multihash} {blk : Bytes} : KeepsHead P (putBlock m blk) :=
  .get fun _ => keeps_ldWrite.wrapErr.bind fun _ => .get fun _ => KeepsHead.deref.bind fun _ =>
    KeepsHead.modifyJb.bind fun _ => .pure

theorem keeps_putBlocks (l : List (Multihash × Bytes × Bool)) : KeepsHead P (putBlocks l) := by
  induction l with
  | nil => exact .ret
  | cons x l ih =>
    obtain ⟨m, blk, has⟩ := x
    exact .ite (ih.bind fun _ => .pure) (KeepsHead.failIf.bind fun _ => keeps_putBlock.bind fun _ =>
      ih.bind fun _ => .pure)

theorem keeps_checkResume {j : CarLog} : KeepsHead P (checkResume j) :=
  .runIf <| KeepsHead.failIf.bind fun _ => KeepsHead.failIf.bind fun _ =>
    KeepsHead.deref.bind fun _ => .failIf

theorem keeps_writeOutput {p : Bytes} : KeepsHead P (writeOutput p) :=
  .io (fun _ => rfl) (fun _ _ => rfl) fun _ => .ite .ret .throw

theorem keeps_writeBlock {s : CarWriter} {c : Cid} {data : Bytes} :
    KeepsHead P (writeBlock s c data) := keeps_writeOutput.bind fun _ => .pure

theorem keeps_saveMHList {l : List Multihash} : KeepsHead P (saveMHList l) :=
  .bind (.ioWrite fun _ => rfl) fun _ => .ioWrite fun _ => rfl

theorem keeps_dropLevel : KeepsHead P dropLevel :=
  .get fun _ => KeepsHead.failIf.bind fun _ => .wrapErr (.ioWrite fun _ => rfl)

theorem keeps_swapIndex {set : CarLog → CarLog} : KeepsHead P (swapIndex set) := by
  refine keeps_readableIndex.bind fun _ => keeps_closeIndex.attempt.bind fun r =>
    KeepsHead.modifyJb.bind fun _ => ?_
  rcases r with e | _ <;> dsimp only
  · exact .throw
  · exact keeps_dropLevel.wrapErr

theorem keeps_copyFilCar {car : Bytes} : KeepsHead P (copyFilCar car) :=
  .io (fun _ => rfl) (fun _ _ => rfl) fun _ => .ite .ret .throw

theorem keeps_dropFilCar : KeepsHead P dropFilCar :=
  .handle (.ioWrite fun _ => rfl) fun _ => .ret

theorem keeps_copyCar {car : Bytes} {n : ℕ} : KeepsHead P (copyCar car n) :=
  KeepsHead.ioRead.bind fun _ => keeps_writeOutput

theorem keeps_loadDataLocked {car : Bytes} {sz : ℕ} : KeepsHead P (loadDataLocked car sz) := by
  refine .get fun _ => KeepsHead.failIf.bind fun _ => KeepsHead.failIf.bind fun _ =>
    .bind (.wrapErr (.ioWrite fun _ => rfl)) fun _ => keeps_copyFilCar.attempt.bind fun n =>
    KeepsHead.ioRead.attempt.bind fun cerr => ?_
  rcases n with e | n <;> dsimp only
  · exact keeps_dropFilCar.bind fun _ => .throw
  refine .ite (keeps_dropFilCar.bind fun _ => .throw) ?_
  rcases cerr with e | _ <;> dsimp only
  · exact .throw
  · exact .ret

theorem keeps_openHead : KeepsHead P openHead := by
  refine KeepsHead.ioRead.wrapErr.bind fun _ => .get fun w => ?_
  rcases w.disk.head with _ | _ | h <;> dsimp only
  · exact .throw
  · exact .throw
  · exact KeepsHead.ioRead.wrapErr.bind fun _ => .pure

theorem keeps_openFilCar : KeepsHead P openFilCar := by
  refine KeepsHead.ioRead.bind fun _ => .get fun w => ?_
  rcases w.disk.filCar with _ | car <;> dsimp only
  · exact .throw
  · exact .ret

theorem keeps_offloadData : KeepsHead P offloadData :=
  .get fun _ => (KeepsHead.runIf keeps_dataClose.wrapErr).bind fun _ =>
    KeepsHead.modifyJb.bind fun _ => .wrapErr (.ioWrite fun _ => rfl)

theorem keeps_captureOutput {m : Op α} (hm : KeepsHead P m) : KeepsHead P (captureOutput m) :=
  .bind (.modify fun _ => rfl) fun _ => hm.attempt.bind fun _ => .get fun _ => .ret

theorem keeps_upload {size : ℕ} {src : Op Unit} (hsrc : KeepsHead P src) :
    KeepsHead P (upload size src) := by
  refine (keeps_captureOutput hsrc).bind fun x => ?_
  obtain ⟨stream, _ | _⟩ := x <;> dsimp only
  · exact .throw
  · exact .step fun _ => rfl

theorem keeps_putFixed {ents : List LogEntry} : KeepsHead P (putFixed ents) :=
  .wrapErr (.ioWrite fun _ => rfl)

theorem keeps_seekEnd : KeepsHead P seekEnd :=
  KeepsHead.ioRead.wrapErr.bind fun _ => .modifyJb

/-! ## Writing the head -/

/-- The head is as it was, or it is what `change` makes of it. -/
def Changed (change : Head → Except Err Head) (w w' : World) : Prop :=
  w'.disk.head = w.disk.head ∨ ∃ h h', w.disk.head = some (some h) ∧ change h = .ok h' ∧
    w'.disk.head = some (some h')

theorem wpMild_readHead {w : World} : wpMild Untorn readHead
    ⟨fun h w' => w' = w ∧ w.disk.head = some (some h), fun _ w' => w' = w, fun w' => w' = w,
      fun _ _ => False⟩ w := by
  unfold readHead
  rw [wpMild]
  rcases w.jb.head with _ | _ | _
  · rfl
  · rfl
  · refine ⟨?_, fun _ _ => rfl, rfl⟩
    rcases w.disk.head with _ | _ | h
    · rfl
    · rfl
    · exact ⟨rfl, rfl⟩

/-- A head is written whole, or not at all. -/
theorem wpMild_writeHead {w : World} {h : Head} (hhead : w.disk.head ≠ some none) :
    wpMild Untorn (writeHead h)
      ⟨fun _ w' => w'.disk.head = some (some h), fun _ w' => w' = w, fun w' => w' = w,
        fun _ _ => False⟩ w := by
  refine ⟨rfl, fun n hn => ?_, rfl⟩
  change modifyDisk (fun d => if n = 0 then d else { d with head := some none }) w = w
  by_cases hzero : n = 0
  · simp only [if_pos hzero]
    rfl
  · refine absurd (hn ?_) hhead
    simp only [if_neg hzero]
    rfl

/-- **`mutHead`** reads the head and writes what `change` makes of it. -/
theorem wpMild_mutHead {change : Head → Except Err Head} {w : World} :
    wpMild Untorn (mutHead change)
      ⟨fun h w' => ∃ h', w.disk.head = some (some h) ∧ change h = .ok h' ∧
          w'.disk.head = some (some h'),
        fun _ => Changed change w, Changed change w, fun _ _ => False⟩ w := by
  have hsame : Changed change w w := Or.inl rfl
  unfold mutHead
  rw [wpMild_bind]
  unfold wrapErr
  rw [wpMild_handle]
  refine wpMild_mono wpMild_readHead ?_ (fun _ _ h => h ▸ hsame) (fun _ h => h ▸ hsame)
    fun _ _ => False.elim
  rintro h u ⟨rfl, hhead⟩
  change wpMild Untorn (failIf (h.valid = false) _ >>= _) _ _
  unfold failIf
  split
  · exact hsame
  cases hchange : change h with
  | error e => exact hsame
  | ok h' =>
    rw [wpMild_bind]
    change wpMild Untorn ((writeHead h').handle _ >>= _) _ _
    rw [wpMild_bind, wpMild_handle]
    refine wpMild_mono (wpMild_writeHead (by rw [hhead]; nofun)) ?_ (fun _ _ h => h ▸ hsame)
      (fun _ h => h ▸ hsame) fun _ _ => False.elim
    intro _ w' hw'
    have hchanged : Changed change u w' := Or.inr ⟨h, h', hhead, hchange, hw'⟩
    exact ⟨⟨h', hhead, hchange, hw'⟩, fun _ _ => hchanged, hchanged⟩

theorem Changed.stays {change : Head → Except Err Head} {w w' : World}
    (h : Changed change w w')
    (hP : ∀ h h', change h = .ok h' → P (some (some h)) → P (some (some h'))) :
    HeadStays P w w' := by
  rcases h with hsame | ⟨h, h', hhead, hchange, hw'⟩
  · unfold HeadStays
    rw [hsame]
    exact id
  · unfold HeadStays
    rw [hhead, hw']
    exact hP h h' hchange

theorem keeps_mutHead {change : Head → Except Err Head}
    (hP : ∀ h h', change h = .ok h' → P (some (some h)) → P (some (some h'))) :
    KeepsHead P (mutHead change) := fun _ =>
  wpMild_mono wpMild_mutHead
    (fun h _ ⟨h', hhead, hchange, hw'⟩ => Changed.stays (Or.inr ⟨h, h', hhead, hchange, hw'⟩) hP)
    (fun _ _ h => h.stays hP) (fun _ h => h.stays hP) fun _ _ => False.elim

section

variable [X : External]

theorem keeps_openBSST {path : BsstPath} : KeepsHead P (openBSST path) :=
  KeepsHead.ioRead.wrapErr.bind fun _ => .get fun w => by
    cases path.get w.disk with
    | none => exact .throw
    | some f =>
      dsimp only
      cases Bsst.openFile f with
      | none => exact .throw
      | some b => exact .ret

theorem keeps_createBSST {path : BsstPath} {entries : Op ℕ} {list : Op (Bsst.Source × β)}
    (hentries : KeepsHead P entries) (hlist : KeepsHead P list) :
    KeepsHead P (createBSST path entries list) := by
  have hset : ∀ x d, (path.set x d).head = d.head := fun x d => by cases path <;> rfl
  refine hentries.wrapErr.bind fun ents => .wrapErr (.bind (.wrapErr (.ioWrite (hset _))) fun _ =>
    keeps_drawSalt.bind fun salt => .bind (.wrapErr (.ioWrite (hset _))) fun _ =>
    KeepsHead.ioRead.wrapErr.bind fun _ => hlist.wrapErr.bind fun l => ?_)
  obtain ⟨source, extra⟩ := l
  dsimp only
  cases Bsst.buckets salt ents source with
  | error e => exact .fault
  | ok r =>
    exact .bind (.wrapErr (.ioWrite (hset _))) fun _ => KeepsHead.ioRead.wrapErr.bind fun _ =>
      .bind (.wrapErr (.ioWrite (hset _))) fun _ => KeepsHead.ioRead.wrapErr.bind fun _ =>
      KeepsHead.ioRead.wrapErr.bind fun _ => keeps_openBSST.wrapErr.bind fun _ => .pure

theorem keeps_has {idx : ReadableIndex} {c : List Multihash} : KeepsHead P (idx.has c) := by
  cases idx with
  | level idx => exact keeps_contents.bind fun _ => .pure
  | bsst b => exact KeepsHead.ioRead.bind fun _ => keeps_result

theorem keeps_putLocked {c : List Multihash} {b : List Bytes} : KeepsHead P (putLocked c b) :=
  .get fun _ => KeepsHead.failIf.bind fun _ => KeepsHead.failIf.bind fun _ =>
    keeps_readableIndex.bind fun _ => keeps_has.bind fun _ => (keeps_putBlocks _).bind fun _ =>
    .wrapErr (.ioWrite fun _ => rfl)

theorem keeps_iterate {dataEnd : ℕ} {cb : β → LogEntry → Op β} {b : β}
    (h : ∀ b e, KeepsHead P (cb b e)) : KeepsHead P (iterate dataEnd cb b) := by
  refine .get fun w => .ite .ret (keeps_openData.bind fun _ => (KeepsHead.foldlM (fun _ _ =>
    KeepsHead.ioRead.bind fun _ => h _ _) _).bind fun _ => KeepsHead.ioRead.bind fun _ => ?_)
  split
  · exact .ret
  · exact .throw

theorem keeps_writeLinkBlock {next links : List Cid} : KeepsHead P (writeLinkBlock next links) :=
  keeps_ldWrite.wrapErr.bind fun _ => KeepsHead.modifyJb.bind fun _ => .pure

theorem keeps_collectLink {links : List Cid × List Cid} {e : LogEntry} :
    KeepsHead P (collectLink links e) :=
  .ite (keeps_writeLinkBlock.wrapErr.bind fun _ => .pure) .ret

theorem keeps_finishLayer {links : List Cid × List Cid} : KeepsHead P (finishLayer links) :=
  .ite .ret keeps_writeLinkBlock.wrapErr

theorem keeps_genLayers (fuel : ℕ) (next : List Cid) (offs : List ℕ) :
    KeepsHead P (genLayers fuel next offs) := by
  induction fuel generalizing next offs with
  | zero => exact .ret
  | succ fuel ih =>
    exact .get fun _ => .ite ((KeepsHead.foldlM (fun _ _ => keeps_writeLinkBlock.wrapErr) _).bind
      fun _ => ih _ _) .ret

theorem keeps_updateHeader {root : Cid} : KeepsHead P (updateHeader root) := by
  refine keeps_dataReadAt.wrapErr.bind fun buf => ?_
  rcases readUvarint buf with e | ⟨hlen, rest⟩ <;> dsimp only
  · exact .throw
  refine .ite .fault ?_
  rcases X.decodeHeader (rest.take hlen) with _ | ⟨version, roots⟩ <;> dsimp only
  · exact .throw
  · exact KeepsHead.failIf.bind fun _ => KeepsHead.failIf.bind fun _ =>
      KeepsHead.failIf.bind fun _ => keeps_dataWriteAt.wrapErr.bind fun _ =>
      keeps_dataSync.wrapErr.bind fun _ => .pure

theorem keeps_readNode {off : ℕ} : KeepsHead P (readNode off) := by
  refine keeps_openData.bind fun _ => KeepsHead.ioRead.bind fun _ => .get fun w => ?_
  rcases readFrame maxAllowedSectionSize ((blockLog w).drop off) with
    (_ | _ | _ | _) | ⟨d, rest⟩ <;> dsimp only
  · exact .throw
  · exact .throw
  · exact .throw
  · exact .throw
  rcases X.cidFromBytes d with _ | ⟨n, c⟩ <;> dsimp only
  · exact .throw
  · exact .ret

theorem keeps_nodeLinks {c : Cid} {data : Bytes} : KeepsHead P (nodeLinks c data) := by
  refine .ite .ret ?_
  rcases X.decodeLinks data with _ | links <;> dsimp only
  · exact .throw
  · exact .ret

theorem keeps_writeNode (atLayer : ℕ) (s : CarWriter) (c : Cid) (data : Bytes) :
    KeepsHead P (writeNode atLayer s c data) := by
  induction atLayer generalizing s c data with
  | zero =>
    exact keeps_writeBlock.wrapErr.bind fun _ => keeps_nodeLinks.bind fun _ => .ite .pure .fault
  | succ atLayer ih =>
    refine keeps_writeBlock.wrapErr.bind fun _ => keeps_nodeLinks.bind fun _ =>
      .foldlM (fun s ci => ?_) _
    exact KeepsHead.deref.bind fun _ => keeps_readNode.wrapErr.bind fun _ =>
      KeepsHead.failIf.bind fun _ => ih _ _ _

theorem keeps_writeCar : KeepsHead P writeCar :=
  keeps_lockReadState.bind fun _ => .get fun _ =>
    .ite (keeps_unlockReadState.bind fun _ => .throw) <|
      keeps_unlockReadState.bind fun _ => keeps_readNode.wrapErr.bind fun _ =>
      keeps_writeOutput.wrapErr.bind fun _ => (keeps_writeNode _ _ _ _).wrapErr.bind fun _ => .pure

theorem keeps_listCar {src : Op Unit} (hsrc : KeepsHead P src) : KeepsHead P (listCar src) := by
  refine (keeps_captureOutput hsrc).bind fun x => ?_
  obtain ⟨stream, r⟩ := x
  dsimp only
  rcases listStream stream r with _ | x <;> dsimp only
  · exact .throw
  · exact .ret

theorem keeps_writeCarTo : KeepsHead P writeCarTo := keeps_writeCar.bind fun _ => .pure

theorem keeps_fixLevelIndex {retiredAt : ℕ} : KeepsHead P (fixLevelIndex retiredAt) := by
  refine .bind (.wrapErr (keeps_iterate fun _ _ => .ite ?_ .ret)) fun _ => .runIf keeps_putFixed
  exact keeps_putFixed.bind fun _ => .pure

theorem keeps_fixLevel {retiredAt : ℕ} : KeepsHead P (fixLevel retiredAt) :=
  .bind (.wrapErr (keeps_createLevel fun _ _ => rfl)) fun _ => keeps_fixLevelIndex.wrapErr.bind
    fun _ => KeepsHead.ioRead.wrapErr.bind fun _ => .bind (.wrapErr (.ioWrite fun _ => rfl)) fun _ =>
    .bind (.wrapErr (.ioWrite fun _ => rfl)) fun _ => keeps_openLevel.wrapErr

theorem keeps_openIndex {h : Head} : KeepsHead P (openIndex h) :=
  .get fun _ => .ite
    (keeps_openBSST.wrapErr.bind fun _ => KeepsHead.failIf.bind fun _ => .modifyJb) <|
    .ite (keeps_openBSST.wrapErr.bind fun _ => .modifyJb) <|
    .bind (.handle keeps_openLevel fun _ => .ite keeps_fixLevel .throw) fun _ => .modifyJb

end

end CarLog

/-! ## What a result comes with -/

/-- **A result of `m` comes with `R`.** -/
def Gives {α : Type} (R : α → World → Prop) (m : Op α) : Prop :=
  ∀ w, wpMild Untorn m (.returns R) w

/-- A result comes with what is said of the head. -/
abbrev GivesHead {α : Type} (P : Option (Option Head) → Prop) (m : Op α) : Prop :=
  Gives (fun _ w => P w.disk.head) m

namespace Gives

variable {R : α → World → Prop} {U : β → World → Prop}

theorem throw {e : Err} : Gives R (.throw e : Op α) := fun _ => trivial

theorem fault {k : Fault} : Gives R (.fault k : Op α) := fun _ => trivial

theorem get {k : World → Op α} (hk : ∀ w, Gives R (k w)) : Gives R (.get k) := fun w => hk w w

theorem ite {c : Prop} [Decidable c] {m' : Op α} (hm : c → Gives R m) (hm' : ¬ c → Gives R m') :
    Gives R (if c then m else m') := by
  split
  · exact hm ‹_›
  · exact hm' ‹_›

theorem bind {S : α → Prop} {f : α → Op β} (hm : Gives (fun a _ => S a) m)
    (hf : ∀ a, S a → Gives U (f a)) : Gives U (m >>= f) := fun w => by
  rw [wpMild_bind]
  exact wpMild_mono (hm w) (fun a t ha => hf a ha t) (fun _ _ => id) (fun _ => id) fun _ _ => id

/-- Nothing need be known of what comes first. -/
theorem after {f : α → Op β} (hf : ∀ a, Gives U (f a)) : Gives U (m >>= f) :=
  bind (S := fun _ => True) (fun _ => wpMild_of_wp (wp_returns_mono
    (wp_mono wp_trivial (fun _ _ _ => trivial) (fun _ _ => id) (fun _ => id) fun _ _ => id)
    fun _ _ => id)) fun a _ => hf a

theorem wrapErr {s : String} (hm : Gives R m) : Gives R (wrapErr s m) := fun w => by
  unfold Carlog.wrapErr
  rw [wpMild_handle]
  exact wpMild_mono (hm w) (fun _ _ => id) (fun _ _ _ => trivial) (fun _ => id) fun _ _ => id

/-- What comes next keeps it. -/
theorem keep {f : α → Op β} (hm : GivesHead P m) (hf : ∀ a, KeepsHead P (f a)) :
    GivesHead P (m >>= f) := fun w => by
  rw [wpMild_bind]
  refine wpMild_mono (hm w) (fun a t ht => ?_) (fun _ _ => id) (fun _ => id) fun _ _ => id
  exact wpMild_mono (hf a t) (fun _ _ h => h ht) (fun _ _ _ => trivial) (fun _ _ => trivial)
    fun _ _ _ => trivial

theorem andThen {c : Op Unit} (hm : GivesHead P m) (hc : KeepsHead P c) :
    GivesHead P (m.andThen c) := fun w => by
  rw [wpMild_andThen]
  refine wpMild_mono (hm w) (fun a t ht => ?_) (fun _ t _ => ?_) (fun _ => id) fun _ _ => id
  · exact wpMild_mono (hc t) (fun _ _ h => h ht) (fun _ _ _ => trivial) (fun _ _ => trivial)
      fun _ _ _ => trivial
  · exact wpMild_mono (hc t) (fun _ _ _ => trivial) (fun _ _ _ => trivial) (fun _ _ => trivial)
      fun _ _ _ => trivial

theorem attempt (hm : Gives R m) : Gives (fun r w => ∀ a, r = .ok a → R a w) (attempt m) := by
  intro w
  unfold Carlog.attempt
  rw [wpMild_handle]
  change wpMild Untorn (m >>= fun a => (.ret (.ok a) : Op (Except Err α))) _ w
  rw [wpMild_bind]
  refine wpMild_mono (hm w) (fun a t ht b hb => ?_) (fun e t _ b hb => ?_) (fun _ => id)
    fun _ _ => id
  · rw [← Except.ok.inj hb]
    exact ht
  · cases hb

/-- A lock is handled between a result and its use. -/
theorem release {c : Op Unit} {k : Except Err α → Op Unit}
    (hm : GivesHead P m) (hc : KeepsHead P c) (herr : ∀ e, GivesHead P (k (.error e)))
    (hok : ∀ a, KeepsHead P (k (.ok a))) :
    GivesHead P (Carlog.attempt m >>= fun r => c >>= fun _ => k r) := fun w => by
  rw [wpMild_bind]
  refine wpMild_mono (hm.attempt w) (fun r t ht => ?_) (fun _ _ => id) (fun _ => id) fun _ _ => id
  change wpMild Untorn (c >>= fun _ => k r) _ t
  rw [wpMild_bind]
  refine wpMild_mono (hc t) (fun _ u hu => ?_) (fun _ _ _ => trivial) (fun _ _ => trivial)
    fun _ _ _ => trivial
  cases r with
  | error e => exact herr e u
  | ok a =>
    exact wpMild_mono (hok a u) (fun _ _ h => h (hu (ht a rfl))) (fun _ _ _ => trivial)
      (fun _ _ => trivial) fun _ _ _ => trivial

end Gives

/-- What is known of a result may be used behind it. -/
theorem KeepsHead.bind_of {S : α → Prop} {f : α → Op β} (hm : KeepsHead P m)
    (hS : Gives (fun a _ => S a) m) (hf : ∀ a, S a → KeepsHead P (f a)) : KeepsHead P (m >>= f) :=
  fun w => by
    rw [wpMild_bind]
    exact wpMild_mono (wpMild_and (hm w) (hS w)) (fun a t h => (hf a h.2).wp_of h.1)
      (fun _ _ h => h.1) (fun _ h => h.1) fun _ _ h => h.1

end Carlog

end Ribs
