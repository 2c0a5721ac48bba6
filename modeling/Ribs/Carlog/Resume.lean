import Ribs.Carlog.Recover
import Ribs.Carlog.Marked
/-!
# Carlog — opening behind an interrupted top tree

`genTopCar` writes to the head where the bottom layer ends before it
writes behind it, so that `Open` can cut an unfinished tree off. `Open`
cuts the file and the head, but what it keeps in memory was read before:
the end of the bottom layer and the length of the uncut file stay there,
and it depends on that length whether the tree can be generated again.
-/

namespace Ribs

open Common

namespace Carlog

variable {α β : Type} {m : Op α} {w w' : World} {R : ℕ}

/-! ## What lies in the data file stays -/

/-- Whatever a crash leaves of the data file is at least this long. -/
def LogLong (n : ℕ) (w : World) : Prop :=
  ∃ j, w.disk.blockLog = some j ∧ j.All fun bs => n ≤ bs.length

/-- The head file is as it was, and the data file not shorter. -/
def Grown (w w' : World) : Prop :=
  w'.disk.head = w.disk.head ∧ ∀ n, LogLong n w → LogLong n w'

instance : IsPreorder World Grown where
  refl _ := ⟨rfl, fun _ => id⟩
  trans _ _ _ h h' := ⟨h'.1.trans h.1, fun n hn => h'.2 n (h.2 n hn)⟩

/-- **`m` leaves the head alone, and cuts nothing off the data file.** -/
abbrev Grows {α : Type} (m : Op α) : Prop := Respects Grown m

/-- Only memory changed. -/
theorem Grown.of_disk (h : w'.disk.head = w.disk.head ∧ w'.disk.blockLog = w.disk.blockLog) :
    Grown w w' :=
  ⟨h.1, fun _ ⟨j, hj, hall⟩ => ⟨j, h.2.trans hj, hall⟩⟩

namespace CarLog

theorem length_overwrite (bs : Bytes) (off : ℕ) (p : Bytes) :
    bs.length ≤ (overwrite bs off p).length := by
  simp only [overwrite, List.length_append, List.length_take, List.length_replicate,
    List.length_drop]
  omega

/-- A write to the data file that does not shorten it. -/
theorem grown_writeBlockLog {osync : Bool} {f : Bytes → Bytes}
    (hf : ∀ bs, bs.length ≤ (f bs).length) (w : World) :
    Grown w (modifyDisk (writeBlockLog osync f) w) := by
  refine ⟨rfl, fun n ⟨j, hj, hall⟩ => ?_⟩
  have hwrite : (j.write (f j.current)).All fun bs => n ≤ bs.length :=
    hall.write (le_trans hall.current (hf _))
  refine ⟨if osync then (j.write (f j.current)).sync else j.write (f j.current), ?_, ?_⟩
  · simp only [modifyDisk, writeBlockLog, hj]
    rfl
  · cases osync
    · exact hwrite
    · exact hwrite.sync

theorem grown_appendFile (p : Bytes) (w : World) : Grown w (appendFile p w) := by
  unfold appendFile
  cases hdata : w.jb.data with
  | none => exact refl w
  | some f => exact grown_writeBlockLog (fun bs => length_overwrite bs f.off p) w

theorem grows_modifyJb {f : CarLog → CarLog} : Grows (modifyJb f) :=
  .modify fun _ => .of_disk ⟨rfl, rfl⟩

theorem grows_openData : Grows openData := .get fun w => by
  cases w.jb.data with
  | none => exact .throw
  | some f => exact .either (c := f.isOpen = true) .ret .throw

theorem grows_writeOut {p : Bytes} {keep : ℕ → Bytes} : Grows (writeOut p keep) := by
  have hio : Grows (.io (fun w => setBuffered ⟨[], none⟩ (appendFile p w))
      (fun n w => setBuffered ⟨keep n, some .io⟩ (appendFile (p.take n) w))
      fun ok => if ok then .ret () else .throw .io : Op Unit) :=
    .io (fun w => grown_appendFile p w) (fun n w => grown_appendFile _ w)
      fun _ => .either .ret .throw
  intro w
  change wp anyFate (ite _ _ _) _ w
  split
  · exact hio w
  · exact Grown.of_disk ⟨rfl, rfl⟩

theorem grows_setBuffered {b : BufWriter} : Grows (.modify (setBuffered b)) :=
  .modify fun _ => .of_disk ⟨rfl, rfl⟩

theorem grows_flush : Grows flush := .get fun w => by
  rcases w.jb.dataBuffered with _ | ⟨buf, _ | e⟩
  · exact .fault
  · exact .either .ret grows_writeOut
  · exact .throw

theorem grows_bufWrite {p : Bytes} : Grows (bufWrite p) := .get fun w => by
  rcases w.jb.dataBuffered with _ | ⟨buf, _ | e⟩
  · exact .fault
  · refine .either grows_setBuffered (.either grows_writeOut ?_)
    exact grows_setBuffered.bind fun _ => grows_flush.bind fun _ =>
      .either grows_setBuffered grows_writeOut
  · exact .throw

theorem grows_flushBuffered : Grows flushBuffered :=
  .get fun _ => Respects.deref.bind fun _ => .either .ret grows_flush

theorem grows_ldWrite {d : List Bytes} : Grows (ldWrite d) :=
  grows_bufWrite.bind fun _ => (Respects.forM fun _ => grows_bufWrite).bind fun _ => .pure

theorem grows_dataReadAt {off n : ℕ} : Grows (dataReadAt off n) :=
  grows_openData.bind fun _ => Respects.ioRead.bind fun _ => .get fun _ => .either .ret .throw

theorem grows_dataWriteAt {p : Bytes} {off : ℕ} : Grows (dataWriteAt p off) :=
  grows_openData.bind fun _ => .io (grown_writeBlockLog fun bs => length_overwrite bs off p)
    (fun _ => grown_writeBlockLog fun bs => length_overwrite bs off _) fun _ => .either .ret .throw

theorem grows_dataSync : Grows dataSync := grows_openData.bind fun _ => .step fun w =>
  ⟨rfl, fun _ ⟨j, hj, hall⟩ => ⟨j.sync, by simp [modifyDisk, hj], hall.sync⟩⟩

theorem grows_checkResume {j : CarLog} : Grows (checkResume j) :=
  .runIf <| Respects.failIf.bind fun _ => Respects.failIf.bind fun _ =>
    Respects.deref.bind fun _ => .failIf

theorem grows_lockReadState : Grows lockReadState :=
  .get fun _ => .either .fault grows_modifyJb

variable [X : External]

theorem grows_iterate {dataEnd : ℕ} {cb : β → LogEntry → Op β} {b : β}
    (h : ∀ b e, Grows (cb b e)) : Grows (iterate dataEnd cb b) := by
  refine .get fun w => .either .ret (grows_openData.bind fun _ => (Respects.foldlM (fun _ _ =>
    Respects.ioRead.bind fun _ => h _ _) _).bind fun _ => Respects.ioRead.bind fun _ => ?_)
  split
  · exact .ret
  · exact .throw

theorem grows_writeLinkBlock {next links : List Cid} : Grows (writeLinkBlock next links) :=
  grows_ldWrite.wrapErr.bind fun _ => grows_modifyJb.bind fun _ => .pure

theorem grows_collectLink {links : List Cid × List Cid} {e : LogEntry} :
    Grows (collectLink links e) :=
  .either (grows_writeLinkBlock.wrapErr.bind fun _ => .pure) .ret

theorem grows_finishLayer {links : List Cid × List Cid} : Grows (finishLayer links) :=
  .either .ret grows_writeLinkBlock.wrapErr

theorem grows_genLayers (fuel : ℕ) (next : List Cid) (offs : List ℕ) :
    Grows (genLayers fuel next offs) := by
  induction fuel generalizing next offs with
  | zero => exact .ret
  | succ fuel ih =>
    exact .get fun _ => .either ((Respects.foldlM (fun _ _ => grows_writeLinkBlock.wrapErr) _).bind
      fun _ => ih _ _) .ret

theorem grows_updateHeader {root : Cid} : Grows (updateHeader root) := by
  refine grows_dataReadAt.wrapErr.bind fun buf => ?_
  rcases readUvarint buf with e | ⟨hlen, rest⟩ <;> dsimp only
  · exact .throw
  refine .either .fault ?_
  rcases X.decodeHeader (rest.take hlen) with _ | ⟨version, roots⟩ <;> dsimp only
  · exact .throw
  · exact Respects.failIf.bind fun _ => Respects.failIf.bind fun _ =>
      Respects.failIf.bind fun _ => grows_dataWriteAt.wrapErr.bind fun _ =>
      grows_dataSync.wrapErr.bind fun _ => .pure

/-! ## Where `genTopCar` can be interrupted -/

/-- What holds when the process dies; nothing is said of the other ends. -/
def Post.dies {ε : Type} (C : World → Prop) : Post World ε α :=
  ⟨fun _ _ => True, fun _ _ => True, C, fun _ _ => True⟩

/-- The data file of a log up to the end of its bottom layer, and a head. -/
def HasHead (R : ℕ) (h : Head) (w : World) : Prop :=
  w.disk.head = some (some h) ∧ LogLong R w

omit X in
theorem HasHead.grown {h : Head} (hw : HasHead R h w) (hg : Grown w w') : HasHead R h w' :=
  ⟨hg.1.trans hw.1, hg.2 R hw.2⟩

omit X in
/-- A step that does not write the head, on the way to where the process
may die. -/
theorem wp_dies_bind {h : Head} {C : World → Prop} {f : α → Op β} (hm : Grows m)
    (hw : HasHead R h w) (hC : ∀ w', HasHead R h w' → C w')
    (hf : ∀ a w', HasHead R h w' → wp anyFate (f a) (Post.dies C) w') :
    wp anyFate (m >>= f) (Post.dies C) w :=
  wp_seq (hm w) (fun a _ hg => hf a _ (hw.grown hg)) (fun _ _ _ => trivial)
    (fun _ hg => hC _ (hw.grown hg)) fun _ _ _ => trivial

omit X in
/-- A step of which it is known how it ends. -/
theorem wp_dies_seq {C : World → Prop} {s : String} {P : Post World Err α} {f : α → Op β}
    (hm : wp anyFate m P w) (hok : ∀ a t, P.ok a t → wp anyFate (f a) (Post.dies C) t)
    (hcrash : ∀ t, P.crash t → C t) : wp anyFate (wrapErr s m >>= f) (Post.dies C) w := by
  unfold wrapErr
  rw [wp_bind, wp_handle]
  exact wp_mono hm hok (fun _ _ _ => trivial) hcrash fun _ _ _ => trivial

omit X in
/-- The head is written, or it is as it was. -/
theorem wp_mutHead_dies {h h' : Head} {change : Head → Except Err Head} (hw : HasHead R h w)
    (hchange : change h = .ok h') : wp anyFate (mutHead change)
      ⟨fun _ w' => HasHead R h' w', fun _ _ => True,
        fun w' => HasHead R h w' ∨ HasHead R h' w', fun _ _ => True⟩ w := by
  have hsame : HasHead R h w ∨ HasHead R h' w := Or.inl hw
  have hnew : HasHead R h' (modifyDisk (fun d => { d with head := some (some h') }) w) :=
    ⟨rfl, hw.2⟩
  have hread : wp anyFate readHead ⟨fun g w' => w' = w ∧ g = h, fun _ _ => True, fun w' => w' = w,
      fun _ _ => True⟩ w := by
    unfold readHead
    rw [wp_get]
    rcases w.jb.head with _ | _ | _
    · trivial
    · trivial
    · rw [hw.1]
      exact ⟨⟨rfl, rfl⟩, fun _ _ => trivial, fun _ => rfl⟩
  unfold mutHead wrapErr
  rw [wp_bind, wp_handle]
  refine wp_mono hread ?_ (fun _ _ _ => trivial) (fun _ heq => heq ▸ hsame) fun _ _ _ => trivial
  rintro g u ⟨rfl, rfl⟩
  dsimp only
  rw [wp_bind, wp_failIf]
  refine ⟨fun _ => trivial, fun _ => ?_⟩
  rw [hchange]
  dsimp only
  rw [wp_bind, wp_handle]
  refine ⟨?_, fun _ _ => trivial, fun _ => hsame⟩
  change wp anyFate (Prog.handle ioRead _ >>= _) _ _
  rw [wp_bind, wp_handle]
  exact ⟨hnew, fun _ _ => trivial, fun _ => Or.inr hnew⟩

/-- The layers of a tree are at least the two it starts with. -/
theorem genLayers_ne_nil (fuel : ℕ) (next : List Cid) {offs : List ℕ} (h : offs ≠ []) (w : World) :
    wp anyFate (genLayers fuel next offs) (.returns fun r _ => r.2 ≠ []) w := by
  induction fuel generalizing next offs w with
  | zero => exact h
  | succ fuel ih =>
    unfold genLayers
    rw [wp_get]
    split
    · refine wp_returns_seq (R := fun _ _ => True) ?_ fun _ _ _ => ih _ (by simp) _
      exact wp_mono wp_trivial (fun _ _ _ => trivial) (fun _ _ _ => trivial) (fun _ _ => trivial)
        fun _ _ _ => trivial
    · exact h

/-- **A log that takes no more writes, and that has no top tree.** Its data
is committed up to `R`, so nothing is buffered. -/
structure Committed (R : ℕ) (h : Head) (w : World) : Prop where
  head : w.disk.head = some (some h)
  readOnly : h.readOnly = true
  retiredAt : h.retiredAt = R
  layerOffsets : h.layerOffsets = []
  dataEnd : h.dataEnd = 0 ∨ h.dataEnd = R
  here : h.isExternal = false ∧ h.offloaded = false
  log : LogLong R w
  dataLen : w.jb.dataLen = R
  buffered : w.jb.dataBuffered = some ⟨[], none⟩
  pos : 0 < R

/-- **Where the process can die**: before the end of the bottom layer is
in the head, before the layers are, or when they are. -/
def DiedIn (R : ℕ) (h : Head) (w : World) : Prop :=
  HasHead R h w ∨ HasHead R { h with dataEnd := R } w ∨
    ∃ h', h'.layerOffsets ≠ [] ∧ w.disk.head = some (some h')

/-- From where the end of the bottom layer is in the head. -/
theorem wp_genTopCar_dies {h : Head} (hw : Committed R h w) :
    wp anyFate genTopCar (Post.dies (DiedIn R h)) w := by
  have hbefore : ∀ w', HasHead R h w' → DiedIn R h w' := fun _ => Or.inl
  have hbehind : ∀ w', HasHead R { h with dataEnd := R } w' → DiedIn R h w' :=
    fun _ h => Or.inr (Or.inl h)
  -- nothing is buffered, and `dataSync` leaves the length of the file
  have hflush : wp anyFate flushBuffered ⟨fun _ w' => w' = w, fun _ _ => True, fun w' => w' = w,
      fun _ _ => True⟩ w := by
    unfold flushBuffered
    rw [wp_get, hw.buffered]
    exact rfl
  have hsync : wp anyFate dataSync ⟨fun _ w' => Grown w w' ∧ w'.jb.dataLen = R, fun _ _ => True,
      fun w' => Grown w w', fun _ _ => True⟩ w := by
    have hlen : wp anyFate dataSync (.always fun w' => w'.jb.dataLen = w.jb.dataLen) w := by
      unfold dataSync openData
      rw [wp_bind, wp_get]
      cases w.jb.data with
      | none => rfl
      | some f =>
        dsimp only
        split
        · exact ⟨rfl, fun _ _ => rfl, fun _ => rfl⟩
        · rfl
    exact wp_mono (wp_and (grows_dataSync w) hlen) (fun _ _ h => ⟨h.1, h.2.trans hw.dataLen⟩)
      (fun _ _ _ => trivial) (fun _ h => h.1) fun _ _ _ => trivial
  have hw₀ : HasHead R h w := ⟨hw.head, hw.log⟩
  unfold genTopCar
  rw [wp_get, wp_bind, wp_failIf]
  refine ⟨fun _ => trivial, fun _ => wp_dies_seq hflush ?_ fun _ heq => heq ▸ hbefore _ hw₀⟩
  rintro - u rfl
  refine wp_dies_seq hsync ?_ fun _ hg => hbefore _ (hw₀.grown hg)
  rintro - v ⟨hgrown, hlen⟩
  rw [wp_get, hlen]
  refine wp_dies_bind grows_checkResume (hw₀.grown hgrown) hbefore fun _ x hx => ?_
  refine wp_dies_bind grows_modifyJb hx hbefore fun _ y hy => ?_
  -- the first change of the head: a crash leaves it as before or behind it
  refine wp_dies_seq (wp_mutHead_dies hy rfl) ?_ fun _ h => h.elim (hbefore _) (hbehind _)
  intro _ z hz
  refine wp_dies_bind (Respects.wrapErr (grows_iterate fun _ _ => grows_collectLink)) hz hbehind
    fun links z₁ hz₁ => wp_dies_bind grows_finishLayer hz₁ hbehind fun next z₂ hz₂ => ?_
  -- the layers are at least two, whatever they are
  refine wp_seq (wp_and (grows_genLayers next.length next [0, R] z₂)
    (genLayers_ne_nil next.length next (by simp) z₂)) ?_ (fun _ _ _ => trivial)
    (fun _ h => hbehind _ (hz₂.grown h.1)) fun _ _ _ => trivial
  rintro ⟨next', offs⟩ z₃ ⟨hg, hoffs⟩
  replace hoffs : offs ≠ [] := hoffs
  have hz₃ := hz₂.grown hg
  rcases next' with _ | ⟨root, _ | ⟨root', rest⟩⟩
  · trivial
  · refine wp_dies_bind grows_flushBuffered.wrapErr hz₃ hbehind fun _ z₄ hz₄ =>
      wp_dies_bind grows_dataSync.wrapErr hz₄ hbehind fun _ z₅ hz₅ =>
      wp_dies_bind grows_updateHeader hz₅ hbehind fun first z₆ hz₆ =>
      wp_dies_bind grows_lockReadState hz₆ hbehind fun _ z₇ hz₇ =>
      wp_dies_bind grows_modifyJb hz₇ hbehind fun _ z₈ hz₈ => ?_
    rw [wp_get, wp_bind, wp_attempt]
    have hunlock : ∀ m : Op Unit, (∀ t, wp anyFate m (Post.dies (DiedIn R h)) t) →
        ∀ t, wp anyFate (unlockReadState >>= fun _ => m) (Post.dies (DiedIn R h)) t := by
      intro m hm t
      unfold unlockReadState
      rw [wp_bind, wp_get]
      split
      · exact hm _
      · trivial
    refine wp_mono (wp_mutHead_dies hz₈ rfl) (fun _ t _ => hunlock (.ret ()) (fun _ => trivial) t)
      (fun e t _ => hunlock (.throw e) (fun _ => trivial) t) (fun t ht => ?_) fun _ _ _ => trivial
    -- the second change of the head, with the layers
    rcases ht with ht | ht
    · exact hbehind _ ht
    · exact Or.inr (Or.inr ⟨_, by simpa using hoffs, ht.1⟩)
  · trivial

/-! ## Opening -/

/-- What a log is besides its indexes. -/
def unindexed (j : CarLog) : CarLog := { j with rIdx := none, wIdx := none, eIdx := none }

/-- The log's files are as they were, and so is what is in memory besides
the indexes; a log that takes no writes still takes none. -/
structure SameLog (w w' : World) : Prop where
  blockLog : w'.disk.blockLog = w.disk.blockLog
  head : w'.disk.head = w.disk.head
  jb : unindexed w'.jb = unindexed w.jb
  wIdx : w.jb.wIdx = none → w'.jb.wIdx = none

instance : IsPreorder World SameLog where
  refl _ := ⟨rfl, rfl, rfl, id⟩
  trans _ _ _ h h' := ⟨h'.1.trans h.1, h'.2.trans h.2, h'.3.trans h.3, fun hn => h'.4 (h.4 hn)⟩

omit X in
theorem same_ioWrite {f : Disk → Disk} (hlog : ∀ d, (f d).blockLog = d.blockLog)
    (hhead : ∀ d, (f d).head = d.head) : Respects SameLog (ioWrite f) :=
  .step fun w => ⟨hlog w.disk, hhead w.disk, rfl, id⟩

omit X in
theorem same_openData : Respects SameLog openData := .get fun w => by
  cases w.jb.data with
  | none => exact .throw
  | some f => exact .either (c := f.isOpen = true) .ret .throw

theorem same_iterate {dataEnd : ℕ} {cb : β → LogEntry → Op β} {b : β}
    (h : ∀ b e, Respects SameLog (cb b e)) : Respects SameLog (iterate dataEnd cb b) := by
  refine .get fun w => .either .ret (same_openData.bind fun _ => (Respects.foldlM (fun _ _ =>
    Respects.ioRead.bind fun _ => h _ _) _).bind fun _ => Respects.ioRead.bind fun _ => ?_)
  split
  · exact .ret
  · exact .throw

theorem same_openBSST {path : BsstPath} : Respects SameLog (openBSST path) :=
  Respects.ioRead.wrapErr.bind fun _ => .get fun w => by
    cases path.get w.disk with
    | none => exact .throw
    | some f =>
      dsimp only
      cases Bsst.openFile f with
      | none => exact .throw
      | some b => exact .ret

omit X in
theorem same_openLevel : Respects SameLog openLevel :=
  Respects.ioRead.bind fun _ => .get fun _ => .either .ret .throw

omit X in
theorem same_putFixed {ents : List LogEntry} : Respects SameLog (putFixed ents) :=
  .wrapErr (same_ioWrite (fun _ => rfl) fun _ => rfl)

theorem same_fixLevel {retiredAt : ℕ} : Respects SameLog (fixLevel retiredAt) := by
  have hcreate : Respects SameLog (createLevel Disk.levelTemp setLevelTemp) :=
    Respects.ioRead.bind fun _ => .get fun _ =>
      .either .throw ((same_ioWrite (f := setLevelTemp _) (fun _ => rfl) fun _ => rfl).bind
        fun _ => .pure)
  have hfix : Respects SameLog (fixLevelIndex retiredAt) :=
    .bind (.wrapErr (same_iterate fun _ _ => .either (same_putFixed.bind fun _ => .pure) .ret))
      fun _ => .runIf same_putFixed
  exact hcreate.wrapErr.bind fun _ => hfix.wrapErr.bind fun _ => Respects.ioRead.wrapErr.bind
    fun _ => .bind (.wrapErr (same_ioWrite (fun _ => rfl) fun _ => rfl)) fun _ =>
    .bind (.wrapErr (same_ioWrite (fun _ => rfl) fun _ => rfl)) fun _ => same_openLevel.wrapErr

/-- Which index a log is opened with makes no difference to the log. -/
theorem same_openIndex {h : Head} (hro : h.readOnly = true) : Respects SameLog (openIndex h) := by
  refine .get fun _ => .either (same_openBSST.wrapErr.bind fun _ => Respects.failIf.bind fun _ =>
    .modify fun _ => ⟨rfl, rfl, rfl, id⟩) <| .either (same_openBSST.wrapErr.bind fun _ =>
    .modify fun _ => ⟨rfl, rfl, rfl, id⟩) ?_
  refine .bind (same_openLevel.handle fun _ => .either same_fixLevel .throw) fun _ =>
    .modify fun _ => ⟨rfl, rfl, rfl, fun _ => ?_⟩
  simp only [hro, if_true]

/-- **What an interrupted generation leaves**: the end of the bottom layer
in the head, no layers, and at least the bottom layer in the file. -/
structure Interrupted (R : ℕ) (h : Head) (d : Disk) : Prop where
  head : d.head = some (some h)
  readOnly : h.readOnly = true
  retiredAt : h.retiredAt = R
  layerOffsets : h.layerOffsets = []
  dataEnd : h.dataEnd = R
  here : h.isExternal = false ∧ h.offloaded = false
  log : ∃ j, d.blockLog = some j ∧ j.All fun bs => R ≤ bs.length
  pos : 0 < R

omit X in
/-- A machine that goes down changes nothing of that. -/
theorem Interrupted.lose {h : Head} {d : Disk} (hd : Interrupted R h d) (keepData keepLevel : ℕ) :
    Interrupted R h (Sys.lose keepData keepLevel d) := by
  obtain ⟨j, hj, hall⟩ := hd.log
  exact { hd with log := ⟨j.survive keepData, by simp [Sys.lose, hj], hall.survive keepData⟩ }

/-- **The log as it is opened then**, with `len` bytes in the file before. -/
structure Reopened (R len : ℕ) (w : World) : Prop where
  dataLen : w.jb.dataLen = len
  dataPos : w.jb.dataPos = some len
  dataEnd : w.jb.dataEnd = R
  file : (blockLog w).length = R
  layerOffsets : w.jb.layerOffsets = []
  wIdx : w.jb.wIdx = none
  buffered : w.jb.dataBuffered = some ⟨[], none⟩

omit X in
/-- The step is carried out, or nothing is returned. -/
theorem wp_returns_ioRead {C : Unit → World → Prop} (h : C () w) :
    wp anyFate ioRead (.returns C) w :=
  wp_returns_step h

omit X in
/-- The data file, in use as it is opened. -/
theorem wp_returns_openData {C : DataFile → World → Prop} {f : DataFile}
    (hdata : w.jb.data = some f) (h : C f w) : wp anyFate openData (.returns C) w := by
  unfold openData
  rw [wp_get, hdata]
  dsimp only
  split
  · exact h
  · trivial

/-- Memory and the data file are as they were. -/
def HeadOnly (w w' : World) : Prop := w'.jb = w.jb ∧ w'.disk.blockLog = w.disk.blockLog

instance : IsPreorder World HeadOnly where
  refl _ := ⟨rfl, rfl⟩
  trans _ _ _ h h' := ⟨h'.1.trans h.1, h'.2.trans h.2⟩

omit X in
theorem headOnly_mutHead {change : Head → Except Err Head} : Respects HeadOnly (mutHead change) := by
  have hread : Respects HeadOnly readHead := .get fun w => by
    rcases w.jb.head with _ | _ | _
    · exact .throw
    · exact .throw
    · refine Respects.ioRead.bind fun _ => ?_
      rcases w.disk.head with _ | _ | h
      · exact .throw
      · exact .throw
      · exact .ret
  refine hread.wrapErr.bind fun h => Respects.failIf.bind fun _ => ?_
  cases change h with
  | error e => exact .throw
  | ok h' =>
    have hwrite : Respects HeadOnly (writeHead h') := .io (fun _ => ⟨rfl, rfl⟩)
      (fun n w => by by_cases hn : n = 0 <;> simp [modifyDisk, HeadOnly, hn])
      fun _ => .either .ret .throw
    exact hwrite.wrapErr.bind fun _ => Respects.ioRead.wrapErr.bind fun _ => .pure

omit X in
theorem wp_returns_wrapErr {C : α → World → Prop} {s : String} (h : wp anyFate m (.returns C) w) :
    wp anyFate (wrapErr s m) (.returns C) w := wp_returns_handle h

omit X in
/-- A relation that a program goes along, of what it returns. -/
theorem returns_of_respects {S : World → World → Prop} (h : Respects S m) :
    wp anyFate m (.returns fun _ w' => S w w') w :=
  wp_mono (h w) (fun _ _ => id) (fun _ _ _ => trivial) (fun _ _ => trivial) fun _ _ _ => trivial

omit X in
/-- The data file is cut to a length that it has. -/
theorem wp_dataTruncate {n : ℕ} (h : LogLong n w) : wp anyFate (dataTruncate n)
    (.returns fun _ w' => w'.jb = w.jb ∧ (blockLog w').length = n) w := by
  obtain ⟨j, hj, hall⟩ := h
  have hle : n ≤ j.current.length := hall.current
  refine wp_returns_seq (R := fun _ w' => w' = w) ?_ ?_
  · unfold openData
    rw [wp_get]
    cases w.jb.data with
    | none => trivial
    | some f =>
      dsimp only
      split
      · exact rfl
      · trivial
  · rintro f u rfl
    refine wp_returns_step ⟨rfl, ?_⟩
    simp only [modifyDisk, writeBlockLog, blockLog, hj, Option.map_some, Option.getD_some,
      Bool.false_eq_true, if_false, Journal.current_write, List.length_append, List.length_take,
      List.length_replicate]
    omega

omit X in
/-- **The unfinished tree is cut off** the file and the head. -/
theorem wp_cutTopTree {h : Head} {n : ℕ} (hw : Interrupted R h w.disk) :
    wp anyFate (cutTopTree h n)
      (.returns fun len w' => len = R ∧ (blockLog w').length = R ∧ w'.jb = w.jb) w := by
  have hcut : 0 < h.dataEnd ∧ h.layerOffsets = [] := ⟨hw.dataEnd ▸ hw.pos, hw.layerOffsets⟩
  unfold cutTopTree
  rw [if_pos hcut]
  refine wp_returns_seq (wp_returns_wrapErr (wp_dataTruncate (hw.dataEnd ▸ hw.log))) ?_
  rintro - u ⟨hjb, hlen⟩
  refine wp_returns_seq (wp_returns_wrapErr (returns_of_respects headOnly_mutHead)) ?_
  rintro - v ⟨hjb', hlog⟩
  refine wp_returns_seq (wp_returns_wrapErr (wp_returns_ioRead (C := fun _ w' => w' = v) rfl)) ?_
  rintro - v rfl
  have hv : (blockLog v).length = R := by
    rw [blockLog, hlog, ← blockLog, hlen, hw.dataEnd]
  exact ⟨hv, hv, hjb'.trans hjb⟩

/-- **`Open` behind an interrupted generation.** -/
theorem wp_openLog_interrupted {h : Head} (hw : Interrupted R h w.disk) (staging : Bool)
    (tc : Option TruncCleanup) : wp anyFate (openLog staging tc)
      (.returns fun _ w' => Reopened R (blockLog w).length w') w := by
  unfold openLog
  refine wp_returns_seq (R := fun g w' => w' = w ∧ g = h) ?_ ?_
  · refine wp_mono wp_openHead (fun g w' hg => ⟨hg.1, ?_⟩) (fun _ _ _ => trivial)
      (fun _ _ => trivial) fun _ _ _ => trivial
    have := hw.head.symm.trans hg.2
    simpa using this.symm
  rintro g u ⟨rfl, rfl⟩
  rw [if_neg (by simp [hw.here.2])]
  refine wp_returns_seq (R := fun x w' => w' = u ∧ ∀ f, x = .ok f → f = ⟨true, true, 0⟩) ?_ ?_
  · rw [wp_attempt]
    refine wp_mono wp_openBlockLog (fun f w' hf => ⟨hf.1, ?_⟩) (fun e w' he => ⟨he, ?_⟩)
      (fun _ _ => trivial) fun _ _ _ => trivial
    · rintro f' heq
      exact Except.ok.inj heq ▸ hf.2
    · rintro f' heq
      cases heq
  -- the index is open, or opening has failed; there is no third path as it is not external
  rintro x v ⟨rfl, hx⟩
  cases x with
  | error e =>
    dsimp only
    rw [if_neg (by simp [hw.here.1])]
    trivial
  | ok f =>
    obtain rfl := hx f rfl
    refine wp_returns_seq (wp_returns_wrapErr (wp_returns_ioRead (C := fun _ w' => w' = v) rfl)) ?_
    rintro - v rfl
    rw [wp_get, wp_bind, wp_failIf]
    refine ⟨fun _ => trivial, fun _ => ?_⟩
    dsimp only
    rw [setJb, wp_bind, wp_modifyJb]
    dsimp only
    refine wp_returns_seq (returns_of_respects (same_openIndex hw.readOnly)) ?_
    rintro - a ha
    have hopen : Interrupted R g a.disk :=
      { hw with
        head := ha.head.trans hw.head
        log := by
          obtain ⟨j, hj, hall⟩ := hw.log
          exact ⟨j, ha.blockLog.trans hj, hall⟩ }
    -- what is behind the bottom layer is not cut off
    refine wp_returns_seq (wp_cutTopTree hopen) ?_
    rintro len b ⟨hlen, hfile, hb⟩
    have hwIdx : b.jb.wIdx = none := by
      rw [hb]
      exact ha.wIdx rfl
    have hdataLen : b.jb.dataLen = (blockLog v).length := by
      rw [hb]
      exact congrArg CarLog.dataLen ha.jb
    -- the end of the bottom layer is still in memory
    have hdataEnd : b.jb.dataEnd = R := by
      rw [hb]
      exact (congrArg CarLog.dataEnd ha.jb).trans hw.dataEnd
    have hlayers : b.jb.layerOffsets = [] := by
      rw [hb]
      exact (congrArg CarLog.layerOffsets ha.jb).trans hw.layerOffsets
    refine wp_returns_seq (R := fun _ w' => w' = b) ?_ ?_
    · unfold replay
      rw [wp_get, if_neg]
      · exact rfl
      · rw [hwIdx, hlen, hw.retiredAt]
        simp
    rintro - c rfl
    refine wp_returns_seq (wp_returns_wrapErr (wp_returns_ioRead (C := fun _ w' => w' = c) rfl)) ?_
    rintro - c rfl
    exact ⟨hdataLen, congrArg some hdataLen, hdataEnd, hfile, hlayers, hwIdx, rfl⟩

/-! ## Generating the tree again -/

/-- With more in the file than the bottom layer, the tree is not generated
again. -/
theorem genTopCar_reopened {len : ℕ} (hw : Reopened R len w) (hpos : 0 < R) (hne : len ≠ R) :
    wp anyFate genTopCar (.returns fun _ _ => False) w := by
  have hflush : wp anyFate flushBuffered (.returns fun _ w' => w' = w) w := by
    unfold flushBuffered
    rw [wp_get, hw.buffered]
    exact rfl
  have hsync : wp anyFate dataSync (.returns fun _ w' => w'.jb = w.jb) w := by
    unfold dataSync openData
    rw [wp_bind, wp_get]
    cases w.jb.data with
    | none => trivial
    | some f =>
      dsimp only
      split
      · exact ⟨rfl, fun _ _ => trivial, fun _ => trivial⟩
      · trivial
  unfold genTopCar
  rw [wp_get, wp_bind, wp_failIf]
  refine ⟨fun _ => trivial, fun _ => wp_returns_seq (wp_returns_wrapErr hflush) ?_⟩
  rintro - u rfl
  refine wp_returns_seq (wp_returns_wrapErr hsync) ?_
  rintro - v hv
  rw [wp_get, hv]
  refine wp_returns_seq (R := fun _ _ => False) ?_ fun _ _ => False.elim
  have hend : u.jb.dataEnd ≠ 0 := by
    rw [hw.dataEnd]
    exact hpos.ne'
  unfold checkResume runIf
  rw [if_pos hend, wp_bind, wp_failIf]
  refine ⟨fun _ => trivial, fun _ => ?_⟩
  dsimp only
  rw [wp_bind, wp_failIf]
  refine ⟨fun _ => trivial, fun heq => absurd ?_ heq⟩
  rw [hw.dataLen, hw.dataEnd]
  exact hne

omit X in
/-- With nothing behind the bottom layer, the checks pass. -/
theorem checkResume_reopened (hw : Reopened R R w) (q : List Fate) :
    (checkResume w.jb).run w q = .ok () w := by
  simp [checkResume, runIf, failIf, deref, hw.layerOffsets, hw.dataLen, hw.dataEnd, hw.dataPos,
    Bind.bind, Prog.bind, Prog.run]

/-- **The log ends at its bottom layer**, in memory as in the file. -/
def EndsAt (R : ℕ) (w : World) : Prop :=
  w.jb.dataLen = R ∧ w.jb.dataPos = some R ∧ (blockLog w).length = R ∧ w.jb.dataEnd = 0

omit X in
theorem interrupted_of_diedIn {h h₁ : Head} (hw : Committed R h w) {w₁ : World}
    (hdied : DiedIn R h w₁) (hhead : w₁.disk.head = some (some h₁)) (hset : h₁.dataEnd ≠ 0)
    (hlayers : h₁.layerOffsets = []) : Interrupted R h₁ w₁.disk := by
  have hsame : ∀ g, w₁.disk.head = some (some g) → g = h₁ := fun g hg => by
    simpa using hg.symm.trans hhead
  rcases hdied with ⟨hh, hlog⟩ | ⟨hh, hlog⟩ | ⟨h', hne, hh⟩
  · obtain rfl := hsame _ hh
    exact ⟨hhead, hw.readOnly, hw.retiredAt, hlayers, hw.dataEnd.resolve_left hset, hw.here, hlog,
      hw.pos⟩
  · obtain rfl := hsame _ hh
    exact ⟨hhead, hw.readOnly, hw.retiredAt, hlayers, rfl, hw.here, hlog, hw.pos⟩
  · obtain rfl := hsame _ hh
    exact absurd hlayers hne

/-- **`Open` after an interrupted top-tree generation keeps the old end in
memory.** Of every read-only, committed log, and wherever `genTopCar` died
with the end of the bottom layer in the head and no layers, the log that
is opened then has a `dataEnd` other than 0, and counts the bytes of nodes
that it cut off. The tree can be generated again if and only if there were
none. -/
theorem open_interrupted {h h₁ : Head} (hw : Committed R h w) {p : List Fate} {w₁ : World}
    (hdied : genTopCar.run w p = .crash w₁) (hhead : w₁.disk.head = some (some h₁))
    (hset : h₁.dataEnd ≠ 0) (hlayers : h₁.layerOffsets = []) {d : Disk}
    (hd : d = w₁.disk ∨ ∃ a b, d = Sys.lose a b w₁.disk) {staging : Bool} {tc : Option TruncCleanup}
    {q : List Fate} {w₂ : World}
    (hopen : (openLog staging tc).run { w₁ with disk := d, jb := .zero } q = .ok () w₂) :
    ∃ len, len = (blockLog { w₁ with disk := d }).length ∧ Reopened R len w₂ ∧ ¬ EndsAt R w₂ ∧
      (len ≠ R → ∀ r w₃, genTopCar.run w₂ r ≠ .ok () w₃) ∧
      (len = R → ∀ r, (checkResume w₂.jb).run w₂ r = .ok () w₂) := by
  have hcrash := wp_sound (wp_genTopCar_dies hw) (within_anyFate p)
  rw [hdied] at hcrash
  have hint : Interrupted R h₁ d := by
    have := interrupted_of_diedIn hw hcrash hhead hset hlayers
    rcases hd with rfl | ⟨a, b, rfl⟩
    · exact this
    · exact this.lose a b
  have hsat := wp_sound (wp_openLog_interrupted (w := { w₁ with disk := d, jb := .zero }) hint
    staging tc) (within_anyFate q)
  rw [hopen] at hsat
  have hre : Reopened R (blockLog { w₁ with disk := d }).length w₂ := hsat
  refine ⟨_, rfl, hre, fun hend => ?_, fun hne r w₃ hrun => ?_, fun heq => ?_⟩
  · exact absurd (hre.dataEnd.symm.trans hend.2.2.2) hint.pos.ne'
  · have := wp_sound (genTopCar_reopened hre hint.pos hne) (within_anyFate r)
    rw [hrun] at this
    exact this
  · rw [heq] at hre
    exact checkResume_reopened hre

end CarLog

section

open Encoding
open scoped Bsst.Encoding

/-- The log of one committed block, read-only. -/
def readOnlyLog : World :=
  ((Sys.start .empty).run (oneCommitted ++ [.call .markReadOnly []])).world

/-- The process dies behind the node of the top tree. -/
def behindNode : List Fate := List.replicate 8 .go ++ [.die]

/-- What is left of the log then. -/
def interruptedLog : World := { (CarLog.genTopCar.run readOnlyLog behindNode).state with jb := .zero }

/-- And the log as it is opened. -/
def reopenedLog : World := ((CarLog.openLog false none).run interruptedLog []).state

def readOnlyHead : Head := logHead 97 true

theorem committed_readOnlyLog : CarLog.Committed 97 readOnlyHead readOnlyLog := by
  have hfile : readOnlyLog.disk.blockLog.map (fun j => (j.durable.length, j.later.length)) =
      some (97, 0) := by decide +kernel
  obtain ⟨j, hj, hlen⟩ := Option.map_eq_some_iff.mp hfile
  obtain ⟨hdurable, hlater⟩ := Prod.mk.inj hlen
  refine ⟨by decide +kernel, rfl, rfl, rfl, Or.inl rfl, ⟨rfl, rfl⟩, ⟨j, hj, hdurable.ge, ?_⟩,
    by decide +kernel, ?_, by norm_num⟩
  · rw [List.length_eq_zero_iff.mp hlater]
    simp
  · have hbuf : readOnlyLog.jb.dataBuffered.map (fun b => (b.buf, b.err)) = some ([], none) := by
      decide +kernel
    obtain ⟨⟨buf, err⟩, hb, hmk⟩ := Option.map_eq_some_iff.mp hbuf
    obtain ⟨rfl, rfl⟩ := Prod.mk.inj hmk
    exact hb

theorem run_eq_crash {o : Outcome World Err Unit}
    (h : (match o with | .crash _ => true | _ => false) = true) : o = .crash o.state := by
  cases o <;> first | rfl | exact absurd h Bool.false_ne_true

theorem run_eq_ok {o : Outcome World Err Unit} (h : returnedNil o = true) : o = .ok () o.state := by
  cases o <;> first | rfl | exact absurd h Bool.false_ne_true

/-- The node of the one block was in the file. -/
theorem open_interrupted_behindNode : ∃ len, len = (CarLog.blockLog interruptedLog).length ∧
    CarLog.Reopened 97 len reopenedLog ∧ ¬ CarLog.EndsAt 97 reopenedLog ∧
    (len ≠ 97 → ∀ r w₃, CarLog.genTopCar.run reopenedLog r ≠ .ok () w₃) ∧
    (len = 97 → ∀ r, (CarLog.checkResume reopenedLog.jb).run reopenedLog r =
      .ok () reopenedLog) := by
  have hdied := run_eq_crash (o := CarLog.genTopCar.run readOnlyLog behindNode) (by decide +kernel)
  have hopen := run_eq_ok (o := (CarLog.openLog false none).run interruptedLog [])
    (by decide +kernel)
  have hhead : (CarLog.genTopCar.run readOnlyLog behindNode).state.disk.head =
      some (some { readOnlyHead with dataEnd := 97 }) := by decide +kernel
  exact CarLog.open_interrupted committed_readOnlyLog hdied hhead (by decide) rfl (Or.inl rfl)
    hopen

/-- **A tree that is not generated again.** The process dies when the node
of a one-block log is in the file. The log opens, with the 176 bytes of
the uncut file in memory where the file has 97, and `genTopCar` fails
then, where without the crash it returns nil. -/
theorem genTopCar_fails_reopened :
    returnedNil ((CarLog.openLog false none).run interruptedLog []) = true ∧
      (reopenedLog.jb.dataLen, reopenedLog.jb.dataPos, (CarLog.blockLog reopenedLog).length,
        reopenedLog.jb.dataEnd) = (176, some 176, 97, 97) ∧
      errorOf (CarLog.genTopCar.run reopenedLog []) =
        some (.text "cannot generate top car - data length mismatch") ∧
      returnedNil (CarLog.genTopCar.run readOnlyLog []) = true := by
  decide +kernel

end

end Carlog

end Ribs
