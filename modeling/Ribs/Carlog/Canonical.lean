import Ribs.Carlog.Durable
import Ribs.Carlog.Listed
import Ribs.Carlog.Resume
import Ribs.Carlog.TopGen
/-!
# Carlog — finalizing a log

A log that takes no more writes is finalized in its place, or into the
staging storage. The two ways write the index, the sample and the head in
another order, and both generate the top tree of the log. What they leave
is a file with the canonical tree of the blocks that were in the log, so
that every `WriteCar` emits the same CAR; what was uploaded is that CAR.
-/

namespace Ribs

open Common

namespace Carlog

/-! ## What leaves the data alone -/

/-- The data of the log is the same, in the file and in memory, and so is
what was uploaded. -/
structure SameFile (w w' : World) : Prop where
  blockLog : w'.disk.blockLog = w.disk.blockLog
  staged : w'.staged = w.staged
  jb : ∃ r e lk fin, w'.jb = { w.jb with rIdx := r, eIdx := e, idxLk := lk, finalizing := fin }

instance : IsPreorder World SameFile where
  refl _ := ⟨rfl, rfl, _, _, _, _, rfl⟩
  trans w w' w'' h h' := by
    obtain ⟨hlog, hstaged, r, e, lk, fin, hjb⟩ := h
    obtain ⟨hlog', hstaged', r', e', lk', fin', hjb'⟩ := h'
    refine ⟨hlog'.trans hlog, hstaged'.trans hstaged, r', e', lk', fin', ?_⟩
    rw [hjb', hjb]

/-- What holds of the data of a log holds whatever else is done. -/
def OfFile (I : World → Prop) : Prop := ∀ w w', SameFile w w' → I w → I w'

namespace CarLog

variable {α β : Type} {m : Op α} {I : World → Prop} {w : World}

theorem file_ioWrite {f : Disk → Disk} (hf : ∀ d, (f d).blockLog = d.blockLog) :
    Respects SameFile (ioWrite f) := .step fun w => ⟨hf w.disk, rfl, _, _, _, _, rfl⟩

theorem file_modifyJb {f : CarLog → CarLog} (hf : ∀ j, ∃ r e lk fin,
    f j = { j with rIdx := r, eIdx := e, idxLk := lk, finalizing := fin }) :
    Respects SameFile (modifyJb f) := .modify fun w => ⟨rfl, rfl, hf w.jb⟩

theorem file_lockIdx : Respects SameFile lockIdx :=
  .get fun _ => .either (file_modifyJb fun _ => ⟨_, _, _, _, rfl⟩) .fault

theorem file_unlockIdx : Respects SameFile unlockIdx :=
  .get fun _ => .either (file_modifyJb fun _ => ⟨_, _, _, _, rfl⟩) .fault

theorem file_mutHead {change : Head → Except Err Head} : Respects SameFile (mutHead change) :=
  respects_mutHead fun _ _ => ⟨rfl, rfl, _, _, _, _, rfl⟩

theorem file_contents : Respects SameFile LevelDBIndex.contents := by
  refine Respects.ioRead.bind fun _ => .get fun w => ?_
  cases w.disk.levelIndex with
  | none => exact .throw
  | some j => exact .ret

theorem file_entries {idx : ReadableIndex} : Respects SameFile idx.entries := by
  cases idx with
  | level _ => exact file_contents.bind fun _ => .pure
  | bsst _ => exact .fault

theorem file_list {idx : ReadableIndex} : Respects SameFile idx.list := by
  cases idx with
  | level _ => exact file_contents.bind fun _ => .pure
  | bsst _ => exact .fault

theorem file_readableIndex : Respects SameFile readableIndex := .get fun _ => .deref

theorem file_swapIndex {set : CarLog → CarLog} (hset : ∀ j, ∃ r e lk fin,
    set j = { j with rIdx := r, eIdx := e, idxLk := lk, finalizing := fin }) :
    Respects SameFile (swapIndex set) := by
  have hdrop : Respects SameFile dropLevel := .get fun _ => Respects.failIf.bind fun _ =>
    (file_ioWrite (f := setLevel none) fun _ => rfl).wrapErr
  refine file_readableIndex.bind fun idx => ?_
  have hclose : Respects SameFile idx.close := by
    cases idx with
    | level _ => exact Respects.ioRead
    | bsst _ => exact Respects.ioRead
  refine hclose.tried.bind fun r => (file_modifyJb hset).bind fun _ => ?_
  rcases r with e | _
  · exact .throw
  · exact hdrop.wrapErr

variable [X : External]

omit X in
theorem file_saveMHList {list : List Multihash} : Respects SameFile (saveMHList list) :=
  (file_ioWrite (f := fun d => { d with hashSample := some [] }) fun _ => rfl).bind fun _ =>
    file_ioWrite (f := fun d => { d with hashSample := some list.flatten }) fun _ => rfl

theorem file_openBSST {path : BsstPath} : Respects SameFile (openBSST path) := by
  refine Respects.ioRead.wrapErr.bind fun _ => .get fun w => ?_
  rcases path.get w.disk with _ | f <;> dsimp only
  · exact .throw
  rcases Bsst.openFile f with _ | b
  · exact .throw
  · exact .ret

omit X in
/-- What holds before holds behind. -/
theorem returns_ofFile (hI : OfFile I) (hm : Respects SameFile m) (hw : I w) :
    wp anyFate m (.returns fun _ w' => I w') w :=
  wp_returns_mono (returns_of_respects hm) fun _ _ h => hI _ _ h hw

omit X in
theorem returns_ofFile_seq {f : α → Op β} {U : β → World → Prop} (hI : OfFile I)
    (hm : Respects SameFile m) (hw : I w) (hf : ∀ a w', I w' → wp anyFate (f a) (.returns U) w') :
    wp anyFate (m >>= f) (.returns U) w :=
  wp_returns_seq (returns_ofFile hI hm hw) hf

/-- **Making a BSST file** of what is listed. -/
theorem returns_createBSST {path : BsstPath} {entries : Op ℕ} {list : Op (Bsst.Source × β)}
    {Q : β → World → Prop} (hI : OfFile I) (hQ : ∀ b, OfFile (Q b))
    (hentries : Respects SameFile entries)
    (hlist : ∀ u, I u → wp anyFate list (.returns fun l u' => Q l.2 u') u) (hw : I w) :
    wp anyFate (createBSST path entries list) (.returns fun x w' => Q x.2 w') w := by
  have hwrite : ∀ x, Respects SameFile (ioWrite (path.set x)) := fun x =>
    file_ioWrite fun _ => by cases path <;> rfl
  have hsalt : Respects SameFile drawSalt :=
    .put (fun _ => ⟨rfl, rfl, _, _, _, _, rfl⟩) fun _ => .ret
  refine returns_ofFile_seq hI hentries.wrapErr hw fun ents t ht => wp_returns_wrapErr ?_
  refine returns_ofFile_seq hI (hwrite _).wrapErr ht fun _ t ht => ?_
  refine returns_ofFile_seq hI hsalt ht fun salt t ht => ?_
  refine returns_ofFile_seq hI (hwrite _).wrapErr ht fun _ t ht => ?_
  refine returns_ofFile_seq hI Respects.ioRead.wrapErr ht fun _ t ht => ?_
  refine wp_returns_seq (wp_returns_wrapErr (hlist t ht)) fun l t hl => ?_
  obtain ⟨source, extra⟩ := l
  dsimp only
  cases Bsst.buckets salt ents source with
  | error e => trivial
  | ok r =>
    refine returns_ofFile_seq (hQ _) (hwrite _).wrapErr hl fun _ t hl => ?_
    refine returns_ofFile_seq (hQ _) Respects.ioRead.wrapErr hl fun _ t hl => ?_
    refine returns_ofFile_seq (hQ _) (hwrite _).wrapErr hl fun _ t hl => ?_
    refine returns_ofFile_seq (hQ _) Respects.ioRead.wrapErr hl fun _ t hl => ?_
    refine returns_ofFile_seq (hQ _) Respects.ioRead.wrapErr hl fun _ t hl => ?_
    exact returns_ofFile_seq (hQ _) file_openBSST.wrapErr hl fun _ _ hl => hl

end CarLog

/-! ## A log with its tree -/

section

variable [X : External] {d : ℕ} {t : BlockTree d} {bs : List Block} {w w' : World}

/-- **A log whose file has the tree**, and that can be read. -/
structure Treed (t : BlockTree d) (w : World) : Prop where
  tree : HasTree t w
  readStateLk : w.jb.readStateLk = false

theorem ofFile_treed : OfFile (Treed t) := by
  intro w w' h hw
  obtain ⟨hlog, -, r, e, lk, fin, hjb⟩ := h
  have hsame : CarLog.blockLog w' = CarLog.blockLog w := by
    rw [CarLog.blockLog, CarLog.blockLog, hlog]
  refine ⟨⟨?_, ?_, ?_, hw.tree.branching, hw.tree.regular⟩, ?_⟩
  · rw [hjb]
    exact hw.tree.data
  · rw [hjb]
    exact hw.tree.layers
  · rw [hjb, hsame]
    exact hw.tree.ahead
  · rw [hjb]
    exact hw.readStateLk

theorem ofFile_ripe : OfFile (Ripe True bs) := by
  intro w w' h hw
  obtain ⟨hlog, -, r, e, lk, fin, hjb⟩ := h
  obtain ⟨j, f, b, ht⟩ := hw.tail
  refine ⟨⟨j, f, b, { ht with
      log := hlog.trans ht.log
      data := by rw [hjb]; exact ht.data
      pos := by rw [hjb]; exact ht.pos
      buffered := by rw [hjb]; exact ht.buffered }⟩, ?_, ?_, ?_, ?_, ?_, ?_, Or.inl trivial,
    hw.regular, hw.ne⟩
  · rw [hjb]
    exact hw.wIdx
  · rw [hjb]
    exact hw.dataLen
  · rw [hjb]
    exact hw.dataStart
  · rw [hjb]
    exact hw.dataEnd
  · rw [hjb]
    exact hw.headOpen
  · rw [hjb]
    exact hw.readStateLk

/-- What is written to an output is not part of the log. -/
theorem Treed.emitted {p : Bytes} (h : Treed t w) (hout : Emitted p w w') : Treed t w' := by
  obtain ⟨rfl⟩ := hout
  exact ⟨{ h.tree with }, h.readStateLk⟩

namespace CarLog

variable {α : Type} {m : Op α}

/-- The error is not the end of a file. -/
def NotEof {α : Type} : Post World Err α :=
  ⟨fun _ _ => True, fun e _ => e ≠ .eof, fun _ => True, fun _ _ => True⟩

omit X in
theorem notEof_wrapErr {s : String} : wp anyFate (wrapErr s m) NotEof w := by
  unfold wrapErr
  rw [wp_handle]
  exact wp_mono wp_trivial (fun _ _ _ => trivial) (fun _ _ _ => by simp [NotEof])
    (fun _ _ => trivial) fun _ _ _ => trivial

omit X in
theorem notEof_seq {β : Type} {f : α → Op β} (hm : wp anyFate m NotEof w)
    (hf : ∀ a u, wp anyFate (f a) NotEof u) : wp anyFate (m >>= f) NotEof w :=
  wp_seq hm (fun a u _ => hf a u) (fun _ _ => id) (fun _ => id) fun _ _ => id

/-- An error of `WriteCar` is not taken for the end of its output. -/
theorem notEof_writeCar : wp anyFate writeCar NotEof w := by
  have hlock : ∀ u, wp anyFate lockReadState NotEof u := by
    intro u
    unfold lockReadState
    rw [wp_get]
    exact wp_ite.mpr ⟨fun _ => trivial, fun _ => trivial⟩
  have hunlock : ∀ u, wp anyFate unlockReadState NotEof u := by
    intro u
    unfold unlockReadState
    rw [wp_get]
    exact wp_ite.mpr ⟨fun _ => trivial, fun _ => trivial⟩
  refine notEof_seq (hlock w) fun _ u => ?_
  rw [wp_get]
  refine wp_ite.mpr ⟨fun _ => notEof_seq (hunlock u) fun _ v => ?_, fun _ => ?_⟩
  · show _ ≠ Err.eof
    simp
  · refine notEof_seq (hunlock u) fun _ v => notEof_seq notEof_wrapErr fun r v => ?_
    exact notEof_seq notEof_wrapErr fun _ v => notEof_seq notEof_wrapErr fun _ v => trivial

/-- **`WriteCar` to a new writer**: the canonical CAR when it returns, and
an error that is not taken for the end of the CAR. -/
theorem returns_capture (h : Treed t w) : wp anyFate (captureOutput writeCarTo)
    (.returns fun x w' => x.2 ≠ .error .eof ∧ (x.2 = .ok () →
      x.1 = t.car ∧ Treed t w' ∧ w'.staged = w.staged)) w := by
  have hnew : Treed t { w with out := [] } := ⟨{ h.tree with }, h.readStateLk⟩
  have hcar : wp anyFate writeCarTo
      ⟨fun _ u => Emitted t.car { w with out := [] } u, fun e _ => e ≠ .eof, fun _ => True,
        fun _ _ => True⟩ { w with out := [] } := by
    refine wp_seq (wp_and (well_writeCar (E := True) (fun _ => trivial) hnew.tree hnew.readStateLk)
      notEof_writeCar) ?_ (fun _ _ h => h.2) (fun _ _ => trivial) fun _ _ _ => trivial
    rintro x u ⟨⟨-, hout⟩, -⟩
    exact hout
  rw [captureOutput, wp_bind, wp_modify]
  dsimp only
  rw [wp_bind, wp_attempt]
  refine wp_mono hcar ?_ ?_ (fun _ => id) fun _ _ => id
  · intro _ u hout
    refine ⟨by simp, fun _ => ⟨?_, hnew.emitted hout, ?_⟩⟩
    · obtain ⟨rfl⟩ := hout
      exact List.nil_append _
    · obtain ⟨rfl⟩ := hout
      rfl
  · intro e u he
    exact ⟨fun heq => he (Except.error.inj heq), fun heq => absurd heq (by simp)⟩

/-- How much was read. -/
theorem read_of_listStream {stream : Bytes} {r : Except Err Unit} {l : Bsst.Source × StatRead}
    (h : listStream stream r = .ok l) : l.2.read = stream.length ∧
      (l.2.eof = true → endsClean r = true) := by
  have h' : listStream stream r = .ok (l.1, l.2) := h
  obtain ⟨v, left, hreads⟩ := readsAs_of_listStream h'
  obtain ⟨ended, heq, -⟩ := listStream_eq (r := r) hreads
  have hl : l.2 = ⟨stream.length, ended && endsClean r⟩ :=
    congrArg Prod.snd (Except.ok.inj (h.symm.trans heq))
  rw [hl]
  refine ⟨rfl, fun heof => ?_⟩
  rw [Bool.and_eq_true] at heof
  exact heof.2

/-- **The listing of the CAR.** When it says that the end was reached, the
whole CAR was listed. -/
theorem returns_listCar (h : Treed t w) : wp anyFate (listCar writeCarTo)
    (.returns fun l w' => l.2.eof = true →
      listStream t.car (.ok ()) = .ok l ∧ Treed t w' ∧ w'.staged = w.staged) w := by
  refine wp_returns_seq (returns_capture h) fun x u hx => ?_
  obtain ⟨stream, r⟩ := x
  obtain ⟨hne, hok⟩ := hx
  dsimp only at hne hok ⊢
  cases hlist : listStream stream r with
  | error e => trivial
  | ok l =>
    intro heof
    have hr : r = .ok () := by
      cases r with
      | ok _ => rfl
      | error e =>
        have hclean := (read_of_listStream hlist).2 heof
        exact absurd (congrArg Except.error (of_decide_eq_true hclean)) hne
    obtain ⟨hcar, htreed, hstaged⟩ := hok hr
    rw [hcar, hr] at hlist
    exact ⟨hlist, htreed, hstaged⟩

/-! ## `Finalize` -/

/-- **What a finalized log is**: its file has the canonical tree of the
blocks, and if it was uploaded, then as the canonical CAR. -/
def Final (staging : Bool) (bs : List Block) (w : World) : Prop :=
  ∃ d, ∃ t : BlockTree (d + 1), EvenTree.IsTop arity bs t ∧ Treed t w ∧
    (staging = true → w.staged = some ⟨t.car.length, t.car⟩)

theorem ofFile_final {staging : Bool} : OfFile (Final staging bs) := by
  rintro w w' h ⟨d, t, htop, htreed, hstaged⟩
  exact ⟨d, t, htop, ofFile_treed _ _ h htreed, fun hst => h.staged.trans (hstaged hst)⟩

omit X in
/-- The cleanup leaves the data alone. -/
theorem returns_andThen {c : Op Unit} (hI : OfFile I) (hm : wp anyFate m (.returns fun _ => I) w)
    (hc : Respects SameFile c) : wp anyFate (m.andThen c) (.returns fun _ => I) w := by
  rw [wp_andThen]
  refine wp_mono hm (fun a t ht => ?_) (fun e t _ => ?_) (fun _ => id) fun _ _ => id
  · exact wp_mono (returns_ofFile hI hc ht) (fun _ _ => id) (fun _ _ => id) (fun _ => id)
      fun _ _ => id
  · exact wp_mono wp_trivial (fun _ _ _ => trivial) (fun _ _ _ => trivial) (fun _ _ => trivial)
      fun _ _ _ => trivial

/-- The tree is generated. -/
theorem returns_genTopCar (h : Ripe True bs w) : wp anyFate genTopCar
    (.returns fun _ w' => ∃ d, ∃ t : BlockTree (d + 1), EvenTree.IsTop arity bs t ∧ Treed t w')
    w := by
  refine wp_mono (well_genTopCar (fun _ => trivial) h) ?_ (fun _ _ _ => trivial) (fun _ => id)
    fun _ _ => False.elim
  rintro _ w' ⟨d, t, htop, htree, hlk⟩
  exact ⟨d, t, htop, htree, hlk⟩

/-- **In place.** -/
theorem returns_finalizeLocal (h : Ripe True bs w) :
    wp anyFate (finalizeLocal false) (.returns fun _ w' => Final false bs w') w := by
  have hI : OfFile (Ripe True bs) := ofFile_ripe
  refine returns_ofFile_seq hI file_readableIndex h fun idx u hu => ?_
  have hlist : ∀ v, Ripe True bs v → wp anyFate idx.list (.returns fun _ v' => Ripe True bs v') v :=
    fun v hv => returns_ofFile hI file_list hv
  refine wp_returns_seq (wp_returns_wrapErr (returns_createBSST (Q := fun _ => Ripe True bs) hI
    (fun _ => hI) file_entries hlist hu)) fun x v hv => ?_
  obtain ⟨bss, extra⟩ := x
  dsimp only at hv ⊢
  refine returns_ofFile_seq hI file_saveMHList.wrapErr hv fun _ v hv => ?_
  refine returns_ofFile_seq hI file_lockIdx hv fun _ v hv => ?_
  refine returns_andThen ofFile_final ?_ file_unlockIdx
  refine returns_ofFile_seq hI file_mutHead.wrapErr hv fun _ v hv => ?_
  refine returns_ofFile_seq hI (file_swapIndex fun _ => ⟨_, _, _, _, rfl⟩) hv fun _ v hv => ?_
  -- the tree, with the lock let go
  rw [runIf, if_pos rfl, genTopUnlocked]
  refine returns_ofFile_seq hI file_unlockIdx hv fun _ v hv => ?_
  refine wp_returns_seq (wp_returns_attempt (returns_genTopCar hv)) fun r u hr => ?_
  cases r with
  | error e => exact wp_returns_after fun _ _ => trivial
  | ok a =>
    obtain ⟨d, t, htop, htreed⟩ := hr a rfl
    exact returns_ofFile_seq ofFile_final file_lockIdx
      ⟨d, t, htop, htreed, fun hst => absurd hst (by simp)⟩ fun _ _ hfinal => hfinal

/-- **Into the staging storage.** -/
theorem returns_finalizeStaged (h : Ripe True bs w) :
    wp anyFate (finalizeStaged false) (.returns fun _ w' => Final true bs w') w := by
  unfold finalizeStaged
  rw [runIf, if_pos rfl]
  refine wp_returns_seq (wp_returns_wrapErr (returns_genTopCar h)) fun _ u hu => ?_
  obtain ⟨d, t, htop, hu⟩ := hu
  have hI := ofFile_treed (t := t)
  refine returns_ofFile_seq hI file_readableIndex hu fun idx u hu => ?_
  refine returns_ofFile_seq hI file_entries.wrapErr hu fun ents u hu => ?_
  -- the index is of the whole CAR, or the rest is not reached
  have hlist : ∀ v, Treed t v → wp anyFate (listCar writeCarTo) (.returns fun l v' =>
      l.2.eof = true → l.2.read = t.car.length ∧ Treed t v') v := by
    intro v hv
    refine wp_returns_mono (returns_listCar hv) fun l v' hl heof => ?_
    obtain ⟨hlisted, hv', -⟩ := hl heof
    exact ⟨(read_of_listStream hlisted).1, hv'⟩
  have hQ : ∀ stat : StatRead, OfFile fun v => stat.eof = true →
      stat.read = t.car.length ∧ Treed t v := fun stat v v' hsame hv heof =>
    ⟨(hv heof).1, hI _ _ hsame (hv heof).2⟩
  refine wp_returns_seq (wp_returns_wrapErr (returns_createBSST (Q := fun stat v =>
    stat.eof = true → stat.read = t.car.length ∧ Treed t v) hI hQ .ret hlist hu)) fun x v hv => ?_
  obtain ⟨bss, stat⟩ := x
  dsimp only at hv ⊢
  refine wp_returns_seq (wp_returns_mono (R := fun _ v' => v' = v ∧ stat.eof = true)
    (wp_failIf.mpr ⟨fun _ => trivial, fun heof => ⟨rfl, by simpa using heof⟩⟩) fun _ _ => id) ?_
  rintro - _ ⟨rfl, heof⟩
  obtain ⟨hread, hv⟩ := hv heof
  refine returns_ofFile_seq hI file_saveMHList.wrapErr hv fun _ v hv => ?_
  -- the CAR is uploaded, with the size that was listed
  have hupload : wp anyFate (upload stat.read writeCarTo) (.returns fun _ v' =>
      Final true bs v') v := by
    refine wp_returns_seq (returns_capture hv) fun x u hx => ?_
    obtain ⟨out, r⟩ := x
    cases r with
    | error e => trivial
    | ok _ =>
      obtain ⟨hout, hu, -⟩ := hx.2 rfl
      refine wp_returns_step ⟨d, t, htop, ⟨{ hu.tree with }, hu.readStateLk⟩, fun _ => ?_⟩
      dsimp only at hout ⊢
      rw [hout, hread]
  refine wp_returns_seq (wp_returns_wrapErr hupload) fun _ v hv => ?_
  have hJ : OfFile (Final true bs) := ofFile_final
  refine returns_ofFile_seq hJ file_lockIdx hv fun _ v hv => ?_
  refine returns_andThen hJ ?_ file_unlockIdx
  refine returns_ofFile_seq hJ file_mutHead.wrapErr hv fun _ v hv => ?_
  exact returns_ofFile hJ (file_swapIndex fun _ => ⟨_, _, _, _, rfl⟩) hv

/-- **`Finalize`** of a log that was not finalized before. -/
theorem returns_finalize (h : Ripe True bs w) (hhead : ∀ hd, w.disk.head = some (some hd) →
    hd.finalized = false ∧ hd.layerOffsets = []) :
    wp anyFate finalize (.returns fun _ w' => Final w.jb.staging bs w') w := by
  have hI : OfFile (Ripe True bs) := ofFile_ripe
  rw [finalize_eq]
  have hlock : wp anyFate lockIdx (.returns fun _ u => ∃ lk, u = w.setLk lk) w := by
    unfold lockIdx
    rw [wp_get]
    exact wp_ite.mpr ⟨fun _ => ⟨_, rfl⟩, fun _ => trivial⟩
  refine wp_returns_seq hlock ?_
  rintro _ _ ⟨lk, rfl⟩
  rw [wp_get]
  refine wp_ite.mpr ⟨fun _ => wp_returns_after fun _ _ => trivial, fun _ => ?_⟩
  have hu : Ripe True bs (w.setLk lk) := hI w _ ⟨rfl, rfl, _, _, _, _, rfl⟩ h
  rw [wp_bind, wp_modifyJb]
  generalize hv : ({ w.setLk lk with
    jb := { (w.setLk lk).jb with finalizing := true } } : World) = v
  have hripe : Ripe True bs v := by
    rw [← hv]
    exact hI (w.setLk lk) _ ⟨rfl, rfl, _, _, _, _, rfl⟩ hu
  have hdisk : v.disk = w.disk := by
    rw [← hv]
    rfl
  unfold finalizeMarked
  rw [if_neg (by rw [hu.wIdx]; simp)]
  -- the head is that of a log that was not finalized
  have hread : wp anyFate
      (onErr (wrapErr "checking if finalized" (mutHead fun h => .ok h)) unlockIdx) (.returns fun hd v' => w.disk.head = some (some hd) ∧ Ripe True bs v') v := by
    have hmut : wp anyFate (wrapErr "checking if finalized" (mutHead fun h => .ok h))
        (.returns fun hd v' => w.disk.head = some (some hd) ∧ Ripe True bs v') v := by
      refine wp_returns_wrapErr (wp_mono (wp_and (wp_mutHead hripe.headOpen)
        (returns_ofFile hI file_mutHead hripe)) ?_ (fun _ _ _ => trivial) (fun _ _ => trivial)
        fun _ _ _ => trivial)
      rintro hd v' ⟨⟨hhd, -⟩, hv'⟩
      rw [hdisk] at hhd
      exact ⟨hhd, hv'⟩
    unfold onErr
    rw [wp_handle]
    exact wp_mono hmut (fun _ _ => id) (fun _ _ _ => wp_returns_after fun _ _ => trivial)
      (fun _ => id) fun _ _ => id
  refine wp_returns_seq hread ?_
  rintro hd v' ⟨hhd, hv'⟩
  obtain ⟨hfin, hlayers⟩ := hhead hd hhd
  rw [if_neg (by simp [hfin])]
  refine returns_ofFile_seq hI file_unlockIdx hv' fun _ u hu => ?_
  rw [hlayers]
  refine wp_ite.mpr ⟨fun hst => ?_, fun hst => ?_⟩
  · have hst' : w.jb.staging = true := hst
    rw [hst']
    exact returns_finalizeStaged hu
  · have hst' : w.jb.staging = false := Bool.eq_false_iff.mpr hst
    rw [hst']
    exact returns_finalizeLocal hu

end CarLog

/-! ## The canonical CAR -/

/-- **A `WriteCar` that emits the CAR of `t`**, with its size and its root,
and changes nothing else. It fails only when one of its steps does. -/
structure Exported (t : BlockTree d) (plan : List Fate) (w : World)
    (o : Outcome World Err (ℕ × Cid)) : Prop where
  ok : ∀ x w', o = .ok x w' → x = (t.car.length, t.root.1) ∧ w' = { w with out := w.out ++ t.car }
  err : ∀ e w', o = .err e w' → ∃ n, .fail n ∈ plan
  crash : ∀ w', o = .crash w' → .die ∈ plan
  fault : ∀ k w', o ≠ .fault k w'

/-- **`WriteCar`** of a log with its tree. -/
theorem Treed.exported (h : Treed t w) (plan : List Fate) :
    Exported t plan w (CarLog.writeCar.run w plan) := by
  have hsat := wp_sound (CarLog.well_writeCar (F := fun x => x ∈ plan)
    (E := Failing fun x => x ∈ plan) id h.tree h.readStateLk) (within_self plan)
  refine ⟨fun x w' hrun => ?_, fun e w' hrun => ?_, fun w' hrun => ?_, fun k w' hrun => ?_⟩
  · rw [hrun] at hsat
    exact ⟨hsat.1, hsat.2.eq⟩
  · rw [hrun] at hsat
    exact hsat
  · exact Prog.die_mem_of_run hrun
  · rw [hrun] at hsat
    exact hsat

section

variable {Is : Multihash → Bytes → Prop} {ts ss : List Piece}

/-- A log of entries that takes no writes is ripe. -/
theorem Readable.ripe (h : Readable True Is True ts ss w) (hsha : ∀ m d, Is m d → IsSha256 m)
    (hwIdx : w.jb.wIdx = none) (hlk : w.jb.readStateLk = false)
    (hne : headerBytes.length < w.jb.dataLen) : Ripe True (blocksOf ss) w := by
  have hstream := stream_blocksOf h.entire
  obtain ⟨j, f, b, ht⟩ := h.reads.tail
  refine ⟨⟨j, f, b, { ht with
      durable := ⟨List.nil_prefix, fun _ _ => List.nil_prefix⟩
      stream := by rw [hstream]; exact ht.stream
      eq := by rw [hstream]; exact ht.eq }⟩, hwIdx, by rw [hstream]; exact h.dataLen, h.dataStart,
    h.dataEnd, h.headOpen, hlk, Or.inl trivial, fun b hb => ?_, fun hnil => ?_⟩
  · obtain ⟨hb, -, hshort⟩ := h.handed hb
    exact ⟨hsha _ _ hb, hshort⟩
  · rw [h.dataLen, ← hstream, hnil, show pieces [] = [] from rfl, stream_nil] at hne
    exact absurd hne (lt_irrefl _)

end

end

section

open Encoding
open scoped Bsst.Encoding

/-- A SHA-256 multihash. -/
def sevens : Multihash := sha256Multihash ⟨List.replicate 32 7, rfl⟩

/-- A block is put and committed, and the log is to take no more. -/
def sealedOnce : List Event :=
  [.call (.create true) [], .call (.put [sevens] [[7]]) [], .call .commit [],
    .call .markReadOnly []]

theorem handed_sealed {m : Multihash} {d : Bytes} (h : Handed sealedOnce m d) :
    m = sevens ∧ d = [7] := by
  obtain ⟨c, b, plan, hmem, hx⟩ := h
  simp only [sealedOnce, List.mem_cons, Event.call.injEq, Cmd.put.injEq, reduceCtorEq, false_and,
    false_or, or_false, List.not_mem_nil] at hmem
  obtain ⟨⟨rfl, rfl⟩, -⟩ := hmem
  simpa using hx

theorem orderly_sealed : (Sys.start .empty).Always (Orderly anyFate) sealedOnce := by
  have hvalid : ValidMultihash sevens := validMultihash_of_isSha256 ⟨_, rfl⟩
  have hfits : Fits [sevens] [[7]] := by
    intro x hx
    obtain rfl : x = (sevens, [7]) := by simpa using hx
    exact ⟨hvalid, by decide +kernel⟩
  refine ⟨.of_call (by decide +kernel) trivial within_nil (by simp) (by simp),
    .of_call (by decide +kernel) trivial within_nil ?_ (by simp),
    .of_call (by decide +kernel) trivial within_nil (by simp) (fun _ _ => by decide +kernel),
    .of_call (by decide +kernel) trivial within_nil (by simp) (by simp), trivial⟩
  rintro c b ⟨⟩
  exact hfits

theorem mended_sealed : (Sys.start .empty).Always Mended sealedOnce := by
  refine ⟨?_, ?_, ?_, ?_, trivial⟩
  · rintro staging tc plan ⟨⟩
  · rintro staging tc plan ⟨⟩
  · rintro staging tc plan ⟨⟩
  · rintro staging tc plan ⟨⟩

/-- The log, finalized. -/
def finalizedOnce : World :=
  (CarLog.finalize.run ((Sys.start .empty).run sealedOnce).world []).state

end

end Carlog

end Ribs
