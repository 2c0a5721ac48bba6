import Ribs.Carlog.Walk
import Ribs.Common.Mild
/-!
# Carlog — a `Put` that stops part-way

`Put` appends block by block, and writes the index behind them, so one that
fails has appended a beginning of its batch. How long the log was when a
step failed tells which beginning it is: `FailsAt P` lets steps fail where
the length of the log has `P`. The other ways to stop are a block that is
too large, and a buffer that a failed write has stopped before.
-/

namespace Ribs

open Common

namespace Carlog

variable {α : Type}

/-- Steps fail where the length of the log has `P`. -/
def FailsAt (P : ℕ → Prop) (w _ : World) : Prop := P w.jb.dataLen

/-- No write of the buffer has failed. -/
def Unstuck (w : World) : Prop := ∀ b, w.jb.dataBuffered = some b → b.err = none

/-- A block too large for an entry comes next. -/
def TooLarge (ps es : List Piece) : Prop :=
  ∃ m d rest, ps = es ++ .entry m d :: rest ∧ maxEntryLen < d.length

namespace CarLog

variable {F : Fates} {w : World} {n : ℕ}

/-! ## The buffer -/

theorem wp_writeOut_unstuck {p : Bytes} {keep : ℕ → Bytes} :
    wp F (writeOut p keep) (.returns fun _ w' => Unstuck w') w := by
  simp only [writeOut, wp_get]
  split_ifs
  · exact ⟨fun b hb => Option.some.inj hb ▸ rfl, fun _ _ => trivial, fun _ => trivial⟩
  · trivial

theorem unstuck_setBuffered {buf : Bytes} : Unstuck (setBuffered ⟨buf, none⟩ w) :=
  fun _ hb => Option.some.inj hb ▸ rfl

/-- **What was buffered** was not behind a failed write. -/
theorem wp_bufWrite_unstuck {p : Bytes} :
    wp F (bufWrite p) (.returns fun _ w' => Unstuck w') w := by
  simp only [bufWrite, wp_get]
  split
  · trivial
  · trivial
  · split_ifs
    · exact unstuck_setBuffered
    · exact wp_writeOut_unstuck
    · refine wp_returns_seq (R := fun _ _ => True) trivial fun _ t _ => ?_
      refine wp_returns_seq (R := fun _ _ => True) wp_trivial fun _ u _ => ?_
      exact unstuck_setBuffered
    · refine wp_returns_seq (R := fun _ _ => True) trivial fun _ t _ => ?_
      exact wp_returns_seq (R := fun _ _ => True) wp_trivial fun _ u _ => wp_writeOut_unstuck

/-- The parts of an entry. -/
theorem wp_forM_bufWrite_unstuck {d : List Bytes} (hw : Unstuck w) :
    wp F (d.forM bufWrite) (.returns fun _ w' => Unstuck w') w := by
  induction d generalizing w with
  | nil => exact hw
  | cons p d ih => exact wp_returns_seq wp_bufWrite_unstuck fun _ _ => ih

theorem wp_ldWrite_unstuck {d : List Bytes} :
    wp F (ldWrite d) (.returns fun _ w' => Unstuck w') w := by
  unfold ldWrite
  refine wp_returns_seq wp_bufWrite_unstuck fun _ t ht => ?_
  exact wp_returns_seq (wp_forM_bufWrite_unstuck ht) fun _ _ hu => hu

/-- Appending a block. -/
theorem wp_putBlock_unstuck [External] {m : Multihash} {blk : Bytes} :
    wp F (putBlock m blk) (.returns fun _ w' => Unstuck w') w := by
  unfold putBlock
  refine wp_returns_seq (wp_returns_handle wp_ldWrite_unstuck) fun n t ht => ?_
  rw [wp_get]
  cases t.jb.writeLru with
  | none => trivial
  | some l => exact ht

end CarLog

section

variable [X : External] {G : Piece → Prop} {E E' exact : Prop} {P : ℕ → Prop} {ts ss : List Piece}
  {w : World}

theorem Live.unstuck (h : Live G False exact ts ss w) : Unstuck w := by
  obtain ⟨j, f, b, ht⟩ := h.tail
  intro b' hb'
  obtain rfl : b = b' := Option.some.inj (ht.buffered.symm.trans hb')
  exact not_not.mp ht.err

theorem Live.of_unstuck (h : Live G E exact ts ss w) (hw : Unstuck w) :
    Live G E' exact ts ss w := by
  obtain ⟨j, f, b, ht⟩ := h.tail
  exact { h with tail := ⟨j, f, b, { ht with err := fun herr => absurd (hw b ht.buffered) herr }⟩ }

/-- **How a `Put` stops** behind the pieces `es` of those it is to append:
before it takes a step, at a step that may fail, or at a block that is too
large. -/
structure Stopped (P : ℕ → Prop) (w : World) (c : List Multihash) (b : List Bytes)
    (ss ps es : List Piece) : Prop where
  le : es <+: ps
  why : es = [] ∧ (c.length ≠ b.length ∨ ¬ Unstuck w) ∨ P (stream (ss ++ es)).length ∨
    TooLarge ps es

namespace CarLog

/-! ## Appending -/

/-- **Appending a block**: a step fails only where it may. -/
theorem wpMild_putBlock (h : Live G False exact ts ss w) {m : Multihash} {blk : Bytes}
    (hG : G (.entry m blk)) : wpMild (FailsAt P) (putBlock m blk)
      ⟨fun v w' => EntryIn (ss ++ [.entry m blk]) m blk v ∧ AppendOnly w w' ∧
          Live G False exact ts (ss ++ [.entry m blk]) w',
        fun _ w' => P (stream ss).length ∧ AppendOnly w w' ∧ Live G True False ts ss w',
        fun _ => True, fun _ _ => False⟩ w := by
  by_cases hP : P (stream ss).length
  · have hlive : Live G True exact ts ss w := h.of_unstuck h.unstuck
    have hput := wp_and (wp_putBlock (F := anyFate) (fun _ => trivial) hlive hG)
      wp_putBlock_unstuck
    refine wpMild_mono (wpMild_of_wp hput) ?_ ?_ (fun _ _ => trivial) fun _ _ => And.left
    · rintro v w' ⟨⟨hv, happ, hlive'⟩, hun⟩
      exact ⟨hv, happ, hlive'.of_unstuck hun⟩
    · rintro e w' ⟨⟨-, happ, hlive'⟩, -⟩
      exact ⟨hP, happ, hlive'⟩
  · have hcalm : Failing mortal → False := fun ⟨_, hn⟩ => by simp [mortal] at hn
    refine wpMild_mono (wpMild_of_mortal (wp_putBlock hcalm h hG) fun t _ ht => ?_) (fun _ _ => id)
      (fun _ _ h => h.1.elim) (fun _ _ => trivial) fun _ _ => id
    rwa [FailsAt, ht.2.1, h.dataLen]

omit X in
theorem wpMild_failIf {c : Prop} [Decidable c] {e : Err} {C : World → World → Prop}
    {Q : Post World Err Unit} :
    wpMild C (failIf c e) Q w ↔ (c → Q.err e w) ∧ (¬ c → Q.ok () w) := by
  unfold failIf
  by_cases hc : c
  · rw [if_pos hc, wpMild_throw]
    simp [hc]
  · rw [if_neg hc, wpMild_ret]
    simp [hc]

/-- **The loop of `Put`**, where a step fails only where it may. -/
theorem wpMild_putBlocks (l : List (Multihash × Bytes × Bool)) {exact : Prop} {ss : List Piece}
    {w : World} (h : Live G False exact ts ss w) (hG : Fitting G (newEntries l)) :
    wpMild (FailsAt P) (putBlocks l)
      ⟨fun offs w' => List.Forall₂ (Placed (ss ++ newEntries l)) l offs ∧ AppendOnly w w' ∧
          Live G False exact ts (ss ++ newEntries l) w',
        fun _ w' => AppendOnly w w' ∧ ∃ es, es <+: newEntries l ∧
          (P (stream (ss ++ es)).length ∨ TooLarge (newEntries l) es) ∧
          Live G True False ts (ss ++ es) w',
        fun _ => True, fun _ _ => False⟩ w := by
  induction l generalizing ss w with
  | nil => exact ⟨.nil, .refl w, by simpa [newEntries] using h⟩
  | cons e l ih =>
    obtain ⟨m, blk, _ | _⟩ := e
    · have hnew : newEntries ((m, blk, false) :: l) = .entry m blk :: newEntries l := rfl
      rw [hnew] at hG ⊢
      have hGl : Fitting G (newEntries l) := fun m d hd => hG m d (List.mem_cons_of_mem _ hd)
      rw [putBlocks, if_neg (by simp), wpMild_bind, wpMild_failIf]
      refine ⟨fun hlarge => ?_, fun hfits => ?_⟩
      -- a block that is too large: nothing of it is written
      · refine ⟨.refl _, [], List.nil_prefix, Or.inr ⟨m, blk, newEntries l, rfl, hlarge⟩, ?_⟩
        have hlive : Live G True exact ts ss _ := h.of_unstuck h.unstuck
        simpa using hlive.inexact
      rw [not_lt] at hfits
      have hGe := hG m blk List.mem_cons_self hfits
      change wpMild (FailsAt P) (putBlock m blk >>= fun offset => putBlocks l >>= fun offsets =>
        pure (offset :: offsets)) _ _
      rw [wpMild_bind]
      refine wpMild_mono (wpMild_putBlock h hGe) ?_ ?_ (fun _ _ => trivial) fun _ _ => id
      · rintro v w' ⟨hplace, happ, hlive⟩
        have hcons : ss ++ [.entry m blk] ++ newEntries l = ss ++ .entry m blk :: newEntries l := by
          simp
        change wpMild (FailsAt P) (putBlocks l >>= fun offsets => pure (v :: offsets)) _ _
        rw [wpMild_bind]
        refine wpMild_mono (ih hlive hGl) ?_ ?_ (fun _ _ => trivial) fun _ _ => id
        · rintro offs w'' ⟨hplaced, happ', hlive'⟩
          rw [hcons] at hplaced hlive'
          refine And.intro (.cons ?_ hplaced) ⟨happ.trans happ', hlive'⟩
          have := hplace.append (newEntries l)
          rwa [hcons] at this
        · rintro x w'' ⟨happ', es, hes, hwhy, hlive'⟩
          refine ⟨happ.trans happ', .entry m blk :: es, List.prefix_cons_inj _ |>.mpr hes, ?_,
            by simpa using hlive'⟩
          rcases hwhy with hP | ⟨m', d, rest, hrest, hlarge⟩
          · exact Or.inl (by simpa using hP)
          · exact Or.inr ⟨m', d, rest, by rw [hrest]; rfl, hlarge⟩
      · rintro x w' ⟨hP, happ, hlive⟩
        exact ⟨happ, [], List.nil_prefix, Or.inl (by simpa using hP), by simpa using hlive⟩
    -- the index has the block already
    · have hnew : newEntries ((m, blk, true) :: l) = newEntries l := rfl
      rw [hnew] at hG ⊢
      rw [putBlocks, if_pos rfl, wpMild_bind]
      refine wpMild_mono (ih h hG) ?_ (fun _ _ => id) (fun _ => id) fun _ _ => id
      rintro offs w' ⟨hplaced, happ, hlive⟩
      exact And.intro (.cons rfl hplaced) ⟨happ, hlive⟩

omit X in
/-- **Behind a failed write** nothing is buffered. -/
theorem wp_ldWrite_stuck {F : Fates} {b : BufWriter} (hb : w.jb.dataBuffered = some b)
    (hstuck : b.err ≠ none) {d : List Bytes} : wp F (ldWrite d)
      ⟨fun _ _ => False, fun _ w' => w' = w, fun w' => w' = w, fun _ _ => False⟩ w := by
  obtain ⟨buf, _ | e⟩ := b
  · exact absurd rfl hstuck
  · simp only [ldWrite, wp_bind, bufWrite, wp_get, hb, wp_throw]

/-- The loop of `Put` then appends nothing. -/
theorem wp_putBlocks_stuck {F : Fates} {b : BufWriter} (hb : w.jb.dataBuffered = some b)
    (hstuck : b.err ≠ none) (l : List (Multihash × Bytes × Bool)) : wp F (putBlocks l)
      ⟨fun offs w' => w' = w ∧ newEntries l = [] ∧ List.Forall₂ (Placed ss) l offs,
        fun _ w' => w' = w, fun w' => w' = w, fun _ _ => False⟩ w := by
  induction l with
  | nil => exact ⟨rfl, rfl, .nil⟩
  | cons e l ih =>
    obtain ⟨m, blk, _ | _⟩ := e
    · rw [putBlocks, if_neg (by simp), wp_bind, wp_failIf]
      refine ⟨fun _ => rfl, fun _ => ?_⟩
      refine wp_seq (R := ⟨fun _ _ => False, fun _ w' => w' = w, fun w' => w' = w,
        fun _ _ => False⟩) ?_ (fun _ _ => False.elim) (fun _ _ => id) (fun _ => id) fun _ _ => id
      unfold putBlock
      rw [wp_get, wp_bind, wp_wrapErr]
      exact wp_mono (wp_ldWrite_stuck hb hstuck) (fun _ _ => False.elim) (fun _ _ => id)
        (fun _ => id) fun _ _ => id
    · rw [putBlocks, if_pos rfl]
      refine wp_seq ih ?_ (fun _ _ => id) (fun _ => id) fun _ _ => id
      rintro offs _ ⟨rfl, hnil, hplaced⟩
      exact ⟨rfl, hnil, .cons rfl hplaced⟩

omit X in
/-- **Under the index lock, held for reading.** -/
theorem wpMild_rLocked {α : Type} {C : World → World → Prop} {m : Op α} {Q : Post World Err α}
    (hblocked : Q.fault .blocked w)
    (hm : wpMild C m
      ⟨fun a u => u.jb.idxLk = ⟨false, w.jb.idxLk.readers + 1⟩ ∧ Q.ok a (u.setLk w.jb.idxLk),
        fun e u => u.jb.idxLk = ⟨false, w.jb.idxLk.readers + 1⟩ ∧ Q.err e (u.setLk w.jb.idxLk),
        Q.crash, Q.fault⟩ (w.setLk ⟨false, w.jb.idxLk.readers + 1⟩)) :
    wpMild C (rLockIdx >>= fun _ => m.andThen rUnlockIdx) Q w := by
  rw [wpMild_bind, rLockIdx, wpMild_get]
  split_ifs with hlk
  · exact hblocked
  have heq : w.jb.idxLk = ⟨false, w.jb.idxLk.readers⟩ := by
    rw [← show w.jb.idxLk.writer = false by simpa using hlk]
  have hunlock : ∀ (R : Post World Err Unit) (u : World),
      u.jb.idxLk = ⟨false, w.jb.idxLk.readers + 1⟩ → R.ok () (u.setLk w.jb.idxLk) →
      wpMild C rUnlockIdx R u := fun R u hu hR => by
    rw [rUnlockIdx, wpMild_get, hu, if_neg (Nat.add_one_ne_zero _)]
    change R.ok () (u.setLk { u.jb.idxLk with readers := u.jb.idxLk.readers - 1 })
    rw [hu]
    simp only [Nat.add_sub_cancel, ← heq]
    exact hR
  change wpMild C (m.andThen rUnlockIdx) Q (w.setLk ⟨false, w.jb.idxLk.readers + 1⟩)
  rw [wpMild_andThen]
  refine wpMild_mono hm ?_ ?_ (fun _ => id) fun _ _ => id
  · rintro a u ⟨hu, hok⟩
    exact hunlock _ u hu hok
  · rintro e u ⟨hu, herr⟩
    exact hunlock _ u hu herr

/-- The loop of `Put`, from any log that is open for writing. -/
theorem wpMild_putBlocks_live (l : List (Multihash × Bytes × Bool))
    (h : Live G True exact ts ss w) (hG : Fitting G (newEntries l)) :
    wpMild (FailsAt P) (putBlocks l)
      ⟨fun offs w' => List.Forall₂ (Placed (ss ++ newEntries l)) l offs ∧ AppendOnly w w' ∧
          Live G True exact ts (ss ++ newEntries l) w',
        fun _ w' => AppendOnly w w' ∧ ∃ es, es <+: newEntries l ∧
          (es = [] ∧ ¬ Unstuck w ∨ P (stream (ss ++ es)).length ∨ TooLarge (newEntries l) es) ∧
          Live G True False ts (ss ++ es) w',
        fun _ => True, fun _ _ => False⟩ w := by
  by_cases hun : Unstuck w
  · refine wpMild_mono (wpMild_putBlocks l (h.of_unstuck hun) hG) ?_ ?_ (fun _ => id) fun _ _ => id
    · rintro offs w' ⟨hplaced, happ, hlive⟩
      exact ⟨hplaced, happ, hlive.of_unstuck hlive.unstuck⟩
    · rintro e w' ⟨happ, es, hes, hwhy, hlive⟩
      exact ⟨happ, es, hes, Or.inr hwhy, hlive⟩
  · obtain ⟨b, hb, hstuck⟩ : ∃ b, w.jb.dataBuffered = some b ∧ b.err ≠ none := by
      unfold Unstuck at hun
      push Not at hun
      exact hun
    have hstays := @wp_putBlocks_stuck X ss w anyFate b hb hstuck l
    refine wpMild_mono (wpMild_of_wp hstays) ?_ ?_ (fun _ _ => trivial) fun _ _ => id
    · rintro offs _ ⟨rfl, hnil, hplaced⟩
      rw [hnil, List.append_nil]
      exact ⟨hplaced, .refl _, h⟩
    · rintro e _ rfl
      exact ⟨.refl _, [], List.nil_prefix, Or.inl ⟨rfl, hun⟩, by simpa using h.inexact⟩

/-- What a `Put` that fails has done, where its steps fail only where the
log's length has `P`. -/
def PutStopped (G : Piece → Prop) (P : ℕ → Prop) (ts ss : List Piece) (c : List Multihash)
    (b : List Bytes) (w w' : World) : Prop :=
  ∃ j es, w.disk.levelIndex = some j ∧ Stopped P w c b ss (freshEntries j.current c b) es ∧
    Live G True False ts (ss ++ es) w'

theorem wpMild_putLocked (h : Live G True exact ts ss w) {c : List Multihash} {b : List Bytes}
    (hput : PutOk G w c b) : wpMild (FailsAt P) (putLocked c b)
      ⟨fun _ w' => ∃ j t', PutDone G True exact ts ss c b w w' j t',
        fun _ w' => AppendOnly w w' ∧ PutStopped G P ts ss c b w w',
        fun _ => True, fun _ _ => False⟩ w := by
  obtain ⟨j, hj, hok⟩ := h.index
  obtain ⟨i, hi⟩ := h.rIdx
  have hnil : Live G True False ts (ss ++ []) w := by simpa using h.inexact
  have hsome : w.jb.wIdx.isNone = false := by
    rw [Option.isNone_eq_false_iff]
    exact h.wIdx
  unfold putLocked
  simp only [wpMild_get, wpMild_bind, wpMild_failIf, hsome]
  refine ⟨fun h => absurd h (by simp), fun _ => ⟨fun hlen => ⟨.refl w, j, [], hj,
    ⟨List.nil_prefix, Or.inl ⟨rfl, Or.inl hlen⟩⟩, hnil⟩, fun hlen => ?_⟩⟩
  have hlen : c.length = b.length := not_not.mp hlen
  have hgood := hput j hj
  rw [← newEntries_zip] at hgood
  simp only [readableIndex, wpMild_get, hi, deref, wpMild_ret, ReadableIndex.has, LevelDBIndex.has,
    LevelDBIndex.contents, wpMild_bind, ioRead, wpMild_step, id, hj, wpMild_pure]
  refine ⟨?_, fun hP => ⟨.refl w, j, [], hj, ⟨List.nil_prefix, Or.inr (Or.inl ?_)⟩, hnil⟩, trivial⟩
  swap
  · rw [List.append_nil, ← h.dataLen]
    exact hP
  refine wpMild_mono (wpMild_putBlocks_live _ h hgood) ?_ ?_ (fun _ => id) fun _ _ => id
  · rintro offs u ⟨hplaced, happ, hlive⟩
    rw [newEntries_zip] at hplaced hlive
    change wpMild (FailsAt P) (wrapErr "updating index" (ioWrite _)) _ u
    rw [wrapErr, wpMild_handle, ioWrite, wpMild_step]
    refine ⟨⟨j, _, putDone_of_placed hj hok hlen happ hplaced hlive⟩, fun hP => ?_, trivial⟩
    refine ⟨happ, j, _, hj, ⟨List.prefix_rfl, Or.inr (Or.inl ?_)⟩, hlive.inexact⟩
    rw [← hlive.dataLen]
    exact hP
  · rintro x w' ⟨happ, es, hes, hwhy, hlive⟩
    rw [newEntries_zip] at hes hwhy
    refine ⟨happ, j, es, hj, ⟨hes, ?_⟩, hlive⟩
    exact hwhy.imp (fun h => ⟨h.1, Or.inr h.2⟩) id

/-- **`Put`**, where its steps fail only where the log's length has `P`. -/
theorem wpMild_put (h : Live G True exact ts ss w) {c : List Multihash} {b : List Bytes}
    (hput : PutOk G w c b) : wpMild (FailsAt P) (put c b)
      ⟨fun _ w' => ∃ j t', PutDone G True exact ts ss c b w w' j t',
        fun _ w' => w'.disk.levelIndex = w.disk.levelIndex ∧ PutStopped G P ts ss c b w w',
        fun _ => True, fun _ w' => w' = w⟩ w := by
  refine wpMild_rLocked rfl ?_
  refine wpMild_mono (wpMild_putLocked (h.setLk _) hput) ?_ ?_ (fun _ => id) fun _ _ => False.elim
  · rintro - w' ⟨j, t', hdone⟩
    obtain ⟨u, ⟨_, _, _, _, _, _, rfl⟩, rfl⟩ := hdone.after
    exact ⟨rfl, j, t', hdone.before, ⟨_, ⟨_, _, _, _, _, _, rfl⟩, rfl⟩, hdone.lengths,
      hdone.live.setLk _, hdone.batched⟩
  · rintro e w' ⟨happ, j, es, hj, hstopped, hlive⟩
    obtain ⟨_, _, _, _, _, _, rfl⟩ := happ
    exact ⟨rfl, rfl, j, es, hj, ⟨hstopped.le, hstopped.why⟩, hlive.setLk _⟩

end CarLog

end

end Carlog

end Ribs
