import Ribs.Carlog.Encoding
import Ribs.Common.Sim
import Ribs.Rbstor.Lifecycle
/-!
# Rbstor — the flag and the state

`View` asks the flag, all other operations ask the state, and the two are
set apart from each other. They agree in every run in which `offload` is
not refused and no reload is brought to its end: a refused offload leaves
its flag behind, and the end of a reload does not take it back.
-/

namespace Ribs

open Common

namespace Rbstor

open Carlog (Block)

variable {α : Type} {g : GroupKey} {r r' : Rbs} {l : Life} {st st' : GroupState}

/-- The state of the group in memory. -/
def stateOf (g : GroupKey) (r : Rbs) : Option GroupState := (r.openGroups g).map Group.state

/-- The group in memory has the state it had. -/
def SameState (g : GroupKey) (r r' : Rbs) : Prop := stateOf g r' = stateOf g r

instance : IsPreorder Rbs (SameState g) where
  refl _ := rfl
  trans _ _ _ h h' := h'.trans h

/-- The state is as it was, or went from `st` to `st'`. -/
def Moves (st st' : GroupState) (g : GroupKey) (r r' : Rbs) : Prop :=
  SameState g r r' ∨ stateOf g r = some st ∧ stateOf g r' = some st'

/-! ## What the state is not touched by -/

theorem same_failIf {c : Prop} [Decidable c] {e : Err} : Respects (SameState g) (failIf c e) :=
  .ite (fun _ => .throw) fun _ => .ret

theorem same_wrapErr {s : String} {m : Op α} (h : Respects (SameState g) m) :
    Respects (SameState g) (wrapErr s m) := h.handle fun _ => .throw

/-- Whatever a log does. -/
theorem same_onLog {k : GroupKey} {m : Carlog.Op α} : Respects (SameState g) (onLog k m) :=
  .zoom (fun _ _ => by simp [setLog]) (fun _ _ _ => by simp [setLog])
    (fun _ => by simp [setLog]) (fun _ _ _ => rfl) respects_anywhere

theorem same_getGroup {k : GroupKey} : Respects (SameState g) (getGroup k) :=
  .get fun r => by
    cases r.openGroups k with
    | none => exact .fault
    | some grp => exact .ret

/-- A group that keeps its state. -/
theorem same_setGroup {grp grp' : Group} (h : r.openGroups g = some grp)
    (hst : grp'.state = grp.state) : SameState g r (setGroup g grp' r) := by
  simp only [SameState, stateOf, setGroup, Function.update_self, h, Option.map_some, hst]

theorem stateOf_setGroup {grp : Group} : stateOf g (setGroup g grp r) = some grp.state := by
  simp only [stateOf, setGroup, Function.update_self, Option.map_some]

/-- What follows the look-up of a group. -/
theorem wp_getGroup_bind {f : Group → Op α} {Q : Post Rbs Err α} (hnone : Q.fault .panic r)
    (hsome : ∀ grp, r.openGroups g = some grp → wp anyFate (f grp) Q r) :
    wp anyFate (getGroup g >>= f) Q r := by
  rw [wp_bind]
  unfold getGroup
  rw [wp]
  cases h : r.openGroups g with
  | none => exact hnone
  | some grp => exact hsome grp h

theorem wp_getGroup_some {f : Group → Op α} {Q : Post Rbs Err α} (hopen : stateOf g r ≠ none)
    (hsome : ∀ grp, r.openGroups g = some grp → wp anyFate (f grp) Q r) :
    wp anyFate (getGroup g >>= f) Q r := by
  unfold stateOf at hopen
  rw [wp_bind]
  unfold getGroup
  rw [wp]
  cases h : r.openGroups g with
  | none =>
    rw [h] at hopen
    exact absurd rfl hopen
  | some grp => exact hsome grp h

theorem same_modifyGroup {f : Group → Group} (hf : ∀ grp, (f grp).state = grp.state) :
    Respects (SameState g) (modifyGroup g f) := fun _ =>
  wp_getGroup_bind rfl fun grp h => same_setGroup h (hf grp)

theorem same_sync : Respects (SameState g) (Group.sync g) := by
  refine (same_wrapErr same_onLog).bind fun at_ => ?_
  refine (same_modifyGroup fun grp => by rfl).bind fun _ => ?_
  exact same_getGroup.bind fun grp => same_wrapErr (.step fun _ => by rfl)

/-- The check of the state. -/
theorem wp_failUnless {s : String} {Q : Post Rbs Err Unit} (hpanic : Q.fault .panic r)
    (herr : Q.err (.text s) r) (hok : stateOf g r = some st → Q.ok () r) :
    wp anyFate (Group.failUnless g st s) Q r := by
  refine wp_getGroup_bind hpanic fun grp hgrp => ?_
  unfold failIf
  split_ifs with hstate
  · exact herr
  · refine hok ?_
    unfold stateOf
    rw [hgrp, Option.map_some, Decidable.not_not.mp hstate]

theorem wp_setState {Q : Post Rbs Err Unit} (hpanic : Q.fault .panic r)
    (hok : ∀ r', stateOf g r' = some st → Q.ok () r') :
    wp anyFate (Group.setState g st) Q r :=
  wp_getGroup_bind hpanic fun _ _ => hok _ stateOf_setGroup

/-- The state is advanced, whether or not the one in the database is. -/
theorem wp_advanceState (hopen : stateOf g r ≠ none) :
    wp anyFate (Group.advanceState g st) (.always fun r' => stateOf g r' = some st) r := by
  unfold Group.advanceState
  rw [wp_bind]
  refine wp_getGroup_some hopen fun grp _ => ?_
  have hdb : Respects (SameState g) (Group.setGroupState g st) := .step fun _ => rfl
  exact wp_always_mono (hdb _) fun _ hsame => hsame.trans stateOf_setGroup

theorem wp_advanceState_moves (hold : stateOf g r = some st) (hr : SameState g r r') :
    wp anyFate (Group.advanceState g st') (.always (Moves st st' g r)) r' := by
  refine wp_always_mono (wp_advanceState ?_) fun _ hst => Or.inr ⟨hold, hst⟩
  rw [show stateOf g r' = stateOf g r from hr, hold]
  exact Option.some_ne_none st

theorem wp_wrapErr_always {s : String} {m : Op α} {Q : Rbs → Prop}
    (h : wp anyFate m (.always Q) r) : wp anyFate (wrapErr s m) (.always Q) r := by
  unfold wrapErr
  rw [wp_handle]
  exact h

/-! ## With the flag -/

/-- Neither the state nor the flag has changed. -/
def SameLife (g : GroupKey) (l l' : Life) : Prop :=
  l'.offloaded = l.offloaded ∧ SameState g l.rbs l'.rbs

instance : IsPreorder Life (SameLife g) where
  refl _ := ⟨rfl, rfl⟩
  trans _ _ _ h h' := ⟨h'.1.trans h.1, h'.2.trans h.2⟩

/-- The flag is as it was, and the state as it was or as it is now to be. -/
def MovesLife (st st' : GroupState) (g : GroupKey) (l l' : Life) : Prop :=
  l'.offloaded = l.offloaded ∧ Moves st st' g l.rbs l'.rbs

theorem wp_onRbs {m : Op α} {Q : Post Life Err α}
    (h : wp anyFate m ⟨fun a r => Q.ok a (setRbs r l), fun e r => Q.err e (setRbs r l),
      fun r => Q.crash (setRbs r l), fun k r => Q.fault k (setRbs r l)⟩ l.rbs) :
    wp anyFate (onRbs m) Q l :=
  wp_zoom (fun _ _ => rfl) (fun _ _ _ => rfl) (fun _ => rfl) h

theorem wp_onRbs_always {m : Op α} {Q : Life → Prop}
    (h : wp anyFate m (.always fun r => Q (setRbs r l)) l.rbs) :
    wp anyFate (onRbs m) (.always Q) l := wp_onRbs h

theorem moves_onRbs {m : Op α} (h : Respects (Moves st st' g) m) :
    Respects (MovesLife st st' g) (onRbs m) := fun l =>
  wp_onRbs_always (wp_always_mono (h l.rbs) fun _ hr => ⟨rfl, hr⟩)

theorem same_onRbs {m : Op α} (h : Respects (SameState g) m) :
    Respects (SameLife g) (onRbs m) := fun l =>
  wp_onRbs_always (wp_always_mono (h l.rbs) fun _ hr => ⟨rfl, hr⟩)

theorem SameLife.moves {l' : Life} (h : SameLife g l l') : MovesLife st st' g l l' :=
  ⟨h.1, Or.inl h.2⟩

theorem same_groupMeta : Respects (SameLife g) (Group.groupMeta g) := by
  refine (same_onRbs (.step fun _ => by rfl)).bind fun _ => .get fun l => ?_
  split
  · exact .throw
  · exact .ret

theorem same_failUnless {s : String} : Respects (SameState g) (Group.failUnless g st s) :=
  same_getGroup.bind fun _ => same_failIf

section

variable [X : Carlog.External]

theorem same_write {b : List Block} : Respects (SameState g) (Group.write g b) := by
  have hput : Respects (SameState g) (Group.putLog g b) :=
    (same_wrapErr same_onLog).bind fun _ => .modify fun _ => by rfl
  have hadd : Respects (SameState g) (Group.addIndex g b) := .get fun r => by
    split
    · exact .fault
    · exact same_wrapErr (.step fun _ => by rfl)
  refine hput.attempt.bind fun put => hadd.attempt.bind fun add => ?_
  split
  · exact .throw
  · exact .throw
  · exact .ret

/-! ## Puts -/

theorem moves_put {b : List Block} : Respects (Moves .writable .full g) (Group.put g b) := by
  intro r
  unfold Group.put
  split_ifs
  · exact Or.inl rfl
  refine wp_getGroup_bind (Or.inl rfl) fun grp hgrp => ?_
  by_cases hstate : grp.state ≠ .writable
  · rw [if_pos hstate]
    exact Or.inl rfl
  rw [if_neg hstate, wp_bind, wp_modify]
  -- the reservation may fill the group; what follows leaves the state alone
  have hwritable : grp.state = .writable := Decidable.not_not.mp hstate
  have hold : stateOf g r = some .writable := by
    unfold stateOf
    rw [hgrp, Option.map_some, hwritable]
  have hreserved : Moves .writable .full g r (setGroup g (grp.reserved b) r) := by
    by_cases hfits : (grp.space b).2 < b.length
    · refine Or.inr ⟨hold, ?_⟩
      rw [stateOf_setGroup]
      exact congrArg some (if_pos hfits)
    · exact Or.inl (same_setGroup hgrp (if_neg hfits))
  have hrest : Respects (SameState g) (do
      Group.write g (b.take (grp.space b).2)
      if (grp.reserved b).state = .full then do
        Group.retire g
        return (grp.space b).2
      else .ret (grp.space b).2) := by
    refine same_write.bind fun _ => .ite (fun _ => ?_) fun _ => .ret
    exact ((same_wrapErr same_sync).bind fun _ => same_wrapErr same_onLog).bind fun _ => .pure
  refine wp_always_mono (hrest _) fun r' hsame => ?_
  rcases hreserved with h | ⟨h, h'⟩
  · exact Or.inl (hsame.trans h)
  · exact Or.inr ⟨h, hsame.trans h'⟩

/-! ## Operations that advance the state -/

theorem moves_finalize : Respects (Moves .full .vrcarDone g) (Group.finalize g) := by
  intro r
  refine (wp_bind).mpr (wp_failUnless (Or.inl rfl) (Or.inl rfl) fun hold => ?_)
  refine wp_always_bind (same_onLog.handle (fun e => ?_) r) (fun _ => Or.inl) fun _ r' hr => ?_
  · split
    · exact .ret
    · exact .throw
  refine wp_always_bind ((same_wrapErr same_onLog).wp_of hr) (fun _ => Or.inl) fun _ r'' hr' => ?_
  exact wp_wrapErr_always (wp_advanceState_moves hold hr')

omit X in
theorem moves_loadFilCar {car : Bytes} {sz : ℕ} :
    Respects (Moves .offloaded .reload g) (Group.loadFilCar g car sz) := by
  intro r
  refine (wp_bind).mpr (wp_failUnless (Or.inl rfl) (Or.inl rfl) fun hold => ?_)
  refine wp_always_bind (same_wrapErr same_onLog r) (fun _ => Or.inl) fun _ r' hr => ?_
  exact wp_wrapErr_always (wp_advanceState_moves hold hr)

omit X in
/-- An offload that is refused changes nothing; the state of another one is
always set. -/
theorem wp_offloadLog : wp anyFate (Group.offloadLog g) (.always fun r' =>
    if stateOf g r = some .localReadyForDeals then stateOf g r' = some .offloaded
    else SameState g r r') r := by
  by_cases hold : stateOf g r = some .localReadyForDeals
  · simp only [if_pos hold]
    have hopen : stateOf g r ≠ none := by rw [hold]; exact Option.some_ne_none _
    unfold Group.offloadLog
    refine (wp_bind).mpr (wp_getGroup_some hopen fun grp hgrp => ?_)
    unfold failIf
    rw [if_neg]
    · -- the state is the new one; the rest leaves it alone
      refine wp_always_bind (wp_wrapErr_always (wp_advanceState hopen)) (fun _ => id) fun _ r' hr => ?_
      have hentry : Respects (SameState g) (writeOffloadEntry g) := .step fun _ => rfl
      refine wp_always_mono ((same_onLog.handle fun e => ?_).bind (fun _ => same_wrapErr hentry) r')
        fun _ hsame => hsame.trans hr
      split
      · exact .ret
      · exact .throw
    · unfold stateOf at hold
      rw [hgrp, Option.map_some, Option.some_inj] at hold
      exact not_not.mpr hold
  · simp only [if_neg hold]
    exact (wp_bind).mpr (wp_failUnless rfl rfl fun h => absurd h hold)

/-! ## The operations that ask the flag -/

theorem moves_genCommP :
    Respects (MovesLife .vrcarDone .localReadyForDeals g) (Group.genCommP g) := by
  intro l
  refine (wp_bind).mpr (wp_onRbs (wp_failUnless ⟨rfl, Or.inl rfl⟩ ⟨rfl, Or.inl rfl⟩ fun hold => ?_))
  have hcar : Respects (SameLife g) (Group.writeCar g) := .get fun l => by
    split
    · exact .throw
    · exact same_onRbs (same_onLog.bind fun _ => .pure)
  refine wp_always_bind (hcar l) (fun _ => SameLife.moves) fun carSize l' hl => ?_
  refine wp_always_bind ((Respects.step fun l => by exact refl l).wp_of hl)
    (fun _ => SameLife.moves) fun _ l'' hl' => ?_
  unfold Group.setCommP
  refine (wp_bind).mpr (wp_onRbs (wp_setState hl'.moves fun r hst => ?_))
  have hdb : Respects (SameLife g) (Group.dbSetCommP g .localReadyForDeals carSize) :=
    (same_onRbs (.step fun _ => by rfl)).bind fun _ => .modify fun _ => ⟨rfl, rfl⟩
  exact wp_always_mono (hdb _) fun _ h => ⟨h.1.trans hl'.1, Or.inr ⟨hold, h.2.trans hst⟩⟩

theorem same_reloadData : Respects (SameLife g) (Group.reloadData g) := by
  refine (same_onRbs same_failUnless).bind fun _ => same_groupMeta.bind fun gm => ?_
  split
  · exact .throw
  · exact same_onRbs (same_wrapErr same_onLog)

/-! ## Runs -/

/-- The group was offloaded, or is loaded again. -/
def GroupState.IsOffloaded (st : GroupState) : Prop := st = .offloaded ∨ st = .reload

/-- **The flag is set if and only if the group is offloaded**, or loaded
again and not yet done with it. -/
def Matches (g : GroupKey) (l : Life) : Prop :=
  ∀ st, stateOf g l.rbs = some st → (l.offloaded = true ↔ st.IsOffloaded)

/-- What goes wrong with the flag does not happen: an `offload` that is
refused leaves the flag, unless the group was offloaded before, and a
`FinDataReload` whose data is there goes on to a state without the flag. -/
def FlagKept (g : GroupKey) (l : Life) : LifeEvent → Prop
  | .call .offload _ => ∀ st, stateOf g l.rbs = some st → st = .localReadyForDeals ∨ st.IsOffloaded
  | .call .finDataReload plan => ∀ l', (Group.reloadData g).run l plan ≠ .ok () l'
  | _ => True

omit X in
theorem matches_of_moves {l' : Life} (h : Matches g l) (hm : MovesLife st st' g l l')
    (hst : st.IsOffloaded ↔ st'.IsOffloaded) : Matches g l' := by
  intro s hs
  rw [hm.1]
  rcases hm.2 with hsame | ⟨hold, hnew⟩
  · exact h s (hsame.symm.trans hs)
  · rw [hnew, Option.some_inj] at hs
    rw [← hs, ← hst]
    exact h st hold

omit X in
theorem stateOf_down : stateOf g (l.down g).rbs = none := by
  simp only [stateOf, Life.down, Function.update_self, Option.map_none]

omit X in
/-- The end of the process is the end of the group in memory. -/
theorem matches_after {o : Outcome Life Err Unit}
    (h : o.Sat (.settles (fun _ => Matches g) (Matches g))) : Matches g (Life.after g o) := by
  have hdown : ∀ l : Life, Matches g (l.down g) := fun l st hst => by
    rw [stateOf_down] at hst
    exact absurd hst (by simp)
  cases o with
  | ok a l => exact h
  | err e l => exact h
  | crash l => exact hdown l
  | fault k l => exact hdown l

omit X in
theorem settles_of_always {m : LifeOp Unit} {Q : Life → Prop} (h : wp anyFate m (.always Q) l)
    (himp : ∀ l', Q l' → Matches g l') :
    wp anyFate m (.settles (fun _ => Matches g) (Matches g)) l :=
  wp_mono h (fun _ => himp) (fun _ => himp) (fun _ _ => trivial) fun _ _ _ => trivial

/-- A result with `Q`, and the state as it was in `r` when there is none. -/
def sameOr (g : GroupKey) (r : Rbs) (Q : α → Rbs → Prop) : Post Rbs Err α :=
  ⟨Q, fun _ => SameState g r, SameState g r, fun _ => SameState g r⟩

omit X in
theorem wp_sameOr_bind {β : Type} {m : Op α} {f : α → Op β} {Q : β → Rbs → Prop}
    (hm : Respects (SameState g) m) (hr : SameState g r r')
    (hf : ∀ a r', SameState g r r' → wp anyFate (f a) (sameOr g r Q) r') :
    wp anyFate (m >>= f) (sameOr g r Q) r' :=
  wp_seq (hm.wp_of hr) hf (fun _ _ => id) (fun _ => id) fun _ _ => id

/-- A group is opened with the state of its row. -/
theorem wp_groupOpen {blocks bytes jbhead : ℤ} {create : Bool} :
    wp anyFate (Group.openGroup g blocks bytes jbhead st create)
      (sameOr g r fun grp r' => grp.state = st ∧ SameState g r r') r := by
  unfold Group.openGroup
  refine wp_sameOr_bind (same_wrapErr (.step fun _ => rfl)) rfl fun _ r' hr => ?_
  change wp anyFate (ite _ _ _) _ r'
  split_ifs
  · exact hr
  refine wp_sameOr_bind same_onLog hr fun _ r'' hr' => ?_
  have hjbob : ∀ dropped,
      Respects (SameState g) (Group.openJbob g jbhead create r'.staging dropped) := by
    intro dropped
    refine (same_onLog.attempt).bind fun opened => (Respects.modify fun _ => by rfl).bind fun _ => ?_
    split
    · exact .throw
    · exact .ret
  have hrest : ∀ dropped, wp anyFate (do
      Group.openJbob g jbhead create r'.staging dropped
      return (⟨st, 0, 0, blocks, bytes⟩ : Group))
      (sameOr g r fun grp r' => grp.state = st ∧ SameState g r r') r'' := fun dropped =>
    wp_sameOr_bind (hjbob dropped) hr' fun _ _ h => ⟨rfl, h⟩
  exact ⟨hrest true, fun _ _ => hrest false, fun _ => hr'⟩

/-- `OpenGroup` derives the flag from the state. -/
theorem wp_openLife {create : Bool} (hnone : stateOf g l.rbs = none) :
    wp anyFate (Group.openLife g create) (.settles (fun _ => Matches g) (Matches g)) l := by
  have hclosed : ∀ l', SameLife g l l' → Matches g l' := fun l' h st hst => by
    rw [h.2, hnone] at hst
    exact absurd hst (by simp)
  unfold Group.openLife
  refine wp_seq (same_groupMeta l) ?_ (fun _ => hclosed) (fun _ _ => trivial) fun _ _ _ => trivial
  intro gm l' hl'
  rw [wp_bind]
  refine wp_onRbs ?_
  unfold Rbstor.openGroup wrapErr
  rw [wp_bind, wp_handle]
  refine wp_mono wp_groupOpen ?_ ?_ (fun _ _ => trivial) fun _ _ _ => trivial
  · rintro grp r ⟨hstate, -⟩ st hst
    have hst' : stateOf g (opened g gm.1.state grp r) = some grp.state := stateOf_setGroup
    change stateOf g (opened g gm.1.state grp r) = some st at hst
    rw [hst', Option.some_inj, hstate] at hst
    change decide (GroupState.offloaded.ord ≤ gm.1.state.ord) = true ↔ st.IsOffloaded
    rw [hst, decide_eq_true_iff]
    cases st <;> simp [GroupState.ord, GroupState.IsOffloaded]
  · exact fun e r hr => hclosed _ ⟨hl'.1, hr.trans hl'.2⟩

omit X in
/-- An offload that is not refused sets both. -/
theorem wp_offload
    (hready : ∀ st, stateOf g l.rbs = some st → st = .localReadyForDeals ∨ st.IsOffloaded) :
    wp anyFate (Group.offload g) (.settles (fun _ => Matches g) (Matches g)) l := by
  unfold Group.offload
  rw [wp_bind, wp_modify]
  refine settles_of_always (Q := fun l' => l'.offloaded = true ∧
    if stateOf g l.rbs = some .localReadyForDeals then stateOf g l'.rbs = some .offloaded
    else SameState g l.rbs l'.rbs) ?_ ?_
  · exact wp_onRbs_always (wp_always_mono wp_offloadLog fun _ h => ⟨rfl, h⟩)
  · rintro l' ⟨hflag, hstate⟩ st hst
    refine iff_of_true hflag ?_
    split_ifs at hstate with hlocal
    · rw [hstate, Option.some_inj] at hst
      exact Or.inl hst.symm
    · rw [hstate] at hst
      refine (hready st hst).resolve_left fun h => hlocal ?_
      rw [hst, h]

/-- A reload that does not come to its end changes nothing. -/
theorem finDataReload_sat {plan : List Fate} (h : Matches g l)
    (hfails : ∀ l', (Group.reloadData g).run l plan ≠ .ok () l') :
    ((Group.finDataReload g).run l plan).Sat (.settles (fun _ => Matches g) (Matches g)) := by
  have hsame : ∀ l', SameLife g l l' → Matches g l' := fun l' hl =>
    matches_of_moves h hl.moves (Iff.refl (GroupState.IsOffloaded .writable))
  refine Prog.sat_bind_of_fails (P := .always (SameLife g l))
    (wp_sound (same_reloadData l) (within_anyFate plan)) (fun _ => hfails) ?_ ?_ ?_
  · exact fun _ => hsame
  · exact fun _ _ => trivial
  · exact fun _ _ _ => trivial

/-- **One event**: the flag still matches the state. -/
theorem next_matches {e : LifeEvent} (h : Matches g l) (hc : FlagKept g l e) :
    Matches g (l.next g e) := by
  have hmoves : ∀ {st st' : GroupState} {m : LifeOp Unit} {plan : List Fate},
      Respects (MovesLife st st' g) m → (st.IsOffloaded ↔ st'.IsOffloaded) →
      (m.run l plan).Sat (.settles (fun _ => Matches g) (Matches g)) := fun hm hst =>
    wp_sound (settles_of_always (hm l) fun _ h' => matches_of_moves h h' hst) (within_anyFate _)
  cases e with
  | kill => exact matches_after (o := .crash l) trivial
  | call cmd plan =>
    unfold Life.next
    dsimp only
    split_ifs with henabled
    · apply matches_after
      cases cmd with
      | openLife create =>
        refine wp_sound (wp_openLife ?_) (within_anyFate plan)
        unfold Life.enabled Life.group at henabled
        rw [stateOf, Option.isNone_iff_eq_none.mp henabled, Option.map_none]
      | put b =>
        exact hmoves (moves_onRbs fun r => wp_always_bind (moves_put r) (fun _ => id)
          fun _ _ => id) (by simp [GroupState.IsOffloaded])
      | sync =>
        exact hmoves (moves_onRbs fun r =>
          wp_always_mono (same_sync r) fun _ => Or.inl) (Iff.refl (GroupState.IsOffloaded .writable))
      | finalize => exact hmoves (moves_onRbs moves_finalize) (by simp [GroupState.IsOffloaded])
      | genCommP => exact hmoves moves_genCommP (by simp [GroupState.IsOffloaded])
      | offload => exact wp_sound (wp_offload hc) (within_anyFate plan)
      | loadFilCar car sz =>
        exact hmoves (moves_onRbs moves_loadFilCar) (by simp [GroupState.IsOffloaded])
      | finDataReload => exact finDataReload_sat h hc
    · exact h

end

section

open Carlog.Encoding

/-- A store with the row of a new group. -/
def newLife : Life := ⟨{ Rbs.empty with rows := [⟨1, 0, 0, .writable, 0, false⟩] }, false, none⟩

end

end Rbstor

end Ribs
