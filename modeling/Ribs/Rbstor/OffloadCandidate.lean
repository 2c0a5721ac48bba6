import Ribs.Rbstor.Worker
import Ribs.Rbstor.Written
/-!
# Rbstor — the group that makes room

When the store has as many local groups as it may have, a new group is
made when the local data of an old one is dropped. The database chooses
the candidate: a group that it has as offloaded, but without an entry for
it, before one that is ready for deals. The drop itself takes a group that
is ready for deals, in memory, with an external index and a staging
provider.
-/

namespace Ribs

open Common

namespace Rbstor

variable {α : Type} {r r' : Rbs} {g : GroupKey} {w : Carlog.World} {grp : Group} {row : Row}
  {st : GroupState}

/-! ## The tables, and the states in memory -/

/-- The rows are as they were, and the states in memory. -/
def SameTables (r r' : Rbs) : Prop := r'.rows = r.rows ∧ ∀ g, stateOf g r' = stateOf g r

instance : IsPreorder Rbs SameTables where
  refl _ := ⟨rfl, fun _ => rfl⟩
  trans _ _ _ h h' := ⟨h'.1.trans h.1, fun g => (h'.2 g).trans (h.2 g)⟩

theorem tables_failIf {c : Prop} [Decidable c] {e : Err} : Respects SameTables (failIf c e) :=
  .ite (fun _ => .throw) fun _ => .ret

theorem tables_wrapErr {s : String} {m : Op α} (h : Respects SameTables m) :
    Respects SameTables (wrapErr s m) := h.handle fun _ => .throw

theorem tables_onLog {m : Carlog.Op α} : Respects SameTables (onLog g m) :=
  .zoom (fun _ _ => by simp [setLog]) (fun _ _ _ => by simp [setLog])
    (fun _ => by simp [setLog]) (fun _ _ _ => ⟨rfl, fun _ => rfl⟩) respects_anywhere

theorem tables_getGroup : Respects SameTables (getGroup g) := .get fun r => by
  cases r.openGroups g with
  | none => exact .fault
  | some grp => exact .ret

theorem tables_failUnless {s : String} : Respects SameTables (Group.failUnless g st s) :=
  tables_getGroup.bind fun _ => tables_failIf

/-- The group is in memory now, in that state. -/
structure Opened (g : GroupKey) (st : GroupState) (r r' : Rbs) : Prop where
  rows : r'.rows = r.rows
  self : stateOf g r' = some st
  other : ∀ g' ≠ g, stateOf g' r' = stateOf g' r

theorem Opened.of_same {t : Rbs} (h : SameTables r t) (ho : Opened g st t r') : Opened g st r r' :=
  ⟨ho.rows.trans h.1, ho.self, fun g' hne => (ho.other g' hne).trans (h.2 g')⟩

theorem opened_setGroup (hst : grp.state = st) : Opened g st r (setGroup g grp r) := by
  refine ⟨rfl, ?_, fun g' hne => ?_⟩
  · rw [stateOf_setGroup, hst]
  · simp only [stateOf, setGroup, Function.update_of_ne hne]

section

variable [X : Carlog.External] {blocks bytes jbhead : ℤ} {create : Bool}

theorem tables_groupOpen :
    Respects SameTables (Group.openGroup g blocks bytes jbhead st create) := by
  unfold Group.openGroup
  refine (tables_wrapErr (.step fun _ => refl _)).bind fun _ => .get fun r => .ite (fun _ => .throw)
    fun _ => tables_onLog.bind fun _ => ?_
  refine .io (fun _ => refl _) (fun _ _ => refl _) fun dropped => .bind ?_ fun _ => .pure
  refine tables_onLog.attempt.bind fun opened =>
    (Respects.modify fun _ => ⟨rfl, fun _ => rfl⟩).bind fun _ => ?_
  split
  · exact .throw
  · exact .ret

/-- **A group is opened**, or nothing is. -/
theorem wp_openGroup_tables : wp anyFate (openGroup g blocks bytes jbhead st create)
    ⟨fun _ => Opened g st r, fun _ => SameTables r, SameTables r, fun _ => SameTables r⟩ r := by
  unfold openGroup wrapErr
  rw [wp_bind, wp_handle]
  refine wp_mono (wp_and (tables_groupOpen r) wp_groupOpen) ?_ (fun _ _ h => h.1) (fun _ h => h.1)
    fun _ _ h => h.1
  rintro grp u ⟨hsame, hst, -⟩
  obtain ⟨hrows, hself, hother⟩ : Opened g st u (setGroup g grp u) := opened_setGroup hst
  exact Opened.of_same hsame ⟨hrows, hself, hother⟩

end

/-! ## Dropping local data -/

/-- It returns nil, with `Q` behind it, or waits. -/
def WaitsOr {σ ε : Type} (Q : σ → Prop) : Outcome σ ε α → Prop
  | .ok _ s => Q s
  | .err _ _ => False
  | .crash _ => False
  | .fault k _ => k = .blocked

/-- **The local data can be dropped**, or will be when the index lock is let
go: the log has an external index and a staging provider, and its data
file can be closed. -/
def CanDrop (w : Carlog.World) : Prop :=
  w.jb.idxLk = ⟨false, 0⟩ → w.jb.eIdx.isSome ∧ w.jb.staging = true ∧
    (w.jb.pendingReads = 0 → ∀ f, w.jb.data = some f → f.isOpen = true)

theorem waitsOr_offloadLocalData {Q : Carlog.World → Prop}
    (hQ : ∀ w', w'.disk.blockLog = none → Q w') :
    WaitsOr Q (Carlog.CarLog.offloadLocalData.run w []) ↔ CanDrop w := by
  obtain ⟨disk, staged, ⟨staging, head, data, dataPos, dataBuffered, dataLen, dataStart, dataEnd,
    layerOffsets, idxLk, wIdx, rIdx, eIdx, writeLru, readStateLk, pendingReads, finalizing⟩,
    calls, cleaned, out, rand, drawn⟩ := w
  by_cases hlk : idxLk = ⟨false, 0⟩
  · subst hlk
    rcases eIdx with _ | bss
    · exact iff_of_false id fun h => by simpa using (h rfl).1
    rcases staging with _ | _
    · exact iff_of_false id fun h => by simpa using (h rfl).2.1
    rcases pendingReads with _ | n
    · rcases data with _ | ⟨_ | _, _, _⟩
      · exact iff_of_true (hQ _ rfl) fun _ => ⟨rfl, rfl, fun _ _ h => by cases h⟩
      · exact iff_of_false id fun h => by simpa using (h rfl).2.2 rfl _ rfl
      · exact iff_of_true (hQ _ rfl) fun _ => ⟨rfl, rfl, fun _ _ h => by cases h; rfl⟩
    · exact iff_of_true rfl fun _ => ⟨rfl, rfl, fun h => by simp at h⟩
  · refine iff_of_true ?_ fun h => absurd h hlk
    simp [Carlog.CarLog.offloadLocalData, Carlog.CarLog.lockIdx, hlk, Bind.bind, Prog.bind,
      Prog.run, WaitsOr]

/-- The group has an entry. -/
def entered (g : GroupKey) (row : Row) : Row :=
  if row.id = g then { row with offloaded := true } else row

/-- What a drop leaves. -/
structure Dropped (g : GroupKey) (r r' : Rbs) : Prop where
  blockLog : (r'.log g).disk.blockLog = none
  rows : r'.rows = r.rows.map (entered g)

/-- **When the local data of an open group is dropped.** -/
theorem waitsOr_offloadStaging {Q : Rbs → Prop} (hopen : r.openGroups g = some grp)
    (hQ : ∀ r', Dropped g r r' → Q r') : WaitsOr Q ((Group.offloadStaging g).run r []) ↔
      grp.state = .localReadyForDeals ∧ CanDrop (r.log g) := by
  have hget : (getGroup g).run r [] = .ok grp r := by
    unfold getGroup
    rw [Prog.run, hopen]
    rfl
  unfold Group.offloadStaging
  rw [Prog.run_bind_nil, hget]
  dsimp only
  rw [Prog.run_bind_nil]
  by_cases hstate : grp.state = .localReadyForDeals
  · have hfail : (failIf (grp.state ≠ .localReadyForDeals)
        (.text "can't offload group in state")).run r [] = .ok () r := by
      unfold failIf
      rw [if_neg (not_not.mpr hstate)]
      rfl
    have hdropped : ∀ w', w'.disk.blockLog = none →
        Q { setLog g w' r with rows := r.rows.map (entered g) } := fun w' hw' =>
      hQ _ ⟨by simpa [setLog] using hw', rfl⟩
    rw [hfail, and_iff_right hstate, ← waitsOr_offloadLocalData hdropped]
    dsimp only
    unfold wrapErr
    rw [Prog.run_bind_nil, Prog.run_rethrow_nil, onLog, Prog.run_zoom (by simp [setLog])
      (by simp [setLog]) (by simp [setLog])]
    rcases Carlog.CarLog.offloadLocalData.run (r.log g) [] with _ | _ | _ | _ <;> exact Iff.rfl
  · have hfail : (failIf (grp.state ≠ .localReadyForDeals)
        (.text "can't offload group in state")).run r [] =
        .err (.text "can't offload group in state") r := by
      unfold failIf
      rw [if_pos hstate]
      rfl
    rw [hfail]
    exact iff_of_false id fun h => hstate h.1

/-! ## The candidate -/

/-- How many groups have no entry. -/
def localCount (rows : List Row) : ℕ := (rows.filter fun row => !row.offloaded).length

/-- The candidate for an offload. -/
def candidate (rows : List Row) : Option Row :=
  (firstOf .offloaded rows).or (firstOf .localReadyForDeals rows)

/-- The local data of a group is dropped, and the group has an entry now. -/
structure Freed (r r' : Rbs) (row : Row) : Prop where
  mem : row ∈ r.rows
  wasLocal : row.offloaded = false
  blockLog : (r'.log row.id).disk.blockLog = none
  rows : r'.rows = r.rows.map (entered row.id)

theorem mem_candidate (h : candidate r.rows = some row) : row ∈ r.rows ∧ row.offloaded = false := by
  have hmem : ∀ {st}, firstOf st r.rows = some row → row ∈ r.rows ∧ row.offloaded = false := by
    intro st hfirst
    have hhead := List.mem_of_mem_head? hfirst
    rw [List.mem_mergeSort, List.mem_filter, Bool.and_eq_true, Bool.not_eq_true'] at hhead
    exact ⟨hhead.1, hhead.2.1⟩
  rcases Option.or_eq_some_iff.mp h with h | ⟨-, h⟩
  · exact hmem h
  · exact hmem h

/-- **One group fewer is local.** -/
theorem Freed.localCount_lt (h : Freed r r' row) : localCount r'.rows < localCount r.rows := by
  unfold localCount
  rw [h.rows, ← List.countP_eq_length_filter, ← List.countP_eq_length_filter, List.countP_map]
  have hle : ∀ x ∈ r.rows, ((fun row => !row.offloaded) ∘ entered row.id) x = true →
      (!x.offloaded) = true := by
    intro x _ hx
    simp only [Function.comp_apply, entered] at hx
    split at hx
    · simp at hx
    · exact hx
  obtain ⟨before, behind, hsplit⟩ := List.append_of_mem h.mem
  rw [hsplit] at hle ⊢
  simp only [List.mem_append, List.mem_cons] at hle
  have h1 := List.countP_mono_left (l := before) fun x hx => hle x (Or.inl hx)
  have h2 := List.countP_mono_left (l := behind) fun x hx => hle x (Or.inr (Or.inr hx))
  have hnow : (!(entered row.id row).offloaded) = false := by simp [entered]
  simp only [List.countP_append, List.countP_cons, Function.comp_apply, hnow, h.wasLocal,
    Bool.not_false, if_true, Bool.false_eq_true, if_false]
  omega

variable [X : Carlog.External]

/-- **The group can be freed**: it is ready for deals in memory, and its
local data can be dropped. A group that is not open is opened first. -/
def Freeable (r : Rbs) (row : Row) : Prop :=
  match r.openGroups row.id with
  | some grp => grp.state = .localReadyForDeals ∧ CanDrop (r.log row.id)
  | none => WaitsOr (fun r' => row.state = .localReadyForDeals ∧ CanDrop (r'.log row.id))
      ((openRow row).run r [])

/-- **Room is made, or waited for**: below the limit nothing is done; at the
limit the local data of a group is dropped, and never is there an error. -/
def WaitsOrFrees (r : Rbs) : Prop :=
  WaitsOr (fun r' => maxLocalGroupCount ≤ localCount r.rows → ∃ row, Freed r r' row)
    (ensureSpaceForGroup.run r [])

theorem run_ensureSpaceForGroup : ensureSpaceForGroup.run r [] =
    if localCount r.rows < maxLocalGroupCount then .ok () r
    else
      match candidate r.rows with
      | none => .fault .blocked r
      | some row => (withReadableGroup row (Group.offloadStaging row.id)).run r [] := by
  have hcount : (wrapErr "counting non-offloaded groups" countNonOffloadedGroups).run r [] =
      .ok (localCount r.rows) r := rfl
  have hcandidate : (wrapErr "getting offload candidate" getOffloadCandidate).run r [] =
      .ok (candidate r.rows) r := rfl
  unfold ensureSpaceForGroup
  rw [Prog.run_bind_nil, hcount]
  dsimp only
  split
  · rfl
  · rw [Prog.run_bind_nil, hcandidate]
    dsimp only
    cases candidate r.rows <;> rfl

theorem run_withReadableGroup {cb : Op Unit} : (withReadableGroup row cb).run r [] =
    if (r.openGroups row.id).isSome then cb.run r []
    else (openRow row >>= fun _ => cb).run r [] := by
  have hmeta : (wrapErr "getting group metadata" (.step .db id)).run r [] = .ok () r := rfl
  unfold withReadableGroup
  rw [Prog.run_bind_nil, hmeta]
  change (if (r.openGroups row.id).isSome then cb else openRow row >>= fun _ => cb).run r [] = _
  split <;> rfl

/-- **When the local data of a group is dropped**, that may have to be
opened. -/
theorem waitsOr_withReadableGroup {Q : Rbs → Prop}
    (hQ : ∀ r', (r'.log row.id).disk.blockLog = none →
      r'.rows = r.rows.map (entered row.id) → Q r') :
    WaitsOr Q ((withReadableGroup row (Group.offloadStaging row.id)).run r []) ↔
      Freeable r row := by
  rw [run_withReadableGroup]
  unfold Freeable
  cases hopen : r.openGroups row.id with
  | some grp =>
    exact waitsOr_offloadStaging hopen fun r' h => hQ r' h.blockLog h.rows
  | none =>
    have hopened : ((openRow row).run r []).Sat _ :=
      wp_sound wp_openGroup_tables (within_anyFate [])
    change WaitsOr Q ((openRow row >>= fun _ => Group.offloadStaging row.id).run r []) ↔ _
    rw [Prog.run_bind_nil]
    generalize (openRow row).run r [] = out at hopened ⊢
    rcases out with ⟨_, t⟩ | _ | _ | _
    · obtain ⟨hrows, hself, -⟩ : Opened row.id row.state r t := hopened
      obtain ⟨grp, hgrp, hst⟩ := Option.map_eq_some_iff.mp hself
      refine (waitsOr_offloadStaging hgrp fun r' h => hQ r' h.blockLog ?_).trans ?_
      · rw [h.rows, hrows]
      · rw [hst]
        exact Iff.rfl
    · exact Iff.rfl
    · exact Iff.rfl
    · exact Iff.rfl

/-- **Room is made exactly when the candidate, if there is one, can be
freed.** -/
theorem waitsOrFrees_iff : WaitsOrFrees r ↔ (maxLocalGroupCount ≤ localCount r.rows →
    ∀ row, candidate r.rows = some row → Freeable r row) := by
  unfold WaitsOrFrees
  rw [run_ensureSpaceForGroup]
  split
  · rename_i hspace
    exact iff_of_true (fun h => by omega) fun h => by omega
  rename_i hfull
  rw [forall_prop_of_true (not_lt.mp hfull)]
  cases hrow : candidate r.rows with
  | none => exact iff_of_true rfl fun row h => by cases h
  | some row =>
    obtain ⟨hmem, hlocal⟩ := mem_candidate hrow
    refine (waitsOr_withReadableGroup fun r' hlog hrows _ =>
      ⟨row, hmem, hlocal, hlog, hrows⟩).trans ?_
    refine ⟨fun h row' heq => ?_, fun h => h row rfl⟩
    obtain rfl := Option.some.inj heq
    exact h

end Rbstor

end Ribs
