import Ribs.Rbstor.Placing
import Ribs.Rbstor.Stored
/-!
# Rbstor — what is written stays

Every critical section of the store keeps what it stored, also when it
returns an error: syncing a group makes its blocks durable, `Group.Put`
adds blocks, and `withWritableGroup` drops a group only when its blocks
are durable. The one case where the last fails is a group that is picked
after it was filled and before it was synced.
-/

namespace Ribs

open Common

namespace Rbstor

open Carlog (Block Keeps Closed)
open PebbleIndex (Lists)

variable {F : Fates} {α : Type} {r r' : Rbs} {g : GroupKey} {grp : Group} {b : List Block}

/-! ## Programs of the store -/

theorem wp_settles_get {k : Rbs → Op α} {Q : α → Rbs → Prop} {R : Rbs → Prop}
    (h : wp F (k r) (.settles Q R) r) : wp F (.get k) (.settles Q R) r := h

theorem wp_settles_onLog {m : Carlog.Op α} {Q : α → Carlog.World → Prop} {R : Carlog.World → Prop}
    (h : wp F m (.settles Q R) (r.log g)) :
    wp F (onLog g m) (.settles (fun a r' => ∃ w, Q a w ∧ r' = setLog g w r)
      fun r' => ∃ w, R w ∧ r' = setLog g w r) r := by
  refine wp_zoom (fun t s => by simp [setLog]) (fun t t' s => by simp [setLog])
    (fun s => by simp [setLog]) ?_
  exact wp_mono h (fun _ w hw => ⟨w, hw, rfl⟩) (fun _ w hw => ⟨w, hw, rfl⟩) (fun _ => id)
    fun _ _ => id

theorem wp_settles_choose {β : Type} {l : List β} {R : Rbs → Prop} : wp F (choose l)
    (.settles (fun a r' => l[r.pick r.picked % l.length]? = some a ∧
      r' = { r with picked := r.picked + 1 }) R) r := by
  unfold choose
  refine wp_settles_get ?_
  split
  · trivial
  · next h => exact ⟨h, rfl⟩

theorem wp_getGroup {Q : Post Rbs Err Group} (h : r.openGroups g = some grp) :
    wp F (getGroup g) Q r = Q.ok grp r := by
  unfold getGroup
  rw [wp, h]
  rfl

theorem wp_modifyGroup {Q : Post Rbs Err Unit} {f : Group → Group} (h : r.openGroups g = some grp) :
    wp F (modifyGroup g f) Q r = Q.ok () (setGroup g (f grp) r) := by
  rw [modifyGroup, wp_bind, wp_getGroup h]
  rfl

theorem setGroup_self (h : r.openGroups g = some grp) : setGroup g grp r = r := by
  rw [setGroup, ← h, Function.update_eq_self]

section

variable [X : Carlog.External] {Is : Multihash → Bytes → Prop} {U : GroupKey → Prop}
  {A C : Pairs} {w : Carlog.World}

/-- The log of a group in use changes. -/
theorem Stored.setLog (h : Stored Is U A C r) (hgrp : r.openGroups g = some grp)
    (huse : grp.state.InUse) (hlog : Keeps Is (A g)
      (fun m => C g m ∨ A g m ∧ (grp.inflightBlocks = 0 ∨ g ∉ r.writableGroups)) w) :
    Stored Is U A C (setLog g w r) := by
  have hput := h.update hgrp huse huse (h.groups g grp hgrp huse).inflight (h.le g)
    (fun m hm => (h.put g m hm).2) hlog
  rwa [Function.update_eq_self, Function.update_eq_self, setGroup_self] at hput
  exact hgrp

/-- The head of a group in use goes into its row. -/
theorem Stored.setGroupHead (h : Stored Is U A C r) (hgrp : r.openGroups g = some grp)
    {state : GroupState} (huse : state.InUse) (x y z : ℤ) :
    Stored Is U A C { r with rows := r.rows.map (groupHead g state x y z) } := by
  refine h.mapRows groupHead_id (fun row hrow => ?_) fun row hstate hnone => ?_
  · unfold groupHead
    split_ifs
    · exact huse
    · exact hrow
  · have hne : row.id ≠ g := fun heq => by
      rw [heq, hgrp] at hnone
      exact absurd hnone (by simp)
    rwa [groupHead, if_neg hne] at hstate

/-! ## `Group.sync` -/

theorem le_update (h : Stored Is U A C r) (g' : GroupKey) (m : Multihash) (hm : C g' m) :
    Function.update C g (A g) g' m := by
  rcases eq_or_ne g' g with rfl | hne
  · rw [Function.update_self]
    exact h.le g' m hm
  · rwa [Function.update_of_ne hne]

/-- **Syncing a group** makes its blocks durable. -/
theorem Group.sync_stored (h : Stored Is U A C r) (hgrp : r.openGroups g = some grp)
    (huse : grp.state.InUse) : wp F (sync g)
      (.settles (fun _ r' => Stored Is U A (Function.update C g (A g)) r' ∧
        r'.openGroups g = some grp.committed ∧ r'.writableGroups = r.writableGroups)
        (Stored Is U A C)) r := by
  have hok := h.groups g grp hgrp huse
  have hle : ∀ m, C g m ∨ A g m ∧ (grp.inflightBlocks = 0 ∨ g ∉ r.writableGroups) → A g m :=
    fun m hm => hm.elim (h.le g m) And.left
  refine wp_settles_seq (Q := fun _ r' => ∃ w, Keeps Is (A g) (A g) w ∧ r' = setLog g w r) ?_ ?_
  · refine wp_settles_handle (wp_settles_mono
      (wp_settles_onLog (Carlog.CarLog.wp_commit_keeps hok.log hle)) (fun _ _ => id) ?_)
    rintro _ ⟨w, hw, rfl⟩
    exact h.setLog hgrp huse hw
  rintro at_ _ ⟨w, hw, rfl⟩
  rw [wp_bind, wp_modifyGroup (show (Rbstor.setLog g w r).openGroups g = some grp from hgrp)]
  have hself : (setGroup g grp.committed (Rbstor.setLog g w r)).openGroups g = some grp.committed := by
    simp [setGroup]
  dsimp only
  rw [wp_bind, wp_getGroup hself]
  -- the blocks are durable now, whatever becomes of the row
  have hdone : Stored Is U A (Function.update C g (A g))
      (setGroup g grp.committed (Rbstor.setLog g w r)) := by
    have huse' : grp.committed.state.InUse := huse
    have hnone : 0 ≤ grp.committed.inflightBlocks := le_rfl
    have hle : ∀ m, A g m → A g m := fun _ => id
    have := h.update hgrp huse huse' hnone hle (fun m hm => (h.put g m hm).2)
      (hw.imp fun m hm => hm.elim id And.left)
    rwa [Function.update_eq_self] at this
  refine wp_settles_handle (wp_settles_step ⟨?_, hself, rfl⟩ (hdone.imp (le_update h)))
  exact hdone.setGroupHead hself huse _ _ _

/-! ## `Group.Put` -/

/-- The pairs, and blocks of one more group. -/
def Pairs.add (A : Pairs) (g : GroupKey) (b : List Block) : Pairs :=
  Function.update A g fun m => A g m ∨ m ∈ b.map Block.hash

omit X in
theorem le_add {g' : GroupKey} {m : Multihash} (h : A g' m) : A.add g b g' m := by
  unfold Pairs.add
  rcases eq_or_ne g' g with rfl | hne
  · rw [Function.update_self]
    exact Or.inl h
  · rwa [Function.update_of_ne hne]

namespace Group

/-- What of a group's blocks is durable, between two operations. -/
def durable (A C : Pairs) (r : Rbs) (g : GroupKey) (grp : Group) (m : Multihash) : Prop :=
  C g m ∨ A g m ∧ (grp.inflightBlocks = 0 ∨ g ∉ r.writableGroups)

theorem putLog_stored (h : Stored Is U A C r) (hgrp : r.openGroups g = some grp)
    (huse : grp.state.InUse) (hIs : ∀ blk ∈ b, Is blk.hash blk.data) :
    wp F (putLog g b) (.settles
      (fun _ r' => ∃ w cs, Keeps Is (fun m => A g m ∨ m ∈ b.map Block.hash)
        (durable A C r g grp) w ∧ r' = { Rbstor.setLog g w r with calls := cs })
      fun r' => ∃ w, Keeps Is (A g) (durable A C r g grp) w ∧ r' = Rbstor.setLog g w r) r := by
  have hzip : ∀ e ∈ (b.map Block.hash).zip (b.map Block.data), Is e.1 e.2 := by
    intro e he
    rw [List.zip_map', List.mem_map] at he
    obtain ⟨blk, hblk, rfl⟩ := he
    exact hIs blk hblk
  refine wp_settles_seq (wp_settles_handle (wp_settles_onLog
    (Carlog.CarLog.wp_put_keeps (h.groups g grp hgrp huse).log hzip))) ?_
  rintro - _ ⟨w, hw, rfl⟩
  exact ⟨w, _, hw, rfl⟩

omit X in
theorem addIndex_lists : wp F (addIndex g b) (.settles
    (fun _ r' => ∃ db cs, r' = { r with index := db, calls := cs } ∧
      ∀ m g', Lists r.index m g' ∨ m ∈ b.map Block.hash ∧ g' = g → Lists db m g')
    fun r' => r' = r) r := by
  have hlen : (b.map Block.hash).length ≤ (blockSizes b).length := by simp [blockSizes]
  have hadd : PebbleIndex.addGroup r.index (b.map Block.hash) (blockSizes b) g =
      some (commit r.index (PebbleIndex.addBatch (b.map Block.hash) (blockSizes b) g)) := by
    rw [PebbleIndex.addGroup, if_neg (by omega)]
  unfold addIndex
  rw [wp, hadd]
  dsimp only
  refine wp_settles_handle (wp_settles_step ⟨_, _, rfl, fun m g' hm => ?_⟩ rfl)
  exact PebbleIndex.lists_add hlen hm

/-- **The two writes of `Put`.** The group's reservation counts the blocks. -/
theorem write_stored (h : Stored Is U A C r) (hgrp : r.openGroups g = some grp)
    (huse : grp.state.InUse) (hIs : ∀ blk ∈ b, Is blk.hash blk.data)
    (hb : b ≠ [] → grp.inflightBlocks ≠ 0 ∧ g ∈ r.writableGroups) : wp F (write g b) (.settles
      (fun _ r' => Stored Is U (A.add g b) C r' ∧ r'.openGroups g = some grp ∧
        r'.writableGroups = r.writableGroups) (Stored Is U A C)) r := by
  -- a log that keeps the group's blocks, and an index that lists them
  have hkeep : ∀ w db cs, Keeps Is (A g) (durable A C r g grp) w →
      (∀ m g', Lists r.index m g' → Lists db m g') →
      Stored Is U A C { Rbstor.setLog g w r with index := db, calls := cs } := by
    intro w db cs hw hdb
    exact ((h.setLog hgrp huse hw).setIndex fun g' m _ => hdb m g').of_eq rfl rfl rfl rfl rfl
  refine wp_settles_seq (wp_settles_attempt (putLog_stored h hgrp huse hIs)) ?_
  rintro put _ (⟨⟨⟩, rfl, w, cs, hw, rfl⟩ | ⟨⟨e, rfl⟩, w, hw, rfl⟩)
  · have hw' : Keeps Is (A g) (durable A C r g grp) w := hw.imp_put fun m => Or.inl
    refine wp_settles_seq (wp_settles_attempt addIndex_lists) ?_
    rintro add _ (⟨⟨⟩, rfl, db, cs', rfl, hdb⟩ | ⟨⟨e, rfl⟩, rfl⟩)
    · refine ⟨?_, hgrp, rfl⟩
      have hlists : Stored Is U A C { r with index := db } :=
        h.setIndex fun g' m _ hm => hdb m g' (Or.inl hm)
      -- the new blocks are in flight
      have hlog : Keeps Is (fun m => A g m ∨ m ∈ b.map Block.hash) (fun m => C g m ∨
          (A g m ∨ m ∈ b.map Block.hash) ∧ (grp.inflightBlocks = 0 ∨ g ∉ r.writableGroups)) w := by
        refine hw.imp fun m hm => hm.imp_right fun ⟨hA, hc⟩ => ⟨hA.resolve_right fun hmb => ?_, hc⟩
        obtain ⟨hne, hmem⟩ := hb (by rintro rfl; simp at hmb)
        exact hc.elim hne fun hnot => hnot hmem
      have hput := hlists.update hgrp huse huse (h.groups g grp hgrp huse).inflight
        (fun m hm => Or.inl (h.le g m hm))
        (fun m hm => hdb m g (hm.imp (fun hA => (h.put g m hA).2) fun hb => ⟨hb, rfl⟩)) hlog
      rw [Function.update_eq_self] at hput
      refine hput.of_eq ?_ rfl rfl rfl rfl
      simp only [setGroup, Rbstor.setLog, ← hgrp, Function.update_eq_self]
    · exact hkeep w r.index cs hw' fun _ _ => id
  · refine wp_settles_seq (wp_settles_attempt addIndex_lists) ?_
    rintro add _ (⟨⟨⟩, rfl, db, cs', rfl, hdb⟩ | ⟨⟨e, rfl⟩, rfl⟩)
    · exact hkeep w db cs' hw fun m g' hm => hdb m g' (Or.inl hm)
    · exact hkeep w r.index r.calls hw fun _ _ => id

/-- A group all of whose blocks are durable. -/
theorem keeps_all (h : Stored Is U A (Function.update C g (A g)) r) (hgrp : r.openGroups g = some grp)
    (huse : grp.state.InUse) : Keeps Is (A g) (A g) (r.log g) :=
  (h.groups g grp hgrp huse).log.imp fun m hm => Or.inl (by rwa [Function.update_self])

/-- **Retiring a full group.** -/
theorem retire_stored (h : Stored Is U A C r) (hgrp : r.openGroups g = some grp)
    (huse : grp.state.InUse) : wp F (retire g) (.settles
      (fun _ r' => Stored Is U A C r' ∧ r'.writableGroups = r.writableGroups ∧
        Keeps Is (A g) (A g) (r'.log g)) (Stored Is U A C)) r := by
  refine wp_settles_seq (wp_settles_handle (sync_stored h hgrp huse)) ?_
  rintro - u ⟨hu, hugrp, huw⟩
  have hkeeps := keeps_all hu hugrp huse
  have hmark : ∀ w, Keeps Is (A g) (A g) w → Stored Is U A C (Rbstor.setLog g w u) := by
    intro w hw
    refine (hu.setLog hugrp huse (hw.imp fun m hm => ?_)).imp (le_update h)
    rw [Function.update_self] at hm
    exact hm.elim id And.left
  refine wp_settles_handle (wp_settles_mono
    (wp_settles_onLog (Carlog.CarLog.wp_markReadOnly_keeps hkeeps)) ?_ ?_)
  · rintro - _ ⟨w, hw, rfl⟩
    exact ⟨hmark w hw, huw, by simpa [Rbstor.setLog] using hw⟩
  · rintro _ ⟨w, hw, rfl⟩
    exact hmark w hw

/-- Reserving space keeps what is stored. -/
theorem reserved_stored (h : Stored Is U A C r) (hgrp : r.openGroups g = some grp)
    (huse : grp.state.InUse) :
    (grp.reserved b).state.InUse ∧ Stored Is U A C (setGroup g (grp.reserved b) r) := by
  have hok := h.groups g grp hgrp huse
  have huse' : (grp.reserved b).state.InUse := by
    unfold reserved
    dsimp only
    split_ifs
    · trivial
    · exact huse
  have hle : grp.inflightBlocks ≤ (grp.reserved b).inflightBlocks := by simp [reserved]
  refine ⟨huse', ?_⟩
  have hput := h.update hgrp huse huse' (hok.inflight.trans hle) (h.le g)
    (fun m hm => (h.put g m hm).2) (hok.log.imp fun m hm => hm.imp_right fun hx =>
      ⟨hx.1, hx.2.imp_left fun h0 => le_antisymm (h0 ▸ hle) hok.inflight⟩)
  rw [Function.update_eq_self, Function.update_eq_self] at hput
  refine hput.of_eq rfl rfl rfl ?_ rfl
  simp [setGroup, Rbstor.setLog]

/-- **`Group.Put` adds its blocks**, and what is no longer writable has its
blocks durable; a group that was not writable must have had no writes in
flight. -/
theorem put_stored (h : Stored Is U A C r) (hgrp : r.openGroups g = some grp)
    (hw : g ∈ r.writableGroups) (hclear : grp.state ≠ .writable → grp.inflightBlocks = 0)
    (hIs : ∀ blk ∈ b, Is blk.hash blk.data) : wp F (put g b) (.settles
      (fun n r' => Stored Is U (A.add g (b.take n)) C r' ∧ r'.writableGroups = r.writableGroups ∧
        ∀ x, r'.openGroups g = some x → x.state ≠ .writable →
          Keeps Is (A.add g (b.take n) g) (A.add g (b.take n) g) (r'.log g)) (Stored Is U A C)) r := by
  obtain ⟨_, hgrp', huse⟩ := h.writable g hw
  obtain rfl := Option.some.inj (hgrp.symm.trans hgrp')
  -- nothing is written
  have hnothing : A.add g (b.take 0) = A := by simp [Pairs.add]
  have hsame : Stored Is U (A.add g (b.take 0)) C r ∧ r.writableGroups = r.writableGroups ∧
      ∀ x, r.openGroups g = some x → x.state ≠ .writable →
        Keeps Is (A.add g (b.take 0) g) (A.add g (b.take 0) g) (r.log g) := by
    rw [hnothing]
    refine ⟨h, rfl, fun x hx hstate => ?_⟩
    obtain rfl := Option.some.inj (hgrp.symm.trans hx)
    exact (h.groups g grp hgrp huse).log.imp fun m hm => Or.inr ⟨hm, Or.inl (hclear hstate)⟩
  by_cases hb : b = []
  · rw [put, if_pos hb]
    exact hsame
  rw [put, if_neg hb, wp_bind, wp_getGroup hgrp]
  refine wp_ite.mpr ⟨fun _ => hsame, fun hstate => ?_⟩
  -- what is reserved is in flight until it is retired
  obtain ⟨huse', hres⟩ := reserved_stored (b := b) h hgrp huse
  set n := (grp.space b).2 with hn
  rw [wp_bind, wp_modify]
  dsimp only
  set u := setGroup g (grp.reserved b) r with hu
  have hugrp : u.openGroups g = some (grp.reserved b) := by simp [hu, setGroup]
  have hIs' : ∀ blk ∈ b.take n, Is blk.hash blk.data := fun blk hblk =>
    hIs blk (List.mem_of_mem_take hblk)
  have hflight : b.take n ≠ [] → (grp.reserved b).inflightBlocks ≠ 0 ∧ g ∈ u.writableGroups := by
    intro hne
    have hpos : 0 < n := Nat.pos_of_ne_zero fun h0 => hne (by rw [h0, List.take_zero])
    have := (h.groups g grp hgrp huse).inflight
    refine ⟨?_, hw⟩
    simp only [reserved, ← hn]
    omega
  refine wp_settles_seq (wp_settles_mono (write_stored hres hugrp huse' hIs' hflight)
    (fun _ _ => id) fun _ => id) ?_
  rintro - v ⟨hv, hvgrp, hvw⟩
  refine wp_ite.mpr ⟨fun _ => ?_, fun hnot => ?_⟩
  -- the group became full, and is retired at once
  · refine wp_settles_seq (wp_settles_mono (retire_stored hv hvgrp huse') (fun _ _ => id) fun _ hx =>
      hx.imp_put (fun _ _ => le_add) h.le) ?_
    rintro - x ⟨hx, hxw, hxlog⟩
    exact ⟨hx, hxw.trans hvw, fun _ _ _ => hxlog⟩
  · refine ⟨hv, hvw, fun x hx hnw => ?_⟩
    obtain rfl := Option.some.inj (hvgrp.symm.trans hx)
    -- a group that did not become full is still writable
    have hfits : ¬ n < b.length := fun hlt => hnot (by simp only [reserved, ← hn, if_pos hlt])
    exact absurd (by simp only [reserved, ← hn, if_neg hfits]; exact not_not.mp hstate) hnw

end Group

/-! ## Opening groups -/

/-- What `Open` cleaned up is of a group without blocks here. -/
theorem Stored.cleanUp (h : Stored Is U A C r) (hnot : ∀ m, ¬ A g m) :
    Stored Is U A C (Group.cleanUp g r) :=
  h.setIndex fun g' m hm hlists => hlists.foldl_drop (fun heq : g' = g => hnot m (heq ▸ hm)) _

namespace Group

variable {row : Row} {blocks bytes jbhead : ℤ} {create staging dropped : Bool}

/-- **The log of a group is opened**, one to be written or not one in use. -/
theorem openJbob_stored (h : Stored Is U A C r) (hnone : r.openGroups row.id = none)
    (hrow : row ∈ r.rows) (hstate : row.state = .writable ∨ ¬ row.state.InUse)
    (hcreate : create = true → (r.log row.id).disk = .empty) :
    wp F (openJbob row.id jbhead create staging dropped) (.settles
      (fun _ r' => ∃ w, r' = cleanUp row.id (Rbstor.setLog row.id w r) ∧
        (row.state.InUse → Keeps Is (fun _ => False) (fun _ => False) w)) (Stored Is U A C)) r := by
  have hlog : wp F (if create then Carlog.CarLog.create staging
      else Carlog.CarLog.openLog staging (some (truncCleanup jbhead dropped))) (.settles
        (fun _ w => row.state.InUse → Keeps Is (fun _ => False) (fun _ => False) w)
        fun w => row.state = .writable → Closed Is w.disk) (r.log row.id) := by
    rcases hstate with hw | hnot
    · split_ifs with hc
      · exact wp_settles_mono (Carlog.CarLog.wp_create_keeps (hcreate hc)) (fun _ _ hk _ => hk)
          fun _ hk _ => hk
      · exact wp_settles_mono (Carlog.CarLog.wp_openLog_keeps (h.closed row hrow hw hnone))
          (fun _ _ hk _ => hk) fun _ hk _ => hk
    · exact wp_mono wp_trivial (fun _ _ _ huse => absurd huse hnot)
        (fun _ _ _ hw => absurd (hw ▸ trivial) hnot) (fun _ => id) fun _ _ => id
  refine wp_settles_seq (wp_settles_attempt (wp_settles_onLog hlog)) ?_
  rintro opened _ (⟨⟨⟩, rfl, w, hw, rfl⟩ | ⟨⟨e, rfl⟩, w, hw, rfl⟩)
  · exact ⟨w, rfl, hw⟩
  · refine (h.setLog_other (fun grp hgrp => ?_) ⟨row, hrow, rfl⟩ fun row' hrow' hid hw' _ => ?_).cleanUp
      (h.not_put hnone)
    · rw [hnone] at hgrp
      exact absurd hgrp (by simp)
    · obtain rfl := List.inj_on_of_nodup_map h.ids hrow' hrow hid
      exact hw hw'

theorem openGroup_stored (h : Stored Is U A C r) (hrow : row ∈ r.rows)
    (hstate : row.state = .writable ∨ ¬ row.state.InUse)
    (hcreate : create = true → (r.log row.id).disk = .empty) :
    wp F (openGroup row.id blocks bytes jbhead row.state create) (.settles
      (fun grp r' => grp = ⟨row.state, 0, 0, blocks, bytes⟩ ∧ r.openGroups row.id = none ∧
        ∃ u w, Stored Is U A C u ∧ u.openGroups = r.openGroups ∧ u.rows = r.rows ∧
          u.writableGroups = r.writableGroups ∧ r' = cleanUp row.id (Rbstor.setLog row.id w u) ∧
          (row.state.InUse → Keeps Is (fun _ => False) (fun _ => False) w)) (Stored Is U A C)) r := by
  refine wp_settles_seq (Q := fun _ r' => r' = r) (wp_settles_handle (wp_settles_step rfl h)) ?_
  rintro - r rfl
  refine wp_settles_get (wp_ite.mpr ⟨fun _ => h, fun hopen => ?_⟩)
  have hnone : r.openGroups row.id = none := by simpa using hopen
  have hmodify : wp F (onLog row.id (.modify fun w => { w with cleaned := [] }))
      (.settles (fun _ r' => ∃ w : Carlog.World, w.disk = (r.log row.id).disk ∧
        r' = Rbstor.setLog row.id w r) (Stored Is U A C)) r :=
    wp_settles_mono (wp_settles_onLog (Q := fun _ w => w = { r.log row.id with cleaned := [] })
      (R := fun _ => False) rfl) (fun _ _ ⟨w, hw, heq⟩ => ⟨w, by rw [hw], heq⟩) fun _ ⟨_, hf, _⟩ => hf.elim
  refine wp_settles_seq hmodify ?_
  rintro - _ ⟨w, hdisk, rfl⟩
  -- the log's files are as they were
  have hu : Stored Is U A C (Rbstor.setLog row.id w r) := by
    refine h.setLog_other (fun grp hgrp => ?_) ⟨row, hrow, rfl⟩ fun row' hrow' hid hw' _ => ?_
    · rw [hnone] at hgrp
      exact absurd hgrp (by simp)
    · rw [hdisk, ← hid]
      exact h.closed row' hrow' hw' (hid ▸ hnone)
  have hopened : ∀ dropped, wp F (do
      openJbob row.id jbhead create r.staging dropped
      return (⟨row.state, 0, 0, blocks, bytes⟩ : Group) : Op Group) (.settles
      (fun grp r' => grp = ⟨row.state, 0, 0, blocks, bytes⟩ ∧ r.openGroups row.id = none ∧
        ∃ u w, Stored Is U A C u ∧ u.openGroups = r.openGroups ∧ u.rows = r.rows ∧
          u.writableGroups = r.writableGroups ∧ r' = cleanUp row.id (Rbstor.setLog row.id w u) ∧
          (row.state.InUse → Keeps Is (fun _ => False) (fun _ => False) w)) (Stored Is U A C))
      (Rbstor.setLog row.id w r) := by
    intro dropped
    refine wp_settles_seq (openJbob_stored hu hnone hrow hstate fun hc => ?_) ?_
    · simpa [Rbstor.setLog, hdisk] using hcreate hc
    · rintro - _ ⟨x, rfl, hx⟩
      exact ⟨rfl, hnone, _, x, hu, rfl, rfl, rfl, rfl, hx⟩
  exact ⟨hopened true, fun _ _ => hopened false, fun _ => trivial⟩

end Group

section

variable {row : Row} {blocks bytes jbhead : ℤ} {create : Bool}

/-- **A group is opened**, and entered into the maps. -/
theorem openGroup_stored (h : Stored Is U A C r) (hrow : row ∈ r.rows)
    (hstate : row.state = .writable ∨ ¬ row.state.InUse)
    (hcreate : create = true → (r.log row.id).disk = .empty) :
    wp F (openGroup row.id blocks bytes jbhead row.state create) (.settles
      (fun _ r' => Stored Is U A C r' ∧
        r'.openGroups row.id = some ⟨row.state, 0, 0, blocks, bytes⟩ ∧
        (row.state = .writable → row.id ∈ r'.writableGroups) ∧ r'.rows = r.rows) (Stored Is U A C)) r := by
  refine wp_settles_seq (wp_settles_handle (Group.openGroup_stored h hrow hstate hcreate)) ?_
  rintro grp _ ⟨rfl, hnone, u, w, hu, hgroups, hrows, hw, rfl, hkeeps⟩
  rw [← hgroups] at hnone
  refine ⟨hu.opened hnone ⟨row, hrows ▸ hrow, rfl, rfl⟩ hkeeps, ?_, fun hwr => ?_, hrows⟩
  · simp [opened, setGroup]
  · simp [opened, hwr]

theorem openRow_stored (h : Stored Is U A C r) (hrow : row ∈ r.rows)
    (hstate : row.state = .writable ∨ ¬ row.state.InUse) : wp F (openRow row) (.settles
      (fun _ r' => Stored Is U A C r' ∧
        r'.openGroups row.id = some ⟨row.state, 0, 0, row.blocks, row.bytes⟩ ∧
        (row.state = .writable → row.id ∈ r'.writableGroups) ∧ r'.rows = r.rows) (Stored Is U A C)) r :=
  openGroup_stored h hrow hstate fun hc => absurd hc (by simp)

/-- Offloading does not touch a group in use. -/
theorem Group.offloadStaging_stored (h : Stored Is U A C r) (hgrp : r.openGroups g = some grp)
    (hrow : ∃ row ∈ r.rows, row.id = g) :
    wp F (offloadStaging g) (.settles (fun _ r' => Stored Is U A C r') (Stored Is U A C)) r := by
  rw [offloadStaging, wp_bind, wp_getGroup hgrp]
  dsimp only
  rw [wp_bind]
  refine wp_ite.mpr ⟨fun _ => h, fun hstate => ?_⟩
  have hnot : ∀ x, r.openGroups g = some x → ¬ x.state.InUse := by
    intro x hx
    rw [← Option.some.inj (hgrp.symm.trans hx), not_not.mp hstate]
    exact id
  have hlog : ∀ w, Stored Is U A C (Rbstor.setLog g w r) := fun w =>
    h.setLog_other hnot hrow fun row' _ hid _ hnone => by
      rw [hgrp] at hnone
      exact absurd hnone (by simp)
  refine wp_settles_seq (Q := fun _ r' => ∃ w, r' = Rbstor.setLog g w r) ?_ ?_
  · refine wp_settles_handle (wp_settles_mono (wp_settles_onLog (Q := fun _ _ => True)
      (R := fun _ => True) (wp_mono wp_trivial (fun _ _ => id) (fun _ _ => id) (fun _ => id)
        fun _ _ => id)) (fun _ _ ⟨w, _, heq⟩ => ⟨w, heq⟩) ?_)
    rintro _ ⟨w, -, rfl⟩
    exact hlog w
  · rintro - _ ⟨w, rfl⟩
    refine wp_settles_handle (wp_settles_step ?_ (hlog w))
    refine (hlog w).mapRows (fun row => ?_) (fun row huse => ?_) fun row hw _ => ?_
    · split_ifs <;> rfl
    · split_ifs <;> exact huse
    · split_ifs at hw <;> exact hw

theorem withReadableGroup_stored (h : Stored Is U A C r) (hrow : row ∈ r.rows)
    (hstate : ¬ row.state.InUse) :
    wp F (withReadableGroup row (Group.offloadStaging row.id))
      (.settles (fun _ r' => Stored Is U A C r') (Stored Is U A C)) r := by
  refine wp_settles_seq (Q := fun _ r' => r' = r) (wp_settles_handle (wp_settles_step rfl h)) ?_
  rintro - r rfl
  refine wp_settles_get (wp_ite.mpr ⟨fun hopen => ?_, fun _ => ?_⟩)
  · obtain ⟨grp, hgrp⟩ := Option.isSome_iff_exists.mp hopen
    exact Group.offloadStaging_stored h hgrp ⟨row, hrow, rfl⟩
  · refine wp_settles_seq (openRow_stored h hrow (Or.inr hstate)) ?_
    rintro - u ⟨hu, hgrp, -, hrows⟩
    exact Group.offloadStaging_stored hu hgrp ⟨row, hrows ▸ hrow, rfl⟩

/-- **Making space** does not touch a group in use. -/
theorem ensureSpaceForGroup_stored (h : Stored Is U A C r) : wp F ensureSpaceForGroup
    (.settles (fun _ r' => Stored Is U A C r') (Stored Is U A C)) r := by
  refine wp_settles_seq (Q := fun _ r' => r' = r) (wp_settles_handle ?_) ?_
  · exact wp_settles_seq (Q := fun _ r' => r' = r) (wp_settles_step rfl h) fun _ _ hr => hr
  rintro n r rfl
  refine wp_ite.mpr ⟨fun _ => h, fun _ => ?_⟩
  refine wp_settles_seq (Q := fun row r' => r' = r ∧
    ∀ x, row = some x → x ∈ r.rows ∧ ¬ x.state.InUse) (wp_settles_handle ?_) ?_
  · refine wp_settles_seq (Q := fun _ r' => r' = r) (wp_settles_step rfl h) ?_
    rintro - r rfl
    refine ⟨rfl, fun x hx => ?_⟩
    rcases Option.or_eq_some_iff.mp hx with hx | ⟨-, hx⟩
    · obtain ⟨hmem, hstate⟩ := mem_of_firstOf hx
      exact ⟨hmem, by rw [hstate]; exact id⟩
    · obtain ⟨hmem, hstate⟩ := mem_of_firstOf hx
      exact ⟨hmem, by rw [hstate]; exact id⟩
  rintro candidate r ⟨rfl, hrow⟩
  cases candidate with
  | none => trivial
  | some row =>
    obtain ⟨hmem, hstate⟩ := hrow row rfl
    exact withReadableGroup_stored h hmem hstate

end

/-! ## Selecting a group -/

/-- **A selected group**: when it was filled, nothing of it is in flight. -/
def Selectable (Is : Multihash → Bytes → Prop) (U : GroupKey → Prop) (A C : Pairs) (g : GroupKey)
    (r : Rbs) : Prop :=
  Stored Is U A C r ∧ g ∈ r.writableGroups ∧ ∃ grp, r.openGroups g = some grp ∧
    (grp.state ≠ .writable → grp.inflightBlocks = 0)

omit X in
theorem lt_nextId {rows : List Row} {row : Row} (h : row ∈ rows) : row.id.toNat < nextId rows := by
  induction rows with
  | nil => exact absurd h List.not_mem_nil
  | cons x rows ih =>
    simp only [nextId, List.map_cons, List.foldr_cons] at ih ⊢
    rcases List.mem_cons.mp h with rfl | h
    · omega
    · have := ih h
      omega

/-- **A group is created**: its id is new, and so is its log. -/
theorem createGroup_stored (h : Stored Is U A C r) : wp F createGroup
    (.settles (fun g r' => Selectable Is U A C g r') (Stored Is U A C)) r := by
  refine wp_settles_seq (wp_settles_handle (ensureSpaceForGroup_stored h)) ?_
  intro _ u hu
  refine wp_settles_seq (Q := fun g r' => Stored Is U A C r' ∧ (r'.log g).disk = .empty ∧
    ⟨g, 0, 0, .writable, 0, false⟩ ∈ r'.rows) (wp_settles_handle ?_) ?_
  · refine wp_settles_get (wp_settles_seq (Q := fun _ r' => r' = u ∧ nextId u.rows < 2 ^ 63) ?_ ?_)
    · exact wp_ite.mpr ⟨fun _ => hu, fun hlt => ⟨rfl, not_le.mp hlt⟩⟩
    rintro - u ⟨rfl, hlt⟩
    set g : GroupKey := BitVec.ofNat 64 (nextId u.rows) with hg
    have htoNat : g.toNat = nextId u.rows := by
      rw [hg, BitVec.toNat_ofNat, Nat.mod_eq_of_lt (hlt.trans (by norm_num))]
    have hnew : ∀ row ∈ u.rows, row.id ≠ g := by
      intro row hrow heq
      have := lt_nextId hrow
      rw [heq, htoNat] at this
      exact absurd this (lt_irrefl _)
    refine wp_settles_seq (Q := fun _ r' => r' = { u with
      rows := u.rows ++ [⟨g, 0, 0, .writable, 0, false⟩] }) (wp_settles_step rfl hu) ?_
    rintro - _ rfl
    exact ⟨hu.newRow hnew (by rw [NonNegative, htoNat]; exact hlt), hu.fresh g hnew,
      List.mem_append_right _ List.mem_cons_self⟩
  rintro g v ⟨hv, hempty, hrow⟩
  refine wp_settles_seq (wp_settles_handle (openGroup_stored hv hrow
    (Or.inl rfl) fun _ => hempty)) ?_
  rintro - x ⟨hx, hgrp, hw, -⟩
  exact ⟨hx, hw rfl, _, hgrp, fun _ => rfl⟩

/-- **The condition on a state in which a group may be selected**: the one
that is picked, when it is not writable, has no writes in flight. -/
def Rbs.Clear (r : Rbs) : Prop := ∀ g grp,
  r.writableGroups[r.pick r.picked % r.writableGroups.length]? = some g →
    r.openGroups g = some grp → grp.state ≠ .writable → grp.inflightBlocks = 0

theorem selectGroup_stored (h : Stored Is U A C r) (hclear : r.Clear) : wp F selectGroup
    (.settles (fun g r' => Selectable Is U A C g r') (Stored Is U A C)) r := by
  refine wp_settles_get (wp_ite.mpr ⟨fun _ => ?_, fun _ => ?_⟩)
  · refine wp_settles_mono wp_settles_choose ?_ fun _ => id
    rintro g _ ⟨hpick, rfl⟩
    have hmem := List.mem_of_getElem? hpick
    obtain ⟨grp, hgrp, -⟩ := h.writable g hmem
    exact ⟨h.of_eq rfl rfl rfl rfl rfl, hmem, grp, hgrp, hclear g grp hpick hgrp⟩
  · refine wp_settles_seq (Q := fun row r' => Stored Is U A C r' ∧
      ∀ x, row = some x → x ∈ r'.rows ∧ x.state = .writable) ?_ ?_
    · refine wp_settles_seq (Q := fun _ r' => r' = r)
        (wp_settles_handle (wp_settles_step rfl h)) ?_
      rintro - r rfl
      refine wp_settles_get (wp_ite.mpr ⟨fun _ => ⟨h, by simp⟩, fun _ => ?_⟩)
      refine wp_settles_seq wp_settles_choose ?_
      rintro row _ ⟨hrow, rfl⟩
      refine ⟨h.of_eq rfl rfl rfl rfl rfl, ?_⟩
      rintro _ ⟨⟩
      obtain ⟨hmem, hstate⟩ := List.mem_filter.mp (List.mem_of_getElem? hrow)
      exact ⟨hmem, by simpa using hstate⟩
    rintro selected u ⟨hu, hrow⟩
    cases selected with
    | none => exact wp_settles_handle (createGroup_stored hu)
    | some row =>
      obtain ⟨hmem, hstate⟩ := hrow row rfl
      refine wp_settles_seq (wp_settles_handle (openRow_stored hu hmem (Or.inl hstate))) ?_
      rintro - v ⟨hv, hgrp, hw, -⟩
      exact ⟨hv, hw hstate, _, hgrp, fun hnot => absurd hstate hnot⟩

/-! ## An iteration of `Batch.Put` -/

/-- **A group that was filled is dropped**, its blocks being durable. -/
theorem dropFilled_stored (h : Stored Is U A C r) (hw : g ∈ r.writableGroups)
    (hkeeps : ∀ x, r.openGroups g = some x → x.state ≠ .writable →
      Keeps Is (A g) (A g) (r.log g)) :
    wp F (dropFilled g) (.settles (fun _ r' => Stored Is U A C r') (Stored Is U A C)) r := by
  obtain ⟨grp, hgrp, -⟩ := h.writable g hw
  refine wp_settles_get ?_
  rw [if_pos hw, wp_bind, wp_getGroup hgrp]
  refine wp_ite.mpr ⟨fun hstate => ?_, fun _ => h⟩
  refine h.erase fun x hx _ => hkeeps x hx ?_
  rwa [← Option.some.inj (hgrp.symm.trans hx)]

/-- **An iteration adds the blocks it wrote** to its group. -/
theorem Batch.putStep_stored (bt : Batch) (h : Stored Is U A C r) (hclear : r.Clear)
    (hIs : ∀ blk ∈ b, Is blk.hash blk.data) : wp F (bt.putStep b) (.settles
      (fun e r' => e.1.toFlush = bt.toFlush.insert e.2.group ∧ e.2.blocks <+: b ∧
        Stored Is U (A.add e.2.group e.2.blocks) C r') (Stored Is U A C)) r := by
  refine wp_settles_seq (Q := fun e r' => Stored Is U (A.add e.1 (b.take e.2)) C r')
    (wp_settles_handle ?_) fun e u hu => ⟨rfl, List.take_prefix _ _, hu⟩
  refine wp_settles_seq (selectGroup_stored h hclear) ?_
  rintro g u ⟨hu, hmem, grp, hgrp, hcl⟩
  refine wp_settles_seq (Group.put_stored hu hgrp hmem hcl hIs) ?_
  rintro n v ⟨hv, hvw, hkeeps⟩
  refine wp_settles_seq (wp_settles_mono (dropFilled_stored hv (hvw ▸ hmem) hkeeps)
    (fun _ _ => id) fun _ hx => hx.imp_put (fun _ _ => le_add) h.le) ?_
  exact fun _ x hx => hx

end

end Rbstor

end Ribs
