import Ribs.Rbstor.OffloadedFlag
import Ribs.Rbstor.Written
/-!
# Rbstor — the counters of a group

`Put` counts the blocks that it has room for as in flight, and sets the
state, before it writes anything; `sync` moves what is in flight to what
is committed. So a `Put` that fails leaves its reservation behind, and the
two limits of a group are kept or not by the reservation alone. The room
for bytes is measured against everything that is reserved, the room for
blocks only against what is committed.
-/

namespace Ribs

open Common

namespace Rbstor

open Carlog (Block)

variable {α : Type} {g : GroupKey} {r r' : Rbs} {grp grp' : Group} {b : List Block}

/-! ## Room -/

/-- The bytes of a batch. -/
def dataSize (b : List Block) : ℤ := (b.map fun blk => (blk.data.length : ℤ)).sum

/-- **The group is within its limits**, with what is in flight. -/
structure Group.InCapacity (grp : Group) : Prop where
  blocks : grp.committedBlocks + grp.inflightBlocks ≤ maxGroupBlocks
  size : grp.committedSize + grp.inflightSize ≤ maxGroupSize

/-- The batch has its blocks one after the other. -/
theorem dataSize_cons (blk : Block) (b : List Block) :
    dataSize (blk :: b) = blk.data.length + dataSize b := by
  rw [dataSize, List.map_cons, List.sum_cons, dataSize]

theorem dataSize_nonneg (b : List Block) : 0 ≤ dataSize b := by
  induction b with
  | nil => exact le_refl 0
  | cons blk b ih =>
    rw [dataSize_cons]
    omega

/-- Less of a batch is fewer bytes. -/
theorem dataSize_mono {p q : List Block} (h : p <+: q) : dataSize p ≤ dataSize q := by
  obtain ⟨rest, rfl⟩ := h
  have happ : dataSize (p ++ rest) = dataSize p + dataSize rest := by
    rw [dataSize, List.map_append, List.sum_append, dataSize, dataSize]
  have := dataSize_nonneg rest
  omega

/-- A beginning of a batch that has room, as the loop of `Put` measures it. -/
structure HasRoom (avail room : ℤ) (b p : List Block) : Prop where
  le : p <+: b
  size : dataSize p ≤ avail
  blocks : p.length ≤ room

/-- **The loop of `Put`** takes the longest beginning that has room. -/
theorem reserve_eq (avail comm ws : ℤ) (n : ℕ) (b : List Block) : ∃ p, p <+: b ∧
    Group.reserve avail comm ws n b = (ws + dataSize p, n + p.length) ∧
    (p ≠ [] → HasRoom (avail - ws) (maxGroupBlocks - comm - n) b p) ∧
    ∀ q, HasRoom (avail - ws) (maxGroupBlocks - comm - n) b q → q.length ≤ p.length := by
  induction b generalizing ws n with
  | nil =>
    refine ⟨[], List.prefix_rfl, by simp [Group.reserve, dataSize], fun h => absurd rfl h,
      fun q hq => ?_⟩
    rw [List.prefix_nil.mp hq.le]
  | cons blk b ih =>
    rw [Group.reserve]
    split_ifs with hfull
    -- the first block does not fit, and sizes are not negative
    · refine ⟨[], List.nil_prefix, by simp [dataSize], fun h => absurd rfl h, fun q hq => ?_⟩
      cases q with
      | nil => exact le_refl _
      | cons x q =>
        obtain ⟨rfl, -⟩ := List.cons_prefix_cons.mp hq.le
        have hsize := hq.size
        have hblocks := hq.blocks
        have hnonneg := dataSize_nonneg q
        rw [dataSize_cons] at hsize
        rw [List.length_cons] at hblocks
        push_cast at hblocks
        omega
    -- it fits, and the loop goes on with the room that is left
    · obtain ⟨p, hp, heq, hroom, hmost⟩ := ih (ws + blk.data.length) (n + 1)
      refine ⟨blk :: p, List.cons_prefix_cons.mpr ⟨rfl, hp⟩, ?_, fun _ => ?_, fun q hq => ?_⟩
      · rw [heq, dataSize_cons, List.length_cons, add_assoc]
        congr 1
        omega
      · have hrest : dataSize p ≤ avail - ws - blk.data.length ∧
            (p.length : ℤ) + 1 ≤ maxGroupBlocks - comm - n := by
          cases p with
          | nil =>
            rw [dataSize, List.map_nil, List.sum_nil, List.length_nil]
            push_cast
            omega
          | cons x p =>
            have h := hroom (List.cons_ne_nil x p)
            have hsize := h.size
            have hblocks := h.blocks
            push_cast at hblocks ⊢
            omega
        refine ⟨List.cons_prefix_cons.mpr ⟨rfl, hp⟩, ?_, ?_⟩
        · rw [dataSize_cons]
          omega
        · rw [List.length_cons]
          push_cast
          omega
      · cases q with
        | nil => exact Nat.zero_le _
        | cons x q =>
          obtain ⟨rfl, hle⟩ := List.cons_prefix_cons.mp hq.le
          have hsize := hq.size
          have hblocks := hq.blocks
          rw [dataSize_cons] at hsize
          rw [List.length_cons] at hblocks
          push_cast at hblocks
          -- whatever has room without it is no longer than what the loop takes
          have := hmost q ⟨hle, by omega, by push_cast; omega⟩
          rw [List.length_cons, List.length_cons]
          omega

/-- What fits into the group, of a batch. -/
theorem Group.space_eq (grp : Group) (b : List Block) : ∃ p, p <+: b ∧
    grp.space b = (dataSize p, p.length) ∧
    (p ≠ [] → HasRoom (maxGroupSize - grp.committedSize - grp.inflightSize)
      (maxGroupBlocks - grp.committedBlocks) b p) ∧
    ∀ q, HasRoom (maxGroupSize - grp.committedSize - grp.inflightSize)
      (maxGroupBlocks - grp.committedBlocks) b q → q.length ≤ p.length := by
  have h := reserve_eq (maxGroupSize - grp.committedSize - grp.inflightSize)
    grp.committedBlocks 0 0 b
  simpa [Group.space] using h

/-- **No block is in flight, or none of the beginnings of the batch that
the bytes leave room for is too many for the blocks.** -/
def Group.Roomy (grp : Group) (b : List Block) : Prop :=
  grp.inflightBlocks = 0 ∨ ∀ q, q <+: b →
    dataSize q ≤ maxGroupSize - grp.committedSize - grp.inflightSize →
    grp.committedBlocks + grp.inflightBlocks + q.length ≤ maxGroupBlocks

/-- **The reservation keeps the limits** exactly then. -/
theorem Group.reserved_inCapacity_iff (hin : grp.InCapacity) (hpos : 0 ≤ grp.inflightBlocks)
    (b : List Block) : (grp.reserved b).InCapacity ↔ grp.Roomy b := by
  obtain ⟨p, hp, hspace, hroom, hmost⟩ := grp.space_eq b
  have hblocks := hin.blocks
  have hsize := hin.size
  have hiff : (grp.reserved b).InCapacity ↔
      grp.committedBlocks + (grp.inflightBlocks + p.length) ≤ maxGroupBlocks ∧
      grp.committedSize + (grp.inflightSize + dataSize p) ≤ maxGroupSize := by
    have hb : (grp.reserved b).inflightBlocks = grp.inflightBlocks + (grp.space b).2 := rfl
    have hs : (grp.reserved b).inflightSize = grp.inflightSize + (grp.space b).1 := rfl
    rw [hspace] at hb hs
    exact ⟨fun h => ⟨hb ▸ h.blocks, hs ▸ h.size⟩, fun h => ⟨hb.symm ▸ h.1, hs.symm ▸ h.2⟩⟩
  rw [hiff]
  constructor
  · rintro ⟨hle, -⟩
    by_contra hnot
    obtain ⟨hfly, q, hq, hqsize, hqblocks⟩ : grp.inflightBlocks ≠ 0 ∧ ∃ q, q <+: b ∧
        dataSize q ≤ maxGroupSize - grp.committedSize - grp.inflightSize ∧
        maxGroupBlocks < grp.committedBlocks + grp.inflightBlocks + q.length := by
      unfold Group.Roomy at hnot
      push Not at hnot
      exact hnot
    -- what is committed leaves room for so many of them, and in flight there is one more
    have hroomy := hmost (q.take (maxGroupBlocks - grp.committedBlocks).toNat)
      ⟨(List.take_prefix _ q).trans hq, (dataSize_mono (List.take_prefix _ q)).trans hqsize, by
        rw [List.length_take]
        omega⟩
    rw [List.length_take] at hroomy
    omega
  · intro h
    rcases eq_or_ne p [] with rfl | hne
    · rw [dataSize, List.map_nil, List.sum_nil, List.length_nil]
      push_cast
      omega
    · have hle := (hroom hne).size
      have hlen := (hroom hne).blocks
      refine ⟨?_, by omega⟩
      rcases h with hzero | hall
      · omega
      · have := hall p hp hle
        omega

/-! ## What leaves the group alone -/

/-- The group in memory is what it was. -/
def SameGroup (g : GroupKey) (r r' : Rbs) : Prop := r'.openGroups g = r.openGroups g

instance : IsPreorder Rbs (SameGroup g) where
  refl _ := rfl
  trans _ _ _ h h' := h'.trans h

theorem sameGroup_wrapErr {s : String} {m : Op α} (h : Respects (SameGroup g) m) :
    Respects (SameGroup g) (wrapErr s m) := h.handle fun _ => .throw

/-- Whatever a log does. -/
theorem sameGroup_onLog {k : GroupKey} {m : Carlog.Op α} : Respects (SameGroup g) (onLog k m) :=
  .zoom (fun _ _ => by simp [setLog]) (fun _ _ _ => by simp [setLog])
    (fun _ => by simp [setLog]) (fun _ _ _ => rfl) respects_anywhere

section

variable [X : Carlog.External]

theorem sameGroup_write : Respects (SameGroup g) (Group.write g b) := by
  have hput : Respects (SameGroup g) (Group.putLog g b) :=
    (sameGroup_wrapErr sameGroup_onLog).bind fun _ => .modify fun _ => by rfl
  have hadd : Respects (SameGroup g) (Group.addIndex g b) := .get fun r => by
    split
    · exact .fault
    · exact sameGroup_wrapErr (.step fun _ => by rfl)
  refine hput.attempt.bind fun put => hadd.attempt.bind fun add => ?_
  split
  · exact .throw
  · exact .throw
  · exact .ret

/-! ## What `sync` and `Put` do to it -/

omit X in
theorem setGroup_same : (setGroup g grp r).openGroups g = some grp := Function.update_self ..

omit X in
/-- **`sync`** moves what is in flight, unless it fails before. -/
theorem wp_sync_group (hgrp : r.openGroups g = some grp) : wp anyFate (Group.sync g)
    ⟨fun _ r' => r'.openGroups g = some grp.committed,
      fun _ r' => r'.openGroups g = some grp ∨ r'.openGroups g = some grp.committed,
      fun r' => r'.openGroups g = some grp ∨ r'.openGroups g = some grp.committed,
      fun _ r' => r'.openGroups g = some grp ∨ r'.openGroups g = some grp.committed⟩ r := by
  have hcommit := sameGroup_wrapErr (s := "committing jbob")
    (sameGroup_onLog (g := g) (k := g) (m := Carlog.CarLog.commit)) r
  refine wp_seq hcommit (fun at_ t ht => ?_) (fun _ t ht => Or.inl (ht.trans hgrp))
    (fun t ht => Or.inl (ht.trans hgrp)) fun _ t ht => Or.inl (ht.trans hgrp)
  have hopen : t.openGroups g = some grp := ht.trans hgrp
  rw [wp_bind]
  refine wp_getGroup_bind (Or.inl hopen) fun grp₁ h₁ => ?_
  obtain rfl : grp = grp₁ := Option.some.inj (hopen.symm.trans h₁)
  have hdb : Respects (SameGroup g) (wrapErr "update group head"
      (setGroupHead g grp.committed.state grp.committed.committedBlocks
        grp.committed.committedSize at_)) := sameGroup_wrapErr (.step fun _ => by rfl)
  have hset : (setGroup g grp.committed t).openGroups g = some grp.committed := setGroup_same
  refine wp_getGroup_bind (Or.inr hset) fun grp₂ h₂ => ?_
  obtain rfl : grp.committed = grp₂ := Option.some.inj (hset.symm.trans h₂)
  exact wp_mono (hdb _) (fun _ _ hs => hs.trans hset) (fun _ _ hs => Or.inr (hs.trans hset))
    (fun _ hs => Or.inr (hs.trans hset)) fun _ _ hs => Or.inr (hs.trans hset)

/-- A `Put` that writes: what it leaves of the group. -/
structure Group.Reserves (grp : Group) (b : List Block) (grp' : Group) : Prop where
  ne : b ≠ []
  writable : grp.state = .writable
  eq : grp' = grp.reserved b ∨ (grp.reserved b).state = .full ∧ grp' = (grp.reserved b).committed

/-- **`Put`** leaves its reservation, however it ends; only when it writes
nothing the group is as it was, and then it returns nil. -/
theorem wp_put_group (hgrp : r.openGroups g = some grp) :
    wp anyFate (Group.put g b)
      ⟨fun _ r' => (b = [] ∨ grp.state ≠ .writable) ∧ r' = r ∨
          ∃ grp', r'.openGroups g = some grp' ∧ grp.Reserves b grp',
        fun _ r' => ∃ grp', r'.openGroups g = some grp' ∧ grp.Reserves b grp',
        fun r' => ∃ grp', r'.openGroups g = some grp' ∧ grp.Reserves b grp',
        fun _ r' => ∃ grp', r'.openGroups g = some grp' ∧ grp.Reserves b grp'⟩ r := by
  unfold Group.put
  by_cases hb : b = []
  · rw [if_pos hb]
    exact Or.inl ⟨Or.inl hb, rfl⟩
  rw [if_neg hb, wp_bind, wp_getGroup hgrp]
  change wp anyFate (if grp.state ≠ .writable then _ else _) _ r
  by_cases hstate : grp.state ≠ .writable
  · rw [if_pos hstate]
    exact Or.inl ⟨Or.inr hstate, rfl⟩
  rw [if_neg hstate, wp_bind, wp_modify]
  have hwritable : grp.state = .writable := Decidable.not_not.mp hstate
  have hset : (setGroup g (grp.reserved b) r).openGroups g = some (grp.reserved b) := setGroup_same
  have hleft : ∀ t, SameGroup g (setGroup g (grp.reserved b) r) t →
      ∃ grp', t.openGroups g = some grp' ∧ grp.Reserves b grp' := fun t ht =>
    ⟨_, ht.trans hset, hb, hwritable, Or.inl rfl⟩
  refine wp_seq (sameGroup_write _) (fun _ t ht => ?_) (fun _ => hleft) hleft fun _ => hleft
  refine wp_ite.mpr ⟨fun hfull => ?_, fun _ => Or.inr (hleft t ht)⟩
  -- the group is full: it is synced, and its log marked
  have hcommitted : ∀ u : Rbs, u.openGroups g = some (grp.reserved b).committed →
      ∃ grp', u.openGroups g = some grp' ∧ grp.Reserves b grp' := fun u hu =>
    ⟨_, hu, hb, hwritable, Or.inr ⟨hfull, rfl⟩⟩
  have heither : ∀ u : Rbs, u.openGroups g = some (grp.reserved b) ∨
      u.openGroups g = some (grp.reserved b).committed →
      ∃ grp', u.openGroups g = some grp' ∧ grp.Reserves b grp' := fun u hu =>
    hu.elim (fun hu => ⟨_, hu, hb, hwritable, Or.inl rfl⟩) (hcommitted u)
  rw [wp_bind, Group.retire, wp_bind, wrapErr, wp_handle]
  refine wp_mono (wp_sync_group (ht.trans hset)) (fun _ u hu => ?_) (fun _ => heither) heither
    fun _ => heither
  have hmark := sameGroup_wrapErr (s := "mark jbob read-only")
    (sameGroup_onLog (g := g) (k := g) (m := Carlog.CarLog.markReadOnly)) u
  exact wp_mono hmark (fun _ v hv => Or.inr (hcommitted v (hv.trans hu)))
    (fun _ v hv => hcommitted v (hv.trans hu)) (fun v hv => hcommitted v (hv.trans hu))
    fun _ v hv => hcommitted v (hv.trans hu)

/-! ## A `Put` that fails -/

omit X in
/-- A reservation is never nothing. -/
theorem Group.Reserves.changed (h : grp.Reserves b grp') : grp' ≠ grp := by
  rintro rfl
  have hpos : 0 < b.length := List.length_pos_iff.mpr h.ne
  have hstate : grp'.state = (grp'.reserved b).state := by
    rcases h.eq with heq | ⟨-, heq⟩
    · exact congrArg Group.state heq
    · exact (congrArg Group.state heq).trans rfl
  by_cases hfull : (grp'.space b).2 < b.length
  · have : (grp'.reserved b).state = .full := if_pos hfull
    rw [← hstate, h.writable] at this
    exact absurd this (by decide)
  · have hnot : (grp'.reserved b).state = grp'.state := if_neg hfull
    rcases h.eq with heq | ⟨hf, -⟩
    · have hblocks : grp'.inflightBlocks = grp'.inflightBlocks + (grp'.space b).2 :=
        congrArg Group.inflightBlocks heq
      omega
    · rw [hnot, h.writable] at hf
      exact absurd hf (by decide)

/-- **A `Put` that returns an error never leaves the group as it was**: the
reservation stays, and when the group was filled and synced it counts as
committed. -/
theorem Group.put_err_changed (hgrp : r.openGroups g = some grp) {plan : List Fate} {e : Err}
    (h : (Group.put g b).run r plan = .err e r') : ∃ grp', r'.openGroups g = some grp' ∧
      grp' ≠ grp ∧ (grp' = grp.reserved b ∨
        (grp.reserved b).state = .full ∧ grp' = (grp.reserved b).committed) := by
  have hsat := wp_sound (wp_put_group (b := b) hgrp) (within_anyFate plan)
  rw [h] at hsat
  obtain ⟨grp', hgrp', hres⟩ := hsat
  exact ⟨grp', hgrp', hres.changed, hres.eq⟩

/-! ## The two limits, in runs -/

omit X in
theorem Group.committed_inCapacity_iff : grp.committed.InCapacity ↔ grp.InCapacity := by
  have hb : grp.committed.committedBlocks + grp.committed.inflightBlocks =
      grp.committedBlocks + grp.inflightBlocks := add_zero _
  have hs : grp.committed.committedSize + grp.committed.inflightSize =
      grp.committedSize + grp.inflightSize := add_zero _
  exact ⟨fun h => ⟨hb ▸ h.blocks, hs ▸ h.size⟩, fun h => ⟨hb.symm ▸ h.blocks, hs.symm ▸ h.size⟩⟩

/-- Where an event ends, before the process is gone with what it did. -/
def Life.reaches (g : GroupKey) (l : Life) : LifeEvent → Life
  | .call cmd plan => if l.enabled g cmd then ((cmd.op g).run l plan).state else l
  | .kill => l

omit X in
/-- The event is a `Put` or a `Sync`. -/
def LifeEvent.PutOrSync : LifeEvent → Prop
  | .call (.put _) _ => True
  | .call .sync _ => True
  | _ => False

omit X in
/-- A `Put` into a writable group has room for what is in flight, too. -/
def RoomyAt (g : GroupKey) (l : Life) : LifeEvent → Prop
  | .call (.put b) _ => ∀ grp, l.group g = some grp → grp.state = .writable → grp.Roomy b
  | _ => True

/-- The event leaves the group within its limits. -/
def WithinLimits (g : GroupKey) (l : Life) (e : LifeEvent) : Prop :=
  ∀ grp, (l.reaches g e).group g = some grp → grp.InCapacity

/-- The groups that a `Put` or a `Sync` may leave of a group. -/
def LifeEvent.Leaves (grp grp' : Group) : LifeEvent → Prop
  | .call (.put b) _ => (b = [] ∨ grp.state ≠ .writable) ∧ grp' = grp ∨ grp.Reserves b grp'
  | _ => grp' = grp ∨ grp' = grp.committed

omit X in
theorem LifeEvent.PutOrSync.eq {e : LifeEvent} (he : e.PutOrSync) :
    (∃ b plan, e = .call (.put b) plan) ∨ ∃ plan, e = .call .sync plan := by
  unfold LifeEvent.PutOrSync at he
  split at he
  · exact Or.inl ⟨_, _, rfl⟩
  · exact Or.inr ⟨_, rfl⟩
  · exact absurd he id

theorem reaches_call {l : Life} {cmd : LifeCmd} {plan : List Fate} {Q : Life → Prop}
    (henabled : l.enabled g cmd = true) (h : wp anyFate (cmd.op g) (.always Q) l) :
    Q (l.reaches g (.call cmd plan)) := by
  rw [show l.reaches g (.call cmd plan) = ((cmd.op g).run l plan).state from if_pos henabled]
  exact (wp_sound h (within_anyFate plan)).state

theorem reaches_leaves {l : Life} {e : LifeEvent} (he : e.PutOrSync)
    (hgrp : l.group g = some grp) :
    ∃ grp', (l.reaches g e).group g = some grp' ∧ e.Leaves grp grp' := by
  have hopen : l.rbs.openGroups g = some grp := hgrp
  have hsome : (l.group g).isSome = true := by rw [hgrp]; rfl
  obtain ⟨b, plan, rfl⟩ | ⟨plan, rfl⟩ := he.eq
  · refine reaches_call (Q := fun l' => ∃ grp', l'.group g = some grp' ∧
      (LifeEvent.call (.put b) plan).Leaves grp grp') hsome (wp_onRbs_always ?_)
    have hleft : ∀ r' : Rbs, (∃ grp', r'.openGroups g = some grp' ∧ grp.Reserves b grp') →
        ∃ grp', r'.openGroups g = some grp' ∧
          ((b = [] ∨ grp.state ≠ .writable) ∧ grp' = grp ∨ grp.Reserves b grp') := fun r' h =>
      h.imp fun grp' h' => ⟨h'.1, Or.inr h'.2⟩
    refine wp_seq (wp_put_group hopen) (fun _ r' h => ?_) (fun _ => hleft) hleft fun _ => hleft
    rcases h with ⟨hnot, rfl⟩ | h
    · exact ⟨grp, hopen, Or.inl ⟨hnot, rfl⟩⟩
    · exact hleft r' h
  · refine reaches_call (Q := fun l' => ∃ grp', l'.group g = some grp' ∧
      (LifeEvent.call .sync plan).Leaves grp grp') hsome (wp_onRbs_always ?_)
    have hleft : ∀ r' : Rbs, r'.openGroups g = some grp ∨ r'.openGroups g = some grp.committed →
        ∃ grp', r'.openGroups g = some grp' ∧ (grp' = grp ∨ grp' = grp.committed) := fun r' h =>
      h.elim (fun h => ⟨_, h, Or.inl rfl⟩) fun h => ⟨_, h, Or.inr rfl⟩
    exact wp_mono (wp_sync_group hopen) (fun _ r' h => hleft r' (Or.inr h)) (fun _ => hleft)
      hleft fun _ => hleft

/-- What an event leaves in memory is there where it ended. -/
theorem group_next {l : Life} {e : LifeEvent} (h : ((Life.next g) l e).group g = some grp) :
    (l.reaches g e).group g = some grp := by
  have hdown : ∀ l' : Life, (l'.down g).group g = none := fun l' => by
    simp [Life.down, Life.group]
  cases e with
  | kill =>
    rw [show (Life.next g) l .kill = l.down g from rfl, hdown] at h
    exact absurd h (by simp)
  | call cmd plan =>
    simp only [Life.next] at h
    simp only [Life.reaches]
    split_ifs at h ⊢ with henabled
    · cases hrun : (cmd.op g).run l plan with
      | ok a l' => rwa [hrun] at h
      | err e l' => rwa [hrun] at h
      | crash l' =>
        rw [hrun, show Life.after g (.crash l') = l'.down g from rfl, hdown] at h
        exact absurd h (by simp)
      | fault k l' =>
        rw [hrun, show Life.after g (.fault k l') = l'.down g from rfl, hdown] at h
        exact absurd h (by simp)
    · exact h

/-- The group is within its limits, and nothing less than nothing is in
flight. -/
def Sound (g : GroupKey) (l : Life) : Prop :=
  ∀ grp, l.group g = some grp → grp.InCapacity ∧ 0 ≤ grp.inflightBlocks

theorem reaches_closed {l : Life} {e : LifeEvent} (he : e.PutOrSync) (hgrp : l.group g = none) :
    l.reaches g e = l := by
  have hnot : ¬ (l.group g).isSome = true := by simp [hgrp]
  obtain ⟨b, plan, rfl⟩ | ⟨plan, rfl⟩ := he.eq
  · exact if_neg hnot
  · exact if_neg hnot

/-- **One event** keeps the limits exactly when there is room. -/
theorem withinLimits_iff {l : Life} {e : LifeEvent} (hl : Sound g l) (he : e.PutOrSync) :
    RoomyAt g l e ↔ WithinLimits g l e := by
  cases hgrp : l.group g with
  | none =>
    have hnone : ∀ grp, ¬ l.group g = some grp := fun grp h => by
      rw [hgrp] at h
      exact absurd h (by simp)
    refine iff_of_true ?_ fun grp h => ?_
    swap
    · rw [reaches_closed he hgrp] at h
      exact absurd h (hnone grp)
    obtain ⟨b, plan, rfl⟩ | ⟨plan, rfl⟩ := he.eq
    · exact fun grp h => absurd h (hnone grp)
    · trivial
  | some grp =>
    obtain ⟨hin, hpos⟩ := hl grp hgrp
    obtain ⟨grp', hgrp', hleaves⟩ := reaches_leaves he hgrp
    have hwithin : WithinLimits g l e ↔ grp'.InCapacity := by
      unfold WithinLimits
      simp [hgrp']
    rw [hwithin]
    obtain ⟨b, plan, rfl⟩ | ⟨plan, rfl⟩ := he.eq
    · have hroomy : RoomyAt g l (.call (.put b) plan) ↔ (grp.state = .writable → grp.Roomy b) := by
        simp [RoomyAt, hgrp]
      rw [hroomy]
      rcases hleaves with ⟨hnot, rfl⟩ | hres
      · refine iff_of_true (fun hw => Or.inr fun q hq _ => ?_) hin
        obtain rfl := hnot.resolve_right fun h => h hw
        have := hin.blocks
        rw [List.prefix_nil.mp hq, List.length_nil]
        push_cast
        omega
      · have hafter : grp'.InCapacity ↔ (grp.reserved b).InCapacity := by
          rcases hres.eq with rfl | ⟨-, rfl⟩
          · rfl
          · exact Group.committed_inCapacity_iff
        rw [hafter, Group.reserved_inCapacity_iff hin hpos]
        exact forall_prop_of_true hres.writable
    · refine iff_of_true trivial ?_
      rcases hleaves with rfl | rfl
      · exact hin
      · exact Group.committed_inCapacity_iff.mpr hin

omit X in
/-- What is in flight is counted up, and set to nothing. -/
theorem inflight_nonneg {e : LifeEvent} (h : e.Leaves grp grp') (hpos : 0 ≤ grp.inflightBlocks) :
    0 ≤ grp'.inflightBlocks := by
  unfold LifeEvent.Leaves at h
  split at h
  · rcases h with ⟨-, rfl⟩ | h
    · exact hpos
    · rcases h.eq with rfl | ⟨-, rfl⟩
      · exact Int.add_nonneg hpos (Int.natCast_nonneg _)
      · exact le_refl 0
  · rcases h with rfl | rfl
    · exact hpos
    · exact le_refl 0

/-- **The limits of a group**, in the runs of its `Put`s and `Sync`s: every
event ends within them exactly when every `Put` has room for what is in
flight. -/
theorem withinLimits_run_iff {l : Life} (hl : Sound g l) {es : List LifeEvent}
    (hes : ∀ e ∈ es, e.PutOrSync) :
    Always (Life.next g) (WithinLimits g) l es ↔ Always (Life.next g) (RoomyAt g) l es := by
  refine (always_congr (I := Sound g) (fun l e hs he hroomy grp' hgrp' => ?_)
    (fun l e => withinLimits_iff) hl hes).symm
  have hreach := group_next hgrp'
  refine ⟨(withinLimits_iff hs he).mp hroomy grp' hreach, ?_⟩
  cases hgrp : l.group g with
  | none =>
    rw [reaches_closed he hgrp, hgrp] at hreach
    exact absurd hreach (by simp)
  | some grp =>
    obtain ⟨grp₁, hgrp₁, hleaves⟩ := reaches_leaves he hgrp
    obtain rfl : grp' = grp₁ := Option.some.inj (hreach.symm.trans hgrp₁)
    exact inflight_nonneg hleaves (hs grp hgrp).2

end

section

open Carlog.Encoding

/-- A new group, open. -/
def openedLife : Life := runEvents (Life.next 1) newLife [.call (.openLife true) []]

/-- The log cannot be looked into, and what was reserved stays. -/
theorem put_err_counted : openedLife.rbs.openGroups 1 = some ⟨.writable, 0, 0, 0, 0⟩ ∧
    ∃ e r', (Group.put 1 [seven]).run openedLife.rbs [.fail 0] = .err e r' ∧
      r'.openGroups 1 = some ⟨.writable, 1, 1, 0, 0⟩ ∧
      (r'.log 1).disk.blockLog = (openedLife.rbs.log 1).disk.blockLog :=
  ⟨rfl, _, _, rfl, rfl, rfl⟩

/-- The group is changed, where that `Put` failed. -/
theorem put_err_changed_seven : ∃ r' grp',
    (Group.put 1 [seven]).run openedLife.rbs [.fail 0] =
      .err (.wrap "data/index write" (.wrap "writing to jbob" (.carlog .io))) r' ∧
    r'.openGroups 1 = some grp' ∧ grp' ≠ ⟨.writable, 0, 0, 0, 0⟩ := by
  have hgrp : openedLife.rbs.openGroups 1 = some ⟨.writable, 0, 0, 0, 0⟩ := rfl
  obtain ⟨grp', hgrp', hne, -⟩ := Group.put_err_changed hgrp
    (rfl : (Group.put 1 [seven]).run openedLife.rbs [.fail 0] = .err _ _)
  exact ⟨_, grp', rfl, hgrp', hne⟩

theorem sound_of_group {g : GroupKey} {l : Life} {grp : Group} (hgrp : l.group g = some grp)
    (hin : grp.InCapacity) (hpos : 0 ≤ grp.inflightBlocks) : Sound g l := fun grp' h => by
  obtain rfl : grp = grp' := Option.some.inj (hgrp.symm.trans h)
  exact ⟨hin, hpos⟩

theorem dataSize_replicate (n : ℕ) (blk : Block) :
    dataSize (List.replicate n blk) = n * blk.data.length := by
  simp [dataSize]

/-- **One block too many**: one is in flight, and all that may be in a group
are put. -/
theorem past_limits : ¬ WithinLimits 1 (Life.next 1 openedLife (.call (.put [seven]) []))
    (.call (.put (List.replicate (20 <<< 20) seven)) []) := by
  have hgrp : (Life.next 1 openedLife (.call (.put [seven]) [])).group 1 =
      some ⟨.writable, 1, 1, 0, 0⟩ := rfl
  have hput : (LifeEvent.call (.put (List.replicate (20 <<< 20) seven)) []).PutOrSync := trivial
  rw [← withinLimits_iff (sound_of_group hgrp ⟨by decide, by decide⟩ (by decide)) hput]
  intro h
  rcases h _ hgrp rfl with hzero | hall
  · exact absurd hzero (by decide)
  · have hsize : dataSize (List.replicate (20 <<< 20) seven) ≤ maxGroupSize - 0 - 1 := by
      rw [dataSize_replicate]
      decide
    have hblocks := hall _ List.prefix_rfl hsize
    rw [List.length_replicate] at hblocks
    exact absurd hblocks (by decide)

theorem withinLimits_run_seven : Always (Life.next 1) (WithinLimits 1) openedLife
    [.call (.put [seven]) [], .call .sync []] := by
  have hgrp : openedLife.group 1 = some ⟨.writable, 0, 0, 0, 0⟩ := rfl
  refine (withinLimits_run_iff (sound_of_group hgrp ⟨by decide, by decide⟩ (by decide))
    (by simp [LifeEvent.PutOrSync])).mpr ⟨fun grp h _ => Or.inl ?_, trivial, trivial⟩
  rw [← Option.some.inj (hgrp.symm.trans h)]

end

end Rbstor

end Ribs
