import Ribs.Common.Runs
import Ribs.Common.Sim
import Ribs.Rbstor.Written
/-!
# Rbstor — flushing makes a batch durable

Any number of batches share the store. Their calls interleave at the
critical sections: an iteration of `Put`, and of `Flush` a look at one
group and, with the lock released, its sync. `Flush` takes a group that
is not in `writableGroups` any more for synced. It is, when it was
dropped behind a sync; but a group that was filled by a `Put` that failed
is dropped by the next iteration that picks it, synced or not.
-/

namespace Ribs

open Common

namespace Rbstor

open Carlog (Block Closed)

/-! ## Batches that share a store -/

/-- Where a batch is. -/
inductive At where
  /-- No call is under way. -/
  | idle
  /-- In `Put`, with the blocks not done, and the iterations so far. -/
  | putting (todo : List Block) (its : List Iter)
  /-- In `Flush`, with the groups not looked at. -/
  | flushing (todo : List GroupKey)
  /-- In `Flush`, about to sync a group. -/
  | syncing (key : GroupKey) (todo : List GroupKey)

/-- **A batch in use**, and what its user knows. -/
structure Writer where
  batch : Batch
  at_ : At
  /-- The blocks of the `Put`s that returned nil, with their groups. -/
  acked : List (GroupKey × Block)
  /-- Those before a `Flush` that returned nil. -/
  flushed : List (GroupKey × Block)

def Writer.new : Writer := ⟨.new, .idle, [], []⟩

/-- What a batch does next. -/
inductive Action where
  /-- `Put` is called. -/
  | put (b : List Block)
  | iter (plan : List Fate)
  | putEnd
  /-- `Flush` is called, and ranges over the groups in some order. -/
  | flush (order : List GroupKey)
  | check
  | sync (plan : List Fate)
  | flushEnd (plan : List Fate)

/-- The blocks of an iteration, with their group. -/
def Iter.acks (it : Iter) : List (GroupKey × Block) := it.blocks.map (Prod.mk it.group)

/-- The store, and the batches. -/
structure Shared where
  store : Rbs
  writers : ℕ → Writer

section

variable [X : Carlog.External]

/-- One action of a batch, when it is where the action is taken. A process
that dies takes no action. -/
def Writer.next (w : Writer) (r : Rbs) : Action → Rbs × Writer
  | .put b =>
    match w.at_ with
    | .idle => (r, { w with at_ := .putting b [] })
    | _ => (r, w)
  | .iter plan =>
    match w.at_ with
    | .putting (blk :: b) its =>
      match (w.batch.putStep (blk :: b)).run r plan with
      | .ok (bt, it) r' => (r', { w with
          batch := bt, at_ := .putting ((blk :: b).drop it.blocks.length) (its ++ [it]) })
      -- the error is returned; what was placed before it is in the batch
      | .err _ r' => (r', { w with at_ := .idle })
      | _ => (r, w)
    | _ => (r, w)
  | .putEnd =>
    match w.at_ with
    | .putting [] its => (r, { w with at_ := .idle, acked := w.acked ++ its.flatMap Iter.acks })
    | _ => (r, w)
  | .flush order =>
    match w.at_ with
    | .idle => if order.Perm w.batch.toFlush then (r, { w with at_ := .flushing order }) else (r, w)
    | _ => (r, w)
  | .check =>
    match w.at_ with
    -- a group that is no longer writable was synced when it became full
    | .flushing (key :: todo) => (r, { w with
        at_ := if key ∈ r.writableGroups then .syncing key todo else .flushing todo })
    | _ => (r, w)
  | .sync plan =>
    match w.at_ with
    | .syncing key todo =>
      match (Batch.syncKey key).run r plan with
      | .ok _ r' => (r', { w with at_ := .flushing todo })
      | .err _ r' => (r', { w with at_ := .idle })
      | _ => (r, w)
    | _ => (r, w)
  | .flushEnd plan =>
    match w.at_ with
    | .flushing [] =>
      match Batch.flushIndex.run r plan with
      | .ok _ r' => (r', { w with
          batch := { w.batch with toFlush := [] }, at_ := .idle, flushed := w.acked })
      | .err _ r' => (r', { w with at_ := .idle })
      | _ => (r, w)
    | _ => (r, w)

/-- The `k`-th batch acts. -/
def Shared.next (s : Shared) (e : ℕ × Action) : Shared :=
  let t := (s.writers e.1).next s.store e.2
  ⟨t.1, Function.update s.writers e.1 t.2⟩

/-- The other batches stay as they are. -/
theorem Shared.next_writers_of_ne {s : Shared} {e : ℕ × Action} {k : ℕ} (hne : k ≠ e.1) :
    (s.next e).writers k = s.writers k := Function.update_of_ne hne _ _

/-- **An iteration picks a group that is clear.** -/
def Shared.ClearAt (s : Shared) (e : ℕ × Action) : Prop :=
  ∀ plan, e.2 = .iter plan → s.store.Clear

/-! ## The invariant -/

/-- The groups that a `Flush` under way has still to look at. -/
def At.todo : At → Option (List GroupKey)
  | .flushing todo => some todo
  | .syncing key todo => some (key :: todo)
  | _ => none

/-- The blocks that a `Put` under way has placed. -/
def At.acks : At → List (GroupKey × Block)
  | .putting _ its => its.flatMap Iter.acks
  | _ => []

/-- **What holds of a batch**: its blocks are in the store, and durable
unless their group is one to flush. -/
structure Writer.Ok (Is : Multihash → Bytes → Prop) (U : GroupKey → Prop) (A C : Pairs)
    (w : Writer) : Prop where
  put : ∀ e ∈ w.acked ++ w.at_.acks, A e.1 e.2.hash ∧ (C e.1 e.2.hash ∨ e.1 ∈ w.batch.toFlush)
  todo : ∀ todo, w.at_.todo = some todo → ∀ e ∈ w.acked, C e.1 e.2.hash ∨ e.1 ∈ todo
  flushed : ∀ e ∈ w.flushed, C e.1 e.2.hash
  blocks : ∀ todo its, w.at_ = .putting todo its → ∀ blk ∈ todo, Is blk.hash blk.data
  inUse : ∀ key todo, w.at_ = .syncing key todo → U key

variable {Is : Multihash → Bytes → Prop} {U : GroupKey → Prop} {A C : Pairs} {r : Rbs} {w : Writer}
  {s : Shared}

/-- **What holds of the store and its batches.** -/
def Shared.Ok (Is : Multihash → Bytes → Prop) (s : Shared) : Prop :=
  ∃ U A C, Stored Is U A C s.store ∧ ∀ k, (s.writers k).Ok Is U A C

/-- The store `r'` and the batch `w'` come behind `U`, `A` and `C`. -/
def Follows (Is : Multihash → Bytes → Prop) (U : GroupKey → Prop) (A C : Pairs) (r' : Rbs)
    (w' : Writer) : Prop :=
  ∃ U' A' C', (∀ g, U g → U' g) ∧ (∀ g m, A g m → A' g m) ∧ (∀ g m, C g m → C' g m) ∧
    Stored Is U' A' C' r' ∧ w'.Ok Is U' A' C'

theorem Stored.follows (h : Stored Is U A C r) (hw : w.Ok Is U A C) : Follows Is U A C r w :=
  ⟨U, A, C, fun _ => id, fun _ _ => id, fun _ _ => id, h, hw⟩

namespace Writer

omit X in
theorem Ok.mono {U' : GroupKey → Prop} {A' C' : Pairs} (h : w.Ok Is U A C)
    (hU : ∀ g, U g → U' g) (hA : ∀ g m, A g m → A' g m) (hC : ∀ g m, C g m → C' g m) :
    w.Ok Is U' A' C' :=
  ⟨fun e he => ⟨hA _ _ (h.put e he).1, (h.put e he).2.imp_left (hC _ _)⟩,
    fun todo htodo e he => (h.todo todo htodo e he).imp_left (hC _ _),
    fun e he => hC _ _ (h.flushed e he), h.blocks, fun key todo hat => hU key (h.inUse key todo hat)⟩

omit X in
/-- No call is under way any more. -/
theorem Ok.idle (h : w.Ok Is U A C) : Ok Is U A C { w with at_ := .idle } :=
  ⟨fun e he => h.put e (List.mem_append_left _ (by simpa [At.acks] using he)), by simp [At.todo],
    h.flushed, by simp, by simp⟩

/-- **An iteration of `Put`.** -/
theorem next_iter {blk : Block} {b : List Block} {its : List Iter} {plan : List Fate}
    (h : Stored Is U A C r) (hw : w.Ok Is U A C) (hat : w.at_ = .putting (blk :: b) its)
    (hclear : r.Clear) :
    Follows Is U A C (w.next r (.iter plan)).1 (w.next r (.iter plan)).2 := by
  have hIs := hw.blocks _ _ hat
  have hrun := wp_sound (F := anyFate) (Batch.putStep_stored w.batch h hclear hIs)
    (within_anyFate plan)
  simp only [next, hat]
  cases hres : (w.batch.putStep (blk :: b)).run r plan with
  | ok e r' =>
    obtain ⟨bt, it⟩ := e
    rw [hres] at hrun
    obtain ⟨hflush, hpre, hr'⟩ := hrun
    refine ⟨U, A.add it.group it.blocks, C, fun _ => id, fun _ _ => le_add, fun _ _ => id, hr', ?_⟩
    have hmem : ∀ g, g ∈ w.batch.toFlush → g ∈ bt.toFlush := fun g hg => by
      rw [hflush]
      exact List.mem_insert_of_mem hg
    refine ⟨fun e he => ?_, by simp [At.todo], hw.flushed, fun todo its' heq => ?_, by simp⟩
    · simp only [At.acks, List.flatMap_append, List.flatMap_singleton, ← List.append_assoc] at he
      rcases List.mem_append.mp he with he | he
      · have hput := hw.put e (by rwa [hat])
        exact ⟨le_add hput.1, hput.2.imp_right (hmem _)⟩
      · -- a block of this iteration
        obtain ⟨x, hx, rfl⟩ := List.mem_map.mp he
        refine ⟨?_, Or.inr (by rw [hflush]; exact List.mem_insert_self)⟩
        unfold Pairs.add
        rw [Function.update_self]
        exact Or.inr (List.mem_map_of_mem hx)
    · obtain ⟨rfl, -⟩ := At.putting.inj heq
      exact fun x hx => hIs x (List.mem_of_mem_drop hx)
  | err e r' =>
    rw [hres] at hrun
    exact Stored.follows hrun hw.idle
  | crash r' => exact h.follows hw
  | fault k r' => exact h.follows hw

/-- **A look at a group.** One that is not written any more is durable. -/
theorem next_check {key : GroupKey} {todo : List GroupKey} (h : Stored Is U A C r)
    (hw : w.Ok Is U A C) (hat : w.at_ = .flushing (key :: todo)) :
    Follows Is U A C (w.next r .check).1 (w.next r .check).2 := by
  have hput : ∀ e ∈ w.acked, A e.1 e.2.hash ∧ (C e.1 e.2.hash ∨ e.1 ∈ w.batch.toFlush) :=
    fun e he => hw.put e (List.mem_append_left _ he)
  have htodo := hw.todo (key :: todo) (by rw [hat]; rfl)
  simp only [next, hat]
  by_cases hkey : key ∈ r.writableGroups
  · rw [if_pos hkey]
    refine ⟨_, A, C, fun _ => Or.inl, fun _ _ => id, fun _ _ => id, h.use hkey,
      fun e he => hput e (by simpa [At.acks] using he), fun todo' heq => ?_, hw.flushed, by simp,
      fun key' todo' heq => Or.inr (At.syncing.inj heq).1.symm⟩
    rw [← Option.some.inj heq]
    exact htodo
  · rw [if_neg hkey]
    refine ⟨U, A, _, fun _ => id, fun _ _ => id, fun _ _ => Or.inl, h.settled,
      fun e he => ?_, fun todo' heq e he => ?_, fun e he => Or.inl (hw.flushed e he), by simp, by simp⟩
    · have := hput e (by simpa [At.acks] using he)
      exact ⟨this.1, this.2.imp_left Or.inl⟩
    · rw [← Option.some.inj heq]
      rcases htodo e he with hC | hmem
      · exact Or.inl (Or.inl hC)
      · rcases List.mem_cons.mp hmem with heq | hmem
        · exact Or.inl (Or.inr ⟨(hput e he).1, heq ▸ hkey⟩)
        · exact Or.inr hmem

/-- **The sync of a group** makes its blocks durable. -/
theorem next_sync {key : GroupKey} {todo : List GroupKey} {plan : List Fate}
    (h : Stored Is U A C r) (hw : w.Ok Is U A C) (hat : w.at_ = .syncing key todo) :
    Follows Is U A C (w.next r (.sync plan)).1 (w.next r (.sync plan)).2 := by
  obtain ⟨grp, hgrp, huse⟩ := h.inUse key (hw.inUse key todo hat)
  have hrun := wp_sound (F := anyFate) (wp_settles_handle (h := Err.wrap "sync group")
    (Group.sync_stored h hgrp huse)) (within_anyFate plan)
  change ((Batch.syncKey key).run r plan).Sat _ at hrun
  have hput : ∀ e ∈ w.acked, A e.1 e.2.hash ∧ (C e.1 e.2.hash ∨ e.1 ∈ w.batch.toFlush) :=
    fun e he => hw.put e (List.mem_append_left _ he)
  have htodo := hw.todo (key :: todo) (by rw [hat]; rfl)
  simp only [next, hat]
  cases hres : (Batch.syncKey key).run r plan with
  | ok u r' =>
    rw [hres] at hrun
    refine ⟨U, A, _, fun _ => id, fun _ _ => id, le_update h, hrun.1, fun e he => ?_,
      fun todo' heq e he => ?_, fun e he => le_update h _ _ (hw.flushed e he), by simp, by simp⟩
    · have := hput e (by simpa [At.acks] using he)
      exact ⟨this.1, this.2.imp_left (le_update h _ _)⟩
    · rw [← Option.some.inj heq]
      rcases htodo e he with hC | hmem
      · exact Or.inl (le_update h _ _ hC)
      · rcases List.mem_cons.mp hmem with heq | hmem
        · refine Or.inl ?_
          rw [heq, Function.update_self, ← heq]
          exact (hput e he).1
        · exact Or.inr hmem
  | err e r' =>
    rw [hres] at hrun
    exact Stored.follows hrun hw.idle
  | crash r' => exact h.follows hw
  | fault k r' => exact h.follows hw

/-- **The end of `Flush`.** Every group was looked at, so every block is
durable. -/
theorem next_flushEnd {plan : List Fate} (h : Stored Is U A C r) (hw : w.Ok Is U A C)
    (hat : w.at_ = .flushing []) :
    Follows Is U A C (w.next r (.flushEnd plan)).1 (w.next r (.flushEnd plan)).2 := by
  have hdone : ∀ e ∈ w.acked, C e.1 e.2.hash := fun e he =>
    (hw.todo [] (by rw [hat]; rfl) e he).resolve_right List.not_mem_nil
  have hrun := wp_sound (F := anyFate) (m := Batch.flushIndex) (s := r)
    (wp_settles_handle (h := Err.wrap "flush top index")
      (wp_settles_step (Q := fun _ r' => r' = r) (R := fun r' => r' = r) rfl rfl))
    (within_anyFate plan)
  simp only [next, hat]
  cases hres : Batch.flushIndex.run r plan with
  | ok u r' =>
    rw [hres] at hrun
    obtain rfl : r' = r := hrun
    refine h.follows ⟨fun e he => ?_, by simp [At.todo], hdone, by simp, by simp⟩
    have he : e ∈ w.acked := by simpa [At.acks] using he
    exact ⟨(hw.put e (List.mem_append_left _ he)).1, Or.inl (hdone e he)⟩
  | err e r' =>
    rw [hres] at hrun
    obtain rfl : r' = r := hrun
    exact h.follows hw.idle
  | crash r' => exact h.follows hw
  | fault k r' => exact h.follows hw

/-- **Every action keeps the invariant**, when an iteration picks a group
that is clear. -/
theorem next_ok {a : Action} (h : Stored Is U A C r) (hw : w.Ok Is U A C)
    (hclear : ∀ plan, a = .iter plan → r.Clear)
    (hIs : ∀ b, a = .put b → ∀ blk ∈ b, Is blk.hash blk.data) :
    Follows Is U A C (w.next r a).1 (w.next r a).2 := by
  have hacked : ∀ e ∈ w.acked, A e.1 e.2.hash ∧ (C e.1 e.2.hash ∨ e.1 ∈ w.batch.toFlush) :=
    fun e he => hw.put e (List.mem_append_left _ he)
  have hsame : Follows Is U A C r w := h.follows hw
  cases a with
  | put b =>
    cases hat : w.at_ with
    -- a new batch of blocks: what was acknowledged stays so
    | idle =>
      simp only [next, hat]
      refine h.follows ⟨fun e he => hacked e (by simpa [At.acks] using he), by simp [At.todo],
        hw.flushed, fun todo its heq => ?_, by simp⟩
      obtain ⟨rfl, -⟩ := At.putting.inj heq
      exact hIs b rfl
    | _ => simpa only [next, hat] using hsame
  | iter plan =>
    cases hat : w.at_ with
    | putting todo its =>
      cases todo with
      | nil => simpa only [next, hat] using hsame
      -- an iteration of the loop of `Put`
      | cons blk b => exact next_iter h hw hat (hclear plan rfl)
    | _ => simpa only [next, hat] using hsame
  | putEnd =>
    cases hat : w.at_ with
    | putting todo its =>
      cases todo with
      | nil =>
        simp only [next, hat]
        -- the loop is done: what it has put is acknowledged
        refine h.follows ⟨fun e he => ?_, by simp [At.todo], hw.flushed, by simp, by simp⟩
        exact hw.put e (by simpa [hat, At.acks] using he)
      | cons blk b => simpa only [next, hat] using hsame
    | _ => simpa only [next, hat] using hsame
  | flush order =>
    cases hat : w.at_ with
    | idle =>
      simp only [next, hat]
      -- every group that the batch has to flush is visited, in some order
      split_ifs with hperm
      · refine h.follows ⟨fun e he => hacked e (by simpa [At.acks] using he),
          fun todo heq e he => ?_, hw.flushed, by simp, by simp⟩
        rw [← Option.some.inj heq]
        exact (hacked e he).2.imp_right hperm.mem_iff.mpr
      · exact hsame
    | _ => simpa only [next, hat] using hsame
  | check =>
    cases hat : w.at_ with
    | flushing todo =>
      cases todo with
      | nil => simpa only [next, hat] using hsame
      | cons key todo => exact next_check h hw hat
    | _ => simpa only [next, hat] using hsame
  | sync plan =>
    cases hat : w.at_ with
    | syncing key todo => exact next_sync h hw hat
    | _ => simpa only [next, hat] using hsame
  | flushEnd plan =>
    cases hat : w.at_ with
    | flushing todo =>
      cases todo with
      | nil => exact next_flushEnd h hw hat
      | cons key todo => simpa only [next, hat] using hsame
    | _ => simpa only [next, hat] using hsame

end Writer

/-- **A step of one batch** keeps what holds of all. -/
theorem Shared.next_ok {e : ℕ × Action} (h : s.Ok Is) (hclear : s.ClearAt e)
    (hIs : ∀ b, e.2 = .put b → ∀ blk ∈ b, Is blk.hash blk.data) : (s.next e).Ok Is := by
  obtain ⟨U, A, C, hs, hw⟩ := h
  obtain ⟨U', A', C', hU, hA, hC, hs', hw'⟩ := Writer.next_ok hs (hw e.1) hclear hIs
  refine ⟨U', A', C', hs', fun k => ?_⟩
  simp only [Shared.next]
  rcases eq_or_ne k e.1 with rfl | hne
  · rw [Function.update_self]
    exact hw'
  · rw [Function.update_of_ne hne]
    exact (hw k).mono hU hA hC

/-! ## The claim -/

/-- **A store that was just opened**: no group is open, the logs of the
groups that can be written are as a process left them that closed them or
died, and no group had the ids that are not in the table. -/
structure Rbs.Start (Is : Multihash → Bytes → Prop) (r : Rbs) : Prop where
  groups : ∀ g, r.openGroups g = none
  writable : r.writableGroups = []
  ids : (r.rows.map Row.id).Nodup
  nonNegative : ∀ row ∈ r.rows, NonNegative row.id
  fresh : ∀ g, (∀ row ∈ r.rows, row.id ≠ g) → (r.log g).disk = .empty
  closed : ∀ row ∈ r.rows, row.state = .writable → Closed Is (r.log row.id).disk

/-- The store with its batches, none of which has done anything. -/
def Shared.start (r : Rbs) : Shared := ⟨r, fun _ => .new⟩

theorem Rbs.Start.ok (h : r.Start Is) : (Shared.start r).Ok Is := by
  refine ⟨fun _ => False, fun _ _ => False, fun _ _ => False, ?_, fun k => ?_⟩
  · exact {
      le := fun _ _ => id
      ids := h.ids
      nonNegative := h.nonNegative
      fresh := h.fresh
      closed := fun row hrow hstate _ => h.closed row hrow hstate
      nodup := by simp [Shared.start, h.writable]
      writable := by simp [Shared.start, h.writable]
      groups := fun g grp hgrp => by simp [Shared.start, h.groups] at hgrp
      put := fun _ _ => False.elim
      inUse := fun _ => False.elim }
  · exact ⟨by simp [Shared.start, Writer.new, At.acks], by simp [Shared.start, Writer.new, At.todo],
      by simp [Shared.start, Writer.new], by simp [Shared.start, Writer.new],
      by simp [Shared.start, Writer.new]⟩

/-- **`Flush` makes a batch durable**, in every run whose iterations pick
groups that are clear: behind a `Flush` that returned nil, every block
whose `Put` returned nil before it is below the `retiredAt` of its group's
log, in every content that a crash can leave of it, and the top index lists
the group. -/
theorem flushed_durable (h : r.Start Is) {es : List (ℕ × Action)}
    (hIs : ∀ k b, (k, Action.put b) ∈ es → ∀ blk ∈ b, Is blk.hash blk.data)
    (hclear : Always Shared.next Shared.ClearAt (.start r) es) (k : ℕ) :
    ∀ e ∈ ((runEvents Shared.next (.start r) es).writers k).flushed,
      Carlog.Durable Is ((runEvents Shared.next (.start r) es).store.log e.1).disk e.2.hash ∧
        e.1 ∈ PebbleIndex.listed (runEvents Shared.next (.start r) es).store.index e.2.hash := by
  have hblocks : ∀ e ∈ es, ∀ b, e.2 = .put b → ∀ blk ∈ b, Is blk.hash blk.data := by
    rintro ⟨k, a⟩ he b rfl
    exact hIs k b he
  obtain ⟨U, A, C, hs, hw⟩ := runEvents_invariant (I := Shared.Ok Is)
    (fun _ _ hs hc => Shared.next_ok hs hc.1 hc.2) h.ok (hclear.and_forall hblocks)
  exact fun e he => hs.durable ((hw k).flushed e he)

end

section

open Carlog.Encoding

/-- A batch puts one block and is flushed. -/
def sevenEvents : List (ℕ × Action) :=
  [(0, .put [seven]), (0, .iter []), (0, .putEnd), (0, .flush [1]), (0, .check), (0, .sync []),
    (0, .flushEnd [])]

theorem Rbs.start_empty (Is : Multihash → Bytes → Prop) : Rbs.Start Is .empty :=
  ⟨fun _ => rfl, rfl, List.nodup_nil, by simp [Rbs.empty], fun _ _ => rfl, by simp [Rbs.empty]⟩

theorem flushed_durable_seven : (1, seven) ∈
      ((runEvents Shared.next (.start .empty) sevenEvents).writers 0).flushed ∧
    Carlog.Durable (fun _ d => d = [7])
      ((runEvents Shared.next (.start .empty) sevenEvents).store.log 1).disk seven.hash := by
  have hflushed : ((runEvents Shared.next (.start .empty) sevenEvents).writers 0).flushed =
      [(1, seven)] := rfl
  have hIs : ∀ k b, (k, Action.put b) ∈ sevenEvents → ∀ blk ∈ b, blk.data = [7] := by
    simp [sevenEvents, seven]
  have hclear : Always Shared.next Shared.ClearAt (.start .empty) sevenEvents := by
    refine ⟨nofun, fun _ _ g grp hg => ?_, nofun, nofun, nofun, nofun, nofun, trivial⟩
    exact absurd (show ([] : List GroupKey)[0 % 0]? = some g from hg) (by simp)
  have hmem : (1, seven) ∈ ((runEvents Shared.next (.start .empty) sevenEvents).writers 0).flushed :=
    hflushed ▸ List.mem_singleton_self _
  exact ⟨hmem, (flushed_durable (Rbs.start_empty _) hIs hclear 0 _ hmem).1⟩

end

/-! ## A group that is full and not synced -/

section

variable [X : Carlog.External]

variable {g : GroupKey} {b : List Block} {idx idx' : Carlog.LevelDBIndex} {grp : Group} {r : Rbs}

/-- A `Put` to a log whose first step fails leaves the log as it was. -/
theorem carLogPut_exec_fail {c : List Multihash} {b : List Bytes} {w : Carlog.World}
    (hlk : w.jb.idxLk = ⟨false, 0⟩) (hw : w.jb.wIdx = some idx)
    (hr : w.jb.rIdx = some (.level idx')) (hlen : c.length = b.length) (n : ℕ) (p : List Fate) :
    (Carlog.CarLog.put c b).exec w (.fail n :: p) = (.err .io w, p) := by
  rcases w with ⟨_, _, ⟨_, _, _, _, _, _, _, _, _, _, _, _, _, _, _, _, _⟩, _, _, _, _, _⟩
  obtain rfl := hlk
  obtain rfl := hw
  obtain rfl := hr
  simp only [Carlog.CarLog.put, Carlog.CarLog.putLocked, Carlog.failIf, hlen, ne_eq,
    not_true_eq_false, if_false]
  rfl

theorem putLog_exec_fail (hlk : (r.log g).jb.idxLk = ⟨false, 0⟩)
    (hw : (r.log g).jb.wIdx = some idx) (hr : (r.log g).jb.rIdx = some (.level idx')) (n : ℕ)
    (p : List Fate) : (Group.putLog g b).attempt.exec r (.fail n :: p) =
      (.ok (.error (.wrap "writing to jbob" (.carlog .io))) r, p) := by
  have hput : (onLog g (Carlog.CarLog.put (b.map Block.hash) (b.map Block.data))).exec r
      (.fail n :: p) = (.err (.carlog .io) r, p) := by
    rw [onLog, Prog.exec_zoom (by simp [setLog]) (by simp [setLog]) (by simp [setLog]),
      carLogPut_exec_fail hlk hw hr (by simp) n p]
    simp [setLog]
  unfold Group.putLog Prog.attempt
  rw [Prog.exec_handle]
  erw [Prog.exec_bind, Prog.exec_bind]
  rw [wrapErr, Prog.exec_handle, hput]
  rfl

omit X in
theorem addIndex_exec_fail (n : ℕ) (p : List Fate) :
    (Group.addIndex g b).attempt.exec r (.fail n :: p) =
      (.ok (.error (.wrap "writing index" .index)) r, p) := by
  simp only [Group.addIndex, PebbleIndex.addGroup, Group.blockSizes, List.length_map, lt_irrefl,
    if_false]
  rfl

theorem write_exec_fail (hlk : (r.log g).jb.idxLk = ⟨false, 0⟩)
    (hw : (r.log g).jb.wIdx = some idx) (hr : (r.log g).jb.rIdx = some (.level idx')) (n n' : ℕ)
    (p : List Fate) : (Group.write g b).exec r (.fail n :: .fail n' :: p) =
      (.err (.wrap "data/index write" (.wrap "writing to jbob" (.carlog .io))) r, p) := by
  unfold Group.write
  rw [Prog.exec_bind, putLog_exec_fail hlk hw hr]
  dsimp only
  rw [Prog.exec_bind, addIndex_exec_fail]
  rfl

/-- **A `Put` whose writes fail** leaves its reservation, and with it the
group full. -/
theorem put_exec_fail (hlk : (r.log g).jb.idxLk = ⟨false, 0⟩)
    (hw : (r.log g).jb.wIdx = some idx) (hr : (r.log g).jb.rIdx = some (.level idx'))
    (hgrp : r.openGroups g = some grp) (hstate : grp.state = .writable) (hne : b ≠ []) (n n' : ℕ)
    (p : List Fate) : (Group.put g b).exec r (.fail n :: .fail n' :: p) =
      (.err (.wrap "data/index write" (.wrap "writing to jbob" (.carlog .io)))
        (setGroup g (grp.reserved b) r), p) := by
  have hget : (getGroup g).exec r (.fail n :: .fail n' :: p) =
      (.ok grp r, .fail n :: .fail n' :: p) := by
    unfold getGroup
    simp only [Prog.exec, hgrp]
  unfold Group.put
  rw [if_neg hne, Prog.exec_bind, hget]
  dsimp only
  rw [if_neg (by simp [hstate])]
  change (Group.write g (b.take (grp.space b).2) >>= _).exec (setGroup g (grp.reserved b) r) _ = _
  rw [Prog.exec_bind, write_exec_fail (r := setGroup g (grp.reserved b) r) hlk hw hr]

/-- The only writable group is the one that is picked. -/
theorem selectGroup_exec_one (hwrit : r.writableGroups = [g]) (p : List Fate) :
    selectGroup.exec r p = (.ok g { r with picked := r.picked + 1 }, p) := by
  have hone : ([g] : List GroupKey)[r.pick r.picked % [g].length]? = some g := by
    rw [List.length_singleton, Nat.mod_one]
    rfl
  unfold selectGroup choose
  simp only [Prog.exec, ne_eq, hwrit, List.cons_ne_nil, not_false_eq_true, if_true, hone]

theorem putStep_run_fail (hlk : (r.log g).jb.idxLk = ⟨false, 0⟩)
    (hw : (r.log g).jb.wIdx = some idx) (hr : (r.log g).jb.rIdx = some (.level idx'))
    (hgrp : r.openGroups g = some grp) (hstate : grp.state = .writable)
    (hwrit : r.writableGroups = [g]) (hne : b ≠ []) (bt : Batch) (n n' : ℕ) :
    (bt.putStep b).run r [.fail n, .fail n'] =
      .err (.wrap "write to group" (.wrap "data/index write" (.wrap "writing to jbob" (.carlog .io))))
        (setGroup g (grp.reserved b) { r with picked := r.picked + 1 }) := by
  rw [Prog.run_eq_exec]
  unfold Batch.putStep
  rw [Prog.exec_bind, wrapErr, Prog.exec_handle]
  unfold withWritableGroup
  rw [Prog.exec_bind, selectGroup_exec_one hwrit]
  dsimp only
  rw [Prog.exec_bind,
    put_exec_fail (r := { r with picked := r.picked + 1 }) hlk hw hr hgrp hstate hne]
  rfl

omit X in
/-- No more blocks fit than the group may have. -/
theorem reserve_le_max (avail comm : ℤ) (b : List Block) (ws : ℤ) (n : ℕ)
    (hn : comm + n ≤ maxGroupBlocks) :
    comm + (Group.reserve avail comm ws n b).2 ≤ maxGroupBlocks := by
  induction b generalizing ws n with
  | nil => exact hn
  | cons blk b ih =>
    rw [Group.reserve]
    split_ifs with h
    · exact hn
    · exact ih _ _ (by push_cast; omega)

end

section

open Carlog.Encoding

/-- More blocks than a group may have. -/
def many : List Block := List.replicate (20 <<< 20 + 1) seven

/-- A batch puts a block. Another one fills the group, in a `Put` that
fails, and on its next `Put` the group is dropped. Then the first batch is
flushed. -/
def crowded (b : List Block) : List (ℕ × Action) :=
  [(0, .put [seven]), (0, .iter []), (0, .putEnd), (1, .put b), (1, .iter [.fail 0, .fail 0])] ++
    [(1, .put [seven]), (1, .iter []), (0, .flush [1]), (0, .check), (0, .flushEnd [])]

/-- The group with one block in flight. -/
def oneBlock : Group := ⟨.writable, 1, 1, 0, 0⟩

theorem oneBlock_full : (oneBlock.space many).2 < many.length := by
  have h := reserve_le_max (maxGroupSize - oneBlock.committedSize - oneBlock.inflightSize)
    oneBlock.committedBlocks many 0 0 (by decide)
  have hlen : many.length = 20 <<< 20 + 1 := List.length_replicate
  have hmax : maxGroupBlocks = ((20 <<< 20 : ℕ) : ℤ) := by decide
  rw [hmax] at h
  change (0 : ℤ) + ((oneBlock.space many).2 : ℤ) ≤ _ at h
  rw [hlen]
  generalize (20 <<< 20 : ℕ) = k at *
  omega

/-- The store with group 1 full, and still to pick. -/
def filled (grp : Group) (r : Rbs) : Rbs :=
  setGroup 1 { grp with state := .full } { r with writableGroups := [1], pick := fun _ => 0 }

/-- The group is dropped, not synced, and the flush does not miss it. -/
theorem crowded_drops {s : Shared} {grp : Group} {r : Rbs} {acked : List (GroupKey × Block)}
    {bt : Batch} (hstore : s.store = filled grp r)
    (h0 : s.writers 0 = ⟨⟨1, [1]⟩, .idle, acked, []⟩) (h1 : s.writers 1 = ⟨bt, .idle, [], []⟩) :
    ((runEvents Shared.next s ((crowded []).drop 5)).writers 0).flushed = acked ∧
      (runEvents Shared.next s ((crowded []).drop 5)).store.log = r.log := by
  obtain ⟨store, ws⟩ := s
  have hws : ws = Function.update (Function.update ws 0 ⟨⟨1, [1]⟩, .idle, acked, []⟩) 1
      ⟨bt, .idle, [], []⟩ := by
    rw [← h0, ← h1, Function.update_eq_self, Function.update_eq_self]
  obtain rfl := hstore
  rw [hws]
  exact ⟨rfl, rfl⟩

/-- The failed `Put` fills the group. -/
theorem crowded_fills {b : List Block} (hfull : (oneBlock.space b).2 < b.length) :
    ∃ grp r, (runEvents Shared.next (.start .empty) ((crowded b).take 5)).store = filled grp r ∧
      r.log = (runEvents Shared.next (.start .empty) ((crowded []).take 4)).store.log ∧
      (runEvents Shared.next (.start .empty) ((crowded b).take 5)).writers 0 =
        ⟨⟨1, [1]⟩, .idle, [(1, seven)], []⟩ ∧
      (runEvents Shared.next (.start .empty) ((crowded b).take 5)).writers 1 =
        ⟨.new, .idle, [], []⟩ := by
  cases b with
  | nil => exact absurd hfull (Nat.not_lt_zero _)
  | cons x b =>
    have hstep : runEvents Shared.next (.start .empty) ((crowded (x :: b)).take 5) =
      (runEvents Shared.next (.start .empty) ((crowded (x :: b)).take 4)).next
        (1, .iter [.fail 0, .fail 0]) := rfl
    rw [hstep]
    generalize hs : runEvents Shared.next (.start .empty) ((crowded (x :: b)).take 4) = s
    have h0 : s.writers 0 = ⟨⟨1, [1]⟩, .idle, [(1, seven)], []⟩ := hs ▸ rfl
    have h1 : s.writers 1 = ⟨.new, .putting (x :: b) [], [], []⟩ := hs ▸ rfl
    have hpick : s.store.pick = fun _ => 0 := hs ▸ rfl
    have hwrit : s.store.writableGroups = [1] := hs ▸ rfl
    have hlk : (s.store.log 1).jb.idxLk = ⟨false, 0⟩ := hs ▸ rfl
    have hw : (s.store.log 1).jb.wIdx = some ⟨⟩ := hs ▸ rfl
    have hr : (s.store.log 1).jb.rIdx = some (.level ⟨⟩) := hs ▸ rfl
    have hgrp : s.store.openGroups 1 = some oneBlock := hs ▸ rfl
    have hrun := putStep_run_fail hlk hw hr hgrp rfl hwrit (List.cons_ne_nil x b) .new 0 0
    have hstate : (oneBlock.reserved (x :: b)).state = .full := if_pos hfull
    refine ⟨oneBlock.reserved (x :: b), { s.store with picked := s.store.picked + 1 }, ?_,
      hs ▸ rfl, ?_, ?_⟩
    · unfold Shared.next Writer.next
      simp only [h1, hrun]
      unfold filled
      rw [← hpick, ← hwrit, ← hstate]
    · exact (Shared.next_writers_of_ne Nat.zero_ne_one).trans h0
    · unfold Shared.next Writer.next
      simp only [h1, hrun, Function.update_self]

/-- **A flush that lost a block**: it returned nil, and the log has only its
header. -/
theorem flushed_lost : (1, seven) ∈
      ((runEvents Shared.next (.start .empty) (crowded many)).writers 0).flushed ∧
    ¬ Carlog.Durable (fun _ d => d = [7])
      ((runEvents Shared.next (.start .empty) (crowded many)).store.log 1).disk seven.hash := by
  have hrun : runEvents Shared.next (.start .empty) (crowded many) = runEvents Shared.next
      (runEvents Shared.next (.start .empty) ((crowded many).take 5)) ((crowded []).drop 5) :=
    List.foldl_append
  obtain ⟨grp, r, hstore, hlog, h0, h1⟩ := crowded_fills oneBlock_full
  obtain ⟨hflushed, hlog'⟩ := crowded_drops hstore h0 h1
  rw [hrun, hflushed, hlog', hlog]
  refine ⟨List.mem_singleton_self _, ?_⟩
  rintro ⟨data, off, rfl, ⟨j, hj, hall⟩, -⟩
  obtain rfl : Journal.clean (Carlog.carHeader Carlog.placeholderCid) = j := Option.some.inj hj
  obtain ⟨pre, post, heq, -⟩ := hall.1
  have hinfix : framed (Carlog.payload seven.hash [7]) <:+: Carlog.carHeader Carlog.placeholderCid :=
    ⟨pre, post, heq.symm⟩
  exact absurd hinfix (by decide)

end

end Rbstor

end Ribs
