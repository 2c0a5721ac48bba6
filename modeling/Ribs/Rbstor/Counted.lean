import Ribs.Carlog.Once
import Ribs.Rbstor.RecordedHead
/-!
# Rbstor — the counters of a group and its log

A group counts what it was offered and had room for, its log counts what
it appended. The log leaves out the blocks that it has, and a `Put` of it
that stops part-way appends only some, but the group counts them all. From
then on the counters and the log are apart, and `sync` records the count.
-/

namespace Ribs

open Common

namespace Rbstor

open Carlog (Block Piece Live stream logEntries)

variable {g : GroupKey} {r r' : Rbs} {grp grp' : Group} {b p : List Block} {w w' : Carlog.World}

/-! ## What a log has -/

/-- The entry of a block. -/
def entryOf (blk : Block) : Piece := .entry blk.hash blk.data

section

variable [X : Carlog.External]

/-- How many entries a log has. -/
def logBlocks (w : Carlog.World) : ℤ := (logEntries w).length

/-- The data of its entries, together. -/
def logSize (w : Carlog.World) : ℤ := ((logEntries w).map fun e => (e.data.length : ℤ)).sum

/-- **Appended blocks** are counted once more. -/
theorem counts_append {ts ss ts' : List Piece} {G : Piece → Prop} {E exact E' exact' : Prop}
    (h : Live G E exact ts ss w) (hss : ∀ p ∈ ss, p.Whole)
    (h' : Live G E' exact' ts' (ss ++ p.map entryOf) w')
    (hss' : ∀ x ∈ ss ++ p.map entryOf, x.Whole) :
    logBlocks w' = logBlocks w + p.length ∧ logSize w' = logSize w + dataSize p := by
  have hmap : (p.map entryOf).filterMap Piece.block? = p.map fun blk => (blk.hash, blk.data) := by
    rw [List.filterMap_map]
    change p.filterMap (some ∘ fun blk => (blk.hash, blk.data)) = _
    rw [List.filterMap_eq_map]
  have hblocks : (logEntries w').map Carlog.CarLog.LogEntry.block =
      (logEntries w).map Carlog.CarLog.LogEntry.block ++ p.map fun blk => (blk.hash, blk.data) := by
    rw [h'.map_block hss', List.filterMap_append, hmap, ← h.map_block hss]
  have hsize : ∀ u : Carlog.World, logSize u =
      (((logEntries u).map Carlog.CarLog.LogEntry.block).map fun x => (x.2.length : ℤ)).sum := by
    intro u
    rw [List.map_map]
    rfl
  constructor
  · have hlen := congrArg List.length hblocks
    simp only [List.length_append, List.length_map] at hlen
    unfold logBlocks
    omega
  · rw [hsize, hsize, hblocks, List.map_append, List.sum_append]
    simp only [List.map_map]
    rfl

/-- A log of whole entries, open for writing, or one that takes no writes
of a group that is not writable. -/
def LogOk (st : GroupState) (w : Carlog.World) : Prop :=
  (∃ ts ss, Live Piece.Whole True False ts ss w) ∨ w.jb.wIdx = none ∧ st ≠ .writable

theorem wp_commit_counted {st : GroupState} (h : LogOk st w) : wp anyFate Carlog.CarLog.commit
    (.settles (fun _ w' => LogOk st w' ∧ logEntries w' = logEntries w)
      fun w' => LogOk st w' ∧ logEntries w' = logEntries w) w := by
  rcases h with ⟨ts, ss, hlive⟩ | ⟨hnone, hst⟩
  · have hsame : ∀ {w' ts'}, Live Piece.Whole True False ts' ss w' →
        LogOk st w' ∧ logEntries w' = logEntries w := fun hlive' =>
      ⟨Or.inl ⟨_, ss, hlive'⟩, (hlive'.logEntries_eq hlive'.good).trans
        (hlive.logEntries_eq hlive.good).symm⟩
    refine wp_mono (Carlog.CarLog.wp_commit (E := True) (fun _ => trivial) hlive) ?_ ?_
      (fun _ _ => trivial) fun _ _ _ => trivial
    · rintro at_ w' ⟨-, -, hdone⟩
      exact hsame hdone.live
    · rintro e w' ⟨-, ts', -, hlive'⟩
      exact hsame hlive'
  · refine wp_complete fun plan _ => ?_
    rw [Prog.run_eq_exec]
    rcases Carlog.CarLog.commit_exec_shut hnone plan with heq | heq
    · rw [heq]
      exact ⟨Or.inr ⟨hnone, hst⟩, rfl⟩
    · rw [heq]
      trivial

/-! ## The counters -/

/-- **The counters match the log**, with what is in flight. -/
structure Counted (g : GroupKey) (grp : Group) (r : Rbs) : Prop where
  isOpen : r.openGroups g = some grp
  blocks : grp.committedBlocks + grp.inflightBlocks = logBlocks (r.log g)
  size : grp.committedSize + grp.inflightSize = logSize (r.log g)
  log : LogOk grp.state (r.log g)

/-- **What is committed, and what is recorded of it, is what the log has.** -/
structure Tallied (g : GroupKey) (r : Rbs) : Prop where
  group : ∀ grp, r.openGroups g = some grp →
    grp.committedBlocks = logBlocks (r.log g) ∧ grp.committedSize = logSize (r.log g)
  rows : ∀ row ∈ r.rows, row.id = g →
    row.blocks = logBlocks (r.log g) ∧ row.bytes = logSize (r.log g)

/-- The log has the entries that it had. -/
theorem Counted.setLog (h : Counted g grp r) (hok : LogOk grp.state w)
    (hsame : logEntries w = logEntries (r.log g)) : Counted g grp (setLog g w r) := by
  have hlog : (Rbstor.setLog g w r).log g = w := setLog_log
  refine ⟨h.isOpen, ?_, ?_, ?_⟩
  · rw [hlog, h.blocks, logBlocks, logBlocks, hsame]
  · rw [hlog, h.size, logSize, logSize, hsame]
  · rwa [hlog]

theorem Counted.committed (h : Counted g grp r) :
    Counted g grp.committed (setGroup g grp.committed r) := by
  refine ⟨setGroup_same, ?_, ?_, h.log⟩
  · exact (add_zero _).trans h.blocks
  · exact (add_zero _).trans h.size

theorem Tallied.setLog (h : Tallied g r) (hsame : logEntries w = logEntries (r.log g)) :
    Tallied g (setLog g w r) := by
  have hlog : (Rbstor.setLog g w r).log g = w := setLog_log
  have hblocks : logBlocks w = logBlocks (r.log g) := by rw [logBlocks, logBlocks, hsame]
  have hsize : logSize w = logSize (r.log g) := by rw [logSize, logSize, hsame]
  refine ⟨fun grp hgrp => ?_, fun row hrow hid => ?_⟩
  · rw [hlog, hblocks, hsize]
    exact h.group grp hgrp
  · rw [hlog, hblocks, hsize]
    exact h.rows row hrow hid

/-- **`sync`** keeps the count, and records it when it returns nil. -/
theorem wp_sync_counted (h : Counted g grp r) : wp anyFate (Group.sync g)
    (.settles (fun _ r' => Counted g grp.committed r' ∧ Tallied g r')
      fun r' => ∃ grp', grp'.state = grp.state ∧ Counted g grp' r') r := by
  rw [Group.sync, wp_bind, wp_wrapErr]
  refine wp_onLog (wp_mono (wp_commit_counted h.log) ?_ ?_ (fun _ _ => trivial)
    fun _ _ _ => trivial)
  swap
  · rintro e w ⟨hok, hsame⟩
    exact ⟨grp, rfl, h.setLog hok hsame⟩
  rintro at_ w ⟨hok, hsame⟩
  have hw := h.setLog hok hsame
  change wp anyFate (modifyGroup g Group.committed >>= fun _ => _) _ (setLog g w r)
  rw [wp_bind, wp_modifyGroup hw.isOpen]
  have hcommitted := hw.committed
  change wp anyFate (getGroup g >>= fun _ => _) _ (setGroup g grp.committed (setLog g w r))
  rw [wp_bind, wp_getGroup setGroup_same]
  change wp anyFate (wrapErr _ _) _ _
  rw [wp_wrapErr, setGroupHead, wp_step]
  have hblocks := hcommitted.blocks
  have hsize := hcommitted.size
  rw [show grp.committed.inflightBlocks = 0 from rfl, add_zero] at hblocks
  rw [show grp.committed.inflightSize = 0 from rfl, add_zero] at hsize
  refine ⟨⟨⟨hcommitted.isOpen, hcommitted.blocks, hcommitted.size, hcommitted.log⟩, ?_, ?_⟩,
    fun _ => ⟨grp.committed, rfl, hcommitted⟩, fun _ => trivial⟩
  · intro grp' hgrp'
    obtain rfl : grp.committed = grp' := Option.some.inj (setGroup_same.symm.trans hgrp')
    exact ⟨hblocks, hsize⟩
  · intro row hrow hid
    obtain ⟨row', -, rfl⟩ := List.mem_map.mp hrow
    rw [groupHead_id] at hid
    rw [groupHead, if_pos hid]
    exact ⟨hblocks, hsize⟩

theorem wp_markReadOnly_counted {st : GroupState} (h : LogOk st w) (hst : st ≠ .writable) :
    wp anyFate Carlog.CarLog.markReadOnly
      (.settles (fun _ w' => LogOk st w' ∧ logEntries w' = logEntries w)
        fun w' => LogOk st w' ∧ logEntries w' = logEntries w) w := by
  rcases h with ⟨ts, ss, hlive⟩ | ⟨hnone, -⟩
  · have hsame : ∀ {u}, Live Piece.Whole True False ts ss u → logEntries u = logEntries w :=
      fun hu => (hu.logEntries_eq hu.good).trans (hlive.logEntries_eq hlive.good).symm
    refine wp_mono (Carlog.CarLog.wp_markReadOnly hlive) ?_ ?_ (fun _ _ => trivial)
      fun _ _ _ => trivial
    · rintro - _ ⟨u, hu, rfl⟩
      have hshut : logEntries (Carlog.shut u) = logEntries u := rfl
      exact ⟨Or.inr ⟨rfl, hst⟩, hshut.trans (hsame hu)⟩
    · exact fun e u hu => ⟨Or.inl ⟨ts, ss, hu⟩, hsame hu⟩
  · refine wp_mono (Carlog.CarLog.markReadOnly_shut hnone) (fun _ _ => False.elim) ?_
      (fun _ => False.elim) fun _ _ _ => trivial
    rintro e _ ⟨-, rfl⟩
    exact ⟨Or.inr ⟨hnone, hst⟩, rfl⟩

/-- A group that was filled is synced, and its log marked. -/
theorem wp_retire_counted (h : Counted g grp r) (hst : grp.state ≠ .writable) :
    wp anyFate (Group.retire g)
      (.settles (fun _ r' => Counted g grp.committed r' ∧ Tallied g r')
        fun r' => ∃ grp', Counted g grp' r') r := by
  rw [Group.retire, wp_bind, wp_wrapErr]
  refine wp_mono (wp_sync_counted h) ?_ (fun _ _ h => ⟨h.choose, h.choose_spec.2⟩) (fun _ => id)
    fun _ _ => id
  rintro - t ⟨ht, htally⟩
  change wp anyFate (wrapErr _ (onLog g Carlog.CarLog.markReadOnly)) _ t
  rw [wp_wrapErr]
  refine wp_onLog (wp_mono (wp_markReadOnly_counted ht.log hst) ?_ ?_ (fun _ _ => trivial)
    fun _ _ _ => trivial)
  · rintro - w ⟨hok, hsame⟩
    exact ⟨ht.setLog hok hsame, htally.setLog hsame⟩
  · rintro e w ⟨hok, hsame⟩
    exact ⟨_, ht.setLog hok hsame⟩

/-! ## `Put` -/

omit X in
/-- The blocks of a batch that a group has room for. -/
def Group.taken (grp : Group) (b : List Block) : List Block := b.take (grp.space b).2

/-- How long the log is with them. -/
def lenWith (g : GroupKey) (p : List Block) (r : Rbs) : ℕ :=
  (r.log g).jb.dataLen + ((p.map entryOf).flatMap Piece.bytes).length

/-- Steps fail where the log has that length. -/
def FailsBehind (g : GroupKey) (n : ℕ) (r _ : Rbs) : Prop := (r.log g).jb.dataLen = n

/-- **The log takes all blocks**: it has none of them, none is too large, and
no write has failed before. -/
structure Takes (w : Carlog.World) (p : List Block) : Prop where
  absent : ∀ blk ∈ p, blk.hash ∉ Carlog.index w
  fits : ∀ blk ∈ p, blk.data.length ≤ Carlog.maxEntryLen
  unstuck : p ≠ [] → Carlog.Unstuck w

omit X in
theorem fresh_eq (h : ∀ blk ∈ p, blk.hash ∉ Carlog.index w) :
    Carlog.fresh w (p.map Block.hash) (p.map Block.data) = p.map entryOf := by
  unfold Carlog.fresh Carlog.freshEntries
  rw [List.zip_map', List.filter_map, List.map_map]
  have hall : p.filter ((fun e : Multihash × Bytes => !(Carlog.index w).contains e.1) ∘
      fun blk => (blk.hash, blk.data)) = p := by
    rw [List.filter_eq_self]
    intro blk hblk
    have := h blk hblk
    rw [← Std.TreeMap.contains_iff_mem, Bool.not_eq_true] at this
    change (!(Carlog.index w).contains blk.hash) = true
    rw [this]
    rfl
  rw [hall]
  rfl

/-- All of them are appended, also by a `Put` of the log that fails. -/
theorem wpMild_putLog {ts ss : List Piece} (hlive : Live Piece.Whole True False ts ss (r.log g))
    (htakes : Takes (r.log g) p) (hvalid : ∀ blk ∈ p, Carlog.ValidMultihash blk.hash) :
    wpMild (FailsBehind g (lenWith g p r)) (Group.putLog g p)
      (.settles (fun _ r' => Live Piece.Whole True False ts (ss ++ p.map entryOf) (r'.log g))
        fun r' => Live Piece.Whole True False ts (ss ++ p.map entryOf) (r'.log g)) r := by
  have hwhole : ∀ x ∈ p.map entryOf, x.Whole := by
    intro x hx
    obtain ⟨blk, hblk, rfl⟩ := List.mem_map.mp hx
    exact ⟨hvalid blk hblk, htakes.fits blk hblk⟩
  have hfresh : ∀ {j : Journal Carlog.Index}, (r.log g).disk.levelIndex = some j →
      Carlog.freshEntries j.current (p.map Block.hash) (p.map Block.data) = p.map entryOf :=
    fun hj => by
      rw [← Carlog.index_eq hj]
      exact fresh_eq htakes.absent
  have hput : Carlog.PutOk Piece.Whole (r.log g) (p.map Block.hash) (p.map Block.data) := by
    intro j hj m d hmem _
    rw [hfresh hj] at hmem
    exact hwhole _ hmem
  have hlog : ∀ {w : Carlog.World}, Live Piece.Whole True False ts (ss ++ p.map entryOf) w →
      Live Piece.Whole True False ts (ss ++ p.map entryOf) ((setLog g w r).log g) := fun hw => by
    rwa [setLog_log]
  rw [Group.putLog, wpMild_bind, wrapErr, wpMild_handle, onLog]
  refine wpMild_zoom (fun t s => by simp [setLog]) (fun t t' s => by simp [setLog])
    (fun s => by simp [setLog]) (fun _ _ => id)
    (wpMild_mono (Carlog.CarLog.wpMild_put (P := (· = lenWith g p r)) hlive hput) ?_ ?_
      (fun _ _ => trivial) fun _ _ _ => trivial)
  -- none of the blocks is in the index, so all of them are new
  · rintro - w ⟨j, t', hdone⟩
    have hw := hdone.live
    rw [hfresh hdone.before] at hw
    exact hlog hw
  · rintro e w ⟨-, j, es, hj, hstopped, hw⟩
    rw [hfresh hj] at hstopped
    -- what it appended is all of them
    have hes : es = p.map entryOf := by
      rcases hstopped.why with ⟨rfl, hlen | hstuck⟩ | hlen | ⟨m, d, rest, hrest, hlarge⟩
      · exact absurd (by simp) hlen
      · by_contra hne
        exact hstuck (htakes.unstuck fun hnil => hne (by rw [hnil]; rfl))
      · obtain ⟨rest, hrest⟩ := hstopped.le
        have hnil : rest = [] := by
          refine @Carlog.eq_nil_of_length_eq _ (ss ++ es) rest (fun x hx => hwhole x ?_) ?_
          · rw [← hrest]
            exact List.mem_append_right _ hx
          · rw [hlen, lenWith, hlive.dataLen, ← List.length_append, ← Carlog.stream_append, ← hrest,
              List.append_assoc]
        rw [← hrest, hnil, List.append_nil]
      · have hmem : Piece.entry m d ∈ p.map entryOf := by simp [hrest]
        have := (hwhole _ hmem).2
        omega
    rw [hes] at hw
    exact hlog hw

/-- **The two writes**, whether or not they succeed. -/
theorem wpMild_write {ts ss : List Piece} (hlive : Live Piece.Whole True False ts ss (r.log g))
    (htakes : Takes (r.log g) p) (hvalid : ∀ blk ∈ p, Carlog.ValidMultihash blk.hash) :
    wpMild (FailsBehind g (lenWith g p r)) (Group.write g p)
      (.settles (fun _ r' => Live Piece.Whole True False ts (ss ++ p.map entryOf) (r'.log g))
        fun r' => Live Piece.Whole True False ts (ss ++ p.map entryOf) (r'.log g)) r := by
  -- the top index is not the log's
  have hkept : ∀ {t u : Rbs},
      Live Piece.Whole True False ts (ss ++ p.map entryOf) (t.log g) → SameRecord g t u →
      Live Piece.Whole True False ts (ss ++ p.map entryOf) (u.log g) := fun ht hu => by
    rwa [hu.log]
  rw [Group.write, wpMild_bind, wpMild_attempt]
  refine wpMild_mono (wpMild_putLog hlive htakes hvalid) (fun _ t ht => ?_) (fun e t ht => ?_)
    (fun _ => id) fun _ _ => id
  all_goals
    refine wpMild_of_wp (wp_mono (sameRecord_addIndex.attempt.bind (fun add => ?_) t)
      (fun _ _ => hkept ht) (fun _ _ => hkept ht) (fun _ _ => trivial) fun _ _ _ => trivial)
    split
    · exact .throw
    · exact .throw
    · exact .ret

omit X in
theorem Group.taken_eq (grp : Group) (b : List Block) :
    (grp.space b).2 = (grp.taken b).length ∧ (grp.space b).1 = dataSize (grp.taken b) := by
  obtain ⟨p, hp, hspace, -⟩ := grp.space_eq b
  have htaken : grp.taken b = p := by
    rw [Group.taken, hspace]
    exact (List.prefix_iff_eq_take.mp hp).symm
  rw [htaken, hspace]
  exact ⟨rfl, rfl⟩

/-- **`Put`**, of a group whose counters match, keeps them matching when the
log takes all that there is room for. -/
theorem wpMild_put_counted (h : Counted g grp r)
    (htakes : grp.state = .writable → Takes (r.log g) (grp.taken b))
    (hvalid : ∀ blk ∈ b, Carlog.ValidMultihash blk.hash) :
    wpMild (FailsBehind g (lenWith g (grp.taken b) r)) (Group.put g b)
      (.settles (fun _ r' => ∃ grp', Counted g grp' r' ∧
          (grp.state = .writable → grp'.state = .full → Tallied g r'))
        fun r' => ∃ grp', Counted g grp' r') r := by
  unfold Group.put
  by_cases hb : b = []
  · rw [if_pos hb]
    exact ⟨grp, h, fun hw hf => absurd (hw.symm.trans hf) (by decide)⟩
  rw [if_neg hb, wpMild_bind, getGroup, wpMild_get, h.isOpen, wpMild_ret]
  change wpMild _ (if grp.state ≠ .writable then _ else _) _ r
  by_cases hstate : grp.state ≠ .writable
  · rw [if_pos hstate]
    exact ⟨grp, h, fun hw => absurd hw hstate⟩
  have hw : grp.state = .writable := not_not.mp hstate
  obtain ⟨ts, ss, hlive⟩ : ∃ ts ss, Live Piece.Whole True False ts ss (r.log g) :=
    h.log.resolve_right fun hshut => hshut.2 hw
  rw [if_neg hstate, wpMild_bind]
  change wpMild _ (Group.write g (grp.taken b) >>= fun _ => _) _ (setGroup g (grp.reserved b) r)
  rw [wpMild_bind]
  have hwrite := wpMild_and (wpMild_write (r := setGroup g (grp.reserved b) r) hlive (htakes hw)
    fun blk hblk => hvalid blk (List.mem_of_mem_take hblk))
    (wpMild_of_wp (sameGroup_write (g := g) (b := grp.taken b) (setGroup g (grp.reserved b) r)))
  -- the log takes what was reserved, whether or not the writes succeed
  have hcounted : ∀ t : Rbs, Live Piece.Whole True False ts (ss ++ (grp.taken b).map entryOf)
      (t.log g) → SameGroup g (setGroup g (grp.reserved b) r) t → Counted g (grp.reserved b) t := by
    intro t ht hsame
    have hcounts := counts_append hlive hlive.good ht ht.good
    have hblocks := h.blocks
    have hsize := h.size
    have htaken := grp.taken_eq b
    have hb : (grp.reserved b).inflightBlocks = grp.inflightBlocks + (grp.space b).2 := rfl
    have hs : (grp.reserved b).inflightSize = grp.inflightSize + (grp.space b).1 := rfl
    refine ⟨hsame.trans setGroup_same, ?_, ?_, Or.inl ⟨ts, _, ht⟩⟩
    · rw [hcounts.1, hb, htaken.1, ← hblocks]
      exact (add_assoc _ _ _).symm
    · rw [hcounts.2, hs, htaken.2, ← hsize]
      exact (add_assoc _ _ _).symm
  refine wpMild_mono hwrite ?_ (fun e t ht => ⟨_, hcounted t ht.1 ht.2⟩) (fun _ _ => trivial)
    fun _ _ _ => trivial
  rintro _ t ⟨ht, hsame⟩
  have hct := hcounted t ht hsame
  change wpMild _ (if (grp.reserved b).state = .full then _ else _) _ t
  by_cases hfull : (grp.reserved b).state = .full
  -- a group that is not filled is not retired
  swap
  · rw [if_neg hfull]
    exact ⟨_, hct, fun _ hf => absurd hf hfull⟩
  rw [if_pos hfull, wpMild_bind]
  have hnot : (grp.reserved b).state ≠ .writable := by
    rw [hfull]
    decide
  exact wpMild_mono (wpMild_of_wp (wp_retire_counted hct hnot))
    (fun _ u hu => ⟨_, hu.1, fun _ _ => hu.2⟩) (fun _ _ => id) (fun _ => id) fun _ _ => id

/-! ## Runs -/

omit X in
/-- A `Put` of blocks, or a `Sync`. -/
def LifeEvent.PutsBlocks : LifeEvent → Prop
  | .call (.put b) _ => ∀ blk ∈ b, Carlog.ValidMultihash blk.hash
  | .call .sync _ => True
  | _ => False

/-- **A `Put` into a writable group is taken whole by the log**: it takes all
blocks that there is room for, and no step fails before it has them. -/
def TakenAt (g : GroupKey) (l : Life) : LifeEvent → Prop
  | .call (.put b) plan => ∀ grp, l.group g = some grp → grp.state = .writable →
      Takes (l.rbs.log g) (grp.taken b) ∧ ((LifeCmd.put b).op g).Mild
        (fun l' _ => FailsBehind g (lenWith g (grp.taken b) l.rbs) l'.rbs l'.rbs) l plan
  | _ => True

/-- **A `Sync` that returns nil has the counters match the log**, also the
one of a `Put` that fills the group. -/
def SyncTallies (g : GroupKey) (l : Life) : LifeEvent → Prop
  | .call .sync plan => l.enabled g .sync →
      ∀ l', ((LifeCmd.sync).op g).run l plan = .ok () l' → Tallied g l'.rbs
  | .call (.put b) plan => ∀ grp, l.group g = some grp → grp.state = .writable →
      ∀ l', ((LifeCmd.put b).op g).run l plan = .ok () l' →
      ∀ grp', l'.group g = some grp' → grp'.state = .full → Tallied g l'.rbs
  | _ => True

/-- The counters match the log, while the group is open. -/
def CountedLife (g : GroupKey) (l : Life) : Prop :=
  ∀ grp, l.group g = some grp → Counted g grp l.rbs

theorem countedLife_of {l : Life} (h : ∃ grp, Counted g grp l.rbs) : CountedLife g l := by
  obtain ⟨grp, h⟩ := h
  intro grp' hgrp'
  obtain rfl : grp = grp' := Option.some.inj (h.isOpen.symm.trans hgrp')
  exact h

/-- Where a `Sync` ends. -/
theorem sync_sat {l : Life} (h : Counted g grp l.rbs) (plan : List Fate) :
    (((LifeCmd.sync).op g).run l plan).Sat
      (.settles (fun _ l' => CountedLife g l' ∧ Tallied g l'.rbs) fun l' => CountedLife g l') := by
  refine wp_sound (wp_onRbs (wp_mono (wp_sync_counted h) (fun _ r hr => ?_) (fun _ r hr => ?_)
    (fun _ _ => trivial) fun _ _ _ => trivial)) (within_anyFate plan)
  · exact ⟨countedLife_of (l := setRbs r l) ⟨_, hr.1⟩, hr.2⟩
  · exact countedLife_of (l := setRbs r l) ⟨_, hr.choose_spec.2⟩

/-- Where a `Put` ends. -/
theorem put_sat {l : Life} {plan : List Fate} (h : Counted g grp l.rbs)
    (hvalid : ∀ blk ∈ b, Carlog.ValidMultihash blk.hash)
    (htaken : TakenAt g l (.call (.put b) plan)) :
    (((LifeCmd.put b).op g).run l plan).Sat
      (.settles (fun _ l' => CountedLife g l' ∧ (grp.state = .writable →
          ∀ grp', l'.group g = some grp' → grp'.state = .full → Tallied g l'.rbs))
        fun l' => CountedLife g l') := by
  have hgrp : l.group g = some grp := h.isOpen
  by_cases hw : grp.state = .writable
  · obtain ⟨htakes, hmild⟩ := htaken grp hgrp hw
    refine wpMild_sound ?_ hmild
    refine wpMild_zoom (fun _ _ => rfl) (fun _ _ _ => rfl) (fun _ => rfl)
      (fun _ _ (h : FailsBehind g _ _ _) => show FailsBehind g _ _ _ from h) ?_
    rw [wpMild_bind]
    refine wpMild_mono (wpMild_put_counted h (fun _ => htakes) hvalid) (fun n r hr => ?_)
      (fun _ r hr => countedLife_of (l := setRbs r l) hr) (fun _ _ => trivial) fun _ _ _ => trivial
    obtain ⟨grp', hcounted, htally⟩ := hr
    refine And.intro (countedLife_of (l := setRbs r l) ⟨grp', hcounted⟩) fun hw grp₁ hgrp₁ => ?_
    obtain rfl : grp' = grp₁ := Option.some.inj (hcounted.isOpen.symm.trans hgrp₁)
    exact htally hw
  · -- nothing is written to a group that is not writable
    have hl : CountedLife g l := countedLife_of ⟨grp, h⟩
    refine wp_sound (wp_onRbs ?_) (within_anyFate plan)
    rw [wp_bind]
    refine wp_mono (wp_put_group (b := b) h.isOpen) (fun n r hr => ?_) (fun _ r hr => ?_)
      (fun _ _ => trivial) fun _ _ _ => trivial
    · rcases hr with ⟨-, rfl⟩ | ⟨_, -, hres⟩
      · exact And.intro hl fun h => absurd h hw
      · exact absurd hres.writable hw
    · obtain ⟨_, -, hres⟩ := hr
      exact absurd hres.writable hw

/-- Nothing is open any more when the process is gone. -/
theorem countedLife_down {l : Life} : CountedLife g (l.down g) := by
  intro grp hgrp
  rw [show (l.down g).group g = none by simp [Life.down, Life.group]] at hgrp
  exact absurd hgrp (by simp)

theorem countedLife_after {o : Outcome Life Err Unit} {Q : Unit → Life → Prop}
    (h : o.Sat (.settles Q (CountedLife g))) (hQ : ∀ l, Q () l → CountedLife g l) :
    CountedLife g (Life.after g o) := by
  cases o with
  | ok a l => exact hQ l h
  | err e l => exact h
  | crash l => exact countedLife_down
  | fault k l => exact countedLife_down

theorem countedLife_next {l : Life} {e : LifeEvent} (hl : CountedLife g l) (he : e.PutsBlocks)
    (htaken : TakenAt g l e) : CountedLife g (Life.next g l e) := by
  unfold LifeEvent.PutsBlocks at he
  split at he
  · rename_i b plan
    by_cases henabled : l.enabled g (.put b)
    · obtain ⟨grp, hgrp⟩ := Option.isSome_iff_exists.mp henabled
      rw [Life.next, if_pos henabled]
      exact countedLife_after (put_sat (hl grp hgrp) he htaken) fun _ h => h.1
    · rwa [Life.next, if_neg henabled]
  · rename_i plan
    by_cases henabled : l.enabled g .sync
    · obtain ⟨grp, hgrp⟩ := Option.isSome_iff_exists.mp henabled
      rw [Life.next, if_pos henabled]
      exact countedLife_after (sync_sat (hl grp hgrp) plan) fun _ h => h.1
    · rwa [Life.next, if_neg henabled]
  · exact he.elim

theorem syncTallies_of {l : Life} {e : LifeEvent} (hl : CountedLife g l) (he : e.PutsBlocks)
    (htaken : TakenAt g l e) : SyncTallies g l e := by
  unfold SyncTallies
  split
  · intro henabled l' hrun
    obtain ⟨grp, hgrp⟩ := Option.isSome_iff_exists.mp henabled
    have hsat := sync_sat (hl grp hgrp) ‹_›
    rw [hrun] at hsat
    exact hsat.2
  · intro grp hgrp hw l' hrun
    have hsat := put_sat (hl grp hgrp) he htaken
    rw [hrun] at hsat
    exact hsat.2 hw
  · trivial

/-- **The counters match the log after every `Sync`**, in the runs whose
`Put`s are taken whole. -/
theorem syncTallies_run {l : Life} (hl : CountedLife g l) {es : List LifeEvent}
    (hputs : ∀ e ∈ es, e.PutsBlocks) (hes : Always (Life.next g) (TakenAt g) l es) :
    Always (Life.next g) (SyncTallies g) l es :=
  Always.imp_of (I := CountedLife g) (C := fun l e => TakenAt g l e ∧ e.PutsBlocks)
    (fun _ _ h hC => countedLife_next h hC.2 hC.1) (fun _ _ h hC => syncTallies_of h hC.2 hC.1) hl
    (hes.and_forall hputs)

end

section

open Carlog.Encoding

theorem countedLife_opened : CountedLife 1 openedLife := by
  intro grp hgrp
  obtain rfl : ⟨.writable, 0, 0, 0, 0⟩ = grp := Option.some.inj hgrp
  exact ⟨rfl, by decide, by decide, Or.inl ⟨[], [], Carlog.CarLog.live_created rfl rfl⟩⟩

/-- **The same block twice**: the log has it once, and the row says two. -/
theorem tally_apart : ¬ Always (Life.next 1) (SyncTallies 1) openedLife
    [.call (.put [seven]) [], .call (.put [seven]) [], .call .sync []] := by
  rintro ⟨-, -, hsync, -⟩
  have hgroup := (hsync (by decide) _ rfl).group ⟨.writable, 0, 0, 2, 2⟩ rfl
  exact absurd hgroup.1 (by decide)

theorem takes_seven : Takes (openedLife.rbs.log 1) [seven] := by
  refine ⟨by decide, by decide, fun _ => ?_⟩
  rintro _ ⟨⟩
  rfl

theorem syncTallies_seven : Always (Life.next 1) (SyncTallies 1) openedLife
    [.call (.put [seven]) [], .call .sync []] := by
  refine syncTallies_run countedLife_opened ?_ ⟨fun grp hgrp hw => ?_, trivial, trivial⟩
  · have hvalid : Carlog.ValidMultihash seven.hash :=
      ⟨0, [7], by decide, by decide, rfl⟩
    simp [LifeEvent.PutsBlocks, hvalid]
  · obtain rfl : ⟨.writable, 0, 0, 0, 0⟩ = grp := Option.some.inj hgrp
    exact ⟨takes_seven, Prog.mild_nil⟩

end

end Rbstor

end Ribs
