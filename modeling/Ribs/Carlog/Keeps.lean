import Ribs.Carlog.Recover
/-!
# Carlog — the blocks that a log keeps

Seen from outside, a log is two sets of multihashes: those that were put,
and among them those that were committed. `Keeps A C` says that the log
has an entry for all of `A`, and that the entries for `C` are retired, so
that no crash takes them away. `Put` adds to `A`, `Commit` makes all of
`A` committed, and no operation here takes anything out of either.
-/

namespace Ribs

open Common

namespace Carlog

/-- The log has an entry for the multihash. -/
def HasEntry (ps : List Piece) (m : Multihash) : Prop := ∃ data, .entry m data ∈ ps

theorem HasEntry.of_isPrefix {ps qs : List Piece} {m : Multihash} (h : HasEntry ps m)
    (hpre : ps <+: qs) : HasEntry qs m := h.imp fun _ hd => hpre.subset hd

/-- A piece whose data may stand for its multihash. -/
def IsPiece (Is : Multihash → Bytes → Prop) : Piece → Prop
  | .entry m data => Is m data
  | .torn _ => True

variable [X : External]

/-- **The block is durable**: at one offset, in every content that a crash
can leave of the file, there is an entry for the multihash; and every head
that the head file can hold has retired it. -/
def Durable (Is : Multihash → Bytes → Prop) (d : Disk) (m : Multihash) : Prop :=
  ∃ data off, Is m data ∧
    (∃ j, d.blockLog = some j ∧ j.All fun bs => FrameAt bs off (payload m data)) ∧
    ∀ h, d.head = some (some h) → off + frameSize (payload m data).length ≤ h.retiredAt

/-- **A log in use**, open for writing or read-only, that keeps the blocks
of `A`, those of `C` through every crash. -/
def Keeps (Is : Multihash → Bytes → Prop) (A C : Multihash → Prop) (w : World) : Prop :=
  ∃ ts ss, (Live (IsPiece Is) True False ts ss w ∧ (∀ m, A m → HasEntry ss m) ∨
      w.jb.wIdx = none ∧ DiskOk (IsPiece Is) ts ss w.disk ∧ ∀ m, A m → HasEntry ts m) ∧
    ∀ m, C m → HasEntry ts m

/-- The files of a log that is not open: they can be opened, or the log
was not made to its end. -/
def Closed (Is : Multihash → Bytes → Prop) (d : Disk) : Prop :=
  (∃ ts ss, Small ss ∧ DiskOk (IsPiece Is) ts ss d) ∨ ∀ h, d.head ≠ some (some h)

variable {Is : Multihash → Bytes → Prop} {A C : Multihash → Prop} {F : Fates} {w w' : World}
  {G : Piece → Prop} {ts ss : List Piece} {staging : Bool} {tc : Option TruncCleanup}

/-- What is retired is durable. -/
theorem DiskOk.durable (h : DiskOk (IsPiece Is) ts ss w.disk) {m : Multihash}
    (hm : HasEntry ts m) : Durable Is w.disk m := by
  obtain ⟨data, hmem⟩ := hm
  obtain ⟨off, hframe⟩ := frameAt_of_mem hmem
  obtain ⟨j, hj, hall⟩ := h.log
  refine ⟨data, off, h.good _ (h.le.subset hmem), ⟨j, hj, hall.imp fun bs => hframe.of_isPrefix⟩,
    fun hd hhd => ?_⟩
  rw [h.head hd hhd]
  exact hframe.end_le

namespace Keeps

/-- **What is committed is durable.** -/
theorem durable (h : Keeps Is A C w) {m : Multihash} (hm : C m) : Durable Is w.disk m := by
  obtain ⟨ts, ss, hlive | ⟨-, hd, -⟩, hC⟩ := h
  · exact hlive.1.diskOk.durable (hC m hm)
  · exact hd.durable (hC m hm)

/-- Less is known to be committed. -/
theorem imp {C' : Multihash → Prop} (h : Keeps Is A C w) (hC : ∀ m, C' m → C m) :
    Keeps Is A C' w := by
  obtain ⟨ts, ss, hw, hts⟩ := h
  exact ⟨ts, ss, hw, fun m hm => hts m (hC m hm)⟩

/-- Less is known to be put. -/
theorem imp_put {A' : Multihash → Prop} (h : Keeps Is A C w) (hA : ∀ m, A' m → A m) :
    Keeps Is A' C w := by
  obtain ⟨ts, ss, ⟨hlive, hss⟩ | ⟨hnone, hd, hts⟩, hC⟩ := h
  · exact ⟨ts, ss, Or.inl ⟨hlive, fun m hm => hss m (hA m hm)⟩, hC⟩
  · exact ⟨ts, ss, Or.inr ⟨hnone, hd, fun m hm => hts m (hA m hm)⟩, hC⟩

end Keeps

namespace CarLog

/-! ## `Put` -/

/-- Behind a `Put` that returned nil, the log has every block that was put. -/
theorem hasEntry_of_putDone {c : List Multihash} {b : List Bytes} {j : Journal Index} {t' : Index}
    {E exact : Prop} (h : PutDone G E exact ts ss c b w w' j t') (hok : IndexOk ss j)
    {m : Multihash} (hm : m ∈ c) : HasEntry (ss ++ freshEntries j.current c b) m := by
  cases hcon : j.current.contains m with
  | true =>
    -- the index had the block, so the log did
    rw [Std.TreeMap.contains_eq_isSome_getElem?, Option.isSome_iff_exists] at hcon
    obtain ⟨v, hv⟩ := hcon
    obtain ⟨d, hd⟩ := hok.indexed m v hv
    exact ⟨d, List.mem_append_left _ hd.mem⟩
  | false =>
    rw [← List.map_fst_zip h.lengths.le, List.mem_map] at hm
    obtain ⟨⟨m', d⟩, hmem, rfl⟩ := hm
    refine ⟨d, List.mem_append_right _ (List.mem_map.mpr ⟨(m', d), ?_, rfl⟩)⟩
    exact List.mem_filter.mpr ⟨hmem, by simpa using hcon⟩

/-- **`Put` adds its blocks**, and takes nothing out when it fails. -/
theorem wp_put_keeps {c : List Multihash} {b : List Bytes} (h : Keeps Is A C w)
    (hIs : ∀ e ∈ c.zip b, Is e.1 e.2) : wp F (put c b)
      (.settles (fun _ w' => Keeps Is (fun m => A m ∨ m ∈ c) C w') fun w' => Keeps Is A C w') w := by
  obtain ⟨ts, ss, ⟨hlive, hA⟩ | ⟨hnone, hsealed⟩, hC⟩ := h
  · have hput : PutOk (IsPiece Is) w c b := by
      rintro j - m d hmem -
      obtain ⟨⟨m', d'⟩, he, heq⟩ := List.mem_map.mp hmem
      obtain ⟨rfl, rfl⟩ := Piece.entry.inj heq
      exact hIs _ (List.mem_filter.mp he).1
    obtain ⟨j, hj, hok⟩ := hlive.index
    refine wp_mono (wp_put (E := True) (fun _ => trivial) hlive hput) ?_ ?_ (fun _ _ => trivial)
      fun _ _ _ => trivial
    · rintro - w' ⟨j', t', hdone⟩
      obtain rfl : j' = j := Option.some.inj (hdone.before.symm.trans hj)
      refine ⟨ts, _, Or.inl ⟨hdone.live, fun m hm => ?_⟩, hC⟩
      rcases hm with hm | hm
      · exact (hA m hm).of_isPrefix (List.prefix_append _ _)
      · exact hasEntry_of_putDone hdone hok hm
    · rintro e w' ⟨-, j', es, -, -, hlive'⟩
      exact ⟨ts, _, Or.inl ⟨hlive', fun m hm => (hA m hm).of_isPrefix (List.prefix_append _ _)⟩, hC⟩
  · -- a read-only log is not written
    have hkeeps : ∀ lk, Keeps Is A C (w.setLk lk) := fun lk =>
      ⟨ts, ss, Or.inr ⟨hnone, hsealed⟩, hC⟩
    refine wp_rLocked trivial fun _ => ?_
    simp only [putLocked, wp_get, wp_bind, wp_failIf]
    exact ⟨fun _ => ⟨rfl, hkeeps _⟩, fun h => absurd (by simp [World.setLk, hnone]) h⟩

/-! ## `Commit` -/

/-- **`Commit` makes everything durable.** -/
theorem wp_commit_keeps (h : Keeps Is A C w) (hCA : ∀ m, C m → A m) : wp F commit
    (.settles (fun _ w' => Keeps Is A A w') fun w' => Keeps Is A C w') w := by
  obtain ⟨ts, ss, ⟨hlive, hA⟩ | ⟨hnone, hd, hA⟩, hC⟩ := h
  · refine wp_mono (wp_commit (E := True) (fun _ => trivial) hlive) ?_ ?_ (fun _ _ => trivial)
      fun _ _ _ => trivial
    · rintro n w' ⟨-, -, hdone⟩
      exact ⟨ss, ss, Or.inl ⟨hdone.live, hA⟩, hA⟩
    · rintro e w' ⟨-, ts', rfl | rfl, hlive'⟩
      · exact ⟨_, ss, Or.inl ⟨hlive', hA⟩, hC⟩
      · exact ⟨_, _, Or.inl ⟨hlive', hA⟩, fun m hm => hA m (hCA m hm)⟩
  · -- a read-only log has nothing to commit
    simp only [commit, rLockIdx, wp_bind, wp_get]
    split_ifs
    · trivial
    · simp only [wp_modifyJb, hnone, Option.isNone_none, if_true, rUnlockIdx, wp_bind, wp_get,
        Nat.add_one_ne_zero, if_false, wp_pure]
      exact ⟨ts, ss, Or.inr ⟨rfl, hd, hA⟩, hA⟩

/-! ## `MarkReadOnly` -/

/-- A log that is marked read-only must have been committed. -/
theorem wp_markReadOnly_keeps (h : Keeps Is A A w) : wp F markReadOnly
    (.settles (fun _ w' => Keeps Is A A w') fun w' => Keeps Is A A w') w := by
  obtain ⟨ts, ss, ⟨hlive, hA⟩ | ⟨hnone, hd, hA⟩, hC⟩ := h
  · refine wp_mono (wp_markReadOnly hlive) ?_ ?_ (fun _ _ => trivial) fun _ _ _ => trivial
    · rintro - _ ⟨u, hu, rfl⟩
      exact ⟨ts, ss, Or.inr ⟨rfl, hu.diskOk, hC⟩, hC⟩
    · exact fun _ w' hlive' => ⟨ts, ss, Or.inl ⟨hlive', hA⟩, hC⟩
  · have hkeeps : ∀ lk, Keeps Is A A (w.setLk lk) := fun lk =>
      ⟨ts, ss, Or.inr ⟨hnone, hd, hA⟩, hC⟩
    refine wp_locked trivial fun _ => ?_
    simp only [markReadOnlyLocked, wp_get, wp_bind, wp_failIf]
    exact ⟨fun _ => ⟨rfl, hkeeps _⟩, fun h => absurd (by simp [World.setLk, hnone]) h⟩

/-! ## Making a log, and opening one -/

theorem closed_of_left (hsmall : Small ss) {d : Disk} (h : Left (IsPiece Is) ts ss d) :
    Closed Is d := by
  obtain ⟨ss', hle, hd⟩ := h
  exact Or.inl ⟨ts, ss', (stream_isPrefix hle).length_le.trans hsmall, hd⟩

/-- **`Open`** of what a log left. -/
theorem wp_openLog_keeps (h : Closed Is w.disk) : wp F (openLog staging tc)
    (.settles (fun _ w' => Keeps Is (fun _ => False) (fun _ => False) w')
      fun w' => Closed Is w'.disk) w := by
  rcases h with ⟨ts, ss, hsmall, hd⟩ | hunmade
  · have hopen := wp_openLog (E := True) (F := F) False staging tc
      (fun _ => trivial) hsmall hd
    refine wp_mono hopen ?_ ?_ (fun _ _ => trivial) fun _ _ _ => trivial
    · rintro - w' (⟨rest, -, hlive⟩ | ⟨hnone, hd'⟩)
      · exact ⟨ts, _, Or.inl ⟨hlive, fun _ => False.elim⟩, fun _ => False.elim⟩
      · exact ⟨ts, ss, Or.inr ⟨hnone, hd', fun _ => False.elim⟩, fun _ => False.elim⟩
    · exact fun _ w' hleft => closed_of_left hsmall hleft
  · refine wp_mono (wp_openLog_unmade hunmade) ?_ ?_ (fun _ _ => trivial) fun _ _ _ => trivial
    · exact fun _ _ => False.elim
    · rintro _ _ rfl
      exact Or.inr hunmade

/-- The log that `Create` makes is open for writing. -/
theorem live_created {E exact : Prop} (hjb : w.jb = created staging)
    (hd : w.disk = emptyLog (some (.clean ∅))) : Live G E exact [] [] w := by
  obtain ⟨disk, staged, jb, calls, cleaned, out, rand, drawn⟩ := w
  replace hjb : jb = created staging := hjb
  replace hd : disk = emptyLog (some (.clean ∅)) := hd
  subst hjb hd
  have hS : stream [] = (Journal.clean headerBytes).current ++ [] := by simp [stream_nil]
  exact {
    made := rfl
    le := List.prefix_rfl
    good := by simp
    head := fun h hh => by
      rw [← Option.some.inj (Option.some.inj hh), stream_nil]
      rfl
    tail := ⟨.clean headerBytes, ⟨true, false, headerBytes.length⟩, ⟨[], none⟩, {
      log := rfl
      durable := by rw [Journal.all_clean, stream_nil]
      data := rfl
      isOpen := rfl
      off := rfl
      pos := rfl
      buffered := rfl
      stream := hS ▸ List.prefix_rfl
      eq := fun _ => hS
      err := fun he => absurd rfl he }⟩
    index := ⟨_, rfl, fun m v hv => by simp at hv, Journal.all_clean.mpr fun _ _ => id⟩
    headOpen := rfl
    dataLen := by rw [stream_nil]; rfl
    dataStart := rfl
    dataEnd := rfl
    layerOffsets := rfl
    wIdx := rfl
    rIdx := ⟨_, rfl⟩
    eIdx := rfl
    lru := ⟨_, rfl, by simp⟩ }

/-- **`Create`**, where no log was. -/
theorem wp_create_keeps (hempty : w.disk = .empty) : wp F (create staging)
    (.settles (fun _ w' => Keeps Is (fun _ => False) (fun _ => False) w')
      fun w' => Closed Is w'.disk) w := by
  refine wp_mono (wp_create hempty) ?_ ?_ (fun _ _ => trivial) fun _ _ _ => trivial
  · rintro - w' rfl
    exact ⟨[], [], Or.inl ⟨live_created rfl rfl, fun _ => False.elim⟩, fun _ => False.elim⟩
  · rintro _ w' ((hempty' | ⟨-, hhead⟩) | hlog)
    · exact Or.inr (by simp [hempty', Disk.empty])
    · exact Or.inr hhead
    · refine Or.inl ⟨[], [], ?_, hlog ▸ diskOk_emptyLog⟩
      rw [Small, stream_nil, length_headerBytes]
      norm_num

end CarLog

end Carlog

end Ribs
