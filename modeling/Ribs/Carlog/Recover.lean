import Ribs.Carlog.Live
/-!
# Carlog — making a log and taking it up again

`Create` leaves an empty log open for writing, and at every step on the
way files that are either not openable or those of an empty log. `Open`
of the files of a log gives a log open for writing: the retired pieces
alone, or, when the index has no place behind them, with all that is
behind them in the file.
-/

namespace Ribs

open Common

namespace Carlog

/-! ## Cutting the index -/

/-- The index without the places at or above an offset. -/
def pruned (n : ℕ) (t : Index) : Index := (LevelDBIndex.truncated t n).foldl (fun t m => t.erase m) t

theorem getElem?_pruned {n : ℕ} {t : Index} {m : Multihash} {v : I64} :
    (pruned n t)[m]? = some v ↔ t[m]? = some v ∧ (fromOffsetLen v).1 < n := by
  simp only [pruned, LevelDBIndex.getElem?_foldl_erase, LevelDBIndex.mem_truncated]
  constructor
  · intro h
    split_ifs at h with hm
    exact ⟨h, not_le.mp fun hle => hm ⟨v, h, hle⟩⟩
  · rintro ⟨hv, hlt⟩
    rw [if_neg, hv]
    rintro ⟨v', hv', hle⟩
    rw [hv, Option.some.injEq] at hv'
    subst hv'
    omega

variable [X : External]

variable {G : Piece → Prop} {E exact : Prop} {F : Fates} {ts ss : List Piece} {w w' : World}
  {d d' : Disk} {staging : Bool} {tc : Option TruncCleanup}

/-- Only places in the retired part are left. -/
theorem indexOk_pruned {j : Journal Index} (hsmall : Small ss) (hle : ts <+: ss)
    (hok : IndexOk ss j) : IndexOk ts (.clean (pruned (stream ts).length j.current)) := by
  refine ⟨fun m v hv => ?_, ?_⟩
  · rw [Journal.current_clean, getElem?_pruned] at hv
    exact (hok.indexed m v hv.1).imp fun _ hd => hd.restrict hsmall hle hv.2
  · exact Journal.all_clean.mpr fun _ _ => id

/-- With nothing to take out, every place is in the retired part. -/
theorem indexOk_of_truncated_eq_nil {j : Journal Index} (hsmall : Small ss) (hle : ts <+: ss)
    (hok : IndexOk ss j) (hnil : LevelDBIndex.truncated j.current (stream ts).length = []) :
    IndexOk ts j := by
  refine ⟨fun m v hv => ?_, hok.grown⟩
  refine (hok.indexed m v hv).imp fun _ hd => hd.restrict hsmall hle (not_le.mp fun hge => ?_)
  have : m ∈ LevelDBIndex.truncated j.current (stream ts).length :=
    LevelDBIndex.mem_truncated.mpr ⟨v, hv, hge⟩
  rw [hnil] at this
  exact absurd this List.not_mem_nil

/-! ## `Create` -/

/-- The files of a log that was not made to its end. -/
def Unmade (d : Disk) : Prop := d = .empty ∨ d.indexPath = true ∧ ∀ h, d.head ≠ some (some h)

omit X in
theorem wp_makeNew {taken : Disk → Bool} {f : Disk → Disk} : wp F (CarLog.makeNew taken f)
    ⟨fun _ w' => taken w.disk = false ∧ w' = modifyDisk f w, fun _ w' => w' = w,
      fun w' => w' = w, fun _ _ => False⟩ w := by
  simp [CarLog.makeNew]

namespace CarLog

/-- A log that is there is not made again. -/
theorem wp_create_made (hmade : w.disk.indexPath = true) : wp F (create staging)
    ⟨fun _ _ => False, fun _ w' => w' = w, fun w' => w' = w, fun _ _ => False⟩ w := by
  rw [create, wp_bind, wp_wrapErr]
  refine wp_mono wp_makeNew ?_ (fun _ _ => id) (fun _ => id) fun _ _ => id
  rintro - w' ⟨hnot, -⟩
  simp [hmade] at hnot

/-- The log that `Create` makes. -/
def created (staging : Bool) : CarLog := { CarLog.zero with
  staging := staging
  head := some true
  data := some ⟨true, false, headerBytes.length⟩
  dataPos := some headerBytes.length
  dataBuffered := some ⟨[], none⟩
  dataLen := headerBytes.length
  dataStart := headerBytes.length
  wIdx := some ⟨⟩
  rIdx := some (.level ⟨⟩)
  writeLru := some [] }

/-- The files of an empty log. -/
def emptyLog (index : Option (Journal Index)) : Disk := { Disk.empty with
  indexPath := true
  head := some (some (logHead headerBytes.length false))
  blockLog := some (.clean headerBytes)
  levelIndex := index }

theorem diskOk_emptyLog : DiskOk G [] [] (emptyLog none) := by
  refine ⟨rfl, List.prefix_rfl, by simp, fun h hh => ?_, ⟨_, rfl, ?_⟩, Or.inl ⟨rfl, rfl⟩⟩
  · rw [stream_nil, ← Option.some.inj (Option.some.inj hh)]
    rfl
  · rw [Journal.all_clean, stream_nil]

omit X in
theorem wp_createLevel {get : Disk → Option (Journal Index)}
    {set : Option (Journal Index) → Disk → Disk} : wp F (createLevel get set)
    ⟨fun _ w' => get w.disk = none ∧ w' = modifyDisk (set (some (.clean ∅))) w,
      fun _ w' => w' = w, fun w' => w' = w, fun _ _ => False⟩ w := by
  simp only [createLevel, wp_bind, wp_get, wp_ioRead]
  refine ⟨?_, fun _ => trivial, fun _ => trivial⟩
  refine wp_ite.mpr ⟨fun _ => rfl, fun hnone => ?_⟩
  rw [wp_bind]
  refine wp_mono wp_ioWrite_same ?_ (fun _ _ => id) (fun _ => id) fun _ _ => id
  rintro - _ rfl
  exact ⟨by simpa using hnone, rfl⟩

/-- The files on the way through `Create`. -/
def Creating (d : Disk) : Prop := Unmade d ∨ d = emptyLog none

/-- **`Create`.** -/
theorem wp_create (hempty : w.disk = .empty) : wp F (create staging)
    ⟨fun _ w' => w' = { w with disk := emptyLog (some (.clean ∅)), jb := created staging },
      fun _ w' => Creating w'.disk, fun w' => Creating w'.disk, fun _ _ => False⟩ w := by
  obtain ⟨disk, staged, jb, calls, cleaned, out, rand, drawn⟩ := w
  subst hempty
  have hunmade : ∀ {d : Disk}, d.indexPath = true → d.head = none ∨ d.head = some none →
      Creating d := fun h1 h2 => Or.inl (Or.inr ⟨h1, fun h hh => by
    rw [hh] at h2; simp at h2⟩)
  -- until the head is written
  refine wp_stepSeq (I := fun w => Creating w.disk) (Or.inl (Or.inl rfl)) wp_makeNew ?_
  rintro - _ ⟨-, rfl⟩
  refine wp_stepSeq (I := fun w => Creating w.disk) (hunmade rfl (Or.inl rfl)) wp_makeNew ?_
  rintro - _ ⟨-, rfl⟩
  refine wp_stepSeq (I := fun w => Creating w.disk) (hunmade rfl (Or.inr rfl)) wp_makeNew ?_
  rintro - _ ⟨-, rfl⟩
  refine wp_stepSeq (I := fun w => Creating w.disk) (hunmade rfl (Or.inr rfl)) wp_ioWrite_same ?_
  rintro - _ rfl
  refine wp_stepSeq (I := fun w => Creating w.disk) (hunmade rfl (Or.inr rfl)) wp_ioWrite_same ?_
  rintro - w5 hw5
  have hw5 : w5 = ⟨{ emptyLog none with head := some none }, staged, jb, calls, cleaned, out, rand,
      drawn⟩ :=
    hw5.trans (by simp [modifyDisk, writeBlockLog, Journal.clean, Journal.write, Journal.sync,
      Journal.current, overwrite, emptyLog, headerBytes, Disk.empty])
  subst hw5
  rw [wp_bind, wp_wrapErr]
  refine wp_mono wp_writeHead ?_ ?_ ?_ fun _ _ => id
  · -- the head is written, and the log can be opened
    rintro - _ rfl
    refine wp_stepSeq (I := fun w => Creating w.disk) (Or.inr rfl) wp_ioRead_same ?_
    rintro - _ rfl
    refine wp_stepSeq (I := fun w => Creating w.disk) (Or.inr rfl) wp_createLevel ?_
    rintro - _ ⟨-, rfl⟩
    rfl
  · rintro - _ ⟨-, rfl | rfl⟩
    · exact hunmade rfl (Or.inr rfl)
    · exact hunmade rfl (Or.inr rfl)
  · rintro _ rfl
    exact hunmade rfl (Or.inr rfl)

/-! ## `Open`, of a log that was made -/

omit X in
theorem wp_openHead : wp F openHead
    ⟨fun h w' => w' = w ∧ w.disk.head = some (some h), fun _ w' => w' = w, fun w' => w' = w,
      fun _ _ => False⟩ w := by
  simp only [openHead, wp_bind, wp_wrapErr, wp_ioRead, wp_get]
  refine ⟨?_, fun _ => trivial, fun _ => trivial⟩
  rcases hhead : w.disk.head with _ | _ | h
  · rfl
  · rfl
  · simp only [wp_bind, wp_wrapErr, wp_ioRead, wp_pure]
    exact ⟨⟨trivial, trivial⟩, fun _ => trivial, fun _ => trivial⟩

omit X in
theorem wp_openBlockLog : wp F openBlockLog
    ⟨fun f w' => w' = w ∧ f = ⟨true, true, 0⟩, fun _ w' => w' = w, fun w' => w' = w,
      fun _ _ => False⟩ w := by
  simp only [openBlockLog, wp_bind, wp_get, wp_ioRead]
  exact ⟨wp_ite.mpr ⟨fun _ => ⟨rfl, rfl⟩, fun _ => rfl⟩, fun _ => trivial, fun _ => trivial⟩

omit X in
theorem wp_openLevel : wp F openLevel
    ⟨fun _ w' => w' = w ∧ w.disk.levelIndex.isSome = true,
      fun e w' => w' = w ∧ (e = .notExist → w.disk.levelIndex = none), fun w' => w' = w,
      fun _ _ => False⟩ w := by
  simp only [openLevel, wp_bind, wp_get, wp_ioRead]
  refine ⟨wp_ite.mpr ⟨fun hsome => ⟨rfl, hsome⟩, fun hnone => ⟨rfl, fun _ => ?_⟩⟩,
    fun _ => ⟨trivial, fun h => absurd h (by simp)⟩, fun _ => trivial⟩
  simpa using hnone

/-- The index of an empty log is missing, or was made while `Open` failed. -/
def IndexMade (w w' : World) : Prop := ∃ x y, (y = none ∨ y = some (.clean ∅)) ∧
  w' = modifyDisk (fun d => { d with levelTemp := x, levelIndex := y }) w

/-- The missing index of an empty log is made. -/
def withNewIndex : World → World :=
  modifyDisk fun d => { d with levelTemp := none, levelIndex := some (.clean ∅) }

/-- Nothing is retired, so nothing goes into the index. -/
theorem wp_fixLevelIndex {n : ℕ} (hn : n ≤ w.jb.dataStart) : wp F (fixLevelIndex n)
    ⟨fun _ w' => w' = w, fun _ w' => w' = w, fun w' => w' = w, fun _ _ => False⟩ w := by
  simp [fixLevelIndex, iterate, hn]

theorem wp_fixLevel {n : ℕ} (hnone : w.disk.levelIndex = none) (hn : n ≤ w.jb.dataStart) :
    wp F (fixLevel n)
      ⟨fun _ w' => w' = withNewIndex w, fun _ w' => IndexMade w w', IndexMade w,
        fun _ _ => False⟩ w := by
  obtain ⟨disk, staged, jb, calls, cleaned, out, rand, drawn⟩ := w
  replace hnone : disk.levelIndex = none := hnone
  refine wp_stepSeq ⟨disk.levelTemp, none, Or.inl rfl, by simp [modifyDisk, ← hnone]⟩
    wp_createLevel ?_
  rintro - _ ⟨-, rfl⟩
  have htemp : IndexMade ⟨disk, staged, jb, calls, cleaned, out, rand, drawn⟩
      (modifyDisk (setLevelTemp (some (.clean ∅)))
        ⟨disk, staged, jb, calls, cleaned, out, rand, drawn⟩) :=
    ⟨some (.clean ∅), none, Or.inl rfl, by simp [modifyDisk, setLevelTemp, ← hnone]⟩
  refine wp_stepSeq htemp (wp_fixLevelIndex hn) ?_
  rintro - _ rfl
  refine wp_stepSeq htemp wp_ioRead_same ?_
  rintro - _ rfl
  refine wp_stepSeq htemp wp_ioWrite_same ?_
  rintro - _ rfl
  refine wp_stepSeq ⟨_, none, Or.inl rfl, rfl⟩ wp_ioWrite_same ?_
  rintro - _ rfl
  rw [wp_wrapErr]
  have hdone : IndexMade ⟨disk, staged, jb, calls, cleaned, out, rand, drawn⟩
      (withNewIndex ⟨disk, staged, jb, calls, cleaned, out, rand, drawn⟩) :=
    ⟨_, _, Or.inr rfl, rfl⟩
  refine wp_mono wp_openLevel ?_ ?_ ?_ fun _ _ => id
  · rintro - _ ⟨rfl, -⟩
    rfl
  · rintro - _ ⟨rfl, -⟩
    exact hdone
  · rintro _ rfl
    exact hdone

/-- The log in memory, while `Open` takes it up. -/
def opening (staging : Bool) (dataLen : ℕ) : CarLog := { CarLog.zero with
  staging := staging
  head := some true
  data := some ⟨true, true, 0⟩
  dataLen := dataLen
  dataStart := headerBytes.length
  writeLru := some [] }

/-- With its index. -/
def indexed (staging readOnly : Bool) (dataLen : ℕ) : CarLog := { opening staging dataLen with
  rIdx := some (.level ⟨⟩)
  wIdx := if readOnly then none else some ⟨⟩ }

/-- **The index of a log that is not finalized.** -/
theorem wp_openIndex {n : ℕ} {readOnly : Bool}
    (hn : w.disk.levelIndex = none → n ≤ w.jb.dataStart) :
    wp F (openIndex (logHead n readOnly))
      ⟨fun _ w' => ∃ u, (u = w ∧ w.disk.levelIndex.isSome = true ∨
          w.disk.levelIndex = none ∧ u = withNewIndex w) ∧
          w' = { u with jb := { u.jb with
            rIdx := some (.level ⟨⟩), wIdx := if readOnly then none else some ⟨⟩ } },
        fun _ w' => w' = w ∨ w.disk.levelIndex = none ∧ IndexMade w w',
        fun w' => w' = w ∨ w.disk.levelIndex = none ∧ IndexMade w w', fun _ _ => False⟩ w := by
  simp only [openIndex, logHead, wp_get, Bool.false_eq_true, if_false, wp_bind, wp_handle]
  refine wp_mono wp_openLevel ?_ ?_ ?_ fun _ _ => id
  · rintro - _ ⟨rfl, hsome⟩
    exact ⟨_, Or.inl ⟨rfl, hsome⟩, rfl⟩
  · rintro e _ ⟨rfl, hnone⟩
    refine wp_ite.mpr ⟨fun he => ?_, fun _ => Or.inl rfl⟩
    have hnone := hnone he
    refine wp_mono (wp_fixLevel hnone (hn hnone)) ?_ ?_ ?_ fun _ _ => id
    · rintro - _ rfl
      exact ⟨_, Or.inr ⟨hnone, rfl⟩, rfl⟩
    · exact fun _ _ h => Or.inr ⟨hnone, h⟩
    · exact fun _ h => Or.inr ⟨hnone, h⟩
  · rintro _ rfl
    exact Or.inl rfl

end CarLog

/-- What an `Open` that fails leaves of a log: of the pieces that the index
knows, some that are not retired may be gone. -/
def Left (G : Piece → Prop) (ts ss : List Piece) (d : Disk) : Prop :=
  ∃ ss', ss' <+: ss ∧ DiskOk G ts ss' d

namespace DiskOk

theorem left (h : DiskOk G ts ss d) : Left G ts ss d := ⟨ss, List.prefix_rfl, h⟩

theorem left_of_cut (h : DiskOk G ts ss d) (h' : DiskOk G ts ts d') : Left G ts ss d' :=
  ⟨ts, h.le, h'⟩

/-- Only an empty log may lack its index. -/
theorem nil_of_none (h : DiskOk G ts ss d) (hnone : d.levelIndex = none) : ts = [] ∧ ss = [] := by
  rcases h.index with ⟨-, rfl⟩ | ⟨j, hj, -⟩
  · exact ⟨List.prefix_nil.mp h.le, rfl⟩
  · rw [hnone] at hj
    exact absurd hj (by simp)

theorem indexMade (h : DiskOk G ts ss w.disk) (hnone : w.disk.levelIndex = none)
    (hm : CarLog.IndexMade w w') : DiskOk G ts ss w'.disk := by
  obtain ⟨rfl, rfl⟩ := h.nil_of_none hnone
  obtain ⟨x, y, rfl | rfl, rfl⟩ := hm
  · exact { h with index := Or.inl ⟨rfl, rfl⟩ }
  · refine { h with index := Or.inr ⟨_, rfl, fun m v hv => ?_, ?_⟩ }
    · simp at hv
    · exact Journal.all_clean.mpr fun _ _ => id

/-- The head was torn, or written without moving what is retired. -/
theorem withHead {x : Option (Option Head)} (h : DiskOk G ts ss d)
    (hx : ∀ h', x = some (some h') → h' = logHead (stream ts).length h'.readOnly) :
    DiskOk G ts ss { d with head := x } := { h with head := hx }

/-- The index was cut. -/
theorem cutIndex {j : Journal Index} (h : DiskOk G ts ss d) (hsmall : Small ss)
    (hj : d.levelIndex = some j) :
    DiskOk G ts ts { d with levelIndex := some (.clean (pruned (stream ts).length j.current)) } := by
  rcases h.index with ⟨hnone, -⟩ | ⟨j', hj', hok⟩
  · rw [hj] at hnone
    exact absurd hnone (by simp)
  obtain rfl : j = j' := Option.some.inj (hj.symm.trans hj')
  exact { h with
    le := List.prefix_rfl
    good := fun p hp => h.good p (h.le.subset hp)
    index := Or.inr ⟨_, rfl, indexOk_pruned hsmall h.le hok⟩ }

end DiskOk

/-- **A writable log that `Open` has checked**: all of the file is `ss`,
and writes have no place yet. -/
structure Checked (G : Piece → Prop) (ts ss : List Piece) (w : World) : Prop where
  disk : DiskOk G ts ss w.disk
  index : w.disk.levelIndex.isSome = true
  file : ∃ j, w.disk.blockLog = some j ∧ j.current = stream ss
  jb : ∃ staging, w.jb = CarLog.indexed staging false (stream ss).length

/-- A file that begins with the retired pieces is these, and what is torn. -/
theorem exists_torn {bs : Bytes} (h : stream ts <+: bs) : ∃ rest, stream (ts ++ [.torn rest]) = bs := by
  obtain ⟨rest, rfl⟩ := h
  exact ⟨rest, by simp [stream_append, Piece.bytes]⟩

namespace Checked

/-- All of the index is retired, and what is behind it in the file is torn. -/
theorem of_retired {rest : Bytes} {staging : Bool} {j : Journal Bytes}
    {ji : Journal Index} (hd : DiskOk G ts ss w.disk) (hG : G (.torn rest))
    (hj : w.disk.blockLog = some j) (hrest : stream (ts ++ [.torn rest]) = j.current)
    (hji : w.disk.levelIndex = some ji) (hok : IndexOk ts ji)
    (hjb : w.jb = CarLog.indexed staging false j.current.length) :
    Checked G ts (ts ++ [.torn rest]) w where
  disk := { hd with
    le := List.prefix_append _ _
    good := fun p hp => (List.mem_append.mp hp).elim (fun hp => hd.good p (hd.le.subset hp))
      fun hp => List.mem_singleton.mp hp ▸ hG
    index := Or.inr ⟨ji, hji, fun m v hv => (hok.indexed m v hv).imp fun _ h => h.append _,
      hok.grown⟩ }
  index := by rw [hji]; rfl
  file := ⟨j, hj, hrest.symm⟩
  jb := ⟨staging, by rw [hjb, hrest]⟩

end Checked

namespace CarLog

/-- What `Open` gives: the retired pieces, and what is torn behind them. -/
def Torn (rest : List Piece) : Prop := ∀ p ∈ rest, ∃ b, p = .torn b

/-- The file is cut to the retired pieces. -/
theorem wp_cutFile {n : ℕ} (hd : DiskOk G ts ts w.disk)
    (hindex : w.disk.levelIndex.isSome = true) (hjb : w.jb = indexed staging false n) :
    wp F (wrapErr "truncating data file" (dataTruncate (stream ts).length) >>= fun _ => do
      modifyJb fun j => { j with dataLen := (stream ts).length }
      let _ ← wrapErr "updating head after truncate"
        (mutHead fun h => .ok { h with retiredAt := (stream ts).length })
      return ())
      ⟨fun _ w' => Checked G ts ts w', fun _ w' => DiskOk G ts ts w'.disk,
        fun w' => DiskOk G ts ts w'.disk, fun _ _ => False⟩ w := by
  obtain ⟨jl, hlog, hall⟩ := hd.log
  have hopen : w.jb.data = some ⟨true, true, 0⟩ := by rw [hjb]; rfl
  simp only [wp_bind, wp_wrapErr, dataTruncate, openData, wp_get, hopen, if_true, wp_ret,
    wp_ioWrite, wp_modifyJb]
  refine ⟨?_, fun _ => hd, fun _ => hd⟩
  -- the file is cut, the head says what it said
  have hcut : jl.current.take (stream ts).length ++
      List.replicate ((stream ts).length - jl.current.length) 0 = stream ts := by
    have hle := hall.current.length_le
    rw [Nat.sub_eq_zero_of_le hle, List.replicate_zero, List.append_nil]
    exact (List.prefix_iff_eq_take.mp hall.current).symm
  have hfile : writeBlockLog false (fun bs => bs.take (stream ts).length ++
      List.replicate ((stream ts).length - bs.length) 0) w.disk =
      { w.disk with blockLog := some (jl.write (stream ts)) } := by
    simp only [writeBlockLog, hlog, Option.map_some, hcut, Bool.false_eq_true, if_false]
  have hd' : DiskOk G ts ts { w.disk with blockLog := some (jl.write (stream ts)) } :=
    { hd with log := ⟨_, rfl, hall.write List.prefix_rfl⟩ }
  -- whether or not the change of the head has got through
  have hmay : ∀ {u v : World}, u.disk = { w.disk with blockLog := some (jl.write (stream ts)) } →
      MayChange (fun h => .ok { h with retiredAt := (stream ts).length }) u v →
      DiskOk G ts ts v.disk := by
    rintro u v hu (rfl | ⟨h₁, h₂, hh, hc, rfl⟩)
    · rw [hu]
      exact hd'
    · simp only [Carlog.withHead, hu] at hh ⊢
      refine hd'.withHead fun h' hh' => ?_
      rw [← Option.some.inj (Option.some.inj hh'), ← Except.ok.inj hc, hd'.head h₁ hh]
      rfl
  simp only [modifyDisk, hfile]
  refine wp_mono (wp_mutHead (by rw [hjb]; rfl)) ?_ ?_ ?_ fun _ _ => False.elim
  · rintro h₁ v ⟨hh, h₂, hc, rfl⟩
    refine ⟨hmay rfl (Or.inr ⟨h₁, h₂, hh, hc, rfl⟩), hindex, ⟨_, rfl, by simp⟩, staging, ?_⟩
    simp only [Carlog.withHead, hjb]
    rfl
  · rintro e v (⟨rfl, -⟩ | ⟨-, -, hv | rfl⟩)
    · exact hd'
    · exact hmay rfl hv
    · exact hd'.withHead fun h' hh' => by simp at hh'
  · exact fun v hv => hmay rfl hv

/-- **Truncating**: with nothing to take out of the index the file stays. -/
theorem wp_truncate {n : ℕ} (hG : ∀ bs, G (.torn bs)) (hsmall : Small ss)
    (hd : DiskOk G ts ss w.disk) (hindex : w.disk.levelIndex.isSome = true)
    (hjb : w.jb = indexed staging false (blockLog w).length) (hn : n = (stream ts).length) :
    wp F (truncate n tc)
      ⟨fun _ w' => Left G ts ss w'.disk ∧ ∃ rest, Torn rest ∧ Checked G ts (ts ++ rest) w',
        fun _ w' => Left G ts ss w'.disk, fun w' => Left G ts ss w'.disk, fun _ _ => False⟩ w := by
  subst hn
  obtain ⟨jl, hlog, hall⟩ := hd.log
  obtain ⟨ji, hji⟩ := Option.isSome_iff_exists.mp hindex
  have hok : IndexOk ss ji := by
    rcases hd.index with ⟨hnone, -⟩ | ⟨j', hj', hok⟩
    · rw [hji] at hnone
      exact absurd hnone (by simp)
    · rwa [Option.some.inj (hji.symm.trans hj')] at *
  have hwr : w.jb.wIdx.isNone = false := by rw [hjb]; rfl
  simp only [truncate, wp_get, wp_bind, wp_failIf, wp_wrapErr, LevelDBIndex.toTruncate,
    LevelDBIndex.contents, wp_ioRead, hji, wp_ret, wp_pure, hwr]
  refine ⟨fun h => absurd h (by simp), fun _ => ⟨fun _ => hd.left, fun _ => ⟨?_, fun _ => hd.left,
    fun _ => hd.left⟩⟩⟩
  refine wp_ite.mpr ⟨fun hnil => ?_, fun _ => ?_⟩
  -- nothing to take out: what is behind the retired pieces is torn, and stays
  · obtain ⟨rest, hrest⟩ := exists_torn hall.current
    have hcur : blockLog w = jl.current := by simp [blockLog, hlog]
    rw [hcur] at hjb
    exact ⟨hd.left, [.torn rest], by simp [Torn], .of_retired hd (hG rest) hlog hrest hji
      (indexOk_of_truncated_eq_nil hsmall hd.le hok hnil) hjb⟩
  · split
    · exact hd.left
    -- the index is cut, and then the file
    have hcut : DiskOk G ts ts { w.disk with
        levelIndex := some (.clean (pruned (stream ts).length ji.current)) } :=
      hd.cutIndex hsmall hji
    have hdel : LevelDBIndex.modifyLevel (fun j => (j.write
        ((LevelDBIndex.truncated ji.current (stream ts).length).foldl (fun t m => t.erase m)
          j.current)).sync) w.disk =
        { w.disk with levelIndex := some (.clean (pruned (stream ts).length ji.current)) } := by
      simp [LevelDBIndex.modifyLevel, hji, Journal.sync, pruned]
    rw [wp_bind, wp_modify]
    dsimp only
    rw [wp_bind, wp_wrapErr, LevelDBIndex.del, wp_ioWrite]
    refine ⟨?_, fun _ => hd.left, fun _ => hd.left⟩
    simp only [modifyDisk, hdel]
    refine wp_mono (wp_cutFile hcut rfl hjb) ?_ ?_ ?_ fun _ _ => False.elim
    · exact fun _ v hv => ⟨hd.left_of_cut hv.disk, [], by simp [Torn], by simpa using hv⟩
    · exact fun _ v hv => hd.left_of_cut hv
    · exact fun v hv => hd.left_of_cut hv

/-- **Writes get their place**, at the end of the file. -/
theorem wp_seekEnd (exact : Prop) (h : Checked G ts ss w) : wp F seekEnd
    ⟨fun _ w' => Live G E exact ts ss w', fun _ w' => w' = w, fun w' => w' = w,
      fun _ _ => False⟩ w := by
  obtain ⟨disk, staged, jb, calls, cleaned, out, rand, drawn⟩ := w
  obtain ⟨jl, hlog, hcur⟩ := h.file
  obtain ⟨jl', hlog', hall⟩ := h.disk.log
  obtain rfl : jl = jl' := Option.some.inj (hlog.symm.trans hlog')
  obtain ⟨staging, hjb⟩ := h.jb
  replace hjb : jb = indexed staging false (stream ss).length := hjb
  subst hjb
  -- the index is there since the log was checked
  have hindex : ∃ j, disk.levelIndex = some j ∧ IndexOk ss j := by
    rcases h.disk.index with ⟨hnone, -⟩ | hsome
    · have := h.index
      rw [hnone] at this
      exact absurd this (by simp)
    · exact hsome
  simp only [seekEnd, wp_bind, wp_wrapErr, wp_ioRead, wp_modifyJb]
  refine ⟨{
    made := h.disk.made
    le := h.disk.le
    good := h.disk.good
    head := h.disk.head
    tail := ⟨jl, ⟨true, true, (stream ss).length⟩, ⟨[], none⟩, {
      log := hlog
      durable := hall
      data := rfl
      isOpen := rfl
      off := by rw [hcur]
      pos := by rw [hcur]; rfl
      buffered := rfl
      stream := by simp [hcur]
      eq := fun _ => by simp [hcur]
      err := fun he => absurd rfl he }⟩
    index := hindex
    headOpen := rfl
    dataLen := rfl
    dataStart := rfl
    dataEnd := rfl
    layerOffsets := rfl
    wIdx := rfl
    rIdx := ⟨_, rfl⟩
    eIdx := rfl
    lru := ⟨_, rfl, by simp⟩ }, fun _ => trivial, fun _ => trivial⟩

end CarLog

/-- **What `Open` gives**: a log open for writing, of the retired pieces
and what is torn behind them, or a log that is read-only. -/
def Opened (G : Piece → Prop) (E exact : Prop) (ts ss : List Piece) (w : World) : Prop :=
  (∃ rest, CarLog.Torn rest ∧ Live G E exact ts (ts ++ rest) w) ∨
    w.jb.wIdx = none ∧ DiskOk G ts ss w.disk

namespace CarLog

/-- Checking the log, and placing the writes. -/
theorem wp_replay {readOnly : Bool} (exact : Prop) (tc : Option TruncCleanup)
    (hG : ∀ bs, G (.torn bs)) (hsmall : Small ss)
    (hd : DiskOk G ts ss w.disk) (hindex : w.disk.levelIndex.isSome = true)
    (hjb : w.jb = indexed staging readOnly (blockLog w).length) :
    wp F (replay (logHead (stream ts).length readOnly) (blockLog w).length tc >>= fun _ => seekEnd)
      ⟨fun _ w' => Opened G E exact ts ss w', fun _ w' => Left G ts ss w'.disk,
        fun w' => Left G ts ss w'.disk, fun _ _ => False⟩ w := by
  rw [wp_bind, replay, wp_get]
  cases readOnly with
  | false =>
    have hw : w.jb.wIdx.isSome := by rw [hjb]; rfl
    rw [if_pos (Or.inr hw), wp_bind, wp_failIf]
    refine ⟨fun hro => absurd hro (by simp [logHead]), fun _ => ?_⟩
    change wp F (wrapErr "truncating jbob" (truncate (stream ts).length tc)) _ w
    rw [wp_wrapErr]
    refine wp_mono (wp_truncate hG hsmall hd hindex hjb rfl) ?_ (fun _ _ => id) (fun _ => id)
      fun _ _ => id
    rintro - u ⟨hleft, rest, htorn, hu⟩
    refine wp_mono (wp_seekEnd (E := E) exact hu) ?_ ?_ ?_ fun _ _ => id
    · exact fun _ v hv => Or.inl ⟨rest, htorn, hv⟩
    · rintro _ _ rfl
      exact hleft
    · rintro _ rfl
      exact hleft
  | true =>
    refine wp_ite.mpr ⟨fun _ => ?_, fun _ => ?_⟩
    · rw [wp_bind, wp_failIf]
      exact ⟨fun _ => hd.left, fun hro => absurd rfl hro⟩
    · have hread : w.jb.wIdx = none := by rw [hjb]; rfl
      simp only [wp_ret, seekEnd, wp_bind, wp_wrapErr, wp_ioRead, wp_modifyJb]
      exact ⟨Or.inr ⟨hread, hd⟩, fun _ => hd.left, fun _ => hd.left⟩

/-- **`Open`, once the data file is open.** -/
theorem wp_openWithData {readOnly : Bool} (hG : ∀ bs, G (.torn bs)) (hsmall : Small ss)
    (hd : DiskOk G ts ss w.disk) :
    wp F (openWithData staging (logHead (stream ts).length readOnly) ⟨true, true, 0⟩ tc)
      ⟨fun _ w' => Opened G E exact ts ss w', fun _ w' => Left G ts ss w'.disk,
        fun w' => Left G ts ss w'.disk, fun _ _ => False⟩ w := by
  obtain ⟨jl, hlog, hall⟩ := hd.log
  simp only [openWithData, wp_bind, wp_wrapErr, wp_ioRead, wp_get, wp_failIf]
  refine ⟨⟨fun _ => hd.left, fun _ => ?_⟩, fun _ => hd.left, fun _ => hd.left⟩
  rw [setJb, wp_modifyJb]
  set u : World := { w with jb := opening staging (blockLog w).length } with hu
  have hud : DiskOk G ts ss u.disk := hd
  have hn : u.disk.levelIndex = none → (stream ts).length ≤ u.jb.dataStart := fun hnone => by
    rw [(hud.nil_of_none hnone).1, stream_nil]
    exact le_rfl
  refine wp_mono (wp_openIndex hn) ?_ ?_ ?_ fun _ _ => False.elim
  · rintro - _ ⟨v, hv, rfl⟩
    -- the index is there now, and the rest is as it was
    obtain ⟨hvd, hindex, hvlog, hvjb⟩ : DiskOk G ts ss v.disk ∧ v.disk.levelIndex.isSome = true ∧
        v.disk.blockLog = u.disk.blockLog ∧ v.jb = u.jb := by
      rcases hv with ⟨rfl, hsome⟩ | ⟨hnone, rfl⟩
      · exact ⟨hud, hsome, rfl, rfl⟩
      · exact ⟨hud.indexMade hnone ⟨_, _, Or.inr rfl, rfl⟩, rfl, rfl, rfl⟩
    have hlen : ∀ x : World, x.disk.blockLog = v.disk.blockLog → blockLog x = blockLog w := by
      intro x hx
      rw [blockLog, hx, hvlog]
      rfl
    have htop : cutTopTree (logHead (stream ts).length readOnly) (blockLog w).length =
        .ret (blockLog w).length := by simp [cutTopTree, logHead]
    rw [htop]
    dsimp only
    rw [wp_ret]
    set x : World := { v with jb := { v.jb with
      rIdx := some (.level ⟨⟩), wIdx := if readOnly then none else some ⟨⟩ } } with hx
    have hxlen : blockLog x = blockLog w := hlen x rfl
    have hxjb : x.jb = indexed staging readOnly (blockLog x).length := by
      rw [hxlen, hx, hvjb, hu]
      rfl
    have hreplay := wp_replay (E := E) (F := F) (w := x) exact tc hG hsmall hvd hindex hxjb
    rwa [hxlen, wp_bind] at hreplay
  · rintro - v (rfl | ⟨hnone, hm⟩)
    · exact hud.left
    · exact (hud.indexMade hnone hm).left
  · rintro v (rfl | ⟨hnone, hm⟩)
    · exact hud.left
    · exact (hud.indexMade hnone hm).left

/-- **`Open`** of the files of a log. -/
theorem wp_openLog (exact : Prop) (staging : Bool) (tc : Option TruncCleanup)
    (hG : ∀ bs, G (.torn bs)) (hsmall : Small ss) (hd : DiskOk G ts ss w.disk) :
    wp F (openLog staging tc)
      ⟨fun _ w' => Opened G E exact ts ss w', fun _ w' => Left G ts ss w'.disk,
        fun w' => Left G ts ss w'.disk, fun _ _ => False⟩ w := by
  refine wp_seq wp_openHead ?_ ?_ ?_ fun _ _ => False.elim
  · rintro h _ ⟨rfl, hh⟩
    rw [hd.head h hh]
    refine wp_ite.mpr ⟨fun hoff => absurd hoff (by simp [logHead]), fun _ => ?_⟩
    rw [wp_bind, wp_attempt]
    refine wp_mono wp_openBlockLog ?_ ?_ ?_ fun _ _ => False.elim
    · rintro f _ ⟨rfl, rfl⟩
      exact wp_openWithData hG hsmall hd
    · rintro e _ rfl
      refine wp_ite.mpr ⟨fun hext => absurd hext.2 (by simp [logHead]), fun _ => hd.left⟩
    · rintro _ rfl
      exact hd.left
  · rintro _ _ rfl
    exact hd.left
  · rintro _ rfl
    exact hd.left

/-- A log that was not made to its end cannot be opened. -/
theorem wp_openLog_unmade (h : ∀ x, w.disk.head ≠ some (some x)) : wp F (openLog staging tc)
    ⟨fun _ _ => False, fun _ w' => w' = w, fun w' => w' = w, fun _ _ => False⟩ w := by
  refine wp_seq wp_openHead ?_ (fun _ _ => id) (fun _ => id) fun _ _ => id
  rintro x w' ⟨-, hx⟩
  exact absurd hx (h x)

end CarLog

end Carlog

end Ribs
