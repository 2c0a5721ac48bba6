import Ribs.Carlog.Once
/-!
# Carlog — the index, rebuilt from the log

`Put` keeps the index as it appends: of each block it knows the place from
the running length of the log, and a batch goes into the index in the order
of its blocks. When the index is missing, it is made of the entries that a
walk of the file hands out, in batches of another size. Both know of each
multihash the place of its last entry.
-/

namespace Ribs

open Common

namespace Carlog

open CarLog (LogEntry blockLog putBlock putBlocks putFixed fixLevelIndex)

/-! ## Batches -/

namespace LevelDBIndex

variable {t : Index} {m : Multihash} {v : I64} {es : List (Multihash × I64)}

theorem putBatch_append (t : Index) (es es' : List (Multihash × I64)) :
    putBatch t (es ++ es') = putBatch (putBatch t es) es' := List.foldl_append

/-- What is skipped does not matter. -/
theorem putBatch_filter (t : Index) (es : List (Multihash × I64)) :
    putBatch t (es.filter fun e => e.2 ≠ -1) = putBatch t es := by
  induction es generalizing t with
  | nil => rfl
  | cons e es ih =>
    by_cases he : e.2 = -1
    · rw [List.filter_cons_of_neg (by simpa using he), ih, putBatch, putBatch, List.foldl_cons,
        if_pos he]
    · rw [List.filter_cons_of_pos (by simpa using he)]
      exact ih (if e.2 = -1 then t else t.insert e.1 e.2)

/-- **The last one wins.** -/
theorem getElem?_putBatch_last {pre post : List (Multihash × I64)}
    (hes : es = pre ++ (m, v) :: post) (hv : v ≠ -1) (hpost : ∀ e ∈ post, e.1 ≠ m) :
    (putBatch t es)[m]? = some v := by
  have hcons : ∀ u : Index, putBatch u ((m, v) :: post) = putBatch (u.insert m v) post := by
    intro u
    rw [putBatch, List.foldl_cons, if_neg hv]
    rfl
  rw [hes, putBatch_append, hcons,
    getElem?_putBatch_of_forall_ne post fun e he hm => absurd hm (hpost e he),
    getElem?_insert, if_pos rfl]

/-- What is in the index behind a batch was there, or is the last one in it. -/
theorem last_of_getElem?_putBatch (hne : ∀ e ∈ es, e.2 ≠ -1) (h : (putBatch t es)[m]? = some v) :
    (t[m]? = some v ∧ ∀ e ∈ es, e.1 ≠ m) ∨
      ∃ pre post, es = pre ++ (m, v) :: post ∧ ∀ e ∈ post, e.1 ≠ m := by
  induction es generalizing t with
  | nil => exact Or.inl ⟨h, by simp⟩
  | cons e es ih =>
    obtain ⟨he, hes⟩ := List.forall_mem_cons.mp hne
    have hcons : putBatch t (e :: es) = putBatch (t.insert e.1 e.2) es := by
      rw [putBatch, List.foldl_cons, if_neg he]
      rfl
    rw [hcons] at h
    rcases ih hes h with ⟨ht, hnone⟩ | ⟨pre, post, rfl, hpost⟩
    · rw [getElem?_insert] at ht
      by_cases hm : e.1 = m
      · rw [if_pos hm] at ht
        exact Or.inr ⟨[], es, by rw [← hm, ← Option.some.inj ht]; rfl, hnone⟩
      · rw [if_neg hm] at ht
        exact Or.inl ⟨ht, List.forall_mem_cons.mpr ⟨hm, hnone⟩⟩
    · exact Or.inr ⟨e :: pre, post, rfl, hpost⟩

end LevelDBIndex

open LevelDBIndex (putBatch)

/-! ## The last entry of each multihash -/

/-- The multihash of an entry, and its packed place. -/
def CarLog.LogEntry.place (e : LogEntry) : Multihash × I64 :=
  (e.cid.hash, makeOffsetLen e.off e.length)

/-- A length that fits the packed offset. -/
def CarLog.LogEntry.Short (e : LogEntry) : Prop := e.length < 2 ^ 23

/-- **An index of entries** knows of each multihash that it has the place
of the last one. -/
def Latest (es : List LogEntry) (t : Index) : Prop :=
  ∀ m v, t[m]? = some v →
    ∃ pre e post, es = pre ++ e :: post ∧ e.place = (m, v) ∧ ∀ e' ∈ post, e'.cid.hash ≠ m

theorem LogEntry.place_ne {e : LogEntry} (h : e.Short) : e.place.2 ≠ -1 :=
  makeOffsetLen_ne_neg_one h

/-- The places of entries, where the one of a multihash is the last. -/
theorem exists_of_map_place {new : List LogEntry} {m : Multihash} {v : I64}
    {pre post : List (Multihash × I64)} (h : new.map LogEntry.place = pre ++ (m, v) :: post)
    (hpost : ∀ e ∈ post, e.1 ≠ m) :
    ∃ pre e post, new = pre ++ e :: post ∧ e.place = (m, v) ∧ ∀ e' ∈ post, e'.cid.hash ≠ m := by
  obtain ⟨l, r, rfl, rfl, hr⟩ := List.map_eq_append_iff.mp h
  obtain ⟨e, r, rfl, he, rfl⟩ := List.map_eq_cons_iff.mp hr
  exact ⟨l, e, r, rfl, he, fun e' he' => hpost e'.place (List.mem_map_of_mem he')⟩

namespace Latest

variable {es new : List LogEntry} {t : Index}

/-- Entries that the index does not know of come behind the others. -/
theorem concat (h : Latest es t) (hnew : ∀ e ∈ new, e.cid.hash ∉ t) : Latest (es ++ new) t := by
  intro m v hv
  obtain ⟨pre, e, post, rfl, hplace, hpost⟩ := h m v hv
  refine ⟨pre, e, post ++ new, by simp, hplace, fun e' he' => ?_⟩
  rcases List.mem_append.mp he' with he' | he'
  · exact hpost e' he'
  · rintro rfl
    refine hnew e' he' ?_
    rw [← Std.TreeMap.isSome_getElem?_iff_mem, hv]
    rfl

/-- **A batch** makes the index one of its entries, too. -/
theorem putBatch (h : Latest es t) (hshort : ∀ e ∈ new, e.Short) :
    Latest (es ++ new) (putBatch t (new.map LogEntry.place)) := by
  intro m v hv
  have hne : ∀ x ∈ new.map LogEntry.place, x.2 ≠ -1 := by
    intro x hx
    obtain ⟨e, he, rfl⟩ := List.mem_map.mp hx
    exact LogEntry.place_ne (hshort e he)
  rcases LevelDBIndex.last_of_getElem?_putBatch hne hv with ⟨ht, hnone⟩ | ⟨pre, post, heq, hpost⟩
  · obtain ⟨pre, e, post, rfl, hplace, hpost⟩ := h m v ht
    refine ⟨pre, e, post ++ new, by simp, hplace, fun e' he' => ?_⟩
    rcases List.mem_append.mp he' with he' | he'
    · exact hpost e' he'
    · exact hnone e'.place (List.mem_map_of_mem he')
  · obtain ⟨pre, e, post, rfl, hplace, hpost⟩ := exists_of_map_place heq hpost
    exact ⟨es ++ pre, e, post, by simp, hplace, hpost⟩

theorem nil : Latest es ∅ := by
  intro m v hv
  simp at hv

/-- **The entries of a beginning of the log**, put into an empty index: what
another index knows of them, this one knows. -/
theorem getElem?_of_prefix {ents more : List LogEntry} {m : Multihash} {v : I64}
    (h : Latest (ents ++ more) t) (hshort : ∀ e ∈ ents, e.Short) (hv : t[m]? = some v) :
    ∃ e ∈ ents ++ more, e.place = (m, v) ∧
      (e ∉ more → (LevelDBIndex.putBatch ∅ (ents.map LogEntry.place))[m]? = some v) := by
  obtain ⟨pre, e, post, heq, hplace, hpost⟩ := h m v hv
  refine ⟨e, by rw [heq]; simp, hplace, fun hmore => ?_⟩
  rcases List.append_eq_append_iff.mp heq with ⟨as, rfl, hmore'⟩ | ⟨bs, rfl, hbs⟩
  · exact absurd (by rw [hmore']; simp) hmore
  · cases bs with
    | nil => exact absurd (by rw [← List.nil_append more, ← hbs]; simp) hmore
    | cons x bs =>
      obtain ⟨rfl, rfl⟩ := List.cons.inj hbs
      have hplaces : (pre ++ e :: bs).map LogEntry.place =
          pre.map LogEntry.place ++ (m, v) :: bs.map LogEntry.place := by
        rw [List.map_append, List.map_cons, hplace]
      refine LevelDBIndex.getElem?_putBatch_last hplaces ?_ ?_
      · have := LogEntry.place_ne (hshort e (by simp))
        rwa [hplace] at this
      · intro x hx
        obtain ⟨e', he', rfl⟩ := List.mem_map.mp hx
        exact hpost e' (List.mem_append_left _ he')

end Latest

/-! ## The places that `Put` gives -/

/-- The entries of pieces behind pieces. -/
theorem walked_append (off : ℕ) (ps qs : List Piece) :
    walked off (ps ++ qs) =
      walked off ps ++ walked (off + (ps.flatMap Piece.bytes).length) qs := by
  induction ps generalizing off with
  | nil => simp [walked]
  | cons p ps ih =>
    cases p with
    | entry m data =>
      rw [List.cons_append, walked, walked, ih, List.flatMap_cons, List.length_append, Piece.bytes,
        length_framed, Nat.add_assoc, List.cons_append]
    | torn b =>
      rw [List.cons_append, walked, walked, ih, List.flatMap_cons, List.length_append, Piece.bytes,
        Nat.add_assoc]

/-- They lie within the pieces. -/
theorem mem_walked {off : ℕ} {ps : List Piece} {e : LogEntry} (h : e ∈ walked off ps) :
    off ≤ e.off ∧ e.off + frameSize e.length ≤ off + (ps.flatMap Piece.bytes).length := by
  induction ps generalizing off with
  | nil => exact absurd h (by simp [walked])
  | cons p ps ih =>
    rw [List.flatMap_cons, List.length_append]
    cases p with
    | entry m data =>
      rw [Piece.bytes, length_framed]
      rcases List.mem_cons.mp h with rfl | h
      · exact ⟨le_refl _, by simp only; omega⟩
      · have := ih h
        omega
    | torn b =>
      rw [Piece.bytes]
      have := ih h
      omega

theorem map_hash_walked (off : ℕ) (ps : List Piece) :
    (walked off ps).map (fun e => e.cid.hash) = hashes ps := by
  rw [hashes, ← map_block_walked off, List.map_map]
  rfl

/-- **The places** of the blocks that are not skipped, from a length of the
log on. -/
def offsets : ℕ → List (Multihash × Bytes × Bool) → List I64
  | _, [] => []
  | off, (m, data, has) :: l =>
    if has then -1 :: offsets off l
    else makeOffsetLen off (payload m data).length ::
      offsets (off + frameSize (payload m data).length) l

/-- What is not skipped of a batch. -/
theorem filter_zip_offsets (off : ℕ) (l : List (Multihash × Bytes × Bool))
    (hshort : ∀ e ∈ walked off (newEntries l), e.Short) :
    ((l.map Prod.fst).zip (offsets off l)).filter (fun e => e.2 ≠ -1) =
      (walked off (newEntries l)).map LogEntry.place := by
  induction l generalizing off with
  | nil => rfl
  | cons e l ih =>
    obtain ⟨m, data, _ | _⟩ := e
    · have hnew : newEntries ((m, data, false) :: l) = .entry m data :: newEntries l := rfl
      rw [hnew, walked] at hshort ⊢
      obtain ⟨he, hl⟩ := List.forall_mem_cons.mp hshort
      have hlen : (payload m data).length < 2 ^ 23 := he
      have hne : makeOffsetLen off (payload m data).length ≠ -1 := makeOffsetLen_ne_neg_one hlen
      rw [offsets, if_neg (by simp), List.map_cons, List.zip_cons_cons,
        List.filter_cons_of_pos (by rw [decide_eq_true_eq]; exact hne), ih _ hl, List.map_cons]
      rfl
    · have hnew : newEntries ((m, data, true) :: l) = newEntries l := rfl
      rw [hnew] at hshort ⊢
      rw [offsets, if_pos rfl, List.map_cons, List.zip_cons_cons,
        List.filter_cons_of_neg (by simp), ih _ hshort]

section

variable [X : External] {G : Piece → Prop} {E exact : Prop} {F : Fates} {ts ss : List Piece}
  {w w' : World} {c : List Multihash} {b : List Bytes}

namespace CarLog

/-- A block gets the place that the length of the log says. -/
theorem wp_putBlock_place (hE : Failing F → E) (h : Live G E exact ts ss w) {m : Multihash}
    {blk : Bytes} : wp F (putBlock m blk) (.returns fun v w' =>
      v = makeOffsetLen w.jb.dataLen (payload m blk).length ∧
        w'.jb.dataLen = w.jb.dataLen + frameSize (payload m blk).length) w := by
  obtain ⟨l, hl, -⟩ := h.lru
  have hlen : (Cid.mk raw m).bytes.length + blk.length = (payload m blk).length := by
    rw [payload, List.length_append]
  simp only [putBlock, wp_get, wp_bind, wp_wrapErr, hlen]
  refine wp_mono (wp_ldWrite hE h.tail _) ?_ (fun _ _ _ => trivial) (fun _ _ => trivial)
    fun _ _ _ => trivial
  rintro n u ⟨rfl, ⟨_, _, _, _, rfl⟩, -⟩
  simp only [hl, wp_deref_some, wp_modifyJb, wp_pure]
  refine ⟨rfl, ?_⟩
  have hframe : [(Cid.mk raw m).bytes, blk].flatten = payload m blk := by simp [payload]
  rw [hframe]

/-- So do all blocks of a batch. -/
theorem wp_putBlocks_places (hE : Failing F → E) (l : List (Multihash × Bytes × Bool))
    {ss : List Piece} {w : World} (h : Live G E exact ts ss w) (hG : Fitting G (newEntries l)) :
    wp F (putBlocks l) (.returns fun offs _ => offs = offsets w.jb.dataLen l) w := by
  induction l generalizing ss w with
  | nil => rfl
  | cons e l ih =>
    obtain ⟨m, blk, _ | _⟩ := e
    · have hnew : newEntries ((m, blk, false) :: l) = .entry m blk :: newEntries l := rfl
      rw [hnew] at hG
      rw [putBlocks, if_neg (by simp), wp_bind, wp_failIf]
      refine ⟨fun _ => trivial, fun hfits => ?_⟩
      have hGe := hG m blk List.mem_cons_self (Nat.not_lt.mp hfits)
      refine wp_seq (wp_and (wp_putBlock hE h hGe) (wp_putBlock_place hE h)) ?_
        (fun _ _ _ => trivial) (fun _ _ => trivial) fun _ _ _ => trivial
      rintro v u ⟨⟨-, -, hlive⟩, rfl, hlen⟩
      refine wp_returns_seq (ih hlive fun m d hd => hG m d (List.mem_cons_of_mem _ hd)) ?_
      rintro offs t rfl
      change _ = offsets _ _
      rw [offsets, if_neg (by simp), hlen]
    · have hnew : newEntries ((m, blk, true) :: l) = newEntries l := rfl
      rw [hnew] at hG
      rw [putBlocks, if_pos rfl]
      refine wp_returns_seq (ih h hG) ?_
      rintro offs t rfl
      change _ = offsets _ _
      rw [offsets, if_pos rfl]

/-- **The index behind a `Put`**, with the index lock held. -/
theorem wp_putLocked_index (hE : Failing F → E) (h : Live G E exact ts ss w)
    (hput : PutOk G w c b) : wp F (putLocked c b) (.returns fun _ w' =>
      index w' = putBatch (index w) (c.zip (offsets w.jb.dataLen
        (c.zip (b.zip (c.map fun m => (index w).contains m)))))) w := by
  obtain ⟨j, hj, -⟩ := h.index
  obtain ⟨i, hi⟩ := h.rIdx
  have hgood := hput j hj
  rw [← newEntries_zip] at hgood
  simp only [putLocked, wp_get, wp_bind, wp_failIf, readableIndex, hi, wp_deref_some,
    ReadableIndex.has, LevelDBIndex.has, LevelDBIndex.contents, wp_ioRead, hj, wp_ret, wp_pure,
    wp_wrapErr]
  refine ⟨fun _ => trivial, fun _ => ⟨fun _ => trivial, fun _ =>
    ⟨?_, fun _ => trivial, fun _ => trivial⟩⟩⟩
  refine wp_mono (wp_and (wp_putBlocks hE _ h hgood) (wp_putBlocks_places hE _ h hgood)) ?_
    (fun _ _ _ => trivial) (fun _ _ => trivial) fun _ _ _ => trivial
  rintro offs u ⟨⟨-, ⟨_, _, _, _, _, _, rfl⟩, -⟩, rfl⟩
  simp only [LevelDBIndex.put, wp_ioWrite]
  refine ⟨?_, fun _ => trivial, fun _ => trivial⟩
  rw [index_eq hj]
  refine (index_eq ?_).trans (Journal.current_write j _)
  simp only [modifyDisk, LevelDBIndex.modifyLevel, hj, Option.map_some]

theorem wp_put_index (hE : Failing F → E) (h : Live G E exact ts ss w) (hput : PutOk G w c b) :
    wp F (put c b) (.returns fun _ w' => index w' = putBatch (index w) (c.zip (offsets w.jb.dataLen
      (c.zip (b.zip (c.map fun m => (index w).contains m)))))) w := by
  refine wp_rLocked trivial fun _ => ?_
  have hlive := h.setLk ⟨false, w.jb.idxLk.readers + 1⟩
  refine wp_mono (wp_and (wp_putLocked hE hlive hput) (wp_putLocked_index hE hlive hput)) ?_ ?_
    (fun _ _ => trivial) fun _ _ _ => trivial
  · rintro _ u ⟨⟨j, t, hdone⟩, hindex⟩
    refine And.intro ?_ hindex
    obtain ⟨v, ⟨_, _, _, _, _, _, rfl⟩, rfl⟩ := hdone.after
    rfl
  · rintro e u ⟨⟨⟨_, _, _, _, _, _, rfl⟩, -⟩, -⟩
    exact ⟨rfl, trivial⟩

end CarLog

/-! ## The walk of the file -/

/-- The index that the entries make, put into an empty one. -/
def rebuilt (ents : List LogEntry) : Index := putBatch ∅ (ents.map LogEntry.place)

/-- What is put of `ents` so far: `done`, less what is still to be put. -/
def FixedUpTo (done buf : List LogEntry) (w : World) : Prop :=
  ∃ j, w.disk.levelTemp = some j ∧ putBatch j.current (buf.map LogEntry.place) = rebuilt done

namespace CarLog

omit X in
theorem wp_putFixed {buf : List LogEntry} {done : List LogEntry} (h : FixedUpTo done buf w) :
    wp F (putFixed buf) ⟨fun _ w' => FixedUpTo done [] w', fun _ _ => Failing F, fun _ => F .die,
      fun _ _ => False⟩ w := by
  obtain ⟨j, hj, heq⟩ := h
  have hplaces : (buf.map fun e => e.cid.hash).zip (buf.map fun e => makeOffsetLen e.off e.length) =
      buf.map LogEntry.place := List.zip_map'
  simp only [putFixed, wp_wrapErr, LevelDBIndex.put, wp_ioWrite, hplaces]
  refine ⟨⟨j.write (putBatch j.current (buf.map LogEntry.place)), ?_, ?_⟩, id, id⟩
  · simp only [modifyDisk, LevelDBIndex.modifyLevelTemp, hj, Option.map_some]
  · rw [Journal.current_write]
    exact heq

/-- **The index is made of the entries that the walk hands out**, whatever
the size of the batches. -/
theorem wp_fixLevelIndex_walk {n : ℕ} {f : DataFile} {ents : List LogEntry}
    (hdata : w.jb.data = some f) (hopen : f.isOpen = true)
    (htemp : w.disk.levelTemp = some (.clean ∅))
    (hwalk : walk (((blockLog w).drop w.jb.dataStart).take (n - w.jb.dataStart)).length
      w.jb.dataStart (((blockLog w).drop w.jb.dataStart).take (n - w.jb.dataStart)) =
        (ents, none)) :
    wp F (fixLevelIndex n) ⟨fun _ w' => FixedUpTo ents [] w', fun _ _ => Failing F,
      fun _ => F .die, fun _ _ => False⟩ w := by
  have hstart : FixedUpTo [] [] w := ⟨_, htemp, rfl⟩
  have hrest : ∀ buf u, FixedUpTo ents buf u → wp F (runIf (buf ≠ []) (putFixed buf))
      ⟨fun _ w' => FixedUpTo ents [] w', fun _ _ => Failing F, fun _ => F .die,
        fun _ _ => False⟩ u := by
    intro buf u hu
    unfold runIf
    by_cases hbuf : buf ≠ []
    · rw [if_pos hbuf]
      exact wp_putFixed hu
    · rw [if_neg hbuf]
      rw [not_not.mp hbuf] at hu
      exact hu
  rw [fixLevelIndex, wp_bind, wp_wrapErr, iterate, wp_get]
  by_cases hle : n ≤ w.jb.dataStart
  · have hnil : ents = [] := by
      rw [Nat.sub_eq_zero_of_le hle, List.take_zero] at hwalk
      exact (congrArg Prod.fst hwalk).symm
    subst hnil
    rw [if_pos hle]
    exact hrest [] w hstart
  simp only [if_neg hle, wp_bind, openData, wp_get, hdata, hopen, if_true, wp_ret, hwalk]
  refine wp_mono (wp_foldlM (I := FixedUpTo) (E := fun _ _ => Failing F) (C := fun _ => F .die)
    (D := fun _ _ => False) ?_ hstart ents) ?_ (fun _ _ => id) (fun _ => id) fun _ _ => id
  · rintro pre x buf u ⟨j, hj, heq⟩
    have hx : FixedUpTo (pre ++ [x]) (buf ++ [x]) u := by
      refine ⟨j, hj, ?_⟩
      rw [List.map_append, LevelDBIndex.putBatch_append, heq, rebuilt, rebuilt, List.map_append,
        LevelDBIndex.putBatch_append]
    rw [wp_bind, wp_ioRead]
    refine ⟨?_, id, id⟩
    by_cases hfull : 50000 ≤ (buf ++ [x]).length
    · rw [if_pos hfull]
      exact wp_seq (wp_putFixed hx) (fun _ _ h => h) (fun _ _ => id) (fun _ => id) fun _ _ => id
    · rw [if_neg hfull]
      exact hx
  · exact fun buf u hu => wp_ioRead.mpr ⟨hrest buf u hu, id, id⟩

end CarLog

/-! ## A log in use -/

/-- A writable log of whole entries, and an index that knows the last one of
each multihash. -/
structure LatestIn (ts ss : List Piece) (w : World) : Prop where
  live : Live Piece.Whole True False ts ss w
  latest : (∀ e ∈ logEntries w, e.Short) → Latest (logEntries w) (index w)

namespace LatestIn

theorem entries_eq (h : LatestIn ts ss w) : logEntries w = walked headerBytes.length ss :=
  h.live.logEntries_eq h.live.good

/-- What was appended stands behind the entries. -/
theorem entries_append (h : LatestIn ts ss w) {es : List Piece}
    (h' : Live Piece.Whole True exact ts (ss ++ es) w') :
    logEntries w' = logEntries w ++ walked w.jb.dataLen es := by
  rw [h'.logEntries_eq h'.good, h.entries_eq, walked_append, h.live.dataLen, stream,
    List.length_append]

/-- The log is the same, and so is the index. -/
theorem of_same (h : LatestIn ts ss w) {ts' : List Piece}
    (hlive : Live Piece.Whole True False ts' ss w')
    (hindex : w'.disk.levelIndex = w.disk.levelIndex) : LatestIn ts' ss w' := by
  have hentries : logEntries w' = logEntries w :=
    (hlive.logEntries_eq hlive.good).trans h.entries_eq.symm
  refine ⟨hlive, ?_⟩
  rw [hentries, index, hindex]
  exact h.latest

/-- **All of a batch is indexed.** -/
theorem put {j : Journal Index} {t' : Index} (h : LatestIn ts ss w)
    (hdone : PutDone Piece.Whole True False ts ss c b w w' j t')
    (hindex : index w' = putBatch (index w) (c.zip (offsets w.jb.dataLen
      (c.zip (b.zip (c.map fun m => (index w).contains m)))))) :
    LatestIn ts (ss ++ fresh w c b) w' := by
  have hfresh : fresh w c b = freshEntries j.current c b := by rw [fresh, index_eq hdone.before]
  have hlive := hdone.live
  rw [← hfresh] at hlive
  refine ⟨hlive, fun hshort => ?_⟩
  have hentries := h.entries_append hlive
  rw [hentries] at hshort
  have hnew : newEntries (c.zip (b.zip (c.map fun m => (index w).contains m))) = fresh w c b :=
    newEntries_zip (index w) c b
  have hplaces := filter_zip_offsets w.jb.dataLen
    (c.zip (b.zip (c.map fun m => (index w).contains m))) fun e he =>
      hshort e (List.mem_append_right _ (hnew ▸ he))
  rw [map_fst_zip_zip hdone.lengths, hnew] at hplaces
  rw [hindex, hentries, ← LevelDBIndex.putBatch_filter, hplaces]
  exact (h.latest fun e he => hshort e (List.mem_append_left _ he)).putBatch fun e he =>
    hshort e (List.mem_append_right _ he)

/-- **What a `Put` that failed has appended** is of multihashes that the
index does not have. -/
theorem put_err (h : LatestIn ts ss w) {es : List Piece} (hes : es <+: fresh w c b)
    (hlive : Live Piece.Whole True False ts (ss ++ es) w')
    (hindex : w'.disk.levelIndex = w.disk.levelIndex) : LatestIn ts (ss ++ es) w' := by
  refine ⟨hlive, fun hshort => ?_⟩
  have hentries := h.entries_append hlive
  have hsame : index w' = index w := by rw [index, hindex, index]
  rw [hentries] at hshort ⊢
  rw [hsame]
  refine (h.latest fun e he => hshort e (List.mem_append_left _ he)).concat fun e he hmem => ?_
  have hhash : e.cid.hash ∈ hashes es := by
    rw [← map_hash_walked w.jb.dataLen]
    exact List.mem_map.mpr ⟨e, he, rfl⟩
  obtain ⟨d, hd⟩ := mem_hashes.mp hhash
  obtain ⟨⟨m, d'⟩, hfiltered, heq⟩ := List.mem_map.mp (hes.subset hd)
  obtain ⟨rfl, rfl⟩ := Piece.entry.inj heq
  have hnot := (List.mem_filter.mp hfiltered).2
  rw [Std.TreeMap.contains_iff_mem.mpr hmem] at hnot
  exact absurd hnot (by simp)

end LatestIn

/-! ## Crashes -/

/-- **What a crash leaves** of a log of these pieces: the head has retired
the first ones, and the file begins with them. -/
def Fallen (ss : List Piece) (d : Disk) : Prop :=
  ∃ ts, ts <+: ss ∧ (∀ h, d.head = some (some h) → h = logHead (stream ts).length h.readOnly) ∧
    ∃ j, d.blockLog = some j ∧ j.All (stream ts <+: ·)

theorem DiskOk.fallen {qs : List Piece} {d : Disk} (h : DiskOk G ts qs d) (hle : ts <+: ss) :
    Fallen ss d := ⟨ts, hle, h.head, h.log⟩

/-- More may be lost with the machine. -/
theorem Fallen.lose {d : Disk} (h : Fallen ss d) (keepData keepLevel : ℕ) :
    Fallen ss (Sys.lose keepData keepLevel d) := by
  obtain ⟨ts, hle, hhead, j, hj, hall⟩ := h
  refine ⟨ts, hle, hhead, j.survive keepData, ?_, hall.survive keepData⟩
  simp only [Sys.lose, hj, Option.map_some]

/-- A `Put` of blocks or a `Commit`, or the process or the machine dies. -/
def IsWrite : Event → Prop
  | .call (.put c _) _ => ∀ m ∈ c, ValidMultihash m
  | .call .commit _ => True
  | .kill => True
  | .reboot _ _ => True
  | _ => False

/-- **Where a `Put` ends.** -/
theorem latestIn_put (h : LatestIn ts ss w) (hvalid : ∀ m ∈ c, ValidMultihash m)
    (plan : List Fate) : ((CarLog.put c b).run w plan).Sat
      ⟨fun _ w' => ∃ ts ss, LatestIn ts ss w', fun _ w' => ∃ ts ss, LatestIn ts ss w',
        fun w' => Fallen ss w'.disk, fun _ w' => Fallen ss w'.disk⟩ := by
  have hput : PutOk Piece.Whole w c b := putOk_whole hvalid
  have hE : Failing anyFate → True := fun _ => trivial
  refine (wp_sound (wp_and (CarLog.wp_put hE h.live hput) (CarLog.wp_put_index hE h.live hput))
    (within_anyFate plan)).mono ?_ ?_ ?_ ?_
  · rintro _ w' ⟨⟨j, t', hdone⟩, hindex⟩
    exact ⟨ts, _, h.put hdone hindex⟩
  · rintro e w' ⟨⟨⟨_, _, _, _, _, _, rfl⟩, j, es, hj, hes, hlive⟩, -⟩
    refine ⟨ts, _, h.put_err (c := c) (b := b) ?_ hlive rfl⟩
    rwa [fresh, index_eq hj]
  · rintro w' ⟨⟨-, es, hd⟩, -⟩
    exact hd.fallen h.live.le
  · rintro k w' ⟨rfl, -⟩
    exact h.live.diskOk.fallen h.live.le

/-- Where a `Commit` ends. -/
theorem latestIn_commit (h : LatestIn ts ss w) (plan : List Fate) :
    ((discard CarLog.commit).run w plan).Sat
      ⟨fun _ w' => ∃ ts ss, LatestIn ts ss w', fun _ w' => ∃ ts ss, LatestIn ts ss w',
        fun w' => Fallen ss w'.disk, fun _ w' => Fallen ss w'.disk⟩ := by
  have hE : Failing anyFate → True := fun _ => trivial
  refine wp_sound (wp_seq (CarLog.wp_commit hE h.live) ?_ ?_ ?_ ?_) (within_anyFate plan)
  · rintro at_ w' ⟨⟨u, x, ⟨_, _, _, _, rfl⟩, rfl⟩, -, hdone⟩
    exact ⟨ss, ss, h.of_same hdone.live rfl⟩
  · rintro e w' ⟨⟨u, x, ⟨_, _, _, _, rfl⟩, rfl⟩, ts', -, hlive⟩
    exact ⟨ts', ss, h.of_same hlive rfl⟩
  · rintro w' ⟨-, ts', hts', hd⟩
    refine hd.fallen ?_
    rcases hts' with rfl | rfl
    · exact h.live.le
    · exact List.prefix_rfl
  · rintro k w' rfl
    exact h.live.diskOk.fallen h.live.le

/-- What is known of a log: in use it has its entries indexed, and behind a
crash the files are what is left of the pieces `ss`. -/
def Follows (ss : List Piece) (s : Sys) : Prop :=
  (s.isUp = true → ∃ ts ss, LatestIn ts ss s.world) ∧ (s.isUp = false → Fallen ss s.world.disk)

theorem follows_after {s : Sys} {cmd : Cmd} {o : Outcome World Err Unit} (hcmd : ¬ cmd.Starts)
    (hnoted : ∀ s : Sys, (s.noted cmd).world = s.world ∧ (s.noted cmd).isUp = s.isUp)
    (hup : s.isUp = true) (ho : o.Sat ⟨fun _ w' => ∃ ts ss, LatestIn ts ss w',
      fun _ w' => ∃ ts ss, LatestIn ts ss w', fun w' => Fallen ss w'.disk,
      fun _ w' => Fallen ss w'.disk⟩) : Follows ss (s.after cmd o) := by
  cases o with
  | ok a w' =>
    obtain ⟨hworld, hisUp⟩ := hnoted { s.moved w' with isUp := true }
    refine ⟨fun _ => ?_, fun hdown => ?_⟩
    · change ∃ ts ss, LatestIn ts ss (({ s.moved w' with isUp := true } : Sys).noted cmd).world
      rw [hworld]
      exact ho
    · change (({ s.moved w' with isUp := true } : Sys).noted cmd).isUp = false at hdown
      rw [hisUp] at hdown
      exact absurd hdown (by simp)
  | err e w' =>
    rw [Sys.after, if_neg hcmd]
    refine ⟨fun _ => ho, fun hdown => ?_⟩
    change s.isUp = false at hdown
    rw [hup] at hdown
    exact absurd hdown (by simp)
  | crash w' => exact ⟨fun h => absurd h (by simp [Sys.after, Sys.down]), fun _ => ho⟩
  | fault k w' => exact ⟨fun h => absurd h (by simp [Sys.after, Sys.down]), fun _ => ho⟩

/-- **One event**, of a log that is in use. -/
theorem follows_next {s : Sys} {e : Event} (hup : s.isUp = true) (h : LatestIn ts ss s.world)
    (he : IsWrite e) : Follows ss (s.next e) := by
  have hfallen : Fallen ss s.world.disk := h.live.diskOk.fallen h.live.le
  unfold IsWrite at he
  split at he
  · rename_i c b plan
    rw [Sys.next, if_pos (Or.inr ⟨id, hup⟩)]
    exact follows_after id (fun _ => ⟨rfl, rfl⟩) hup (latestIn_put h he plan)
  · rename_i plan
    rw [Sys.next, if_pos (Or.inr ⟨id, hup⟩)]
    exact follows_after id (fun _ => ⟨rfl, rfl⟩) hup (latestIn_commit h plan)
  · exact ⟨fun h => absurd h (by simp [Sys.next, Sys.down]), fun _ => hfallen⟩
  · exact ⟨fun h => absurd h (by simp [Sys.next, Sys.down]), fun _ => hfallen.lose _ _⟩
  · exact he.elim

/-- Behind the crash no more is written. -/
theorem down_next {s : Sys} {e : Event} (h : s.isUp = false) (he : IsWrite e) :
    (s.next e).isUp = false ∧ ((s.next e).world.disk = s.world.disk ∨
      ∃ keepData keepLevel, (s.next e).world.disk = Sys.lose keepData keepLevel s.world.disk) := by
  have hcall : ∀ {cmd : Cmd} {plan : List Fate}, ¬ cmd.Starts → s.next (.call cmd plan) = s := by
    intro cmd plan hcmd
    rw [Sys.next, if_neg]
    rintro (⟨hstarts, -⟩ | ⟨-, hup⟩)
    · exact hcmd hstarts
    · rw [h] at hup
      exact absurd hup (by simp)
  unfold IsWrite at he
  split at he
  · rw [hcall id]
    exact ⟨h, Or.inl rfl⟩
  · rw [hcall id]
    exact ⟨h, Or.inl rfl⟩
  · exact ⟨rfl, Or.inl rfl⟩
  · exact ⟨rfl, Or.inr ⟨_, _, rfl⟩⟩
  · exact he.elim

/-- While a log is in use, its index knows the last entry of each
multihash. -/
theorem latestIn_run {s : Sys} {es : List Event}
    (h : s.isUp = true → ∃ ts ss, LatestIn ts ss s.world)
    (hes : ∀ e ∈ es, IsWrite e) :
    (s.run es).isUp = true → ∃ ts ss, LatestIn ts ss (s.run es).world := by
  induction es generalizing s with
  | nil => exact h
  | cons e es ih =>
    obtain ⟨he, hes⟩ := List.forall_mem_cons.mp hes
    refine ih (s := s.next e) (fun hnext => ?_) hes
    cases hup : s.isUp with
    | true =>
      obtain ⟨ts, ss, hin⟩ := h hup
      exact (follows_next hup hin he).1 hnext
    | false =>
      rw [(down_next hup he).1] at hnext
      exact absurd hnext (by simp)

theorem fallen_run {s : Sys} {es : List Event} (hup : s.isUp = false)
    (h : Fallen ss s.world.disk) (hes : ∀ e ∈ es, IsWrite e) : Fallen ss (s.run es).world.disk := by
  induction es generalizing s with
  | nil => exact h
  | cons e es ih =>
    obtain ⟨he, hes⟩ := List.forall_mem_cons.mp hes
    obtain ⟨hdown, hsame | ⟨keepData, keepLevel, hlose⟩⟩ := down_next hup he
    · exact ih (s := s.next e) hdown (hsame ▸ h) hes
    · exact ih (s := s.next e) hdown (hlose ▸ h.lose keepData keepLevel) hes

/-! ## The index, rebuilt -/

/-- What `Open` has made of a log whose index is missing, when it calls
`fixLevelIndex`. -/
def beforeFix (staging : Bool) (h : Head) (w : World) : World :=
  { w with
    disk := { w.disk with levelIndex := none, levelTemp := some (.clean ∅) }
    jb := { CarLog.zero with
      staging := staging
      head := some true
      data := some ⟨true, true, 0⟩
      dataLen := (blockLog w).length
      dataStart := h.dataStart
      dataEnd := h.dataEnd
      layerOffsets := h.layerOffsets
      writeLru := some [] } }

/-- **An index agrees** with the one of a log, below what is retired: what
that one knows of an entry there, it knows, and it has no multihash but of
whole entries there. In a log that is not too long for the packed offset,
the place itself says where the entry is. -/
structure Agrees (w : World) (retiredAt : ℕ) (t : Index) : Prop where
  same : ∀ (m : Multihash) (v : I64), (index w)[m]? = some v →
    ∃ e ∈ logEntries w, e.place = (m, v) ∧ (e.off < retiredAt → t[m]? = some v)
  packed : w.jb.dataLen ≤ 2 ^ 40 → ∀ (m : Multihash) (v : I64), (index w)[m]? = some v →
    (fromOffsetLen v).1 < retiredAt → t[m]? = some v
  keys : ∀ m : Multihash, m ∈ t →
    ∃ e ∈ logEntries w, e.cid.hash = m ∧ e.off + frameSize e.length ≤ retiredAt

/-- The entries that are retired make an index that agrees. -/
theorem LatestIn.agrees {ts ts' : List Piece} (h : LatestIn ts ss w) (hle : ts' <+: ss)
    (hshort : ∀ e ∈ logEntries w, e.Short) :
    Agrees w (stream ts').length (rebuilt (walked headerBytes.length ts')) := by
  obtain ⟨rest, rfl⟩ := hle
  have hentries : logEntries w = walked headerBytes.length ts' ++
      walked (stream ts').length rest := by
    rw [h.entries_eq, walked_append, stream, List.length_append]
  have hlatest := h.latest hshort
  rw [hentries] at hshort hlatest
  have hts : ∀ e ∈ walked headerBytes.length ts', e.Short := fun e he =>
    hshort e (List.mem_append_left _ he)
  have hsame : ∀ (m : Multihash) (v : I64), (index w)[m]? = some v → ∃ e ∈ logEntries w,
      e.place = (m, v) ∧ (e.off < (stream ts').length →
        (rebuilt (walked headerBytes.length ts'))[m]? = some v) := by
    intro m v hv
    obtain ⟨e, he, hplace, himp⟩ := hlatest.getElem?_of_prefix hts hv
    refine ⟨e, hentries ▸ he, hplace, fun hlt => himp fun hmore => ?_⟩
    have := (mem_walked hmore).1
    omega
  refine ⟨hsame, fun hlen m v hv hlt => ?_, fun m hm => ?_⟩
  · obtain ⟨e, he, hplace, himp⟩ := hsame m v hv
    obtain ⟨-, rfl⟩ := Prod.mk.inj hplace
    have hend := (mem_walked (h.entries_eq ▸ he)).2
    rw [← List.length_append, ← stream, ← h.live.dataLen] at hend
    have hpos := frameSize_pos e.length
    rw [fst_fromOffsetLen, Nat.mod_eq_of_lt (by omega)] at hlt
    exact himp hlt
  · obtain ⟨v, hv⟩ := Option.isSome_iff_exists.mp (Std.TreeMap.isSome_getElem?_iff_mem.mpr hm)
    have hnil : Latest [] (∅ : Index) := Latest.nil
    obtain ⟨pre, e, post, heq, hplace, -⟩ := hnil.putBatch hts m v hv
    have he : e ∈ walked headerBytes.length ts' := by
      rw [List.nil_append] at heq
      rw [heq]
      simp
    refine ⟨e, hentries ▸ List.mem_append_left _ he, (Prod.mk.inj hplace).1, ?_⟩
    rw [stream, List.length_append]
    exact (mem_walked he).2

/-- Of a file that begins with whole entries, these are walked. -/
theorem CarLog.wp_fixLevelIndex_stream {f : DataFile} (hdata : w.jb.data = some f)
    (hopen : f.isOpen = true) (htemp : w.disk.levelTemp = some (.clean ∅))
    (hstart : w.jb.dataStart = headerBytes.length) (hlog : stream ts <+: blockLog w)
    (hwhole : ∀ p ∈ ts, p.Whole) : wp F (fixLevelIndex (stream ts).length)
      ⟨fun _ w' => FixedUpTo (walked headerBytes.length ts) [] w', fun _ _ => Failing F,
        fun _ => F .die, fun _ _ => False⟩ w := by
  have hbytes : ((blockLog w).drop w.jb.dataStart).take ((stream ts).length - w.jb.dataStart) =
      ts.flatMap Piece.bytes := by
    rw [← List.drop_take, ← List.prefix_iff_eq_take.mp hlog, hstart, stream, List.drop_left]
  refine wp_fixLevelIndex_walk hdata hopen htemp ?_
  rw [hbytes, hstart]
  exact walk_whole hwhole (le_refl _)

/-- `Open` then has the index in place of the missing one. -/
theorem CarLog.wp_fixLevel_stream {f : DataFile} (hdata : w.jb.data = some f)
    (hopen : f.isOpen = true) (htemp : w.disk.levelTemp = none)
    (hstart : w.jb.dataStart = headerBytes.length) (hlog : stream ts <+: blockLog w)
    (hwhole : ∀ p ∈ ts, p.Whole) : wp F (fixLevel (stream ts).length)
      ⟨fun _ w' => ∃ j, w'.disk.levelIndex = some j ∧
          j.current = rebuilt (walked headerBytes.length ts),
        fun _ _ => Failing F, fun _ => F .die, fun _ _ => False⟩ w := by
  simp only [fixLevel, createLevel, wp_bind, wp_wrapErr, wp_ioRead, wp_get, htemp,
    Option.isSome_none, Bool.false_eq_true, if_false, wp_ioWrite, wp_pure]
  refine ⟨⟨?_, id, id⟩, id, id⟩
  refine wp_mono (wp_fixLevelIndex_stream (w := modifyDisk (setLevelTemp (some (.clean ∅))) w) hdata
    hopen rfl hstart hlog hwhole) ?_ (fun _ _ => id) (fun _ => id) fun _ _ => id
  rintro - u ⟨j, hj, heq⟩
  simp only [LevelDBIndex.close, openLevel, wp_bind, wp_ioRead, wp_get, modifyDisk, setLevel, hj,
    Option.isSome_some, if_true, wp_ret]
  exact ⟨⟨⟨⟨⟨j, rfl, heq⟩, id, id⟩, id, id⟩, id, id⟩, id, id⟩

/-- **The index rebuilt from the log agrees** with the one that was kept.
For every run of `Put`s and `Commit`s, and every crash behind it or inside
of an event, `fixLevelIndex` makes it of what is retired, unless a step of
its own fails. -/
theorem fixLevelIndex_agrees {s : Sys} (hlive : Live Piece.Whole True False ts ss s.world)
    (hlatest : Latest (logEntries s.world) (index s.world)) {es es' : List Event} {e : Event}
    (hes : ∀ x ∈ es ++ e :: es', IsWrite x) (hup : (s.run es).isUp = true)
    (hdown : ((s.run es).next e).isUp = false)
    (hshort : ∀ x ∈ logEntries (s.run es).world, x.Short) {h : Head}
    (hhead : (((s.run es).next e).run es').world.disk.head = some (some h)) (staging : Bool)
    (plan : List Fate) :
    ((fixLevelIndex h.retiredAt).run
        (beforeFix staging h (((s.run es).next e).run es').world) plan).Sat
      ⟨fun _ w => ∃ j, w.disk.levelTemp = some j ∧
          Agrees (s.run es).world h.retiredAt j.current,
        fun _ _ => ∃ n, .fail n ∈ plan, fun _ => .die ∈ plan, fun _ _ => False⟩ := by
  obtain ⟨hes, he, hes'⟩ : (∀ x ∈ es, IsWrite x) ∧ IsWrite e ∧ ∀ x ∈ es', IsWrite x := by
    refine ⟨fun x hx => hes x ?_, hes e ?_, fun x hx => hes x ?_⟩ <;> simp [*]
  obtain ⟨ts₁, ss₁, hin⟩ := latestIn_run (fun _ => ⟨ts, ss, hlive, fun _ => hlatest⟩) hes hup
  have hfallen := fallen_run hdown ((follows_next hup hin he).2 hdown) hes'
  obtain ⟨ts₂, hle, hheads, j, hj, hall⟩ := hfallen
  have hhead := hheads h hhead
  have hretired : h.retiredAt = (stream ts₂).length := congrArg Head.retiredAt hhead
  have hstart : h.dataStart = headerBytes.length := congrArg Head.dataStart hhead
  have hagrees := hin.agrees hle hshort
  have hwhole : ∀ p ∈ ts₂, p.Whole := fun p hp => hin.live.good p (hle.subset hp)
  have hlog : stream ts₂ <+:
      blockLog (beforeFix staging h (((s.run es).next e).run es').world) := by
    simp only [blockLog, beforeFix, hj, Option.map_some, Option.getD_some]
    exact hall.current
  have hfix := CarLog.wp_fixLevelIndex_stream (F := fun x => x ∈ plan) rfl rfl rfl hstart hlog
    hwhole
  rw [hretired]
  refine (wp_sound hfix fun x hx => Or.inr hx).mono ?_ (fun _ _ h => h) (fun _ h => h)
    fun _ _ => False.elim
  rintro - w ⟨j', hj', heq⟩
  refine ⟨j', hj', ?_⟩
  rw [show j'.current = rebuilt (walked headerBytes.length ts₂) from heq]
  exact hagrees

end

section

open Carlog.Encoding

/-- A block is put and committed, and another one only put. -/
def putCommitPut : List Event :=
  [.call (.put [[0, 1, 7]] [[7]]) [], .call .commit [], .call (.put [[0, 1, 8]] [[8]]) []]

/-- The machine goes down. -/
theorem fixLevelIndex_agrees_seven :
    ((fixLevelIndex (logHead 66 false).retiredAt).run (beforeFix false (logHead 66 false)
        ((newLog.run putCommitPut).next (.reboot 0 0)).world) []).Sat
      ⟨fun _ w => ∃ j, w.disk.levelTemp = some j ∧
          Agrees (newLog.run putCommitPut).world (logHead 66 false).retiredAt j.current,
        fun _ _ => ∃ n, .fail n ∈ ([] : List Fate), fun _ => .die ∈ ([] : List Fate),
        fun _ _ => False⟩ := by
  have hlive : Live Piece.Whole True False [] [] newLog.world := CarLog.live_created rfl rfl
  have hvalid : ∀ x : UInt8, ValidMultihash [0, 1, x] := fun x => ⟨0, [x], by decide, by simp, rfl⟩
  have hempty : Latest (logEntries newLog.world) (index newLog.world) := Latest.nil
  have hwrites : ∀ x ∈ putCommitPut ++ .reboot 0 0 :: [], IsWrite x := by
    simp [putCommitPut, IsWrite, hvalid]
  have hup : (newLog.run putCommitPut).isUp = true := by decide
  have hdown : ((newLog.run putCommitPut).next (.reboot 0 0)).isUp = false := rfl
  have hshort : ∀ x ∈ logEntries (newLog.run putCommitPut).world, x.Short := by
    unfold LogEntry.Short
    decide
  have hhead : (((newLog.run putCommitPut).next (.reboot 0 0)).run []).world.disk.head =
      some (some (logHead 66 false)) := rfl
  exact fixLevelIndex_agrees hlive hempty hwrites hup hdown hshort hhead false []

end

end Carlog

end Ribs
