import Ribs.Carlog.Buffer
import Ribs.Carlog.Contents
import Ribs.Carlog.Stream
import Ribs.Carlog.System
/-!
# Carlog — a writable log

`Live ts ss` holds of a world with a log open for writing: the log is the
stream of the pieces `ss`, the head has retired the pieces `ts` at its
beginning, and every place in the index, and every block in the LRU, is
that of an entry. `DiskOk ts ss` is what holds of the files whatever crash
happens: the file begins with the retired pieces, and the index knows
only places of entries among `ss`. What may be a piece is a parameter.
-/

namespace Ribs

open Common

namespace Carlog

section

variable [X : External]

/-! ## The index -/

/-- Every place in the index is that of an entry with the multihash. -/
def Indexed (ss : List Piece) (t : Index) : Prop := ∀ m v, t[m]? = some v → ∃ d, EntryIn ss m d v

/-- What is in the one index is in the other. -/
def Within (t t' : Index) : Prop :=
  ∀ (m : Multihash) (v : I64), t[m]? = some v → t'[m]? = some v

/-- The index in its file: it only grew since its durable content. -/
structure IndexOk (ss : List Piece) (j : Journal Index) : Prop where
  indexed : Indexed ss j.current
  grown : j.All fun t => Within t j.current

/-! ## The files and the log -/

/-- The head of a log that is not finalized. -/
def logHead (retiredAt : ℕ) (readOnly : Bool) : Head where
  valid := true
  retiredAt := retiredAt
  dataStart := headerBytes.length
  dataEnd := 0
  readOnly := readOnly
  finalized := false
  offloaded := false
  isExternal := false
  layerOffsets := []

/-- **The files of a log**, at any time. -/
structure DiskOk (G : Piece → Prop) (ts ss : List Piece) (d : Disk) : Prop where
  made : d.indexPath = true
  le : ts <+: ss
  good : ∀ p ∈ ss, G p
  head : ∀ h, d.head = some (some h) → h = logHead (stream ts).length h.readOnly
  log : ∃ j, d.blockLog = some j ∧ j.All (stream ts <+: ·)
  index : (d.levelIndex = none ∧ ss = []) ∨ ∃ j, d.levelIndex = some j ∧ IndexOk ss j

/-- **A log open for writing.** -/
structure Live (G : Piece → Prop) (E exact : Prop) (ts ss : List Piece) (w : World) : Prop where
  made : w.disk.indexPath = true
  le : ts <+: ss
  good : ∀ p ∈ ss, G p
  head : ∀ h, w.disk.head = some (some h) → h = logHead (stream ts).length h.readOnly
  tail : Tailed E exact (stream ts) (stream ss) w
  index : ∃ j, w.disk.levelIndex = some j ∧ IndexOk ss j
  headOpen : w.jb.head = some true
  dataLen : w.jb.dataLen = (stream ss).length
  dataStart : w.jb.dataStart = headerBytes.length
  dataEnd : w.jb.dataEnd = 0
  layerOffsets : w.jb.layerOffsets = []
  wIdx : w.jb.wIdx.isSome = true
  rIdx : ∃ i, w.jb.rIdx = some (.level i)
  eIdx : w.jb.eIdx = none
  lru : ∃ l, w.jb.writeLru = some l ∧ ∀ e ∈ l, ∃ m, EntryIn ss m e.2 e.1

variable {G : Piece → Prop} {E exact : Prop} {F : Fates} {ts ss : List Piece} {w w' : World}

namespace Live

theorem diskOk (h : Live G E exact ts ss w) : DiskOk G ts ss w.disk := by
  obtain ⟨jl, f, b, ht⟩ := h.tail
  exact ⟨h.made, h.le, h.good, h.head, ⟨jl, ht.log, ht.durable⟩, Or.inr h.index⟩

/-- A crash while the file was written. -/
theorem diskOk_of_kept (h : Live G E exact ts ss w) (hk : Kept (stream ts) w w') :
    DiskOk G ts ss w'.disk := by
  obtain ⟨⟨_, _, _, _, rfl⟩, hlog⟩ := hk
  exact { h.diskOk with log := hlog }

/-- The file was written. -/
theorem of_fileOnly {exact' : Prop} (h : Live G E exact ts ss w) (honly : FileOnly w w')
    (ht : Tailed E exact' (stream ts) (stream ss) w') : Live G E exact' ts ss w' := by
  obtain ⟨_, _, _, _, rfl⟩ := honly
  exact { h with tail := ht }

theorem inexact (h : Live G E exact ts ss w) : Live G E False ts ss w :=
  { h with tail := h.tail.inexact }

/-- The lock of the index is not part of the log. -/
theorem setLk (h : Live G E exact ts ss w) (lk : RWMutex) :
    Live G E exact ts ss { w with jb := { w.jb with idxLk := lk } } := by
  obtain ⟨j, f, b, ht⟩ := h.tail
  exact { h with tail := ⟨j, f, b, { ht with }⟩ }

end Live

/-! ## `Put` -/

/-- The entries of the blocks that the index does not have. -/
def newEntries (l : List (Multihash × Bytes × Bool)) : List Piece :=
  (l.filter fun e => !e.2.2).map fun e => .entry e.1 e.2.1

/-- The entries that are not too large may be pieces. -/
def Fitting (G : Piece → Prop) (ps : List Piece) : Prop :=
  ∀ m d, .entry m d ∈ ps → d.length ≤ maxEntryLen → G (.entry m d)

/-- What `Put` finds for a block: it is skipped, or has its place. -/
def Placed (ss : List Piece) (e : Multihash × Bytes × Bool) (v : I64) : Prop :=
  if e.2.2 then v = -1 else EntryIn ss e.1 e.2.1 v

namespace CarLog

/-- What is added to the LRU has its place. -/
theorem lruAdd_entryIn {l : List (I64 × Bytes)} {m : Multihash} {k : I64} {data : Bytes}
    (hl : ∀ e ∈ l, ∃ m, EntryIn ss m e.2 e.1) (hk : EntryIn ss m data k) :
    ∀ e ∈ lruAdd l k data, ∃ m, EntryIn ss m e.2 e.1 := by
  intro e he
  rcases List.mem_cons.mp (List.mem_of_mem_take he) with rfl | he
  · exact ⟨m, hk⟩
  · exact hl e (List.mem_of_mem_filter he)

/-- **Appending a block.** -/
theorem wp_putBlock (hE : Failing F → E) (h : Live G E exact ts ss w) {m : Multihash}
    {blk : Bytes} (hG : G (.entry m blk)) : wp F (putBlock m blk)
      ⟨fun v w' => EntryIn (ss ++ [.entry m blk]) m blk v ∧ AppendOnly w w' ∧
          Live G E exact ts (ss ++ [.entry m blk]) w',
        fun _ w' => E ∧ AppendOnly w w' ∧ Live G E False ts ss w',
        fun w' => AppendOnly w w' ∧ w'.jb.dataLen = w.jb.dataLen ∧ DiskOk G ts ss w'.disk,
        fun _ _ => False⟩ w := by
  obtain ⟨l, hl, hplaces⟩ := h.lru
  have hplace : EntryIn (ss ++ [.entry m blk]) m blk
      (makeOffsetLen w.jb.dataLen ((Cid.mk raw m).bytes.length + blk.length)) := by
    have : EntryIn (ss ++ [.entry m blk]) m blk _ := entryIn_concat ss m blk
    rwa [← h.dataLen, payload, List.length_append] at this
  simp only [putBlock, wp_get, wp_bind, wp_wrapErr]
  refine wp_mono (wp_ldWrite hE h.tail _) ?_ ?_ ?_ fun _ _ => id
  · rintro n w' ⟨hn, honly, ht⟩
    have hframe : [(Cid.mk raw m).bytes, blk].flatten = payload m blk := by simp [payload]
    rw [hframe] at hn ht
    rw [← stream_concat_entry] at ht
    obtain ⟨_, _, _, _, rfl⟩ := honly
    simp only [hl, wp_deref_some, wp_modifyJb, wp_pure]
    refine ⟨hplace, ⟨_, _, _, _, _, _, rfl⟩, ?_⟩
    obtain ⟨j, hj, hok⟩ := h.index
    obtain ⟨jl, f, b, ht⟩ := ht
    exact { h with
      le := h.le.trans (List.prefix_append _ _)
      good := fun p hp => (List.mem_append.mp hp).elim (h.good p) fun hp =>
        List.mem_singleton.mp hp ▸ hG
      tail := ⟨jl, f, b, { ht with }⟩
      index := ⟨j, hj, fun m v hv => (hok.indexed m v hv).imp fun _ hd => hd.append _, hok.grown⟩
      dataLen := by
        simp only [h.dataLen, hn, stream_concat_entry, List.length_append, length_framed]
      lru := ⟨_, rfl, lruAdd_entryIn (fun e he => (hplaces e he).imp fun _ hd => hd.append _)
        hplace⟩ }
  · rintro - w' ⟨honly, ht⟩
    obtain ⟨_, _, _, hstuck, herr⟩ := id ht
    exact ⟨hstuck.err herr, honly.appendOnly, h.of_fileOnly honly ht.tailed⟩
  · intro w' hk
    obtain ⟨_, _, _, _, rfl⟩ := id hk.1
    exact ⟨hk.1.appendOnly, rfl, h.diskOk_of_kept hk⟩

/-- **The loop of `Put`**: every block is skipped or has its place. -/
theorem wp_putBlocks (hE : Failing F → E) (l : List (Multihash × Bytes × Bool)) {exact : Prop}
    {ss : List Piece} {w : World} (h : Live G E exact ts ss w) (hG : Fitting G (newEntries l)) :
    wp F (putBlocks l)
      ⟨fun offs w' => List.Forall₂ (Placed (ss ++ newEntries l)) l offs ∧ AppendOnly w w' ∧
          Live G E exact ts (ss ++ newEntries l) w',
        fun _ w' => AppendOnly w w' ∧ ∃ es, es <+: newEntries l ∧ Live G E False ts (ss ++ es) w',
        fun w' => AppendOnly w w' ∧ ∃ es, DiskOk G ts (ss ++ es) w'.disk, fun _ _ => False⟩ w := by
  induction l generalizing ss w with
  | nil => exact ⟨.nil, .refl w, by simpa [newEntries] using h⟩
  | cons e l ih =>
    obtain ⟨m, blk, _ | _⟩ := e
    · have hnew : newEntries ((m, blk, false) :: l) = .entry m blk :: newEntries l := rfl
      rw [hnew] at hG ⊢
      have hGl : Fitting G (newEntries l) := fun m d hd => hG m d (List.mem_cons_of_mem _ hd)
      rw [putBlocks, if_neg (by simp), wp_bind, wp_failIf]
      refine ⟨fun _ => ⟨.refl w, [], List.nil_prefix, by simpa using h.inexact⟩, fun hfits => ?_⟩
      have hGe := hG m blk List.mem_cons_self (Nat.not_lt.mp hfits)
      refine wp_seq (wp_putBlock hE h hGe) ?_ ?_ ?_ fun _ _ => id
      · rintro v w' ⟨hplace, happ, hlive⟩
        have hcons : ss ++ [.entry m blk] ++ newEntries l = ss ++ .entry m blk :: newEntries l := by
          simp
        refine wp_seq (ih hlive hGl) ?_ ?_ ?_ fun _ _ => id
        · rintro offs w'' ⟨hplaced, happ', hlive'⟩
          rw [hcons] at hplaced hlive'
          refine ⟨.cons ?_ hplaced, happ.trans happ', hlive'⟩
          have := hplace.append (newEntries l)
          rwa [hcons] at this
        · rintro x w'' ⟨happ', es, hes, hlive'⟩
          refine ⟨happ.trans happ', .entry m blk :: es, List.prefix_cons_inj _ |>.mpr hes, ?_⟩
          simpa using hlive'
        · rintro w'' ⟨happ', es, hd⟩
          exact ⟨happ.trans happ', .entry m blk :: es, by simpa using hd⟩
      · exact fun x w' hw' => ⟨hw'.2.1, [], List.nil_prefix, by simpa using hw'.2.2⟩
      · exact fun w' hw' => ⟨hw'.1, [], by simpa using hw'.2.2⟩
    · have hnew : newEntries ((m, blk, true) :: l) = newEntries l := rfl
      rw [hnew] at hG ⊢
      rw [putBlocks, if_pos rfl]
      refine wp_seq (ih h hG) ?_ (fun _ _ => id) (fun _ => id) fun _ _ => id
      rintro offs w' ⟨hplaced, happ, hlive⟩
      exact ⟨.cons rfl hplaced, happ, hlive⟩

end CarLog

end

/-! ## The batch of `Put` -/

/-- The entries of the blocks that the index does not have. -/
def freshEntries (t : Index) (c : List Multihash) (b : List Bytes) : List Piece :=
  ((c.zip b).filter fun e => !t.contains e.1).map fun e => .entry e.1 e.2

/-- A length that fits the packed offset. -/
def Piece.Short : Piece → Prop
  | entry m data => (payload m data).length < 2 ^ 23
  | torn _ => True

section

variable {t : Index} {c : List Multihash} {b : List Bytes}

theorem newEntries_zip (t : Index) (c : List Multihash) (b : List Bytes) :
    newEntries (c.zip (b.zip (c.map fun m => t.contains m))) = freshEntries t c b := by
  induction c generalizing b with
  | nil => rfl
  | cons m c ih =>
    cases b with
    | nil => rfl
    | cons d b =>
      have := ih b
      simp only [newEntries, freshEntries] at this ⊢
      cases hm : t.contains m <;> simp [hm, this]

/-- The loop of `Put` knows of each block whether the index has it. -/
theorem has_eq_of_mem_zip {f : Multihash → Bool} {e : Multihash × Bytes × Bool}
    (h : e ∈ c.zip (b.zip (c.map f))) : e.2.2 = f e.1 := by
  induction c generalizing b with
  | nil => simp at h
  | cons m c ih =>
    cases b with
    | nil => simp at h
    | cons d b =>
      rw [List.map_cons, List.zip_cons_cons, List.zip_cons_cons, List.mem_cons] at h
      rcases h with rfl | h
      · rfl
      · exact ih h

theorem map_fst_zip_zip {f : Multihash → Bool} (h : c.length = b.length) :
    (c.zip (b.zip (c.map f))).map Prod.fst = c :=
  List.map_fst_zip (by simp [h])

/-- The blocks of a batch, with what the loop found for each. -/
theorem exists_of_mem_zip {l : List (Multihash × Bytes × Bool)} {offs : List I64}
    {R : Multihash × Bytes × Bool → I64 → Prop} (h : List.Forall₂ R l offs)
    {m : Multihash} {v : I64}
    (hmv : (m, v) ∈ (l.map Prod.fst).zip offs) : ∃ e ∈ l, e.1 = m ∧ R e v := by
  induction h with
  | nil => simp at hmv
  | cons hR _ ih =>
    rw [List.map_cons, List.zip_cons_cons, List.mem_cons] at hmv
    rcases hmv with heq | hmv
    · obtain ⟨rfl, rfl⟩ := Prod.mk.inj heq
      exact ⟨_, List.mem_cons_self, rfl, hR⟩
    · obtain ⟨e, he, hem⟩ := ih hmv
      exact ⟨e, List.mem_cons_of_mem _ he, hem⟩

theorem exists_mem_zip {l : List (Multihash × Bytes × Bool)} {offs : List I64}
    {R : Multihash × Bytes × Bool → I64 → Prop} (h : List.Forall₂ R l offs)
    {e : Multihash × Bytes × Bool} (he : e ∈ l) :
    ∃ v, (e.1, v) ∈ (l.map Prod.fst).zip offs ∧ R e v := by
  induction h with
  | nil => simp at he
  | cons hR _ ih =>
    rcases List.mem_cons.mp he with rfl | he
    · exact ⟨_, List.mem_cons_self, hR⟩
    · obtain ⟨v, hv, hRv⟩ := ih he
      exact ⟨v, List.mem_cons_of_mem _ hv, hRv⟩

end

variable [X : External]

theorem EntryIn.ne_neg_one {ss : List Piece} {m : Multihash} {d : Bytes} {v : I64}
    (h : EntryIn ss m d v) (hshort : ∀ p ∈ ss, p.Short) : v ≠ -1 := by
  have hlen : (payload m d).length < 2 ^ 23 := hshort _ h.mem
  obtain ⟨pre, post, -, rfl⟩ := h
  exact makeOffsetLen_ne_neg_one hlen

/-- **The index behind a batch**: what was there stays, what is new is in
the batch, and of the batch all is there whose place is not `-1`. -/
structure Batched (ss : List Piece) (c : List Multihash) (j : Journal Index) (t' : Index) :
    Prop where
  ok : IndexOk ss (j.write t')
  within : Within j.current t'
  keys : ∀ m : Multihash, t'[m]?.isSome → j.current[m]?.isSome ∨ m ∈ c
  all : ∀ m ∈ c, (∀ d v, EntryIn ss m d v → v ≠ -1) → t'[m]?.isSome

theorem batched_putBatch {ss : List Piece} {j : Journal Index} {c : List Multihash} {b : List Bytes}
    {offs : List I64} (hlen : c.length = b.length) (hok : IndexOk ss j)
    (h : List.Forall₂ (Placed ss) (c.zip (b.zip (c.map fun m => j.current.contains m))) offs) :
    Batched ss c j (LevelDBIndex.putBatch j.current (c.zip offs)) := by
  have hfst := map_fst_zip_zip (f := fun m => j.current.contains m) hlen
  -- what the loop found for an entry of the batch
  have hfound : ∀ m v, (m, v) ∈ c.zip offs → (j.current.contains m = true ∧ v = -1) ∨
      (j.current.contains m = false ∧ ∃ d, EntryIn ss m d v) := by
    intro m v hmv
    rw [← hfst] at hmv
    obtain ⟨e, he, rfl, hplaced⟩ := exists_of_mem_zip h hmv
    have hhas := has_eq_of_mem_zip he
    simp only [Placed] at hplaced
    cases hc : j.current.contains e.1 with
    | true => rw [hhas, hc] at hplaced; exact Or.inl ⟨rfl, hplaced⟩
    | false => rw [hhas, hc] at hplaced; exact Or.inr ⟨rfl, _, hplaced⟩
  have hwithin : Within j.current (LevelDBIndex.putBatch j.current (c.zip offs)) := by
    intro m v hv
    rw [LevelDBIndex.getElem?_putBatch_of_forall_ne, hv]
    rintro ⟨m', v'⟩ hmem rfl
    -- a value of the batch for a key that was there is -1, which is no place
    rcases hfound _ _ hmem with ⟨-, hv'⟩ | ⟨hc, -⟩
    · exact hv'
    · rw [Std.TreeMap.contains_eq_isSome_getElem?, hv] at hc
      simp at hc
  refine ⟨⟨?_, ?_⟩, hwithin, fun m hm => ?_, fun m hm hplace => ?_⟩
  · intro m v hv
    rw [Journal.current_write] at hv
    rcases LevelDBIndex.of_getElem?_putBatch _ hv with hv | ⟨hmem, hne⟩
    · exact hok.indexed m v hv
    · rcases hfound m v hmem with ⟨-, hv'⟩ | ⟨-, hd⟩
      · exact absurd hv' hne
      · exact hd
  · refine Journal.All.write (hok.grown.imp fun t ht m v hv => ?_) fun m v hv => ?_
    · rw [Journal.current_write]
      exact hwithin m v (ht m v hv)
    · rwa [Journal.current_write]
  · obtain ⟨v, hv⟩ := Option.isSome_iff_exists.mp hm
    rcases LevelDBIndex.of_getElem?_putBatch _ hv with hv | ⟨hmem, -⟩
    · exact Or.inl (by rw [hv]; rfl)
    · exact Or.inr (List.of_mem_zip hmem).1
  · rw [← hfst, List.mem_map] at hm
    obtain ⟨e, he, rfl⟩ := hm
    obtain ⟨v, hmem, hplaced⟩ := exists_mem_zip h he
    rw [hfst] at hmem
    rcases hfound _ v hmem with ⟨hc, -⟩ | ⟨-, d, hd⟩
    · rw [Std.TreeMap.contains_eq_isSome_getElem?] at hc
      exact LevelDBIndex.isSome_putBatch _ hc
    · exact LevelDBIndex.isSome_putBatch_of_mem hmem (hplace d v hd)

/-! ## `Put`, whole -/

variable {G : Piece → Prop} {E exact : Prop} {F : Fates} {ts ss : List Piece} {w w' : World}
  {c : List Multihash} {b : List Bytes}

/-- **What `Put` is asked to append**: the blocks that the index does not
have may be pieces. -/
def PutOk (G : Piece → Prop) (w : World) (c : List Multihash) (b : List Bytes) : Prop :=
  ∀ j, w.disk.levelIndex = some j → Fitting G (freshEntries j.current c b)

/-- What a `Put` that returns nil has done. -/
structure PutDone (G : Piece → Prop) (E exact : Prop) (ts ss : List Piece) (c : List Multihash)
    (b : List Bytes) (w w' : World) (j : Journal Index) (t' : Index) : Prop where
  before : w.disk.levelIndex = some j
  after : ∃ u, AppendOnly w u ∧
    w' = { u with disk := { u.disk with levelIndex := some (j.write t') } }
  lengths : c.length = b.length
  live : Live G E exact ts (ss ++ freshEntries j.current c b) w'
  batched : Batched (ss ++ freshEntries j.current c b) c j t'

/-- What a `Put` that fails has done: it may have appended some of the
blocks. -/
def PutFailed (G : Piece → Prop) (E : Prop) (ts ss : List Piece) (c : List Multihash)
    (b : List Bytes) (w w' : World) : Prop :=
  ∃ j es, w.disk.levelIndex = some j ∧ es <+: freshEntries j.current c b ∧
    Live G E False ts (ss ++ es) w'

namespace CarLog

/-- Behind the index write, all of the batch is appended and indexed. -/
theorem putDone_of_placed {j : Journal Index} {offs : List I64} (hj : w.disk.levelIndex = some j)
    (hok : IndexOk ss j) (hlen : c.length = b.length) (happ : AppendOnly w w')
    (hplaced : List.Forall₂ (Placed (ss ++ freshEntries j.current c b))
      (c.zip (b.zip (c.map fun m => j.current.contains m))) offs)
    (hlive : Live G E exact ts (ss ++ freshEntries j.current c b) w') :
    PutDone G E exact ts ss c b w
      (modifyDisk (LevelDBIndex.modifyLevel fun j =>
        j.write (LevelDBIndex.putBatch j.current (c.zip offs))) w') j
      (LevelDBIndex.putBatch j.current (c.zip offs)) := by
  have hlevel : w'.disk.levelIndex = some j := by
    obtain ⟨_, _, _, _, _, _, rfl⟩ := happ
    exact hj
  have hok' : IndexOk (ss ++ freshEntries j.current c b) j :=
    ⟨fun m v hv => (hok.indexed m v hv).imp fun _ hd => hd.append _, hok.grown⟩
  have hbatched := batched_putBatch hlen hok' hplaced
  refine ⟨hj, ⟨w', happ, ?_⟩, hlen, ?_, hbatched⟩
  · simp only [modifyDisk, LevelDBIndex.modifyLevel, hlevel, Option.map_some]
  · obtain ⟨jl, f, bw, ht⟩ := hlive.tail
    exact { hlive with
      tail := ⟨jl, f, bw, { ht with }⟩
      index := ⟨_, by simp only [modifyDisk, LevelDBIndex.modifyLevel, hlevel, Option.map_some],
        hbatched.ok⟩ }

/-- **`Put`, with the index lock held.** -/
theorem wp_putLocked (hE : Failing F → E) (h : Live G E exact ts ss w) (hput : PutOk G w c b) :
    wp F (putLocked c b)
      ⟨fun _ w' => ∃ j t', PutDone G E exact ts ss c b w w' j t',
        fun _ w' => AppendOnly w w' ∧ PutFailed G E ts ss c b w w',
        fun w' => AppendOnly w w' ∧ ∃ es, DiskOk G ts (ss ++ es) w'.disk, fun _ _ => False⟩ w := by
  obtain ⟨j, hj, hok⟩ := h.index
  obtain ⟨i, hi⟩ := h.rIdx
  have hsame : PutFailed G E ts ss c b w w :=
    ⟨j, [], hj, List.nil_prefix, by simpa using h.inexact⟩
  simp only [putLocked, wp_get, wp_bind, wp_failIf, readableIndex, hi, wp_deref_some,
    ReadableIndex.has, LevelDBIndex.has, LevelDBIndex.contents, wp_ioRead, hj, wp_ret, wp_pure,
    wp_wrapErr]
  refine ⟨fun _ => ⟨.refl w, hsame⟩, fun _ => ⟨fun _ => ⟨.refl w, hsame⟩, fun hlen => ?_⟩⟩
  refine ⟨?_, fun _ => ⟨.refl w, hsame⟩, fun _ => ⟨.refl w, [], by simpa using h.diskOk⟩⟩
  have hlen : c.length = b.length := not_not.mp hlen
  have hgood := hput j hj
  rw [← newEntries_zip] at hgood
  refine wp_mono (wp_putBlocks hE _ h hgood) ?_ ?_ (fun _ => id) fun _ _ => id
  · rintro offs u ⟨hplaced, happ, hlive⟩
    rw [newEntries_zip] at hplaced hlive
    simp only [LevelDBIndex.put, wp_ioWrite]
    exact ⟨⟨j, _, putDone_of_placed hj hok hlen happ hplaced hlive⟩,
      fun _ => ⟨happ, j, _, hj, List.prefix_rfl, hlive.inexact⟩, fun _ => ⟨happ, _, hlive.diskOk⟩⟩
  · rintro x w' ⟨happ, es, hes, hlive⟩
    rw [newEntries_zip] at hes
    exact ⟨happ, j, es, hj, hes, hlive⟩

end CarLog

/-- The log takes no writes any more. -/
def shut (w : World) : World := { w with jb := { w.jb with wIdx := none } }

/-- The world with the index lock in another state. -/
def World.setLk (lk : RWMutex) (w : World) : World := { w with jb := { w.jb with idxLk := lk } }

namespace CarLog

omit X in
/-- **Under the index lock, held for reading.** What keeps the lock's
state finds it as it left it. -/
theorem wp_rLocked {α : Type} {m : Op α} {Q : Post World Err α} (hblocked : Q.fault .blocked w)
    (hm : w.jb.idxLk.writer = false → wp F m
      ⟨fun a u => u.jb.idxLk = ⟨false, w.jb.idxLk.readers + 1⟩ ∧ Q.ok a (u.setLk w.jb.idxLk),
        fun e u => u.jb.idxLk = ⟨false, w.jb.idxLk.readers + 1⟩ ∧ Q.err e (u.setLk w.jb.idxLk),
        Q.crash, Q.fault⟩ (w.setLk ⟨false, w.jb.idxLk.readers + 1⟩)) :
    wp F (rLockIdx >>= fun _ => m.andThen rUnlockIdx) Q w := by
  rw [wp_bind, rLockIdx, wp_get]
  split_ifs with hlk
  · exact hblocked
  have hw : w.jb.idxLk.writer = false := by simpa using hlk
  have heq : w.jb.idxLk = ⟨false, w.jb.idxLk.readers⟩ := by
    rw [← hw]
  have hunlock : ∀ {R : Post World Err Unit} {u : World},
      u.jb.idxLk = ⟨false, w.jb.idxLk.readers + 1⟩ → R.ok () (u.setLk w.jb.idxLk) →
      wp F rUnlockIdx R u := fun hu hR => by
    simp only [rUnlockIdx, wp_get, hu, Nat.add_one_ne_zero, if_false, wp_modifyJb,
      Nat.add_sub_cancel, ← heq]
    exact hR
  change wp F (m.andThen rUnlockIdx) Q (w.setLk ⟨false, w.jb.idxLk.readers + 1⟩)
  rw [wp_andThen]
  refine wp_mono (hm hw) ?_ ?_ (fun _ => id) fun _ _ => id
  · rintro a u ⟨hu, hok⟩
    exact hunlock hu hok
  · rintro e u ⟨hu, herr⟩
    exact hunlock hu herr

/-- **`Put`.** -/
theorem wp_put (hE : Failing F → E) (h : Live G E exact ts ss w) (hput : PutOk G w c b) :
    wp F (put c b)
      ⟨fun _ w' => ∃ j t', PutDone G E exact ts ss c b w w' j t',
        fun _ w' => AppendOnly w w' ∧ PutFailed G E ts ss c b w w',
        fun w' => w'.disk.levelIndex = w.disk.levelIndex ∧ ∃ es, DiskOk G ts (ss ++ es) w'.disk,
        fun _ w' => w' = w⟩ w := by
  refine wp_rLocked rfl fun _ => ?_
  refine wp_mono (wp_putLocked hE (h.setLk _) hput) ?_ ?_ ?_ fun _ _ => False.elim
  · rintro - w' ⟨j, t', hdone⟩
    obtain ⟨u, ⟨_, _, _, _, _, _, rfl⟩, rfl⟩ := hdone.after
    exact ⟨rfl, j, t', hdone.before, ⟨_, ⟨_, _, _, _, _, _, rfl⟩, rfl⟩, hdone.lengths,
      hdone.live.setLk _, hdone.batched⟩
  · rintro e w' ⟨happ, j, es, hj, hes, hlive⟩
    obtain ⟨_, _, _, _, _, _, rfl⟩ := happ
    exact ⟨rfl, ⟨_, _, _, _, _, _, rfl⟩, j, es, hj, hes, hlive.setLk _⟩
  · rintro w' ⟨happ, hd⟩
    obtain ⟨_, _, _, _, _, _, rfl⟩ := happ
    exact ⟨rfl, hd⟩

end CarLog

/-! ## `Commit` -/

/-- The world with another head file. -/
def withHead (x : Option (Option Head)) (w : World) : World :=
  { w with disk := { w.disk with head := x } }

/-- Only the data file and the head file differ. -/
def CommitOnly (w w' : World) : Prop := ∃ u x, FileOnly w u ∧ w' = withHead x u

omit X in
theorem FileOnly.commitOnly (h : FileOnly w w') : CommitOnly w w' := ⟨w', w'.disk.head, h, rfl⟩

/-- The head file may have been given the head that `change` makes. -/
def MayChange (change : Head → Except Err Head) (w w' : World) : Prop :=
  w' = w ∨ ∃ h h', w.disk.head = some (some h) ∧ change h = .ok h' ∧
    w' = withHead (some (some h')) w

namespace CarLog

omit X in
/-- **Changing the head.** On the way to an error the head may have been
written, or torn. -/
theorem wp_mutHead {change : Head → Except Err Head} (hopen : w.jb.head = some true) :
    wp F (mutHead change)
      ⟨fun h w' => w.disk.head = some (some h) ∧ ∃ h', change h = .ok h' ∧
          w' = withHead (some (some h')) w,
        fun e w' => (w' = w ∧ ∃ h, w.disk.head = some (some h) ∧ change h = .error e) ∨
          e ≠ .errNothingToCommit ∧
            (Failing F ∨ ∀ h, w.disk.head = some (some h) → h.valid = false) ∧
            (MayChange change w w' ∨ w' = withHead (some none) w),
        MayChange change w, fun _ _ => False⟩ w := by
  simp only [mutHead, wp_bind, wp_wrapErr, readHead, wp_get, hopen, wp_ioRead]
  refine ⟨?_, fun hf => Or.inr ⟨by simp, Or.inl hf, Or.inl (Or.inl rfl)⟩, fun _ => Or.inl rfl⟩
  rcases hhead : w.disk.head with _ | _ | h
  · exact Or.inr ⟨by simp, Or.inr (by simp), Or.inl (Or.inl rfl)⟩
  · exact Or.inr ⟨by simp, Or.inr (by simp), Or.inl (Or.inl rfl)⟩
  refine wp_failIf.mpr ⟨fun hv => Or.inr ⟨by simp, Or.inr (by simpa using hv), Or.inl (Or.inl rfl)⟩,
    fun hv => ?_⟩
  cases hc : change h with
  | error e => exact Or.inl ⟨rfl, h, rfl, hc⟩
  | ok h' =>
    have hwritten : MayChange change w (withHead (some (some h')) w) :=
      Or.inr ⟨h, h', hhead, hc, rfl⟩
    simp only [wp_bind, wp_wrapErr, writeHead, wp, wp_ioRead, if_true, wp_ret, wp_pure,
      Bool.false_eq_true, if_false]
    refine ⟨⟨⟨trivial, h', hc, rfl⟩, fun hf => Or.inr ⟨by simp, Or.inl hf, Or.inl hwritten⟩,
      fun _ => hwritten⟩, fun n hn => Or.inr ⟨by simp, Or.inl ⟨n, hn⟩, ?_⟩, fun _ => Or.inl rfl⟩
    by_cases hn0 : n = 0
    · simp only [hn0, if_true]
      exact Or.inl (Or.inl rfl)
    · simp only [if_neg hn0]
      exact Or.inr rfl

end CarLog

omit X in
theorem Tail.of_isPrefix {T T' S : Bytes} {j : Journal Bytes} {f : DataFile} {b : BufWriter}
    (h : Tail E exact T S j f b w) (hpre : T' <+: T) : Tail E exact T' S j f b w :=
  { h with durable := h.durable.imp fun _ hT => hpre.trans hT }

/-- Everything in the log is retired. -/
structure Committed (G : Piece → Prop) (E exact : Prop) (ss : List Piece) (w : World) : Prop where
  live : Live G E exact ss ss w
  flushed : ∃ j f e, Tail E exact (stream ss) (stream ss) j f ⟨[], e⟩ w
  head : ∃ h, w.disk.head = some (some h)

namespace Live

/-- The head was written, for all that is in the file. -/
theorem committed {j : Journal Bytes} {f : DataFile} {e : Option Err} {ro : Bool}
    (h : Live G E exact ts ss w) (ht : Tail E exact (stream ss) (stream ss) j f ⟨[], e⟩ w) :
    Committed G E exact ss (withHead (some (some (logHead (stream ss).length ro))) w) := by
  have hlive : Live G E exact ss ss (withHead (some (some (logHead (stream ss).length ro))) w) :=
    { h with
      le := List.prefix_rfl
      head := fun h' hh' => by
        simp only [withHead, Option.some.injEq] at hh'
        rw [← hh']
        rfl
      tail := ⟨j, f, _, { ht with }⟩ }
  exact ⟨hlive, ⟨j, f, e, { ht with }⟩, _, rfl⟩

/-- The head was torn, or written without moving what is retired. -/
theorem withHead {x : Option (Option Head)} (h : Live G E exact ts ss w)
    (hx : ∀ h', x = some (some h') → h' = logHead (stream ts).length h'.readOnly) :
    Live G E exact ts ss (withHead x w) := by
  obtain ⟨j, f, b, ht⟩ := h.tail
  exact { h with
    head := hx
    tail := ⟨j, f, b, { ht with }⟩ }

theorem torn (h : Live G E exact ts ss w) : Live G E exact ts ss (Carlog.withHead (some none) w) :=
  h.withHead fun h' hh' => by simp at hh'

end Live

namespace CarLog

/-- **`Commit`, with the index lock held.** -/
theorem wp_commitLocked (hE : Failing F → E) (h : Live G E exact ts ss w) :
    wp F commitLocked
      ⟨fun n w' => CommitOnly w w' ∧ n = (stream ss).length ∧ Committed G E exact ss w',
        fun _ w' => CommitOnly w w' ∧ ∃ ts', (ts' = ts ∨ ts' = ss) ∧ Live G E exact ts' ss w',
        fun w' => CommitOnly w w' ∧ ∃ ts', (ts' = ts ∨ ts' = ss) ∧ DiskOk G ts' ss w'.disk,
        fun _ _ => False⟩ w := by
  simp only [commitLocked, wp_bind, wp_wrapErr]
  refine wp_mono (wp_flushBuffered hE h.tail) ?_ ?_ ?_ fun _ _ => id
  -- the buffer is in the file
  · rintro - u ⟨honly, j, f, e, ht⟩
    have hu := h.of_fileOnly honly ht.tailed
    refine wp_mono (wp_dataSync hE ht) ?_ ?_ ?_ fun _ _ => id
    -- and the file is durable
    · rintro - v ⟨honly', j', ht'⟩
      have honlyv := honly.trans honly'
      have hv := hu.of_fileOnly honly' (ht'.of_isPrefix (stream_isPrefix h.le)).tailed
      simp only [wp_get, wp_handle, wp_bind]
      -- the change, on the head of the log
      have hchange : ∀ h₁ h₂ : Head, v.disk.head = some (some h₁) →
          (if h₁.retiredAt = v.jb.dataLen then Except.error Err.errNothingToCommit
            else .ok { h₁ with retiredAt := v.jb.dataLen }) = .ok h₂ →
          h₂ = logHead (stream ss).length h₁.readOnly := by
        intro h₁ h₂ hh hc
        split_ifs at hc
        rw [← Except.ok.inj hc, hv.head h₁ hh, hv.dataLen]
        rfl
      -- where the change is in doubt, what is retired is in doubt
      have hmay : ∀ {w'}, MayChange (fun h₁ => if h₁.retiredAt = v.jb.dataLen then
          .error Err.errNothingToCommit else .ok { h₁ with retiredAt := v.jb.dataLen }) v w' →
          CommitOnly w w' ∧ ∃ ts', (ts' = ts ∨ ts' = ss) ∧ Live G E exact ts' ss w' := by
        rintro w' (rfl | ⟨h₁, h₂, hh, hc, rfl⟩)
        · exact ⟨honlyv.commitOnly, ts, Or.inl rfl, hv⟩
        · rw [hchange h₁ h₂ hh hc]
          exact ⟨⟨v, _, honlyv, rfl⟩, ss, Or.inr rfl, (hv.committed ht').live⟩
      refine wp_mono (wp_mutHead hv.headOpen) ?_ ?_ ?_ fun _ _ => id
      · rintro h₁ w' ⟨hh, h₂, hc, rfl⟩
        rw [hchange h₁ h₂ hh hc]
        exact ⟨⟨v, _, honlyv, rfl⟩, hv.dataLen, hv.committed ht'⟩
      · rintro x w' (⟨rfl, h₁, hh, hc⟩ | ⟨hne, -, hw'⟩)
        · split_ifs at hc with hret
          cases hc
          refine wp_ite.mpr ⟨fun _ => ?_, fun hne => absurd rfl hne⟩
          -- nothing was to be committed: the head says so
          have hlen : (stream ts).length = (stream ss).length := by
            rw [hv.head h₁ hh, hv.dataLen] at hret
            exact hret
          have hlive : Live G E exact ss ss w' := { hv with
            le := List.prefix_rfl
            head := fun h₂ hh₂ => by rw [← hlen]; exact hv.head h₂ hh₂
            tail := ht'.tailed }
          exact ⟨honlyv.commitOnly, hv.dataLen, hlive, ⟨j', f, e, ht'⟩, h₁, hh⟩
        · refine wp_ite.mpr ⟨fun heq => absurd heq hne, fun _ => ?_⟩
          rcases hw' with hmayw | rfl
          · exact hmay hmayw
          · exact ⟨⟨v, _, honlyv, rfl⟩, ts, Or.inl rfl, hv.torn⟩
      · intro w' hw'
        obtain ⟨honlyw, ts', hts', hlive⟩ := hmay hw'
        exact ⟨honlyw, ts', hts', hlive.diskOk⟩
    · rintro - w' ⟨-, rfl⟩
      exact ⟨honly.commitOnly, ts, Or.inl rfl, hu⟩
    · rintro _ rfl
      exact ⟨honly.commitOnly, ts, Or.inl rfl, hu.diskOk⟩
  · rintro - u ⟨-, honly, ht⟩
    exact ⟨honly.commitOnly, ts, Or.inl rfl, h.of_fileOnly honly ht⟩
  · exact fun u hk => ⟨hk.1.commitOnly, ts, Or.inl rfl, h.diskOk_of_kept hk⟩

theorem Committed.setLk (h : Committed G E exact ss w) (lk : RWMutex) :
    Committed G E exact ss (w.setLk lk) := by
  obtain ⟨j, f, e, ht⟩ := h.flushed
  exact ⟨h.live.setLk lk, ⟨j, f, e, { ht with }⟩, h.head⟩

/-- **`Commit`.** -/
theorem wp_commit (hE : Failing F → E) (h : Live G E exact ts ss w) :
    wp F commit
      ⟨fun n w' => CommitOnly w w' ∧ n = (stream ss).length ∧ Committed G E exact ss w',
        fun _ w' => CommitOnly w w' ∧ ∃ ts', (ts' = ts ∨ ts' = ss) ∧ Live G E exact ts' ss w',
        fun w' => w'.disk.levelIndex = w.disk.levelIndex ∧
          ∃ ts', (ts' = ts ∨ ts' = ss) ∧ DiskOk G ts' ss w'.disk,
        fun _ w' => w' = w⟩ w := by
  have hwr : w.jb.wIdx.isNone = false := by simpa using h.wIdx
  have hcommit : ∀ Q : Post World Err ℕ, wp F commit Q w =
      wp F (rLockIdx >>= fun _ => commitLocked.andThen rUnlockIdx) Q w := fun Q => by
    simp only [commit, wp_bind, rLockIdx, wp_get]
    split_ifs
    · rfl
    · simp only [wp_modifyJb, hwr, Bool.false_eq_true, if_false]
  rw [hcommit]
  refine wp_rLocked rfl fun _ => ?_
  refine wp_mono (wp_commitLocked hE (h.setLk _)) ?_ ?_ ?_ fun _ _ => False.elim
  · rintro n w' ⟨⟨u, x, ⟨_, _, _, _, rfl⟩, rfl⟩, hn, hdone⟩
    exact ⟨rfl, ⟨_, _, ⟨_, _, _, _, rfl⟩, rfl⟩, hn, Committed.setLk hdone _⟩
  · rintro e w' ⟨⟨u, x, ⟨_, _, _, _, rfl⟩, rfl⟩, ts', hts', hlive⟩
    exact ⟨rfl, ⟨_, _, ⟨_, _, _, _, rfl⟩, rfl⟩, ts', hts', hlive.setLk _⟩
  · rintro w' ⟨⟨u, x, ⟨_, _, _, _, rfl⟩, rfl⟩, hd⟩
    exact ⟨rfl, hd⟩

/-! ## `MarkReadOnly` -/

omit X in
/-- **Under the index lock, held for writing.** -/
theorem wp_locked {α : Type} {m : Op α} {Q : Post World Err α} (hblocked : Q.fault .blocked w)
    (hm : w.jb.idxLk = ⟨false, 0⟩ → wp F m
      ⟨fun a u => u.jb.idxLk = ⟨true, 0⟩ ∧ Q.ok a (u.setLk ⟨false, 0⟩),
        fun e u => u.jb.idxLk = ⟨true, 0⟩ ∧ Q.err e (u.setLk ⟨false, 0⟩),
        Q.crash, Q.fault⟩ (w.setLk ⟨true, 0⟩)) :
    wp F (lockIdx >>= fun _ => m.andThen unlockIdx) Q w := by
  rw [wp_bind, lockIdx, wp_get]
  split_ifs with hlk
  · have hunlock : ∀ {R : Post World Err Unit} {u : World}, u.jb.idxLk = ⟨true, 0⟩ →
        R.ok () (u.setLk ⟨false, 0⟩) → wp F unlockIdx R u := fun hu hR => by
      simp only [unlockIdx, wp_get, hu, if_true, wp_modifyJb]
      exact hR
    change wp F (m.andThen unlockIdx) Q (w.setLk ⟨true, 0⟩)
    rw [wp_andThen]
    refine wp_mono (hm hlk) ?_ ?_ (fun _ => id) fun _ _ => id
    · rintro a u ⟨hu, hok⟩
      exact hunlock hu hok
    · rintro e u ⟨hu, herr⟩
      exact hunlock hu herr
  · exact hblocked

/-- **`MarkReadOnly`.** When it fails, the head may say so already. -/
theorem wp_markReadOnly (h : Live G E exact ts ss w) : wp F markReadOnly
    ⟨fun _ w' => ∃ u, Live G E exact ts ss u ∧ w' = shut u,
      fun _ w' => Live G E exact ts ss w', fun w' => DiskOk G ts ss w'.disk,
      fun _ w' => w' = w⟩ w := by
  have hwr : w.jb.wIdx.isNone = false := by simpa using h.wIdx
  refine wp_locked rfl fun _ => ?_
  have hlive := h.setLk ⟨true, 0⟩
  -- the head is the same but for the mark
  have hmay : ∀ {w'}, MayChange (fun h => .ok { h with readOnly := true })
      (w.setLk ⟨true, 0⟩) w' → w'.jb.idxLk = ⟨true, 0⟩ ∧ Live G E exact ts ss w' := by
    rintro w' (rfl | ⟨h₁, h₂, hh, hc, rfl⟩)
    · exact ⟨rfl, hlive⟩
    · refine ⟨rfl, hlive.withHead fun h' hh' => ?_⟩
      simp only [Option.some.injEq] at hh'
      rw [← hh', ← Except.ok.inj hc, hlive.head h₁ hh]
      rfl
  simp only [markReadOnlyLocked, wp_get, wp_bind, wp_failIf, wp_wrapErr]
  refine ⟨fun hnone => absurd (hwr.symm.trans hnone) (by simp), fun _ => ?_⟩
  refine wp_mono (wp_mutHead hlive.headOpen) ?_ ?_ ?_ fun _ _ => False.elim
  · rintro h₁ w' ⟨hh, h₂, hc, rfl⟩
    obtain ⟨hlk, hlive'⟩ := hmay (Or.inr ⟨h₁, h₂, hh, hc, rfl⟩)
    exact ⟨hlk, _, hlive'.setLk _, rfl⟩
  · rintro e w' (⟨rfl, -⟩ | ⟨-, -, hw' | rfl⟩)
    · exact ⟨rfl, hlive.setLk _⟩
    · obtain ⟨hlk, hlive'⟩ := hmay hw'
      exact ⟨hlk, hlive'.setLk _⟩
    · exact ⟨rfl, hlive.torn.setLk _⟩
  · intro w' hw'
    exact (hmay hw').2.diskOk

end CarLog

end Carlog

end Ribs
