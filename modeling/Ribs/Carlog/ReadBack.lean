import Ribs.Carlog.Packed
import Ribs.Carlog.Recover
/-!
# Carlog — what a log answers

`View` gets the places of the blocks from the index, and each block from
the latest writes, or from the file once the buffer is flushed as far as
its entry. In a log whose places are those of entries it makes one call
for every multihash, in order: with the data of the entry, or as not found
where the index has no place. A place that the latest writes know gives
what the file would give.
-/

namespace Ribs

open Common

namespace Carlog

/-- **A piece that can be read back**: an entry with a proper multihash,
and of a length that a packed place says as it is. -/
def Piece.Legible : Piece → Prop
  | entry m data => ValidMultihash m ∧ (payload m data).length < 2 ^ 23
  | torn _ => True

variable [X : External]

/-! ## Places -/

section

variable {ps : List Piece} {m m' : Multihash} {data data' : Bytes} {v : I64}

/-- **The frame of an entry** stands at its place. -/
theorem EntryIn.exists_frame (h : EntryIn ps m data v) (hsmall : Small ps) : ∃ off,
    v = makeOffsetLen off (payload m data).length ∧ off < 2 ^ 40 ∧
      FrameAt (stream ps) off (payload m data) := by
  obtain ⟨pre, post, rfl, rfl⟩ := h
  have hframe : FrameAt (stream (pre ++ .entry m data :: post)) (stream pre).length
      (payload m data) := by
    refine ⟨stream pre, post.flatMap Piece.bytes, ?_, rfl⟩
    rw [stream_append, List.flatMap_cons, Piece.bytes, List.append_assoc]
  have hend := hframe.end_le
  have hpos := frameSize_pos (payload m data).length
  have hle : (stream (pre ++ .entry m data :: post)).length ≤ 2 ^ 40 := hsmall
  exact ⟨_, rfl, by omega, hframe⟩

/-- The payload says whose entry it is. -/
theorem payload_inj (hm : ValidMultihash m) (hm' : ValidMultihash m')
    (h : payload m data = payload m' data') : m = m' ∧ data = data' := by
  have hcid := X.cidFromBytes_bytes raw m data (Or.inl rfl) hm
  have hcid' := X.cidFromBytes_bytes raw m' data' (Or.inl rfl) hm'
  change X.cidFromBytes (payload m data) = _ at hcid
  change X.cidFromBytes (payload m' data') = _ at hcid'
  rw [h, hcid', Option.some.injEq, Prod.mk.injEq, Cid.mk.injEq] at hcid
  obtain ⟨-, -, rfl⟩ := hcid
  exact ⟨rfl, List.append_cancel_left h⟩

/-- **One place, one entry.** -/
theorem EntryIn.unique (h : EntryIn ps m data v) (h' : EntryIn ps m' data' v) (hsmall : Small ps)
    (hgood : ∀ p ∈ ps, p.Legible) : m = m' ∧ data = data' := by
  obtain ⟨hm, hshort⟩ : ValidMultihash m ∧ (payload m data).length < 2 ^ 23 := hgood _ h.mem
  obtain ⟨hm', hshort'⟩ : ValidMultihash m' ∧ (payload m' data').length < 2 ^ 23 := hgood _ h'.mem
  obtain ⟨off, hv, hoff, hframe⟩ := h.exists_frame hsmall
  obtain ⟨off', hv', hoff', hframe'⟩ := h'.exists_frame hsmall
  have hsame : off = off' := by
    have hfst := fst_fromOffsetLen off (payload m data).length
    have hfst' := fst_fromOffsetLen off' (payload m' data').length
    rw [← hv] at hfst
    rw [← hv', hfst, Nat.mod_eq_of_lt hoff, Nat.mod_eq_of_lt hoff'] at hfst'
    exact hfst'
  subst hsame
  exact payload_inj hm hm' (hframe.unique (by omega) (by omega) hframe')

end

/-! ## Reading -/

/-- What a place gives: nothing, or the data of the entry it is of. -/
def At (ss : List Piece) (loc : I64) : Option Bytes → Prop
  | none => loc = -1
  | some d => ∃ m, EntryIn ss m d loc

/-- **What a log answers**: that there is no place in the index, or the data
of the entry at the place. -/
def Answers (ss : List Piece) (t : Index) (m : Multihash) : Option Bytes → Prop
  | none => t[m]? = none
  | some d => ∃ v, t[m]? = some v ∧ EntryIn ss m d v

/-- The call for an answer. -/
def Call.of (i : ℕ) : Option Bytes → Call
  | none => ⟨i, false, []⟩
  | some d => ⟨i, true, d⟩

/-- **The calls for the answers**, from index `i` on. -/
def answerCalls : ℕ → List (Option Bytes) → List Call
  | _, [] => []
  | i, a :: as => .of i a :: answerCalls (i + 1) as

/-- **A log that can be read**: it has its stream, and what the latest
writes know are entries. -/
structure Reads (E exact : Prop) (T : Bytes) (ss : List Piece) (w : World) : Prop where
  tail : Tailed E exact T (stream ss) w
  lru : ∃ l, w.jb.writeLru = some l ∧ ∀ e ∈ l, ∃ m, EntryIn ss m e.2 e.1

/-- Calls were made; else only the data file and the order of the latest
writes differ. -/
def Viewed (calls : List Call) (w w' : World) : Prop := ∃ log data pos buffered lru,
  w' = { w with
    disk := { w.disk with blockLog := log }
    jb := { w.jb with
      data := data, dataPos := pos, dataBuffered := buffered, writeLru := lru }
    calls := w.calls ++ calls }

omit X in
theorem Viewed.refl (w : World) : Viewed [] w w := ⟨_, _, _, _, _, by rw [List.append_nil]⟩

omit X in
theorem Viewed.trans {cs cs' : List Call} {w w' w'' : World} (h : Viewed cs w w')
    (h' : Viewed cs' w' w'') : Viewed (cs ++ cs') w w'' := by
  obtain ⟨_, _, _, _, _, rfl⟩ := h
  obtain ⟨_, _, _, _, _, rfl⟩ := h'
  exact ⟨_, _, _, _, _, by rw [List.append_assoc]⟩

omit X in
theorem Viewed.level {cs : List Call} {w w' : World} (h : Viewed cs w w') :
    w'.disk.levelIndex = w.disk.levelIndex := by
  obtain ⟨_, _, _, _, _, rfl⟩ := h
  rfl

omit X in
theorem Viewed.wIdx {cs : List Call} {w w' : World} (h : Viewed cs w w') :
    w'.jb.wIdx = w.jb.wIdx := by
  obtain ⟨_, _, _, _, _, rfl⟩ := h
  rfl

omit X in
theorem FileOnly.viewed {w w' : World} (h : FileOnly w w') : Viewed [] w w' := by
  obtain ⟨_, _, _, _, rfl⟩ := h
  exact ⟨_, _, _, _, _, by rw [List.append_nil]⟩

/-- A crash on the way: some of the calls were made, and the file keeps what
it keeps. -/
def Cut (T : Bytes) (calls : List Call) (w w' : World) : Prop :=
  (∃ cs, cs <+: calls ∧ w'.calls = w.calls ++ cs) ∧
    ∃ j, w'.disk = { w.disk with blockLog := some j } ∧ j.All (T <+: ·)

omit X in
theorem Viewed.cut {T : Bytes} {cs calls : List Call} {w w' : World} (h : Viewed cs w w')
    (hcs : cs <+: calls) (hkept : ∃ j, w'.disk.blockLog = some j ∧ j.All (T <+: ·)) :
    Cut T calls w w' := by
  obtain ⟨j, hlog, hall⟩ := hkept
  obtain ⟨_, _, _, _, _, rfl⟩ := h
  dsimp only at hlog
  exact ⟨⟨cs, hcs, rfl⟩, j, by rw [hlog], hall⟩

omit X in
theorem Cut.after {T : Bytes} {cs calls calls' : List Call} {w w' w'' : World}
    (h : Cut T calls w' w'') (hviewed : Viewed cs w w') (hcs : ∀ cs', cs' <+: calls →
      cs ++ cs' <+: calls') : Cut T calls' w w'' := by
  obtain ⟨⟨cs', hcs', hcalls⟩, j, hdisk, hall⟩ := h
  obtain ⟨_, _, _, _, _, rfl⟩ := hviewed
  exact ⟨⟨_, hcs cs' hcs', by rw [hcalls, List.append_assoc]⟩, j, by rw [hdisk], hall⟩

/-- The file reaches as far as `n`. -/
def Reached (n : ℕ) (w : World) : Prop := ∃ p, w.jb.dataPos = some p ∧ n ≤ p

/-- The entry at the place ends within the first `n` bytes. -/
def Filed (n : ℕ) (loc : I64) : Prop :=
  ((fromOffsetLen loc).1 : ℤ) + CarLog.lenlen (fromOffsetLen loc).2 + (fromOffsetLen loc).2 ≤ n

omit X in
theorem Filed.mono {n n' : ℕ} {loc : I64} (h : Filed n loc) (hle : n ≤ n') : Filed n' loc :=
  le_trans h (by exact_mod_cast hle)

omit X in
/-- Where an entry ends. -/
theorem filed_makeOffsetLen {n off len : ℕ} (hoff : off < 2 ^ 40) (hlen : len < 2 ^ 23) :
    Filed n (makeOffsetLen off len) ↔ off + frameSize len ≤ n := by
  have hplace := ((packed_iff hoff).mpr hlen).1
  rw [Filed, hplace, CarLog.lenlen_natCast (by omega), frameSize]
  dsimp only
  constructor
  · intro h
    have h' : ((off + (putUvarint len).length + len : ℕ) : ℤ) ≤ n := by push_cast; exact h
    have := Int.ofNat_le.mp h'
    omega
  · intro h
    have h' : off + (putUvarint len).length + len ≤ n := by omega
    exact_mod_cast h'

/-- An entry ends where the log does, or before. -/
theorem EntryIn.filed {n : ℕ} {ss : List Piece} {m : Multihash} {d : Bytes} {loc : I64}
    (h : EntryIn ss m d loc) (hsmall : Small ss) (hgood : ∀ p ∈ ss, p.Legible)
    (hn : (stream ss).length ≤ n) : Filed n loc := by
  obtain ⟨-, hshort⟩ : ValidMultihash m ∧ (payload m d).length < 2 ^ 23 := hgood _ h.mem
  obtain ⟨off, rfl, hoff, hframe⟩ := h.exists_frame hsmall
  exact (filed_makeOffsetLen hoff hshort).mpr (hframe.end_le.trans hn)

variable {E E' exact : Prop} {F : Fates} {T S : Bytes} {ss : List Piece} {w w' : World}
  {cb : Callback} {i dataAt : ℕ}

theorem Reads.kept (h : Reads E exact T ss w) :
    ∃ j, w.disk.blockLog = some j ∧ j.All (T <+: ·) := by
  obtain ⟨j, f, b, ht⟩ := h.tail
  exact ⟨j, ht.log, ht.durable⟩

theorem Reads.inexact (h : Reads E exact T ss w) : Reads E False T ss w :=
  ⟨h.tail.inexact, h.lru⟩

/-- The file was written. -/
theorem Reads.of_fileOnly (h : Reads E exact T ss w) (honly : FileOnly w w')
    (ht : Tailed E exact T (stream ss) w') : Reads E exact T ss w' := by
  obtain ⟨_, _, _, _, rfl⟩ := honly
  exact ⟨ht, h.lru⟩

/-- What reading does not look at. -/
theorem Reads.congr (h : Reads E exact T ss w) (hlog : w'.disk.blockLog = w.disk.blockLog)
    (hdata : w'.jb.data = w.jb.data) (hpos : w'.jb.dataPos = w.jb.dataPos)
    (hbuf : w'.jb.dataBuffered = w.jb.dataBuffered) (hlru : w'.jb.writeLru = w.jb.writeLru) :
    Reads E exact T ss w' := by
  obtain ⟨j, f, b, ht⟩ := h.tail
  refine ⟨⟨j, f, b, { ht with
    log := hlog.trans ht.log
    data := hdata.trans ht.data
    pos := hpos.trans ht.pos
    buffered := hbuf.trans ht.buffered }⟩, ?_⟩
  rw [hlru]
  exact h.lru

/-! ## A read under way -/

/-- The read is counted. -/
def counted (w : World) : World :=
  { w with jb := { w.jb with pendingReads := w.jb.pendingReads + 1 } }

/-- The read is done. -/
def uncounted (w : World) : World :=
  { w with jb := { w.jb with pendingReads := w.jb.pendingReads - 1 } }

omit X in
theorem uncounted_counted : uncounted (counted w) = w := rfl

theorem Reads.counted (h : Reads E exact T ss w) : Reads E exact T ss (counted w) :=
  h.congr rfl rfl rfl rfl rfl

theorem Reads.uncounted (h : Reads E exact T ss w) : Reads E exact T ss (uncounted w) :=
  h.congr rfl rfl rfl rfl rfl

omit X in
theorem viewed_uncounted {cs : List Call} {u : World} (h : Viewed cs (counted w) u) :
    Viewed cs w (uncounted u) := by
  obtain ⟨log, data, pos, b, lru, rfl⟩ := h
  exact ⟨log, data, pos, b, lru, rfl⟩

omit X in
theorem cut_counted {calls : List Call} {u : World} (h : Cut T calls (counted w) u) :
    Cut T calls w u := h

namespace CarLog

omit X in
/-- A call of the callback. -/
theorem wp_call {c : Call} : wp F (cb.call c)
    ⟨fun _ w' => cb c = none ∧ w' = { w with calls := w.calls ++ [c] },
      fun _ w' => cb c ≠ none ∧ w' = { w with calls := w.calls ++ [c] },
      fun _ => False, fun _ _ => False⟩ w := by
  unfold Callback.call
  rw [wp_get, wp]
  cases hc : cb c with
  | none => exact ⟨rfl, rfl⟩
  | some n => exact ⟨by simp, rfl⟩

omit X in
/-- **The buffer is flushed**, unless the file reaches as far as it has to;
behind it the stream is in the file. -/
theorem wp_reach_tail (hE : Failing F → E) (h : Tailed E exact T S w) {limit : ℤ}
    (hat : Reached dataAt w) : wp F (reach dataAt limit)
      ⟨fun n w' => FileOnly w w' ∧ Tailed E exact T S w' ∧ dataAt ≤ n ∧ limit ≤ n ∧ Reached n w',
        fun _ w' => FileOnly w w' ∧ Tailed E exact T S w' ∧ ¬ limit ≤ dataAt ∧
          (E ∨ (S.length : ℤ) < limit), Kept T w, fun _ _ => False⟩ w := by
  have hpos : ∀ {u : World} {j : Journal Bytes} {f : DataFile} {b : BufWriter} {Q : Post World Err ℕ},
      Tail E exact T S j f b u → Q.ok j.current.length u → wp F pos Q u := by
    intro u j f b Q ht hQ
    rw [pos, wp_get, ht.pos]
    exact hQ
  unfold reach
  rw [wp_ite]
  refine ⟨fun hle => ⟨.refl w, h, le_refl _, hle, hat⟩, fun hnot => ?_⟩
  obtain ⟨j, f, b, ht⟩ := id h
  have hmore : ∀ {n : ℕ}, limit ≤ n → dataAt ≤ n := fun hn => by
    have : ¬ limit ≤ dataAt := hnot
    omega
  rw [wp_bind]
  refine hpos ht (wp_ite.mpr ⟨fun hle => ?_, fun _ => ?_⟩)
  · exact ⟨.refl w, h, hmore hle, hle, _, ht.pos, le_refl _⟩
  rw [wp_bind, wp_wrapErr]
  refine wp_mono (wp_flushBuffered hE h) ?_ ?_ (fun _ => id) fun _ _ => id
  · rintro - u ⟨honly, j', f', e, ht'⟩
    -- all of the stream is in the file now
    have hall : S.length ≤ j'.current.length := by
      have := ht'.stream.length_le
      rwa [List.append_nil] at this
    dsimp only
    rw [wp_bind]
    refine hpos ht' ?_
    dsimp only
    rw [wp_bind, wp_failIf]
    refine ⟨fun hlt => ⟨honly, ht'.tailed, hnot, Or.inr ?_⟩, fun hnlt => ?_⟩
    · have : (S.length : ℤ) ≤ j'.current.length := by exact_mod_cast hall
      omega
    · have hle : limit ≤ j'.current.length := not_lt.mp hnlt
      exact ⟨honly, ht'.tailed, hmore hle, hle, _, ht'.pos, le_refl _⟩
  · rintro - u ⟨he, honly, ht'⟩
    exact ⟨honly, ht', hnot, Or.inl he⟩

/-- **An entry of the file** is read back by its place. -/
theorem wp_readEntry {m : Multihash} {data : Bytes} {off : ℕ} (hoff : off < 2 ^ 40)
    (hm : ValidMultihash m) (hshort : (payload m data).length < 2 ^ 23)
    (hframe : FrameAt (blockLog w) off (payload m data)) {f : DataFile} (hf : w.jb.data = some f)
    (hopen : f.isOpen = true) :
    wp F (readEntry dataReadAt (makeOffsetLen off (payload m data).length))
      ⟨fun d u => d = data ∧ u = w, fun _ u => Failing F ∧ u = w, fun u => u = w,
        fun _ _ => False⟩ w := by
  have hplace := ((packed_iff hoff).mpr hshort).1
  have hlen : lenlen (payload m data).length = (putUvarint (payload m data).length).length :=
    lenlen_natCast (by omega)
  have hend : off + (putUvarint (payload m data).length).length + (payload m data).length ≤
      (blockLog w).length := by
    have := hframe.end_le
    unfold frameSize at this
    omega
  unfold readEntry
  rw [hplace]
  dsimp only
  rw [if_neg (Int.not_lt.mpr (Int.natCast_nonneg _)), hlen, wp_bind, wp_wrapErr]
  unfold dataReadAt openData
  rw [wp_bind]
  simp only [wp_get, hf, hopen, if_true, wp_ret, wp_bind, wp_ioRead, Int.toNat_natCast, if_pos hend]
  refine ⟨?_, fun hfail => ⟨hfail, trivial⟩, fun _ => trivial⟩
  rw [hframe.payload_eq, payload, X.cidFromBytes_bytes raw m data (Or.inl rfl) hm]
  dsimp only
  rw [List.drop_left]
  exact ⟨rfl, rfl⟩

omit X in
/-- A hit is one of the latest writes, and so are those behind it. -/
theorem mem_of_lruGet {l l' : List (I64 × Bytes)} {loc : I64} {d : Bytes}
    (hhit : lruGet l loc = some (d, l')) : (loc, d) ∈ l ∧ ∀ e ∈ l', e ∈ l := by
  obtain ⟨e, hfind, heq⟩ := Option.map_eq_some_iff.mp hhit
  obtain ⟨rfl, rfl⟩ := Prod.mk.inj heq
  have hmem := List.mem_of_find?_eq_some hfind
  have hloc : e.1 = loc := by simpa using List.find?_some hfind
  refine ⟨by rwa [← hloc], fun x hx => ?_⟩
  rcases List.mem_cons.mp hx with rfl | hx
  · exact hmem
  · exact List.mem_of_mem_filter hx

/-- What the latest writes know is what the file has. -/
theorem lru_hit {l l' : List (I64 × Bytes)} {loc : I64} {m : Multihash} {d d' : Bytes}
    (hsmall : Small ss) (hgood : ∀ p ∈ ss, p.Legible)
    (hl : ∀ e ∈ l, ∃ m, EntryIn ss m e.2 e.1) (hentry : EntryIn ss m d loc)
    (hhit : lruGet l loc = some (d', l')) : d' = d := by
  obtain ⟨m', he⟩ := hl _ (mem_of_lruGet hhit).1
  exact (EntryIn.unique he hentry hsmall hgood).2

/-! ## One block -/

/-- What one block of `View` may leave. The flush fails only when `E'`. -/
def OneViewed (E E' exact : Prop) (F : Fates) (T : Bytes) (ss : List Piece) (cb : Callback)
    (dataAt : ℕ) (c : Call) (w : World) : Post World Err ℕ where
  ok n w' := Viewed [c] w w' ∧ Reads E exact T ss w' ∧ dataAt ≤ n ∧ Reached n w'
  err _ w' := (E' ∨ Failing F ∨ cb c ≠ none) ∧ Reads E exact T ss w' ∧
    ∃ cs, cs <+: [c] ∧ Viewed cs w w'
  crash := Cut T [c] w
  fault _ _ := False

/-- The call comes last, in a log that can be read still. -/
theorem wp_callOne {c : Call} {u : World} {n : ℕ} (hviewed : Viewed [] w u)
    (hreads : Reads E exact T ss u) (hle : dataAt ≤ n) (hreached : Reached n u) : wp F (do
      cb.call c
      return n : Op ℕ) (OneViewed E E' exact F T ss cb dataAt c w) u := by
  have hcalled : Viewed [c] w { u with calls := u.calls ++ [c] } := by
    have : Viewed [c] u { u with calls := u.calls ++ [c] } := ⟨_, _, _, _, _, rfl⟩
    exact hviewed.trans this
  have hsame : Reads E exact T ss { u with calls := u.calls ++ [c] } :=
    hreads.congr rfl rfl rfl rfl rfl
  rw [wp_bind]
  refine wp_mono wp_call ?_ ?_ (fun _ => False.elim) fun _ _ => id
  · rintro - _ ⟨-, rfl⟩
    exact ⟨hcalled, hsame, hle, hreached⟩
  · rintro - _ ⟨hne, rfl⟩
    exact ⟨Or.inr (Or.inr hne), hsame, _, List.prefix_rfl, hcalled⟩

/-- **One block of `View`.** -/
theorem wp_viewAt (hE : Failing F → E) (hsmall : Small ss) (hgood : ∀ p ∈ ss, p.Legible)
    (h : Reads E exact T ss w) (hat : Reached dataAt w) {loc : I64} {a : Option Bytes}
    (ha : At ss loc a) (hwhy : E → E' ∨ (loc ≠ -1 → Filed dataAt loc)) :
    wp F (viewAt cb i loc dataAt) (OneViewed E E' exact F T ss cb dataAt (.of i a) w) w := by
  obtain ⟨l, hl, hlru⟩ := h.lru
  unfold viewAt
  rw [wp_get]
  cases a with
  | none =>
    have hloc : loc = -1 := ha
    rw [if_pos hloc]
    exact wp_callOne (.refl w) h (le_refl _) hat
  | some d =>
    obtain ⟨m, hentry⟩ := ha
    obtain ⟨hm, hshort⟩ : ValidMultihash m ∧ (payload m d).length < 2 ^ 23 := hgood _ hentry.mem
    obtain ⟨off, rfl, hoff, hframe⟩ := hentry.exists_frame hsmall
    have hplace := ((packed_iff hoff).mpr hshort).1
    rw [if_neg (makeOffsetLen_ne_neg_one hshort), wp_bind, hl, wp_deref_some]
    dsimp only
    cases hhit : lruGet l (makeOffsetLen off (payload m d).length) with
    | some r =>
      obtain ⟨d', l'⟩ := r
      obtain rfl := lru_hit hsmall hgood hlru hentry hhit
      have hlru' : ∀ e ∈ l', ∃ m, EntryIn ss m e.2 e.1 := fun e he =>
        hlru e ((mem_of_lruGet hhit).2 e he)
      dsimp only
      rw [wp_bind, wp_modifyJb]
      obtain ⟨j, f, b, ht⟩ := h.tail
      exact wp_callOne ⟨_, _, _, _, _, by rw [List.append_nil]⟩
        ⟨⟨j, f, b, { ht with }⟩, l', rfl, hlru'⟩ (le_refl _) hat
    | none =>
      -- the entry is in the file, or gets there
      have hfiled : ∀ n : ℕ, Filed n (makeOffsetLen off (payload m d).length) ↔
          off + frameSize (payload m d).length ≤ n := fun n => filed_makeOffsetLen hoff hshort
      have hne : makeOffsetLen off (payload m d).length ≠ -1 := makeOffsetLen_ne_neg_one hshort
      dsimp only
      rw [wp_bind]
      refine wp_mono (wp_reach_tail hE h.tail hat) ?_ ?_ ?_ fun _ _ => id
      · rintro n u ⟨honly, ⟨j, f, b, ht⟩, hle, hlimit, p, hp, hn⟩
        have hreads := h.of_fileOnly honly ht.tailed
        have hend : off + frameSize (payload m d).length ≤ n := (hfiled n).mp hlimit
        have hfile : FrameAt (blockLog u) off (payload m d) := by
          have hpos : p = j.current.length := Option.some.inj (hp.symm.trans ht.pos)
          have hlog : blockLog u = j.current := by rw [blockLog, ht.log]; rfl
          have hall := (hframe.of_isPrefix ht.stream).take (n := j.current.length) (by omega)
          rwa [List.take_left, ← hlog] at hall
        dsimp only
        rw [wp_bind]
        refine wp_mono (wp_readEntry hoff hm hshort hfile ht.data ht.isOpen) ?_ ?_ ?_ fun _ _ => id
        · rintro _ _ ⟨rfl, rfl⟩
          exact wp_callOne honly.viewed hreads hle ⟨p, hp, hn⟩
        · rintro - _ ⟨hfail, rfl⟩
          exact ⟨Or.inr (Or.inl hfail), hreads, [], List.nil_prefix, honly.viewed⟩
        · rintro _ rfl
          exact honly.viewed.cut List.nil_prefix hreads.kept
      · rintro - u ⟨honly, ht, hnot, hfail⟩
        refine ⟨Or.inl ?_, h.of_fileOnly honly ht, [], List.nil_prefix, honly.viewed⟩
        rcases hfail with he | hlt
        · exact (hwhy he).resolve_right fun hf => hnot (hf hne)
        · have hstream : Filed (stream ss).length (makeOffsetLen off (payload m d).length) :=
            (hfiled _).mpr hframe.end_le
          exact absurd hstream (not_le.mpr hlt)
      · rintro u ⟨honly, hlog⟩
        exact honly.viewed.cut List.nil_prefix hlog

/-! ## All of them -/

omit X in
theorem call_mem_answerCalls {as : List (Option Bytes)} {cs : List Call} {c : Call}
    (h : cs <+: answerCalls i as) (hc : c ∈ cs) : c ∈ answerCalls i as := h.subset hc

/-- What the loop of `View` may leave. -/
def AllViewed (E E' exact : Prop) (F : Fates) (T : Bytes) (ss : List Piece) (cb : Callback)
    (calls : List Call) (w : World) : Post World Err Unit where
  ok _ w' := Viewed calls w w' ∧ Reads E exact T ss w'
  err _ w' := (E' ∨ Failing F ∨ ∃ c ∈ calls, cb c ≠ none) ∧ Reads E exact T ss w' ∧
    ∃ cs, cs <+: calls ∧ Viewed cs w w'
  crash := Cut T calls w
  fault _ _ := False

/-- **The loop of `View`**: a call for each block, in order. -/
theorem wp_viewLocs (hE : Failing F → E) (hsmall : Small ss) (hgood : ∀ p ∈ ss, p.Legible)
    {locs : List I64} {as : List (Option Bytes)} (has : List.Forall₂ (At ss) locs as)
    (h : Reads E exact T ss w) (hat : Reached dataAt w)
    (hwhy : E → E' ∨ ∀ loc ∈ locs, loc ≠ -1 → Filed dataAt loc) :
    wp F (viewLocs cb i locs dataAt) (AllViewed E E' exact F T ss cb (answerCalls i as) w) w := by
  induction has generalizing i dataAt w with
  | nil => exact ⟨.refl w, h⟩
  | @cons loc a locs as ha has ih =>
    have hcons : answerCalls i (a :: as) = [Call.of i a] ++ answerCalls (i + 1) as := rfl
    have hone : ∀ {cs}, cs <+: [Call.of i a] → cs <+: answerCalls i (a :: as) := fun hcs =>
      hcs.trans (hcons ▸ List.prefix_append _ _)
    rw [viewLocs]
    have hhere : E → E' ∨ (loc ≠ -1 → Filed dataAt loc) := fun he =>
      (hwhy he).imp_right fun hall => hall loc List.mem_cons_self
    refine wp_seq (wp_viewAt hE hsmall hgood h hat ha hhere) ?_ ?_ ?_ fun _ _ => id
    · rintro n u ⟨hviewed, hreads, hle, hreached⟩
      have hrest : E → E' ∨ ∀ loc ∈ locs, loc ≠ -1 → Filed n loc := fun he =>
        (hwhy he).imp_right fun hall loc' hloc' hne =>
          (hall loc' (List.mem_cons_of_mem _ hloc') hne).mono hle
      refine wp_mono (ih hreads hreached hrest) ?_ ?_ ?_ fun _ _ => id
      · rintro - v ⟨hviewed', hreads'⟩
        exact ⟨hviewed.trans hviewed', hreads'⟩
      · rintro - v ⟨hwhy, hreads', cs, hcs, hviewed'⟩
        refine ⟨hwhy.imp_right (Or.imp_right ?_), hreads', _, ?_, hviewed.trans hviewed'⟩
        · rintro ⟨c, hc, hne⟩
          exact ⟨c, List.mem_cons_of_mem _ hc, hne⟩
        · exact (List.prefix_append_right_inj _).mpr hcs
      · intro v hcut
        exact hcut.after hviewed fun cs' hcs' => (List.prefix_append_right_inj _).mpr hcs'
    · rintro - v ⟨hwhy, hreads, cs, hcs, hviewed⟩
      refine ⟨hwhy.imp_right (Or.imp_right fun hne => ?_), hreads, cs, hone hcs, hviewed⟩
      exact ⟨_, List.mem_cons_self, hne⟩
    · intro v hcut
      exact hcut.after (.refl w) fun cs' hcs' => hone hcs'

/-- The places that the index gives are those of the answers. -/
theorem at_of_answers {t : Index} {c : List Multihash} {as : List (Option Bytes)}
    (h : List.Forall₂ (Answers ss t) c as) :
    List.Forall₂ (At ss) (c.map fun m => (t[m]?).getD (-1)) as := by
  induction h with
  | nil => exact .nil
  | @cons m a c as ha _ ih =>
    refine .cons ?_ ih
    cases a with
    | none =>
      have hnone : t[m]? = none := ha
      show At ss ((t[m]?).getD (-1)) none
      rw [hnone]
      rfl
    | some d =>
      obtain ⟨v, hv, hentry⟩ := ha
      show At ss ((t[m]?).getD (-1)) (some d)
      rw [hv]
      exact ⟨m, hentry⟩

/-! ## `View` -/

/-- **`View`, by its loop**: behind the lookup the read is counted, and the
lock is free again. -/
theorem wp_view_of_loop {Q : Post World Err Unit} {idx : LevelDBIndex} {j : Journal Index} {p : ℕ}
    {c : List Multihash} (hidx : w.jb.rIdx = some (.level idx)) (hext : w.jb.eIdx = none)
    (hlevel : w.disk.levelIndex = some j) (hp : w.jb.dataPos = some p)
    (hlk : w.jb.idxLk.writer = false)
    (hloop : wp F (viewLocs cb 0 (c.map fun m => (j.current[m]?).getD (-1)) p)
      ⟨fun a u => Q.ok a (uncounted u), fun e u => Q.err e (uncounted u), Q.crash, Q.fault⟩
      (counted w))
    (hfail : Failing F → ∀ e, Q.err e w) (hcrash : ∀ lk, Q.crash (w.setLk lk)) :
    wp F (view c cb) Q w := by
  have hreaders : w.jb.idxLk = ⟨false, w.jb.idxLk.readers⟩ := by rw [← hlk]
  have hworld : ∀ u : World, u = counted w → wp F (viewLocs cb 0 (c.map fun m =>
      (j.current[m]?).getD (-1)) p) ⟨fun a u => Q.ok a (uncounted u),
        fun e u => Q.err e (uncounted u), Q.crash, Q.fault⟩ u := fun u hu => hu ▸ hloop
  unfold view rLockIdx
  rw [wp_bind, wp_get, if_neg (by rw [hlk]; simp), wp_modifyJb]
  simp only [wp_get, hidx, hext]
  unfold ReadableIndex.get LevelDBIndex.get LevelDBIndex.contents withPendingRead addPendingRead
    rUnlockIdx donePendingRead pos
  simp only [wp_bind, wp_attempt, wp_ioRead, wp_get, hlevel, wp_ret, wp_pure, wp_modifyJb,
    wp_andThen, Nat.add_one_ne_zero, if_false, Nat.add_sub_cancel, hp, wp_deref_some, ← hreaders]
  refine ⟨?_, fun hf => ?_, fun _ => ?_⟩
  · exact hworld _ (by simp only [counted, hp, hidx, hext])
  · have herr : Q.err (.wrap "getting value locations" .io) (uncounted (counted w)) := hfail hf _
    rw [wp]
    simpa only [uncounted, counted, hp, hidx, hext] using herr
  · have hc := hcrash ⟨false, w.jb.idxLk.readers + 1⟩
    simpa only [World.setLk, hp, hidx, hext] using hc

/-- **`View`** of a log that can be read and has a LevelDB index. -/
theorem wp_view (hE : Failing F → E) (hsmall : Small ss) (hgood : ∀ p ∈ ss, p.Legible)
    (h : Reads E exact T ss w) {idx : LevelDBIndex} (hidx : w.jb.rIdx = some (.level idx))
    (hext : w.jb.eIdx = none) {j : Journal Index} (hlevel : w.disk.levelIndex = some j)
    (hlk : w.jb.idxLk.writer = false) {c : List Multihash} {as : List (Option Bytes)}
    (has : List.Forall₂ (Answers ss j.current) c as) {p : ℕ} (hp : w.jb.dataPos = some p)
    (hwhy : E → E' ∨ ∀ m ∈ c, ∀ v, j.current[m]? = some v → Filed p v) :
    wp F (view c cb) (AllViewed E E' exact F T ss cb (answerCalls 0 as) w) w := by
  have hlocs : E → E' ∨ ∀ loc ∈ c.map fun m => (j.current[m]?).getD (-1), loc ≠ -1 → Filed p loc := by
    refine fun he => (hwhy he).imp_right fun hall loc hloc hne => ?_
    obtain ⟨m, hm, rfl⟩ := List.mem_map.mp hloc
    cases hv : j.current[m]? with
    | none =>
      rw [hv] at hne
      exact absurd rfl hne
    | some v => exact hall m hm v hv
  refine wp_view_of_loop hidx hext hlevel hp hlk ?_ (fun hf e => ?_) fun lk => ?_
  · refine wp_mono (wp_viewLocs hE hsmall hgood (at_of_answers has) h.counted ⟨p, hp, le_refl p⟩
      hlocs) ?_ ?_ (fun _ => id) fun _ _ => id
    · rintro - u ⟨hviewed, hu⟩
      exact ⟨viewed_uncounted hviewed, hu.uncounted⟩
    · rintro e u ⟨hwhy', hu, cs, hcs, hviewed⟩
      exact ⟨hwhy', hu.uncounted, cs, hcs, viewed_uncounted hviewed⟩
  · exact ⟨Or.inr (Or.inl hf), h, [], List.nil_prefix, .refl w⟩
  · obtain ⟨jl, hlog, hall⟩ := h.kept
    exact ⟨⟨[], List.nil_prefix, by simp [World.setLk]⟩, jl, by rw [← hlog]; rfl, hall⟩

/-! ## Places of which nothing is known -/

/-- A view of places that need not be those of entries leaves a log that can
be read, in whatever way it ends. -/
def Unharmed (E exact : Prop) (T : Bytes) (ss : List Piece) (Q : ℕ → World → Prop) (w : World) :
    Post World Err ℕ where
  ok n w' := (∃ cs, Viewed cs w w') ∧ Reads E exact T ss w' ∧ Q n w'
  err _ w' := (∃ cs, Viewed cs w w') ∧ Reads E exact T ss w'
  crash w' := ∃ j, w'.disk = { w.disk with blockLog := some j } ∧ j.All (T <+: ·)
  fault _ w' := ∃ j, w'.disk = { w.disk with blockLog := some j } ∧ j.All (T <+: ·)

/-- What reading the file leaves as it is. -/
theorem wp_readEntry_any {loc : I64} : wp F (readEntry dataReadAt loc)
    ⟨fun _ u => u = w, fun _ u => u = w, fun u => u = w, fun _ u => u = w⟩ w := by
  unfold readEntry dataReadAt openData
  refine wp_ite.mpr ⟨fun _ => rfl, fun _ => ?_⟩
  simp only [wp_bind, wp_wrapErr, wp_get]
  cases w.jb.data with
  | none => rfl
  | some f =>
    refine wp_ite.mpr ⟨fun _ => wp_ioRead.mpr ⟨wp_ite.mpr ⟨fun _ => ?_, fun _ => rfl⟩, fun _ => rfl,
      fun _ => rfl⟩, fun _ => rfl⟩
    rw [wp_ret]
    dsimp only
    split
    · rfl
    · rfl

theorem Unharmed.refl {Q : ℕ → World → Prop} (h : Reads E exact T ss w) :
    (Unharmed E exact T ss Q w).crash w := by
  obtain ⟨j, hlog, hall⟩ := h.kept
  exact ⟨j, by rw [← hlog], hall⟩

theorem wp_viewAt_any (hE : Failing F → E) (h : Reads E exact T ss w) (hat : Reached dataAt w)
    {loc : I64} : wp F (viewAt cb i loc dataAt) (Unharmed E exact T ss Reached w) w := by
  obtain ⟨l, hl, hlru⟩ := h.lru
  -- a call does no harm
  have hcall : ∀ {c : Call} {u : World} {n : ℕ}, Viewed [] w u → Reads E exact T ss u →
      Reached n u → wp F (do
        cb.call c
        return n : Op ℕ) (Unharmed E exact T ss Reached w) u := by
    intro c u n hviewed hreads hn
    have hcalled : Viewed [c] w { u with calls := u.calls ++ [c] } :=
      hviewed.trans ⟨_, _, _, _, _, rfl⟩
    have hsame : Reads E exact T ss { u with calls := u.calls ++ [c] } :=
      hreads.congr rfl rfl rfl rfl rfl
    rw [wp_bind]
    refine wp_mono wp_call ?_ ?_ (fun _ => False.elim) fun _ _ => False.elim
    · rintro - _ ⟨-, rfl⟩
      exact ⟨⟨_, hcalled⟩, hsame, hn⟩
    · rintro - _ ⟨-, rfl⟩
      exact ⟨⟨_, hcalled⟩, hsame⟩
  unfold viewAt
  rw [wp_get]
  refine wp_ite.mpr ⟨fun _ => hcall (.refl w) h hat, fun _ => ?_⟩
  rw [wp_bind, hl, wp_deref_some]
  dsimp only
  cases hhit : lruGet l loc with
  | some r =>
    obtain ⟨d, l'⟩ := r
    dsimp only
    rw [wp_bind, wp_modifyJb]
    obtain ⟨j, f, b, ht⟩ := h.tail
    exact hcall ⟨_, _, _, _, _, by rw [List.append_nil]⟩
      ⟨⟨j, f, b, { ht with }⟩, l', rfl, fun e he => hlru e ((mem_of_lruGet hhit).2 e he)⟩ hat
  | none =>
    dsimp only
    rw [wp_bind]
    refine wp_mono (wp_reach_tail hE h.tail hat) ?_ ?_ ?_ fun _ _ => False.elim
    · rintro n u ⟨honly, ht, -, -, hn⟩
      have hu := h.of_fileOnly honly ht
      have hcrash : (Unharmed E exact T ss Reached w).crash u := by
        obtain ⟨_, _, _, _, rfl⟩ := honly
        exact Unharmed.refl (Q := Reached) hu
      dsimp only
      rw [wp_bind]
      refine wp_mono wp_readEntry_any ?_ ?_ ?_ ?_
      · rintro d _ rfl
        exact hcall honly.viewed hu hn
      · rintro - _ rfl
        exact ⟨⟨_, honly.viewed⟩, hu⟩
      · rintro _ rfl
        exact hcrash
      · rintro - _ rfl
        exact hcrash
    · rintro - u ⟨honly, ht, -⟩
      exact ⟨⟨_, honly.viewed⟩, h.of_fileOnly honly ht⟩
    · rintro u ⟨⟨_, _, _, _, rfl⟩, j, hlog, hall⟩
      dsimp only at hlog
      exact ⟨j, by rw [hlog], hall⟩

theorem wp_viewLocs_any (hE : Failing F → E) (h : Reads E exact T ss w) (hat : Reached dataAt w)
    {locs : List I64} : wp F (viewLocs cb i locs dataAt)
      ⟨fun _ w' => (∃ cs, Viewed cs w w') ∧ Reads E exact T ss w',
        (Unharmed E exact T ss Reached w).err, (Unharmed E exact T ss Reached w).crash,
        (Unharmed E exact T ss Reached w).fault⟩ w := by
  induction locs generalizing i dataAt w with
  | nil => exact ⟨⟨_, .refl w⟩, h⟩
  | cons loc locs ih =>
    have hdisk : ∀ {cs : List Call} {u v : World}, Viewed cs w u →
        (Unharmed E exact T ss Reached u).crash v → (Unharmed E exact T ss Reached w).crash v := by
      rintro cs _ v ⟨_, _, _, _, _, rfl⟩ hv
      exact hv
    rw [viewLocs]
    refine wp_seq (wp_viewAt_any hE h hat) ?_ (fun _ _ => id) (fun _ => id) fun _ _ => id
    rintro n u ⟨⟨cs, hviewed⟩, hreads, hn⟩
    refine wp_mono (ih hreads hn) ?_ ?_ (fun _ => hdisk hviewed) fun _ _ => hdisk hviewed
    · rintro - v ⟨⟨cs', hviewed'⟩, hv⟩
      exact ⟨⟨_, hviewed.trans hviewed'⟩, hv⟩
    · rintro - v ⟨⟨cs', hviewed'⟩, hv⟩
      exact ⟨⟨_, hviewed.trans hviewed'⟩, hv⟩

/-- **`View`, whatever the index says**, does no harm. -/
theorem wp_view_any (hE : Failing F → E) (h : Reads E exact T ss w) {idx : LevelDBIndex}
    (hidx : w.jb.rIdx = some (.level idx)) (hext : w.jb.eIdx = none) {j : Journal Index}
    (hlevel : w.disk.levelIndex = some j) {c : List Multihash} : wp F (view c cb)
      ⟨fun _ w' => (∃ cs, Viewed cs w w') ∧ Reads E exact T ss w',
        (Unharmed E exact T ss Reached w).err, (Unharmed E exact T ss Reached w).crash,
        (Unharmed E exact T ss Reached w).fault⟩ w := by
  obtain ⟨jl, f, b, ht⟩ := id h.tail
  cases hlk : w.jb.idxLk.writer with
  | true =>
    unfold view rLockIdx
    rw [wp_bind, wp_get, if_pos hlk]
    exact Unharmed.refl (Q := Reached) h
  | false =>
    refine wp_view_of_loop hidx hext hlevel ht.pos hlk ?_ (fun _ _ => ⟨⟨_, .refl w⟩, h⟩) fun lk => ?_
    · refine wp_mono (wp_viewLocs_any hE h.counted ⟨_, ht.pos, le_refl _⟩) ?_ ?_ (fun _ => id)
        fun _ _ => id
      · rintro - u ⟨⟨cs, hviewed⟩, hu⟩
        exact ⟨⟨cs, viewed_uncounted hviewed⟩, hu.uncounted⟩
      · rintro - u ⟨⟨cs, hviewed⟩, hu⟩
        exact ⟨⟨cs, viewed_uncounted hviewed⟩, hu.uncounted⟩
    · have hsame : Reads E exact T ss (w.setLk lk) := h.congr rfl rfl rfl rfl rfl
      exact Unharmed.refl (Q := Reached) hsame

end CarLog

end Carlog

end Ribs
