import Ribs.Carlog.HeadRecord
import Ribs.Carlog.Resume
/-!
# Carlog — the head fits its file

A record grows with the layers of the top tree only. A block of links
takes `arity` of them, so the entries of a file of less than `2 ^ 63`
bytes make no more than six layers, and with the header seven offsets. The
record is then written in place whatever its fields hold, and what the
file holds is read back as the head that was stored last.
-/

namespace Ribs

open Common

namespace Carlog

open Bsst (CborGen zeros)

/-! ## The layers of a top tree -/

/-- Chunks of `n` elements, of no more than `n * m`. -/
theorem length_chunks_le {α : Type} {n m : ℕ} (hn : 0 < n) {l : List α} (h : l.length ≤ n * m) :
    (chunks n l).length ≤ m := by
  induction m generalizing l with
  | zero =>
    have hnil : l = [] := List.length_eq_zero_iff.mp (by simpa using h)
    rw [hnil, chunks_nil, List.length_nil]
  | succ m ih =>
    by_cases hl : l = []
    · rw [hl, chunks_nil, List.length_nil]
      omega
    · have hdrop := ih (l := l.drop n) (by
        rw [List.length_drop]
        rw [Nat.mul_succ] at h
        omega)
      rw [chunks_of_ne_nil hn hl, List.length_cons]
      omega

namespace CarLog

variable [X : External] {w : World}

theorem length_walk_le (fuel off : ℕ) (bs : Bytes) : (walk fuel off bs).1.length ≤ fuel := by
  induction fuel generalizing off bs with
  | zero => cases bs <;> simp [walk]
  | succ fuel ih =>
    cases bs with
    | nil => simp [walk]
    | cons b bs =>
      unfold walk
      rcases readUvarint (b :: bs) with (_ | _) | ⟨entLen, rest⟩ <;> dsimp only
      · simp
      · simp
      split
      · simp
      split
      · simp
      rcases X.cidFromBytes (rest.take entLen) with _ | ⟨n, c⟩ <;> dsimp only
      · simp
      · rw [List.length_cons]
        exact Nat.succ_le_succ (ih _ _)

/-- A block more links to the layer below. -/
theorem wp_returns_writeLinkBlock (next links : List Cid) : wp anyFate (writeLinkBlock next links)
    (.returns fun r _ => r.length = next.length + 1) w :=
  wp_returns_after fun _ _ => wp_returns_after fun _ _ => List.length_append

/-- **The entries seen so far** are in the full blocks, and in the links of
the block being filled. -/
def Collected (n : ℕ) (links : List Cid × List Cid) : Prop :=
  links.1.length < arity ∧ arity * links.2.length + links.1.length = n

theorem wp_returns_collectLink {n : ℕ} {links : List Cid × List Cid} (h : Collected n links)
    (e : LogEntry) :
    wp anyFate (collectLink links e) (.returns fun r _ => Collected (n + 1) r) w := by
  obtain ⟨hlt, hsum⟩ := h
  unfold collectLink
  split
  · rename_i hfull
    rw [List.length_append, List.length_singleton] at hfull
    refine wp_returns_seq (wp_returns_wrapErr (wp_returns_writeLinkBlock _ _))
      fun next _ hnext => ?_
    refine ⟨by simp [arity], ?_⟩
    rw [hnext, Nat.mul_succ, List.length_nil]
    omega
  · rename_i hfull
    rw [List.length_append, List.length_singleton] at hfull
    refine ⟨?_, ?_⟩
    · rw [List.length_append, List.length_singleton]
      omega
    · change arity * links.2.length + (links.1 ++ [e.cid]).length = n + 1
      rw [List.length_append, List.length_singleton]
      omega

/-- **The links to the bottom layer** are no more than it has bytes. -/
theorem wp_returns_iterate {dataEnd : ℕ} : wp anyFate (iterate dataEnd collectLink ([], []))
    (.returns fun r _ => ∃ n ≤ dataEnd, Collected n r) w := by
  unfold iterate
  rw [wp_get]
  split
  · exact ⟨0, Nat.zero_le _, by simp [arity], rfl⟩
  refine wp_returns_after fun _ t => ?_
  dsimp only
  have hlen := length_walk_le
    (((blockLog w).drop w.jb.dataStart).take (dataEnd - w.jb.dataStart)).length w.jb.dataStart
    (((blockLog w).drop w.jb.dataStart).take (dataEnd - w.jb.dataStart))
  have hbytes := List.length_take_le (dataEnd - w.jb.dataStart) ((blockLog w).drop w.jb.dataStart)
  generalize walk (((blockLog w).drop w.jb.dataStart).take (dataEnd - w.jb.dataStart)).length
    w.jb.dataStart (((blockLog w).drop w.jb.dataStart).take (dataEnd - w.jb.dataStart)) = r
    at hlen ⊢
  obtain ⟨ents, err⟩ := r
  replace hlen : ents.length ≤ _ := hlen
  have hstart : Collected ([] : List LogEntry).length ([], []) := ⟨by simp [arity], rfl⟩
  refine wp_returns_seq (R := fun r _ => Collected ents.length r) ?_ fun links _ hlinks => ?_
  · refine wp_foldlM (I := fun pre links _ => Collected pre.length links)
      (fun pre e links _ h => wp_returns_after fun _ _ => ?_) hstart ents
    rw [List.length_append, List.length_singleton]
    exact wp_returns_collectLink h e
  refine wp_returns_after fun _ _ => ?_
  cases err with
  | none => exact ⟨ents.length, by omega, hlinks⟩
  | some e => trivial

/-- The last block may link to less. -/
theorem wp_returns_finishLayer {n : ℕ} {links : List Cid × List Cid} (h : Collected n links) :
    wp anyFate (finishLayer links) (.returns fun r _ => arity * r.length < n + arity) w := by
  obtain ⟨hlt, hsum⟩ := h
  unfold finishLayer
  split
  · change arity * links.2.length < _
    have : 0 < arity := by simp [arity]
    omega
  · rename_i hne
    have hpos := List.length_pos_iff.mpr hne
    refine wp_returns_mono (wp_returns_wrapErr (wp_returns_writeLinkBlock _ _)) fun r _ hr => ?_
    rw [hr, Nat.mul_succ]
    omega

/-- **A layer for every power of `arity`**, behind those there are. -/
theorem wp_returns_genLayers (fuel : ℕ) (next : List Cid) (offs : List ℕ) :
    wp anyFate (genLayers fuel next offs) (.returns fun r _ => ∃ more, r.2 = offs ++ more ∧
      ∀ k, next.length ≤ arity ^ k → more.length ≤ k) w := by
  induction fuel generalizing next offs w with
  | zero => exact ⟨[], (List.append_nil _).symm, fun _ _ => Nat.zero_le _⟩
  | succ fuel ih =>
    unfold genLayers
    rw [wp_get]
    split
    · rename_i hmany
      refine wp_returns_seq (R := fun r _ => r.length = (chunks arity next).length) ?_
        fun next' t hnext' => ?_
      · have hstart : ([] : List Cid).length = ([] : List (List Cid)).length := rfl
        refine wp_foldlM (I := fun pre (r : List Cid) _ => r.length = pre.length)
          (fun pre links r _ h => ?_)
          hstart (chunks arity next)
        refine wp_returns_mono (wp_returns_wrapErr (wp_returns_writeLinkBlock r links))
          fun _ _ hr => ?_
        rw [hr, h, List.length_append, List.length_singleton]
      · refine wp_returns_mono (ih next' (offs ++ [w.jb.dataLen])) ?_
        rintro r - ⟨more, hr, hmore⟩
        refine ⟨w.jb.dataLen :: more, by rw [hr, List.append_assoc]; rfl, fun k hk => ?_⟩
        rcases k with _ | k
        · rw [pow_zero] at hk
          omega
        · rw [pow_succ, Nat.mul_comm] at hk
          have := hmore k (hnext'.trans_le (length_chunks_le (by simp [arity]) hk))
          rw [List.length_cons]
          omega
    · exact ⟨[], (List.append_nil _).symm, fun _ _ => Nat.zero_le _⟩

/-! ## Storing them -/

/-- **The head has few layers**, when their offsets are `int64`. -/
def FewLayers (o : Option (Option Head)) : Prop :=
  ∀ h, o = some (some h) → (∀ off ∈ h.layerOffsets, off < 2 ^ 63) → h.layerOffsets.length ≤ 7

omit X in
theorem fewLayers_some {h : Head} : FewLayers (some (some h)) ↔
    ((∀ off ∈ h.layerOffsets, off < 2 ^ 63) → h.layerOffsets.length ≤ 7) :=
  ⟨fun hfew => hfew h rfl, fun hfew h' heq => by
    cases heq
    exact hfew⟩

variable {α β : Type} {m : Op α}

omit X in
/-- A step that leaves the head alone. -/
theorem wp_few_bind {f : α → Op β} {Q : α → Prop} (hm : Grows m) (hw : FewLayers w.disk.head)
    (hret : wp anyFate m (.returns fun a _ => Q a) w)
    (hf : ∀ a t, Q a → FewLayers t.disk.head →
      wp anyFate (f a) (.always fun w' => FewLayers w'.disk.head) t) :
    wp anyFate (m >>= f) (.always fun w' => FewLayers w'.disk.head) w := by
  have hsame : ∀ {t : World}, Grown w t → FewLayers t.disk.head := fun hg => by
    rw [hg.1]
    exact hw
  exact wp_seq (wp_and (hm w) hret) (fun a t h => hf a t h.2 (hsame h.1)) (fun _ _ h => hsame h.1)
    (fun _ h => hsame h.1) fun _ _ h => hsame h.1

omit X in
theorem wp_few_step {f : α → Op β} (hm : Grows m) (hw : FewLayers w.disk.head)
    (hf : ∀ a t, FewLayers t.disk.head →
      wp anyFate (f a) (.always fun w' => FewLayers w'.disk.head) t) :
    wp anyFate (m >>= f) (.always fun w' => FewLayers w'.disk.head) w :=
  wp_few_bind (Q := fun _ => True) hm hw (wp_mono wp_trivial (fun _ _ => id) (fun _ _ => id)
    (fun _ => id) fun _ _ => id) fun a t _ => hf a t

omit X in
/-- The head that is stored has few layers. A write that fails on the way
leaves none at all. -/
theorem wp_mutHead_few {change : Head → Except Err Head} (hw : FewLayers w.disk.head)
    (hchange : ∀ h h', w.disk.head = some (some h) → change h = .ok h' →
      FewLayers (some (some h'))) :
    wp anyFate (mutHead change) (.always fun w' => FewLayers w'.disk.head) w := by
  have hread : wp anyFate readHead (.always fun w' => w' = w) w ∧
      wp anyFate readHead (.returns fun h _ => w.disk.head = some (some h)) w := by
    unfold readHead
    rw [wp_get, wp_get]
    rcases w.jb.head with _ | _ | _
    · exact ⟨rfl, trivial⟩
    · exact ⟨rfl, trivial⟩
    · rcases w.disk.head with _ | _ | h
      · exact ⟨⟨rfl, fun _ _ => rfl, fun _ => rfl⟩, trivial, fun _ _ => trivial, fun _ => trivial⟩
      · exact ⟨⟨rfl, fun _ _ => rfl, fun _ => rfl⟩, trivial, fun _ _ => trivial, fun _ => trivial⟩
      · exact ⟨⟨rfl, fun _ _ => rfl, fun _ => rfl⟩, rfl, fun _ _ => trivial, fun _ => trivial⟩
  unfold mutHead wrapErr
  rw [wp_bind, wp_handle]
  refine wp_mono (wp_and hread.1 hread.2) ?_ (fun _ _ h => h.1 ▸ hw) (fun _ h => h.1 ▸ hw)
    fun _ _ h => h.1 ▸ hw
  rintro h u ⟨rfl, hhead⟩
  dsimp only
  rw [wp_bind, wp_failIf]
  refine ⟨fun _ => hw, fun _ => ?_⟩
  cases hok : change h with
  | error e => exact hw
  | ok h' =>
    have hnew := hchange h h' hhead hok
    have hsync : wp anyFate (do
        wrapErr "head sync" ioRead
        return h : Op Head) (.always fun w' => FewLayers w'.disk.head)
        (modifyDisk (fun d => { d with head := some (some h') }) u) :=
      ⟨hnew, fun _ _ => hnew, fun _ => hnew⟩
    dsimp only
    rw [wp_bind, wp_handle]
    refine ⟨hsync, fun n _ => ?_, fun _ => hw⟩
    change FewLayers (if n = 0 then u.disk else { u.disk with head := some none }).head
    split
    · exact hw
    · exact fun _ h => by cases h

/-- **`genTopCar` stores few layers**, whatever fails in it. -/
theorem wp_genTopCar_few (hw : FewLayers w.disk.head) :
    wp anyFate genTopCar (.always fun w' => FewLayers w'.disk.head) w := by
  unfold genTopCar
  rw [wp_get]
  refine wp_few_step Respects.failIf hw fun _ t ht => ?_
  refine wp_few_step grows_flushBuffered.wrapErr ht fun _ t ht => ?_
  refine wp_few_step grows_dataSync.wrapErr ht fun _ t ht => ?_
  rw [wp_get]
  refine wp_few_step grows_checkResume ht fun _ u hu => ?_
  refine wp_few_step grows_modifyJb hu fun _ u hu => ?_
  -- the first change of the head leaves its layers
  have hend : wp anyFate (wrapErr "updating head, setting data end"
      (mutHead fun h => .ok { h with dataEnd := t.jb.dataLen }))
      (.always fun w' => FewLayers w'.disk.head) u := by
    unfold wrapErr
    rw [wp_handle]
    refine wp_mutHead_few hu fun h h' hhead hok => ?_
    cases hok
    exact fewLayers_some.mpr (hu h hhead)
  refine wp_always_bind hend (fun _ => id) fun _ u hu => ?_
  refine wp_few_bind (grows_iterate fun _ _ => grows_collectLink).wrapErr hu
    (wp_returns_wrapErr wp_returns_iterate) fun links u hlinks hu => ?_
  obtain ⟨n, hn, hlinks⟩ := hlinks
  refine wp_few_bind grows_finishLayer hu (wp_returns_finishLayer hlinks) fun next u hnext hu => ?_
  refine wp_few_bind (grows_genLayers _ _ _) hu (wp_returns_genLayers _ _ _) fun r u hr hu => ?_
  obtain ⟨nextLinks, layerOffsets⟩ := r
  obtain ⟨more, hoffs, hmore⟩ := hr
  rcases nextLinks with _ | ⟨root, _ | ⟨_, _⟩⟩ <;> dsimp only at hoffs ⊢
  · exact hu
  · refine wp_few_step grows_flushBuffered.wrapErr hu fun _ u hu => ?_
    refine wp_few_step grows_dataSync.wrapErr hu fun _ u hu => ?_
    refine wp_few_step grows_updateHeader hu fun first u hu => ?_
    refine wp_few_step grows_lockReadState hu fun _ u hu => ?_
    refine wp_few_step grows_modifyJb hu fun _ u hu => ?_
    rw [wp_get]
    -- the second one stores them
    have hlayers : wp anyFate (mutHead fun h => .ok
        { h with
          layerOffsets := layerOffsets.set 0 first, dataEnd := t.jb.dataLen
          retiredAt := u.jb.dataLen }) (.always fun w' => FewLayers w'.disk.head) u := by
      refine wp_mutHead_few hu fun h h' _ hok => ?_
      cases hok
      refine fewLayers_some.mpr fun h64 => ?_
      -- the second offset is the end of the bottom layer
      have hlt : t.jb.dataLen < 2 ^ 63 := h64 _ (by simp [hoffs])
      have := hmore 5 (by
        norm_num [arity] at hnext ⊢
        omega)
      simp only [hoffs, List.length_set, List.length_append, List.length_cons, List.length_nil]
      omega
    refine wp_always_bind (wp_attempt.mpr hlayers) (fun _ => id) fun r u hu => ?_
    unfold unlockReadState
    rw [wp_bind, wp_get]
    split
    · rcases r with e | x
      · exact hu
      · exact hu
    · exact hu
  · exact hu

end CarLog

/-! ## The file -/

section

variable [C : CborGen]

/-- `ReadAt(headBuf[:], 0)` and `UnmarshalCBOR`, with the errors of either. -/
def decodeFile (short bad : Err) (file : Bytes) : Except Err Head :=
  if file.length < headSize then .error short
  else
    match unmarshalHead (file.take headSize) with
    | none => .error bad
    | some h => .ok h

/-- The head, as `Open` reads it. -/
def openHeadBuf : Bytes → Except Err Head :=
  decodeFile (.wrap "HEAD READ ERROR" .eof) (.text "unmarshal head")

/-- `mutHead`, behind the reading of the head `h`: the head, and the file
it leaves. -/
def storeHead (change : Head → Except Err Head) (file : Bytes) (h : Head) :
    Except Err (Head × Bytes) :=
  if h.valid = false then .error (.text "stored head invalid")
  else do
    let h' ← change h
    match encodeHead h' with
    | none => .error (.text "set head")
    | some b => .ok (h, CarLog.overwrite file 0 b.bytes)

/-- `mutHead`, on the bytes of the file. -/
def mutHeadBuf (change : Head → Except Err Head) (file : Bytes) : Except Err (Head × Bytes) := do
  let h ← decodeFile (.wrap "read head" .eof) (.text "unmarshalling head") file
  storeHead change file h

/-- The head that `Create` stores. -/
def newHead (at_ : ℕ) : Head := { zeroHead with valid := true, retiredAt := at_, dataStart := at_ }

/-- **The record fits**: nothing of it went elsewhere. -/
structure InPlace (h : Head) : Prop where
  encoded : encodeHead h = some ⟨marshalHead h, false⟩
  length : (marshalHead h).length ≤ headSize

/-- **The file holds the head**, however it is read. -/
structure Holds (file : Bytes) (h : Head) : Prop where
  length : file.length = headSize
  decoded : ∀ short bad, decodeFile short bad file = .ok h

variable {h h' h₀ : Head} {file file' : Bytes}

theorem inPlace_of_few (h12 : 12 ≤ C.maxLength) (h64 : h.Int64)
    (hfew : h.layerOffsets.length ≤ 7) : InPlace h := by
  have hle := length_marshalHead_le h64 (by omega)
  refine ⟨encodeHead_eq h64 (by omega) (by omega), hle.trans ?_⟩
  change 274 + 9 * h.layerOffsets.length ≤ 512
  omega

theorem InPlace.length_bytes (hfit : InPlace h) :
    (HeadBuf.bytes ⟨marshalHead h, false⟩).length = headSize := by
  have := hfit.length
  simp only [HeadBuf.bytes, zeros, List.length_append, List.length_replicate]
  omega

theorem InPlace.holds (h12 : 12 ≤ C.maxLength) (h64 : h.Int64) (hfew : h.layerOffsets.length ≤ 7)
    (hfit : InPlace h) : Holds (HeadBuf.bytes ⟨marshalHead h, false⟩) h := by
  refine ⟨hfit.length_bytes, fun short bad => ?_⟩
  unfold decodeFile
  rw [if_neg (by rw [hfit.length_bytes]; omega), List.take_of_length_le hfit.length_bytes.le,
    HeadBuf.bytes, unmarshalHead_marshalHead h12 h64 (by omega) (by omega)]

/-- **What `mutHead` reads is the head that the file holds.** -/
theorem mutHeadBuf_eq (hholds : Holds file h) (change : Head → Except Err Head) :
    mutHeadBuf change file = storeHead change file h := by
  unfold mutHeadBuf
  rw [hholds.decoded]
  rfl

/-- How a mutation goes through. -/
theorem storeHead_ok {change : Head → Except Err Head}
    (hstore : storeHead change file h = .ok (h₀, file')) : h.valid = true ∧ h₀ = h ∧ ∃ h' b,
      change h = .ok h' ∧ encodeHead h' = some b ∧ file' = CarLog.overwrite file 0 b.bytes := by
  unfold storeHead at hstore
  split at hstore
  · cases hstore
  rename_i hvalid
  cases hchange : change h with
  | error e =>
    rw [hchange] at hstore
    cases hstore
  | ok h' =>
    rw [hchange] at hstore
    change (match encodeHead h' with
      | none => _
      | some b => _) = _ at hstore
    split at hstore
    · cases hstore
    · rename_i b hencode
      obtain ⟨hsame, hfile⟩ := Prod.mk.inj (Except.ok.inj hstore)
      exact ⟨by simpa using hvalid, hsame.symm, h', b, rfl, hencode, hfile.symm⟩

/-- **The mutation of the record.** What goes through on the file goes
through in the model, where the head is the record. -/
theorem run_mutHead_of_buf {w : World} {change : Head → Except Err Head} (hholds : Holds file h)
    (hopen : w.jb.head = some true) (hhead : w.disk.head = some (some h))
    (hstore : mutHeadBuf change file = .ok (h₀, file')) : ∃ h', change h = .ok h' ∧
      (CarLog.mutHead change).run w [] =
        .ok h₀ (modifyDisk (fun d => { d with head := some (some h') }) w) := by
  rw [mutHeadBuf_eq hholds] at hstore
  obtain ⟨hvalid, rfl, h', b, hchange, -, -⟩ := storeHead_ok hstore
  refine ⟨h', hchange, ?_⟩
  simp [CarLog.mutHead, CarLog.readHead, CarLog.writeHead, wrapErr, failIf, ioRead, Bind.bind,
    Prog.bind, Prog.handle, Prog.step, Prog.run, hopen, hhead, hvalid, hchange, modifyDisk]
  rfl

/-- The record goes over the whole file. -/
theorem overwrite_bytes (hlen : file.length = headSize) (hfit : InPlace h) :
    CarLog.overwrite file 0 (HeadBuf.bytes ⟨marshalHead h, false⟩) =
      HeadBuf.bytes ⟨marshalHead h, false⟩ := by
  unfold CarLog.overwrite
  rw [List.take_zero, List.nil_append, Nat.zero_add, hfit.length_bytes, ← hlen,
    List.drop_length, List.append_nil, Nat.zero_sub, List.replicate_zero, List.nil_append]

/-! ## Runs -/

variable [X : External]

/-- The offsets are those of a top tree: a run of `genTopCar` stores them in
a head that had none. -/
def TopCarLayers (offs : List ℕ) : Prop :=
  ∃ (w : World) (plan : List Fate) (h h' : Head), w.disk.head = some (some h) ∧
    h.layerOffsets = [] ∧ (CarLog.genTopCar.run w plan).state.disk.head = some (some h') ∧
    h'.layerOffsets = offs

/-- **What `mutHead` is called with**: a closure that leaves the layers as
they are, or stores those of a top tree. -/
def Mutates (change : Head → Except Err Head) : Prop :=
  ∀ h h', change h = .ok h' → h'.layerOffsets = h.layerOffsets ∨ TopCarLayers h'.layerOffsets

/-- **The life of a head file**: it is made, and mutated any number of
times; the head is the one that was stored last. -/
inductive HeadRun : Bytes → Head → Prop
  | create {at_ : ℕ} {b : HeadBuf} : (newHead at_).Int64 → encodeHead (newHead at_) = some b →
      HeadRun b.bytes (newHead at_)
  | mutHead {file : Bytes} {h : Head} {change : Head → Except Err Head} {h₀ : Head} {file' : Bytes}
      {h' : Head} : HeadRun file h → Mutates change → mutHeadBuf change file = .ok (h₀, file') →
      change h₀ = .ok h' → h'.Int64 → HeadRun file' h'

omit C in
theorem TopCarLayers.few {offs : List ℕ} (htop : TopCarLayers offs) (h64 : ∀ o ∈ offs, o < 2 ^ 63) :
    offs.length ≤ 7 := by
  obtain ⟨w, plan, h, h', hhead, hnil, hstored, rfl⟩ := htop
  have hstart : CarLog.FewLayers w.disk.head := by
    rw [hhead]
    refine CarLog.fewLayers_some.mpr fun _ => ?_
    rw [hnil]
    exact Nat.zero_le _
  have hend := (wp_sound (CarLog.wp_genTopCar_few hstart) (within_anyFate plan)).state
  exact hend h' hstored h64

/-- **What holds of a head file all its life.** -/
theorem HeadRun.inv (h12 : 12 ≤ C.maxLength) (hrun : HeadRun file h) :
    InPlace h ∧ Holds file h ∧ h.Int64 ∧ h.layerOffsets.length ≤ 7 := by
  induction hrun with
  | @create at_ b h64 hencode =>
    have hfew : (newHead at_).layerOffsets.length ≤ 7 := Nat.zero_le _
    have hfit := inPlace_of_few h12 h64 hfew
    obtain rfl := Option.some.inj (hencode.symm.trans hfit.encoded)
    exact ⟨hfit, hfit.holds h12 h64 hfew, h64, hfew⟩
  | @mutHead file h change h₀ file' h' _ hmut hstore hchange h64 ih =>
    obtain ⟨-, hholds, -, hfew⟩ := ih
    rw [mutHeadBuf_eq hholds] at hstore
    obtain ⟨-, rfl, g, b, hg, hencode, rfl⟩ := storeHead_ok hstore
    obtain rfl := Except.ok.inj (hg.symm.trans hchange)
    have hfew' : g.layerOffsets.length ≤ 7 := by
      rcases hmut _ _ hchange with hsame | htop
      · rw [hsame]
        exact hfew
      · exact htop.few h64.layerOffsets
    have hfit := inPlace_of_few h12 h64 hfew'
    obtain rfl := Option.some.inj (hencode.symm.trans hfit.encoded)
    rw [overwrite_bytes hholds.length hfit]
    exact ⟨hfit, hfit.holds h12 h64 hfew', h64, hfew'⟩

/-- A mutation of a valid head goes through. -/
theorem HeadRun.store (h12 : 12 ≤ C.maxLength) (hrun : HeadRun file h)
    (change : Head → Except Err Head) (hvalid : h.valid = true) (hmut : Mutates change)
    (hchange : change h = .ok h') (h64 : h'.Int64) :
    HeadRun (HeadBuf.bytes ⟨marshalHead h', false⟩) h' := by
  obtain ⟨-, hholds, -, hfew⟩ := hrun.inv h12
  have hfit : InPlace h' := by
    refine inPlace_of_few h12 h64 ?_
    rcases hmut h h' hchange with hsame | htop
    · rw [hsame]
      exact hfew
    · exact htop.few h64.layerOffsets
  refine hrun.mutHead hmut ?_ hchange h64
  rw [mutHeadBuf_eq hholds, storeHead, if_neg (by simp [hvalid]), hchange]
  change (match encodeHead h' with
    | none => _
    | some b => _) = _
  rw [hfit.encoded]
  change Except.ok (h, CarLog.overwrite file 0 _) = _
  rw [overwrite_bytes hholds.length hfit]

/-- **The head record always fits.** Whatever a run of `genTopCar` stores in
a head that had no layers, wherever it is cut, is encoded in place as long
as its offsets are `int64`; and all along the life of a head file, through
any mutations, the head that was stored last is in place, and is what
`Open` and the next `mutHead` read. -/
theorem head_record_fits (h12 : 12 ≤ C.maxLength) :
    (∀ (w : World) (plan : List Fate) (h h' : Head), w.disk.head = some (some h) →
      h.layerOffsets = [] → (CarLog.genTopCar.run w plan).state.disk.head = some (some h') →
      h'.Int64 → InPlace h') ∧
    ∀ (file : Bytes) (h : Head), HeadRun file h → InPlace h ∧ openHeadBuf file = .ok h ∧
      ∀ change, mutHeadBuf change file = storeHead change file h := by
  refine ⟨fun w plan h h' hhead hnil hstored h64 => ?_, fun file h hrun => ?_⟩
  · have htop : TopCarLayers h'.layerOffsets := ⟨w, plan, h, h', hhead, hnil, hstored, rfl⟩
    exact inPlace_of_few h12 h64 (htop.few h64.layerOffsets)
  · obtain ⟨hfit, hholds, -, -⟩ := hrun.inv h12
    exact ⟨hfit, hholds.decoded _ _, mutHeadBuf_eq hholds⟩

end

section

open Encoding
open scoped Bsst.Encoding

/-- The head of a log of one block, with its top tree. -/
def treeHead : Head :=
  { newHead 59 with readOnly := true, retiredAt := 176, dataEnd := 97, layerOffsets := [59, 97] }

theorem headRun_treeHead : HeadRun (HeadBuf.bytes ⟨marshalHead treeHead, false⟩) treeHead := by
  have h12 : 12 ≤ Bsst.CborGen.maxLength := by decide
  have h64 : (newHead 59).Int64 := ⟨by decide, by decide, by decide, nofun⟩
  have hnew : HeadRun _ (newHead 59) :=
    .create h64 (inPlace_of_few h12 h64 (Nat.zero_le _)).encoded
  have hro : HeadRun _ { newHead 59 with readOnly := true } :=
    hnew.store h12 (fun h => .ok { h with readOnly := true }) rfl
      (fun h h' hok => Or.inl (Except.ok.inj hok ▸ rfl)) rfl
      ⟨by decide, by decide, by decide, nofun⟩
  refine hro.store h12
    (fun h => .ok { h with layerOffsets := [59, 97], dataEnd := 97, retiredAt := 176 }) rfl ?_ rfl
    ⟨by decide, by decide, by decide, by decide⟩
  refine fun h h' hok => Or.inr ?_
  cases hok
  have hstored : (CarLog.genTopCar.run readOnlyLog []).state.disk.head =
      some (some { readOnlyHead with
        retiredAt := 176, dataEnd := 97, layerOffsets := [59, 97] }) := by
    decide +kernel
  exact ⟨readOnlyLog, [], readOnlyHead, _, committed_readOnlyLog.head, rfl, hstored, rfl⟩

/-- The head with the layers of the tree is in place, and read back. -/
theorem head_record_fits_treeHead : InPlace treeHead ∧
    openHeadBuf (HeadBuf.bytes ⟨marshalHead treeHead, false⟩) = .ok treeHead := by
  have hfits := (head_record_fits (by decide)).2 _ _ headRun_treeHead
  exact ⟨hfits.1, hfits.2.1⟩

end

end Carlog

end Ribs
