import Ribs.Carlog.System
import Ribs.Carlog.Contents
import Ribs.Carlog.Encoding
import Ribs.Common.Sim
/-!
# Carlog — the index swap of finalization

A log finalized in place answers from a BSST file made of its LevelDB
index. For multihashes in the index both give the same offsets, and
`View` does the same with either; behind the lookup it never looks at the
index again. For any other multihash `Get` of the BSST file returns 0 and
not the -1 that `View` takes for not found.
-/

namespace Ribs

open Common

namespace Carlog

/-- The world with another index to read from. -/
def withIndex (r : ReadableIndex) (w : World) : World := { w with jb := { w.jb with rIdx := some r } }

namespace CarLog

variable {α : Type} {r : ReadableIndex}

/-! ## What `View` does behind the lookup -/

theorem blind_ioRead : Blind (withIndex r) ioRead := .step fun _ => rfl

theorem blind_wrapErr {s : String} {m : Op α} (hm : Blind (withIndex r) m) :
    Blind (withIndex r) (wrapErr s m) := hm.handle fun _ => .throw

theorem blind_failIf {p : Prop} [Decidable p] {x : Err} : Blind (withIndex r) (failIf p x) :=
  .ite .throw .ret

theorem blind_deref {o : Option α} : Blind (withIndex r) (deref o) := by
  cases o with
  | none => exact .fault
  | some x => exact .ret

theorem blind_openData : Blind (withIndex r) openData := .get fun w => by
  have h : (withIndex r w).jb.data = w.jb.data := rfl
  rw [h]
  cases w.jb.data with
  | none => exact Blind.throw _
  | some f => exact Blind.ite (c := f.isOpen = true) .ret .throw _

theorem appendFile_withIndex (p : Bytes) (w : World) :
    appendFile p (withIndex r w) = withIndex r (appendFile p w) := by
  have h : (withIndex r w).jb.data = w.jb.data := rfl
  rw [appendFile, appendFile, h]
  cases w.jb.data <;> rfl

theorem setBuffered_appendFile (b : BufWriter) (p : Bytes) (w : World) :
    setBuffered b (appendFile p (withIndex r w)) =
      withIndex r (setBuffered b (appendFile p w)) := by
  rw [appendFile_withIndex]
  rfl

theorem blind_writeOut {p : Bytes} {keep : ℕ → Bytes} : Blind (withIndex r) (writeOut p keep) := by
  refine .get fun w => ?_
  have h : (withIndex r w).jb.data = w.jb.data := rfl
  rw [h]
  split
  · exact Blind.io (fun w => setBuffered_appendFile _ _ w) (fun n w => setBuffered_appendFile _ _ w)
      (fun _ => .ite .ret .throw) w
  · exact fun _ => rfl

theorem blind_flush : Blind (withIndex r) flush := .get fun w => by
  have h : (withIndex r w).jb.dataBuffered = w.jb.dataBuffered := rfl
  rw [h]
  rcases w.jb.dataBuffered with _ | ⟨buf, _ | e⟩
  · exact Blind.fault _
  · exact Blind.ite .ret blind_writeOut _
  · exact Blind.throw _

theorem blind_flushBuffered : Blind (withIndex r) flushBuffered := .get fun w =>
  (blind_deref w).bind fun _ => Blind.ite .ret blind_flush

theorem blind_dataReadAt {off n : ℕ} : Blind (withIndex r) (dataReadAt off n) :=
  blind_openData.bind fun _ => blind_ioRead.bind fun _ => .get fun w => by
    have h : blockLog (withIndex r w) = blockLog w := rfl
    rw [h]
    exact Blind.ite .ret .throw _

theorem blind_call {cb : Callback} {x : Call} : Blind (withIndex r) (cb.call x) := by
  have hset : Blind (withIndex r) (.modify fun w => { w with calls := w.calls ++ [x] } : Op Unit) :=
    .modify fun _ => rfl
  unfold Callback.call
  have hret : Blind (withIndex r) (.ret () : Op Unit) := .ret
  have hthrow : ∀ n, Blind (withIndex r) (.throw (.callback n) : Op Unit) := fun _ => .throw
  cases cb x with
  | none => exact hset.bind fun _ => hret
  | some n => exact hset.bind fun _ => hthrow n

theorem blind_modifyJb {f : CarLog → CarLog}
    (hf : ∀ j x, f { j with rIdx := x } = { f j with rIdx := x }) :
    Blind (withIndex r) (modifyJb f) := .modify fun w => by
  change { w with jb := f { w.jb with rIdx := some r } } =
    { w with jb := { f w.jb with rIdx := some r } }
  rw [hf]

theorem blind_pos : Blind (withIndex r) pos := .get fun w => blind_deref w

theorem blind_reach {dataAt : ℕ} {limit : ℤ} : Blind (withIndex r) (reach dataAt limit) :=
  .ite .pure <| blind_pos.bind fun _ => .ite .pure <|
    (blind_wrapErr blind_flushBuffered).bind fun _ => blind_pos.bind fun _ =>
    blind_failIf.bind fun _ => .pure

theorem blind_rLockIdx : Blind (withIndex r) rLockIdx := .get fun w => by
  have h : (withIndex r w).jb.idxLk = w.jb.idxLk := rfl
  rw [h]
  exact Blind.ite .fault (blind_modifyJb fun _ _ => rfl) w

/-- Taking the lock changes nothing else. -/
theorem exec_rLockIdx {w w' : World} {p q : List Fate}
    (h : rLockIdx.exec w p = (.ok () w', q)) :
    w'.jb = { w.jb with idxLk := w'.jb.idxLk } ∧ w'.disk = w.disk := by
  simp only [rLockIdx, Prog.exec] at h
  split at h
  · cases h
  · cases h
    exact ⟨rfl, rfl⟩

theorem blind_rUnlockIdx : Blind (withIndex r) rUnlockIdx := .get fun w => by
  have h : (withIndex r w).jb.idxLk = w.jb.idxLk := rfl
  rw [h]
  exact Blind.ite .fault (blind_modifyJb fun _ _ => rfl) w

theorem blind_withPendingRead {m : Op Unit} (hm : Blind (withIndex r) m) :
    Blind (withIndex r) (withPendingRead m) := by
  refine .bind (blind_modifyJb fun _ _ => rfl) fun _ => blind_rUnlockIdx.bind fun _ => ?_
  exact hm.andThen (blind_modifyJb fun _ _ => rfl)

variable [X : External]

theorem blind_readEntry {readAt : ℕ → ℕ → Op Bytes}
    (h : ∀ off n, Blind (withIndex r) (readAt off n)) {loc : I64} :
    Blind (withIndex r) (readEntry readAt loc) := by
  refine .ite .fault ((blind_wrapErr (h _ _)).bind fun ent => ?_)
  cases X.cidFromBytes ent with
  | none => exact .throw
  | some x => exact .ret

theorem blind_viewAt {cb : Callback} {i dataAt : ℕ} {loc : I64} :
    Blind (withIndex r) (viewAt cb i loc dataAt) := by
  refine .get fun w => Blind.ite (blind_call.bind fun _ => .pure)
    (blind_deref.bind fun lru => ?_) w
  rcases lruGet lru loc with _ | ⟨v, lru'⟩ <;> dsimp only
  · exact blind_reach.bind fun _ => (blind_readEntry fun _ _ => blind_dataReadAt).bind fun _ =>
      blind_call.bind fun _ => .pure
  · exact .bind (blind_modifyJb fun _ _ => rfl) fun _ => blind_call.bind fun _ => .pure

theorem blind_viewLocs {cb : Callback} (locs : List I64) (i dataAt : ℕ) :
    Blind (withIndex r) (viewLocs cb i locs dataAt) := by
  induction locs generalizing i dataAt with
  | nil => exact .ret
  | cons loc locs ih => exact blind_viewAt.bind fun _ => ih _ _

/-! ## The lookup -/

variable {t : Index} {b : Bsst.BSST} {c : List Multihash} {w : World} {j : Journal Index}
  {idx : LevelDBIndex}

/-- Two indexes that return the same offsets, read in one step each. -/
theorem simAt_get (hlevel : w.disk.levelIndex = some j) (hj : j.current = t)
    (hget : b.get c = .ok (c.map fun m => (t[m]?).getD (-1))) :
    SimAt (withIndex r) (attempt ((ReadableIndex.level idx).get c))
      (attempt ((ReadableIndex.bsst b).get c)) w := by
  intro p
  have hcur : (withIndex r w).disk.levelIndex = some j := hlevel
  rcases p with _ | ⟨_ | n | _, p⟩ <;>
    simp only [attempt, ReadableIndex.get, LevelDBIndex.get, LevelDBIndex.contents, BSSTIndex.get,
      BSSTIndex.result, ioRead, Prog.step, Bind.bind, Prog.bind, Prog.handle, Prog.exec, hlevel,
      hget, if_true, Bool.false_eq_true, if_false, id, Outcome.mapState, hj, pure]

/-- **`View` does the same with either index**, when both return the same
offsets. -/
theorem simAt_view (hlevel : w.disk.levelIndex = some j) (hj : j.current = t)
    (hget : b.get c = .ok (c.map fun m => (t[m]?).getD (-1))) (heIdx : w.jb.eIdx = none)
    (hrIdx : w.jb.rIdx = some (.level idx)) (cb : Callback) :
    SimAt (withIndex (.bsst b)) (view c cb) (view c cb) w := by
  refine SimAt.bind_of (blind_rLockIdx w) fun _ w' p q hw' => SimAt.get ?_
  obtain ⟨hjb, hdisk⟩ := exec_rLockIdx hw'
  have h1 : w'.jb.eIdx = none := by rw [hjb]; exact heIdx
  have h2 : w'.jb.rIdx = some (.level idx) := by rw [hjb]; exact hrIdx
  have h3 : (withIndex (.bsst b) w').jb.eIdx = none := h1
  have h4 : (withIndex (.bsst b) w').jb.rIdx = some (.bsst b) := rfl
  rw [h1, h2, h3, h4]
  refine SimAt.bind (simAt_get (hdisk ▸ hlevel) hj hget) fun locs => blind_withPendingRead ?_
  rcases locs with e | locs <;> dsimp only
  · exact .throw
  · exact blind_pos.bind fun _ => blind_viewLocs _ _ _

end CarLog

/-! ## The swap -/

section

variable [X : External]

/-- **The BSST file answers for the queries as the index does**: `Has`,
`Get`, and `View`, which does the same whichever of the two a log reads. -/
structure SameAnswers (t : Index) (b : Bsst.BSST) (c : List Multihash) : Prop where
  has : b.has c = .ok (c.map fun m => t.contains m)
  get : b.get c = .ok (c.map fun m => (t[m]?).getD (-1))
  view : ∀ (w : World) (j : Journal Index) (idx : LevelDBIndex) (cb : Callback) (plan : List Fate),
    w.disk.levelIndex = some j → j.current = t → w.jb.eIdx = none →
    w.jb.rIdx = some (.level idx) →
    (CarLog.view c cb).run (withIndex (.bsst b) w) plan =
      ((CarLog.view c cb).run w plan).mapState (withIndex (.bsst b))

variable {t : Index} {salt : Digest} {c : List Multihash}

/-- What a file made of an index answers: `Has` as the index, and `Get`
with a 0 where there is nothing. -/
theorem createOpen_answers (hsize : t.size < 2 ^ 40)
    (hok : Bsst.KeysOk salt t.size (LevelDBIndex.source t) c) :
    ∃ b, Bsst.createOpen salt t.size (LevelDBIndex.source t) = .ok b ∧
      b.has c = .ok (c.map fun m => t.contains m) ∧
      b.get c = .ok (c.map fun m => (t[m]?).getD 0) := by
  obtain ⟨levels, body, hbuckets, hfits, hfind⟩ := Bsst.buckets_find (n := t.size)
    (by rw [LevelDBIndex.source_eq_nil]; omega) hsize
    (by rw [LevelDBIndex.length_entries_source]; omega) hok
  have hans := Bsst.BSST.has_get_eq (hfind (Bsst.createSample (LevelDBIndex.source t)))
  simp only [LevelDBIndex.stored_source, ← Std.TreeMap.contains_eq_isSome_getElem?] at hans
  exact ⟨_, Bsst.createOpen_eq hbuckets hfits, hans.1, hans.2⟩

/-- **The swap preserves the answers exactly for multihashes in the
index.** The file of the index can be made; it answers every `Has` as the
index does, and everything else exactly when all that is asked for is in
the index. -/
theorem createOpen_sameAnswers_iff (hsize : t.size < 2 ^ 40)
    (hok : Bsst.KeysOk salt t.size (LevelDBIndex.source t) c) :
    ∃ b, Bsst.createOpen salt t.size (LevelDBIndex.source t) = .ok b ∧
      b.has c = .ok (c.map fun m => t.contains m) ∧
      (SameAnswers t b c ↔ ∀ m ∈ c, m ∈ t) := by
  obtain ⟨b, hb, hhas, hget⟩ := createOpen_answers hsize hok
  refine ⟨b, hb, hhas, fun h m hm => ?_, fun h => ?_⟩
  · have hget' := h.get
    rw [hget] at hget'
    have hm' := (List.map_inj_left.mp (Except.ok.inj hget')) m hm
    rw [Std.TreeMap.mem_iff_isSome_getElem?]
    cases hv : t[m]? with
    | none => rw [hv] at hm'; simp at hm'
    | some v => rfl
  · have hfound : ∀ m ∈ c, (t[m]?).getD 0 = (t[m]?).getD (-1) := fun m hm => by
      obtain ⟨v, hv⟩ := Option.isSome_iff_exists.mp
        (Std.TreeMap.mem_iff_isSome_getElem?.mp (h m hm))
      rw [hv]
      rfl
    have hsame := hget.trans (congrArg Except.ok (List.map_inj_left.mpr hfound))
    exact ⟨hhas, hsame, fun w j idx cb plan hlevel hj heIdx hrIdx =>
      (CarLog.simAt_view hlevel hj hsame heIdx hrIdx cb).run plan⟩

end

section

open Encoding
open scoped Bsst.Encoding

/-- An index of one entry. -/
def oneEntry : Index := (∅ : Index).insert (0x12 :: 0x20 :: sha256 [0]) 7

theorem source_oneEntry : oneEntry.size = 1 ∧
    LevelDBIndex.source oneEntry = [(0x12 :: 0x20 :: sha256 [0], [7])] := by decide +kernel

theorem keysOk_oneEntry :
    Bsst.KeysOk Bsst.zeroSalt oneEntry.size (LevelDBIndex.source oneEntry) Bsst.twoHashes := by
  rw [source_oneEntry.1, source_oneEntry.2]
  exact Bsst.keysOk_twoHashes

/-- One of the two multihashes is not in the index, and the answers differ. -/
theorem sameAnswers_twoHashes : ∃ b,
    Bsst.createOpen Bsst.zeroSalt oneEntry.size (LevelDBIndex.source oneEntry) = .ok b ∧
      ¬ SameAnswers oneEntry b Bsst.twoHashes := by
  obtain ⟨b, hb, -, hiff⟩ := createOpen_sameAnswers_iff (by rw [source_oneEntry.1]; norm_num)
    keysOk_oneEntry
  exact ⟨b, hb, fun h => absurd (hiff.mp h) (by decide +kernel)⟩

/-- **A multihash that is not in the index**: `Get` of the index returns -1
for it, and `Get` of the file made of the index 0. -/
theorem get_absent_differs : ∃ b,
    Bsst.createOpen Bsst.zeroSalt oneEntry.size (LevelDBIndex.source oneEntry) = .ok b ∧
      Bsst.twoHashes.map (fun m => (oneEntry[m]?).getD (-1)) = [7, -1] ∧
      b.get Bsst.twoHashes = .ok [7, 0] ∧ ¬ SameAnswers oneEntry b Bsst.twoHashes := by
  obtain ⟨b, hb, -, hget⟩ := createOpen_answers (by rw [source_oneEntry.1]; norm_num)
    keysOk_oneEntry
  have hzero : Bsst.twoHashes.map (fun m => (oneEntry[m]?).getD 0) = [7, 0] := by decide +kernel
  have hmissing : Bsst.twoHashes.map (fun m => (oneEntry[m]?).getD (-1)) = [7, -1] := by
    decide +kernel
  rw [hzero] at hget
  refine ⟨b, hb, hmissing, hget, fun h => ?_⟩
  have := h.get
  rw [hmissing, hget] at this
  exact absurd this (by decide)

end

end Carlog

end Ribs
