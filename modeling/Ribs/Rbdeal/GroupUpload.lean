import Mathlib.Data.List.Sort
import Mathlib.Data.List.Perm.Basic
import Ribs.Common.Runs
import Ribs.Common.Uvarint
/-!
# Rbdeal — uploading group data in parts

`uploadGroupData` cuts a stream into parts and uploads them in parallel. A
part is handed over only once the next one was read, so that a tail which
is too short for a part of its own still finds one to be put behind. Each
upload is tried six times; the parts that made it are put in order, and
the object is completed of them.
-/

namespace Ribs

open Common

namespace Rbdeal

def minPartSize : ℕ := 8 * 2 ^ 20

def maxParallel : ℕ := 4

def maxRetries : ℕ := 6

/-! ## The source -/

inductive ReadErr where
  | eof
  | unexpectedEOF
  | other
deriving DecidableEq

/-- A stream: what its reads give, in chunks, and the error behind them. An
error that comes with the last bytes comes again with the next read. -/
structure Source where
  chunks : List Bytes
  err : ReadErr

/-- The reads of `io.ReadAtLeast`, until `k` bytes are there: the bytes, the
error, and what is left. -/
def readLoop (err : ReadErr) : List Bytes → ℕ → Bytes × Option ReadErr × List Bytes
  | [], k => ([], if k = 0 then none else some err, [])
  | c :: cs, k =>
    if k < c.length then (c.take k, none, c.drop k :: cs)
    else if k = c.length then (c, none, cs)
    else
      let r := readLoop err cs (k - c.length)
      (c ++ r.1, r.2)

/-- `io.ReadFull`, of `k` bytes. -/
def Source.readFull (k : ℕ) (src : Source) : (Bytes × Option ReadErr) × Source :=
  let r := readLoop src.err src.chunks k
  let err :=
    if k ≤ r.1.length then none
    else if 0 < r.1.length ∧ r.2.1 = some .eof then some .unexpectedEOF
    else r.2.1
  ((r.1, err), { src with chunks := r.2.2 })

/-! ## The upload -/

/-- `s3.CompletedPart`; the body stands for its tag. -/
structure CompletedPart where
  partNumber : ℕ
  body : Bytes
deriving DecidableEq

/-- A goroutine that uploads a part, at its attempt `i`. -/
structure PartUpload where
  part : Bytes
  partNumber : ℕ
  i : ℕ
deriving DecidableEq

inductive UploadErr where
  | create
  | read
  | parts
  | complete
deriving DecidableEq

inductive Phase where
  | creating
  | reading
  /-- At the end, with so many slots of the throttle taken. -/
  | waiting (i : ℕ)
  | returned (err : Option UploadErr)
deriving DecidableEq

/-- **A call of `uploadGroupData`**, and the object it completes. -/
structure GroupUpload where
  src : Source
  curPart : Bytes
  partNumber : ℕ
  /-- The slots of the throttle that are taken. -/
  throttle : ℕ
  uploads : List PartUpload
  completedParts : List CompletedPart
  /-- The parts of the errors. -/
  errors : List ℕ
  phase : Phase
  object : Option (List CompletedPart)

namespace GroupUpload

/-- The call, of a source. -/
def start (src : Source) : GroupUpload := ⟨src, [], 1, 0, [], [], [], .creating, none⟩

/-- The first part is read. -/
def readFirst (partSize : ℕ) (u : GroupUpload) : GroupUpload :=
  match u.src.readFull partSize with
  | ((_, some .other), _) => { u with phase := .returned (some .read) }
  | ((part, _), src) => { u with src := src, curPart := part, phase := .reading }

/-- A tail that is too short is put behind the part before it. -/
def merge (curPart nextPart : Bytes) : Bytes × Bytes :=
  if nextPart.length < minPartSize ∧ 0 < nextPart.length then (curPart ++ nextPart, [])
  else (curPart, nextPart)

/-- A goroutine is started on `part`, if the throttle has a slot; the call
waits at it else. -/
def startPart (src : Source) (part nextPart : Bytes) (u : GroupUpload) : GroupUpload :=
  if u.throttle < maxParallel then
    { u with
      src := src
      throttle := u.throttle + 1
      uploads := u.uploads ++ [⟨part, u.partNumber, 0⟩]
      curPart := nextPart
      partNumber := u.partNumber + 1 }
  else u

/-- The loop over the parts. -/
def readNext (partSize : ℕ) (u : GroupUpload) : GroupUpload :=
  if u.curPart = [] then { u with phase := .waiting 0 }
  else
    match u.src.readFull partSize with
    | ((_, some .other), _) => { u with phase := .returned (some .read) }
    | ((nextPart, _), src) =>
      u.startPart src (merge u.curPart nextPart).1 (merge u.curPart nextPart).2

/-- The parts in order. -/
def sortedParts (parts : List CompletedPart) : List CompletedPart :=
  parts.insertionSort fun p q => p.partNumber ≤ q.partNumber

/-- All goroutines are done: `CompleteMultipartUpload`, if no part failed. -/
def finish (ok : Bool) (u : GroupUpload) : GroupUpload :=
  if u.errors ≠ [] then { u with phase := .returned (some .parts) }
  else if ok then
    { u with object := some (sortedParts u.completedParts), phase := .returned none }
  else { u with phase := .returned (some .complete) }

/-- What the call itself does next; `ok` is of a request it makes. -/
def mainStep (partSize : ℕ) (ok : Bool) (u : GroupUpload) : GroupUpload :=
  match u.phase with
  | .creating => if ok then u.readFirst partSize else { u with phase := .returned (some .create) }
  | .reading => u.readNext partSize
  | .waiting i =>
    if i < maxParallel then
      -- all slots taken means that no goroutine is left
      if u.throttle < maxParallel then
        { u with throttle := u.throttle + 1, phase := .waiting (i + 1) }
      else u
    else u.finish ok
  | .returned _ => u

/-- An attempt of the `j`-th goroutine ends. -/
def partStep (j : ℕ) (ok : Bool) (u : GroupUpload) : GroupUpload :=
  match u.uploads[j]? with
  | none => u
  | some r =>
    if ok then
      { u with
        completedParts := u.completedParts ++ [⟨r.partNumber, r.part⟩]
        uploads := u.uploads.eraseIdx j
        throttle := u.throttle - 1 }
    -- the last attempt: the error goes into the list
    else if r.i = maxRetries - 1 then
      { u with
        errors := u.errors ++ [r.partNumber]
        uploads := u.uploads.eraseIdx j
        throttle := u.throttle - 1 }
    else { u with uploads := u.uploads.set j { r with i := r.i + 1 } }

/-- A step of the call, or of one of its goroutines. -/
inductive Event where
  | main (ok : Bool)
  | part (j : ℕ) (ok : Bool)

def next (partSize : ℕ) (u : GroupUpload) : Event → GroupUpload
  | .main ok => u.mainStep partSize ok
  | .part j ok => u.partStep j ok

end GroupUpload

/-! ## Reading full parts -/

/-- What the source has. -/
def Source.bytes (src : Source) : Bytes := src.chunks.flatten

theorem readLoop_append (err : ReadErr) : ∀ (cs : List Bytes) (k : ℕ),
    (readLoop err cs k).1 ++ (readLoop err cs k).2.2.flatten = cs.flatten := by
  intro cs
  induction cs with
  | nil => exact fun _ => rfl
  | cons c cs ih =>
    intro k
    unfold readLoop
    split_ifs with hlt heq
    · rw [List.flatten_cons, ← List.append_assoc, List.take_append_drop, List.flatten_cons]
    · rw [List.flatten_cons]
    · dsimp only
      rw [List.append_assoc, ih, List.flatten_cons]

/-- Reads stop with all that was asked for, or at the end. -/
theorem readLoop_ends (err : ReadErr) : ∀ (cs : List Bytes) (k : ℕ),
    (readLoop err cs k).1.length = k ∧ (readLoop err cs k).2.1 = none ∨
      (readLoop err cs k).1.length < k ∧ (readLoop err cs k).2 = (some err, []) := by
  intro cs
  induction cs with
  | nil =>
    intro k
    unfold readLoop
    split_ifs with hk
    · exact Or.inl ⟨hk.symm, rfl⟩
    · exact Or.inr ⟨Nat.pos_of_ne_zero hk, rfl⟩
  | cons c cs ih =>
    intro k
    unfold readLoop
    split_ifs with hlt heq
    · exact Or.inl ⟨by rw [List.length_take]; omega, rfl⟩
    · exact Or.inl ⟨heq.symm, rfl⟩
    · dsimp only
      rw [List.length_append]
      rcases ih (k - c.length) with ⟨hlen, hnone⟩ | ⟨hlen, hend⟩
      · exact Or.inl ⟨by omega, hnone⟩
      · exact Or.inr ⟨by omega, hend⟩

/-- How a full read ends: with a full part, or with the source. -/
inductive ReadEnds (k : ℕ) (src : Source) (bs : Bytes) (err : Option ReadErr) (src' : Source) :
    Prop where
  | full (hlen : bs.length = k) (hnone : err = none)
  | short (hlen : bs.length < k) (hend : src'.bytes = [])
      (herr : err ≠ none) (hother : err = some .other ↔ src.err = .other)

/-- **`io.ReadFull`** takes what it returns off the source. -/
theorem readFull_spec {k : ℕ} {src src' : Source} {bs : Bytes} {err : Option ReadErr}
    (h : src.readFull k = ((bs, err), src')) :
    bs ++ src'.bytes = src.bytes ∧ src'.err = src.err ∧ ReadEnds k src bs err src' := by
  unfold Source.readFull at h
  dsimp only at h
  have happ := readLoop_append src.err src.chunks k
  have hends := readLoop_ends src.err src.chunks k
  generalize readLoop src.err src.chunks k = r at h happ hends
  obtain ⟨hfst, rfl⟩ := Prod.mk.inj h
  obtain ⟨rfl, rfl⟩ := Prod.mk.inj hfst
  refine ⟨happ, rfl, ?_⟩
  rcases hends with ⟨hlen, -⟩ | ⟨hlen, hend⟩
  · exact ReadEnds.full hlen (if_pos (le_of_eq hlen.symm))
  · rw [if_neg (by omega)]
    refine ReadEnds.short hlen ?_ ?_ ?_
    · change r.2.2.flatten = []
      rw [hend]
      rfl
    · rw [hend]
      split_ifs <;> exact nofun
    · rw [hend]
      split_ifs with heof
      · have := Option.some.inj heof.2
        rw [this]
        exact iff_of_false nofun nofun
      · exact Option.some_inj

/-! ## What an upload keeps -/

/-- The parts of some bodies. -/
def numbered (bodies : List Bytes) : List CompletedPart := bodies.mapIdx fun i b => ⟨i + 1, b⟩

/-- The part that a goroutine uploads. -/
def PartUpload.completed (r : PartUpload) : CompletedPart := ⟨r.partNumber, r.part⟩

namespace GroupUpload

variable {partSize : ℕ} {src src' : Source} {u : GroupUpload} {started : List Bytes}

/-- What was started, what is to be uploaded next, and what is left. -/
structure Cut (partSize : ℕ) (src : Source) (started : List Bytes) (curPart : Bytes)
    (rest : Source) : Prop where
  whole : started.flatten ++ (curPart ++ rest.bytes) = src.bytes
  err : rest.err = src.err
  /-- A part that is not full is behind the end. -/
  ended : curPart.length < partSize → rest.bytes = [] ∧ src.err ≠ .other
  cur : curPart = [] ∨ minPartSize ≤ curPart.length ∨ started = []
  big : (∀ b ∈ started, minPartSize ≤ b.length) ∨ started.length = 1 ∧ curPart = []

/-- The first part. -/
theorem cut_first {part : Bytes} {err : Option ReadErr}
    (h : src.readFull partSize = ((part, err), src')) (herr : err ≠ some .other) :
    Cut partSize src [] part src' := by
  obtain ⟨happ, hsrc, hends⟩ := readFull_spec h
  refine ⟨happ, hsrc, fun hlt => ?_, Or.inr (Or.inr rfl), Or.inl fun _ hb => ?_⟩
  · cases hends with
    | full hlen => exact absurd hlen (by omega)
    | short _ hend _ hother => exact ⟨hend, fun h => herr (hother.mpr h)⟩
  · exact absurd hb List.not_mem_nil

/-- **The next part**: it is only handed over once the one behind it was
read, and a short one behind it is its own end. -/
theorem Cut.next {rest : Source} {curPart nextPart : Bytes} {err : Option ReadErr}
    (hc : Cut partSize src started curPart rest) (hsize : minPartSize ≤ partSize)
    (hne : curPart ≠ []) (h : rest.readFull partSize = ((nextPart, err), src'))
    (herr : err ≠ some .other) :
    Cut partSize src (started ++ [(merge curPart nextPart).1]) (merge curPart nextPart).2 src' := by
  obtain ⟨happ, hsrc, hends⟩ := readFull_spec h
  have hmin : ∀ b ∈ started, minPartSize ≤ b.length := by
    rcases hc.big with hbig | ⟨-, hnil⟩
    · exact hbig
    · exact absurd hnil hne
  -- a short read ends the source, and not with an error
  have hended : nextPart.length < partSize → src'.bytes = [] ∧ src.err ≠ .other := by
    intro hlt
    cases hends with
    | full hlen => exact absurd hlen (by omega)
    | short _ hend _ hother =>
      exact ⟨hend, fun h => herr (hother.mpr (hc.err.trans h))⟩
  -- a first part that is too short is all there is
  have hcur : minPartSize ≤ curPart.length ∨ started = [] ∧ nextPart = [] := by
    by_cases hlen : minPartSize ≤ curPart.length
    · exact Or.inl hlen
    · have hstarted : started = [] := by
        rcases hc.cur with hnil | hge | hs
        · exact absurd hnil hne
        · exact absurd hge hlen
        · exact hs
      have hnil := (hc.ended (by omega)).1
      rw [hnil] at happ
      exact Or.inr ⟨hstarted, (List.append_eq_nil_iff.mp happ).1⟩
  have hbig : ∀ part : Bytes, minPartSize ≤ part.length →
      ∀ b ∈ started ++ [part], minPartSize ≤ b.length := by
    intro part hpart b hb
    rcases List.mem_append.mp hb with hb | hb
    · exact hmin b hb
    · rw [List.mem_singleton.mp hb]
      exact hpart
  unfold merge
  split_ifs with hmerge
  · -- the tail goes behind this part
    have hlen : minPartSize ≤ curPart.length := by
      rcases hcur with hge | ⟨-, hnil⟩
      · exact hge
      · rw [hnil] at hmerge
        exact absurd hmerge.2 (Nat.lt_irrefl 0)
    obtain ⟨hnil, hok⟩ := hended (by omega)
    refine ⟨?_, hsrc.trans hc.err, fun _ => ⟨hnil, hok⟩, Or.inl rfl, Or.inl (hbig _ ?_)⟩
    · rw [List.flatten_append, List.flatten_singleton, List.nil_append, List.append_assoc,
        List.append_assoc, happ]
      exact hc.whole
    · rw [List.length_append]
      omega
  -- this part goes out as it is, and what was read is the next one
  · refine ⟨?_, hsrc.trans hc.err, hended, ?_, ?_⟩
    · rw [List.flatten_append, List.flatten_singleton, List.append_assoc, happ]
      exact hc.whole
    · rcases Nat.eq_zero_or_pos nextPart.length with hz | hpos
      · exact Or.inl (List.length_eq_zero_iff.mp hz)
      · exact Or.inr (Or.inl (Nat.not_lt.mp fun hlt => hmerge ⟨hlt, hpos⟩))
    · rcases hcur with hge | ⟨hstarted, hnil⟩
      · exact Or.inl (hbig _ hge)
      · refine Or.inr ⟨?_, hnil⟩
        rw [hstarted]
        rfl

/-- The goroutines: each has a slot, and every part was given to one. -/
structure Given (started : List Bytes) (taken : ℕ) (u : GroupUpload) : Prop where
  partNumber : u.partNumber = started.length + 1
  throttle : u.throttle = u.uploads.length + taken
  parallel : u.throttle ≤ maxParallel
  /-- Unless one failed. -/
  parts : u.errors = [] →
    (u.completedParts ++ u.uploads.map PartUpload.completed).Perm (numbered started)

/-- **The parts make up the source**: numbered from 1 on, none too short
but a single one. -/
structure Preserves (src : Source) (parts : List CompletedPart) : Prop where
  numbers : parts.map CompletedPart.partNumber = List.range' 1 parts.length
  bodies : (parts.map CompletedPart.body).flatten = src.bytes
  big : ∀ p ∈ parts.dropLast, minPartSize ≤ p.body.length
  last : 1 < parts.length → ∀ p ∈ parts.getLast?, minPartSize ≤ p.body.length

/-- Where a call is, and what holds there. -/
def Stage (partSize : ℕ) (src : Source) (u : GroupUpload) : Prop :=
  match u.phase with
  | .creating => u = start src
  | .reading => ∃ started, Cut partSize src started u.curPart u.src ∧ Given started 0 u
  | .waiting i => i ≤ maxParallel ∧
      ∃ started, Cut partSize src started [] u.src ∧ u.curPart = [] ∧ Given started i u
  | .returned none => src.err ≠ .other ∧ ∃ parts, u.object = some parts ∧ Preserves src parts
  | .returned (some _) => True

/-- **The invariant of an upload.** -/
structure Inv (partSize : ℕ) (src : Source) (u : GroupUpload) : Prop where
  stage : Stage partSize src u
  attempts : ∀ r ∈ u.uploads, r.i < maxRetries

theorem numbered_append {bodies : List Bytes} {b : Bytes} :
    numbered (bodies ++ [b]) = numbered bodies ++ [⟨bodies.length + 1, b⟩] := List.mapIdx_concat

@[simp] theorem length_numbered {bodies : List Bytes} :
    (numbered bodies).length = bodies.length := List.length_mapIdx

theorem getElem_numbered {bodies : List Bytes} {i : ℕ} (hi : i < (numbered bodies).length) :
    (numbered bodies)[i] = ⟨i + 1, bodies.get ⟨i, by simpa using hi⟩⟩ := List.getElem_mapIdx

theorem numbered_pairwise (bodies : List Bytes) :
    (numbered bodies).Pairwise fun p q => p.partNumber < q.partNumber := by
  rw [List.pairwise_iff_getElem]
  intro i j hi hj hij
  rw [getElem_numbered, getElem_numbered]
  exact Nat.succ_lt_succ hij

/-- Sorted, the parts are as they were started. -/
theorem sortedParts_eq {parts : List CompletedPart} {bodies : List Bytes}
    (h : parts.Perm (numbered bodies)) : sortedParts parts = numbered bodies := by
  have hperm : (sortedParts parts).Perm (numbered bodies) :=
    (List.perm_insertionSort _ _).trans h
  have hlt := numbered_pairwise bodies
  refine List.Perm.eq_of_pairwise
    ?_ (List.pairwise_insertionSort _ _) (hlt.imp Nat.le_of_lt) hperm
  intro p q hp hq hpq hqp
  -- two parts of one number are one part
  rw [hperm.mem_iff] at hp
  obtain ⟨i, hi, rfl⟩ := List.mem_iff_getElem.mp hp
  obtain ⟨j, hj, rfl⟩ := List.mem_iff_getElem.mp hq
  rw [List.pairwise_iff_getElem] at hlt
  rcases Nat.lt_trichotomy i j with hij | hij | hij
  · exact absurd (hlt i j hi hj hij) (Nat.not_lt.mpr hqp)
  · subst hij
    rfl
  · exact absurd (hlt j i hj hi hij) (Nat.not_lt.mpr hpq)

theorem numbered_bodies (bodies : List Bytes) :
    (numbered bodies).map CompletedPart.body = bodies := by
  refine List.ext_getElem (by rw [List.length_map, length_numbered]) fun i hi hi' => ?_
  rw [List.getElem_map, getElem_numbered]
  exact List.get_eq_getElem ..

theorem numbered_numbers (bodies : List Bytes) :
    (numbered bodies).map CompletedPart.partNumber = List.range' 1 (numbered bodies).length := by
  refine List.ext_getElem (by rw [List.length_map, List.length_range']) fun i hi hi' => ?_
  rw [List.getElem_map, List.getElem_range', getElem_numbered]
  change i + 1 = _
  omega

/-- A cut with nothing left makes up the source. -/
theorem Cut.preserves {rest : Source} (hsize : 0 < partSize)
    (hc : Cut partSize src started [] rest) :
    src.err ≠ .other ∧ Preserves src (numbered started) := by
  obtain ⟨hnil, hok⟩ := hc.ended hsize
  have hwhole := hc.whole
  rw [hnil, List.append_nil, List.append_nil] at hwhole
  have hmem : ∀ p ∈ numbered started, p.body ∈ started := by
    intro p hp
    have := List.mem_map_of_mem (f := CompletedPart.body) hp
    rwa [numbered_bodies] at this
  refine ⟨hok, numbered_numbers started, by rw [numbered_bodies, hwhole], ?_, ?_⟩
  · intro p hp
    rcases hc.big with hbig | ⟨hone, -⟩
    · exact hbig _ (hmem p ((List.dropLast_sublist _).subset hp))
    · have hlen := List.length_pos_of_mem hp
      rw [List.length_dropLast, length_numbered] at hlen
      omega
  · intro hlt p hp
    rcases hc.big with hbig | ⟨hone, -⟩
    · exact hbig _ (hmem p (List.mem_of_mem_getLast? hp))
    · rw [length_numbered] at hlt
      omega

/-! ## The steps -/

/-- A goroutine that ends gives back its slot. -/
theorem Given.ended {taken j : ℕ} {r : PartUpload} {completed : List CompletedPart}
    {errors : List ℕ} (hg : Given started taken u) (hr : u.uploads[j]? = some r)
    (hdone : errors = [] → u.errors = [] ∧ completed = u.completedParts ++ [r.completed]) :
    Given started taken { u with
      completedParts := completed
      errors := errors
      uploads := u.uploads.eraseIdx j
      throttle := u.throttle - 1 } := by
  obtain ⟨hj, hget⟩ := List.getElem?_eq_some_iff.mp hr
  have hthrottle := hg.throttle
  have hparallel := hg.parallel
  refine ⟨hg.partNumber, ?_, Nat.le_trans (Nat.sub_le _ _) hparallel, fun herr => ?_⟩
  · change u.throttle - 1 = (u.uploads.eraseIdx j).length + taken
    rw [List.length_eraseIdx_of_lt hj]
    omega
  · obtain ⟨hnone, rfl⟩ := hdone herr
    refine List.Perm.trans ?_ (hg.parts hnone)
    have hperm := (List.getElem_cons_eraseIdx_perm hj).map PartUpload.completed
    rw [List.map_cons, hget] at hperm
    rw [List.append_assoc, List.singleton_append]
    exact hperm.append_left _

/-- One that tries again keeps it. -/
theorem Given.again {taken j : ℕ} {r : PartUpload} (hg : Given started taken u)
    (hr : u.uploads[j]? = some r) :
    Given started taken { u with uploads := u.uploads.set j { r with i := r.i + 1 } } := by
  obtain ⟨hj, hget⟩ := List.getElem?_eq_some_iff.mp hr
  refine ⟨hg.partNumber, ?_, hg.parallel, fun herr => ?_⟩
  · change u.throttle = (u.uploads.set j _).length + taken
    rw [List.length_set]
    exact hg.throttle
  · refine List.Perm.trans (List.Perm.append_left _ ?_) (hg.parts herr)
    have hset := (List.set_perm_cons_eraseIdx hj { r with i := r.i + 1 }).map PartUpload.completed
    have hget' := (List.getElem_cons_eraseIdx_perm hj).map PartUpload.completed
    rw [List.map_cons, hget] at hget'
    exact hset.trans hget'

/-- What a step of a goroutine changes. -/
structure PartChange (u u' : GroupUpload) : Prop where
  src : u'.src = u.src
  curPart : u'.curPart = u.curPart
  phase : u'.phase = u.phase
  object : u'.object = u.object
  given : ∀ started taken, Given started taken u → Given started taken u'

theorem partStep_change (u : GroupUpload) (j : ℕ) (ok : Bool) : PartChange u (u.partStep j ok) := by
  unfold partStep
  split
  · exact ⟨rfl, rfl, rfl, rfl, fun _ _ => id⟩
  next r hr =>
    split_ifs
    · exact ⟨rfl, rfl, rfl, rfl, fun _ _ hg => hg.ended hr fun h => ⟨h, rfl⟩⟩
    · refine ⟨rfl, rfl, rfl, rfl, fun _ _ hg => hg.ended hr fun h => ?_⟩
      exact absurd h (List.append_ne_nil_of_right_ne_nil _ (List.cons_ne_nil _ _))
    · exact ⟨rfl, rfl, rfl, rfl, fun _ _ hg => hg.again hr⟩

theorem partStep_inv {j : ℕ} {ok : Bool} (h : Inv partSize src u) :
    Inv partSize src (u.partStep j ok) := by
  have hc := partStep_change u j ok
  refine ⟨?_, ?_⟩
  · have hstage := h.stage
    unfold Stage at hstage ⊢
    rw [hc.phase]
    cases hphase : u.phase with
    | creating =>
      simp only [hphase] at hstage ⊢
      subst hstage
      rfl
    | reading =>
      simp only [hphase] at hstage ⊢
      obtain ⟨started, hcut, hg⟩ := hstage
      rw [hc.src, hc.curPart]
      exact ⟨started, hcut, hc.given _ _ hg⟩
    | waiting i =>
      simp only [hphase] at hstage ⊢
      obtain ⟨hi, started, hcut, hcur, hg⟩ := hstage
      rw [hc.src, hc.curPart]
      exact ⟨hi, started, hcut, hcur, hc.given _ _ hg⟩
    | returned err =>
      cases err with
      | none =>
        simp only [hphase] at hstage ⊢
        rw [hc.object]
        exact hstage
      | some err => trivial
  · intro r hr
    unfold partStep at hr
    split at hr
    · exact h.attempts r hr
    next r' hr' =>
      have hi := h.attempts r' (List.mem_of_getElem? hr')
      split_ifs at hr with hok hlast
      · exact h.attempts r (List.mem_of_mem_eraseIdx hr)
      · exact h.attempts r (List.mem_of_mem_eraseIdx hr)
      · rcases List.mem_or_eq_of_mem_set hr with hr | rfl
        · exact h.attempts r hr
        · change r'.i + 1 < maxRetries
          omega

/-- Where the phase is known, so is the stage. -/
theorem stage_reading {u' : GroupUpload} (hphase : u'.phase = .reading)
    (hc : Cut partSize src started u'.curPart u'.src) (hg : Given started 0 u') :
    Stage partSize src u' := by
  unfold Stage
  rw [hphase]
  exact ⟨started, hc, hg⟩

theorem stage_failed {u' : GroupUpload} {err : UploadErr}
    (hphase : u'.phase = .returned (some err)) : Stage partSize src u' := by
  unfold Stage
  rw [hphase]
  trivial

theorem readFirst_stage : Stage partSize src ((start src).readFirst partSize) := by
  unfold readFirst
  split
  · exact stage_failed rfl
  next err src' hother hread =>
    refine stage_reading rfl (cut_first hread hother) ⟨rfl, rfl, ?_, ?_⟩
    · exact Nat.zero_le _
    · exact fun _ => List.Perm.refl _

theorem readNext_stage (hsize : minPartSize ≤ partSize) (hphase : u.phase = .reading)
    (hc : Cut partSize src started u.curPart u.src) (hg : Given started 0 u) :
    Stage partSize src (u.readNext partSize) := by
  unfold readNext
  split_ifs with hnil
  · rw [hnil] at hc
    exact ⟨Nat.zero_le _, started, hc, hnil, hg.partNumber, hg.throttle, hg.parallel, hg.parts⟩
  · split
    · exact stage_failed rfl
    next err src' hother hread =>
      have hc' := hc.next hsize hnil hread hother
      unfold startPart
      split_ifs with hslot
      · refine stage_reading hphase hc' ⟨?_, ?_, hslot, fun herr => ?_⟩
        · change u.partNumber + 1 = (started ++ [_]).length + 1
          rw [List.length_append, hg.partNumber]
          rfl
        · have hthrottle := hg.throttle
          change u.throttle + 1 = (u.uploads ++ [_]).length + 0
          rw [List.length_append, List.length_singleton]
          omega
        · change (u.completedParts ++ (u.uploads ++ [_]).map PartUpload.completed).Perm _
          rw [numbered_append, List.map_append, ← List.append_assoc, ← hg.partNumber]
          exact (hg.parts herr).append_right _
      · exact stage_reading hphase hc hg

theorem finish_stage {ok : Bool} (hsize : minPartSize ≤ partSize)
    (hc : Cut partSize src started [] u.src) (hg : Given started maxParallel u) :
    Stage partSize src (u.finish ok) := by
  unfold finish
  split_ifs with herr hok
  · exact stage_failed rfl
  · obtain ⟨hsrc, hpres⟩ := hc.preserves (Nat.lt_of_lt_of_le (by decide) hsize)
    -- all slots are taken back, so no goroutine is left
    have hnone : u.uploads = [] := by
      have hthrottle := hg.throttle
      have hparallel := hg.parallel
      exact List.length_eq_zero_iff.mp (by omega)
    have hparts := hg.parts (Decidable.not_not.mp herr)
    rw [hnone, List.map_nil, List.append_nil] at hparts
    refine ⟨hsrc, _, rfl, ?_⟩
    rw [sortedParts_eq hparts]
    exact hpres
  · exact stage_failed rfl

theorem mainStep_stage {ok : Bool} (hsize : minPartSize ≤ partSize) (h : Stage partSize src u) :
    Stage partSize src (u.mainStep partSize ok) := by
  unfold mainStep
  cases hphase : u.phase with
  | creating =>
    unfold Stage at h
    simp only [hphase] at h ⊢
    split_ifs
    · rw [h]
      exact readFirst_stage
    · exact stage_failed rfl
  | reading =>
    unfold Stage at h
    simp only [hphase] at h ⊢
    obtain ⟨started, hc, hg⟩ := h
    exact readNext_stage hsize hphase hc hg
  | waiting i =>
    have hstage := h
    unfold Stage at h
    simp only [hphase] at h ⊢
    obtain ⟨hi, started, hc, hcur, hg⟩ := h
    split_ifs with hlt hslot
    · refine ⟨hlt, started, hc, hcur, hg.partNumber, ?_, hslot, hg.parts⟩
      have hthrottle := hg.throttle
      change u.throttle + 1 = u.uploads.length + (i + 1)
      omega
    · exact hstage
    · have hall : i = maxParallel := by omega
      rw [hall] at hg
      exact finish_stage hsize hc hg
  | returned err => exact h

/-- The attempts of the goroutines there are after a step of the call. -/
theorem mainStep_uploads {ok : Bool} :
    ∀ r ∈ (u.mainStep partSize ok).uploads, r ∈ u.uploads ∨ r.i = 0 := by
  intro r hr
  unfold mainStep readFirst readNext startPart finish at hr
  repeat' split at hr
  all_goals first
    | exact Or.inl hr
    | (rcases List.mem_append.mp hr with hr | hr
       · exact Or.inl hr
       · exact Or.inr (by rw [List.mem_singleton.mp hr]))

theorem next_inv (hsize : minPartSize ≤ partSize) {e : Event} (h : Inv partSize src u) :
    Inv partSize src (u.next partSize e) := by
  cases e with
  | main ok =>
    refine ⟨mainStep_stage hsize h.stage, fun r hr => ?_⟩
    rcases mainStep_uploads r hr with hr | hz
    · exact h.attempts r hr
    · rw [hz]
      decide
  | part j ok => exact partStep_inv h

theorem start_inv : Inv partSize src (start src) := ⟨rfl, fun _ hr => absurd hr List.not_mem_nil⟩

/-! ## The end of a call -/

/-- The steps that the call itself has left, but for the parts. -/
def phaseLeft : Phase → ℕ
  | .creating => maxParallel + 3
  | .reading => maxParallel + 2
  | .waiting i => maxParallel + 1 - i
  | .returned _ => 0

/-- The attempts that the goroutines have left. -/
def attemptsLeft (uploads : List PartUpload) : ℕ := (uploads.map fun r => maxRetries - r.i).sum

/-- What is left to do; a byte may be a part of its own. -/
def left (u : GroupUpload) : ℕ :=
  (maxRetries + 1) * (u.curPart.length + u.src.bytes.length) + attemptsLeft u.uploads +
    phaseLeft u.phase

theorem attemptsLeft_perm {l l' : List PartUpload} (h : l.Perm l') :
    attemptsLeft l = attemptsLeft l' := (h.map _).sum_nat

@[simp] theorem attemptsLeft_cons {r : PartUpload} {l : List PartUpload} :
    attemptsLeft (r :: l) = maxRetries - r.i + attemptsLeft l := List.sum_cons

/-- Every attempt is one less. -/
theorem partStep_left {j : ℕ} {ok : Bool} (h : ∀ r ∈ u.uploads, r.i < maxRetries) :
    u.partStep j ok ≠ u → (u.partStep j ok).left < u.left := by
  unfold partStep
  split
  · exact fun hne => absurd rfl hne
  next r hr =>
    intro _
    obtain ⟨hj, hget⟩ := List.getElem?_eq_some_iff.mp hr
    have hi := h r (List.mem_of_getElem? hr)
    have herase := attemptsLeft_perm (List.getElem_cons_eraseIdx_perm hj)
    have hset := attemptsLeft_perm (List.set_perm_cons_eraseIdx hj { r with i := r.i + 1 })
    rw [attemptsLeft_cons] at herase hset
    rw [hget] at herase
    dsimp only at hset
    unfold left
    split_ifs
    · dsimp only
      omega
    · dsimp only
      omega
    · dsimp only
      omega

/-- A full read only moves bytes. -/
theorem readFull_length {part : Bytes} {err : Option ReadErr}
    (h : src.readFull partSize = ((part, err), src')) :
    part.length + src'.bytes.length = src.bytes.length := by
  rw [← (readFull_spec h).1, List.length_append]

theorem merge_length (curPart nextPart : Bytes) :
    (merge curPart nextPart).1.length + (merge curPart nextPart).2.length =
      curPart.length + nextPart.length ∧
    curPart.length ≤ (merge curPart nextPart).1.length := by
  unfold merge
  split_ifs
  · rw [List.length_append, List.length_nil]
    omega
  · exact ⟨rfl, Nat.le_refl _⟩

theorem readNext_left (hphase : u.phase = .reading) :
    u.readNext partSize ≠ u → (u.readNext partSize).left < u.left := by
  unfold readNext
  split_ifs with hnil
  · intro _
    unfold left
    rw [hphase]
    exact Nat.lt_succ_self _
  · split
    · intro _
      unfold left
      rw [hphase]
      exact Nat.lt_add_of_pos_right (by decide)
    next err src' hother hread =>
      -- what is read moves, and the part that is started is gone
      have hread := readFull_length hread
      have hpos := List.length_pos_of_ne_nil hnil
      obtain ⟨hsum, hle⟩ := merge_length u.curPart ‹Bytes›
      unfold startPart
      split_ifs
      · intro _
        have hattempts :
            attemptsLeft (u.uploads ++ [⟨(merge u.curPart ‹Bytes›).1, u.partNumber, 0⟩]) =
              maxRetries + attemptsLeft u.uploads := by
          rw [attemptsLeft_perm (List.perm_append_singleton _ _), attemptsLeft_cons]
          rfl
        unfold left
        dsimp only
        rw [hattempts]
        unfold maxRetries
        omega
      · exact fun hne => absurd rfl hne

theorem mainStep_left {ok : Bool} (h : Stage partSize src u) :
    u.mainStep partSize ok ≠ u → (u.mainStep partSize ok).left < u.left := by
  unfold mainStep
  cases hphase : u.phase with
  | creating =>
    unfold Stage at h
    simp only [hphase] at h ⊢
    intro _
    have hfailed : ∀ err, left { u with phase := .returned err } < u.left := by
      intro err
      unfold left
      rw [hphase]
      exact Nat.lt_add_of_pos_right (by decide)
    split_ifs
    · unfold readFirst
      split
      · exact hfailed _
      next hread =>
        have hread := readFull_length hread
        have hcur : u.curPart = [] := by rw [h]; rfl
        unfold left
        dsimp only
        rw [hphase, hcur, hread, List.length_nil, Nat.zero_add]
        exact Nat.lt_succ_self _
    · exact hfailed _
  | reading =>
    simp only
    exact readNext_left hphase
  | waiting i =>
    unfold Stage at h
    simp only [hphase] at h ⊢
    have hi := h.1
    split_ifs
    · intro _
      unfold left
      rw [hphase]
      dsimp only [phaseLeft]
      omega
    · exact fun hne => absurd rfl hne
    · intro _
      unfold finish
      split_ifs
      all_goals
        unfold left
        rw [hphase]
        dsimp only [phaseLeft]
        omega
  | returned err => exact fun hne => absurd rfl hne

/-- A call waits for a slot only while a goroutine has one. -/
theorem partStep_moves {taken : ℕ} (hg : Given started taken u) (htaken : taken < maxParallel)
    (hfull : ¬ u.throttle < maxParallel) : u.partStep 0 true ≠ u := by
  have hthrottle := hg.throttle
  have hpos : 0 < u.uploads.length := by omega
  unfold partStep
  rw [List.getElem?_eq_getElem hpos]
  intro heq
  have hlen := congrArg (fun u => u.uploads.length) heq
  dsimp only at hlen
  rw [if_pos rfl, List.length_eraseIdx_of_lt hpos] at hlen
  omega

/-- Until it has returned, the call or a goroutine has a step. -/
theorem exists_step (h : Stage partSize src u) (hret : ∀ err, u.phase ≠ .returned err) :
    ∃ e, u.next partSize e ≠ u := by
  have hmoves : ∀ {u' : GroupUpload}, u'.phase ≠ u.phase → u' ≠ u :=
    fun hne heq => hne (congrArg GroupUpload.phase heq)
  cases hphase : u.phase with
  | creating =>
    refine ⟨.main false, hmoves ?_⟩
    change (u.mainStep partSize false).phase ≠ u.phase
    unfold mainStep
    rw [hphase]
    exact nofun
  | reading =>
    unfold Stage at h
    simp only [hphase] at h
    obtain ⟨started, hc, hg⟩ := h
    -- without a slot, a goroutine has one and goes on
    by_cases hslot : u.throttle < maxParallel
    · refine ⟨.main true, ?_⟩
      change u.mainStep partSize true ≠ u
      unfold mainStep
      rw [hphase]
      dsimp only
      unfold readNext
      split_ifs
      · exact hmoves (by rw [hphase]; exact nofun)
      · split
        · exact hmoves (by rw [hphase]; exact nofun)
        · unfold startPart
          rw [if_pos hslot]
          intro heq
          have := congrArg GroupUpload.throttle heq
          dsimp only at this
          omega
    · exact ⟨.part 0 true, partStep_moves hg (by decide) hslot⟩
  | waiting i =>
    unfold Stage at h
    simp only [hphase] at h
    obtain ⟨hi, started, hc, hcur, hg⟩ := h
    by_cases hslot : i < maxParallel ∧ ¬ u.throttle < maxParallel
    · exact ⟨.part 0 true, partStep_moves hg hslot.1 hslot.2⟩
    · refine ⟨.main true, hmoves ?_⟩
      change (u.mainStep partSize true).phase ≠ u.phase
      unfold mainStep finish
      rw [hphase]
      dsimp only
      split_ifs with hlt hthrottle
      · exact fun heq => absurd (Phase.waiting.inj heq) (Nat.succ_ne_self i)
      · exact absurd ⟨hlt, hthrottle⟩ hslot
      all_goals exact nofun
  | returned err => exact absurd hphase (hret err)

/-- **Multipart uploads preserve the data**, whatever fails and in whatever
order the uploads end: a call that returns without an error has completed
the object of parts that make up the source, and did not meet an error of
the source. And every call returns. -/
theorem uploadGroupData_preserves (src : Source) (partSize : ℕ) (hsize : minPartSize ≤ partSize)
    (es : List Event) :
    ((runEvents (next partSize) (start src) es).phase = .returned none →
      src.err ≠ .other ∧
        ∃ parts, (runEvents (next partSize) (start src) es).object = some parts ∧
          Preserves src parts) ∧
    Ends (next partSize) (fun u => ∃ err, u.phase = .returned err) (start src) := by
  refine ⟨fun hret => ?_, ?_⟩
  · have hinv : Inv partSize src (runEvents (next partSize) (start src) es) :=
      runEvents_stable (fun u e h => next_inv hsize h) start_inv es
    have hstage := hinv.stage
    unfold Stage at hstage
    rw [hret] at hstage
    exact hstage
  · refine ends_of_lowers (I := Inv partSize src) (f := left) (fun u e h => next_inv hsize h) ?_ ?_
      start_inv
    · intro u e h
      cases e with
      | main ok => exact mainStep_left h.stage
      | part j ok => exact partStep_left h.attempts
    · intro u h hdone
      exact exists_step h.stage fun err hphase => hdone ⟨err, hphase⟩

/-- One byte, and a goroutine that needs a second attempt. -/
theorem uploadGroupData_preserves_oneByte :
    let src : Source := ⟨[[7]], .eof⟩
    let es : List Event := [.main true, .main true, .main true, .part 0 false, .part 0 true,
      .main true, .main true, .main true, .main true, .main true]
    (runEvents (next minPartSize) (start src) es).phase = .returned none ∧
      ∃ parts, (runEvents (next minPartSize) (start src) es).object = some parts ∧
        Preserves src parts := by
  have hret : (runEvents (next minPartSize) (start ⟨[[7]], .eof⟩) [.main true, .main true,
      .main true, .part 0 false, .part 0 true, .main true, .main true, .main true, .main true,
      .main true]).phase = .returned none := by decide
  exact ⟨hret, ((uploadGroupData_preserves _ minPartSize le_rfl _).1 hret).2⟩

end GroupUpload

end Rbdeal

end Ribs
