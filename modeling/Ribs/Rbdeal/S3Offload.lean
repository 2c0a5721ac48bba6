import Mathlib.Logic.Function.Basic
import Ribs.Common.Runs
import Ribs.Rbstor.PebbleIndex
/-!
# Rbdeal — offloading groups to S3

Any number of calls of `maybeDoS3OffloadWithSource` run side by side. A
call looks twice whether its group is offloaded already, the second time
under `s3Lk`; it then enters the group in `s3Uploads`, starts the source,
waits for its size, and uploads what it writes. The calls, the sources and
the database take their steps in any order.
-/

namespace Ribs

open Common
open Rbstor (GroupKey)

namespace Rbdeal

/-- The sources there are. `rbs.ReadCar` can fail before it calls `sz`, as
a source in general can; that of `Upload` calls it first. -/
inductive CarSource where
  | readCar
  | upload
deriving DecidableEq

/-- Where the goroutine of a source is. -/
inductive SourceAt where
  | unstarted
  | sizing
  | writing
  | returned (sized : Bool)
deriving DecidableEq

inductive OffloadErr where
  | check
  | ongoing
  | upload
  | note
deriving DecidableEq

/-- Where a call is. -/
inductive OffloadAt where
  | checking
  /-- At `s3Lk.Lock`. -/
  | locking
  | looking
  | rechecking
  /-- At `<-sizeCh`. -/
  | sizing
  | uploading
  /-- At `<-syncWait`. -/
  | waiting
  | noting
  /-- In the deferred function, at `s3Lk.Lock`. -/
  | leaving (err : Option OffloadErr)
  | returned (err : Option OffloadErr)
deriving DecidableEq

/-- **A call of `maybeDoS3OffloadWithSource`**. -/
structure OffloadCall where
  gid : GroupKey
  source : CarSource
  sourceAt : SourceAt
  at_ : OffloadAt
deriving DecidableEq

/-- The calls, by number, and what they share. -/
structure S3Offloads where
  calls : ℕ → Option OffloadCall
  /-- The call that holds the lock. -/
  s3Lk : Option ℕ
  /-- The groups in the map, with the calls that put them there. -/
  s3Uploads : GroupKey → Option ℕ
  /-- The groups in `offloads_s3`. -/
  offloaded : GroupKey → Bool
  /-- The groups of which an upload has returned nil. -/
  uploaded : GroupKey → Bool

/-- A step of the system. `ok` is what the database or the upload says. -/
inductive S3Event where
  | call (j : ℕ) (gid : GroupKey) (source : CarSource)
  | step (j : ℕ) (ok : Bool)
  /-- The source calls `sz`. -/
  | announce (j : ℕ)
  | sourceReturn (j : ℕ)
  /-- `cleanupS3Offload`. -/
  | cleanup (gid : GroupKey)

namespace S3Offloads

/-- No call was made yet. -/
def start (offloaded : GroupKey → Bool) : S3Offloads :=
  ⟨fun _ => none, none, fun _ => none, offloaded, fun _ => false⟩

def set (j : ℕ) (c : OffloadCall) (s : S3Offloads) : S3Offloads :=
  { s with calls := Function.update s.calls j (some c) }

/-- The call `c` goes on to `at_`. -/
def goto (j : ℕ) (c : OffloadCall) (at_ : OffloadAt) (s : S3Offloads) : S3Offloads :=
  s.set j { c with at_ := at_ }

/-- `HasS3Offload`; the query can fail. -/
def hasS3Offload (ok : Bool) (gid : GroupKey) (s : S3Offloads) : Option Bool :=
  if ok then some (s.offloaded gid) else none

/-- `maybeDoS3OffloadWithSource`, from one step to the next. What ends
behind the second look does so without `s3Lk.Unlock`. -/
def step (j : ℕ) (ok : Bool) (c : OffloadCall) (s : S3Offloads) : S3Offloads :=
  match c.at_ with
  | .checking =>
    match s.hasS3Offload ok c.gid with
    -- the first look is made without the lock
    | none => s.goto j c (.returned (some .check))
    | some true => s.goto j c (.returned none)
    | some false => s.goto j c .locking
  | .locking => if s.s3Lk = none then { s.goto j c .looking with s3Lk := some j } else s
  | .looking =>
    -- an upload under way: the lock is given back on this path
    if s.s3Uploads c.gid = none then s.goto j c .rechecking
    else { s.goto j c (.returned (some .ongoing)) with s3Lk := none }
  | .rechecking =>
    match s.hasS3Offload ok c.gid with
    | none => s.goto j c (.returned (some .check))
    | some true => s.goto j c (.returned none)
    | some false =>
      { s.set j { c with at_ := .sizing, sourceAt := .sizing } with
        s3Uploads := Function.update s.s3Uploads c.gid (some j)
        s3Lk := none }
  | .sizing =>
    if c.sourceAt = .writing ∨ c.sourceAt = .returned true then s.goto j c .uploading else s
  | .uploading =>
    if ok then
      -- the object is there; what the source says is still to come
      { s.goto j c .waiting with uploaded := Function.update s.uploaded c.gid true }
    else s.goto j c (.leaving (some .upload))
  | .waiting => if c.sourceAt = .returned true then s.goto j c .noting else s
  | .noting =>
    if ok then
      { s.goto j c (.leaving none) with offloaded := Function.update s.offloaded c.gid true }
    else s.goto j c (.leaving (some .note))
  | .leaving err =>
    if s.s3Lk = none then
      { s.goto j c (.returned err) with s3Uploads := Function.update s.s3Uploads c.gid none }
    else s
  | .returned _ => s

/-- The source calls `sz`, once. -/
def announce (j : ℕ) (c : OffloadCall) (s : S3Offloads) : S3Offloads :=
  if c.sourceAt = .sizing then s.set j { c with sourceAt := .writing } else s

/-- The source returns, with or without an error. -/
def sourceReturn (j : ℕ) (c : OffloadCall) (s : S3Offloads) : S3Offloads :=
  match c.sourceAt, c.source with
  | .sizing, .readCar => s.set j { c with sourceAt := .returned false }
  | .writing, _ => s.set j { c with sourceAt := .returned true }
  | _, _ => s

/-- An event of a call that was not made is none. -/
def onCall (j : ℕ) (f : OffloadCall → S3Offloads → S3Offloads) (s : S3Offloads) : S3Offloads :=
  match s.calls j with
  | some c => f c s
  | none => s

def next (s : S3Offloads) : S3Event → S3Offloads
  | .call j gid source =>
    if s.calls j = none then s.set j ⟨gid, source, .unstarted, .checking⟩ else s
  | .step j ok => s.onCall j (step j ok)
  | .announce j => s.onCall j (announce j)
  | .sourceReturn j => s.onCall j (sourceReturn j)
  | .cleanup gid => { s with offloaded := Function.update s.offloaded gid false }

/-! ## What is promised -/

/-- **Exclusive, and never left behind**, of calls that start where the
groups in `before` are offloaded. -/
structure Sound (before : GroupKey → Bool) (s : S3Offloads) : Prop where
  /-- At most one upload of a group runs. -/
  exclusive : ∀ i j c c', s.calls i = some c → s.calls j = some c' → c.at_ = .uploading →
    c'.at_ = .uploading → c.gid = c'.gid → i = j
  /-- A call that has returned holds the lock no longer. -/
  unlocked : ∀ j c err, s.calls j = some c → c.at_ = .returned err → s.s3Lk ≠ some j
  /-- A call that has returned has removed its entry. -/
  removed : ∀ j c err, s.calls j = some c → c.at_ = .returned err →
    ∀ gid, s.s3Uploads gid ≠ some j
  /-- No call waits for the size of a source that has returned without it. -/
  sized : ∀ j c, s.calls j = some c → c.at_ = .sizing → c.sourceAt ≠ .returned false
  /-- What is recorded was uploaded. -/
  recorded : ∀ gid, s.offloaded gid = true → before gid = true ∨ s.uploaded gid = true

/-- What the calls rely on: the second look works, and finds that the group
is not offloaded; and `ReadCar` does not fail before it calls `sz`. -/
def Undisturbed (s : S3Offloads) : S3Event → Prop
  | .step j ok => ∀ c, s.calls j = some c → c.at_ = .rechecking →
    ok = true ∧ s.offloaded c.gid = false
  | .sourceReturn j => ∀ c, s.calls j = some c → c.sourceAt = .sizing → c.source = .upload
  | _ => True

/-! ## Why -/

variable {before : GroupKey → Bool} {s s' : S3Offloads} {c c' : OffloadCall} {i j : ℕ}
variable {gid : GroupKey} {at_ : OffloadAt} {ok : Bool} {e : S3Event}

/-- Under the lock. -/
def Locked : OffloadAt → Prop
  | .looking => True
  | .rechecking => True
  | _ => False

/-- Behind the entry in `s3Uploads`, and before it is removed. -/
def Entered : OffloadAt → Prop
  | .sizing => True
  | .uploading => True
  | .waiting => True
  | .noting => True
  | .leaving _ => True
  | _ => False

/-- Behind an upload that returned nil. -/
def HasUploaded : OffloadAt → Prop
  | .waiting => True
  | .noting => True
  | _ => False

/-- What a call can count on. -/
structure CallOk (s : S3Offloads) (j : ℕ) (c : OffloadCall) : Prop where
  locked : Locked c.at_ → s.s3Lk = some j
  free : c.at_ = .rechecking → s.s3Uploads c.gid = none
  entered : Entered c.at_ → s.s3Uploads c.gid = some j
  sizing : c.sourceAt = .sizing → c.at_ = .sizing
  sized : c.sourceAt ≠ .returned false
  uploaded : HasUploaded c.at_ → s.uploaded c.gid = true

structure Inv (before : GroupKey → Bool) (s : S3Offloads) : Prop where
  calls : ∀ j c, s.calls j = some c → CallOk s j c
  lock : ∀ j, s.s3Lk = some j → ∃ c, s.calls j = some c ∧ Locked c.at_
  entries : ∀ gid j, s.s3Uploads gid = some j →
    ∃ c, s.calls j = some c ∧ c.gid = gid ∧ Entered c.at_
  recorded : ∀ gid, s.offloaded gid = true → before gid = true ∨ s.uploaded gid = true

theorem Inv.not_holder (h : Inv before s) (hj : s.calls j = some c) (hat : ¬ Locked c.at_) :
    s.s3Lk ≠ some j := fun hlk => by
  obtain ⟨c', hj', hlocked⟩ := h.lock j hlk
  obtain rfl : c = c' := Option.some.inj (hj.symm.trans hj')
  exact hat hlocked

theorem Inv.not_entered (h : Inv before s) (hj : s.calls j = some c) (hat : ¬ Entered c.at_) :
    s.s3Uploads gid ≠ some j := fun hentry => by
  obtain ⟨c', hj', -, hentered⟩ := h.entries gid j hentry
  obtain rfl : c = c' := Option.some.inj (hj.symm.trans hj')
  exact hat hentered

theorem Inv.sound (h : Inv before s) : Sound before s where
  exclusive i j c c' hi hj hc hc' hgid := by
    have hentry := (h.calls i c hi).entered (by rw [hc]; trivial)
    have hentry' := (h.calls j c' hj).entered (by rw [hc']; trivial)
    rw [hgid, hentry'] at hentry
    exact (Option.some.inj hentry).symm
  unlocked j c err hj hc := h.not_holder hj (by rw [hc]; exact not_false)
  removed j c err hj hc gid := h.not_entered hj (by rw [hc]; exact not_false)
  sized j c hj _ := (h.calls j c hj).sized
  recorded := h.recorded

/-- What a step of the call `j` leaves to the others. -/
structure Leaves (j : ℕ) (s s' : S3Offloads) : Prop where
  calls : ∀ i, i ≠ j → s'.calls i = s.calls i
  lock : ∀ i, i ≠ j → (s'.s3Lk = some i ↔ s.s3Lk = some i)
  entries : ∀ gid i, i ≠ j → (s'.s3Uploads gid = some i ↔ s.s3Uploads gid = some i)
  /-- An entry is made under the lock only. -/
  free : ∀ gid i, i ≠ j → s.s3Lk = some i → s.s3Uploads gid = none → s'.s3Uploads gid = none
  uploaded : ∀ gid, s.uploaded gid = true → s'.uploaded gid = true

/-- **The invariant survives a step of `j`** that leaves the others theirs,
and has `j` in order behind it. -/
theorem Inv.moves (h : Inv before s) (hleaves : Leaves j s s') (hj : s'.calls j = some c')
    (hok : CallOk s' j c') (hlock : s'.s3Lk = some j → Locked c'.at_)
    (hentry : ∀ gid, s'.s3Uploads gid = some j → c'.gid = gid ∧ Entered c'.at_)
    (hrecorded : ∀ gid, s'.offloaded gid = true → before gid = true ∨ s'.uploaded gid = true) :
    Inv before s' where
  calls i c hi := by
    by_cases hij : i = j
    · subst hij
      obtain rfl : c' = c := Option.some.inj (hj.symm.trans hi)
      exact hok
    · rw [hleaves.calls i hij] at hi
      have hc := h.calls i c hi
      refine ⟨fun hl => (hleaves.lock i hij).mpr (hc.locked hl), fun hat => ?_,
        fun hent => (hleaves.entries _ i hij).mpr (hc.entered hent), hc.sizing, hc.sized,
        fun hup => hleaves.uploaded _ (hc.uploaded hup)⟩
      exact hleaves.free _ i hij (hc.locked (by rw [hat]; trivial)) (hc.free hat)
  lock i hlk := by
    by_cases hij : i = j
    · subst hij
      exact ⟨c', hj, hlock hlk⟩
    · rw [hleaves.calls i hij]
      exact h.lock i ((hleaves.lock i hij).mp hlk)
  entries gid i hent := by
    by_cases hij : i = j
    · subst hij
      exact ⟨c', hj, hentry gid hent⟩
    · rw [hleaves.calls i hij]
      exact h.entries gid i ((hleaves.entries gid i hij).mp hent)
  recorded := hrecorded

@[simp] theorem set_calls_self : (s.set j c).calls j = some c := Function.update_self ..

/-- A step that touches the call alone. -/
theorem leaves_set : Leaves j s (s.set j c) where
  calls _ hij := Function.update_of_ne hij ..
  lock _ _ := Iff.rfl
  entries _ _ _ := Iff.rfl
  free _ _ _ _ h := h
  uploaded _ h := h

/-- A call moves with nothing of its own changed: where it is stays under
the lock, or outside, and keeps its entry, or has none. -/
theorem Inv.set (h : Inv before s) (hj : s.calls j = some c) (hgid : c'.gid = c.gid)
    (hlocked : Locked c'.at_ ↔ Locked c.at_) (hentered : Entered c'.at_ ↔ Entered c.at_)
    (hfree : c'.at_ = .rechecking → s.s3Uploads c.gid = none)
    (hsizing : c'.sourceAt = .sizing → c'.at_ = .sizing) (hsized : c'.sourceAt ≠ .returned false)
    (huploaded : HasUploaded c'.at_ → s.uploaded c.gid = true) :
    Inv before (s.set j c') := by
  have hc := h.calls j c hj
  refine h.moves leaves_set set_calls_self
    ⟨fun hl => hc.locked (hlocked.mp hl), fun hat => ?_, fun hent => ?_, hsizing, hsized,
      fun hup => ?_⟩ (fun hlk => ?_) (fun gid hent => ?_) h.recorded
  · rw [hgid]
    exact hfree hat
  · rw [hgid]
    exact hc.entered (hentered.mp hent)
  · rw [hgid]
    exact huploaded hup
  · by_contra hnot
    exact h.not_holder hj (fun hl => hnot (hlocked.mpr hl)) hlk
  · obtain ⟨c'', hj'', hgid'', hent'⟩ := h.entries gid j hent
    obtain rfl : c = c'' := Option.some.inj (hj.symm.trans hj'')
    exact ⟨hgid.trans hgid'', hentered.mpr hent'⟩

theorem Inv.quiet (h : Inv before s) (hj : s.calls j = some c) (hat : c.at_ ≠ .sizing) :
    c.sourceAt ≠ .sizing := fun hs => hat ((h.calls j c hj).sizing hs)

theorem Inv.goto (h : Inv before s) (hj : s.calls j = some c) (hquiet : c.sourceAt ≠ .sizing)
    (hlocked : Locked at_ ↔ Locked c.at_) (hentered : Entered at_ ↔ Entered c.at_)
    (hfree : at_ = .rechecking → s.s3Uploads c.gid = none)
    (huploaded : HasUploaded at_ → s.uploaded c.gid = true) : Inv before (s.goto j c at_) :=
  h.set hj rfl hlocked hentered hfree (fun hs => absurd hs hquiet) (h.calls j c hj).sized huploaded

/-- Of two calls with an entry for one group, or the lock, there is one. -/
theorem some_ne {o : Option ℕ} (h : o = some j) (hij : i ≠ j) : o ≠ some i := fun h' =>
  hij (Option.some.inj (h'.symm.trans h))

/-- `s3Lk.Lock`. -/
theorem lock_inv (h : Inv before s) (hj : s.calls j = some c) (hat : c.at_ = .locking)
    (hlk : s.s3Lk = none) : Inv before { s.goto j c .looking with s3Lk := some j } := by
  have hc := h.calls j c hj
  have hquiet := h.quiet hj (by rw [hat]; decide)
  refine h.moves (j := j) ?_ set_calls_self
    ⟨fun _ => rfl, nofun, fun hent => hent.elim, fun hs => absurd hs hquiet,
      hc.sized, fun hup => hup.elim⟩ (fun _ => trivial) (fun gid hent => ?_) h.recorded
  · refine ⟨(leaves_set).calls, fun i hij => ?_, fun _ _ _ => Iff.rfl, fun _ _ _ _ h => h,
      fun _ h => h⟩
    rw [hlk]
    exact iff_of_false (fun h => hij (Option.some.inj h).symm) nofun
  · exact absurd hent (h.not_entered hj (by rw [hat]; exact not_false))

/-- `s3Lk.Unlock`, for the one that holds it. -/
theorem leaves_unlock (hlk : s.s3Lk = some j) :
    Leaves j s { s.set j c with s3Lk := none } where
  calls := leaves_set.calls
  lock _ hij := iff_of_false nofun (some_ne hlk hij)
  entries _ _ _ := Iff.rfl
  free _ _ _ _ h := h
  uploaded _ h := h

/-- An upload of the group is under way. -/
theorem ongoing_inv (h : Inv before s) (hj : s.calls j = some c) (hat : c.at_ = .looking) :
    Inv before { s.goto j c (.returned (some .ongoing)) with s3Lk := none } := by
  have hc := h.calls j c hj
  have hquiet := h.quiet hj (by rw [hat]; decide)
  refine h.moves (leaves_unlock (hc.locked (by rw [hat]; trivial))) set_calls_self
    ⟨fun hl => hl.elim, nofun, fun hent => hent.elim,
      fun hs => absurd hs hquiet, hc.sized, fun hup => hup.elim⟩ nofun (fun gid hent => ?_)
    h.recorded
  exact absurd hent (h.not_entered hj (by rw [hat]; exact not_false))

/-- **The group is entered**, and the lock released. -/
theorem enter_inv (h : Inv before s) (hj : s.calls j = some c) (hat : c.at_ = .rechecking) :
    Inv before { s.set j { c with at_ := .sizing, sourceAt := .sizing } with
      s3Uploads := Function.update s.s3Uploads c.gid (some j)
      s3Lk := none } := by
  have hc := h.calls j c hj
  have hlk := hc.locked (by rw [hat]; trivial)
  have hfree := hc.free hat
  refine h.moves (j := j) ⟨leaves_set.calls, (leaves_unlock (c := c) hlk).lock,
    fun gid i hij => ?_, fun gid i hij hi => absurd hi (some_ne hlk hij), fun _ h => h⟩
    set_calls_self ⟨fun hl => hl.elim, nofun,
      fun _ => Function.update_self .., fun _ => rfl, nofun, fun hup => hup.elim⟩ nofun
    (fun gid hent => ?_) h.recorded
  · by_cases hgid : gid = c.gid
    · subst hgid
      change Function.update s.s3Uploads c.gid (some j) c.gid = some i ↔ _
      rw [Function.update_self, hfree]
      exact iff_of_false (fun h => hij (Option.some.inj h).symm) nofun
    · change Function.update s.s3Uploads c.gid (some j) gid = some i ↔ _
      rw [Function.update_of_ne hgid]
  · refine ⟨?_, trivial⟩
    by_contra hgid
    change Function.update s.s3Uploads c.gid (some j) gid = some j at hent
    rw [Function.update_of_ne (Ne.symm hgid)] at hent
    exact h.not_entered hj (by rw [hat]; exact not_false) hent

/-- **The entry is removed** when the call returns. -/
theorem leave_inv {err : Option OffloadErr} (h : Inv before s) (hj : s.calls j = some c)
    (hat : c.at_ = .leaving err) :
    Inv before { s.goto j c (.returned err) with
      s3Uploads := Function.update s.s3Uploads c.gid none } := by
  have hc := h.calls j c hj
  have hquiet := h.quiet hj (by rw [hat]; nofun)
  have hentry := hc.entered (by rw [hat]; trivial)
  refine h.moves (j := j) ⟨leaves_set.calls, fun _ _ => Iff.rfl, fun gid i hij => ?_,
    fun gid i _ _ hnone => ?_, fun _ h => h⟩ set_calls_self
    ⟨fun hl => hl.elim, nofun, fun hent => hent.elim,
      fun hs => absurd hs hquiet, hc.sized, fun hup => hup.elim⟩ (fun hlk => ?_)
    (fun gid hent => ?_) h.recorded
  · by_cases hgid : gid = c.gid
    · subst hgid
      change Function.update s.s3Uploads c.gid none c.gid = some i ↔ _
      rw [Function.update_self]
      exact iff_of_false nofun (some_ne hentry hij)
    · change Function.update s.s3Uploads c.gid none gid = some i ↔ _
      rw [Function.update_of_ne hgid]
  · change Function.update s.s3Uploads c.gid none gid = none
    by_cases hgid : gid = c.gid
    · rw [hgid, Function.update_self]
    · rw [Function.update_of_ne hgid, hnone]
  · exact absurd hlk (h.not_holder hj (by rw [hat]; exact not_false))
  · exfalso
    change Function.update s.s3Uploads c.gid none gid = some j at hent
    by_cases hgid : gid = c.gid
    · rw [hgid, Function.update_self] at hent
      cases hent
    · rw [Function.update_of_ne hgid] at hent
      obtain ⟨c', hj', hgid', -⟩ := h.entries gid j hent
      obtain rfl : c = c' := Option.some.inj (hj.symm.trans hj')
      exact hgid hgid'.symm

/-- **An upload returns nil**. -/
theorem uploaded_inv (h : Inv before s) (hj : s.calls j = some c) (hat : c.at_ = .uploading) :
    Inv before { s.goto j c .waiting with
      uploaded := Function.update s.uploaded c.gid true } := by
  have hc := h.calls j c hj
  have hquiet := h.quiet hj (by rw [hat]; decide)
  have hkept : ∀ gid, s.uploaded gid = true →
      Function.update s.uploaded c.gid true gid = true := fun gid hup => by
    by_cases hgid : gid = c.gid
    · rw [hgid, Function.update_self]
    · rwa [Function.update_of_ne hgid]
  refine h.moves (j := j) ⟨leaves_set.calls, fun _ _ => Iff.rfl, fun _ _ _ => Iff.rfl,
    fun _ _ _ _ h => h, hkept⟩ set_calls_self
    ⟨fun hl => hl.elim, nofun, fun _ => hc.entered (by rw [hat]; trivial),
      fun hs => absurd hs hquiet, hc.sized, fun _ => Function.update_self ..⟩ (fun hlk => ?_)
    (fun gid hent => ?_) fun gid hoff => (h.recorded gid hoff).imp_right (hkept gid)
  · exact absurd hlk (h.not_holder hj (by rw [hat]; exact not_false))
  · obtain ⟨c', hj', hgid, -⟩ := h.entries gid j hent
    obtain rfl : c = c' := Option.some.inj (hj.symm.trans hj')
    exact ⟨hgid, trivial⟩

/-- What is recorded matters to no call. -/
theorem Inv.withOffloaded {offloaded : GroupKey → Bool} (h : Inv before s)
    (hrecorded : ∀ gid, offloaded gid = true → before gid = true ∨ s.uploaded gid = true) :
    Inv before { s with offloaded := offloaded } where
  calls j c hj :=
    have hc := h.calls j c hj
    ⟨hc.locked, hc.free, hc.entered, hc.sizing, hc.sized, hc.uploaded⟩
  lock := h.lock
  entries := h.entries
  recorded := hrecorded

/-- `AddS3Offload`, of a group that was uploaded. -/
theorem Inv.record (h : Inv before s) (hup : s.uploaded gid = true) :
    Inv before { s with offloaded := Function.update s.offloaded gid true } := by
  refine h.withOffloaded fun gid' hoff => ?_
  by_cases hgid : gid' = gid
  · rw [hgid]
    exact Or.inr hup
  · rw [Function.update_of_ne hgid] at hoff
    exact h.recorded gid' hoff

/-- **A step of a call** keeps the invariant, if the second look of it
works and finds nothing. -/
theorem step_inv (h : Inv before s) (hj : s.calls j = some c)
    (hsafe : c.at_ = .rechecking → ok = true ∧ s.offloaded c.gid = false) :
    Inv before (step j ok c s) := by
  have hc := h.calls j c hj
  unfold step
  split
  next hat =>
    have hquiet := h.quiet hj (by rw [hat]; decide)
    -- the first look: without the lock
    have houtside : ∀ at_, ¬ Locked at_ → ¬ Entered at_ → at_ ≠ .rechecking →
        ¬ HasUploaded at_ → Inv before (s.goto j c at_) := fun at_ hl hent hre hup =>
      h.goto hj hquiet (by rw [hat]; exact iff_of_false hl not_false)
        (by rw [hat]; exact iff_of_false hent not_false) (fun h => absurd h hre)
        fun h => absurd h hup
    split
    · exact houtside _ not_false not_false nofun not_false
    · exact houtside _ not_false not_false nofun not_false
    · exact houtside _ not_false not_false nofun not_false
  next hat =>
    split
    · exact lock_inv h hj hat ‹_›
    · exact h
  next hat =>
    split
    next hfree =>
      exact h.goto hj (h.quiet hj (by rw [hat]; decide)) (by rw [hat]; exact Iff.rfl)
        (by rw [hat]; exact Iff.rfl) (fun _ => hfree) fun hup => hup.elim
    · exact ongoing_inv h hj hat
  next hat =>
    -- the second look, under the lock: it works and finds nothing
    obtain ⟨hok, hnot⟩ := hsafe hat
    have hlook : s.hasS3Offload ok c.gid = some false := by
      unfold hasS3Offload
      rw [if_pos hok, hnot]
    rw [hlook]
    exact enter_inv h hj hat
  next hat =>
    split
    -- the source ends the read; it was announced
    next hsource =>
      refine h.goto hj ?_ (by rw [hat]; exact Iff.rfl) (by rw [hat]; exact Iff.rfl) nofun
        fun hup => hup.elim
      rintro hs
      rw [hs] at hsource
      rcases hsource with hsource | hsource <;> cases hsource
    · exact h
  next hat =>
    have hquiet := h.quiet hj (by rw [hat]; decide)
    split
    · exact uploaded_inv h hj hat
    · exact h.goto hj hquiet (by rw [hat]; exact Iff.rfl) (by rw [hat]; exact Iff.rfl) nofun
        fun hup => hup.elim
  next hat =>
    split
    · exact h.goto hj (h.quiet hj (by rw [hat]; decide)) (by rw [hat]; exact Iff.rfl)
        (by rw [hat]; exact Iff.rfl) nofun fun _ => hc.uploaded (by rw [hat]; trivial)
    · exact h
  next hat =>
    -- the upload is recorded, or its error handed on
    have hleaving : ∀ err, Inv before (s.goto j c (.leaving err)) := fun err =>
      h.goto hj (h.quiet hj (by rw [hat]; decide)) (by rw [hat]; exact Iff.rfl)
        (by rw [hat]; exact Iff.rfl) nofun fun hup => hup.elim
    split
    · exact (hleaving none).record (hc.uploaded (by rw [hat]; trivial))
    · exact hleaving _
  next hat =>
    split
    · exact leave_inv h hj hat
    · exact h
  · exact h

theorem announce_inv (h : Inv before s) (hj : s.calls j = some c) :
    Inv before (announce j c s) := by
  have hc := h.calls j c hj
  unfold announce
  split
  · exact h.set hj rfl Iff.rfl Iff.rfl hc.free nofun nofun hc.uploaded
  · exact h

theorem sourceReturn_inv (h : Inv before s) (hj : s.calls j = some c)
    (hsafe : c.sourceAt = .sizing → c.source = .upload) : Inv before (sourceReturn j c s) := by
  have hc := h.calls j c hj
  unfold sourceReturn
  split
  next hat hsource =>
    rw [hsafe hat] at hsource
    cases hsource
  · exact h.set hj rfl Iff.rfl Iff.rfl hc.free nofun nofun hc.uploaded
  · exact h

/-- A call is made. -/
theorem call_inv {source : CarSource} (h : Inv before s) (hj : s.calls j = none) :
    Inv before (s.set j ⟨gid, source, .unstarted, .checking⟩) := by
  refine h.moves leaves_set set_calls_self
    ⟨fun hl => hl.elim, nofun, fun hent => hent.elim, nofun, nofun, fun hup => hup.elim⟩
    (fun hlk => ?_) (fun gid hent => ?_) h.recorded
  · obtain ⟨c, hj', -⟩ := h.lock j hlk
    rw [hj] at hj'
    cases hj'
  · obtain ⟨c, hj', -⟩ := h.entries gid j hent
    rw [hj] at hj'
    cases hj'

theorem onCall_of {f : OffloadCall → S3Offloads → S3Offloads} (hj : s.calls j = some c) :
    s.onCall j f = f c s := by
  unfold onCall
  rw [hj]

theorem next_inv (h : Inv before s) (hsafe : s.Undisturbed e) : Inv before (s.next e) := by
  cases e with
  | call j gid source =>
    change Inv before (if s.calls j = none then s.set j _ else s)
    split
    · exact call_inv h ‹_›
    · exact h
  | step j ok =>
    change Inv before (s.onCall j (step j ok))
    unfold onCall
    split
    next c hj => exact step_inv h hj (hsafe c hj)
    · exact h
  | announce j =>
    change Inv before (s.onCall j (announce j))
    unfold onCall
    split
    next c hj => exact announce_inv h hj
    · exact h
  | sourceReturn j =>
    change Inv before (s.onCall j (sourceReturn j))
    unfold onCall
    split
    next c hj => exact sourceReturn_inv h hj (hsafe c hj)
    · exact h
  | cleanup gid =>
    refine h.withOffloaded fun gid' hoff => h.recorded gid' ?_
    by_cases hgid : gid' = gid
    · rw [hgid, Function.update_self] at hoff
      cases hoff
    · rwa [Function.update_of_ne hgid] at hoff

theorem start_inv : Inv before (start before) :=
  ⟨nofun, nofun, nofun, fun _ => Or.inl⟩

/-- **What disturbs a call breaks a promise** at once: the lock is left
held, or a size is waited for that does not come. -/
theorem disturbed_not_sound (h : Inv before s) (hsafe : ¬ s.Undisturbed e) :
    ¬ Sound before (s.next e) := by
  intro hsound
  cases e with
  | step j ok =>
    refine hsafe fun c hj hat => ?_
    have hlk := (h.calls j c hj).locked (by rw [hat]; trivial)
    have hnext : s.next (.step j ok) = step j ok c s := onCall_of hj
    rw [hnext] at hsound
    unfold step at hsound
    rw [hat] at hsound
    have hlook : s.hasS3Offload ok c.gid = some false := by
      cases hlook : s.hasS3Offload ok c.gid with
      | none =>
        rw [hlook] at hsound
        exact absurd hlk (hsound.unlocked j _ _ set_calls_self rfl)
      | some has =>
        cases has with
        | true =>
          rw [hlook] at hsound
          exact absurd hlk (hsound.unlocked j _ _ set_calls_self rfl)
        | false => rfl
    unfold hasS3Offload at hlook
    split at hlook
    · exact ⟨‹_›, Option.some.inj hlook⟩
    · cases hlook
  | sourceReturn j =>
    refine hsafe fun c hj hat => ?_
    have hsizing := (h.calls j c hj).sizing hat
    have hnext : s.next (.sourceReturn j) = sourceReturn j c s := onCall_of hj
    rw [hnext] at hsound
    unfold sourceReturn at hsound
    cases hsource : c.source with
    | upload => rfl
    | readCar =>
      rw [hat, hsource] at hsound
      exact absurd rfl (hsound.sized j _ set_calls_self hsizing)
  | call | announce | cleanup => exact hsafe trivial

/-- **Exclusive, and never left behind.** Every state of a run is sound, if
and only if no second look fails, none finds the group offloaded, and no
`ReadCar` fails before it calls `sz`. -/
theorem sound_iff_undisturbed {es : List S3Event} :
    (∀ es', es' <+: es → Sound before (runEvents next (start before) es')) ↔
      Always next Undisturbed (start before) es :=
  (always_iff_throughout (I := Inv before) (fun _ _ => next_inv) (fun _ => Inv.sound)
    (fun _ _ => disturbed_not_sound) start_inv).symm

/-- The steps of one call `j`, and of its source, up to the end. -/
def wholeCall (j : ℕ) : List S3Event :=
  [.step j true, .step j true, .step j true, .step j true, .announce j, .step j true,
    .step j true, .sourceReturn j, .step j true, .step j true, .step j true]

/-- **The second of two calls for a group finds it offloaded** at its
second look, and returns with the lock. -/
theorem second_call_keeps_lock : ¬ Sound (fun _ => false) (runEvents next (start fun _ => false)
    ([.call 0 7 .readCar, .call 1 7 .readCar, .step 1 true] ++ wholeCall 0 ++
      [.step 1 true, .step 1 true, .step 1 true])) := fun h =>
  h.unlocked 1 _ none rfl rfl rfl

end S3Offloads

end Rbdeal

end Ribs
