import Mathlib.Logic.Function.Basic
import Ribs.Common.Deadlock
import Ribs.Common.Runs
/-!
# Rbstor — the locks of the group manager

The callers of the store and its workers share two locks and a channel of
tasks. What matters here is the order in which they take them: a `Put`
holds both locks while it writes, and goes on holding the inner one while
`ensureSpaceForGroup` gives the outer one back; a `Put` that has filled its
group sends a task under both locks; the workers look groups up under the
outer one.
-/

namespace Ribs

open Common

namespace Rbstor

/-- The capacity of `tasks`. -/
def maxTasks : ℕ := 1024

inductive TaskType where
  | finalize
  | genCommP
  | finDataReload
deriving DecidableEq

/-- What `ensureSpaceForGroup` does once it has `lk` again. -/
inductive Relocked where
  /-- It asks for a candidate again. -/
  | seek
  /-- There is space. -/
  | create
  | fail
deriving DecidableEq

/-- Where a caller or a goroutine is. -/
inductive ThreadAt where
  /-- Not started, or at its end. -/
  | done
  /-- `withWritableGroup`, at `lk.Lock`. -/
  | putLk
  /-- ThreadAt `writeLk.Lock`, with `lk`. -/
  | putWriteLk
  | selecting
  /-- `ensureSpaceForGroup`, at `CountNonOffloadedGroups`. -/
  | counting
  /-- ThreadAt `GetOffloadCandidate`. -/
  | seeking
  /-- It waits for space, without `lk`. -/
  | sleeping
  /-- `withReadableGroup` of the candidate, at `lk.Lock`. -/
  | candidateLk
  | candidateOpening
  | offloadingStaging
  /-- ThreadAt `lk.Lock`, to go on. -/
  | relocking (next : Relocked)
  /-- Behind `ensureSpaceForGroup`, at `CreateGroup`. -/
  | creating
  /-- In `cb`. -/
  | putting
  /-- `cb` has filled the group. -/
  | filled
  /-- Parked at the channel. -/
  | sending
  /-- `withWritableGroup` returns. -/
  | leaving
  /-- `Flush`, at `lk.Lock`. -/
  | flushLk
  | flushing
  | syncing
  /-- `withReadableGroup`, at `lk.Lock`. -/
  | readLk
  | opening
  | reading
  /-- A goroutine that sends a task, without a lock. -/
  | resuming (tt : TaskType)
  /-- A worker, at `<-tasks`. -/
  | idle
  /-- A worker with a task, at `lk.Lock`. -/
  | taskLk (tt : TaskType)
  | looking (tt : TaskType)
  | working (tt : TaskType)
deriving DecidableEq

/-- `lk` is held there. -/
def ThreadAt.HoldsLk : ThreadAt → Bool
  | putWriteLk | selecting | counting | seeking | candidateOpening | creating | putting | filled
  | sending | leaving | flushing | opening | looking _ => true
  | _ => false

/-- `writeLk` is held there. -/
def ThreadAt.HoldsWriteLk : ThreadAt → Bool
  | selecting | counting | seeking | sleeping | candidateLk | candidateOpening
  | offloadingStaging | relocking _ | creating | putting | filled | sending | leaving => true
  | _ => false

/-- `lk` is locked next. -/
def ThreadAt.WantsLk : ThreadAt → Bool
  | putLk | candidateLk | relocking _ | flushLk | readLk | taskLk _ => true
  | _ => false

def ThreadAt.IsWorker : ThreadAt → Bool
  | idle | taskLk _ | looking _ | working _ => true
  | _ => false

/-- The resources, and who is where. -/
structure Manager where
  lk : Option ℕ
  writeLk : Option ℕ
  tasks : List TaskType
  threads : ℕ → ThreadAt

/-- What a step finds in the data, the database or the clock. -/
inductive Answer where
  | yes
  | no
  | fail
deriving DecidableEq

inductive ManagerEvent where
  /-- A call of `withWritableGroup`, in `Batch.Put`. -/
  | put (j : ℕ)
  | flush (j : ℕ)
  /-- A call of `withReadableGroup`, in `View` or `Offload`. -/
  | read (j : ℕ)
  /-- A goroutine of `resumeGroup`. -/
  | resume (j : ℕ) (tt : TaskType)
  | step (j : ℕ) (a : Answer)
deriving DecidableEq

namespace Manager

/-- The store is started, with its workers. -/
def start (workerCount : ℕ) : Manager :=
  ⟨none, none, [], fun j => if j < workerCount then .idle else .done⟩

def goto (j : ℕ) (at_ : ThreadAt) (m : Manager) : Manager :=
  { m with threads := Function.update m.threads j at_ }

/-- `lk.Lock`: nothing happens while it is held. -/
def lock (j : ℕ) (at_ : ThreadAt) (m : Manager) : Manager :=
  if m.lk = none then { m.goto j at_ with lk := some j } else m

/-- `lk.Unlock`. -/
def unlock (j : ℕ) (at_ : ThreadAt) (m : Manager) : Manager := { m.goto j at_ with lk := none }

/-- `writeLk.Lock`. -/
def lockWrite (j : ℕ) (at_ : ThreadAt) (m : Manager) : Manager :=
  if m.writeLk = none then { m.goto j at_ with writeLk := some j } else m

/-- A send on the channel: the sender is parked at `full` while it is full. -/
def send (j : ℕ) (tt : TaskType) (at_ full : ThreadAt) (m : Manager) : Manager :=
  -- a full channel parks the sender, with what it holds
  if m.tasks.length < maxTasks then { m.goto j at_ with tasks := m.tasks ++ [tt] }
  else m.goto j full

/-- `withWritableGroup` and, from `counting` on, `ensureSpaceForGroup`. -/
def putStep (j : ℕ) (a : Answer) (m : Manager) : ThreadAt → Manager
  | .putLk => m.lock j .putWriteLk
  | .putWriteLk => m.lockWrite j .selecting
  | .selecting =>
    match a with
    | .yes => m.goto j .putting
    | .no => m.goto j .counting
    | .fail => m.goto j .leaving
  | .counting =>
    match a with
    | .yes => m.goto j .creating
    | .no => m.goto j .seeking
    | .fail => m.goto j .leaving
  | .seeking =>
    match a with
    | .yes => m.unlock j .candidateLk
    | .no => m.unlock j .sleeping
    | .fail => m.goto j .leaving
  | .sleeping => if a = .fail then m.goto j (.relocking .fail) else m.goto j (.relocking .seek)
  | .candidateLk => m.lock j .candidateOpening
  | .candidateOpening =>
    -- `lk` is released for the offload, and taken again behind it
    if a = .fail then m.unlock j (.relocking .fail) else m.unlock j .offloadingStaging
  | .offloadingStaging =>
    if a = .fail then m.goto j (.relocking .fail) else m.goto j (.relocking .create)
  | .relocking .seek => m.lock j .seeking
  | .relocking .create => m.lock j .creating
  | .relocking .fail => m.lock j .leaving
  | .creating => if a = .fail then m.goto j .leaving else m.goto j .putting
  | .putting => if a = .yes then m.goto j .filled else m.goto j .leaving
  | .filled => m.send j .finalize .leaving .sending
  | .sending => m.send j .finalize .leaving .sending
  -- the deferred unlocks
  | .leaving => { m.goto j .done with lk := none, writeLk := none }
  | _ => m

/-- `Flush`: each sync is done without `lk`. -/
def flushStep (j : ℕ) (a : Answer) (m : Manager) : ThreadAt → Manager
  | .flushLk => m.lock j .flushing
  | .flushing => if a = .yes then m.unlock j .syncing else m.unlock j .done
  | .syncing => m.goto j .flushLk
  | _ => m

/-- `withReadableGroup`, and `View` goes on to its next group. -/
def readStep (j : ℕ) (a : Answer) (m : Manager) : ThreadAt → Manager
  | .readLk => m.lock j .opening
  | .opening => if a = .fail then m.unlock j .done else m.unlock j .reading
  | .reading => if a = .yes then m.goto j .readLk else m.goto j .done
  | .resuming tt => m.send j tt .done (.resuming tt)
  | _ => m

/-- `groupWorker` and `workerExecTask`: `Finalize` falls through to
`GenCommP`. -/
def workerStep (j : ℕ) (a : Answer) (m : Manager) : ThreadAt → Manager
  | .idle =>
    match m.tasks with
    | [] => m
    | tt :: rest => { m.goto j (.taskLk tt) with tasks := rest }
  | .taskLk tt => m.lock j (.looking tt)
  | .looking tt => if a = .fail then m.unlock j .idle else m.unlock j (.working tt)
  | .working .finalize => m.goto j (.taskLk .genCommP)
  | .working _ => m.goto j .idle
  | _ => m

/-- The thread `j` takes its next step, if it can. -/
def step (j : ℕ) (a : Answer) (m : Manager) : Manager :=
  match m.threads j with
  | .done => m
  | .flushLk => flushStep j a m .flushLk
  | .flushing => flushStep j a m .flushing
  | .syncing => flushStep j a m .syncing
  | .readLk => readStep j a m .readLk
  | .opening => readStep j a m .opening
  | .reading => readStep j a m .reading
  | .resuming tt => readStep j a m (.resuming tt)
  | .idle => workerStep j a m .idle
  | .taskLk tt => workerStep j a m (.taskLk tt)
  | .looking tt => workerStep j a m (.looking tt)
  | .working tt => workerStep j a m (.working tt)
  | at_ => putStep j a m at_

/-- A call, or a goroutine, begins at `at_`. -/
def begin_ (j : ℕ) (at_ : ThreadAt) (m : Manager) : Manager :=
  if m.threads j = .done then m.goto j at_ else m

def next (m : Manager) : ManagerEvent → Manager
  | .put j => m.begin_ j .putLk
  | .flush j => m.begin_ j .flushLk
  | .read j => m.begin_ j .readLk
  | .resume j tt => m.begin_ j (.resuming tt)
  | .step j a => m.step j a

/-! ## Who waits for whom -/

/-- `i` waits for a resource that `j` holds. The slots of a full channel are
the workers' to give. -/
def WaitsFor (m : Manager) (i j : ℕ) : Prop :=
  ((m.threads i).WantsLk = true ∧ m.lk = some j) ∨
    (m.threads i = .putWriteLk ∧ m.writeLk = some j) ∨
    ((m.threads i = .sending ∨ ∃ tt, m.threads i = .resuming tt) ∧
      maxTasks ≤ m.tasks.length ∧ (m.threads j).IsWorker = true)

/-- **What keeps deadlocks away**: a `Put` takes `lk` only while `writeLk`
is free, and a `Put` that has filled its group finds room in the channel. -/
def Orderly (m : Manager) : ManagerEvent → Prop
  | .step j _ =>
    (m.threads j = .putLk → m.lk = none → m.writeLk = none) ∧
      (m.threads j = .filled → m.tasks.length < maxTasks)
  | _ => True

/-! ## What a step does -/

variable {m m' : Manager} {i j : ℕ} {at_ : ThreadAt} {a : Answer} {tt : TaskType}
variable {e : ManagerEvent}

@[simp] theorem goto_threads_self : (m.goto j at_).threads j = at_ := Function.update_self ..

theorem goto_threads_of_ne (hij : i ≠ j) : (m.goto j at_).threads i = m.threads i :=
  Function.update_of_ne hij ..

/-- The locks held at the one place are held at the other. -/
structure SameLocks (at_ at' : ThreadAt) : Prop where
  lk : at'.HoldsLk = at_.HoldsLk
  writeLk : at'.HoldsWriteLk = at_.HoldsWriteLk

/-- **Everything that a step can do.** -/
inductive Moves (j : ℕ) (m : Manager) : Manager → Prop where
  | stays : Moves j m m
  | goes (at_ : ThreadAt) (tasks : List TaskType) (hsame : SameLocks (m.threads j) at_)
      (hwrite : at_ ≠ .putWriteLk) (hsending : at_ ≠ .sending) :
      Moves j m { m.goto j at_ with tasks := tasks }
  | locks (at_ : ThreadAt) (hfree : m.lk = none) (hlk : at_.HoldsLk = true)
      (hwriteLk : at_.HoldsWriteLk = (m.threads j).HoldsWriteLk)
      (hwrite : at_ = .putWriteLk → m.threads j = .putLk) (hsending : at_ ≠ .sending) :
      Moves j m { m.goto j at_ with lk := some j }
  | unlocks (at_ : ThreadAt) (hheld : (m.threads j).HoldsLk = true) (hlk : at_.HoldsLk = false)
      (hwriteLk : at_.HoldsWriteLk = (m.threads j).HoldsWriteLk) :
      Moves j m { m.goto j at_ with lk := none }
  | locksWrite (hfree : m.writeLk = none) (hat : m.threads j = .putWriteLk) :
      Moves j m { m.goto j .selecting with writeLk := some j }
  | parks (hat : m.threads j = .filled) (hfull : maxTasks ≤ m.tasks.length) :
      Moves j m (m.goto j .sending)
  | leaves (hat : m.threads j = .leaving) :
      Moves j m { m.goto j .done with lk := none, writeLk := none }

theorem moves_goto (hsame : SameLocks (m.threads j) at_) (hwrite : at_ ≠ .putWriteLk)
    (hsending : at_ ≠ .sending) : Moves j m (m.goto j at_) :=
  .goes at_ m.tasks hsame hwrite hsending

theorem moves_lock (hlk : at_.HoldsLk = true)
    (hwriteLk : at_.HoldsWriteLk = (m.threads j).HoldsWriteLk)
    (hwrite : at_ = .putWriteLk → m.threads j = .putLk) (hsending : at_ ≠ .sending) :
    Moves j m (m.lock j at_) := by
  unfold lock
  split
  next hfree => exact .locks at_ hfree hlk hwriteLk hwrite hsending
  · exact .stays

theorem moves_unlock (hheld : (m.threads j).HoldsLk = true) (hlk : at_.HoldsLk = false)
    (hwriteLk : at_.HoldsWriteLk = (m.threads j).HoldsWriteLk) : Moves j m (m.unlock j at_) :=
  .unlocks at_ hheld hlk hwriteLk

/-- A send that goes through, or leaves the sender where it is. -/
theorem moves_send (hat : m.threads j = at_) {at' : ThreadAt} (hsame : SameLocks at_ at')
    (hwrite : at' ≠ .putWriteLk) (hsending : at' ≠ .sending) :
    Moves j m (m.send j tt at' at_) := by
  subst hat
  unfold send
  split
  · exact .goes at' _ hsame hwrite hsending
  · have hself : m.goto j (m.threads j) = m := by
      unfold goto
      rw [Function.update_eq_self]
    rw [hself]
    exact .stays

/-- The places from which a step goes on under the same locks. -/
theorem sameLocks_of (hat : m.threads j = at_) {at' : ThreadAt} (hlk : at'.HoldsLk = at_.HoldsLk)
    (hwriteLk : at'.HoldsWriteLk = at_.HoldsWriteLk) : SameLocks (m.threads j) at' := by
  rw [hat]
  exact ⟨hlk, hwriteLk⟩

theorem putStep_moves (hat : m.threads j = at_) : Moves j m (putStep j a m at_) := by
  have hgoes : ∀ at', at'.HoldsLk = at_.HoldsLk → at'.HoldsWriteLk = at_.HoldsWriteLk →
      at' ≠ .putWriteLk → at' ≠ .sending → Moves j m (m.goto j at') := fun at' hlk hw =>
    moves_goto (sameLocks_of hat hlk hw)
  have hlocks : ∀ at', at'.HoldsLk = true → at'.HoldsWriteLk = at_.HoldsWriteLk →
      (at' = .putWriteLk → at_ = .putLk) → at' ≠ .sending → Moves j m (m.lock j at') :=
    fun at' hlk hw hwrite => moves_lock hlk (by rw [hat]; exact hw) (by rw [hat]; exact hwrite)
  have hunlocks : ∀ at', at_.HoldsLk = true → at'.HoldsLk = false →
      at'.HoldsWriteLk = at_.HoldsWriteLk → Moves j m (m.unlock j at') := fun at' hheld hlk hw =>
    moves_unlock (by rw [hat]; exact hheld) hlk (by rw [hat]; exact hw)
  unfold putStep
  split
  · exact hlocks _ rfl rfl (fun _ => rfl) nofun
  · unfold lockWrite
    split
    next hfree => exact .locksWrite hfree hat
    · exact .stays
  · cases a <;> exact hgoes _ rfl rfl nofun nofun
  · cases a <;> exact hgoes _ rfl rfl nofun nofun
  · cases a with
    | yes => exact hunlocks _ rfl rfl rfl
    | no => exact hunlocks _ rfl rfl rfl
    | fail => exact hgoes _ rfl rfl nofun nofun
  · split <;> exact hgoes _ rfl rfl nofun nofun
  · exact hlocks _ rfl rfl nofun nofun
  · split <;> exact hunlocks _ rfl rfl rfl
  · split <;> exact hgoes _ rfl rfl nofun nofun
  · exact hlocks _ rfl rfl nofun nofun
  · exact hlocks _ rfl rfl nofun nofun
  · exact hlocks _ rfl rfl nofun nofun
  · split <;> exact hgoes _ rfl rfl nofun nofun
  · split <;> exact hgoes _ rfl rfl nofun nofun
  · unfold send
    split
    · exact .goes _ _ (sameLocks_of hat rfl rfl) nofun nofun
    next hfull => exact .parks hat (Nat.le_of_not_lt hfull)
  · exact moves_send hat ⟨rfl, rfl⟩ nofun nofun
  · exact .leaves hat
  · exact .stays

theorem flushStep_moves (hat : m.threads j = at_) : Moves j m (flushStep j a m at_) := by
  unfold flushStep
  split
  · exact moves_lock rfl (by rw [hat]; rfl) nofun nofun
  · split <;> exact moves_unlock (by rw [hat]; rfl) rfl (by rw [hat]; rfl)
  · exact moves_goto (sameLocks_of hat rfl rfl) nofun nofun
  · exact .stays

theorem readStep_moves (hat : m.threads j = at_) : Moves j m (readStep j a m at_) := by
  unfold readStep
  split
  · exact moves_lock rfl (by rw [hat]; rfl) nofun nofun
  · split <;> exact moves_unlock (by rw [hat]; rfl) rfl (by rw [hat]; rfl)
  · split <;> exact moves_goto (sameLocks_of hat rfl rfl) nofun nofun
  · exact moves_send hat ⟨rfl, rfl⟩ nofun nofun
  · exact .stays

theorem workerStep_moves (hat : m.threads j = at_) : Moves j m (workerStep j a m at_) := by
  unfold workerStep
  split
  · split
    · exact .stays
    · exact .goes _ _ (sameLocks_of hat rfl rfl) nofun nofun
  · exact moves_lock rfl (by rw [hat]; rfl) nofun nofun
  · split <;> exact moves_unlock (by rw [hat]; rfl) rfl (by rw [hat]; rfl)
  · exact moves_goto (sameLocks_of hat rfl rfl) nofun nofun
  · exact moves_goto (sameLocks_of hat rfl rfl) nofun nofun
  · exact .stays

theorem step_moves : Moves j m (m.step j a) := by
  unfold step
  split
  · exact .stays
  · exact flushStep_moves ‹_›
  · exact flushStep_moves ‹_›
  · exact flushStep_moves ‹_›
  · exact readStep_moves ‹_›
  · exact readStep_moves ‹_›
  · exact readStep_moves ‹_›
  · exact readStep_moves ‹_›
  · exact workerStep_moves ‹_›
  · exact workerStep_moves ‹_›
  · exact workerStep_moves ‹_›
  · exact workerStep_moves ‹_›
  · exact putStep_moves rfl

theorem begin_moves (hlk : at_.HoldsLk = false) (hwriteLk : at_.HoldsWriteLk = false)
    (hwrite : at_ ≠ .putWriteLk) (hsending : at_ ≠ .sending) : Moves j m (m.begin_ j at_) := by
  unfold begin_
  split
  next hat => exact moves_goto (sameLocks_of hat hlk hwriteLk) hwrite hsending
  · exact .stays

/-! ## The locks are held where they should be -/

/-- The threads that are where a lock is held are the ones that hold it. -/
structure Held (m : Manager) : Prop where
  lk : ∀ i, m.lk = some i ↔ (m.threads i).HoldsLk = true
  writeLk : ∀ i, m.writeLk = some i ↔ (m.threads i).HoldsWriteLk = true

theorem start_held {workerCount : ℕ} : Held (start workerCount) := by
  refine ⟨fun i => iff_of_false nofun ?_, fun i => iff_of_false nofun ?_⟩ <;>
  · unfold start
    dsimp only
    split <;> nofun

/-- Another one holds no lock that `j` holds. -/
theorem not_holds {o : Option ℕ} {f : ThreadAt → Bool} (h : ∀ i, o = some i ↔ f (m.threads i) = true)
    (hj : f (m.threads j) = true) (hij : i ≠ j) : ¬ f (m.threads i) = true := fun hi =>
  hij (Option.some.inj (((h i).mpr hi).symm.trans ((h j).mpr hj)))

/-- A lock that stays where it is, over a step of `j` from and to places
that agree on it. -/
theorem kept {o : Option ℕ} {f : ThreadAt → Bool} (h : ∀ i, o = some i ↔ f (m.threads i) = true)
    (hat : f at_ = f (m.threads j)) (i : ℕ) :
    o = some i ↔ f (Function.update m.threads j at_ i) = true := by
  by_cases hij : i = j
  · rw [hij, Function.update_self, hat]
    exact h j
  · rw [Function.update_of_ne hij]
    exact h i

/-- A lock that was free, and is taken by `j`. -/
theorem taken {o : Option ℕ} {f : ThreadAt → Bool} (h : ∀ i, o = some i ↔ f (m.threads i) = true)
    (hfree : o = none) (hat : f at_ = true) (i : ℕ) :
    some j = some i ↔ f (Function.update m.threads j at_ i) = true := by
  by_cases hij : i = j
  · rw [hij, Function.update_self]
    exact iff_of_true rfl hat
  · rw [Function.update_of_ne hij, ← h i, hfree]
    exact iff_of_false (fun heq => hij (Option.some.inj heq).symm) nofun

/-- A lock that `j` held, and gives back. -/
theorem given {o : Option ℕ} {f : ThreadAt → Bool} (h : ∀ i, o = some i ↔ f (m.threads i) = true)
    (hheld : f (m.threads j) = true) (hat : f at_ = false) (i : ℕ) :
    none = some i ↔ f (Function.update m.threads j at_ i) = true := by
  refine iff_of_false nofun ?_
  by_cases hij : i = j
  · rw [hij, Function.update_self, hat]
    nofun
  · rw [Function.update_of_ne hij]
    exact not_holds h hheld hij

/-- **The locks are held by whom they should be**, whatever happens. -/
theorem Held.moves (h : Held m) (hmoves : Moves j m m') : Held m' := by
  cases hmoves with
  | stays => exact h
  | goes at_ tasks hsame => exact ⟨kept h.lk hsame.lk, kept h.writeLk hsame.writeLk⟩
  | locks at_ hfree hlk hwriteLk => exact ⟨taken h.lk hfree hlk, kept h.writeLk hwriteLk⟩
  | unlocks at_ hheld hlk hwriteLk => exact ⟨given h.lk hheld hlk, kept h.writeLk hwriteLk⟩
  | locksWrite hfree hat => exact ⟨kept h.lk (by rw [hat]; rfl), taken h.writeLk hfree rfl⟩
  | parks hat => exact ⟨kept h.lk (by rw [hat]; rfl), kept h.writeLk (by rw [hat]; rfl)⟩
  | leaves hat =>
    exact ⟨given h.lk (by rw [hat]; rfl) rfl, given h.writeLk (by rw [hat]; rfl) rfl⟩

/-! ## No deadlock -/

/-- **The holder of a lock never waits**: a `Put` that is about to take
`writeLk` finds it free, and no `Put` is parked at the channel. -/
structure Inv (m : Manager) : Prop extends Held m where
  free : ∀ i, m.threads i = .putWriteLk → m.writeLk = none
  unparked : ∀ i, m.threads i ≠ .sending

theorem start_inv {workerCount : ℕ} : Inv (start workerCount) := by
  refine ⟨start_held, fun i hi => rfl, fun i hi => ?_⟩
  unfold start at hi
  dsimp only at hi
  split at hi <;> cases hi

/-- Where a thread is behind a step of `j` to `at_`. -/
theorem thread_cases {at' : ThreadAt} (h : Function.update m.threads j at_ i = at') :
    i = j ∧ at_ = at' ∨ i ≠ j ∧ m.threads i = at' := by
  by_cases hij : i = j
  · rw [hij, Function.update_self] at h
    exact Or.inl ⟨hij, h⟩
  · rw [Function.update_of_ne hij] at h
    exact Or.inr ⟨hij, h⟩

theorem Inv.moves (h : Inv m) (hmoves : Moves j m m') (horderly : m.Orderly (.step j a)) :
    Inv m' := by
  have hheld := h.toHeld.moves hmoves
  have hfree := h.free
  have hunparked := h.unparked
  cases hmoves with
  | stays => exact h
  | goes at_ tasks hsame hwrite hsending =>
    refine ⟨hheld, fun i hi => ?_, fun i hi => ?_⟩
    · rcases thread_cases hi with ⟨-, hat⟩ | ⟨-, hi⟩
      · exact absurd hat hwrite
      · exact hfree i hi
    · rcases thread_cases hi with ⟨-, hat⟩ | ⟨-, hi⟩
      · exact hsending hat
      · exact hunparked i hi
  -- in order, `lk` is not taken before `writeLk` while another has that
  | locks at_ hlk _ _ hwrite hsending =>
    refine ⟨hheld, fun i hi => ?_, fun i hi => ?_⟩
    · rcases thread_cases hi with ⟨-, hat⟩ | ⟨-, hi⟩
      · exact horderly.1 (hwrite hat) hlk
      · exact hfree i hi
    · rcases thread_cases hi with ⟨-, hat⟩ | ⟨-, hi⟩
      · exact hsending hat
      · exact hunparked i hi
  | unlocks at_ _ hlk =>
    refine ⟨hheld, fun i hi => ?_, fun i hi => ?_⟩
    · rcases thread_cases hi with ⟨-, rfl⟩ | ⟨-, hi⟩
      · cases hlk
      · exact hfree i hi
    · rcases thread_cases hi with ⟨-, rfl⟩ | ⟨-, hi⟩
      · cases hlk
      · exact hunparked i hi
  | locksWrite _ hat =>
    refine ⟨hheld, fun i hi => ?_, fun i hi => ?_⟩
    · rcases thread_cases hi with ⟨-, hi⟩ | ⟨hij, hi⟩
      · cases hi
      -- the one that is about to take `writeLk` holds `lk`
      · exact absurd (by rw [hi]; rfl) (not_holds h.lk (by rw [hat]; rfl) hij)
    · rcases thread_cases hi with ⟨-, hi⟩ | ⟨-, hi⟩
      · cases hi
      · exact hunparked i hi
  | parks hat hfull => exact absurd (horderly.2 hat) (Nat.not_lt.mpr hfull)
  | leaves hat =>
    refine ⟨hheld, fun i hi => rfl, fun i hi => ?_⟩
    rcases thread_cases hi with ⟨-, hi⟩ | ⟨-, hi⟩
    · cases hi
    · exact hunparked i hi

theorem begin_inv (h : Inv m) (hlk : at_.HoldsLk = false) (hwriteLk : at_.HoldsWriteLk = false)
    (hwrite : at_ ≠ .putWriteLk) (hsending : at_ ≠ .sending) : Inv (m.begin_ j at_) := by
  unfold begin_
  split
  next hat =>
    refine h.moves (a := .yes) (moves_goto (sameLocks_of hat hlk hwriteLk) hwrite hsending) ?_
    exact ⟨fun hput => absurd (hat.symm.trans hput) nofun,
      fun hfilled => absurd (hat.symm.trans hfilled) nofun⟩
  · exact h

theorem next_inv (h : Inv m) (horderly : m.Orderly e) : Inv (m.next e) := by
  cases e with
  | put j => exact begin_inv h rfl rfl nofun nofun
  | flush j => exact begin_inv h rfl rfl nofun nofun
  | read j => exact begin_inv h rfl rfl nofun nofun
  | resume j tt => exact begin_inv h rfl rfl nofun nofun
  | step j a => exact h.moves step_moves horderly

/-- How far a thread is from one that holds a lock: the senders wait for
the workers, and all others for `lk`. -/
def rank : ThreadAt → ℕ
  | .resuming _ => 2
  | .putLk => 1
  | .candidateLk => 1
  | .relocking _ => 1
  | .flushLk => 1
  | .readLk => 1
  | .taskLk _ => 1
  | _ => 0

theorem rank_wantsLk (h : at_.WantsLk = true) : rank at_ = 1 := by
  cases at_ with
  | putLk | candidateLk | relocking | flushLk | readLk | taskLk => rfl
  | _ => cases h

theorem rank_holdsLk (h : at_.HoldsLk = true) : rank at_ = 0 := by
  cases at_ with
  | done | sleeping | candidateLk | offloadingStaging | relocking | putLk | flushLk | syncing
  | readLk | reading | resuming | idle | taskLk | working => cases h
  | _ => rfl

theorem rank_isWorker (h : at_.IsWorker = true) : rank at_ ≤ 1 := by
  cases at_ with
  | taskLk => exact Nat.le_refl _
  | idle | looking | working => exact Nat.zero_le _
  | _ => cases h

theorem Inv.waits_rank (h : Inv m) (hwaits : m.WaitsFor i j) :
    rank (m.threads j) < rank (m.threads i) := by
  rcases hwaits with ⟨hwants, hlk⟩ | ⟨hat, hwriteLk⟩ | ⟨hat, -, hworker⟩
  · rw [rank_wantsLk hwants, rank_holdsLk ((h.lk j).mp hlk)]
    exact Nat.one_pos
  · rw [h.free i hat] at hwriteLk
    cases hwriteLk
  · rcases hat with hat | ⟨tt, hat⟩
    · exact absurd hat (h.unparked i)
    · rw [hat]
      exact Nat.lt_succ_of_le (rank_isWorker hworker)

/-- **No deadlock**, in every run in which a `Put` takes `lk` only while
`writeLk` is free, and a `Put` that has filled its group finds room in the
channel. -/
theorem no_deadlock {workerCount : ℕ} {es : List ManagerEvent} {S : Set ℕ}
    (h : Always next Orderly (start workerCount) es) :
    ¬ Stuck (runEvents next (start workerCount) es).WaitsFor S :=
  not_stuck_of_rank
    fun _ _ => (runEvents_invariant (fun _ _ => next_inv) start_inv h).waits_rank

/-- A `Put` fills its group, and a worker takes the task. -/
def fillGroup : List ManagerEvent :=
  [.put 1, .step 1 .yes, .step 1 .yes, .step 1 .yes, .step 1 .yes, .step 1 .yes, .step 0 .yes]

theorem no_deadlock_fillGroup : ¬ Stuck (runEvents next (start 1) fillGroup).WaitsFor {0, 1} := by
  refine no_deadlock ⟨trivial, ?_, ?_, ?_, ?_, ?_, ?_, trivial⟩ <;>
  · unfold Orderly
    decide

/-- A `Put` waits for space, and another one takes `lk`. -/
def waitForSpace : List ManagerEvent :=
  [.put 1, .step 1 .yes, .step 1 .yes, .step 1 .no, .step 1 .no, .step 1 .no] ++
    [.put 2, .step 2 .yes, .step 1 .yes]

/-- **A `Put` that waits for space is locked out** by the next one, which
waits for it. -/
theorem deadlock_waitForSpace : Stuck (runEvents next (start 1) waitForSpace).WaitsFor {1, 2} :=
  stuck_pair (by decide) (Or.inl ⟨rfl, rfl⟩) (Or.inr (Or.inl ⟨rfl, rfl⟩))

/-! ## The conditions are needed -/

theorem run_held {workerCount : ℕ} (es : List ManagerEvent) :
    Held (runEvents next (start workerCount) es) := by
  refine runEvents_stable (fun m e hm => ?_) start_held es
  cases e with
  | put j => exact hm.moves (begin_moves rfl rfl nofun nofun)
  | flush j => exact hm.moves (begin_moves rfl rfl nofun nofun)
  | read j => exact hm.moves (begin_moves rfl rfl nofun nofun)
  | resume j tt => exact hm.moves (begin_moves rfl rfl nofun nofun)
  | step j a => exact hm.moves step_moves

/-- **A `Put` that is parked at the full channel** is stuck with every
worker that comes for `lk`. -/
theorem parked_deadlocks (h : Held m) (hat : m.threads i = .sending)
    (hfull : maxTasks ≤ m.tasks.length) (hworker : m.threads j = .taskLk tt) :
    Stuck m.WaitsFor {i, j} := by
  have hlk : m.lk = some i := (h.lk i).mpr (by rw [hat]; rfl)
  have hij : i ≠ j := by
    rintro rfl
    rw [hat] at hworker
    cases hworker
  refine stuck_pair hij (Or.inr (Or.inr ⟨Or.inl hat, hfull, ?_⟩)) (Or.inl ⟨?_, hlk⟩)
  · rw [hworker]
    rfl
  · rw [hworker]
    rfl

/-- Who holds `writeLk` without `lk` is in `ensureSpaceForGroup`, and comes
for `lk` with its next step if it is not there. -/
theorem comes_for_lk (hwriteLk : (m.threads i).HoldsWriteLk = true)
    (hlk : ¬ (m.threads i).HoldsLk = true) : (m.threads i).WantsLk = true ∨
      ∃ r, m.step i .yes = m.goto i (.relocking r) := by
  unfold step
  cases hat : m.threads i with
  | sleeping => exact Or.inr ⟨.seek, rfl⟩
  | offloadingStaging => exact Or.inr ⟨.create, rfl⟩
  | candidateLk | relocking => exact Or.inl rfl
  | done | putLk | putWriteLk | flushLk | flushing | syncing | readLk | opening | reading
  | resuming | idle | taskLk | looking | working =>
    rw [hat] at hwriteLk
    cases hwriteLk
  | selecting | counting | seeking | candidateOpening | creating | putting | filled | sending
  | leaving =>
    rw [hat] at hlk
    exact absurd rfl hlk

/-- **A `Put` that takes `lk` while `writeLk` is held** goes on to a
deadlock with the one that holds it. -/
theorem inversion_deadlocks (h : Held m) (hat : m.threads j = .putLk) (hlk : m.lk = none)
    (hwriteLk : m.writeLk = some i) :
    ∃ es, Stuck (runEvents next m (.step j .yes :: es)).WaitsFor {i, j} := by
  have hi := (h.writeLk i).mp hwriteLk
  have hnot : ¬ (m.threads i).HoldsLk = true := fun hholds => by
    rw [(h.lk i).mpr hholds] at hlk
    cases hlk
  have hij : i ≠ j := by
    rintro rfl
    rw [hat] at hi
    cases hi
  have hstep : m.next (.step j .yes) = { m.goto j .putWriteLk with lk := some j } := by
    change m.step j .yes = _
    unfold step
    rw [hat]
    exact if_pos hlk
  have hthread : (m.next (.step j .yes)).threads i = m.threads i := by
    rw [hstep]
    exact goto_threads_of_ne hij
  have hwaits : (m.next (.step j .yes)).threads j = .putWriteLk := by
    rw [hstep]
    exact goto_threads_self
  rcases comes_for_lk (m := m.next (.step j .yes)) (i := i) (by rw [hthread]; exact hi)
    (by rw [hthread]; exact hnot) with hwants | ⟨r, hmoves⟩
  · refine ⟨[], stuck_pair hij (Or.inl ⟨hwants, ?_⟩) (Or.inr (Or.inl ⟨hwaits, ?_⟩))⟩
    · change (m.next (.step j .yes)).lk = some j
      rw [hstep]
    · change (m.next (.step j .yes)).writeLk = some i
      rw [hstep]
      exact hwriteLk
  · refine ⟨[.step i .yes], ?_⟩
    change Stuck ((m.next (.step j .yes)).step i .yes).WaitsFor {i, j}
    rw [hmoves]
    refine stuck_pair hij (Or.inl ⟨?_, ?_⟩) (Or.inr (Or.inl ⟨?_, ?_⟩))
    · rw [goto_threads_self]
      rfl
    · rw [hstep]
      rfl
    · rw [goto_threads_of_ne hij.symm]
      exact hwaits
    · rw [hstep]
      exact hwriteLk

end Manager

end Rbstor

end Ribs
