import Mathlib.Data.List.Dedup
import Mathlib.Data.List.Rotate
import Ribs.Rbdeal.Deals
import Ribs.Rbstor.Group
/-!
# Rbdeal — repairing groups

A group that was offloaded and has too few retrievable deals is put into
the table `repairs`, a worker is assigned to it, fetches its data and
gives it to the storage, which takes it for an offloaded group only. The
row goes after that, in a statement of its own. The state of a group is a
column of the table `groups`, and a field of the group while it is open.
-/

namespace Ribs

open Common
open Rbstor (GroupKey GroupState)

namespace Rbdeal

/-! ## Tables and workers -/

/-- The state of a group: the column, and the field when the group is open. -/
structure StoredGroup where
  row : GroupState
  mem : Option GroupState
deriving DecidableEq

/-- A row of `repairs`; its key is the group. -/
structure Repair where
  groupId : GroupKey
  retrievableDeals : ℕ
  worker : Option ℕ
  lastAttempt : ℤ
deriving DecidableEq

/-- Where a worker is. -/
inductive RepairAt where
  /-- Before `GetAssignedRepairWorkByWorkerID`. -/
  | asking
  /-- Before `AddRepairsForLowRetrievableDeals`. -/
  | adding
  /-- Before `AssignRepairToWorker`. -/
  | assigning
  /-- In `fetchGroup`, or at the file it left. -/
  | fetching (g : GroupKey)
  /-- Before the look of `LoadFilCar` at the state. -/
  | checking (g : GroupKey)
  /-- In `LoadData`. -/
  | loading (g : GroupKey)
  /-- In `advanceState`, before `SetGroupState`. -/
  | advancing (g : GroupKey)
  /-- Before `DelRepair`. -/
  | loaded (g : GroupKey)
  /-- Before the file is removed. -/
  | removing
  /-- Before `UpdateRepairOnStepNotDone`. -/
  | failed
deriving DecidableEq

/-- The group that a worker is at. -/
def RepairAt.group? : RepairAt → Option GroupKey
  | fetching g | checking g | loading g | advancing g | loaded g => some g
  | asking | adding | assigning | removing | failed => none

/-- The groups, the table `repairs` and the workers. -/
structure Repairs where
  groups : GroupKey → StoredGroup
  repairs : List Repair
  workers : ℕ → RepairAt

/-- What a step of a worker meets: whether it succeeds, the table `deals`,
the row that comes first where the order does not say, and the time. -/
structure RepairAnswer where
  ok : Bool
  deals : List Deal := []
  pick : ℕ := 0
  now : ℤ := 0

inductive RepairEvent where
  | worker (w : ℕ) (a : RepairAnswer)
  | openGroup (g : GroupKey)
  /-- A group advances, and whether `SetGroupState` succeeds. -/
  | advance (g : GroupKey) (st : GroupState) (ok : Bool)
  /-- The process dies, and is started again. -/
  | restart

/-! ## The statements -/

/-- A deal that counts as retrievable. -/
def retrievable (d : Deal) : Bool :=
  decide (0 < d.lastRetrievalCheck ∧ d.lastRetrievalCheck < d.lastRetrievalCheckSuccess + 3600 * 24)

/-- The select of `AddRepairsForLowRetrievableDeals`. -/
def lowRetrievable (groups : GroupKey → StoredGroup) (deals : List Deal) : List (GroupKey × ℕ) :=
  let allGroups := ((deals.map fun d => d.info.groupID).filter fun g =>
    (groups g).row = .offloaded).dedup
  (allGroups.map fun g =>
    (g, (deals.filter fun d => d.info.groupID = g && retrievable d).length)).filter fun e => e.2 < 3

/-- One row of the insert. -/
def upsertRepair (repairs : List Repair) (e : GroupKey × ℕ) : List Repair :=
  if repairs.any fun r => r.groupId = e.1 then
    repairs.map fun r => if r.groupId = e.1 then { r with retrievableDeals := e.2 } else r
  else repairs ++ [⟨e.1, e.2, none, 0⟩]

def addRepairsForLowRetrievableDeals (groups : GroupKey → StoredGroup) (deals : List Deal)
    (repairs : List Repair) : List Repair :=
  (lowRetrievable groups deals).foldl upsertRepair repairs

/-- `ORDER BY last_attempt ASC, retrievable_deals ASC`. -/
def Repair.before (r r' : Repair) : Bool :=
  r.lastAttempt < r'.lastAttempt ||
    (r.lastAttempt = r'.lastAttempt && r.retrievableDeals ≤ r'.retrievableDeals)

/-- The row that `AssignRepairToWorker` takes. -/
def nextRepair (repairs : List Repair) (pick : ℕ) : Option Repair :=
  let free := repairs.filter fun r => r.worker = none
  ((free.filter fun r => free.all fun r' => r.before r').rotate pick).head?

def setWorker (w : ℕ) (g : GroupKey) (repairs : List Repair) : List Repair :=
  repairs.map fun r => if r.groupId = g then { r with worker := some w } else r

def getAssignedRepairWorkByWorkerID (w : ℕ) (repairs : List Repair) : List GroupKey :=
  (repairs.filter fun r => r.worker = some w).map Repair.groupId

def delRepair (g : GroupKey) (repairs : List Repair) : List Repair :=
  repairs.filter fun r => r.groupId ≠ g

def updateRepairOnStepNotDone (w : ℕ) (now : ℤ) (repairs : List Repair) : List Repair :=
  repairs.map fun r =>
    if r.worker = some w then { r with worker := none, lastAttempt := now } else r

/-! ## The steps -/

namespace StoredGroup

/-- The group is open. -/
def opened (g : StoredGroup) : StoredGroup := { g with mem := some (g.mem.getD g.row) }

/-- What a group can do without a repair. The task of a reload is there
once the row says so. -/
def advances (g : StoredGroup) (st : GroupState) : Bool :=
  match g.mem, st with
  | some .writable, .full => true
  | some .full, .vrcarDone => true
  | some .vrcarDone, .localReadyForDeals => true
  | some .localReadyForDeals, .offloaded => true
  | some .reload, .localReadyForDeals => g.row = .reload
  | _, _ => false

/-- `advanceState`. -/
def advanced (g : StoredGroup) (st : GroupState) (ok : Bool) : StoredGroup :=
  if g.advances st then ⟨if ok then st else g.row, some st⟩ else g

end StoredGroup

namespace Repairs

variable (s : Repairs)

def setWorkerAt (w : ℕ) (x : RepairAt) : Repairs :=
  { s with workers := Function.update s.workers w x }

def setGroup (g : GroupKey) (x : StoredGroup) : Repairs :=
  { s with groups := Function.update s.groups g x }

def setRepairs (x : List Repair) : Repairs := { s with repairs := x }

/-- One step of `repairStep`, or of what the worker does behind it. -/
def workerStep (w : ℕ) (a : RepairAnswer) : Repairs :=
  match s.workers w with
  | .asking =>
    -- `getAssignedRepairWork`, which a restart may have left
    if a.ok then
      match ((getAssignedRepairWorkByWorkerID w s.repairs).rotate a.pick).head? with
      | some g => s.setWorkerAt w (.fetching g)
      | none => s.setWorkerAt w .adding
    else s.setWorkerAt w .failed
  | .adding =>
    if a.ok then
      -- `AddRepairsForLowRetrievableDeals`, and then the next group of the queue
      (s.setRepairs (addRepairsForLowRetrievableDeals s.groups a.deals s.repairs)).setWorkerAt w
        .assigning
    else s.setWorkerAt w .failed
  | .assigning =>
    if a.ok then
      match nextRepair s.repairs a.pick with
      | some r =>
        (s.setRepairs (setWorker w r.groupId s.repairs)).setWorkerAt w (.fetching r.groupId)
      | none => s.setWorkerAt w .asking
    else s.setWorkerAt w .failed
  | .fetching g => if a.ok then s.setWorkerAt w (.checking g) else s.setWorkerAt w .failed
  | .checking g =>
    if a.ok then
      -- opened if it was not; only an offloaded group is loaded
      let s := s.setGroup g (s.groups g).opened
      if (s.groups g).mem = some .offloaded then s.setWorkerAt w (.loading g)
      else s.setWorkerAt w .failed
    else s.setWorkerAt w .failed
  | .loading g =>
    if a.ok then
      (s.setGroup g { s.groups g with mem := some .reload }).setWorkerAt w (.advancing g)
    else s.setWorkerAt w .failed
  | .advancing g =>
    -- the state in memory has changed already
    if a.ok then (s.setGroup g { s.groups g with row := .reload }).setWorkerAt w (.loaded g)
    else s.setWorkerAt w .failed
  | .loaded g =>
    if a.ok then (s.setRepairs (delRepair g s.repairs)).setWorkerAt w .removing
    else s.setWorkerAt w .failed
  | .removing => if a.ok then s.setWorkerAt w .asking else s.setWorkerAt w .failed
  | .failed =>
    if a.ok then
      (s.setRepairs (updateRepairOnStepNotDone w a.now s.repairs)).setWorkerAt w .asking
    else s.setWorkerAt w .asking

/-- **One event.** -/
def next : RepairEvent → Repairs
  | .worker w a => s.workerStep w a
  | .openGroup g => s.setGroup g (s.groups g).opened
  | .advance g st ok => s.setGroup g ((s.groups g).advanced st ok)
  | .restart => ⟨fun g => ⟨(s.groups g).row, none⟩, s.repairs, fun _ => .asking⟩

/-- The groups that the next step of a worker hands out. -/
def handedOut (w : ℕ) (a : RepairAnswer) : List GroupKey :=
  match s.workers w with
  | .asking => if a.ok then getAssignedRepairWorkByWorkerID w s.repairs else []
  | .assigning => if a.ok then ((nextRepair s.repairs a.pick).map Repair.groupId).toList else []
  | _ => []

/-- No group is in repair. -/
def init (states : GroupKey → GroupState) : Repairs :=
  ⟨fun g => ⟨states g, none⟩, [], fun _ => .asking⟩

end Repairs

/-! ## What is handed out -/

/-- **The group is offloaded**, by its row and for who looks at it. -/
def StoredGroup.Offloaded (g : StoredGroup) : Prop :=
  g.row = .offloaded ∧ ∀ st, g.mem = some st → st = .offloaded

namespace Repairs

/-- The group is assigned to the worker, which may be at it. -/
def Assigned (s : Repairs) (w : ℕ) (g : GroupKey) : Prop :=
  (∃ r ∈ s.repairs, r.groupId = g ∧ r.worker = some w) ∨ (s.workers w).group? = some g

/-- **Repair work is handed out for offloaded groups only**, and no group
to two workers. `LoadFilCar` finds the group offloaded. -/
structure HandsOutOffloaded (s : Repairs) : Prop where
  one : ∀ w w' g, s.Assigned w g → s.Assigned w' g → w = w'
  offloaded : ∀ w a, ∀ g ∈ s.handedOut w a, (s.groups g).Offloaded
  accepted : ∀ w g, s.workers w = .checking g → (s.groups g).Offloaded

/-- **When a step leaves the queue in order.** `SetGroupState` does not
fail behind `LoadData`, and from there on until the group is offloaded
again `DelRepair` does not fail, and the process does not die before it. -/
def Orderly (s : Repairs) : RepairEvent → Prop
  | .worker w a => a.ok = true ∨ match s.workers w with
    | .advancing _ => False
    | .loaded g => (s.groups g).Offloaded
    | _ => True
  | .restart => ∀ w g, s.workers w = .loaded g → (s.groups g).row = .offloaded
  | _ => True

/-- **The queue is in order**: a group in it is offloaded, unless a worker
is about to take it out. -/
structure Ok (s : Repairs) : Prop where
  keys : (s.repairs.map Repair.groupId).Nodup
  held : ∀ w g, (s.workers w).group? = some g → ∃ r ∈ s.repairs, r.groupId = g ∧ r.worker = some w
  rows : ∀ r ∈ s.repairs, (s.groups r.groupId).Offloaded ∨ ∃ w, r.worker = some w ∧
    (s.workers w = .advancing r.groupId ∨ s.workers w = .loaded r.groupId)
  advancing : ∀ w g, s.workers w = .advancing g → s.groups g = ⟨.offloaded, some .reload⟩
  mem : ∀ g, (s.groups g).row = .offloaded → (s.groups g).Offloaded ∨
    ∃ w, s.workers w = .advancing g

end Repairs

/-! ## The rows -/

section

variable {repairs : List Repair} {r r' : Repair} {w : ℕ} {g : GroupKey} {now : ℤ}

theorem eq_of_groupId (h : (repairs.map Repair.groupId).Nodup) (hr : r ∈ repairs)
    (hr' : r' ∈ repairs) (heq : r.groupId = r'.groupId) : r = r' :=
  List.inj_on_of_nodup_map h hr hr' heq

/-- A change of the rows that leaves the keys. -/
theorem map_groupId_map {f : Repair → Repair} (hf : ∀ r, (f r).groupId = r.groupId) :
    (repairs.map f).map Repair.groupId = repairs.map Repair.groupId := by
  rw [List.map_map]
  exact List.map_congr_left fun r _ => hf r

theorem mem_getAssigned : g ∈ getAssignedRepairWorkByWorkerID w repairs ↔
    ∃ r ∈ repairs, r.groupId = g ∧ r.worker = some w := by
  unfold getAssignedRepairWorkByWorkerID
  rw [List.mem_map]
  constructor
  · rintro ⟨r, hr, rfl⟩
    obtain ⟨hr, hw⟩ := List.mem_filter.mp hr
    exact ⟨r, hr, rfl, of_decide_eq_true hw⟩
  · rintro ⟨r, hr, rfl, hw⟩
    exact ⟨r, List.mem_filter.mpr ⟨hr, decide_eq_true hw⟩, rfl⟩

/-- The row that is taken has no worker. -/
theorem of_nextRepair {pick : ℕ} (h : nextRepair repairs pick = some r) :
    r ∈ repairs ∧ r.worker = none := by
  have hmem := List.mem_of_mem_head? (Option.mem_def.mpr h)
  rw [List.mem_rotate] at hmem
  obtain ⟨hr, hw⟩ := List.mem_filter.mp (List.mem_filter.mp hmem).1
  exact ⟨hr, of_decide_eq_true hw⟩

theorem mem_setWorker : r ∈ setWorker w g repairs ↔
    (r ∈ repairs ∧ r.groupId ≠ g) ∨
      ∃ r' ∈ repairs, r'.groupId = g ∧ r = { r' with worker := some w } := by
  unfold setWorker
  rw [List.mem_map]
  constructor
  · rintro ⟨r', hr', rfl⟩
    split_ifs with hg
    · exact Or.inr ⟨r', hr', hg, rfl⟩
    · exact Or.inl ⟨hr', hg⟩
  · rintro (⟨hr, hg⟩ | ⟨r', hr', hg, rfl⟩)
    · exact ⟨r, hr, if_neg hg⟩
    · exact ⟨r', hr', if_pos hg⟩

theorem mem_delRepair : r ∈ delRepair g repairs ↔ r ∈ repairs ∧ r.groupId ≠ g := by
  unfold delRepair
  rw [List.mem_filter, decide_eq_true_eq]

theorem mem_updateRepair : r ∈ updateRepairOnStepNotDone w now repairs ↔
    (r ∈ repairs ∧ r.worker ≠ some w) ∨
      ∃ r' ∈ repairs, r'.worker = some w ∧ r = { r' with worker := none, lastAttempt := now } := by
  unfold updateRepairOnStepNotDone
  rw [List.mem_map]
  constructor
  · rintro ⟨r', hr', rfl⟩
    split_ifs with hw
    · exact Or.inr ⟨r', hr', hw, rfl⟩
    · exact Or.inl ⟨hr', hw⟩
  · rintro (⟨hr, hw⟩ | ⟨r', hr', hw, rfl⟩)
    · exact ⟨r, hr, if_neg hw⟩
    · exact ⟨r', hr', if_pos hw⟩

/-! The insert adds groups that are offloaded, and of the rows there it
changes the count only. -/

/-- The rows behind the insert: those there before, up to the count, and
new ones for groups without a row. -/
structure Inserted (before after : List Repair) (new : GroupKey → Prop) : Prop where
  keys : (before.map Repair.groupId).Nodup → (after.map Repair.groupId).Nodup
  keeps : ∀ r ∈ before, ∃ n, { r with retrievableDeals := n } ∈ after
  old : ∀ r ∈ after, (∃ r' ∈ before, r'.groupId = r.groupId ∧ r'.worker = r.worker) ∨
    r.worker = none ∧ new r.groupId ∧ ∀ r' ∈ before, r'.groupId ≠ r.groupId

theorem Inserted.refl {new : GroupKey → Prop} (l : List Repair) : Inserted l l new :=
  ⟨id, fun r hr => ⟨r.retrievableDeals, hr⟩, fun r hr => Or.inl ⟨r, hr, rfl, rfl⟩⟩

theorem inserted_upsertRepair {new : GroupKey → Prop} (l : List Repair) {e : GroupKey × ℕ}
    (he : new e.1) : Inserted l (upsertRepair l e) new := by
  unfold upsertRepair
  by_cases hany : (l.any fun r => decide (r.groupId = e.1)) = true
  · rw [if_pos hany]
    refine ⟨fun h => ?_, fun r hr => ?_, fun r hr => ?_⟩
    · rwa [map_groupId_map fun r => by split_ifs <;> rfl]
    · by_cases hg : r.groupId = e.1
      · exact ⟨e.2, List.mem_map.mpr ⟨r, hr, if_pos hg⟩⟩
      · exact ⟨r.retrievableDeals, List.mem_map.mpr ⟨r, hr, if_neg hg⟩⟩
    · obtain ⟨r', hr', rfl⟩ := List.mem_map.mp hr
      refine Or.inl ⟨r', hr', ?_⟩
      split_ifs <;> exact ⟨rfl, rfl⟩
  · rw [if_neg hany]
    have hnot : ∀ r ∈ l, r.groupId ≠ e.1 := fun r hr heq =>
      hany (List.any_eq_true.mpr ⟨r, hr, decide_eq_true heq⟩)
    refine ⟨fun h => ?_, fun r hr => ⟨_, List.mem_append_left _ hr⟩, fun r hr => ?_⟩
    · rw [List.map_append, List.nodup_append]
      refine ⟨h, List.nodup_singleton _, fun a ha b hb => ?_⟩
      obtain ⟨r, hr, rfl⟩ := List.mem_map.mp ha
      rw [List.map_singleton, List.mem_singleton] at hb
      exact hb ▸ hnot r hr
    · rcases List.mem_append.mp hr with hr | hr
      · exact Or.inl ⟨r, hr, rfl, rfl⟩
      · rw [List.mem_singleton.mp hr]
        exact Or.inr ⟨rfl, he, hnot⟩

theorem Inserted.trans {new : GroupKey → Prop} {l l' l'' : List Repair} (h : Inserted l l' new)
    (h' : Inserted l' l'' new) : Inserted l l'' new := by
  refine ⟨fun hk => h'.keys (h.keys hk), fun r hr => ?_, fun r hr => ?_⟩
  · obtain ⟨n, hn⟩ := h.keeps r hr
    obtain ⟨n', hn'⟩ := h'.keeps _ hn
    exact ⟨n', hn'⟩
  · rcases h'.old r hr with ⟨r', hr', hg, hw⟩ | ⟨hw, hnew, hnot⟩
    · rcases h.old r' hr' with ⟨r'', hr'', hg', hw'⟩ | ⟨hw', hnew, hnot⟩
      · exact Or.inl ⟨r'', hr'', hg'.trans hg, hw'.trans hw⟩
      · exact Or.inr ⟨hw ▸ hw', hg ▸ hnew, hg ▸ hnot⟩
    · refine Or.inr ⟨hw, hnew, fun r' hr' heq => ?_⟩
      obtain ⟨n, hn⟩ := h.keeps r' hr'
      exact hnot _ hn heq

/-- **The insert.** -/
theorem inserted_addRepairs (groups : GroupKey → StoredGroup) (deals : List Deal) :
    Inserted repairs (addRepairsForLowRetrievableDeals groups deals repairs)
      fun g => (groups g).row = .offloaded := by
  have hall : ∀ e ∈ lowRetrievable groups deals, (groups e.1).row = .offloaded := by
    intro e he
    unfold lowRetrievable at he
    obtain ⟨g, hg, rfl⟩ := List.mem_map.mp (List.mem_filter.mp he).1
    exact of_decide_eq_true (List.mem_filter.mp (List.mem_dedup.mp hg)).2
  unfold addRepairsForLowRetrievableDeals
  generalize lowRetrievable groups deals = es at hall
  induction es generalizing repairs with
  | nil => exact .refl repairs
  | cons e es ih =>
    obtain ⟨he, hes⟩ := List.forall_mem_cons.mp hall
    exact (inserted_upsertRepair repairs he).trans (ih hes)

end

namespace Repairs

variable {s : Repairs} {w w' : ℕ} {g : GroupKey} {x : RepairAt} {a : RepairAnswer}

/-! ## The invariant -/

theorem setWorkerAt_self : (s.setWorkerAt w x).workers w = x := Function.update_self _ _ _

theorem setWorkerAt_of_ne (h : w' ≠ w) : (s.setWorkerAt w x).workers w' = s.workers w' :=
  Function.update_of_ne h _ _

/-- A worker at a group that it is not done with finds it offloaded. -/
theorem Ok.offloaded (h : s.Ok) (hg : (s.workers w).group? = some g)
    (hadv : s.workers w ≠ .advancing g) (hload : s.workers w ≠ .loaded g) :
    (s.groups g).Offloaded := by
  obtain ⟨r, hr, rfl, hw⟩ := h.held w g hg
  rcases h.rows r hr with hoff | ⟨w', hw', hat⟩
  · exact hoff
  · obtain rfl : w = w' := Option.some.inj (hw.symm.trans hw')
    exact absurd hat (by simp [hadv, hload])

/-- What is handed out is offloaded: no worker is at it. -/
theorem Ok.handedOut (h : s.Ok) (hg : g ∈ s.handedOut w a) : (s.groups g).Offloaded := by
  unfold Repairs.handedOut at hg
  split at hg
  · next hat =>
    split_ifs at hg with hok
    · obtain ⟨r, hr, rfl, hw⟩ := mem_getAssigned.mp hg
      rcases h.rows r hr with hoff | ⟨w', hw', hat'⟩
      · exact hoff
      · obtain rfl : w = w' := Option.some.inj (hw.symm.trans hw')
        rw [hat] at hat'
        exact absurd hat' (by simp)
    · exact absurd hg List.not_mem_nil
  · split_ifs at hg with hok
    · rw [Option.mem_toList, Option.map_eq_some_iff] at hg
      obtain ⟨r, hr, rfl⟩ := hg
      obtain ⟨hmem, hnone⟩ := of_nextRepair hr
      rcases h.rows r hmem with hoff | ⟨w', hw', -⟩
      · exact hoff
      · rw [hnone] at hw'
        exact absurd hw' (by simp)
    · exact absurd hg List.not_mem_nil
  · exact absurd hg List.not_mem_nil

/-- **What the invariant is for.** -/
theorem Ok.handsOut (h : s.Ok) : s.HandsOutOffloaded := by
  have hrow : ∀ w g, s.Assigned w g → ∃ r ∈ s.repairs, r.groupId = g ∧ r.worker = some w := by
    rintro w g (hr | hg)
    · exact hr
    · exact h.held w g hg
  refine ⟨fun w w' g hw hw' => ?_, fun w a g hg => h.handedOut hg, fun w g hat => ?_⟩
  · obtain ⟨r, hr, hrg, hrw⟩ := hrow w g hw
    obtain ⟨r', hr', hrg', hrw'⟩ := hrow w' g hw'
    obtain rfl := eq_of_groupId h.keys hr hr' (hrg.trans hrg'.symm)
    exact Option.some.inj (hrw.symm.trans hrw')
  · exact h.offloaded (by rw [hat]; rfl) (by simp [hat]) (by simp [hat])

/-! ### A worker moves -/

/-- **A worker goes on** without a change of the tables: to a group that is
assigned to it or to none, and from behind `SetGroupState` only when the
group is offloaded. -/
theorem Ok.move (h : s.Ok)
    (hgroup : ∀ g, x.group? = some g → ∃ r ∈ s.repairs, r.groupId = g ∧ r.worker = some w)
    (hadv : ∀ g, s.workers w ≠ .advancing g)
    (hload : ∀ g, s.workers w = .loaded g → (s.groups g).Offloaded)
    (hx : ∀ g, x ≠ .advancing g) : (s.setWorkerAt w x).Ok := by
  refine ⟨h.keys, fun w' g hg => ?_, fun r hr => ?_, fun w' g hg => ?_, fun g hg => ?_⟩
  · by_cases hw : w' = w
    · subst hw
      rw [setWorkerAt_self] at hg
      exact hgroup g hg
    · rw [setWorkerAt_of_ne hw] at hg
      exact h.held w' g hg
  · rcases h.rows r hr with hoff | ⟨w', hw', hat⟩
    · exact Or.inl hoff
    · by_cases hw : w' = w
      · subst hw
        rcases hat with hat | hat
        · exact absurd hat (hadv _)
        · exact Or.inl (hload _ hat)
      · refine Or.inr ⟨w', hw', ?_⟩
        rwa [setWorkerAt_of_ne hw]
  · by_cases hw : w' = w
    · subst hw
      rw [setWorkerAt_self] at hg
      exact absurd hg (hx g)
    · rw [setWorkerAt_of_ne hw] at hg
      exact h.advancing w' g hg
  · rcases h.mem g hg with hoff | ⟨w', hat⟩
    · exact Or.inl hoff
    · refine Or.inr ⟨w', ?_⟩
      rwa [setWorkerAt_of_ne]
      rintro rfl
      exact hadv g hat

/-! ### A group changes -/

/-- A group changes with no worker behind `LoadData` at it. -/
theorem Ok.setGroup (h : s.Ok) {y : StoredGroup}
    (hkeep : (s.groups g).Offloaded → y.Offloaded)
    (hadv : ∀ w, s.workers w = .advancing g → y = s.groups g)
    (hmem : y.row = .offloaded → y.Offloaded ∨ ∃ w, s.workers w = .advancing g) :
    (s.setGroup g y).Ok := by
  have hself : (s.setGroup g y).groups g = y := Function.update_self _ _ _
  have hne : ∀ g', g' ≠ g → (s.setGroup g y).groups g' = s.groups g' := fun g' hg =>
    Function.update_of_ne hg _ _
  refine ⟨h.keys, h.held, fun r hr => ?_, fun w g' hat => ?_, fun g' hrow => ?_⟩
  · refine (h.rows r hr).imp_left fun hoff => ?_
    by_cases hg : r.groupId = g
    · rw [hg, hself]
      exact hkeep (hg ▸ hoff)
    · rwa [hne _ hg]
  · by_cases hg : g' = g
    · subst hg
      rw [hself, hadv w hat]
      exact h.advancing w g' hat
    · rw [hne _ hg]
      exact h.advancing w g' hat
  · by_cases hg : g' = g
    · subst hg
      rw [hself] at hrow ⊢
      exact hmem hrow
    · rw [hne _ hg] at hrow ⊢
      exact h.mem g' hrow

/-- **Opening a group.** -/
theorem Ok.openGroup (h : s.Ok) : (s.setGroup g (s.groups g).opened).Ok := by
  refine h.setGroup (fun hoff => ⟨hoff.1, fun st hst => ?_⟩) (fun w hat => ?_) fun hrow => ?_
  · cases hmem : (s.groups g).mem with
    | none =>
      rw [StoredGroup.opened, hmem] at hst
      exact (Option.some.inj hst).symm.trans hoff.1
    | some st' =>
      rw [StoredGroup.opened, hmem] at hst
      exact (Option.some.inj hst).symm.trans (hoff.2 st' hmem)
  · rw [h.advancing w g hat]
    rfl
  · rcases h.mem g hrow with hoff | hat
    · refine Or.inl ⟨hrow, fun st hst => ?_⟩
      cases hmem : (s.groups g).mem with
      | none =>
        rw [StoredGroup.opened, hmem] at hst
        exact (Option.some.inj hst).symm.trans hoff.1
      | some st' =>
        rw [StoredGroup.opened, hmem] at hst
        exact (Option.some.inj hst).symm.trans (hoff.2 st' hmem)
    · exact Or.inr hat

/-- A group that is offloaded does not advance by itself, and one that is
being reloaded only when its row says so. -/
theorem advances_eq_false {y : StoredGroup} {st : GroupState}
    (h : y.Offloaded ∨ y = ⟨.offloaded, some .reload⟩) : y.advances st = false := by
  obtain ⟨row, mem⟩ := y
  rcases h with ⟨-, hmem⟩ | heq
  · cases mem with
    | none => rfl
    | some st' =>
      obtain rfl := hmem st' rfl
      rfl
  · obtain ⟨rfl, rfl⟩ := StoredGroup.mk.inj heq
    cases st <;> rfl

/-- **A group advances.** -/
theorem Ok.advance (h : s.Ok) {st : GroupState} {ok : Bool} :
    (s.setGroup g ((s.groups g).advanced st ok)).Ok := by
  unfold StoredGroup.advanced
  by_cases hadv : (s.groups g).advances st = true
  · rw [if_pos hadv]
    refine h.setGroup (fun hoff => ?_) (fun w hat => ?_) fun hrow => ?_
    · rw [advances_eq_false (Or.inl hoff)] at hadv
      exact absurd hadv (by simp)
    · rw [advances_eq_false (Or.inr (h.advancing w g hat))] at hadv
      exact absurd hadv (by simp)
    · cases ok with
      | true =>
        refine Or.inl ⟨hrow, fun st' hst' => ?_⟩
        rw [← Option.some.inj hst']
        exact hrow
      | false =>
        rcases h.mem g hrow with hoff | hat
        · rw [advances_eq_false (Or.inl hoff)] at hadv
          exact absurd hadv (by simp)
        · exact Or.inr hat
  · rw [if_neg hadv]
    exact h.setGroup id (fun _ _ => rfl) (h.mem g)

/-! ### The tables change -/

/-- **Groups are added to the queue**: those without a row are not being
reloaded, for a worker that is has one. -/
theorem Ok.insert (h : s.Ok) {after : List Repair}
    (hins : Inserted s.repairs after fun g => (s.groups g).row = .offloaded) :
    (s.setRepairs after).Ok := by
  refine ⟨hins.keys h.keys, fun w g hg => ?_, fun r hr => ?_, h.advancing, h.mem⟩
  · obtain ⟨r, hr, hrg, hrw⟩ := h.held w g hg
    obtain ⟨n, hn⟩ := hins.keeps r hr
    exact ⟨_, hn, hrg, hrw⟩
  · rcases hins.old r hr with ⟨r', hr', hg, hw⟩ | ⟨-, hnew, hnot⟩
    · rw [← hg, ← hw]
      exact h.rows r' hr'
    · refine Or.inl ((h.mem _ hnew).resolve_right ?_)
      rintro ⟨w, hat⟩
      obtain ⟨r', hr', hrg, -⟩ := h.held w r.groupId (by rw [hat]; rfl)
      exact hnot r' hr' hrg

/-- **A failed step gives its group back.** -/
theorem Ok.unassign (h : s.Ok) (hat : s.workers w = .failed) (now : ℤ) :
    (s.setRepairs (updateRepairOnStepNotDone w now s.repairs)).Ok := by
  refine ⟨?_, fun w' g hg => ?_, fun r hr => ?_, h.advancing, h.mem⟩
  · change ((updateRepairOnStepNotDone w now s.repairs).map Repair.groupId).Nodup
    unfold updateRepairOnStepNotDone
    rw [map_groupId_map fun r => by split_ifs <;> rfl]
    exact h.keys
  · obtain ⟨r, hr, hrg, hrw⟩ := h.held w' g hg
    refine ⟨r, mem_updateRepair.mpr (Or.inl ⟨hr, fun hw => ?_⟩), hrg, hrw⟩
    obtain rfl : w' = w := Option.some.inj (hrw.symm.trans hw)
    change (s.workers w').group? = some g at hg
    rw [hat] at hg
    exact absurd hg (by simp [RepairAt.group?])
  · rcases mem_updateRepair.mp hr with ⟨hr, -⟩ | ⟨r', hr', hw, rfl⟩
    · exact h.rows r hr
    · rcases h.rows r' hr' with hoff | ⟨w', hw', hat'⟩
      · exact Or.inl hoff
      · obtain rfl : w = w' := Option.some.inj (hw.symm.trans hw')
        rw [hat] at hat'
        exact absurd hat' (by simp)

/-- **A group without a worker is assigned.** -/
theorem Ok.assign (h : s.Ok) {r : Repair} (hr : r ∈ s.repairs) (hnone : r.worker = none)
    (hat : (s.workers w).group? = none) :
    ((s.setRepairs (setWorker w r.groupId s.repairs)).setWorkerAt w (.fetching r.groupId)).Ok := by
  have hmem : { r with worker := some w } ∈ setWorker w r.groupId s.repairs :=
    mem_setWorker.mpr (Or.inr ⟨r, hr, rfl, rfl⟩)
  -- a group that a worker advances is assigned to it, and this one is not
  have hfree : ∀ w', s.workers w' = .advancing r.groupId → False := by
    intro w' hadv
    obtain ⟨r', hr', hrg, hrw⟩ := h.held w' r.groupId (by rw [hadv]; rfl)
    obtain rfl := eq_of_groupId h.keys hr' hr hrg
    rw [hnone] at hrw
    exact absurd hrw (by simp)
  refine ⟨?_, fun w' g hg => ?_, fun r' hr' => ?_, fun w' g hadv => ?_, fun g hrow => ?_⟩
  · change ((setWorker w r.groupId s.repairs).map Repair.groupId).Nodup
    unfold setWorker
    rw [map_groupId_map fun r => by split_ifs <;> rfl]
    exact h.keys
  · by_cases hw : w' = w
    · subst hw
      rw [setWorkerAt_self] at hg
      exact ⟨_, hmem, Option.some.inj hg, rfl⟩
    -- the rows of other workers are not the one that changes
    · rw [setWorkerAt_of_ne hw] at hg
      obtain ⟨r', hr', hrg, hrw⟩ := h.held w' g hg
      refine ⟨r', mem_setWorker.mpr (Or.inl ⟨hr', fun heq => ?_⟩), hrg, hrw⟩
      obtain rfl := eq_of_groupId h.keys hr' hr heq
      rw [hnone] at hrw
      exact absurd hrw (by simp)
  · rcases mem_setWorker.mp hr' with ⟨hr', hne⟩ | ⟨r'', hr'', heq, rfl⟩
    · refine (h.rows r' hr').imp_right fun ⟨w', hw', hat'⟩ => ⟨w', hw', ?_⟩
      rw [setWorkerAt_of_ne]
      · exact hat'
      · rintro rfl
        rcases hat' with hat' | hat' <;> rw [hat'] at hat <;> simp [RepairAt.group?] at hat
    -- the row had no worker, so its group was offloaded
    · obtain rfl := eq_of_groupId h.keys hr'' hr heq
      refine Or.inl ((h.rows r'' hr).resolve_right ?_)
      rintro ⟨w', hw', -⟩
      rw [hnone] at hw'
      exact absurd hw' (by simp)
  · by_cases hw : w' = w
    · subst hw
      rw [setWorkerAt_self] at hadv
      exact absurd hadv (by simp)
    · rw [setWorkerAt_of_ne hw] at hadv
      exact h.advancing w' g hadv
  · refine (h.mem g hrow).imp_right fun ⟨w', hadv⟩ => ⟨w', ?_⟩
    rw [setWorkerAt_of_ne]
    · exact hadv
    · rintro rfl
      rw [hadv] at hat
      exact absurd hat (by simp [RepairAt.group?])

/-- No other worker is at the group of one. -/
theorem Ok.eq_of_group (h : s.Ok) (hw : (s.workers w).group? = some g)
    (hw' : (s.workers w').group? = some g) : w = w' :=
  h.handsOut.one w w' g (Or.inr hw) (Or.inr hw')

/-- **The group of a worker changes along with it**, while its row is in
the queue: from `LoadData` to `SetGroupState`, and from there to
`DelRepair`. -/
theorem Ok.reload (h : s.Ok) {y : StoredGroup} (hg : (s.workers w).group? = some g)
    (hx : x = .advancing g ∧ y = ⟨.offloaded, some .reload⟩ ∨ x = .loaded g ∧ y.row = .reload) :
    ((s.setGroup g y).setWorkerAt w x).Ok := by
  have hself : (s.setGroup g y).groups g = y := Function.update_self _ _ _
  have hne : ∀ g', g' ≠ g → (s.setGroup g y).groups g' = s.groups g' := fun g' hg =>
    Function.update_of_ne hg _ _
  have hxg : x.group? = some g := by rcases hx with ⟨rfl, -⟩ | ⟨rfl, -⟩ <;> rfl
  have hstill : x = .advancing g ∨ x = .loaded g := hx.imp And.left And.left
  -- no other worker is at the group
  have hother : ∀ w' g', w' ≠ w → (s.workers w').group? = some g' → g' ≠ g :=
    fun w' g' hw hat heq => hw (h.eq_of_group (heq ▸ hat) hg)
  refine ⟨h.keys, fun w' g' hg' => ?_, fun r hr => ?_, fun w' g' hat => ?_, fun g' hrow => ?_⟩
  · by_cases hw : w' = w
    · subst hw
      rw [setWorkerAt_self, hxg] at hg'
      exact h.held w' g' (hg' ▸ hg)
    · rw [setWorkerAt_of_ne hw] at hg'
      exact h.held w' g' hg'
  -- the row of the group is held by `w`, other rows keep their reason
  · by_cases hrg : r.groupId = g
    · obtain ⟨r', hr', hrg', hrw⟩ := h.held w g hg
      obtain rfl := eq_of_groupId h.keys hr' hr (hrg'.trans hrg.symm)
      refine Or.inr ⟨w, hrw, ?_⟩
      rw [setWorkerAt_self, hrg]
      exact hstill
    · rcases h.rows r hr with hoff | ⟨w', hw', hat⟩
      · refine Or.inl ?_
        change ((s.setGroup g y).groups r.groupId).Offloaded
        rwa [hne _ hrg]
      · refine Or.inr ⟨w', hw', ?_⟩
        rwa [setWorkerAt_of_ne]
        rintro rfl
        rcases hat with hat | hat <;> rw [hat] at hg <;> exact hrg (Option.some.inj hg)
  · by_cases hw : w' = w
    · subst hw
      rw [setWorkerAt_self] at hat
      rcases hx with ⟨rfl, rfl⟩ | ⟨rfl, -⟩
      · obtain rfl := RepairAt.advancing.inj hat
        exact hself
      · exact absurd hat (by simp)
    · rw [setWorkerAt_of_ne hw] at hat
      change s.workers w' = _ at hat
      change (s.setGroup g y).groups g' = _
      rw [hne _ (hother w' g' hw (by rw [hat]; rfl))]
      exact h.advancing w' g' hat
  -- the group of `w` is offloaded in its row and is being advanced, or no longer is
  · by_cases hg' : g' = g
    · subst hg'
      rcases hx with ⟨rfl, rfl⟩ | ⟨rfl, hrel⟩
      · exact Or.inr ⟨w, setWorkerAt_self⟩
      · change ((s.setGroup g' y).groups g').row = _ at hrow
        rw [hself, hrel] at hrow
        exact absurd hrow (by simp)
    · change ((s.setGroup g y).groups g').row = _ at hrow
      change ((s.setGroup g y).groups g').Offloaded ∨ _
      rw [hne _ hg'] at hrow ⊢
      refine (h.mem g' hrow).imp_right fun ⟨w', hat⟩ => ⟨w', ?_⟩
      rwa [setWorkerAt_of_ne]
      rintro rfl
      rw [hat] at hg
      exact hg' (Option.some.inj hg)

/-- **A group leaves the queue.** -/
theorem Ok.delete (h : s.Ok) (hat : s.workers w = .loaded g) :
    ((s.setRepairs (delRepair g s.repairs)).setWorkerAt w .removing).Ok := by
  have hg : (s.workers w).group? = some g := by rw [hat]; rfl
  refine ⟨?_, fun w' g' hg' => ?_, fun r hr => ?_, fun w' g' hadv => ?_, fun g' hrow => ?_⟩
  · exact h.keys.sublist (List.filter_sublist.map Repair.groupId)
  · by_cases hw : w' = w
    · subst hw
      rw [setWorkerAt_self] at hg'
      exact absurd hg' (by simp [RepairAt.group?])
    · rw [setWorkerAt_of_ne hw] at hg'
      obtain ⟨r, hr, hrg, hrw⟩ := h.held w' g' hg'
      -- the row that goes is not the row of another worker
      refine ⟨r, mem_delRepair.mpr ⟨hr, fun heq => ?_⟩, hrg, hrw⟩
      exact hw (h.eq_of_group (heq ▸ hrg ▸ hg') hg)
  · obtain ⟨hr, hrg⟩ := mem_delRepair.mp hr
    refine (h.rows r hr).imp_right fun ⟨w', hw', hat'⟩ => ⟨w', hw', ?_⟩
    rwa [setWorkerAt_of_ne]
    rintro rfl
    rcases hat' with hat' | hat' <;> rw [hat'] at hg <;> exact hrg (Option.some.inj hg)
  · by_cases hw : w' = w
    · subst hw
      rw [setWorkerAt_self] at hadv
      exact absurd hadv (by simp)
    · rw [setWorkerAt_of_ne hw] at hadv
      exact h.advancing w' g' hadv
  · refine (h.mem g' hrow).imp_right fun ⟨w', hadv⟩ => ⟨w', ?_⟩
    rwa [setWorkerAt_of_ne]
    rintro rfl
    rw [hat] at hadv
    exact absurd hadv (by simp)

/-- **A restart**, with no worker between `SetGroupState` and `DelRepair`
of a group that is not offloaded. -/
theorem Ok.restart (h : s.Ok) (hC : s.Orderly .restart) : (s.next .restart).Ok := by
  refine ⟨h.keys, fun w g hg => ?_, fun r hr => ?_, fun w g hat => ?_, fun g hrow => ?_⟩
  · exact absurd hg (by simp [next, RepairAt.group?])
  · refine Or.inl ⟨?_, fun st hst => absurd hst (by simp [next])⟩
    rcases h.rows r hr with hoff | ⟨w, -, hat | hat⟩
    · exact hoff.1
    · change (s.groups r.groupId).row = _
      rw [h.advancing w _ hat]
    · exact hC w _ hat
  · exact absurd hat (by simp [next])
  · exact Or.inl ⟨hrow, fun st hst => absurd hst (by simp [next])⟩

/-! ### Every event -/

/-- A worker that has not touched the state of its group goes to no group. -/
theorem Ok.leave (h : s.Ok)
    (hidle : ∀ g, s.workers w ≠ .advancing g ∧ s.workers w ≠ .loaded g) (hx : x.group? = none) :
    (s.setWorkerAt w x).Ok := by
  refine h.move (fun g hg => ?_) (fun g => (hidle g).1) (fun g hg => absurd hg (hidle g).2)
    fun g heq => ?_
  · rw [hx] at hg
    exact absurd hg (by simp)
  · rw [heq] at hx
    exact absurd hx (by simp [RepairAt.group?])

/-- And goes on with a group that is assigned to it. -/
theorem Ok.goOn (h : s.Ok) (hidle : ∀ g, s.workers w ≠ .advancing g ∧ s.workers w ≠ .loaded g)
    {r : Repair} (hr : r ∈ s.repairs) (hw : r.worker = some w) (hx : x.group? = some r.groupId)
    (hxadv : ∀ g, x ≠ .advancing g) : (s.setWorkerAt w x).Ok := by
  refine h.move (fun g hg => ⟨r, hr, ?_, hw⟩) (fun g => (hidle g).1)
    (fun g hg => absurd hg (hidle g).2) hxadv
  exact Option.some.inj (hx.symm.trans hg)

/-- **A step of a worker.** -/
theorem Ok.workerStep (h : s.Ok) (hC : s.Orderly (.worker w a)) : (s.workerStep w a).Ok := by
  unfold Repairs.workerStep
  unfold Orderly at hC
  cases hat : s.workers w with
  | asking =>
    have hidle : ∀ g, s.workers w ≠ .advancing g ∧ s.workers w ≠ .loaded g := by simp [hat]
    simp only
    split_ifs with hok
    · cases hpick : ((getAssignedRepairWorkByWorkerID w s.repairs).rotate a.pick).head? with
      | none => exact h.leave hidle rfl
      | some g =>
        -- work that was assigned before is taken up again
        have hmem := List.mem_of_mem_head? (Option.mem_def.mpr hpick)
        rw [List.mem_rotate] at hmem
        obtain ⟨r, hr, rfl, hrw⟩ := mem_getAssigned.mp hmem
        exact h.goOn hidle hr hrw rfl (by simp)
    · exact h.leave hidle rfl
  | adding =>
    have hidle : ∀ g, s.workers w ≠ .advancing g ∧ s.workers w ≠ .loaded g := by simp [hat]
    simp only
    split_ifs with hok
    · exact (h.insert (inserted_addRepairs s.groups a.deals)).leave hidle rfl
    · exact h.leave hidle rfl
  | assigning =>
    have hidle : ∀ g, s.workers w ≠ .advancing g ∧ s.workers w ≠ .loaded g := by simp [hat]
    simp only
    split_ifs with hok
    · cases hpick : nextRepair s.repairs a.pick with
      | none => exact h.leave hidle rfl
      | some r =>
        obtain ⟨hr, hnone⟩ := of_nextRepair hpick
        exact h.assign hr hnone (by rw [hat]; rfl)
    · exact h.leave hidle rfl
  | fetching g =>
    have hidle : ∀ g, s.workers w ≠ .advancing g ∧ s.workers w ≠ .loaded g := by simp [hat]
    obtain ⟨r, hr, rfl, hrw⟩ := h.held w g (by rw [hat]; rfl)
    simp only
    split_ifs with hok
    · exact h.goOn hidle hr hrw rfl (by simp)
    · exact h.leave hidle rfl
  | checking g =>
    have hidle : ∀ g, s.workers w ≠ .advancing g ∧ s.workers w ≠ .loaded g := by simp [hat]
    obtain ⟨r, hr, rfl, hrw⟩ := h.held w g (by rw [hat]; rfl)
    -- the group is opened for the check, whatever comes of it
    have hopen := h.openGroup (g := r.groupId)
    simp only
    split_ifs with hok hmem
    · exact hopen.goOn hidle hr hrw rfl (by simp)
    · exact hopen.leave hidle rfl
    · exact h.leave hidle rfl
  | loading g =>
    have hidle : ∀ g, s.workers w ≠ .advancing g ∧ s.workers w ≠ .loaded g := by simp [hat]
    have hg : (s.workers w).group? = some g := by rw [hat]; rfl
    have hoff := h.offloaded hg (hidle g).1 (hidle g).2
    simp only
    split_ifs with hok
    · refine h.reload hg (Or.inl ⟨rfl, ?_⟩)
      rw [hoff.1]
    · exact h.leave hidle rfl
  | advancing g =>
    -- a failure here is not orderly
    have hok : a.ok = true := hC.resolve_right (by simp [hat])
    have hg : (s.workers w).group? = some g := by rw [hat]; rfl
    simp only [hok, if_true]
    exact h.reload hg (Or.inr ⟨rfl, rfl⟩)
  | loaded g =>
    simp only
    split_ifs with hok
    · exact h.delete hat
    · -- the row stays, for a group that is offloaded again
      have hoff : (s.groups g).Offloaded := by
        have := hC.resolve_left hok
        rwa [hat] at this
      refine h.move (fun g hg => absurd hg (by simp [RepairAt.group?])) (by simp [hat])
        (fun g' hg' => ?_) (by simp)
      rw [hat] at hg'
      exact RepairAt.loaded.inj hg' ▸ hoff
  | removing =>
    have hidle : ∀ g, s.workers w ≠ .advancing g ∧ s.workers w ≠ .loaded g := by simp [hat]
    simp only
    split_ifs with hok
    · exact h.leave hidle rfl
    · exact h.leave hidle rfl
  | failed =>
    have hidle : ∀ g, s.workers w ≠ .advancing g ∧ s.workers w ≠ .loaded g := by simp [hat]
    simp only
    split_ifs with hok
    · exact (h.unassign hat a.now).leave hidle rfl
    · exact h.leave hidle rfl

/-- **Every event keeps the queue in order.** -/
theorem Ok.next {e : RepairEvent} (h : s.Ok) (hC : s.Orderly e) : (s.next e).Ok := by
  cases e with
  | worker w a => exact h.workerStep hC
  | openGroup g => exact h.openGroup
  | advance g st ok => exact h.advance
  | restart => exact h.restart hC

theorem ok_init (states : GroupKey → GroupState) : (init states).Ok := by
  refine ⟨List.nodup_nil, fun w g hg => ?_, fun r hr => absurd hr List.not_mem_nil,
    fun w g hat => ?_, fun g hrow => Or.inl ⟨hrow, fun st hst => ?_⟩⟩
  · exact absurd hg (by simp [init, RepairAt.group?])
  · exact absurd hat (by simp [init])
  · exact absurd hst (by simp [init])

end Repairs

/-- **Repair work is handed out for offloaded groups only**, in every run
whose steps are orderly. -/
theorem handsOutOffloaded_of_orderly (states : GroupKey → GroupState) {es : List RepairEvent}
    (h : Always Repairs.next Repairs.Orderly (Repairs.init states) es) :
    (runEvents Repairs.next (Repairs.init states) es).HandsOutOffloaded := by
  have hok : (runEvents Repairs.next (Repairs.init states) es).Ok :=
    runEvents_invariant (fun _ _ hok hC => hok.next hC) (Repairs.ok_init states) h
  exact hok.handsOut

namespace Repairs

/-- A deal of group 1 that was never retrieved. -/
def unretrieved : Deal := { info := DealTasks.someDeal }

/-- A worker repairs a group, up to where the storage has taken the data. -/
def upToLoaded : List RepairEvent :=
  List.replicate 7 (.worker 0 { ok := true, deals := [unretrieved] })

/-- Group 1 is offloaded. -/
def offloadedGroup : Repairs := init fun g => if g = 1 then .offloaded else .writable

end Repairs

/-- A repair with nothing in its way. -/
theorem handsOutOffloaded_upToLoaded :
    (runEvents Repairs.next Repairs.offloadedGroup Repairs.upToLoaded).HandsOutOffloaded :=
  handsOutOffloaded_of_orderly _ ⟨Or.inl rfl, Or.inl rfl, Or.inl rfl, Or.inl rfl, Or.inl rfl,
    Or.inl rfl, Or.inl rfl, trivial⟩

/-- **The process dies between `LoadFilCar` and `DelRepair`**: the group is
handed out again, with its data being reloaded, and is refused. -/
theorem not_handsOutOffloaded_restart :
    let s := runEvents Repairs.next Repairs.offloadedGroup (Repairs.upToLoaded ++ [.restart])
    s.handedOut 0 { ok := true } = [1] ∧ (s.groups 1).row = .reload ∧
      ¬ s.HandsOutOffloaded ∧
      (runEvents Repairs.next s (List.replicate 3 (.worker 0 { ok := true }))).workers 0 =
        .failed := by
  have hhanded : (runEvents Repairs.next Repairs.offloadedGroup
      (Repairs.upToLoaded ++ [.restart])).handedOut 0 { ok := true } = [1] := by decide +kernel
  have hrow : ((runEvents Repairs.next Repairs.offloadedGroup
      (Repairs.upToLoaded ++ [.restart])).groups 1).row = .reload := by decide +kernel
  refine ⟨hhanded, hrow, fun h => ?_, by decide +kernel⟩
  have hoff := (h.offloaded 0 { ok := true } 1 (hhanded ▸ List.mem_singleton.mpr rfl)).1
  rw [hrow] at hoff
  exact absurd hoff (by simp)

end Rbdeal

end Ribs
