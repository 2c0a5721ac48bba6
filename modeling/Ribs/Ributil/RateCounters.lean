import Mathlib.Algebra.Ring.Int.Defs
import Mathlib.Data.List.Nodup
import Mathlib.Data.List.Perm.Basic
import Mathlib.Algebra.BigOperators.Group.List.Basic
import Ribs.Common.Runs
/-!
# Ributil — rate counters

Every key with a transfer under way has one counter, shared by its
transfers. `Get` finds or makes the counter and counts the transfer; the
release counts it down, and takes the key out of the map with the last of
its transfers. A writer gives its counter back in a speed check that
fails, or else in `Done`.
-/

namespace Ribs

open Common

namespace Ributil

/-- What a `RateCounter` holds. -/
structure CounterState where
  transferred : ℤ
  transfers : ℤ
  /-- `lk` is held. -/
  lk : Bool

/-- A `*RateCounter`: where it is, and the key that its `unlink` is for. -/
structure RateCounter (K : Type) where
  key : K
  id : ℕ
deriving DecidableEq

/-- `RateCounters`, with the counters that were allocated. -/
structure RateCounters (K : Type) where
  counters : List (K × ℕ)
  globalTransfers : ℤ
  heap : ℕ → CounterState
  /-- The address of the next counter. -/
  free : ℕ

namespace RateCounters

variable {K : Type} [DecidableEq K]

/-- `NewRateCounters`. -/
def new : RateCounters K := ⟨[], 0, fun _ => ⟨0, 0, false⟩, 0⟩

/-- The transfers of the counter at `id`. -/
def transfers (rc : RateCounters K) (id : ℕ) : ℤ := (rc.heap id).transfers

def modify (id : ℕ) (f : CounterState → CounterState) (rc : RateCounters K) : RateCounters K :=
  { rc with heap := Function.update rc.heap id (f (rc.heap id)) }

/-- `Get`. -/
def get (key : K) (rc : RateCounters K) : RateCounter K × RateCounters K :=
  match rc.counters.lookup key with
  | some id => (⟨key, id⟩, { rc with
      globalTransfers := rc.globalTransfers + 1
      heap := Function.update rc.heap id
        { rc.heap id with transfers := (rc.heap id).transfers + 1 } })
  | none => (⟨key, rc.free⟩, {
      counters := (key, rc.free) :: rc.counters
      globalTransfers := rc.globalTransfers + 1
      heap := Function.update rc.heap rc.free ⟨0, 1, false⟩
      free := rc.free + 1 })

/-- `release`, in `unlink`: the last transfer takes the key out of the map. -/
def release (c : RateCounter K) (rc : RateCounters K) : RateCounters K :=
  let transfers := (rc.heap c.id).transfers - 1
  { rc with
    globalTransfers := rc.globalTransfers - 1
    heap := Function.update rc.heap c.id { rc.heap c.id with transfers := transfers }
    counters := if transfers = 0 then rc.counters.filter fun e => e.1 ≠ c.key else rc.counters }

/-- The transfers of a key. -/
def peer (key : K) (rc : RateCounters K) : ℤ := ((rc.counters.lookup key).map rc.transfers).getD 0

/-- No count is negative. -/
def NonNegative (rc : RateCounters K) : Prop :=
  0 ≤ rc.globalTransfers ∧ ∀ id, 0 ≤ rc.transfers id

/-! ## The books -/

/-- **The books are in order**: of the acquisitions that are out, each
counter in the map counts its own, and the global count counts all. -/
structure Books (held : List (RateCounter K)) (rc : RateCounters K) : Prop where
  keys : (rc.counters.map Prod.fst).Nodup
  ids : (rc.counters.map Prod.snd).Nodup
  allocated : ∀ e ∈ rc.counters, e.2 < rc.free
  transfers : ∀ id, rc.transfers id = held.countP fun c => c.id = id
  global : rc.globalTransfers = held.length
  mapped : ∀ c ∈ held, (c.key, c.id) ∈ rc.counters
  used : ∀ e ∈ rc.counters, ⟨e.1, e.2⟩ ∈ held

omit [DecidableEq K] in
theorem books_new : Books [] (new : RateCounters K) :=
  ⟨List.nodup_nil, List.nodup_nil, by simp [new], fun _ => rfl, rfl, by simp, by simp [new]⟩

variable {held held' : List (RateCounter K)} {rc : RateCounters K} {c : RateCounter K} {key : K}

namespace Books

omit [DecidableEq K] in
theorem perm (h : Books held rc) (hperm : held.Perm held') : Books held' rc where
  keys := h.keys
  ids := h.ids
  allocated := h.allocated
  transfers id := by rw [h.transfers, hperm.countP_eq]
  global := by rw [h.global, hperm.length_eq]
  mapped c hc := h.mapped c (hperm.mem_iff.mpr hc)
  used e he := hperm.mem_iff.mp (h.used e he)

theorem lookup_iff (h : Books held rc) {id : ℕ} :
    rc.counters.lookup key = some id ↔ (key, id) ∈ rc.counters := by
  have hkeys := h.keys
  generalize rc.counters = l at hkeys
  induction l with
  | nil => simp
  | cons e l ih =>
    obtain ⟨k, i⟩ := e
    simp only [List.map_cons, List.nodup_cons] at hkeys
    rw [List.lookup_cons]
    by_cases hk : key = k
    · subst hk
      have hnot : (key, id) ∉ l := fun hmem => hkeys.1 (List.mem_map_of_mem hmem)
      simp [hnot, eq_comm]
    · have hbeq : (key == k) = false := by simpa using hk
      simp [hbeq, hk, ih hkeys.2]

/-- **`Get` takes one more.** -/
theorem get (h : Books held rc) : Books ((rc.get key).1 :: held) (rc.get key).2 := by
  unfold RateCounters.get
  cases hlookup : rc.counters.lookup key with
  | some id =>
    have hmem := h.lookup_iff.mp hlookup
    exact {
      keys := h.keys
      ids := h.ids
      allocated := h.allocated
      transfers := fun id' => by
        have := h.transfers id'
        unfold RateCounters.transfers at this ⊢
        rcases eq_or_ne id' id with rfl | hne
        · simp [this]
        · simp [Function.update_of_ne hne, this, hne.symm]
      global := by simp [h.global]
      mapped := List.forall_mem_cons.mpr ⟨hmem, h.mapped⟩
      used := fun e he => List.mem_cons_of_mem _ (h.used e he) }
  | none =>
    have hkey : key ∉ rc.counters.map Prod.fst := by
      intro hk
      obtain ⟨⟨k, id⟩, hmem, rfl⟩ := List.mem_map.mp hk
      rw [h.lookup_iff.mpr hmem] at hlookup
      cases hlookup
    -- a new counter is one that nobody has
    have hfree : rc.free ∉ rc.counters.map Prod.snd := by
      intro hid
      obtain ⟨e, hmem, heq⟩ := List.mem_map.mp hid
      exact absurd (h.allocated e hmem) (by omega)
    have hnone : held.countP (fun c => decide (c.id = rc.free)) = 0 :=
      List.countP_eq_zero.mpr fun c hc heq =>
        hfree (of_decide_eq_true heq ▸ List.mem_map_of_mem (h.mapped c hc))
    exact {
      keys := List.nodup_cons.mpr ⟨hkey, h.keys⟩
      ids := List.nodup_cons.mpr ⟨hfree, h.ids⟩
      allocated := List.forall_mem_cons.mpr
        ⟨Nat.lt_succ_self _, fun e he => Nat.lt_succ_of_lt (h.allocated e he)⟩
      transfers := fun id' => by
        have := h.transfers id'
        unfold RateCounters.transfers at this ⊢
        rcases eq_or_ne id' rc.free with rfl | hne
        · simp [hnone]
        · simp [Function.update_of_ne hne, this, hne.symm]
      global := by simp [h.global]
      mapped := List.forall_mem_cons.mpr
        ⟨List.mem_cons_self, fun c hc => List.mem_cons_of_mem _ (h.mapped c hc)⟩
      used := List.forall_mem_cons.mpr
        ⟨List.mem_cons_self, fun e he => List.mem_cons_of_mem _ (h.used e he)⟩ }

/-- **The release gives one back.** -/
theorem release (h : Books (c :: held) rc) : Books held (rc.release c) := by
  have hcount := h.transfers c.id
  unfold RateCounters.transfers at hcount
  rw [List.countP_cons_of_pos (by simp)] at hcount
  have htransfers : ∀ id', (rc.release c).transfers id' = held.countP fun c => c.id = id' := by
    intro id'
    have := h.transfers id'
    unfold RateCounters.transfers RateCounters.release at *
    rcases eq_or_ne id' c.id with rfl | hne
    · simp [hcount]
    · simpa [Function.update_of_ne hne, hne.symm] using this
  have hglobal : (rc.release c).globalTransfers = held.length := by
    have := h.global
    simp only [RateCounters.release, this, List.length_cons]
    omega
  by_cases hzero : (rc.heap c.id).transfers - 1 = 0
  · -- the last one: no other acquisition is of this counter
    have hcounters : (rc.release c).counters = rc.counters.filter fun e => e.1 ≠ c.key := if_pos hzero
    have hlast : ∀ c' ∈ held, c'.id ≠ c.id := by
      have hnone : held.countP (fun c' => decide (c'.id = c.id)) = 0 := by omega
      simpa using List.countP_eq_zero.mp hnone
    have hsub : (rc.counters.filter fun e => e.1 ≠ c.key).Sublist rc.counters := List.filter_sublist
    have hcmem := h.mapped c List.mem_cons_self
    exact {
      keys := hcounters ▸ h.keys.sublist (hsub.map _)
      ids := hcounters ▸ h.ids.sublist (hsub.map _)
      allocated := fun e he => h.allocated e (hsub.subset (hcounters ▸ he))
      transfers := htransfers
      global := hglobal
      mapped := fun c' hc' => by
        have hmem := h.mapped c' (List.mem_cons_of_mem _ hc')
        rw [hcounters, List.mem_filter]
        refine ⟨hmem, ?_⟩
        -- two acquisitions with one key are of one counter
        have hkey : c'.key ≠ c.key := fun heq => hlast c' hc' <|
          Option.some.inj ((h.lookup_iff.mpr hmem).symm.trans (heq ▸ h.lookup_iff.mpr hcmem))
        simpa using hkey
      used := fun e he => by
        rw [hcounters, List.mem_filter] at he
        rcases List.mem_cons.mp (h.used e he.1) with heq | hmem
        · exact absurd (congrArg RateCounter.key heq) (by simpa using he.2)
        · exact hmem }
  · have hcounters : (rc.release c).counters = rc.counters := if_neg hzero
    exact {
      keys := hcounters ▸ h.keys
      ids := hcounters ▸ h.ids
      allocated := fun e he => h.allocated e (hcounters ▸ he)
      transfers := htransfers
      global := hglobal
      mapped := fun c' hc' => hcounters ▸ h.mapped c' (List.mem_cons_of_mem _ hc')
      used := fun e he => by
        rw [hcounters] at he
        rcases List.mem_cons.mp (h.used e he) with heq | hmem
        · -- another acquisition keeps the counter in use
          have hpos : 0 < held.countP (fun c' => decide (c'.id = c.id)) := by omega
          obtain ⟨c', hc', hid⟩ := List.countP_pos_iff.mp hpos
          have hmem := h.mapped c' (List.mem_cons_of_mem _ hc')
          have hinj : (c'.key, c'.id) = e := by
            refine List.inj_on_of_nodup_map h.ids hmem he ?_
            rw [of_decide_eq_true hid, ← heq]
          rw [← hinj]
          exact hc'
        · exact hmem }

omit [DecidableEq K] in
/-- A change that leaves the count of transfers. -/
theorem modify (h : Books held rc) {id : ℕ} {f : CounterState → CounterState}
    (hf : ∀ s, (f s).transfers = s.transfers) : Books held (rc.modify id f) where
  keys := h.keys
  ids := h.ids
  allocated := h.allocated
  transfers id' := by
    rw [← h.transfers id']
    unfold RateCounters.transfers RateCounters.modify
    rcases eq_or_ne id' id with rfl | hne
    · simp [hf]
    · simp [Function.update_of_ne hne]
  global := h.global
  mapped := h.mapped
  used := h.used

omit [DecidableEq K] in
/-- An acquisition is counted at one counter in the map. -/
theorem sum_one (h : Books held rc) (hc : c ∈ held) :
    (rc.counters.map fun e => if c.id = e.2 then (1 : ℤ) else 0).sum = 1 := by
  have hmem : c.id ∈ rc.counters.map Prod.snd := List.mem_map_of_mem (h.mapped c hc)
  have hids := h.ids
  generalize rc.counters = l at hmem hids
  induction l with
  | nil => simp at hmem
  | cons e l ih =>
    obtain ⟨hnot, hids⟩ := List.nodup_cons.mp hids
    rw [List.map_cons, List.sum_cons]
    rcases List.mem_cons.mp hmem with heq | hmem
    · rw [if_pos heq, add_eq_left]
      refine List.sum_eq_zero fun x hx => ?_
      obtain ⟨e', he', rfl⟩ := List.mem_map.mp hx
      refine if_neg fun (heq' : c.id = e'.2) => hnot ?_
      rw [← heq, heq']
      exact List.mem_map_of_mem he'
    · have hne : c.id ≠ e.2 := fun heq => hnot (by rwa [← heq])
      rw [if_neg hne, ih hmem hids, zero_add]

omit [DecidableEq K] in
/-- **The counters in the map count every acquisition once.** -/
theorem sum_eq (h : Books held rc) :
    (rc.counters.map fun e => rc.transfers e.2).sum = rc.globalTransfers := by
  have hsum : ∀ l : List (RateCounter K), (∀ c ∈ l, c ∈ held) →
      (rc.counters.map fun e => (l.countP (fun c => decide (c.id = e.2)) : ℤ)).sum = l.length := by
    intro l hl
    induction l with
    | nil => simp
    | cons c l ih =>
      obtain ⟨hc, hl⟩ := List.forall_mem_cons.mp hl
      have hcons : ∀ id, (((c :: l).countP fun c => decide (c.id = id) : ℕ) : ℤ) =
          (if c.id = id then 1 else 0) + (l.countP fun c => decide (c.id = id) : ℕ) := by
        intro id
        rw [List.countP_cons]
        split_ifs <;> simp_all
        omega
      simp only [hcons, List.sum_map_add, h.sum_one hc, ih hl, List.length_cons]
      omega
  rw [h.global, ← hsum held fun _ => id]
  simp only [h.transfers]

/-- The counter of a key counts the acquisitions of the key. -/
theorem peer_eq (h : Books held rc) (key : K) :
    rc.peer key = held.countP fun c => c.key = key := by
  unfold peer
  cases hlookup : rc.counters.lookup key with
  | none =>
    refine (Int.natCast_eq_zero.mpr (List.countP_eq_zero.mpr fun c hc hkey => ?_)).symm
    have hmem := h.mapped c hc
    rw [of_decide_eq_true hkey, ← h.lookup_iff, hlookup] at hmem
    cases hmem
  | some id =>
    change rc.transfers id = _
    rw [h.transfers]
    refine congrArg _ (List.countP_congr fun c hc => ?_)
    have hmem := h.mapped c hc
    have hid := h.lookup_iff.mp hlookup
    simp only [decide_eq_true_eq]
    constructor
    · intro heq
      exact congrArg Prod.fst (List.inj_on_of_nodup_map h.ids hmem hid heq)
    · intro heq
      exact congrArg Prod.snd (List.inj_on_of_nodup_map h.keys hmem hid heq)

omit [DecidableEq K] in
theorem nonneg (h : Books held rc) : rc.NonNegative := by
  refine ⟨by rw [h.global]; exact Int.natCast_nonneg _, fun id => ?_⟩
  rw [h.transfers]
  exact Int.natCast_nonneg _

end Books

end RateCounters

/-! ## Transfers -/

/-- Where a transfer is, with the counter it has to give back. -/
inductive Transfer (K : Type) where
  /-- No write has failed its check: `writeError` is nil. -/
  | live (rc : RateCounter K)
  /-- In `Check`, behind a callback that returned an error. -/
  | failing (rc : RateCounter K)
  /-- `writeError` is set. -/
  | failed
  /-- In `Done`, in `Release`. -/
  | releasing (rc : RateCounter K)
  | done

/-- The counter that was acquired and not released yet. -/
def Transfer.held {K : Type} : Transfer K → Option (RateCounter K)
  | live rc => some rc
  | failing rc => some rc
  | failed => none
  | releasing rc => some rc
  | done => none

/-- The counters, and the transfers that were started. -/
structure Transfers (K : Type) where
  counters : RateCounters K
  started : List (Transfer K)

/-- A critical section of a transfer. -/
inductive TransferEvent (K : Type) where
  /-- `Get`, of a transfer that starts. -/
  | get (key : K)
  /-- A `Write` that writes `n` bytes, with a speed check before it or not. -/
  | write (i n : ℕ) (checked : Bool)
  /-- A `Write` whose speed check fails, in the callback of `Check`. -/
  | fail (i : ℕ)
  /-- `Done`, as far as into `Release`. -/
  | done (i : ℕ)
  /-- `unlink`, below `Check` or `Release`. -/
  | unlink (i : ℕ)

namespace Transfers

variable {K : Type} [DecidableEq K]

/-- A transfer is at another place, and the counters have changed. -/
def set (i : ℕ) (t : Transfer K) (rc : RateCounters K) (s : Transfers K) : Transfers K :=
  ⟨rc, s.started.set i t⟩

/-- A critical section, when the transfer is where it is entered and the
counter's `lk` is free if it needs it. -/
def next (s : Transfers K) : TransferEvent K → Transfers K
  | .get key => ⟨(s.counters.get key).2, s.started ++ [.live (s.counters.get key).1]⟩
  | .write i n checked =>
    match s.started[i]? with
    -- `Write` adds up; only with a check does it take the counter's `lk`
    | some (.live rc) =>
      if checked ∧ (s.counters.heap rc.id).lk then s
      else { s with counters :=
        s.counters.modify rc.id fun c => { c with transferred := c.transferred + n } }
    | _ => s
  | .fail i =>
    match s.started[i]? with
    | some (.live rc) =>
      if (s.counters.heap rc.id).lk then s
      else s.set i (.failing rc) (s.counters.modify rc.id fun c => { c with lk := true })
    | _ => s
  | .done i =>
    match s.started[i]? with
    | some (.live rc) =>
      if (s.counters.heap rc.id).lk then s
      else s.set i (.releasing rc) (s.counters.modify rc.id fun c => { c with lk := true })
    -- the speed check has given the counter back already
    | some .failed => s.set i .done s.counters
    | _ => s
  | .unlink i =>
    match s.started[i]? with
    | some (.failing rc) =>
      s.set i .failed ((s.counters.release rc).modify rc.id fun c => { c with lk := false })
    | some (.releasing rc) =>
      s.set i .done ((s.counters.release rc).modify rc.id fun c => { c with lk := false })
    | _ => s

def start : Transfers K := ⟨.new, []⟩

/-- The acquisitions that are out. -/
def held (s : Transfers K) : List (RateCounter K) := s.started.filterMap Transfer.held

variable {s : Transfers K} {e : TransferEvent K} {i : ℕ} {t t' : Transfer K} {rc : RateCounter K}
  {rcs : RateCounters K}

omit [DecidableEq K] in
/-- What is held, but for one transfer. -/
theorem held_set (t' : Transfer K) (rcs : RateCounters K) (h : s.started[i]? = some t) :
    ∃ rest, s.held.Perm (t.held.toList ++ rest) ∧
      (s.set i t' rcs).held.Perm (t'.held.toList ++ rest) := by
  obtain ⟨hi, rfl⟩ := List.getElem?_eq_some_iff.mp h
  obtain ⟨l₁, l₂, heq, -, hset⟩ : ∃ l₁ l₂, s.started = l₁ ++ s.started[i] :: l₂ ∧ l₁.length = i ∧
      s.started.set i t' = l₁ ++ t' :: l₂ := List.exists_of_set hi
  refine ⟨l₁.filterMap Transfer.held ++ l₂.filterMap Transfer.held, ?_, ?_⟩
  · unfold held
    conv_lhs => rw [heq]
    rw [List.filterMap_append, List.filterMap_cons]
    cases s.started[i].held with
    | none => exact List.Perm.refl _
    | some rc => exact List.perm_middle
  · unfold held set
    rw [hset, List.filterMap_append, List.filterMap_cons]
    cases t'.held with
    | none => exact List.Perm.refl _
    | some rc => exact List.perm_middle

omit [DecidableEq K] in
/-- The books behind a step of one transfer, from what the step does to
them. -/
theorem set_books (h : s.counters.Books s.held) (ht : s.started[i]? = some t)
    (hstep : ∀ rest, s.counters.Books (t.held.toList ++ rest) →
      rcs.Books (t'.held.toList ++ rest)) :
    (s.set i t' rcs).counters.Books (s.set i t' rcs).held := by
  obtain ⟨rest, hs, hs'⟩ := held_set t' rcs ht
  exact (hstep rest (h.perm hs)).perm hs'.symm

/-- **A critical section keeps the books in order.** -/
theorem next_books (h : s.counters.Books s.held) : (s.next e).counters.Books (s.next e).held := by
  cases e with
  | get key =>
    refine h.get.perm ?_
    simp only [next, held, List.filterMap_append]
    exact (List.perm_append_singleton _ _).symm
  | write i n checked =>
    simp only [next]
    split
    · split_ifs
      · exact h
      · have hcount : ∀ c : CounterState, { c with transferred := c.transferred + n }.transfers =
            c.transfers := fun _ => rfl
        exact RateCounters.Books.modify h hcount
    · exact h
  | fail i =>
    simp only [next]
    split
    · rename_i ht
      split_ifs
      · exact h
      · exact set_books h ht fun rest hrest => RateCounters.Books.modify hrest fun c => rfl
    · exact h
  | done i =>
    simp only [next]
    split
    · rename_i ht
      split_ifs
      · exact h
      · exact set_books h ht fun rest hrest => RateCounters.Books.modify hrest fun c => rfl
    · rename_i ht
      exact set_books h ht fun rest => id
    · exact h
  | unlink i =>
    simp only [next]
    split
    · rename_i ht
      exact set_books h ht fun rest hrest => RateCounters.Books.modify hrest.release fun c => rfl
    · rename_i ht
      exact set_books h ht fun rest hrest => RateCounters.Books.modify hrest.release fun c => rfl
    · exact h

/-- **The bookkeeping of the counters.** -/
structure InOrder (s : Transfers K) : Prop where
  /-- The global count is the sum over the counters in the map. -/
  global_sum : s.counters.globalTransfers =
    (s.counters.counters.map fun e => s.counters.transfers e.2).sum
  /-- It counts the acquisitions that are not released. -/
  global_held : s.counters.globalTransfers = s.held.length
  nonneg : s.counters.NonNegative
  /-- A counter is in the map when it has transfers, and only then. -/
  mem_iff : ∀ id, id ∈ s.counters.counters.map Prod.snd ↔ 0 < s.counters.transfers id
  /-- A transfer that is not released holds the counter of its key. -/
  holds : ∀ rc ∈ s.held, s.counters.counters.lookup rc.key = some rc.id

theorem inOrder_of_books (h : s.counters.Books s.held) : s.InOrder where
  global_sum := h.sum_eq.symm
  global_held := h.global
  nonneg := h.nonneg
  mem_iff id := by
    rw [h.transfers, Int.natCast_pos, List.countP_pos_iff]
    constructor
    · intro hid
      obtain ⟨e, he, rfl⟩ := List.mem_map.mp hid
      exact ⟨_, h.used e he, by simp⟩
    · rintro ⟨rc, hrc, hid⟩
      rw [← of_decide_eq_true hid]
      exact List.mem_map_of_mem (h.mapped rc hrc)
  holds rc hrc := h.lookup_iff.mpr (h.mapped rc hrc)

/-- **The counters are in order in every run**: whatever the keys, and
however the critical sections of the transfers interleave. -/
theorem run_inOrder (es : List (TransferEvent K)) : (runEvents next start es).InOrder := by
  have hstart : (start : Transfers K).counters.Books (start : Transfers K).held :=
    RateCounters.books_new
  exact inOrder_of_books (runEvents_stable (I := fun s : Transfers K => s.counters.Books s.held)
    (fun _ _ => next_books) hstart es)

end Transfers

end Ributil

end Ribs
