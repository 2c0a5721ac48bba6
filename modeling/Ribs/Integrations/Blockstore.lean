import Mathlib.Data.List.Basic
import Ribs.Common.Runs
/-!
# Integrations — the blockstore and its worker

`Put` and `PutMany` queue their blocks, and one worker gives what is queued
to a batch. `Flush` draws a number, wakes the worker through a channel with
one slot, and waits for the position of the flushed requests to reach the
number. The worker answers all requests so far with one flush of its batch.
What was given to a batch, and what was flushed since, is kept in ghost
fields.
-/

namespace Ribs

open Common

namespace Integrations

def maxQueuedPuts : ℕ := 640

def BlockstoreMaxQueuedBlocks : ℕ := 640

def BlockstoreMaxUnflushedBlocks : ℕ := 10240

variable {β : Type}

/-- A `Put` or `PutMany` of some blocks. -/
structure Request (β : Type) where
  id : ℕ
  param : List β

/-- What called `flushBatch`: a batch that got too large, with the requests
to respond to, or a request to flush. -/
inductive FlushedBy (β : Type) where
  | size (toRespond : List (Request β))
  | request

/-- Where the worker is. -/
inductive Worker (β : Type) where
  | select
  /-- In the inner loop, with the requests received. -/
  | gather (reqs : List (Request β))
  | put (reqs : List (Request β))
  /-- In `flushBatch`: at the channel, at the number, at `Batch.Flush`, and
  at the deferred store, with what `flushBatch` returns. -/
  | consume (caller : FlushedBy β)
  | load (caller : FlushedBy β)
  | flush (newPos : ℕ) (caller : FlushedBy β)
  | store (newPos : ℕ) (ok : Bool) (caller : FlushedBy β)
  | respond (reqs : List (Request β)) (ok : Bool)
  /-- At the deferred `Batch.Flush`, and behind it. -/
  | closing
  | stopped

/-- A call of `Flush`, at its wait or before its send. -/
structure FlushCall (β : Type) where
  now : ℕ
  sent : Bool
  /-- The puts that had returned nil when it was called. -/
  seen : List (Request β)

/-- A call of `Flush` that returned nil. -/
structure Flushed (β : Type) where
  seen : List (Request β)
  /-- The requests, with their batches, that were flushed when it returned. -/
  flushed : List (Request β × ℕ)

/-- **The blockstore**: its channels, its counters, its worker and its
callers. -/
structure Blockstore (β : Type) where
  puts : List (Request β)
  /-- The `Resp` channels that hold a response, nil or not. -/
  responses : List (Request β × Bool)
  flushReq : ℕ
  flushPos : ℕ
  /-- The slot of the channel is taken. -/
  flushCh : Bool
  stop : Bool
  worker : Worker β
  bt : Option ℕ
  unflushed : ℕ
  /-- The calls so far, and the batches. -/
  calls : ℕ
  batches : ℕ
  waiting : List (FlushCall β)
  /-- The puts that returned nil. -/
  acked : List (Request β)
  returned : List (Flushed β)
  /-- The requests given to a batch, in a `Batch.Put` that returned nil, and
  those of them with a later `Batch.Flush` that did. -/
  given : List (Request β × ℕ)
  flushed : List (Request β × ℕ)

/-- What happens: a step of a caller, or of the worker. -/
inductive Event (β : Type) where
  | put (param : List β)
  | ack (j : ℕ)
  | flush
  | send (j : ℕ)
  | flushed (j : ℕ)
  | cancel (j : ℕ)
  | close
  /-- The worker receives from a channel. -/
  | recvPut
  | recvFlush
  | recvStop
  /-- It goes on; `ok` is of the batch. -/
  | work (ok : Bool)

namespace Blockstore

/-- `New`. -/
def new : Blockstore β where
  puts := []
  responses := []
  flushReq := 0
  flushPos := 0
  flushCh := false
  stop := false
  worker := .select
  bt := none
  unflushed := 0
  calls := 0
  batches := 0
  waiting := []
  acked := []
  returned := []
  given := []
  flushed := []

/-! ## Callers -/

/-- A `Put` that finds room in the queue. -/
def put (param : List β) (b : Blockstore β) : Blockstore β :=
  if b.puts.length < maxQueuedPuts then
    { b with puts := b.puts ++ [⟨b.calls, param⟩], calls := b.calls + 1 }
  else b

/-- A `Put` gets its response. -/
def ack (j : ℕ) (b : Blockstore β) : Blockstore β :=
  match b.responses[j]? with
  | none => b
  | some (req, ok) =>
    { b with
      responses := b.responses.eraseIdx j
      acked := if ok then b.acked ++ [req] else b.acked }

/-- `Flush`: note "now". -/
def flush (b : Blockstore β) : Blockstore β :=
  { b with
    flushReq := b.flushReq + 1
    waiting := b.waiting ++ [⟨b.flushReq + 1, false, b.acked⟩] }

/-- Tell the flusher to flush, or merge with what it was told. -/
def send (j : ℕ) (b : Blockstore β) : Blockstore β :=
  match b.waiting[j]? with
  | none => b
  | some c =>
    if c.sent then b
    else { b with flushCh := true, waiting := b.waiting.set j { c with sent := true } }

/-- A `Flush` looks at the position; it returns nil, or waits on. -/
def flushReturn (j : ℕ) (b : Blockstore β) : Blockstore β :=
  match b.waiting[j]? with
  | none => b
  | some c =>
    if c.sent ∧ c.now ≤ b.flushPos then
      { b with
        waiting := b.waiting.eraseIdx j
        returned := b.returned ++ [⟨c.seen, b.flushed⟩] }
    else b

/-- A `Flush` that is interrupted, or cancelled. -/
def cancel (j : ℕ) (b : Blockstore β) : Blockstore β :=
  { b with waiting := b.waiting.eraseIdx j }

/-! ## The worker -/

def blockCount (reqs : List (Request β)) : ℕ := (reqs.flatMap Request.param).length

def recvPut (b : Blockstore β) : Blockstore β :=
  match b.puts with
  | [] => b
  | req :: puts =>
    match b.worker with
    -- the first request of a batch, and then as many as there is room for
    | .select => { b with puts := puts, worker := .gather [req] }
    | .gather reqs =>
      { b with
        puts := puts
        worker :=
          if BlockstoreMaxQueuedBlocks < blockCount (reqs ++ [req]) then .put (reqs ++ [req])
          else .gather (reqs ++ [req]) }
    | _ => b

def recvFlush (b : Blockstore β) : Blockstore β :=
  match b.worker with
  | .select => if b.flushCh then { b with flushCh := false, worker := .consume .request } else b
  | _ => b

def recvStop (b : Blockstore β) : Blockstore β :=
  match b.worker with
  | .select => if b.stop then { b with worker := .closing } else b
  | _ => b

/-- A batch was flushed: all that was given to it is. -/
def noteFlushed (k : ℕ) (b : Blockstore β) : Blockstore β :=
  { b with flushed := b.flushed ++ b.given.filter fun e => e.2 = k }

/-- The batch, a new one if there is none. -/
def batch (b : Blockstore β) : Blockstore β :=
  match b.bt with
  | none => { b with bt := some b.batches, batches := b.batches + 1 }
  | some _ => b

/-- `Batch.Put` returned nil. -/
def putDone (reqs : List (Request β)) (k : ℕ) (b : Blockstore β) : Blockstore β :=
  { b with
    given := b.given ++ reqs.map fun req => (req, k)
    unflushed := b.unflushed + blockCount reqs
    worker :=
      if BlockstoreMaxUnflushedBlocks < b.unflushed + blockCount reqs then .consume (.size reqs)
      else .respond reqs true }

/-- The worker, between two receives. -/
def work (ok : Bool) (b : Blockstore β) : Blockstore β :=
  match b.worker with
  | .select => b
  -- nothing more in the queue: what was gathered goes to the batch
  | .gather reqs => if b.puts = [] then { b with worker := .put reqs } else b
  | .put reqs =>
    match b.batch.bt with
    | none => b
    | some k =>
      if ok then b.batch.putDone reqs k else { b.batch with worker := .respond reqs false }
  | .consume caller => { b with flushCh := false, worker := .load caller }
  -- the position is read before the batch is flushed
  | .load caller => { b with worker := .flush b.flushReq caller }
  | .flush newPos caller =>
    match b.bt with
    -- no batch, nothing to flush
    | none => { b with worker := .store newPos true caller }
    | some k =>
      if ok then
        { b.noteFlushed k with bt := none, unflushed := 0, worker := .store newPos true caller }
      else { b with worker := .store newPos false caller }
  | .store newPos ok caller =>
    { b with
      -- stored also behind a flush that has failed
      flushPos := newPos
      worker :=
        match caller with
        | .size reqs => .respond reqs ok
        | .request => if ok then .select else .closing }
  | .respond [] _ => { b with worker := .select }
  | .respond (req :: reqs) ok =>
    { b with responses := b.responses ++ [(req, ok)], worker := .respond reqs ok }
  | .closing =>
    match b.bt with
    | none => { b with worker := .stopped }
    | some k => if ok then { b.noteFlushed k with worker := .stopped } else { b with worker := .stopped }
  | .stopped => b

/-- One event. -/
def next (b : Blockstore β) : Event β → Blockstore β
  | .put param => b.put param
  | .ack j => b.ack j
  | .flush => b.flush
  | .send j => b.send j
  | .flushed j => b.flushReturn j
  | .cancel j => b.cancel j
  | .close => { b with stop := true }
  | .recvPut => b.recvPut
  | .recvFlush => b.recvFlush
  | .recvStop => b.recvStop
  | .work ok => b.work ok

/-! ## What is flushed -/

variable {b b' : Blockstore β} {req : Request β} {c : FlushCall β}

/-- The batch that the request was given to was flushed since. -/
def IsFlushed (b : Blockstore β) (req : Request β) : Prop := ∃ k, (req, k) ∈ b.flushed

/-- The request was given to a batch, which was flushed since or is the
worker's. -/
def IsGiven (b : Blockstore β) (req : Request β) : Prop :=
  ∃ k, (req, k) ∈ b.given ∧ ((req, k) ∈ b.flushed ∨ b.bt = some k)

/-- What a `Flush` waits for has happened. -/
def Covered (b : Blockstore β) (c : FlushCall β) : Prop := ∀ req ∈ c.seen, b.IsFlushed req

/-- The requests that the caller of `flushBatch` will respond to. -/
def CallerOk (b : Blockstore β) : FlushedBy β → Prop
  | .size reqs => ∀ req ∈ reqs, b.IsGiven req
  | .request => True

/-- The position that `flushBatch` is going to store lies ahead. -/
def Ahead (b : Blockstore β) (newPos : ℕ) : Prop := b.flushPos ≤ newPos ∧ newPos ≤ b.flushReq

/-- What holds where the worker is. -/
def Stage (b : Blockstore β) : Worker β → Prop
  | .consume caller => b.CallerOk caller
  | .load caller => b.CallerOk caller
  | .flush newPos caller => b.CallerOk caller ∧ b.Ahead newPos
  | .store newPos _ caller =>
    b.CallerOk caller ∧ b.Ahead newPos ∧ ∀ c ∈ b.waiting, c.now ≤ newPos → b.Covered c
  | .respond reqs ok => ok = true → ∀ req ∈ reqs, b.IsGiven req
  | _ => True

/-- **The invariant of the worker and its callers.** -/
structure Inv (b : Blockstore β) : Prop where
  pos : b.flushPos ≤ b.flushReq
  acked : ∀ req ∈ b.acked, b.IsGiven req
  responses : ∀ req, (req, true) ∈ b.responses → b.IsGiven req
  stage : b.Stage b.worker
  /-- The calls of `Flush` drew their numbers, and saw what was acked. -/
  waiting : ∀ c ∈ b.waiting, c.now ≤ b.flushReq ∧ ∀ req ∈ c.seen, req ∈ b.acked
  covered : ∀ c ∈ b.waiting, c.now ≤ b.flushPos → b.Covered c
  returned : ∀ x ∈ b.returned, ∀ req ∈ x.seen, ∃ k, (req, k) ∈ x.flushed

/-- What was given stays so, when nothing is taken back. -/
structure Later (b b' : Blockstore β) : Prop where
  given : b.given ⊆ b'.given
  flushed : b.flushed ⊆ b'.flushed
  /-- The batch is still the worker's, or what was given to it is flushed. -/
  bt : ∀ k, b.bt = some k → b'.bt = some k ∨ ∀ req, (req, k) ∈ b.given → (req, k) ∈ b'.flushed

theorem Later.isGiven (h : Later b b') (hreq : b.IsGiven req) : b'.IsGiven req := by
  obtain ⟨k, hk, hfl | hbt⟩ := hreq
  · exact ⟨k, h.given hk, Or.inl (h.flushed hfl)⟩
  · rcases h.bt k hbt with hbt | hfl
    · exact ⟨k, h.given hk, Or.inr hbt⟩
    · exact ⟨k, h.given hk, Or.inl (hfl req hk)⟩

theorem Later.covered (h : Later b b') (hc : b.Covered c) : b'.Covered c := fun req hreq =>
  (hc req hreq).imp fun _ hk => h.flushed hk

theorem Later.caller {caller : FlushedBy β} (h : Later b b') (hc : b.CallerOk caller) :
    b'.CallerOk caller := by
  cases caller with
  | size reqs => exact fun req hreq => h.isGiven (hc req hreq)
  | request => trivial

/-- Nothing is given and nothing flushed. -/
theorem later_of_eq (hgiven : b'.given = b.given) (hflushed : b'.flushed = b.flushed)
    (hbt : b'.bt = b.bt) : Later b b' :=
  ⟨hgiven ▸ List.Subset.refl _, hflushed ▸ List.Subset.refl _, fun _ hk => Or.inl (hbt.trans hk)⟩

/-- When the worker has no batch, all that was given is flushed. -/
theorem IsGiven.isFlushed (h : b.IsGiven req) (hbt : b.bt = none) : b.IsFlushed req := by
  obtain ⟨k, -, hfl | hk⟩ := h
  · exact ⟨k, hfl⟩
  · rw [hbt] at hk
    exact absurd hk nofun

/-- **The worker moves on**, and leaves the callers alone. -/
theorem Inv.workerMoves (h : Inv b) (hlater : Later b b') (hpos : b'.flushPos = b.flushPos)
    (hreq : b'.flushReq = b.flushReq) (hacked : b'.acked = b.acked)
    (hresponses : b'.responses = b.responses) (hwaiting : b'.waiting = b.waiting)
    (hreturned : b'.returned = b.returned) (hstage : b'.Stage b'.worker) : Inv b' where
  pos := by rw [hpos, hreq]; exact h.pos
  acked := by rw [hacked]; exact fun req hr => hlater.isGiven (h.acked req hr)
  responses := by rw [hresponses]; exact fun req hr => hlater.isGiven (h.responses req hr)
  stage := hstage
  waiting := by rw [hwaiting, hreq, hacked]; exact h.waiting
  covered := by rw [hwaiting, hpos]; exact fun c hc hle => hlater.covered (h.covered c hc hle)
  returned := by rw [hreturned]; exact h.returned

/-- The stage of a worker that stays where it is. -/
theorem stage_of_later (h : b.Stage b.worker) (hlater : Later b b')
    (hworker : b'.worker = b.worker) (hpos : b'.flushPos = b.flushPos)
    (hreq : b.flushReq ≤ b'.flushReq)
    (hwaiting : ∀ c ∈ b'.waiting, c.now ≤ b.flushReq → ∃ c' ∈ b.waiting, c'.now = c.now ∧
      c'.seen = c.seen) : b'.Stage b'.worker := by
  have hahead : ∀ {newPos}, b.Ahead newPos → b'.Ahead newPos := fun ha =>
    ⟨hpos ▸ ha.1, Nat.le_trans ha.2 hreq⟩
  rw [hworker]
  cases hw : b.worker with
  | consume caller => rw [hw] at h; exact hlater.caller h
  | load caller => rw [hw] at h; exact hlater.caller h
  | flush newPos caller => rw [hw] at h; exact ⟨hlater.caller h.1, hahead h.2⟩
  | store newPos ok caller =>
    rw [hw] at h
    refine ⟨hlater.caller h.1, hahead h.2.1, fun c hc hle => ?_⟩
    obtain ⟨c', hc', hnow, hseen⟩ := hwaiting c hc (Nat.le_trans hle h.2.1.2)
    have hcov := hlater.covered (h.2.2 c' hc' (hnow ▸ hle))
    intro req hreq
    exact hcov req (hseen ▸ hreq)
  | respond reqs ok => rw [hw] at h; exact fun hok req hreq => hlater.isGiven (h hok req hreq)
  | _ => trivial

/-! ## The steps of the callers -/

theorem put_inv {param : List β} (h : Inv b) : Inv (b.put param) := by
  unfold put
  split_ifs
  · exact h.workerMoves (later_of_eq rfl rfl rfl) rfl rfl rfl rfl rfl rfl
      (stage_of_later h.stage (later_of_eq rfl rfl rfl) rfl rfl (Nat.le_refl _)
        fun c hc _ => ⟨c, hc, rfl, rfl⟩)
  · exact h

theorem ack_inv {j : ℕ} (h : Inv b) : Inv (b.ack j) := by
  unfold ack
  split
  · exact h
  next req ok hj =>
    have hlater : Later b { b with
        responses := b.responses.eraseIdx j
        acked := if ok then b.acked ++ [req] else b.acked } := later_of_eq rfl rfl rfl
    have hsub : b.acked ⊆ if ok then b.acked ++ [req] else b.acked := by
      split_ifs
      · exact List.subset_append_left _ _
      · exact List.Subset.refl _
    refine ⟨h.pos, fun req' hreq' => hlater.isGiven ?_, fun req' hreq' => hlater.isGiven ?_,
      stage_of_later h.stage hlater rfl rfl (Nat.le_refl _) fun c hc _ => ⟨c, hc, rfl, rfl⟩,
      fun c hc => ⟨(h.waiting c hc).1, fun req' hreq' => hsub ((h.waiting c hc).2 req' hreq')⟩,
      fun c hc hle => hlater.covered (h.covered c hc hle), h.returned⟩
    · change req' ∈ (if ok then b.acked ++ [req] else b.acked) at hreq'
      split_ifs at hreq' with hok
      · rcases List.mem_append.mp hreq' with hreq' | hreq'
        · exact h.acked req' hreq'
        · rw [List.mem_singleton.mp hreq']
          exact h.responses req (hok ▸ List.mem_of_getElem? hj)
      · exact h.acked req' hreq'
    · exact h.responses req' (List.mem_of_mem_eraseIdx hreq')

/-- A `Flush` draws a number behind all positions there are. -/
theorem flush_inv (h : Inv b) : Inv b.flush := by
  have hlater : Later b b.flush := later_of_eq rfl rfl rfl
  have hold : ∀ c ∈ b.flush.waiting, c ∈ b.waiting ∨ c = ⟨b.flushReq + 1, false, b.acked⟩ :=
    fun c hc => (List.mem_append.mp hc).imp_right List.mem_singleton.mp
  refine ⟨Nat.le_succ_of_le h.pos, fun req hreq => hlater.isGiven (h.acked req hreq),
    fun req hreq => hlater.isGiven (h.responses req hreq),
    stage_of_later h.stage hlater rfl rfl (Nat.le_succ _) fun c hc hle => ?_, fun c hc => ?_,
    fun c hc hle => ?_, h.returned⟩
  · rcases hold c hc with hc | rfl
    · exact ⟨c, hc, rfl, rfl⟩
    · exact absurd hle (Nat.not_succ_le_self _)
  · rcases hold c hc with hc | rfl
    · exact ⟨Nat.le_succ_of_le (h.waiting c hc).1, (h.waiting c hc).2⟩
    · exact ⟨Nat.le_refl _, fun _ => id⟩
  · rcases hold c hc with hc | rfl
    · exact hlater.covered (h.covered c hc hle)
    · have hpos := h.pos
      change b.flushReq + 1 ≤ b.flushPos at hle
      omega

/-- No new calls of `Flush`. -/
theorem Inv.waits {ws : List (FlushCall β)} {ch : Bool} {rs : List (Flushed β)} (h : Inv b)
    (hws : ∀ c ∈ ws, ∃ c' ∈ b.waiting, c'.now = c.now ∧ c'.seen = c.seen)
    (hrs : ∀ x ∈ rs, ∀ req ∈ x.seen, ∃ k, (req, k) ∈ x.flushed) :
    Inv { b with waiting := ws, flushCh := ch, returned := rs } := by
  have hlater : Later b { b with waiting := ws, flushCh := ch, returned := rs } :=
    later_of_eq rfl rfl rfl
  refine ⟨h.pos, fun req hreq => hlater.isGiven (h.acked req hreq),
    fun req hreq => hlater.isGiven (h.responses req hreq),
    stage_of_later h.stage hlater rfl rfl (Nat.le_refl _) fun c hc _ => hws c hc,
    fun c hc => ?_, fun c hc hle => ?_, hrs⟩
  · obtain ⟨c', hc', hnow, hseen⟩ := hws c hc
    rw [← hnow, ← hseen]
    exact h.waiting c' hc'
  · obtain ⟨c', hc', hnow, hseen⟩ := hws c hc
    have hcov := hlater.covered (h.covered c' hc' (hnow ▸ hle))
    exact fun req hreq => hcov req (hseen ▸ hreq)

theorem send_inv {j : ℕ} (h : Inv b) : Inv (b.send j) := by
  unfold send
  split
  · exact h
  next c hj =>
    split_ifs
    · exact h
    · refine h.waits (fun c' hc' => ?_) h.returned
      rcases List.mem_or_eq_of_mem_set hc' with hc' | rfl
      · exact ⟨c', hc', rfl, rfl⟩
      · exact ⟨c, List.mem_of_getElem? hj, rfl, rfl⟩

theorem cancel_inv {j : ℕ} (h : Inv b) : Inv (b.cancel j) :=
  h.waits (fun c hc => ⟨c, List.mem_of_mem_eraseIdx hc, rfl, rfl⟩) h.returned

/-- **A `Flush` that returns nil**: what it saw is flushed. -/
theorem flushReturn_inv {j : ℕ} (h : Inv b) : Inv (b.flushReturn j) := by
  unfold flushReturn
  split
  · exact h
  next c hj =>
    split_ifs with hpos
    · refine h.waits (fun c hc => ⟨c, List.mem_of_mem_eraseIdx hc, rfl, rfl⟩) fun x hx => ?_
      rcases List.mem_append.mp hx with hx | hx
      · exact h.returned x hx
      · rw [List.mem_singleton.mp hx]
        exact h.covered c (List.mem_of_getElem? hj) hpos.2
    · exact h

/-! ## The steps of the worker -/

theorem recvPut_inv (h : Inv b) : Inv b.recvPut := by
  unfold recvPut
  split
  · exact h
  · split
    · exact h.workerMoves (later_of_eq rfl rfl rfl) rfl rfl rfl rfl rfl rfl trivial
    · refine h.workerMoves (later_of_eq rfl rfl rfl) rfl rfl rfl rfl rfl rfl ?_
      dsimp only
      split_ifs <;> trivial
    · exact h

theorem recvFlush_inv (h : Inv b) : Inv b.recvFlush := by
  unfold recvFlush
  split
  · split_ifs
    · exact h.workerMoves (later_of_eq rfl rfl rfl) rfl rfl rfl rfl rfl rfl trivial
    · exact h
  · exact h

theorem recvStop_inv (h : Inv b) : Inv b.recvStop := by
  unfold recvStop
  split
  · split_ifs
    · exact h.workerMoves (later_of_eq rfl rfl rfl) rfl rfl rfl rfl rfl rfl trivial
    · exact h
  · exact h

/-- The worker has a batch; a new one has nothing yet. -/
theorem batch_eq : ∃ k n, b.batch = { b with bt := some k, batches := n } ∧
    Later b { b with bt := some k, batches := n } := by
  unfold batch
  split
  next hbt =>
    refine ⟨b.batches, b.batches + 1, rfl, List.Subset.refl _, List.Subset.refl _, fun k hk => ?_⟩
    rw [hbt] at hk
    exact absurd hk nofun
  next k hbt =>
    have heq : b = { b with bt := some k, batches := b.batches } := by rw [← hbt]
    exact ⟨k, b.batches, heq, later_of_eq rfl rfl hbt.symm⟩

theorem Later.trans {b'' : Blockstore β} (h : Later b b') (h' : Later b' b'') : Later b b'' where
  given := List.Subset.trans h.given h'.given
  flushed := List.Subset.trans h.flushed h'.flushed
  bt k hk := by
    rcases h.bt k hk with hk | hfl
    · rcases h'.bt k hk with hk | hfl
      · exact Or.inl hk
      · exact Or.inr fun req hreq => hfl req (h.given hreq)
    · exact Or.inr fun req hreq => h'.flushed (hfl req hreq)

/-- The requests are given to the batch. -/
theorem putDone_inv {reqs : List (Request β)} {ok : Bool} (h : Inv b) (hw : b.worker = .put reqs) :
    Inv (b.work ok) := by
  obtain ⟨k, n, heq, hlater⟩ := batch_eq (b := b)
  unfold work
  simp only [hw, heq]
  split_ifs
  · have hlater' : Later b (putDone reqs k { b with bt := some k, batches := n }) :=
      hlater.trans ⟨List.subset_append_left _ _, List.Subset.refl _, fun _ hk => Or.inl hk⟩
    have hgiven : ∀ req ∈ reqs, (putDone reqs k { b with bt := some k, batches := n }).IsGiven req :=
      fun req hreq => ⟨k, List.mem_append_right _ (List.mem_map_of_mem hreq), Or.inr rfl⟩
    refine h.workerMoves hlater' rfl rfl rfl rfl rfl rfl ?_
    unfold putDone at hgiven ⊢
    dsimp only at hgiven ⊢
    split_ifs
    · exact hgiven
    · exact fun _ => hgiven
  · exact h.workerMoves (hlater.trans (later_of_eq rfl rfl rfl)) rfl rfl rfl rfl rfl rfl nofun

/-- All that was given to the batch is flushed with it. -/
theorem later_flushDone {k : ℕ} {w : Worker β} (hbt : b.bt = some k) :
    Later b { b.noteFlushed k with bt := none, unflushed := 0, worker := w } := by
  refine ⟨List.Subset.refl _, List.subset_append_left _ _, fun k' hk' => Or.inr fun req hreq => ?_⟩
  obtain rfl : k = k' := Option.some.inj (hbt.symm.trans hk')
  exact List.mem_append_right _ (List.mem_filter.mpr ⟨hreq, decide_eq_true rfl⟩)

/-- Once the worker has no batch, every `Flush` there is is covered. -/
theorem covered_of_none (hlater : Later b b') (h : Inv b) (hbt : b'.bt = none)
    (hc : c ∈ b.waiting) : b'.Covered c := fun req hreq =>
  (hlater.isGiven (h.acked req ((h.waiting c hc).2 req hreq))).isFlushed hbt

/-- A `Batch.Flush` in `flushBatch` only fails when no `Flush` was called
since the last position was stored. -/
def FlushSafe (b : Blockstore β) : Event β → Prop
  | .work false =>
    match b.worker with
    | .flush newPos _ => b.bt ≠ none → newPos = b.flushPos
    | _ => True
  | _ => True

theorem flushStep_inv {newPos : ℕ} {caller : FlushedBy β} {ok : Bool} (h : Inv b)
    (hw : b.worker = .flush newPos caller) (hsafe : b.FlushSafe (.work ok)) : Inv (b.work ok) := by
  have hstage := h.stage
  rw [hw] at hstage
  obtain ⟨hcaller, hahead⟩ := hstage
  unfold work
  simp only [hw]
  split
  next hbt =>
    have hlater : Later b { b with worker := .store newPos true caller } := later_of_eq rfl rfl rfl
    exact h.workerMoves hlater rfl rfl rfl rfl rfl rfl
      ⟨hlater.caller hcaller, hahead, fun c hc _ => covered_of_none hlater h hbt hc⟩
  next k hbt =>
    cases ok with
    | true =>
      have hlater := later_flushDone (w := .store newPos true caller) hbt
      exact h.workerMoves hlater rfl rfl rfl rfl rfl rfl
        ⟨hlater.caller hcaller, hahead, fun c hc _ => covered_of_none hlater h rfl hc⟩
    | false =>
      -- the stored position is the old one
      have hlater : Later b { b with worker := .store newPos false caller } :=
        later_of_eq rfl rfl rfl
      unfold FlushSafe at hsafe
      simp only [hw] at hsafe
      have hnew := hsafe (by rw [hbt]; exact nofun)
      exact h.workerMoves hlater rfl rfl rfl rfl rfl rfl
        ⟨hlater.caller hcaller, hahead, fun c hc hle =>
          hlater.covered (h.covered c hc (hnew ▸ hle))⟩

theorem storeStep_inv {newPos : ℕ} {caller : FlushedBy β} {ok ok' : Bool} (h : Inv b)
    (hw : b.worker = .store newPos ok' caller) : Inv (b.work ok) := by
  have hstage := h.stage
  rw [hw] at hstage
  obtain ⟨hcaller, hahead, hcovered⟩ := hstage
  unfold work
  simp only [hw]
  refine ⟨hahead.2, h.acked, h.responses, ?_, h.waiting, hcovered, h.returned⟩
  cases caller with
  | size reqs => exact fun _ => hcaller
  | request =>
    dsimp only
    split_ifs <;> trivial

theorem work_inv {ok : Bool} (h : Inv b) (hsafe : b.FlushSafe (.work ok)) : Inv (b.work ok) := by
  cases hw : b.worker with
  | put reqs => exact putDone_inv h hw
  | flush newPos caller => exact flushStep_inv h hw hsafe
  | store newPos ok' caller => exact storeStep_inv h hw
  | select =>
    unfold work
    simp only [hw]
    exact h
  | gather reqs =>
    unfold work
    simp only [hw]
    split_ifs
    · exact h.workerMoves (later_of_eq rfl rfl rfl) rfl rfl rfl rfl rfl rfl trivial
    · exact h
  | consume caller =>
    have hstage := h.stage
    rw [hw] at hstage
    unfold work
    simp only [hw]
    exact h.workerMoves (later_of_eq rfl rfl rfl) rfl rfl rfl rfl rfl rfl hstage
  | load caller =>
    have hstage := h.stage
    rw [hw] at hstage
    unfold work
    simp only [hw]
    exact h.workerMoves (later_of_eq rfl rfl rfl) rfl rfl rfl rfl rfl rfl
      ⟨hstage, h.pos, Nat.le_refl _⟩
  | respond reqs ok' =>
    have hstage := h.stage
    rw [hw] at hstage
    unfold work
    simp only [hw]
    cases reqs with
    | nil => exact h.workerMoves (later_of_eq rfl rfl rfl) rfl rfl rfl rfl rfl rfl trivial
    | cons req reqs =>
      -- the response that goes out says what the stage promised
      refine ⟨h.pos, h.acked, fun req' hreq' => ?_, ?_, h.waiting, h.covered, h.returned⟩
      · rcases List.mem_append.mp hreq' with hreq' | hreq'
        · exact h.responses req' hreq'
        · obtain ⟨rfl, rfl⟩ := Prod.mk.inj (List.mem_singleton.mp hreq')
          exact hstage rfl _ List.mem_cons_self
      · exact fun hok req' hreq' => hstage hok req' (List.mem_cons_of_mem _ hreq')
  | closing =>
    unfold work
    simp only [hw]
    split
    · exact h.workerMoves (later_of_eq rfl rfl rfl) rfl rfl rfl rfl rfl rfl trivial
    · split_ifs
      · exact h.workerMoves ⟨List.Subset.refl _, List.subset_append_left _ _, fun _ hk => Or.inl hk⟩
          rfl rfl rfl rfl rfl rfl trivial
      · exact h.workerMoves (later_of_eq rfl rfl rfl) rfl rfl rfl rfl rfl rfl trivial
  | stopped =>
    unfold work
    simp only [hw]
    exact h

theorem next_inv {e : Event β} (h : Inv b) (hsafe : b.FlushSafe e) : Inv (b.next e) := by
  cases e with
  | put param => exact put_inv h
  | ack j => exact ack_inv h
  | flush => exact flush_inv h
  | send j => exact send_inv h
  | flushed j => exact flushReturn_inv h
  | cancel j => exact cancel_inv h
  | close =>
    exact h.workerMoves (later_of_eq rfl rfl rfl) rfl rfl rfl rfl rfl rfl
      (stage_of_later h.stage (later_of_eq rfl rfl rfl) rfl rfl (Nat.le_refl _)
        fun c hc _ => ⟨c, hc, rfl, rfl⟩)
  | recvPut => exact recvPut_inv h
  | recvFlush => exact recvFlush_inv h
  | recvStop => exact recvStop_inv h
  | work ok => exact work_inv h hsafe

theorem new_inv : Inv (new : Blockstore β) where
  pos := Nat.le_refl _
  acked _ h := absurd h List.not_mem_nil
  responses _ h := absurd h List.not_mem_nil
  stage := trivial
  waiting _ h := absurd h List.not_mem_nil
  covered _ h := absurd h List.not_mem_nil
  returned _ h := absurd h List.not_mem_nil

/-- **A `Flush` that returns nil means flushed**: the batch of every block
of every put that had returned nil when it was called has been flushed
since, in every run in which no `Batch.Flush` fails with a `Flush` waiting
for it. -/
theorem flush_means_flushed {es : List (Event β)} (h : Always next FlushSafe new es) :
    ∀ x ∈ (runEvents next new es).returned, ∀ req ∈ x.seen, ∃ k, (req, k) ∈ x.flushed :=
  (runEvents_invariant (fun _ _ => next_inv) new_inv h).returned

/-- One put, and a flush; `ok` is of the batch's. -/
def putThenFlush (ok : Bool) : List (Event ℕ) :=
  [.put [7], .recvPut, .work true, .work true, .work true, .work true, .ack 0] ++
    [.flush, .send 0, .recvFlush, .work true, .work true, .work ok, .work true, .flushed 0]

theorem flush_means_flushed_one :
    (runEvents next new (putThenFlush true)).returned = [⟨[⟨0, [7]⟩], [(⟨0, [7]⟩, 0)]⟩] ∧
      ∀ x ∈ (runEvents next new (putThenFlush true)).returned, ∀ req ∈ x.seen,
        ∃ k, (req, k) ∈ x.flushed := by
  refine ⟨rfl, flush_means_flushed ?_⟩
  exact ⟨trivial, trivial, trivial, trivial, trivial, trivial, trivial, trivial, trivial, trivial,
    trivial, trivial, trivial, trivial, trivial, trivial⟩

/-- **The batch fails to flush**, and `Flush` returns nil. -/
theorem flush_not_flushed : ¬ ∀ x ∈ (runEvents next new (putThenFlush false)).returned,
    ∀ req ∈ x.seen, ∃ k, (req, k) ∈ x.flushed := by
  intro h
  have hreturned : (runEvents next new (putThenFlush false)).returned = [⟨[⟨0, [7]⟩], []⟩] := rfl
  rw [hreturned] at h
  obtain ⟨k, hk⟩ := h _ (List.mem_singleton_self _) _ (List.mem_singleton_self _)
  exact absurd hk List.not_mem_nil

end Blockstore

end Integrations

end Ribs
