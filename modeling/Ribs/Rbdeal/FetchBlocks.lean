import Mathlib.Logic.Function.Basic
import Ribs.Bsst.Format
import Ribs.Common.Runs
/-!
# Rbdeal — fetching blocks from providers

Any number of calls of `FetchBlocks` run side by side. A call first looks
into the cache; it then asks the HTTP candidates for each hash that is
left, and lassie for each that is left behind that. Who asks for a hash
first puts a promise into `ongoingRequests`, and others that ask for it
meanwhile wait on that. What the HTTP stage does not get it releases: the
promise stays in the map, and is claimed by whoever asks next.
-/

namespace Ribs

open Common
open Bsst (Multihash)

namespace Rbdeal

/-- `requestPromise`. -/
structure Promise where
  /-- The hash it was made for. -/
  cid : Multihash
  res : Option Bytes := none
  /-- `err` was set. -/
  err : Bool := false
  /-- `claimed`, with the call that has set it. -/
  claimed : Option ℕ
  /-- How often `done` was closed. -/
  closes : ℕ := 0

/-- The stage of a call, lassie's with the number of the attempt. -/
inductive Stage where
  | http
  | lassie (attempt : ℕ)
deriving DecidableEq

/-- What the owner of a promise has still to do with it. -/
inductive Resolve where
  /-- Before the entry is deleted from the map. -/
  | removing
  /-- Before the block is added to the cache. -/
  | caching
  /-- Before `res` or `err` is set. -/
  | setting
  | closing
  | closed
deriving DecidableEq

inductive FetchErr where
  | candidates
  /-- The hash with this index was not to be had. -/
  | block (i : ℕ)
deriving DecidableEq

/-- Where a call is: at which index, with which hash and which promise. -/
inductive FetchAt where
  /-- In the loop over the cache. -/
  | looking (i : ℕ)
  | candidates
  /-- At the head of a stage's loop; `retrievalPromise` is next. -/
  | asking (stage : Stage) (i : ℕ)
  /-- In `retrievalPromise`, at the `select`. -/
  | waiting (stage : Stage) (i : ℕ) (hash : Multihash) (promise : ℕ)
  /-- With the HTTP candidates asked, and what the first of them to succeed
  is about to do. -/
  | getting (i : ℕ) (hash : Multihash) (promise : ℕ) (got : Option (Bytes × Resolve))
  /-- In `lsi.Fetch`. -/
  | fetching (attempt i : ℕ) (hash : Multihash) (promise : ℕ)
  /-- Behind it, with the block or without. -/
  | resolving (attempt i : ℕ) (hash : Multihash) (promise : ℕ) (block : Option Bytes)
      (next : Resolve)
  | returned (err : Option FetchErr)
deriving DecidableEq

/-- **A call of `FetchBlocks`**. -/
structure FetchCall where
  /-- The list of hashes, in which what was found is set to nil. -/
  mh : List (Option Multihash)
  cacheHits : ℕ := 0
  httpHits : ℕ := 0
  at_ : FetchAt := .looking 0
  /-- The list the call was given. -/
  asked : List Multihash
  /-- The calls of `cb`. -/
  delivered : List (ℕ × Bytes) := []
  /-- The indices for which `cb` was called, in the HTTP stage, with the block
  of another call's promise. -/
  borrowed : List ℕ := []

/-- The calls and the promises, by number, and what the calls share. -/
structure Fetches where
  calls : ℕ → Option FetchCall
  promises : ℕ → Promise
  /-- The promises below this number were made. -/
  made : ℕ
  ongoingRequests : Multihash → Option ℕ
  blockCache : Multihash → Option Bytes

/-- A step of the system. -/
inductive FetchEvent where
  | call (j : ℕ) (mh : List Multihash)
  | step (j : ℕ)
  /-- The candidates of the group were read, or not; whether there is one with
  an HTTP address. -/
  | candidates (j : ℕ) (found : Option Bool)
  /-- A candidate answers with these bytes. -/
  | httpData (j : ℕ) (data : Bytes)
  /-- Every candidate has failed. -/
  | httpFailed (j : ℕ)
  /-- `lsi.Fetch` returns, and the block is in the store or is not. -/
  | lassie (j : ℕ) (block : Option Bytes)
  /-- The context of the call is done. -/
  | ctxDone (j : ℕ)
  | evict (hash : Multihash)

/-- The call that the event is of. -/
def FetchEvent.caller : FetchEvent → Option ℕ
  | .call j _ => some j
  | .step j => some j
  | .candidates j _ => some j
  | .httpData j _ => some j
  | .httpFailed j => some j
  | .lassie j _ => some j
  | .ctxDone j => some j
  | .evict _ => none

namespace Fetches

/-- No call was made yet. -/
def start : Fetches :=
  ⟨fun _ => none, fun _ => ⟨[], none, false, none, 0⟩, 0, fun _ => none, fun _ => none⟩

def set (j : ℕ) (c : FetchCall) (s : Fetches) : Fetches :=
  { s with calls := Function.update s.calls j (some c) }

/-- The call `c` goes on to `at_`. -/
def goto (j : ℕ) (c : FetchCall) (at_ : FetchAt) (s : Fetches) : Fetches :=
  s.set j { c with at_ := at_ }

/-- The call `c` calls `cb`, and goes on to `at_`. -/
def deliver (j : ℕ) (c : FetchCall) (i : ℕ) (b : Bytes) (at_ : FetchAt) (s : Fetches) : Fetches :=
  s.set j { c with delivered := c.delivered ++ [(i, b)], at_ := at_ }

/-- A write to a promise. -/
def write (p : ℕ) (f : Promise → Promise) (s : Fetches) : Fetches :=
  { s with promises := Function.update s.promises p (f (s.promises p)) }

/-- `delete(r.ongoingRequests, cidToGet)`. -/
def remove (h : Multihash) (s : Fetches) : Fetches :=
  { s with ongoingRequests := Function.update s.ongoingRequests h none }

def cacheAdd (h : Multihash) (b : Bytes) (s : Fetches) : Fetches :=
  { s with blockCache := Function.update s.blockCache h (some b) }

/-- A fresh promise for `h`, claimed by the call `j`. -/
def newPromise (j : ℕ) (h : Multihash) (s : Fetches) : Fetches :=
  { s with
    promises := Function.update s.promises s.made { cid := h, claimed := some j }
    made := s.made + 1
    ongoingRequests := Function.update s.ongoingRequests h (some s.made) }

end Fetches

/-- With a promise of its own, a call asks the candidates, or lassie. -/
def Stage.fetch (i : ℕ) (h : Multihash) (p : ℕ) : Stage → FetchAt
  | .http => .getting i h p none
  | .lassie attempt => .fetching attempt i h p

/-- Behind an index. -/
def Stage.onward (i : ℕ) : Stage → FetchAt
  | .http => .asking .http (i + 1)
  | .lassie _ => .asking (.lassie 0) (i + 1)

/-- Without the block: the HTTP stage gives up, and so does lassie's behind
the sixteenth attempt. -/
def Stage.fail (i : ℕ) : Stage → FetchAt
  | .http => .returned (some (.block i))
  | .lassie attempt =>
    if attempt + 1 < 16 then .asking (.lassie (attempt + 1)) i else .returned (some (.block i))

/-- Behind the HTTP stage. -/
def FetchCall.afterHttp (c : FetchCall) : FetchAt :=
  if c.cacheHits + c.httpHits = c.mh.length then .returned none else .asking (.lassie 0) 0

namespace Fetches

/-- A step of the loop over the cache. -/
def look (j : ℕ) (c : FetchCall) (i : ℕ) (s : Fetches) : Fetches :=
  match c.mh[i]? with
  | none =>
    s.goto j c (if c.cacheHits = c.mh.length then .returned none else .candidates)
  | some none => s.goto j c (.looking (i + 1))
  | some (some h) =>
    match s.blockCache h with
    | none => s.goto j c (.looking (i + 1))
    | some b =>
      s.deliver j { c with mh := c.mh.set i none, cacheHits := c.cacheHits + 1 } i b
        (.looking (i + 1))

/-- `retrievalPromise`, up to the `select`. -/
def retrievalPromise (j : ℕ) (c : FetchCall) (stage : Stage) (i : ℕ) (h : Multihash)
    (s : Fetches) : Fetches :=
  match s.ongoingRequests h with
  | none => (s.newPromise j h).goto j c (stage.fetch i h s.made)
  | some p =>
    -- a promise that was released is claimed by whoever comes next
    if (s.promises p).claimed = none then
      (s.write p fun q => { q with claimed := some j }).goto j c (stage.fetch i h p)
    else s.goto j c (.waiting stage i h p)

/-- The head of a stage's loop. -/
def ask (j : ℕ) (c : FetchCall) (stage : Stage) (i : ℕ) (s : Fetches) : Fetches :=
  match c.mh[i]? with
  | none => s.goto j c (match stage with | .http => c.afterHttp | .lassie _ => .returned none)
  | some none => s.goto j c (stage.onward i)
  | some (some h) => s.retrievalPromise j c stage i h

/-- `retrievalPromise`, behind `<-or.done`. In the HTTP stage `FetchBlocks`
goes on to the next hash without a word on this one. -/
def wake (j : ℕ) (c : FetchCall) (stage : Stage) (i : ℕ) (p : ℕ) (s : Fetches) : Fetches :=
  if (s.promises p).closes = 0 then s
  -- closed without a block: an error for all who wait
  else if (s.promises p).err then s.goto j c (stage.fail i)
  else
    s.deliver j { c with borrowed := if stage = .http then i :: c.borrowed else c.borrowed } i
      ((s.promises p).res.getD []) (stage.onward i)

/-- The next thing to do with an own promise; the call stays where it is. -/
def resolve (h : Multihash) (p : ℕ) (block : Option Bytes) (s : Fetches) : Resolve → Fetches
  | .removing => s.remove h
  | .caching =>
    match block with
    | some b => s.cacheAdd h b
    | none => s
  | .setting =>
    match block with
    | some b => s.write p fun q => { q with res := some b }
    | none => s.write p fun q => { q with err := true }
  | .closing => s.write p fun q => { q with closes := q.closes + 1 }
  | .closed => s

end Fetches

/-- What comes next. -/
def Resolve.succ : Resolve → Resolve
  | .removing => .caching
  | .caching => .setting
  | .setting => .closing
  | .closing => .closed
  | .closed => .closed

namespace Fetches

/-- `FetchBlocks`, from one step to the next. -/
def step (j : ℕ) (c : FetchCall) (s : Fetches) : Fetches :=
  match c.at_ with
  | .looking i => s.look j c i
  | .candidates => s
  | .asking stage i => s.ask j c stage i
  | .waiting stage i _ p => s.wake j c stage i p
  | .getting _ _ _ none => s
  -- the own promise is resolved: its block is delivered
  | .getting i _ p (some (_, .closed)) =>
    s.deliver j { c with mh := c.mh.set i none, httpHits := c.httpHits + 1 } i
      ((s.promises p).res.getD []) (.asking .http (i + 1))
  | .getting i h p (some (b, r)) =>
    (s.resolve h p (some b) r).goto j c (.getting i h p (some (b, r.succ)))
  | .fetching _ _ _ _ => s
  | .resolving attempt i _ _ block .closed =>
    match block with
    -- the block was cached, and is handed on
    | some b => s.deliver j c i b (.asking (.lassie 0) (i + 1))
    | none => s.goto j c ((Stage.lassie attempt).fail i)
  | .resolving attempt i h p block r =>
    (s.resolve h p block r).goto j c (.resolving attempt i h p block r.succ)
  | .returned _ => s

/-- Behind `retrievalCandidatesForGroupCached`. -/
def readCandidates (j : ℕ) (c : FetchCall) (found : Option Bool) (s : Fetches) : Fetches :=
  match c.at_, found with
  | .candidates, none => s.goto j c (.returned (some .candidates))
  | .candidates, some false => s.goto j c c.afterHttp
  | .candidates, some true => s.goto j c (.asking .http 0)
  | _, _ => s

/-- A candidate answers: bytes with another hash are an error, and only the
first success is one. -/
def httpData (hashes : Multihash → Bytes → Bool) (j : ℕ) (c : FetchCall) (data : Bytes)
    (s : Fetches) : Fetches :=
  match c.at_ with
  | .getting i h p none =>
    if hashes h data then s.goto j c (.getting i h p (some (data, .removing))) else s
  | _ => s

/-- Every candidate has failed: the promise is released. -/
def httpFailed (j : ℕ) (c : FetchCall) (s : Fetches) : Fetches :=
  match c.at_ with
  -- the promise stays open for the Lassie stage, or for another call
  | .getting i _ p none =>
    (s.write p fun q => { q with claimed := none }).goto j c (.asking .http (i + 1))
  | _ => s

/-- Behind `lsi.Fetch`, and `wstor.BS.Get`. -/
def lassie (j : ℕ) (c : FetchCall) (block : Option Bytes) (s : Fetches) : Fetches :=
  match c.at_ with
  | .fetching attempt i h p => s.goto j c (.resolving attempt i h p block .removing)
  | _ => s

/-- `<-ctx.Done()`. -/
def ctxDone (j : ℕ) (c : FetchCall) (s : Fetches) : Fetches :=
  match c.at_ with
  | .waiting stage i _ _ => s.goto j c (stage.fail i)
  | _ => s

/-- An event of a call that was not made is none. -/
def onCall (j : ℕ) (f : FetchCall → Fetches → Fetches) (s : Fetches) : Fetches :=
  match s.calls j with
  | some c => f c s
  | none => s

def next (hashes : Multihash → Bytes → Bool) (s : Fetches) : FetchEvent → Fetches
  | .call j mh =>
    if s.calls j = none then s.set j { mh := mh.map some, asked := mh } else s
  | .step j => s.onCall j (step j)
  | .candidates j found => s.onCall j fun c => readCandidates j c found
  | .httpData j data => s.onCall j fun c => httpData hashes j c data
  | .httpFailed j => s.onCall j (httpFailed j)
  | .lassie j block => s.onCall j fun c => lassie j c block
  | .ctxDone j => s.onCall j (ctxDone j)
  | .evict hash => { s with blockCache := Function.update s.blockCache hash none }

/-! ## What an event does -/

/-- **What a step of the call `j` can do**, by where the call is. -/
inductive Moves (hashes : Multihash → Bytes → Bool) (e : FetchEvent) (s : Fetches) (j : ℕ)
    (c : FetchCall) : Fetches → Prop where
  | hit (i : ℕ) (h : Multihash) (b : Bytes) (place : c.at_ = .looking i)
      (left : c.mh[i]? = some (some h)) (cached : s.blockCache h = some b) :
      Moves hashes e s j c
        (s.deliver j { c with mh := c.mh.set i none, cacheHits := c.cacheHits + 1 } i b
          (.looking (i + 1)))
  | miss (i : ℕ) (place : c.at_ = .looking i) :
      Moves hashes e s j c (s.goto j c (.looking (i + 1)))
  | looked (i : ℕ) (place : c.at_ = .looking i) (outside : c.mh[i]? = none) :
      Moves hashes e s j c
        (s.goto j c (if c.cacheHits = c.mh.length then .returned none else .candidates))
  | noCandidates (place : c.at_ = .candidates) (event : e = .candidates j none) :
      Moves hashes e s j c (s.goto j c (.returned (some .candidates)))
  | http (place : c.at_ = .candidates) : Moves hashes e s j c (s.goto j c (.asking .http 0))
  | noHttp (place : c.at_ = .candidates) : Moves hashes e s j c (s.goto j c c.afterHttp)
  | endHttp (i : ℕ) (place : c.at_ = .asking .http i) (outside : c.mh[i]? = none) :
      Moves hashes e s j c (s.goto j c c.afterHttp)
  | endLassie (attempt i : ℕ) (place : c.at_ = .asking (.lassie attempt) i)
      (outside : c.mh[i]? = none) : Moves hashes e s j c (s.goto j c (.returned none))
  | skip (stage : Stage) (i : ℕ) (place : c.at_ = .asking stage i)
      (found : c.mh[i]? = some none) : Moves hashes e s j c (s.goto j c (stage.onward i))
  | create (stage : Stage) (i : ℕ) (h : Multihash) (place : c.at_ = .asking stage i)
      (left : c.mh[i]? = some (some h)) (free : s.ongoingRequests h = none)
      (event : e = .step j) :
      Moves hashes e s j c ((s.newPromise j h).goto j c (stage.fetch i h s.made))
  | claim (stage : Stage) (i : ℕ) (h : Multihash) (p : ℕ) (place : c.at_ = .asking stage i)
      (left : c.mh[i]? = some (some h)) (entry : s.ongoingRequests h = some p)
      (free : (s.promises p).claimed = none) (event : e = .step j) :
      Moves hashes e s j c
        ((s.write p fun q => { q with claimed := some j }).goto j c (stage.fetch i h p))
  | wait (stage : Stage) (i : ℕ) (h : Multihash) (p : ℕ) (place : c.at_ = .asking stage i)
      (left : c.mh[i]? = some (some h)) (entry : s.ongoingRequests h = some p)
      (taken : (s.promises p).claimed ≠ none) (event : e = .step j) :
      Moves hashes e s j c (s.goto j c (.waiting stage i h p))
  | fail (stage : Stage) (i : ℕ) (h : Multihash) (p : ℕ) (place : c.at_ = .waiting stage i h p)
      (event : e = .ctxDone j ∨
        e = .step j ∧ (s.promises p).closes ≠ 0 ∧ (s.promises p).err = true) :
      Moves hashes e s j c (s.goto j c (stage.fail i))
  | given (stage : Stage) (i : ℕ) (h : Multihash) (p : ℕ)
      (place : c.at_ = .waiting stage i h p) (closed : (s.promises p).closes ≠ 0)
      (fine : (s.promises p).err ≠ true) :
      Moves hashes e s j c
        (s.deliver j { c with borrowed := if stage = .http then i :: c.borrowed else c.borrowed }
          i ((s.promises p).res.getD []) (stage.onward i))
  | success (i : ℕ) (h : Multihash) (p : ℕ) (b : Bytes) (place : c.at_ = .getting i h p none)
      (hash : hashes h b = true) :
      Moves hashes e s j c (s.goto j c (.getting i h p (some (b, .removing))))
  | release (i : ℕ) (h : Multihash) (p : ℕ) (place : c.at_ = .getting i h p none) :
      Moves hashes e s j c
        ((s.write p fun q => { q with claimed := none }).goto j c (.asking .http (i + 1)))
  | resolveHttp (i : ℕ) (h : Multihash) (p : ℕ) (b : Bytes) (r : Resolve)
      (place : c.at_ = .getting i h p (some (b, r))) (left : r ≠ .closed) :
      Moves hashes e s j c
        ((s.resolve h p (some b) r).goto j c (.getting i h p (some (b, r.succ))))
  | gotHttp (i : ℕ) (h : Multihash) (p : ℕ) (b : Bytes)
      (place : c.at_ = .getting i h p (some (b, .closed))) :
      Moves hashes e s j c
        (s.deliver j { c with mh := c.mh.set i none, httpHits := c.httpHits + 1 } i
          ((s.promises p).res.getD []) (.asking .http (i + 1)))
  | fetched (attempt i : ℕ) (h : Multihash) (p : ℕ) (block : Option Bytes)
      (place : c.at_ = .fetching attempt i h p) (event : e = .lassie j block) :
      Moves hashes e s j c (s.goto j c (.resolving attempt i h p block .removing))
  | resolveLassie (attempt i : ℕ) (h : Multihash) (p : ℕ) (block : Option Bytes) (r : Resolve)
      (place : c.at_ = .resolving attempt i h p block r) (left : r ≠ .closed) :
      Moves hashes e s j c
        ((s.resolve h p block r).goto j c (.resolving attempt i h p block r.succ))
  | failLassie (attempt i : ℕ) (h : Multihash) (p : ℕ)
      (place : c.at_ = .resolving attempt i h p none .closed) (event : e = .step j) :
      Moves hashes e s j c (s.goto j c ((Stage.lassie attempt).fail i))
  | gotLassie (attempt i : ℕ) (h : Multihash) (p : ℕ) (b : Bytes)
      (place : c.at_ = .resolving attempt i h p (some b) .closed) :
      Moves hashes e s j c (s.deliver j c i b (.asking (.lassie 0) (i + 1)))

/-- What an event does: nothing, a call is made, a block is evicted, or the
call that the event is of takes a step. -/
inductive Effect (hashes : Multihash → Bytes → Bool) (s : Fetches) (e : FetchEvent) :
    Fetches → Prop where
  | none : Effect hashes s e s
  | call (j : ℕ) (mh : List Multihash) (caller : e.caller = some j) (fresh : s.calls j = none) :
      Effect hashes s e (s.set j { mh := mh.map some, asked := mh })
  | evict (hash : Multihash) :
      Effect hashes s e { s with blockCache := Function.update s.blockCache hash none }
  | moves (j : ℕ) (c : FetchCall) (s' : Fetches) (caller : e.caller = some j)
      (call : s.calls j = some c) (moves : Moves hashes e s j c s') : Effect hashes s e s'

variable {hashes : Multihash → Bytes → Bool} {e : FetchEvent} {s s' : Fetches}
variable {c c' : FetchCall} {i j : ℕ} {h : Multihash} {p : ℕ}

theorem look_moves (hat : c.at_ = .looking i) : Moves hashes e s j c (s.look j c i) := by
  unfold look
  split
  · rename_i hout
    exact .looked i hat hout
  · exact .miss i hat
  · rename_i h hleft
    split
    · exact .miss i hat
    · rename_i b hb
      exact .hit i h b hat hleft hb

theorem ask_moves {stage : Stage} (hat : c.at_ = .asking stage i) (he : e = .step j) :
    Moves hashes e s j c (s.ask j c stage i) := by
  unfold ask
  split
  · rename_i hout
    cases stage with
    | http => exact .endHttp i hat hout
    | lassie attempt => exact .endLassie attempt i hat hout
  · rename_i hfound
    exact .skip stage i hat hfound
  · rename_i h hleft
    unfold retrievalPromise
    split
    · rename_i hfree
      exact .create stage i h hat hleft hfree he
    · rename_i p hentry
      split
      · rename_i hfree
        exact .claim stage i h p hat hleft hentry hfree he
      · rename_i htaken
        exact .wait stage i h p hat hleft hentry htaken he

theorem wake_moves {stage : Stage} (hat : c.at_ = .waiting stage i h p) (he : e = .step j) :
    s.wake j c stage i p = s ∨ Moves hashes e s j c (s.wake j c stage i p) := by
  unfold wake
  split
  · exact .inl rfl
  · rename_i hclosed
    split
    · rename_i herr
      exact .inr (.fail stage i h p hat (.inr ⟨he, hclosed, herr⟩))
    · rename_i hfine
      exact .inr (.given stage i h p hat hclosed hfine)

theorem step_moves (he : e = .step j) :
    s.step j c = s ∨ Moves hashes e s j c (s.step j c) := by
  obtain ⟨mh, cacheHits, httpHits, at_, asked, delivered, borrowed⟩ := c
  cases at_ with
  | looking i => exact .inr (look_moves rfl)
  | candidates => exact .inl rfl
  | asking stage i => exact .inr (ask_moves rfl he)
  | waiting stage i h p => exact wake_moves rfl he
  | getting i h p got =>
    rcases got with _ | ⟨b, r⟩
    · exact .inl rfl
    · cases r with
      | closed => exact .inr (.gotHttp i h p b rfl)
      | removing => exact .inr (.resolveHttp i h p b .removing rfl nofun)
      | caching => exact .inr (.resolveHttp i h p b .caching rfl nofun)
      | setting => exact .inr (.resolveHttp i h p b .setting rfl nofun)
      | closing => exact .inr (.resolveHttp i h p b .closing rfl nofun)
  | fetching attempt i h p => exact .inl rfl
  | resolving attempt i h p block r =>
    cases r with
    | closed =>
      cases block with
      | none => exact .inr (.failLassie attempt i h p rfl he)
      | some b => exact .inr (.gotLassie attempt i h p b rfl)
    | removing => exact .inr (.resolveLassie attempt i h p block .removing rfl nofun)
    | caching => exact .inr (.resolveLassie attempt i h p block .caching rfl nofun)
    | setting => exact .inr (.resolveLassie attempt i h p block .setting rfl nofun)
    | closing => exact .inr (.resolveLassie attempt i h p block .closing rfl nofun)
  | returned err => exact .inl rfl

theorem readCandidates_moves {found : Option Bool} (he : e = .candidates j found) :
    s.readCandidates j c found = s ∨ Moves hashes e s j c (s.readCandidates j c found) := by
  unfold readCandidates
  split
  · rename_i hat
    exact .inr (.noCandidates hat he)
  · rename_i hat
    exact .inr (.noHttp hat)
  · rename_i hat
    exact .inr (.http hat)
  · exact .inl rfl

theorem httpData_moves {data : Bytes} : s.httpData hashes j c data = s ∨
    Moves hashes e s j c (s.httpData hashes j c data) := by
  unfold httpData
  split
  · rename_i i h p hat
    split
    · rename_i hhash
      exact .inr (.success i h p data hat hhash)
    · exact .inl rfl
  · exact .inl rfl

theorem httpFailed_moves :
    s.httpFailed j c = s ∨ Moves hashes e s j c (s.httpFailed j c) := by
  unfold httpFailed
  split
  · rename_i i h p hat
    exact .inr (.release i h p hat)
  · exact .inl rfl

theorem lassie_moves {block : Option Bytes} (he : e = .lassie j block) :
    s.lassie j c block = s ∨ Moves hashes e s j c (s.lassie j c block) := by
  unfold lassie
  split
  · rename_i attempt i h p hat
    exact .inr (.fetched attempt i h p block hat he)
  · exact .inl rfl

theorem ctxDone_moves (he : e = .ctxDone j) :
    s.ctxDone j c = s ∨ Moves hashes e s j c (s.ctxDone j c) := by
  unfold ctxDone
  split
  · rename_i stage i h p hat
    exact .inr (.fail stage i h p hat (.inl he))
  · exact .inl rfl

theorem onCall_effect {f : FetchCall → Fetches → Fetches} (hj : e.caller = some j)
    (hf : ∀ c, f c s = s ∨ Moves hashes e s j c (f c s)) :
    Effect hashes s e (s.onCall j f) := by
  unfold onCall
  split
  · rename_i c hc
    rcases hf c with hsame | hmoves
    · rw [hsame]
      exact .none
    · exact .moves j c _ hj hc hmoves
  · exact .none

/-- **What an event does.** -/
theorem next_effect (hashes : Multihash → Bytes → Bool) (s : Fetches) (e : FetchEvent) :
    Effect hashes s e (s.next hashes e) := by
  cases e with
  | call j mh =>
    simp only [next]
    split
    · rename_i hfresh
      exact .call j mh rfl hfresh
    · exact .none
  | step j => exact onCall_effect rfl fun _ => step_moves rfl
  | candidates j found => exact onCall_effect rfl fun _ => readCandidates_moves rfl
  | httpData j data => exact onCall_effect rfl fun _ => httpData_moves
  | httpFailed j => exact onCall_effect rfl fun _ => httpFailed_moves
  | lassie j block => exact onCall_effect rfl fun _ => lassie_moves rfl
  | ctxDone j => exact onCall_effect rfl fun _ => ctxDone_moves rfl
  | evict hash => exact .evict hash

end Fetches

/-! ## Whose a promise is -/

/-- How far the owner of a promise is with it. -/
inductive PromisePhase where
  /-- It is in the map. -/
  | listed
  | unlisted
  /-- Its result is set, and it is to be closed. -/
  | ready
deriving DecidableEq

/-- A promise in the hands of a call. -/
structure Grip where
  hash : Multihash
  promise : ℕ
  phase : PromisePhase

def Resolve.phase : Resolve → Option PromisePhase
  | .removing => some .listed
  | .caching => some .unlisted
  | .setting => some .unlisted
  | .closing => some .ready
  | .closed => none

/-- What a call has in its hands: it has claimed the promise, and neither
released nor closed it. -/
def FetchAt.grip : FetchAt → Option Grip
  | .getting _ h p none => some ⟨h, p, .listed⟩
  | .getting _ h p (some (_, r)) => r.phase.map fun phase => ⟨h, p, phase⟩
  | .fetching _ _ h p => some ⟨h, p, .listed⟩
  | .resolving _ _ h p _ r => r.phase.map fun phase => ⟨h, p, phase⟩
  | _ => none

/-- The block that a call has in its hands, with the hash it was got for. -/
def FetchAt.block : FetchAt → Option (Multihash × Bytes)
  | .getting _ h _ (some (b, _)) => some (h, b)
  | .resolving _ _ h _ (some b) _ => some (h, b)
  | _ => none

/-- A call that has claimed the promise `p`. -/
def FetchCall.Claims (c : FetchCall) (p : ℕ) : Prop := ∃ g, c.at_.grip = some g ∧ g.promise = p

/-- A call that waits for the promise `p`, which it found under the hash `h`. -/
def FetchCall.WaitsFor (c : FetchCall) (h : Multihash) (p : ℕ) : Prop :=
  ∃ stage i, c.at_ = .waiting stage i h p

namespace Fetches

variable {hashes : Multihash → Bytes → Bool} {e : FetchEvent} {s s' : Fetches}
variable {c c' : FetchCall} {i j : ℕ} {h : Multihash} {p : ℕ} {g : Grip}

/-- What a call can count on for the promise in its hands. -/
structure GripOk (s : Fetches) (j : ℕ) (g : Grip) : Prop where
  made : g.promise < s.made
  cid : (s.promises g.promise).cid = g.hash
  claimed : (s.promises g.promise).claimed = some j
  unclosed : (s.promises g.promise).closes = 0
  listed : g.phase = .listed ↔ s.ongoingRequests g.hash = some g.promise
  ready : g.phase = .ready →
    (s.promises g.promise).res ≠ none ∨ (s.promises g.promise).err = true

structure CallOk (s : Fetches) (j : ℕ) (c : FetchCall) : Prop where
  grip : ∀ g, c.at_.grip = some g → GripOk s j g
  waits : ∀ h p, c.WaitsFor h p → p < s.made ∧ (s.promises p).cid = h

/-- What the map tells of a promise. -/
structure EntryOk (s : Fetches) (h : Multihash) (p : ℕ) : Prop where
  made : p < s.made
  cid : (s.promises p).cid = h
  unclosed : (s.promises p).closes = 0
  /-- Whoever has set `claimed` has it in its hands. -/
  claimed : ∀ j, (s.promises p).claimed = some j →
    ∃ c, s.calls j = some c ∧ c.at_.grip = some ⟨h, p, .listed⟩

/-- What holds of a promise, in the map or not. -/
structure PromiseOk (s : Fetches) (p : ℕ) : Prop where
  closes : (s.promises p).closes ≤ 1
  set : (s.promises p).closes = 1 → (s.promises p).res ≠ none ∨ (s.promises p).err = true
  /-- What is open is in the map, or in the hands of a call. -/
  open_ : (s.promises p).closes = 0 → s.ongoingRequests (s.promises p).cid = some p ∨
    ∃ j c, s.calls j = some c ∧ c.Claims p

/-- **The invariant of the promises.** -/
structure Inv (s : Fetches) : Prop where
  calls : ∀ j c, s.calls j = some c → CallOk s j c
  entries : ∀ h p, s.ongoingRequests h = some p → EntryOk s h p
  promises : ∀ p, p < s.made → PromiseOk s p

/-- What a step of the call `j` leaves to the others. -/
structure Leaves (j : ℕ) (s s' : Fetches) : Prop where
  calls : ∀ i, i ≠ j → s'.calls i = s.calls i
  made : s.made ≤ s'.made
  cid : ∀ p, p < s.made → (s'.promises p).cid = (s.promises p).cid
  theirs : ∀ p i, p < s.made → i ≠ j → (s.promises p).claimed = some i →
    s'.promises p = s.promises p
  entries : ∀ h p i, p < s.made → i ≠ j → (s.promises p).claimed = some i →
    (s'.ongoingRequests h = some p ↔ s.ongoingRequests h = some p)

/-- The others can count on what they could. -/
theorem CallOk.left (hc : CallOk s i c) (hleaves : Leaves j s s') (hij : i ≠ j) :
    CallOk s' i c where
  grip g hg := by
    have hok := hc.grip g hg
    have hsame : s'.promises g.promise = s.promises g.promise :=
      hleaves.theirs _ i hok.made hij hok.claimed
    refine ⟨Nat.lt_of_lt_of_le hok.made hleaves.made, ?_, ?_, ?_, ?_, ?_⟩
    · rw [hsame, hok.cid]
    · rw [hsame, hok.claimed]
    · rw [hsame, hok.unclosed]
    · rw [hleaves.entries _ _ i hok.made hij hok.claimed, hok.listed]
    · rw [hsame]
      exact hok.ready
  waits h p hw := by
    obtain ⟨hmade, hcid⟩ := hc.waits h p hw
    exact ⟨Nat.lt_of_lt_of_le hmade hleaves.made, (hleaves.cid p hmade).trans hcid⟩

/-- **The invariant survives a step of `j`** that leaves the others theirs,
and has `j`, the map and the promises in order behind it. -/
theorem Inv.moves (hs : Inv s) (hleaves : Leaves j s s') (hj : s'.calls j = some c')
    (hok : CallOk s' j c') (hentries : ∀ h p, s'.ongoingRequests h = some p → EntryOk s' h p)
    (hpromises : ∀ p, p < s'.made → PromiseOk s' p) : Inv s' where
  calls i c hi := by
    by_cases hij : i = j
    · subst hij
      obtain rfl : c' = c := Option.some.inj (hj.symm.trans hi)
      exact hok
    · rw [hleaves.calls i hij] at hi
      exact (hs.calls i c hi).left hleaves hij
  entries := hentries
  promises := hpromises

/-- Only one call has a promise in its hands. -/
theorem Inv.claims_unique (hs : Inv s) (hi : s.calls i = some c) (hj : s.calls j = some c')
    (hc : c.Claims p) (hc' : c'.Claims p) : i = j := by
  obtain ⟨g, hg, rfl⟩ := hc
  obtain ⟨g', hg', hp⟩ := hc'
  have hclaimed := ((hs.calls i c hi).grip g hg).claimed
  have hclaimed' := ((hs.calls j c' hj).grip g' hg').claimed
  rw [hp, hclaimed] at hclaimed'
  exact Option.some.inj hclaimed'

@[simp] theorem set_calls_self : (s.set j c).calls j = some c := Function.update_self ..

theorem set_calls_of_ne (hij : i ≠ j) : (s.set j c).calls i = s.calls i :=
  Function.update_of_ne hij ..

/-- What holds of a call holds of it by any other name. -/
theorem of_calls {P : FetchCall → Prop} (hj : s.calls j = some c) (hj' : s.calls j = some c')
    (h : P c') : P c := by
  obtain rfl := Option.some.inj (hj'.symm.trans hj)
  exact h

/-- An entry stays in order if what it names does. -/
theorem EntryOk.keep (he : EntryOk s h p) (hmade : s.made ≤ s'.made)
    (hp : s'.promises p = s.promises p)
    (hcalls : ∀ i c, s.calls i = some c → c.at_.grip = some ⟨h, p, .listed⟩ →
      ∃ c', s'.calls i = some c' ∧ c'.at_.grip = some ⟨h, p, .listed⟩) : EntryOk s' h p := by
  refine ⟨Nat.lt_of_lt_of_le he.made hmade, ?_, ?_, ?_⟩
  · rw [hp, he.cid]
  · rw [hp, he.unclosed]
  · intro i hi
    rw [hp] at hi
    obtain ⟨c, hc, hg⟩ := he.claimed i hi
    exact hcalls i c hc hg

/-- A promise stays in order if it does, and what has it in its hands. -/
theorem PromiseOk.keep (ho : PromiseOk s p) (hp : s'.promises p = s.promises p)
    (hentry : s.ongoingRequests (s.promises p).cid = some p →
      s'.ongoingRequests (s.promises p).cid = some p)
    (hcalls : ∀ i c, s.calls i = some c → c.Claims p → ∃ c', s'.calls i = some c' ∧ c'.Claims p) :
    PromiseOk s' p := by
  refine ⟨?_, ?_, ?_⟩
  · rw [hp]
    exact ho.closes
  · rw [hp]
    exact ho.set
  · rw [hp]
    intro hopen
    rcases ho.open_ hopen with hentry' | ⟨i, c, hi, hc⟩
    · exact Or.inl (hentry hentry')
    · obtain ⟨c', hi', hc'⟩ := hcalls i c hi hc
      exact Or.inr ⟨i, c', hi', hc'⟩

/-- The calls other than `j` are where they were, and `j` has what it had. -/
theorem call_kept {P : FetchCall → Prop} (hs : ∀ i, i ≠ j → s'.calls i = s.calls i)
    (hj : s.calls j = some c) (hj' : s'.calls j = some c') (hP : P c → P c') (i : ℕ)
    (d : FetchCall) (hi : s.calls i = some d) (hd : P d) : ∃ d', s'.calls i = some d' ∧ P d' := by
  by_cases hij : i = j
  · subst hij
    obtain rfl : c = d := Option.some.inj (hj.symm.trans hi)
    exact ⟨c', hj', hP hd⟩
  · exact ⟨d, (hs i hij).trans hi, hd⟩

/-- **A step that touches the call alone**, with nothing taken into its hands
or out of them. -/
theorem Inv.quiet (hs : Inv s) (hj : s.calls j = some c) (hj' : s'.calls j = some c')
    (hcalls : ∀ i, i ≠ j → s'.calls i = s.calls i) (hpromises : s'.promises = s.promises)
    (hmade : s'.made = s.made) (hongoing : s'.ongoingRequests = s.ongoingRequests)
    (hgrip : c'.at_.grip = c.at_.grip)
    (hwaits : ∀ h p, c'.WaitsFor h p → p < s.made ∧ (s.promises p).cid = h) : Inv s' := by
  have hc := hs.calls j c hj
  refine hs.moves ⟨hcalls, Nat.le_of_eq hmade.symm, fun p _ => by rw [hpromises],
    fun p i _ _ _ => by rw [hpromises], fun h p i _ _ _ => by rw [hongoing]⟩ hj' ⟨?_, ?_⟩ ?_ ?_
  · intro g hg
    have hok := hc.grip g (hgrip.symm.trans hg)
    refine ⟨?_, ?_, ?_, ?_, ?_, ?_⟩
    · rw [hmade]
      exact hok.made
    · rw [hpromises, hok.cid]
    · rw [hpromises, hok.claimed]
    · rw [hpromises, hok.unclosed]
    · rw [hongoing, hok.listed]
    · rw [hpromises]
      exact hok.ready
  · rw [hmade, hpromises]
    exact hwaits
  · intro h p hp
    rw [hongoing] at hp
    refine (hs.entries h p hp).keep (Nat.le_of_eq hmade.symm) (by rw [hpromises]) ?_
    exact call_kept hcalls hj hj' fun hg => hgrip.trans hg
  · intro p hp
    rw [hmade] at hp
    refine (hs.promises p hp).keep (by rw [hpromises]) (by rw [hongoing]; exact id) ?_
    exact call_kept hcalls hj hj' fun ⟨g, hg, hgp⟩ => ⟨g, hgrip.trans hg, hgp⟩

/-- A step of `j` that touches the promise `p` and its entries. -/
structure Touches (j p : ℕ) (c c' : FetchCall) (s s' : Fetches) : Prop where
  before : s.calls j = some c
  after : s'.calls j = some c'
  calls : ∀ i, i ≠ j → s'.calls i = s.calls i
  made : s.made ≤ s'.made
  fresh : ∀ q, q < s'.made → q = p ∨ q < s.made
  cid : p < s.made → (s'.promises p).cid = (s.promises p).cid
  others : ∀ q, q ≠ p → s'.promises q = s.promises q
  map : ∀ h q, q ≠ p → (s'.ongoingRequests h = some q ↔ s.ongoingRequests h = some q)
  /-- No other call has set `claimed`. -/
  mine : ∀ i, p < s.made → (s.promises p).claimed = some i → i = j
  held : ∀ g, c.at_.grip = some g → g.promise = p

/-- **A step that touches one promise**, which is nobody else's. -/
theorem Inv.touches (hs : Inv s) (ht : Touches j p c c' s s')
    (hgrip : ∀ g, c'.at_.grip = some g → GripOk s' j g) (hwaits : ∀ h q, ¬ c'.WaitsFor h q)
    (hentry : ∀ h, s'.ongoingRequests h = some p → EntryOk s' h p) (hpromise : PromiseOk s' p) :
    Inv s' := by
  have hne : ∀ q i, q < s.made → i ≠ j → (s.promises q).claimed = some i → q ≠ p := by
    rintro q i hq hij hclaimed rfl
    exact hij (ht.mine i hq hclaimed)
  refine hs.moves ⟨ht.calls, ht.made, fun q hq => ?_, fun q i hq hij hclaimed => ?_,
    fun h q i hq hij hclaimed => ?_⟩ ht.after ⟨hgrip, fun h q hw => absurd hw (hwaits h q)⟩ ?_ ?_
  · by_cases hqp : q = p
    · subst hqp
      exact ht.cid hq
    · rw [ht.others q hqp]
  · exact ht.others q (hne q i hq hij hclaimed)
  · exact ht.map h q (hne q i hq hij hclaimed)
  · intro h q hq
    by_cases hqp : q = p
    · subst hqp
      exact hentry h hq
    · refine (hs.entries h q ((ht.map h q hqp).mp hq)).keep ht.made (ht.others q hqp) ?_
      intro i d hi hg
      by_cases hij : i = j
      · subst hij
        obtain rfl : c = d := Option.some.inj (ht.before.symm.trans hi)
        exact absurd (ht.held _ hg) hqp
      · exact ⟨d, (ht.calls i hij).trans hi, hg⟩
  · intro q hq
    by_cases hqp : q = p
    · subst hqp
      exact hpromise
    · have hmade : q < s.made := (ht.fresh q hq).resolve_left hqp
      refine (hs.promises q hmade).keep (ht.others q hqp) (ht.map _ q hqp).mpr ?_
      rintro i d hi ⟨g, hg, rfl⟩
      by_cases hij : i = j
      · subst hij
        obtain rfl : c = d := Option.some.inj (ht.before.symm.trans hi)
        exact absurd (ht.held g hg) hqp
      · exact ⟨d, (ht.calls i hij).trans hi, g, hg, rfl⟩

@[simp] theorem fetch_grip (stage : Stage) : (stage.fetch i h p).grip = some ⟨h, p, .listed⟩ := by
  cases stage <;> rfl

@[simp] theorem onward_grip (stage : Stage) : (stage.onward i).grip = none := by
  cases stage <;> rfl

@[simp] theorem fail_grip (stage : Stage) : (stage.fail i).grip = none := by
  cases stage with
  | http => rfl
  | lassie attempt =>
    simp only [Stage.fail]
    split <;> rfl

/-- The call goes to a place at which it waits for nothing. -/
theorem not_waitsFor {at_ : FetchAt} (hc : c.at_ = at_)
    (hat : ∀ stage i h p, at_ ≠ .waiting stage i h p) (h : Multihash) (q : ℕ) : ¬ c.WaitsFor h q := by
  rintro ⟨stage, i, hw⟩
  exact hat stage i h q (hc.symm.trans hw)

theorem fetch_ne_waiting (stage : Stage) (st : Stage) (k : ℕ) (h' : Multihash) (q : ℕ) :
    stage.fetch i h p ≠ .waiting st k h' q := by
  cases stage <;> nofun

/-- **A new promise.** -/
theorem Inv.newPromise (hs : Inv s) (hj : s.calls j = some c) (hgrip : c.at_.grip = none)
    (hfree : s.ongoingRequests h = none) (stage : Stage) :
    Inv ((s.newPromise j h).goto j c (stage.fetch i h s.made)) := by
  have hfresh : ∀ h' q, s.ongoingRequests h' = some q → q ≠ s.made := fun h' q hq =>
    Nat.ne_of_lt (hs.entries h' q hq).made
  have hentry : ∀ h', Function.update s.ongoingRequests h (some s.made) h' = some s.made →
      h' = h := by
    intro h' hh'
    by_contra hne
    rw [Function.update_of_ne hne] at hh'
    exact hfresh h' _ hh' rfl
  refine hs.touches (p := s.made)
    ⟨hj, set_calls_self, fun i hij => set_calls_of_ne hij, Nat.le_succ _, ?_,
      fun hlt => absurd hlt (Nat.lt_irrefl _), fun q hq => Function.update_of_ne hq .., ?_,
      fun i hlt => absurd hlt (Nat.lt_irrefl _), fun g hg => ?_⟩ ?_ ?_ ?_ ?_
  · intro q hq
    exact (Nat.lt_succ_iff_lt_or_eq.mp hq).symm
  · intro h' q hq
    change Function.update s.ongoingRequests h (some s.made) h' = some q ↔ _
    by_cases hh' : h' = h
    · subst hh'
      rw [Function.update_self, hfree]
      constructor
      · intro heq
        exact absurd (Option.some.inj heq).symm hq
      · nofun
    · rw [Function.update_of_ne hh']
  · rw [hgrip] at hg
    exact absurd hg nofun
  · intro g hg
    rw [fetch_grip] at hg
    obtain rfl := Option.some.inj hg
    exact ⟨Nat.lt_succ_self _, by simp [Fetches.newPromise, goto, set],
      by simp [Fetches.newPromise, goto, set], by simp [Fetches.newPromise, goto, set],
      by simp [Fetches.newPromise, goto, set], nofun⟩
  · exact not_waitsFor rfl (fetch_ne_waiting stage)
  · intro h' hh'
    obtain rfl := hentry h' hh'
    refine ⟨Nat.lt_succ_self _, by simp [Fetches.newPromise, goto, set],
      by simp [Fetches.newPromise, goto, set], fun i hi => ?_⟩
    obtain rfl : j = i := by simpa [Fetches.newPromise, goto, set] using hi
    exact ⟨_, set_calls_self, fetch_grip stage⟩
  · exact ⟨by simp [Fetches.newPromise, goto, set], by simp [Fetches.newPromise, goto, set],
      fun _ => Or.inl (by simp [Fetches.newPromise, goto, set])⟩

/-- A write to a promise that no other call has claimed. -/
theorem touches_write {f : Promise → Promise} {at_ : FetchAt} (hj : s.calls j = some c)
    (hcid : ∀ q, (f q).cid = q.cid)
    (hmine : ∀ i, (s.promises p).claimed = some i → i = j)
    (hheld : ∀ g, c.at_.grip = some g → g.promise = p) :
    Touches j p c { c with at_ := at_ } s ((s.write p f).goto j c at_) where
  before := hj
  after := set_calls_self
  calls _ hij := set_calls_of_ne hij
  made := Nat.le_refl _
  fresh _ hq := Or.inr hq
  cid _ := by
    change (Function.update s.promises p (f (s.promises p)) p).cid = _
    rw [Function.update_self, hcid]
  others _ hq := Function.update_of_ne hq ..
  map _ _ _ := Iff.rfl
  mine i _ := hmine i
  held := hheld

@[simp] theorem write_goto_promise {f : Promise → Promise} {at_ : FetchAt} :
    ((s.write p f).goto j c at_).promises p = f (s.promises p) := Function.update_self ..

/-- **A released promise is claimed.** -/
theorem Inv.claim (hs : Inv s) (hj : s.calls j = some c) (hgrip : c.at_.grip = none)
    (hentry : s.ongoingRequests h = some p) (hfree : (s.promises p).claimed = none)
    (stage : Stage) :
    Inv ((s.write p fun q => { q with claimed := some j }).goto j c (stage.fetch i h p)) := by
  have he := hs.entries h p hentry
  have hnone : ∀ g, c.at_.grip = some g → g.promise = p := fun g hg => by
    rw [hgrip] at hg
    exact absurd hg nofun
  refine hs.touches (touches_write hj (fun _ => rfl) (fun i hi => ?_) hnone) ?_
    (not_waitsFor rfl (fetch_ne_waiting stage)) ?_ ?_
  · rw [hfree] at hi
    exact absurd hi nofun
  · intro g hg
    rw [fetch_grip] at hg
    obtain rfl := Option.some.inj hg
    exact ⟨he.made, by simp [he.cid], by simp, by simp [he.unclosed],
      iff_of_true rfl hentry, nofun⟩
  · intro h' hh'
    refine ⟨he.made, by simp [(hs.entries h' p hh').cid], by simp [he.unclosed], fun i hi => ?_⟩
    obtain rfl : h = h' := he.cid.symm.trans (hs.entries h' p hh').cid
    obtain rfl : j = i := by simpa using hi
    exact ⟨_, set_calls_self, fetch_grip stage⟩
  · refine ⟨by simp [he.unclosed], by simp [he.unclosed], fun _ => Or.inl ?_⟩
    rw [write_goto_promise]
    change s.ongoingRequests (s.promises p).cid = some p
    rw [he.cid, hentry]

/-- **A promise is released**, and stays in the map. -/
theorem Inv.release (hs : Inv s) (hj : s.calls j = some c)
    (hgrip : c.at_.grip = some ⟨h, p, .listed⟩) {at_ : FetchAt} (hat : at_.grip = none)
    (hwaits : ∀ stage i h p, at_ ≠ .waiting stage i h p) :
    Inv ((s.write p fun q => { q with claimed := none }).goto j c at_) := by
  have hok := (hs.calls j c hj).grip _ hgrip
  have hentry : s.ongoingRequests h = some p := hok.listed.mp rfl
  refine hs.touches (touches_write hj (fun _ => rfl) (fun i hi => ?_) fun g hg => ?_) ?_
    (not_waitsFor rfl hwaits) ?_ ?_
  · exact Option.some.inj (hi.symm.trans hok.claimed)
  · rw [hgrip] at hg
    rw [← Option.some.inj hg]
  · intro g hg
    exact absurd (hat.symm.trans hg) nofun
  · intro h' hh'
    refine ⟨hok.made, by simp [(hs.entries h' p hh').cid], by simp [hok.unclosed], fun i hi => ?_⟩
    simp at hi
  · refine ⟨by simp [hok.unclosed], by simp [hok.unclosed], fun _ => Or.inl ?_⟩
    rw [write_goto_promise]
    change s.ongoingRequests (s.promises p).cid = some p
    rw [hok.cid, hentry]

/-- **The owner of a promise deletes its entry.** -/
theorem Inv.remove (hs : Inv s) (hj : s.calls j = some c)
    (hgrip : c.at_.grip = some ⟨h, p, .listed⟩) {at_ : FetchAt}
    (hat : at_.grip = some ⟨h, p, .unlisted⟩)
    (hwaits : ∀ stage i h p, at_ ≠ .waiting stage i h p) :
    Inv ((s.remove h).goto j c at_) := by
  have hok := (hs.calls j c hj).grip _ hgrip
  have hentry : s.ongoingRequests h = some p := hok.listed.mp rfl
  have hgone : ∀ h', Function.update s.ongoingRequests h none h' ≠ some p := by
    intro h' hh'
    by_cases hne : h' = h
    · subst hne
      rw [Function.update_self] at hh'
      exact absurd hh' nofun
    · rw [Function.update_of_ne hne] at hh'
      exact hne ((hs.entries h' p hh').cid.symm.trans hok.cid)
  refine hs.touches (p := p)
    ⟨hj, set_calls_self, fun i hij => set_calls_of_ne hij, Nat.le_refl _, fun q hq => Or.inr hq,
      fun _ => rfl, fun q _ => rfl, fun h' q hq => ?_,
      fun i _ hi => Option.some.inj (hi.symm.trans hok.claimed), fun g hg => ?_⟩ ?_
    (not_waitsFor rfl hwaits) ?_ ?_
  · change Function.update s.ongoingRequests h none h' = some q ↔ _
    by_cases hne : h' = h
    · subst hne
      rw [Function.update_self, hentry]
      exact iff_of_false nofun fun heq => hq (Option.some.inj heq).symm
    · rw [Function.update_of_ne hne]
  · rw [hgrip] at hg
    rw [← Option.some.inj hg]
  · intro g hg
    obtain rfl := Option.some.inj (hat.symm.trans hg)
    exact ⟨hok.made, hok.cid, hok.claimed, hok.unclosed, iff_of_false nofun (hgone h), nofun⟩
  · exact fun h' hh' => absurd hh' (hgone h')
  · have hkept := hs.promises p hok.made
    exact ⟨hkept.closes, hkept.set, fun _ => Or.inr ⟨j, _, set_calls_self, _, hat, rfl⟩⟩

/-- A write of the owner to a promise that is out of the map. -/
theorem Inv.ownWrite (hs : Inv s) (hj : s.calls j = some c) (hgrip : c.at_.grip = some g)
    (hphase : g.phase ≠ .listed) {f : Promise → Promise} {at_ : FetchAt}
    (hcid : ∀ q, (f q).cid = q.cid)
    (hat : ∀ g', at_.grip = some g' → GripOk ((s.write g.promise f).goto j c at_) j g')
    (hwaits : ∀ stage i h p, at_ ≠ .waiting stage i h p)
    (hok : PromiseOk ((s.write g.promise f).goto j c at_) g.promise) :
    Inv ((s.write g.promise f).goto j c at_) := by
  have hg := (hs.calls j c hj).grip g hgrip
  refine hs.touches (touches_write hj hcid (fun i hi => ?_) fun g' hg' => ?_) hat
    (not_waitsFor rfl hwaits) ?_ hok
  · exact Option.some.inj (hi.symm.trans hg.claimed)
  · rw [Option.some.inj (hgrip.symm.trans hg')]
  · intro h hh
    have hhash : h = g.hash := (hs.entries h _ hh).cid.symm.trans hg.cid
    rw [hhash] at hh
    exact absurd (hg.listed.mpr hh) hphase

/-- **The owner of a promise sets its result.** -/
theorem Inv.setResult (hs : Inv s) (hj : s.calls j = some c)
    (hgrip : c.at_.grip = some ⟨h, p, .unlisted⟩) {f : Promise → Promise} {at_ : FetchAt}
    (hf : ∀ q, (f q).cid = q.cid ∧ (f q).claimed = q.claimed ∧ (f q).closes = q.closes ∧
      ((f q).res ≠ none ∨ (f q).err = true))
    (hat : at_.grip = some ⟨h, p, .ready⟩)
    (hwaits : ∀ stage i h p, at_ ≠ .waiting stage i h p) :
    Inv ((s.write p f).goto j c at_) := by
  have hok := (hs.calls j c hj).grip _ hgrip
  obtain ⟨hcid, hclaimed, hcloses, hset⟩ := hf (s.promises p)
  have hout : s.ongoingRequests h ≠ some p := fun hh => nomatch hok.listed.mpr hh
  refine hs.ownWrite hj hgrip nofun (fun q => (hf q).1) (fun g hg => ?_) hwaits ⟨?_, ?_, ?_⟩
  · obtain rfl := Option.some.inj (hat.symm.trans hg)
    exact ⟨hok.made, by simp [hcid, hok.cid], by simp [hclaimed, hok.claimed],
      by simp [hcloses, hok.unclosed], iff_of_false nofun hout, fun _ => by simpa using hset⟩
  · simp [hcloses, hok.unclosed]
  · simp [hcloses, hok.unclosed]
  · exact fun _ => Or.inr ⟨j, _, set_calls_self, _, hat, rfl⟩

/-- **The owner of a promise closes it.** -/
theorem Inv.close (hs : Inv s) (hj : s.calls j = some c)
    (hgrip : c.at_.grip = some ⟨h, p, .ready⟩) {at_ : FetchAt} (hat : at_.grip = none)
    (hwaits : ∀ stage i h p, at_ ≠ .waiting stage i h p) :
    Inv ((s.write p fun q => { q with closes := q.closes + 1 }).goto j c at_) := by
  have hok := (hs.calls j c hj).grip _ hgrip
  refine hs.ownWrite hj hgrip nofun (fun _ => rfl) (fun g hg => ?_) hwaits ⟨?_, ?_, ?_⟩
  · exact absurd (hat.symm.trans hg) nofun
  · simp [hok.unclosed]
  · exact fun _ => by simpa using hok.ready rfl
  · intro hopen
    simp at hopen

/-- **What a step of the call `j` does** to the promises and the map. -/
inductive Change (s : Fetches) (j : ℕ) (c : FetchCall) : Fetches → Prop where
  | quiet (s' : Fetches) (c' : FetchCall) (calls : s'.calls = Function.update s.calls j (some c'))
      (promises : s'.promises = s.promises) (made : s'.made = s.made)
      (ongoing : s'.ongoingRequests = s.ongoingRequests) (grip : c'.at_.grip = c.at_.grip)
      (waits : ∀ h p, c'.WaitsFor h p → s.ongoingRequests h = some p) : Change s j c s'
  | create (stage : Stage) (i : ℕ) (h : Multihash) (grip : c.at_.grip = none)
      (free : s.ongoingRequests h = none) :
      Change s j c ((s.newPromise j h).goto j c (stage.fetch i h s.made))
  | claim (stage : Stage) (i : ℕ) (h : Multihash) (p : ℕ) (grip : c.at_.grip = none)
      (entry : s.ongoingRequests h = some p) (free : (s.promises p).claimed = none) :
      Change s j c
        ((s.write p fun q => { q with claimed := some j }).goto j c (stage.fetch i h p))
  | release (h : Multihash) (p : ℕ) (at_ : FetchAt) (grip : c.at_.grip = some ⟨h, p, .listed⟩)
      (after : at_.grip = none) (waits : ∀ stage i h p, at_ ≠ .waiting stage i h p) :
      Change s j c ((s.write p fun q => { q with claimed := none }).goto j c at_)
  | remove (h : Multihash) (p : ℕ) (at_ : FetchAt) (grip : c.at_.grip = some ⟨h, p, .listed⟩)
      (after : at_.grip = some ⟨h, p, .unlisted⟩)
      (waits : ∀ stage i h p, at_ ≠ .waiting stage i h p) :
      Change s j c ((s.remove h).goto j c at_)
  | setResult (h : Multihash) (p : ℕ) (f : Promise → Promise) (at_ : FetchAt)
      (grip : c.at_.grip = some ⟨h, p, .unlisted⟩)
      (sets : ∀ q, (f q).cid = q.cid ∧ (f q).claimed = q.claimed ∧ (f q).closes = q.closes ∧
        ((f q).res ≠ none ∨ (f q).err = true))
      (result : ∀ q b, (f q).res = some b → q.res = some b ∨ c.at_.block = some (h, b))
      (after : at_.grip = some ⟨h, p, .ready⟩)
      (waits : ∀ stage i h p, at_ ≠ .waiting stage i h p) :
      Change s j c ((s.write p f).goto j c at_)
  | close (h : Multihash) (p : ℕ) (at_ : FetchAt) (grip : c.at_.grip = some ⟨h, p, .ready⟩)
      (after : at_.grip = none) (waits : ∀ stage i h p, at_ ≠ .waiting stage i h p) :
      Change s j c ((s.write p fun q => { q with closes := q.closes + 1 }).goto j c at_)

/-- **Whatever a step does keeps the invariant.** -/
theorem Inv.change (hs : Inv s) (hj : s.calls j = some c) (h : Change s j c s') : Inv s' := by
  cases h with
  | quiet _ c' calls promises made ongoing grip waits =>
    refine hs.quiet hj ?_ (fun i hij => ?_) promises made ongoing grip fun h p hw => ?_
    · exact calls ▸ Function.update_self ..
    · exact calls ▸ Function.update_of_ne hij ..
    · have he := hs.entries h p (waits h p hw)
      exact ⟨he.made, he.cid⟩
  | create stage i h grip free => exact hs.newPromise hj grip free stage
  | claim stage i h p grip entry free => exact hs.claim hj grip entry free stage
  | release h p at_ grip after waits => exact hs.release hj grip after waits
  | remove h p at_ grip after waits => exact hs.remove hj grip after waits
  | setResult h p f at_ grip sets result after waits => exact hs.setResult hj grip sets after waits
  | close h p at_ grip after waits => exact hs.close hj grip after waits

/-- A step that moves the call alone, to a place where it has nothing in its
hands, from one where it had nothing. -/
theorem Change.set (hgrip : c.at_.grip = none) (hgrip' : c'.at_.grip = none)
    (hwaits : ∀ h p, c'.WaitsFor h p → s.ongoingRequests h = some p) :
    Change s j c (s.set j c') :=
  .quiet _ c' rfl rfl rfl rfl (hgrip'.trans hgrip.symm) hwaits

theorem not_waits {at_ : FetchAt} (hc : c.at_ = at_)
    (hat : ∀ stage i h p, at_ ≠ .waiting stage i h p) {P : Multihash → ℕ → Prop} (h : Multihash) (q : ℕ)
    (hw : c.WaitsFor h q) : P h q := absurd hw (not_waitsFor hc hat h q)

/-- The call goes on with empty hands. -/
theorem Change.goto {at_ : FetchAt} (hgrip : c.at_.grip = none) (hat : at_.grip = none)
    (hwaits : ∀ stage i h p, at_ ≠ .waiting stage i h p) : Change s j c (s.goto j c at_) :=
  .set hgrip hat (not_waits rfl hwaits)

/-- The call goes on with what it has in its hands. -/
theorem Change.keep {at_ : FetchAt} (hat : at_.grip = c.at_.grip)
    (hwaits : ∀ stage i h p, at_ ≠ .waiting stage i h p) : Change s j c (s.goto j c at_) :=
  .quiet _ _ rfl rfl rfl rfl hat (not_waits rfl hwaits)

/-- It calls `cb` before that. -/
theorem Change.deliver {d : FetchCall} {b : Bytes} {at_ : FetchAt} (hgrip : c.at_.grip = none)
    (hat : at_.grip = none) (hwaits : ∀ stage i h p, at_ ≠ .waiting stage i h p) :
    Change s j c (s.deliver j d i b at_) :=
  .set hgrip hat (not_waits rfl hwaits)

theorem onward_ne_waiting (stage st : Stage) (i k : ℕ) (h : Multihash) (p : ℕ) :
    stage.onward i ≠ .waiting st k h p := by
  cases stage <;> nofun

theorem fail_ne_waiting (stage st : Stage) (i k : ℕ) (h : Multihash) (p : ℕ) :
    stage.fail i ≠ .waiting st k h p := by
  cases stage with
  | http => nofun
  | lassie attempt =>
    simp only [Stage.fail]
    split <;> nofun

theorem afterHttp_grip : c.afterHttp.grip = none := by
  unfold FetchCall.afterHttp
  split <;> rfl

theorem afterHttp_ne_waiting (st : Stage) (k : ℕ) (h : Multihash) (p : ℕ) :
    c.afterHttp ≠ .waiting st k h p := by
  unfold FetchCall.afterHttp
  split <;> nofun

/-- The next thing that an owner does with its promise. -/
theorem resolve_change {block : Option Bytes} {r : Resolve} {at_ : FetchAt}
    (hgrip : c.at_.grip = r.phase.map fun phase => ⟨h, p, phase⟩)
    (hat : at_.grip = r.succ.phase.map fun phase => ⟨h, p, phase⟩)
    (hblock : c.at_.block = block.map fun b => (h, b))
    (hwaits : ∀ stage i h p, at_ ≠ .waiting stage i h p) (hr : r ≠ .closed) :
    Change s j c ((s.resolve h p block r).goto j c at_) := by
  cases r with
  | removing => exact .remove h p at_ hgrip hat hwaits
  | caching =>
    cases block <;>
      exact .quiet _ { c with at_ := at_ } rfl rfl rfl rfl (hat.trans hgrip.symm)
        (not_waits rfl hwaits)
  | setting =>
    cases block with
    | none =>
      exact .setResult h p _ at_ hgrip (fun q => ⟨rfl, rfl, rfl, Or.inr rfl⟩)
        (fun _ _ hq => Or.inl hq) hat hwaits
    | some b =>
      exact .setResult h p _ at_ hgrip (fun q => ⟨rfl, rfl, rfl, Or.inl nofun⟩)
        (fun _ _ hq => Or.inr (Option.some.inj hq ▸ hblock)) hat hwaits
  | closing => exact .close h p at_ hgrip hat hwaits
  | closed => exact absurd rfl hr

theorem resolving_block {attempt i : ℕ} {block : Option Bytes} {r : Resolve} :
    (FetchAt.resolving attempt i h p block r).block = block.map fun b => (h, b) := by
  cases block <;> rfl

/-- **What a step does to the promises.** -/
theorem Moves.change (hm : Moves hashes e s j c s') : Change s j c s' := by
  have hgrip : ∀ {at_ : FetchAt}, c.at_ = at_ → c.at_.grip = at_.grip := fun h => by rw [h]
  cases hm with
  | hit i h b place left cached => exact .deliver (hgrip place) rfl nofun
  | miss i place => exact .goto (hgrip place) rfl nofun
  | looked i place outside =>
    split
    · exact .goto (hgrip place) rfl nofun
    · exact .goto (hgrip place) rfl nofun
  | noCandidates place => exact .goto (hgrip place) rfl nofun
  | http place => exact .goto (hgrip place) rfl nofun
  | noHttp place => exact .goto (hgrip place) afterHttp_grip afterHttp_ne_waiting
  | endHttp i place outside => exact .goto (hgrip place) afterHttp_grip afterHttp_ne_waiting
  | endLassie attempt i place outside => exact .goto (hgrip place) rfl nofun
  | skip stage i place found =>
    exact .goto (hgrip place) (onward_grip stage) (onward_ne_waiting stage · i)
  | create stage i h place left free => exact .create stage i h (hgrip place) free
  | claim stage i h p place left entry free =>
    exact .claim stage i h p (hgrip place) entry free
  | wait stage i h p place left entry taken =>
    refine .set (hgrip place) rfl ?_
    rintro h' p' ⟨st, k, hw⟩
    obtain ⟨-, -, rfl, rfl⟩ := FetchAt.waiting.inj hw
    exact entry
  | fail stage i h p place =>
    exact .goto (hgrip place) (fail_grip stage) (fail_ne_waiting stage · i)
  | given stage i h p place closed fine =>
    exact .deliver (hgrip place) (onward_grip stage) (onward_ne_waiting stage · i)
  | success i h p b place hash => exact .keep (hgrip place).symm nofun
  | release i h p place => exact .release h p _ (hgrip place) rfl nofun
  | resolveHttp i h p b r place left =>
    exact resolve_change (hgrip place) rfl (by rw [place]; rfl) nofun left
  | gotHttp i h p b place => exact .deliver (hgrip place) rfl nofun
  | fetched attempt i h p block place event => exact .keep (hgrip place).symm nofun
  | resolveLassie attempt i h p block r place left =>
    exact resolve_change (hgrip place) rfl (by rw [place, resolving_block]) nofun left
  | failLassie attempt i h p place =>
    exact .goto (hgrip place) (fail_grip _) (fail_ne_waiting _ · i)
  | gotLassie attempt i h p b place => exact .deliver (hgrip place) rfl nofun

theorem start_inv : Inv start where
  calls _ _ hj := nomatch hj
  entries _ _ hp := nomatch hp
  promises _ hp := absurd hp (Nat.not_lt_zero _)

/-- A new call has nothing yet. -/
theorem Inv.call (hs : Inv s) (hfresh : s.calls j = none) (hgrip : c.at_.grip = none)
    (hwaits : ∀ h p, ¬ c.WaitsFor h p) : Inv (s.set j c) := by
  have hkept : ∀ (P : FetchCall → Prop) i d, s.calls i = some d → P d →
      ∃ d', (s.set j c).calls i = some d' ∧ P d' := by
    intro P i d hi hd
    have hij : i ≠ j := by
      rintro rfl
      exact absurd (hfresh.symm.trans hi) nofun
    exact ⟨d, (set_calls_of_ne hij).trans hi, hd⟩
  refine hs.moves ⟨fun i hij => set_calls_of_ne hij, Nat.le_refl _, fun _ _ => rfl,
    fun _ _ _ _ _ => rfl, fun _ _ _ _ _ _ => Iff.rfl⟩ set_calls_self
    ⟨fun g hg => absurd (hgrip.symm.trans hg) nofun, fun h p hw => absurd hw (hwaits h p)⟩ ?_ ?_
  · exact fun h p hp => (hs.entries h p hp).keep (Nat.le_refl _) rfl (hkept _)
  · exact fun p hp => (hs.promises p hp).keep rfl id (hkept _)

/-- The cache is not part of it. -/
theorem Inv.cache (hs : Inv s) (blockCache : Multihash → Option Bytes) :
    Inv { s with blockCache := blockCache } where
  calls j c hj := by
    have hc := hs.calls j c hj
    refine ⟨fun g hg => ?_, hc.waits⟩
    have hok := hc.grip g hg
    exact ⟨hok.made, hok.cid, hok.claimed, hok.unclosed, hok.listed, hok.ready⟩
  entries h p hp := by
    have he := hs.entries h p hp
    exact ⟨he.made, he.cid, he.unclosed, he.claimed⟩
  promises p hp := by
    have ho := hs.promises p hp
    exact ⟨ho.closes, ho.set, ho.open_⟩

/-- **Every event keeps the invariant.** -/
theorem Inv.effect (hs : Inv s) (he : Effect hashes s e s') : Inv s' := by
  cases he with
  | none => exact hs
  | call j mh caller fresh =>
    have hlooking : ∀ stage i h p, FetchAt.looking 0 ≠ .waiting stage i h p := nofun
    exact hs.call fresh rfl (not_waitsFor rfl hlooking)
  | evict hash => exact hs.cache _
  | moves j c _ caller call moves => exact hs.change call moves.change

/-! ## What a waiter reads -/

variable {x : Multihash × Bytes}

/-- Every block in a promise or in the hands of a call has the hash it was
asked for. -/
structure Verified (hashes : Multihash → Bytes → Bool) (s : Fetches) : Prop where
  promises : ∀ p b, (s.promises p).res = some b → hashes (s.promises p).cid b = true
  held : ∀ j c x, s.calls j = some c → c.at_.block = some x → hashes x.1 x.2 = true

/-- A block in a promise was there, or its owner has put it there. -/
theorem Change.result (hs : Inv s) (hj : s.calls j = some c) (hc : Change s j c s') {b : Bytes}
    (hb : (s'.promises p).res = some b) :
    (s'.promises p).cid = (s.promises p).cid ∧ (s.promises p).res = some b ∨
      c.at_.block = some ((s'.promises p).cid, b) := by
  have hwrite : ∀ {q f at_}, (f (s.promises q)).cid = (s.promises q).cid →
      (∀ b, (f (s.promises q)).res = some b → (s.promises q).res = some b ∨
        c.at_.block = some ((s.promises q).cid, b)) →
      (((s.write q f).goto j c at_).promises p).res = some b →
      (((s.write q f).goto j c at_).promises p).cid = (s.promises p).cid ∧
        (s.promises p).res = some b ∨
        c.at_.block = some ((((s.write q f).goto j c at_).promises p).cid, b) := by
    intro q f at_ hcid hres hb
    by_cases hpq : p = q
    · subst hpq
      rw [write_goto_promise] at hb ⊢
      rw [hcid]
      exact (hres b hb).imp (fun h => ⟨rfl, h⟩) id
    · refine Or.inl ?_
      change (Function.update s.promises q _ p).res = some b at hb
      change (Function.update s.promises q _ p).cid = _ ∧ _
      rw [Function.update_of_ne hpq] at hb ⊢
      exact ⟨rfl, hb⟩
  cases hc with
  | quiet _ c' calls promises made ongoing grip waits =>
    rw [promises] at hb ⊢
    exact Or.inl ⟨rfl, hb⟩
  | create stage i h grip free =>
    change (Function.update s.promises s.made _ p).res = some b at hb
    change (Function.update s.promises s.made _ p).cid = _ ∧ _ ∨ _
    by_cases hp : p = s.made
    · subst hp
      simp at hb
    · rw [Function.update_of_ne hp] at hb ⊢
      exact Or.inl ⟨rfl, hb⟩
  | claim stage i h q grip entry free => exact hwrite rfl (fun _ h => Or.inl h) hb
  | release h q at_ grip after waits => exact hwrite rfl (fun _ h => Or.inl h) hb
  | remove h q at_ grip after waits => exact Or.inl ⟨rfl, hb⟩
  | setResult h q f at_ grip sets result after waits =>
    have hcid : (s.promises q).cid = h := ((hs.calls j c hj).grip _ grip).cid
    exact hwrite (sets _).1 (fun b hb => hcid ▸ result _ b hb) hb
  | close h q at_ grip after waits => exact hwrite rfl (fun _ h => Or.inl h) hb

@[simp] theorem fetch_block (stage : Stage) : (stage.fetch i h p).block = none := by
  cases stage <;> rfl

@[simp] theorem onward_block (stage : Stage) : (stage.onward i).block = none := by
  cases stage <;> rfl

@[simp] theorem fail_block (stage : Stage) : (stage.fail i).block = none := by
  cases stage with
  | http => rfl
  | lassie attempt =>
    simp only [Stage.fail]
    split <;> rfl

@[simp] theorem afterHttp_block : c.afterHttp.block = none := by
  unfold FetchCall.afterHttp
  split <;> rfl

/-- Lassie puts a block into the store only if it has the hash asked for. -/
def LassieVerifies (hashes : Multihash → Bytes → Bool) (s : Fetches) : FetchEvent → Prop
  | .lassie j (some b) => ∀ c attempt i h p, s.calls j = some c →
    c.at_ = .fetching attempt i h p → hashes h b = true
  | _ => True

/-- **What a call has in its hands** it had there, or it has the right hash. -/
theorem Moves.block (hm : Moves hashes e s j c s') (hj : s.calls j = some c)
    (he : LassieVerifies hashes s e) (hj' : s'.calls j = some c')
    (hx : c'.at_.block = some x) : c.at_.block = some x ∨ hashes x.1 x.2 = true := by
  have hat : ∀ {d : FetchCall}, s'.calls j = some d → d.at_.block = some x := fun hd =>
    of_calls (P := fun c => c.at_.block = some x) hd hj' hx
  cases hm with
  | success i h p b place hash =>
    have hb := hat set_calls_self
    rw [← Option.some.inj hb]
    exact Or.inr hash
  | fetched attempt i h p block place event =>
    have hb := hat set_calls_self
    rw [resolving_block] at hb
    obtain ⟨b, rfl, rfl⟩ := Option.map_eq_some_iff.mp hb
    subst event
    exact Or.inr (he c attempt i h p hj place)
  | resolveHttp i h p b r place left =>
    rw [place]
    exact Or.inl (hat set_calls_self)
  | resolveLassie attempt i h p block r place left =>
    rw [place, resolving_block, ← resolving_block]
    exact Or.inl (hat set_calls_self)
  | looked i place outside =>
    have hb := hat set_calls_self
    split at hb <;> exact absurd hb nofun
  | noHttp place => exact absurd (afterHttp_block.symm.trans (hat set_calls_self)) nofun
  | endHttp i place outside =>
    exact absurd (afterHttp_block.symm.trans (hat set_calls_self)) nofun
  | skip stage i place found =>
    exact absurd ((onward_block stage).symm.trans (hat set_calls_self)) nofun
  | create stage i h place left free =>
    exact absurd ((fetch_block stage).symm.trans (hat set_calls_self)) nofun
  | claim stage i h p place left entry free =>
    exact absurd ((fetch_block stage).symm.trans (hat set_calls_self)) nofun
  | fail stage i h p place =>
    exact absurd ((fail_block stage).symm.trans (hat set_calls_self)) nofun
  | given stage i h p place closed fine =>
    exact absurd ((onward_block stage).symm.trans (hat set_calls_self)) nofun
  | failLassie attempt i h p place =>
    exact absurd ((fail_block (.lassie attempt)).symm.trans (hat set_calls_self)) nofun
  | _ => exact absurd (hat set_calls_self) nofun

theorem Change.calls_of_ne (hc : Change s j c s') (hij : i ≠ j) : s'.calls i = s.calls i := by
  cases hc with
  | quiet _ c' calls promises made ongoing grip waits =>
    rw [calls]
    exact Function.update_of_ne hij ..
  | _ => exact set_calls_of_ne hij

/-- The call is still there. -/
theorem Moves.stays (hm : Moves hashes e s j c s') : ∃ c', s'.calls j = some c' := by
  cases hm <;> exact ⟨_, set_calls_self⟩

/-- The calls that an event is not of stay where they are. -/
theorem Effect.calls_of_ne (he : Effect hashes s e s') (hij : e.caller ≠ some i) :
    s'.calls i = s.calls i := by
  cases he with
  | none => rfl
  | call j mh caller fresh => exact set_calls_of_ne fun hi => hij (hi ▸ caller)
  | evict hash => rfl
  | moves j d _ caller call moves => exact moves.change.calls_of_ne fun hi => hij (hi ▸ caller)

theorem start_verified : Verified hashes start where
  promises _ _ hb := nomatch hb
  held _ _ _ hj := nomatch hj

/-- **Every event keeps the blocks right**, if lassie does. -/
theorem Verified.effect (hv : Verified hashes s) (hs : Inv s) (hl : LassieVerifies hashes s e)
    (he : Effect hashes s e s') : Verified hashes s' := by
  cases he with
  | none => exact hv
  | evict hash => exact ⟨hv.promises, hv.held⟩
  | call j mh caller fresh =>
    refine ⟨hv.promises, fun i c x hi hx => ?_⟩
    by_cases hij : i = j
    · subst hij
      obtain rfl := Option.some.inj (set_calls_self.symm.trans hi)
      exact absurd hx nofun
    · rw [set_calls_of_ne hij] at hi
      exact hv.held i c x hi hx
  | moves j c _ caller call moves =>
    refine ⟨fun p b hb => ?_, fun i d x hi hx => ?_⟩
    · rcases moves.change.result hs call hb with ⟨hcid, hres⟩ | hblock
      · rw [hcid]
        exact hv.promises p b hres
      · exact hv.held j c _ call hblock
    · by_cases hij : i = j
      · subst hij
        exact (moves.block call hl hi hx).elim (hv.held i c x call) id
      · rw [moves.change.calls_of_ne hij] at hi
        exact hv.held i d x hi hx

/-! ## Single flight -/

/-- The call `j` has claimed the promise `p`, and no other call has. -/
def OnlyClaimant (s : Fetches) (j p : ℕ) : Prop :=
  (∃ c, s.calls j = some c ∧ c.Claims p) ∧ ∀ i c, s.calls i = some c → c.Claims p → i = j

/-- **What is promised of a step.** -/
structure SingleFlight (hashes : Multihash → Bytes → Bool) (s : Fetches) (e : FetchEvent)
    (s' : Fetches) : Prop where
  once : ∀ p, p < s'.made → (s'.promises p).closes ≤ 1
  /-- A promise is closed by its only claimant, with its result set, and out of
  the map. -/
  closed : ∀ p, p < s.made → (s'.promises p).closes ≠ (s.promises p).closes →
    (∃ j, e.caller = some j ∧ OnlyClaimant s j p) ∧
      ((s.promises p).res ≠ none ∨ (s.promises p).err = true) ∧
      ∀ h, s.ongoingRequests h ≠ some p
  /-- An entry is removed by the only claimant of what it names. -/
  removed : ∀ h p, s.ongoingRequests h = some p → s'.ongoingRequests h ≠ some p →
    ∃ j, e.caller = some j ∧ OnlyClaimant s j p
  /-- What a waiter gives to `cb` has the hash it asked for. -/
  read : ∀ j c c' h p, s.calls j = some c → c.WaitsFor h p → s'.calls j = some c' →
    ∀ x ∈ c'.delivered, x ∈ c.delivered ∨ hashes h x.2 = true

theorem Inv.onlyClaimant (hs : Inv s) (hj : s.calls j = some c) (hc : c.Claims p) :
    OnlyClaimant s j p :=
  ⟨⟨c, hj, hc⟩, fun _ _ hi hd => hs.claims_unique hi hj hd hc⟩

/-- What is closed was ready, in the hands of the call. -/
theorem Change.closes (hc : Change s j c s') (hp : p < s.made)
    (hne : (s'.promises p).closes ≠ (s.promises p).closes) :
    ∃ h, c.at_.grip = some ⟨h, p, .ready⟩ := by
  have hwrite : ∀ {q f at_}, (f (s.promises q)).closes = (s.promises q).closes →
      (((s.write q f).goto j c at_).promises p).closes = (s.promises p).closes := by
    intro q f at_ hf
    by_cases hpq : p = q
    · subst hpq
      rw [write_goto_promise, hf]
    · change (Function.update s.promises q _ p).closes = _
      rw [Function.update_of_ne hpq]
  cases hc with
  | quiet _ c' calls promises made ongoing grip waits => exact absurd (by rw [promises]) hne
  | create stage i h grip free =>
    refine absurd ?_ hne
    change (Function.update s.promises s.made _ p).closes = _
    rw [Function.update_of_ne (Nat.ne_of_lt hp)]
  | claim stage i h q grip entry free => exact absurd (hwrite rfl) hne
  | release h q at_ grip after waits => exact absurd (hwrite rfl) hne
  | remove h q at_ grip after waits => exact absurd rfl hne
  | setResult h q f at_ grip sets result after waits =>
    exact absurd (hwrite (sets _).2.2.1) hne
  | close h q at_ grip after waits =>
    by_cases hpq : p = q
    · subst hpq
      exact ⟨h, grip⟩
    · refine absurd ?_ hne
      change (Function.update s.promises q _ p).closes = _
      rw [Function.update_of_ne hpq]

/-- What is removed was in the hands of the call. -/
theorem Change.removes (hs : Inv s) (hj : s.calls j = some c) (hc : Change s j c s')
    (hp : s.ongoingRequests h = some p) (hne : s'.ongoingRequests h ≠ some p) :
    c.at_.grip = some ⟨h, p, .listed⟩ := by
  cases hc with
  | quiet _ c' calls promises made ongoing grip waits =>
    rw [ongoing] at hne
    exact absurd hp hne
  | create stage i h' grip free =>
    have hhh : h ≠ h' := by
      rintro rfl
      exact absurd (free.symm.trans hp) nofun
    refine absurd ?_ hne
    change Function.update s.ongoingRequests h' _ h = some p
    rw [Function.update_of_ne hhh, hp]
  | claim stage i h' q grip entry free => exact absurd hp hne
  | release h' q at_ grip after waits => exact absurd hp hne
  | remove h' q at_ grip after waits =>
    by_cases hhh : h = h'
    · subst hhh
      have hq : s.ongoingRequests h = some q := ((hs.calls j c hj).grip _ grip).listed.mp rfl
      obtain rfl := Option.some.inj (hq.symm.trans hp)
      exact grip
    · refine absurd ?_ hne
      change Function.update s.ongoingRequests h' _ h = some p
      rw [Function.update_of_ne hhh, hp]
  | setResult h' q f at_ grip sets result after waits => exact absurd hp hne
  | close h' q at_ grip after waits => exact absurd hp hne

/-- What a call that waits gives to `cb`. -/
theorem waiter_reads (hs : Inv s) (hv : Verified hashes s) (hj : s.calls j = some c)
    (hw : c.WaitsFor h p) (hm : Moves hashes e s j c s') (hj' : s'.calls j = some c')
    {x : ℕ × Bytes} (hx : x ∈ c'.delivered) : x ∈ c.delivered ∨ hashes h x.2 = true := by
  obtain ⟨hmade, hcid⟩ := (hs.calls j c hj).waits h p hw
  obtain ⟨stage, i, hat⟩ := hw
  cases hm with
  | fail stage' i' h' p' place =>
    obtain rfl := Option.some.inj (set_calls_self.symm.trans hj')
    exact Or.inl hx
  | given stage' i' h' p' place closed fine =>
    obtain ⟨-, -, rfl, rfl⟩ := FetchAt.waiting.inj (hat.symm.trans place)
    obtain rfl := Option.some.inj (set_calls_self.symm.trans hj')
    rcases List.mem_append.mp hx with hx | hx
    · exact Or.inl hx
    · have hok := hs.promises p hmade
      have hone : (s.promises p).closes = 1 := by
        have := hok.closes
        omega
      obtain ⟨b, hb⟩ := Option.ne_none_iff_exists'.mp ((hok.set hone).resolve_right fine)
      rw [List.mem_singleton.mp hx, hb, ← hcid]
      exact Or.inr (hv.promises p b hb)
  | _ => simp_all

/-- **A step of the invariant is single-flight.** -/
theorem Inv.singleFlight (hs : Inv s) (hv : Verified hashes s) (he : Effect hashes s e s') :
    SingleFlight hashes s e s' where
  once p hp := ((hs.effect he).promises p hp).closes
  closed p hp hne := by
    cases he with
    | moves j c _ caller call moves =>
      obtain ⟨h, hgrip⟩ := moves.change.closes hp hne
      have hok := (hs.calls j c call).grip _ hgrip
      refine ⟨⟨j, caller, hs.onlyClaimant call ⟨_, hgrip, rfl⟩⟩, hok.ready rfl, fun h' hh' => ?_⟩
      obtain rfl : h' = h := (hs.entries h' p hh').cid.symm.trans hok.cid
      exact absurd (hok.listed.mpr hh') nofun
    | _ => exact absurd rfl hne
  removed h p hp hne := by
    cases he with
    | moves j c _ caller call moves =>
      exact ⟨j, caller, hs.onlyClaimant call ⟨_, moves.change.removes hs call hp hne, rfl⟩⟩
    | _ => exact absurd hp hne
  read j c c' h p hj hw hj' x hx := by
    have hsame : s'.calls j = s.calls j → x ∈ c.delivered ∨ hashes h x.2 = true := by
      intro hsame
      rw [hsame] at hj'
      obtain rfl := Option.some.inj (hj.symm.trans hj')
      exact Or.inl hx
    cases he with
    | none => exact hsame rfl
    | evict hash => exact hsame rfl
    | call i mh caller fresh =>
      refine hsame (set_calls_of_ne ?_)
      rintro rfl
      exact absurd (fresh.symm.trans hj) nofun
    | moves i d _ caller call moves =>
      by_cases hij : j = i
      · subst hij
        obtain rfl := Option.some.inj (call.symm.trans hj)
        exact waiter_reads hs hv hj hw moves hj' hx
      · exact hsame (moves.change.calls_of_ne hij)

/-- The state behind the events, from where no call was made yet. -/
abbrev run (hashes : Multihash → Bytes → Bool) (es : List FetchEvent) : Fetches :=
  runEvents (next hashes) start es

theorem run_inv (es : List FetchEvent) : Inv (run hashes es) :=
  runEvents_stable (fun s e hs => hs.effect (next_effect hashes s e)) start_inv es

/-- **Retrieval promises are single-flight**, in every run, if lassie puts no
block with another hash into the store. -/
theorem fetchBlocks_singleFlight (es : List FetchEvent) (e : FetchEvent)
    (hlassie : Always (next hashes) (LassieVerifies hashes) start es) :
    SingleFlight hashes (run hashes es) e (next hashes (run hashes es) e) := by
  have hboth : Inv (run hashes es) ∧ Verified hashes (run hashes es) :=
    runEvents_invariant (I := fun s => Inv s ∧ Verified hashes s)
      (fun s e hs he => ⟨hs.1.effect (next_effect hashes s e),
        hs.2.effect hs.1 he (next_effect hashes s e)⟩)
      ⟨start_inv, start_verified⟩ hlassie
  exact hboth.1.singleFlight hboth.2 (next_effect hashes _ e)

/-- Two calls for one block: the second waits while lassie fetches it. -/
def twoForOne : List FetchEvent :=
  [.call 0 [[7]], .call 1 [[7]], .step 0, .step 0, .candidates 0 (some false), .step 0, .step 1,
    .step 1, .candidates 1 (some false), .step 1, .lassie 0 (some [7]), .step 0, .step 0, .step 0]

/-- Of a hash that is the block itself. -/
theorem fetchBlocks_singleFlight_twoForOne :
    SingleFlight (· == ·) (run (· == ·) twoForOne) (.step 0)
      (next (· == ·) (run (· == ·) twoForOne) (.step 0)) := by
  refine fetchBlocks_singleFlight twoForOne (.step 0) ?_
  simp only [twoForOne, Always, LassieVerifies, true_and, and_true]
  intro c attempt i h p hc hat
  have hfetching : ((run (· == ·) (twoForOne.take 10)).calls 0).map FetchCall.at_ =
      some (.fetching 0 0 [7] 0) := by decide +kernel
  change (run (· == ·) (twoForOne.take 10)).calls 0 = some c at hc
  rw [hc, Option.map_some, hat] at hfetching
  obtain ⟨-, -, rfl, -⟩ := FetchAt.fetching.inj (Option.some.inj hfetching)
  decide

end Fetches

end Rbdeal

end Ribs
