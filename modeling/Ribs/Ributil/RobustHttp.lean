import Ribs.Common.Uvarint
import Ribs.Ributil.RateCounters
/-!
# Ributil — downloads that resume

`RobustGet` reads a resource of known size over as many requests as it
takes, each for the range from the current offset on. A request holds a
rate counter: its closer gives it back, and so does a speed check that
fails. What the network does is chosen round by round of the loop of
`Read`: how a request is answered, and how a read of the body ends.
-/

namespace Ribs

open Common

namespace Ributil

inductive HttpErr where
  | eof
  /-- Of the body, or a read that is too slow. -/
  | read
  | text (s : String)
deriving DecidableEq

def maxRetryCount : ℕ := 15

/-! ## The reader -/

/-- What a request is answered with. -/
inductive Answer where
  /-- No response, or one of a status that is not accepted. -/
  | refused
  /-- `206`, and the range that was asked for. -/
  | range
  /-- `200`, and the whole resource. -/
  | whole
deriving DecidableEq

/-- How a read of a body ends. -/
inductive ReadEnd where
  | nil
  | eof
  | error
deriving DecidableEq

/-- What happens in one round of the loop of `Read`. -/
structure Round where
  /-- Of the request, if one is made. -/
  answer : Answer
  /-- The speed check fails, if one is made. -/
  slow : Bool
  /-- At most so many bytes are read. -/
  n : ℕ
  ends : ReadEnd

/-- `RateEnforcingReader`, over the body of a response. -/
structure RateEnforcingReader (K : Type) where
  body : Bytes
  rc : RateCounter K
  /-- `lastSpeedCheck` is set. -/
  checked : Bool

/-- `robustHttpResponse`; the closer has its own counter. -/
structure RobustHttpResponse (K : Type) where
  cur : Option (RateEnforcingReader K)
  curCloser : Option (RateCounter K)
  atOff : ℕ

/-- A `Read` under way: `len(p)`, and the round of its loop. -/
structure ReadCall where
  len : ℕ
  i : ℕ

/-- **A download**: the response, the rate counters, and what `Read` has
returned so far. -/
structure Download (K : Type) where
  r : RobustHttpResponse K
  counters : RateCounters K
  call : Option ReadCall
  results : List (Bytes × Option HttpErr)
  /-- The calls of `RateCounters.Get`. -/
  got : ℕ
  /-- The releases. -/
  released : ℕ

namespace Download

variable {K : Type} [DecidableEq K]

/-- `RobustGet`. -/
def start (counters : RateCounters K) : Download K := ⟨⟨none, none, 0⟩, counters, none, [], 0, 0⟩

/-- A counter is released. -/
def release (rc : RateCounter K) (d : Download K) : Download K :=
  { d with counters := d.counters.release rc, released := d.released + 1 }

/-- `curCloser.Close()`. -/
def closeCloser (d : Download K) : Download K :=
  match d.r.curCloser with
  | none => d
  | some rc => d.release rc

/-- `Close`. -/
def close (d : Download K) : Download K := d.closeCloser

/-- `curCloser.Close()`, and `cur = nil`. -/
def endCur (d : Download K) : Download K :=
  { d.closeCloser with r := { d.closeCloser.r with cur := none } }

/-- A response: its body is read through a rate counter. -/
def opened (key : K) (body : Bytes) (d : Download K) : Download K :=
  let (rc, counters) := d.counters.get key
  { d with
    r := { d.r with cur := some ⟨body, rc, false⟩, curCloser := some rc }
    counters := counters
    got := d.got + 1 }

/-- `startReq`, for the bytes from `atOff` on; tells whether there is a
response. -/
def startReq (resource : Bytes) (key : K) (a : Answer) (d : Download K) : Bool × Download K :=
  match a with
  | .refused => (false, d)
  | .range => (true, d.opened key (resource.drop d.r.atOff))
  | .whole => (true, d.opened key resource)

/-- `cur.Read(p)`: the first one of a body is not checked for its speed. -/
def readCur (len : ℕ) (a : Round) (cur : RateEnforcingReader K) (d : Download K) :
    Bytes × ReadEnd × Download K :=
  -- a check that fails releases the counter, but the closer stays
  if cur.checked ∧ a.slow then ([], .error, d.release cur.rc)
  else
    let data := cur.body.take (min a.n len)
    (data, a.ends, { d with
      r := { d.r with cur := some { cur with body := cur.body.drop data.length, checked := true } }
      counters := d.counters.modify cur.rc.id fun c =>
        { c with transferred := c.transferred + data.length } })

/-- `Read` returns. -/
def ret (data : Bytes) (err : Option HttpErr) (d : Download K) : Download K :=
  { d with
    r := { d.r with atOff := d.r.atOff + data.length }
    call := none
    results := d.results ++ [(data, err)] }

/-- The next round of the loop, if there is one. -/
def again (c : ReadCall) (d : Download K) : Download K :=
  if c.i + 1 < maxRetryCount then { d with call := some { c with i := c.i + 1 } }
  else d.ret [] (some (.text "http read failed after retries"))

/-- What `Read` does with what it read. -/
def afterRead (c : ReadCall) (data : Bytes) (ends : ReadEnd) (d : Download K) : Download K :=
  match ends with
  | .eof => d.endCur.ret data (some .eof)
  -- bytes before an error are returned without it; the next `Read` asks again
  | .error => if 0 < data.length then d.endCur.ret data none else d.endCur.again c
  | .nil => if data.length = 0 then d.endCur.ret [] (some (.text "read 0 bytes")) else d.ret data none

/-- The part of a round behind the request. -/
def serve (c : ReadCall) (a : Round) (cur : RateEnforcingReader K) (d : Download K) : Download K :=
  let (data, ends, d) := d.readCur c.len a cur
  d.afterRead c data ends

/-- **A round of the loop of `Read`.** -/
def round (resource : Bytes) (key : K) (c : ReadCall) (a : Round) (d : Download K) : Download K :=
  let (started, d) := if d.r.cur.isNone then d.startReq resource key a.answer else (true, d)
  -- a request is made when no body is open
  if started then
    match d.r.cur with
    | none => d
    | some cur => d.serve c a cur
  else d.again c

/-- The user calls `Read`, or the `Read` under way does a round. -/
inductive Event where
  | read (len : ℕ)
  | round (a : Round)

def next (resource : Bytes) (key : K) (d : Download K) : Event → Download K
  | .read len =>
    match d.call with
    | none => { d with call := some ⟨len, 0⟩ }
    | some _ => d
  | .round a =>
    match d.call with
    | none => d
    | some c => d.round resource key c a

/-- What was returned. -/
def delivered (d : Download K) : Bytes := d.results.flatMap Prod.fst

/-! ## Seams -/

section

variable {resource : Bytes} {key : K} {d : Download K} {e : Event} {a : Round} {c : ReadCall}
  {data : Bytes} {err : Option HttpErr} {ends : ReadEnd}

/-- What was returned is the resource up to the offset, and the end was
told behind all of it. -/
structure Seam (resource : Bytes) (d : Download K) : Prop where
  delivered : d.delivered = resource.take d.r.atOff
  le : d.r.atOff ≤ resource.length
  eof : ∀ res ∈ d.results, res.2 = some .eof → d.r.atOff = resource.length

/-- The open body goes on at `off`. -/
def BodyAt (resource : Bytes) (off : ℕ) (d : Download K) : Prop :=
  ∀ cur, d.r.cur = some cur → cur.body = resource.drop off

@[simp] theorem closeCloser_r : d.closeCloser.r = d.r := by
  unfold closeCloser
  split <;> rfl

@[simp] theorem closeCloser_results : d.closeCloser.results = d.results := by
  unfold closeCloser
  split <;> rfl

omit [DecidableEq K] in
theorem Seam.of_eq {d' : Download K} (h : Seam resource d) (hoff : d'.r.atOff = d.r.atOff)
    (hres : d'.results = d.results) : Seam resource d' := by
  refine ⟨?_, hoff ▸ h.le, fun res hmem heof => hoff ▸ h.eof res (hres ▸ hmem) heof⟩
  unfold Download.delivered
  rw [hres, hoff]
  exact h.delivered

theorem Seam.endCur (h : Seam resource d) : Seam resource d.endCur :=
  h.of_eq (by simp [Download.endCur]) (by simp [Download.endCur])

theorem bodyAt_endCur {off : ℕ} : BodyAt resource off d.endCur :=
  fun _ h => absurd h (by simp [Download.endCur])

theorem bodyAt_endCur_ret {off : ℕ} : BodyAt resource off (d.endCur.ret data err) :=
  fun _ h => absurd h (by simp [Download.ret, Download.endCur])

omit [DecidableEq K] in
/-- **`Read` returns what comes next.** -/
theorem Seam.ret (h : Seam resource d) (hdata : data <+: resource.drop d.r.atOff)
    (heof : err = some .eof → resource.length ≤ d.r.atOff + data.length) :
    Seam resource (d.ret data err) := by
  have hle : d.r.atOff + data.length ≤ resource.length := by
    have := hdata.length_le
    have := h.le
    rw [List.length_drop] at *
    omega
  refine ⟨?_, hle, fun res hmem hres => ?_⟩
  · have hdelivered : (d.ret data err).delivered = d.delivered ++ data := by
      simp [Download.delivered, Download.ret]
    have htake : data = (resource.drop d.r.atOff).take data.length :=
      List.prefix_iff_eq_take.mp hdata
    change _ = resource.take (d.r.atOff + data.length)
    rw [hdelivered, h.delivered, List.take_add, ← htake]
  · rcases List.mem_append.mp hmem with hmem | hmem
    · have := h.eof res hmem hres
      change d.r.atOff + data.length = _
      omega
    · rw [List.mem_singleton] at hmem
      rw [hmem] at hres
      exact Nat.le_antisymm hle (heof hres)

omit [DecidableEq K] in
theorem Seam.again (h : Seam resource d) (hcur : BodyAt resource d.r.atOff d) :
    Seam resource (d.again c) ∧ BodyAt resource (d.again c).r.atOff (d.again c) := by
  unfold Download.again
  split_ifs
  · exact ⟨h.of_eq rfl rfl, hcur⟩
  · exact ⟨h.ret List.nil_prefix (by simp), hcur⟩

/-- A body was read from its right place. -/
theorem Seam.afterRead (h : Seam resource d) (hdata : data <+: resource.drop d.r.atOff)
    (hcur : BodyAt resource (d.r.atOff + data.length) d)
    (heof : ends = .eof → resource.length ≤ d.r.atOff + data.length) :
    Seam resource (d.afterRead c data ends) ∧
      BodyAt resource (d.afterRead c data ends).r.atOff (d.afterRead c data ends) := by
  have hoff : d.endCur.r.atOff = d.r.atOff := by simp [Download.endCur]
  have hend : ∀ data err, data <+: resource.drop d.r.atOff →
      (err = some .eof → resource.length ≤ d.r.atOff + data.length) →
      Seam resource (d.endCur.ret data err) ∧
        BodyAt resource (d.endCur.ret data err).r.atOff (d.endCur.ret data err) :=
    fun data err hdata heof => ⟨h.endCur.ret (hoff ▸ hdata) (hoff ▸ heof), bodyAt_endCur_ret⟩
  unfold Download.afterRead
  cases ends with
  | eof => exact hend data _ hdata fun _ => heof rfl
  | error =>
    dsimp only
    split_ifs
    · exact hend data none hdata (by simp)
    · exact h.endCur.again bodyAt_endCur
  | nil =>
    dsimp only
    split_ifs
    · exact hend [] _ List.nil_prefix (by simp)
    · exact ⟨h.ret hdata (by simp), hcur⟩

/-- The round reads a body. -/
def Reads (d : Download K) (a : Round) : Prop :=
  match d.r.cur with
  | none => a.answer ≠ .refused
  | some cur => ¬ (cur.checked ∧ a.slow)

/-- **The server keeps the range**: a request from behind the start is not
answered with the whole resource, and a body does not end before the
resource does. -/
def KeepsRange (resource : Bytes) (d : Download K) : Event → Prop
  | .read _ => True
  | .round a => ∀ c, d.call = some c →
    (d.r.cur = none → a.answer = .whole → d.r.atOff = 0) ∧
      (Reads d a → a.ends = .eof → resource.length ≤ d.r.atOff + min a.n c.len)

/-! ### What a round does -/

theorem round_of_some {cur : RateEnforcingReader K} (h : d.r.cur = some cur) :
    d.round resource key c a = d.serve c a cur := by
  simp [Download.round, h]

theorem round_of_refused (h : d.r.cur = none) (hans : a.answer = .refused) :
    d.round resource key c a = d.again c := by
  simp [Download.round, h, hans, Download.startReq]

theorem round_of_opened {cur : RateEnforcingReader K} (h : d.r.cur = none)
    (hok : (d.startReq resource key a.answer).1 = true)
    (hcur : (d.startReq resource key a.answer).2.r.cur = some cur) :
    d.round resource key c a = (d.startReq resource key a.answer).2.serve c a cur := by
  simp [Download.round, h, hok, hcur]

/-- A request is refused, or it opens a body. -/
theorem startReq_cases (resource : Bytes) (key : K) (d : Download K) (answer : Answer) :
    answer = .refused ∧ (d.startReq resource key answer).1 = false ∨
      answer ≠ .refused ∧ ∃ cur, (d.startReq resource key answer).1 = true ∧
        (d.startReq resource key answer).2.r.cur = some cur := by
  cases answer with
  | refused => exact Or.inl ⟨rfl, rfl⟩
  | range => exact Or.inr ⟨by simp, _, rfl, rfl⟩
  | whole => exact Or.inr ⟨by simp, _, rfl, rfl⟩

@[simp] theorem startReq_atOff {answer : Answer} :
    (d.startReq resource key answer).2.r.atOff = d.r.atOff := by
  cases answer <;> rfl

/-! ### The invariant -/

/-- A request that keeps the range, and that is answered. -/
theorem Seam.startReq (h : Seam resource d) (hwhole : a.answer = .whole → d.r.atOff = 0) :
    Seam resource (d.startReq resource key a.answer).2 ∧
      ((d.startReq resource key a.answer).1 = true →
        BodyAt resource (d.startReq resource key a.answer).2.r.atOff
          (d.startReq resource key a.answer).2) := by
  unfold Download.startReq
  split
  · exact ⟨h, by simp⟩
  · refine ⟨h.of_eq rfl rfl, fun _ cur hcur => ?_⟩
    rw [← Option.some.inj hcur]
    rfl
  · rename_i heq
    refine ⟨h.of_eq rfl rfl, fun _ cur hcur => ?_⟩
    rw [← Option.some.inj hcur]
    change resource = resource.drop d.r.atOff
    rw [hwhole heq, List.drop_zero]

/-- The read of a body at its right place. -/
theorem Seam.serve {cur : RateEnforcingReader K} (h : Seam resource d)
    (hcur : cur.body = resource.drop d.r.atOff) (hopen : d.r.cur = some cur)
    (heof : ¬ (cur.checked ∧ a.slow) → a.ends = .eof →
      resource.length ≤ d.r.atOff + min a.n c.len) :
    Seam resource (d.serve c a cur) ∧
      BodyAt resource (d.serve c a cur).r.atOff (d.serve c a cur) := by
  unfold Download.serve Download.readCur
  split_ifs with hslow
  · have hs : Seam resource (d.release cur.rc) := h.of_eq rfl rfl
    refine hs.afterRead List.nil_prefix (fun cur' hcur' => ?_) (by simp)
    rw [← Option.some.inj (hopen.symm.trans hcur'), hcur]
    rfl
  · refine Seam.afterRead (h.of_eq rfl rfl) ?_ (fun cur' hcur' => ?_) fun hends => ?_
    · rw [hcur]
      exact List.take_prefix _ _
    · rw [← Option.some.inj hcur', hcur]
      exact List.drop_drop
    · have := heof hslow hends
      change resource.length ≤ d.r.atOff + _
      rw [hcur, List.length_take, List.length_drop]
      omega

/-- **A round of `Read`**, when the server keeps the range. -/
theorem Seam.next (h : Seam resource d ∧ BodyAt resource d.r.atOff d)
    (hkeeps : KeepsRange resource d e) : Seam resource (d.next resource key e) ∧
      BodyAt resource (d.next resource key e).r.atOff (d.next resource key e) := by
  obtain ⟨hs, hcur⟩ := h
  cases e with
  | read len =>
    simp only [Download.next]
    split
    · exact ⟨hs.of_eq rfl rfl, hcur⟩
    · exact ⟨hs, hcur⟩
  | round a =>
    simp only [Download.next]
    split
    · exact ⟨hs, hcur⟩
    · rename_i c hcall
      obtain ⟨hwhole, heof⟩ := hkeeps c hcall
      cases hd : d.r.cur with
      | some cur =>
        rw [round_of_some hd]
        refine hs.serve (hcur cur hd) hd fun hslow => heof ?_
        unfold Reads
        rw [hd]
        exact hslow
      | none =>
        obtain ⟨hs', hcur'⟩ := hs.startReq (hwhole hd)
        rcases startReq_cases resource key d a.answer with ⟨hans, hfail⟩ | ⟨hans, cur, hok, hopen⟩
        · rw [round_of_refused hd hans]
          exact hs.again hcur
        · rw [round_of_opened hd hok hopen]
          have hreads : Reads d a := by
            unfold Reads
            rw [hd]
            exact hans
          refine hs'.serve (hcur' hok cur hopen) hopen fun _ => ?_
          rw [startReq_atOff]
          exact heof hreads

/-- **Downloads are seamless** in every run in which the server keeps the
range: what `Read` returned is a prefix of the resource, and all of it when
`Read` returned `io.EOF`. -/
theorem reads_seamless {counters : RateCounters K} {es : List Event}
    (hkeeps : Always (next resource key) (KeepsRange resource) (start counters) es) :
    (runEvents (next resource key) (start counters) es).delivered <+: resource ∧
      ∀ res ∈ (runEvents (next resource key) (start counters) es).results, res.2 = some .eof →
        (runEvents (next resource key) (start counters) es).delivered = resource := by
  have hstart : Seam resource (start counters) ∧
      BodyAt resource (start counters).r.atOff (start counters) :=
    ⟨⟨rfl, Nat.zero_le _, by simp [start]⟩, fun _ h => absurd h (by simp [start])⟩
  obtain ⟨hs, -⟩ := runEvents_invariant (I := fun d => Seam resource d ∧ BodyAt resource d.r.atOff d)
    (fun _ _ => Seam.next) hstart hkeeps
  rw [hs.delivered]
  exact ⟨List.take_prefix _ _, fun res hmem heof => by rw [hs.eof res hmem heof, List.take_length]⟩

end

/-- A download of two bytes, in two requests. -/
def twoRequests : List Event :=
  [.read 1, .round ⟨.range, false, 1, .nil⟩, .read 1, .round ⟨.range, false, 0, .error⟩,
    .round ⟨.range, false, 1, .eof⟩]

theorem reads_seamless_twoRequests :
    (runEvents (next [1, 2] ()) (start .new) twoRequests).delivered <+: [1, 2] ∧
      ∀ res ∈ (runEvents (next [1, 2] ()) (start .new) twoRequests).results, res.2 = some .eof →
        (runEvents (next [1, 2] ()) (start .new) twoRequests).delivered = [1, 2] := by
  refine reads_seamless ⟨trivial, fun c hc => ?_, trivial, fun c hc => ?_, fun c hc => ?_, trivial⟩
  · exact ⟨nofun, nofun⟩
  · exact ⟨nofun, nofun⟩
  · obtain rfl : (⟨1, 1⟩ : ReadCall) = c := Option.some.inj hc
    exact ⟨nofun, fun _ _ => Nat.le_refl 2⟩

/-- A second request that is answered with the whole resource: its first
byte is returned twice. And a body that ends early: `io.EOF` is returned
behind the first byte. -/
theorem reads_not_seamless :
    ¬ (runEvents (next [1, 2] ()) (start .new) [.read 1, .round ⟨.range, false, 1, .nil⟩, .read 1,
        .round ⟨.range, false, 0, .error⟩, .round ⟨.whole, false, 1, .nil⟩]).delivered <+: [1, 2] ∧
      (runEvents (next [1, 2] ()) (start .new)
        [.read 2, .round ⟨.range, false, 1, .eof⟩]).results = [([1], some .eof)] := by
  decide

/-! ## Counters given back -/

section

variable {resource : Bytes} {key : K} {d : Download K} {e : Event} {a : Round} {c : ReadCall}
  {counters : RateCounters K} {others : List (RateCounter K)} {cur : RateEnforcingReader K}

/-- Bytes were counted at a counter. -/
def counted (rc : RateCounter K) (n : ℕ) (counters : RateCounters K) : RateCounters K :=
  counters.modify rc.id fun c => { c with transferred := c.transferred + n }

omit [DecidableEq K] in
theorem books_counted {held : List (RateCounter K)} {rc : RateCounter K} {n : ℕ}
    (h : counters.Books held) : (counted rc n counters).Books held :=
  RateCounters.Books.modify h fun _ => rfl

omit [DecidableEq K] in
/-- The end of a round leaves the response and the counters. -/
theorem again_eq : (d.again c).r = d.r ∧ (d.again c).counters = d.counters ∧
    (d.again c).got = d.got ∧ (d.again c).released = d.released := by
  unfold Download.again
  split_ifs
  · exact ⟨rfl, rfl, rfl, rfl⟩
  · exact ⟨rfl, rfl, rfl, rfl⟩

/-- What was read is returned with the body kept, or the body is ended. -/
theorem afterRead_cases {rc : RateCounter K} (hcloser : d.r.curCloser = some rc) (data : Bytes)
    (ends : ReadEnd) : (d.afterRead c data ends).r.curCloser = some rc ∧
      (d.afterRead c data ends).got = d.got ∧
      ((ends = .nil ∧ (d.afterRead c data ends).r.cur = d.r.cur ∧
          (d.afterRead c data ends).released = d.released ∧
          (d.afterRead c data ends).counters = d.counters) ∨
        (d.afterRead c data ends).r.cur = none ∧
          (d.afterRead c data ends).released = d.released + 1 ∧
          (d.afterRead c data ends).counters = d.counters.release rc) := by
  have hend : d.endCur = { d.release rc with r := { d.r with cur := none } } := by
    unfold Download.endCur
    rw [closeCloser_r]
    unfold closeCloser
    rw [hcloser]
  unfold Download.afterRead
  rw [hend]
  cases ends with
  | eof => exact ⟨hcloser, rfl, Or.inr ⟨rfl, rfl, rfl⟩⟩
  | error =>
    dsimp only
    split_ifs
    · exact ⟨hcloser, rfl, Or.inr ⟨rfl, rfl, rfl⟩⟩
    · obtain ⟨hr, hcounters, hgot, hreleased⟩ :=
        again_eq (c := c) (d := { d.release rc with r := { d.r with cur := none } })
      rw [hr, hcounters, hgot, hreleased]
      exact ⟨hcloser, rfl, Or.inr ⟨rfl, rfl, rfl⟩⟩
  | nil =>
    dsimp only
    split_ifs
    · exact ⟨hcloser, rfl, Or.inr ⟨rfl, rfl, rfl⟩⟩
    · exact ⟨hcloser, rfl, Or.inl ⟨rfl, rfl, rfl, rfl⟩⟩

/-- **What a round does to the counters**, with `cur` open: it keeps `cur`,
or ends it and gives its counter back; and when the speed check failed the
counter was given back before. -/
theorem serve_cases (hcloser : d.r.curCloser = some cur.rc) :
    (d.serve c a cur).r.curCloser = some cur.rc ∧ (d.serve c a cur).got = d.got ∧
      ((cur.checked ∧ a.slow) ∧ (d.serve c a cur).r.cur = none ∧
          (d.serve c a cur).released = d.released + 2 ∨
        ¬ (cur.checked ∧ a.slow) ∧ ∃ n,
          ((∃ cur', (d.serve c a cur).r.cur = some cur' ∧ cur'.rc = cur.rc) ∧
              (d.serve c a cur).released = d.released ∧
              (d.serve c a cur).counters = counted cur.rc n d.counters ∨
            (d.serve c a cur).r.cur = none ∧ (d.serve c a cur).released = d.released + 1 ∧
              (d.serve c a cur).counters = (counted cur.rc n d.counters).release cur.rc)) := by
  unfold Download.serve Download.readCur
  split_ifs with hslow
  · obtain ⟨hcloser', hgot, ⟨hnil, -⟩ | ⟨hnone, hreleased, -⟩⟩ :=
      afterRead_cases (c := c) (d := d.release cur.rc) hcloser [] .error
    · cases hnil
    · exact ⟨hcloser', hgot, Or.inl ⟨hslow, hnone, hreleased⟩⟩
  · dsimp only
    generalize hn : cur.body.take (min a.n c.len) = data
    generalize hd' : ({ d with
      r := { d.r with cur := some { cur with body := cur.body.drop data.length, checked := true } }
      counters := d.counters.modify cur.rc.id fun s =>
        { s with transferred := s.transferred + data.length } } : Download K) = d'
    have hcloser' : d'.r.curCloser = some cur.rc := hd' ▸ hcloser
    have hopen : ∃ cur', d'.r.cur = some cur' ∧ cur'.rc = cur.rc := hd' ▸ ⟨_, rfl, rfl⟩
    have hcount : d'.counters = counted cur.rc data.length d.counters := hd' ▸ rfl
    have hsame : d'.got = d.got ∧ d'.released = d.released := hd' ▸ ⟨rfl, rfl⟩
    obtain ⟨hcl, hgot, ⟨-, hcur, hreleased, hcounters⟩ | ⟨hnone, hreleased, hcounters⟩⟩ :=
      afterRead_cases (c := c) hcloser' data a.ends
    · refine ⟨hcl, hgot.trans hsame.1, Or.inr ⟨hslow, data.length, Or.inl ⟨?_, ?_, ?_⟩⟩⟩
      · rw [hcur]
        exact hopen
      · rw [hreleased, hsame.2]
      · rw [hcounters, hcount]
    · refine ⟨hcl, hgot.trans hsame.1, Or.inr ⟨hslow, data.length, Or.inr ⟨hnone, ?_, ?_⟩⟩⟩
      · rw [hreleased, hsame.2]
      · rw [hcounters, hcount]

/-! ### One release for one `Get` -/

/-- The closer is the one of the open body, and with no closer there was no
request. -/
structure Linked (d : Download K) : Prop where
  closer : ∀ cur, d.r.cur = some cur → d.r.curCloser = some cur.rc
  fresh : d.r.curCloser = none → d.got = 0 ∧ d.released = 0

/-- How many releases there are too many, the one of the open body counted
as made. -/
def excess (d : Download K) : ℤ := d.released + (if d.r.cur.isSome then 1 else 0) - d.got

/-- **No speed check fails.** -/
def Fast (d : Download K) : Event → Prop
  | .read _ => True
  | .round a => ∀ c cur, d.call = some c → d.r.cur = some cur → ¬ (cur.checked ∧ a.slow)

/-- The counters that the download holds. -/
def own (d : Download K) : List (RateCounter K) := (d.r.cur.map RateEnforcingReader.rc).toList

/-- A round with an open body: the links are kept, a failed check makes a
release too many, and without one the books stay in order. -/
theorem serve_linked (others : List (RateCounter K)) (hl : Linked d) (hcur : d.r.cur = some cur) :
    Linked (d.serve c a cur) ∧
      ((cur.checked ∧ a.slow) ∧ (d.serve c a cur).excess = d.excess + 1 ∨
        ¬ (cur.checked ∧ a.slow) ∧ (d.serve c a cur).excess = d.excess ∧
          (d.counters.Books (d.own ++ others) →
            (d.serve c a cur).counters.Books ((d.serve c a cur).own ++ others))) := by
  obtain ⟨hcloser, hgot, hcases⟩ := serve_cases (a := a) (c := c) (hl.closer cur hcur)
  generalize d.serve c a cur = d' at *
  have hfresh : d'.r.curCloser = none → d'.got = 0 ∧ d'.released = 0 := fun h => by
    rw [hcloser] at h
    cases h
  rcases hcases with ⟨hslow, hnone, hreleased⟩ | ⟨hfast, n, hkept | hended⟩
  · refine ⟨⟨fun cur' h => ?_, hfresh⟩, Or.inl ⟨hslow, ?_⟩⟩
    · rw [hnone] at h
      cases h
    · simp only [excess, hcur, hnone, hgot, hreleased]
      simp
      omega
  · obtain ⟨⟨cur', hcur', hrc⟩, hreleased, hcounters⟩ := hkept
    refine ⟨⟨fun cur'' h => ?_, hfresh⟩, Or.inr ⟨hfast, ?_, fun hb => ?_⟩⟩
    · rw [← Option.some.inj (hcur'.symm.trans h), hrc, hcloser]
    · simp only [excess, hcur, hcur', hgot, hreleased]
      simp
    · have hown : d'.own = d.own := by
        unfold own
        rw [hcur, hcur', Option.map_some, Option.map_some, hrc]
      rw [hown, hcounters]
      exact books_counted hb
  · obtain ⟨hnone, hreleased, hcounters⟩ := hended
    refine ⟨⟨fun cur' h => ?_, hfresh⟩, Or.inr ⟨hfast, ?_, fun hb => ?_⟩⟩
    · rw [hnone] at h
      cases h
    · simp only [excess, hcur, hnone, hgot, hreleased]
      simp
    · have hown : d'.own = [] ∧ d.own = [cur.rc] := by
        unfold own
        rw [hcur, hnone]
        exact ⟨rfl, rfl⟩
      rw [hown.1, hcounters]
      rw [hown.2] at hb
      exact (books_counted hb).release

/-- A request that is answered takes a counter. -/
theorem opened_linked (resource : Bytes) (key : K) (others : List (RateCounter K))
    (hcur : d.r.cur = none) (hans : a.answer ≠ .refused) :
    ∃ cur, (d.startReq resource key a.answer).2.r.cur = some cur ∧ cur.checked = false ∧
      Linked (d.startReq resource key a.answer).2 ∧
      (d.startReq resource key a.answer).2.excess = d.excess ∧
      (d.counters.Books (d.own ++ others) → (d.startReq resource key a.answer).2.counters.Books
        ((d.startReq resource key a.answer).2.own ++ others)) := by
  have hopened : ∀ body, ∃ cur, (d.opened key body).r.cur = some cur ∧ cur.checked = false ∧
      Linked (d.opened key body) ∧ (d.opened key body).excess = d.excess ∧
      (d.counters.Books (d.own ++ others) →
        (d.opened key body).counters.Books ((d.opened key body).own ++ others)) := by
    intro body
    refine ⟨_, rfl, rfl, ⟨fun cur h => ?_, nofun⟩, ?_, fun hb => ?_⟩
    · rw [← Option.some.inj h]
      rfl
    · simp only [excess, hcur, Download.opened]
      simp
    · have hown : d.own = [] := by
        unfold own
        rw [hcur]
        rfl
      rw [hown] at hb
      exact hb.get
  cases hanswer : a.answer with
  | refused => exact absurd hanswer hans
  | range => exact hopened _
  | whole => exact hopened _

/-- **An event**: a failed check makes a release too many, and without one
the books stay in order. -/
theorem next_linked (resource : Bytes) (key : K) (others : List (RateCounter K)) (hl : Linked d) :
    Linked (d.next resource key e) ∧
      (¬ Fast d e ∧ (d.next resource key e).excess = d.excess + 1 ∨
        Fast d e ∧ (d.next resource key e).excess = d.excess ∧
          (d.counters.Books (d.own ++ others) →
            (d.next resource key e).counters.Books ((d.next resource key e).own ++ others))) := by
  -- an event that does nothing
  have hsame : Fast d e → Linked d ∧ (¬ Fast d e ∧ d.excess = d.excess + 1 ∨
      Fast d e ∧ d.excess = d.excess ∧
        (d.counters.Books (d.own ++ others) → d.counters.Books (d.own ++ others))) :=
    fun h => ⟨hl, Or.inr ⟨h, rfl, id⟩⟩
  cases e with
  | read len =>
    simp only [Download.next]
    split
    · exact ⟨⟨hl.closer, hl.fresh⟩, Or.inr ⟨trivial, rfl, id⟩⟩
    · exact hsame trivial
  | round a =>
    simp only [Download.next]
    split
    · rename_i hcall
      exact hsame fun c cur h => absurd (hcall.symm.trans h) nofun
    · rename_i c hcall
      cases hcur : d.r.cur with
      | some cur =>
        rw [round_of_some hcur]
        -- the body is open: only its speed check can fail
        have hiff : Fast d (.round a) ↔ ¬ (cur.checked ∧ a.slow) := by
          refine ⟨fun h => h c cur hcall hcur, fun h c' cur' hc' hcur' => ?_⟩
          rwa [← Option.some.inj (hcur.symm.trans hcur')]
        rw [hiff, not_not]
        exact serve_linked others hl hcur
      | none =>
        -- no body is open, so a request is made first
        have hfast : Fast d (.round a) := fun c' cur' _ h => absurd (hcur.symm.trans h) nofun
        rcases startReq_cases resource key d a.answer with ⟨hans, -⟩ | ⟨hans, -, hok, -⟩
        · rw [round_of_refused hcur hans]
          obtain ⟨hr, hcounters, hgot, hreleased⟩ := again_eq (c := c) (d := d)
          refine ⟨⟨fun cur' h => ?_, fun h => ?_⟩, Or.inr ⟨hfast, ?_, ?_⟩⟩
          · rw [hr] at h ⊢
            exact hl.closer cur' h
          · rw [hgot, hreleased]
            exact hl.fresh (hr ▸ h)
          · unfold excess
            rw [hr, hgot, hreleased]
          · unfold own
            rw [hr, hcounters]
            exact id
        · obtain ⟨cur, hopen, hchecked, hl', hexcess, hbooks⟩ :=
            opened_linked resource key others hcur hans
          rw [round_of_opened hcur hok hopen]
          obtain ⟨hlinked, ⟨⟨hslow, -⟩, -⟩ | ⟨-, hex, hb⟩⟩ :=
            serve_linked (c := c) (a := a) others hl' hopen
          · exact absurd hslow (by simp [hchecked])
          · exact ⟨hlinked, Or.inr ⟨hfast, hex.trans hexcess, hb ∘ hbooks⟩⟩

/-- **What a download leaves behind**: one release for each `Get`, and the
counts as they were. -/
structure Settled (counters : RateCounters K) (d : Download K) : Prop where
  released : d.released = d.got
  global : d.counters.globalTransfers = counters.globalTransfers
  peers : ∀ key, d.counters.peer key = counters.peer key
  nonneg : d.counters.NonNegative

/-- The books behind a run in which no check fails. -/
theorem run_books (hbooks : counters.Books others) {es : List Event}
    (hfast : Always (next resource key) Fast (start counters) es) :
    (runEvents (next resource key) (start counters) es).counters.Books
      ((runEvents (next resource key) (start counters) es).own ++ others) := by
  have hstart : Linked (start counters) ∧
      (start counters).counters.Books ((start counters).own ++ others) :=
    ⟨⟨nofun, fun _ => ⟨rfl, rfl⟩⟩, hbooks⟩
  refine (runEvents_invariant (I := fun d => Linked d ∧ d.counters.Books (d.own ++ others))
    (fun d e ⟨hl, hb⟩ hf => ?_) hstart hfast).2
  obtain ⟨hl', ⟨hslow, -⟩ | ⟨-, -, hb'⟩⟩ :=
    next_linked resource key others (e := e) hl
  · exact absurd hf hslow
  · exact ⟨hl', hb' hb⟩

/-- **A download gives every counter back once**, exactly when no speed
check fails in it, and `Close` finds its last body open or no request was
made: a failed check gives the counter back that the closer gives back
too, and `Close` calls the closer of a body that ended again. -/
theorem close_settles_iff (hbooks : counters.Books others) (es : List Event) :
    (Settled counters (runEvents (next resource key) (start counters) es).close ∧
        ∀ es', es' <+: es →
          (runEvents (next resource key) (start counters) es').counters.NonNegative) ↔
      Always (next resource key) Fast (start counters) es ∧
        ((runEvents (next resource key) (start counters) es).r.cur.isSome ∨
          (runEvents (next resource key) (start counters) es).r.curCloser = none) := by
  have hstep : ∀ d e, Linked d → Linked (d.next resource key e) := fun d e hl =>
    (next_linked resource key others hl).1
  have hkeep : ∀ d e, Linked d → Fast d e → (d.next resource key e).excess = d.excess := by
    intro d e hl hf
    rcases (next_linked resource key others hl).2 with
      ⟨hslow, -⟩ | ⟨-, hex, -⟩
    · exact absurd hf hslow
    · exact hex
  have hrise : ∀ d e, Linked d → ¬ Fast d e → d.excess < (d.next resource key e).excess := by
    intro d e hl hf
    rcases (next_linked resource key others hl).2 with
      ⟨-, hex⟩ | ⟨hfast, -, -⟩
    · rw [hex]
      omega
    · exact absurd hfast hf
  have hlinked : Linked (start counters) := ⟨nofun, fun _ => ⟨rfl, rfl⟩⟩
  -- the excess only rises, and it rises when a check fails
  have halways : Always (next resource key) Fast (start counters) es ↔
      (runEvents (next resource key) (start counters) es).excess = (start counters).excess :=
    always_iff_of_rises hstep hkeep hrise hlinked
  have hl := runEvents_stable hstep hlinked es
  have hnonneg := runEvents_le hstep (fun d e hl => by
    by_cases hf : Fast d e
    · exact (hkeep d e hl hf).ge
    · exact (hrise d e hl hf).le) hlinked es
  have hzero : (start counters : Download K).excess = 0 := rfl
  rw [hzero] at halways hnonneg
  have hnone : (runEvents (next resource key) (start counters) es).r.curCloser = none →
      (runEvents (next resource key) (start counters) es).r.cur = none := fun h => by
    cases hcur : (runEvents (next resource key) (start counters) es).r.cur with
    | none => rfl
    | some cur => exact absurd ((hl.closer cur hcur).symm.trans h) nofun
  constructor
  -- only if: as many releases as calls of `Get` leave no excess
  · rintro ⟨⟨hrel, -, -, -⟩, -⟩
    rw [halways]
    generalize runEvents (next resource key) (start counters) es = d at *
    unfold close closeCloser at hrel
    unfold excess at hnonneg ⊢
    cases hcloser : d.r.curCloser with
    | none =>
      obtain ⟨hgot, hreleased⟩ := hl.fresh hcloser
      rw [hnone hcloser, hgot, hreleased]
      exact ⟨rfl, Or.inr rfl⟩
    | some rc =>
      -- one release less than there are, unless a body is open
      rw [hcloser] at hrel
      change d.released + 1 = d.got at hrel
      cases hcur : d.r.cur with
      | none =>
        rw [hcur] at hnonneg
        simp at hnonneg
        omega
      | some cur =>
        refine ⟨?_, Or.inl rfl⟩
        simp
        omega
  -- if: the books of the run, with the release of `Close` if a body is open
  · rintro ⟨hfast, hopen⟩
    have hb := run_books hbooks hfast
    have hex := halways.mp hfast
    refine ⟨?_, fun es' ⟨t, ht⟩ => (run_books hbooks (Always.left (ht ▸ hfast))).nonneg⟩
    have hsettled : ∀ d : Download K, d.counters.Books others → d.released = d.got →
        Settled counters d := fun d hd hrel =>
      ⟨hrel, by rw [hd.global, hbooks.global],
        fun k => by rw [hd.peer_eq, hbooks.peer_eq], hd.nonneg⟩
    generalize runEvents (next resource key) (start counters) es = d at *
    unfold excess at hex
    unfold own at hb
    unfold close closeCloser
    cases hcur : d.r.cur with
    | none =>
      rw [hcur] at hb hex hopen
      rw [hopen.resolve_left (by simp)]
      refine hsettled _ hb ?_
      change d.released = d.got
      simp at hex
      omega
    | some cur =>
      rw [hl.closer cur hcur]
      rw [hcur] at hb hex
      refine hsettled _ hb.release ?_
      change d.released + 1 = d.got
      simp at hex
      omega

end

/-- A download that is closed while its body is open. -/
def openBody : List Event := [.read 1, .round ⟨.range, false, 1, .nil⟩]

theorem close_settles_openBody : Settled .new
    (runEvents (next [7] ()) (start .new) openBody).close ∧ ∀ es', es' <+: openBody →
      (runEvents (next [7] ()) (start .new) es').counters.NonNegative := by
  have hfast : Always (next [7] ()) Fast (start .new) openBody :=
    ⟨trivial, fun _ _ _ h => absurd h nofun, trivial⟩
  exact (close_settles_iff RateCounters.books_new openBody).mpr ⟨hfast, Or.inl rfl⟩

/-- The calls of `Get`, the releases and the global count. -/
def tally {K : Type} (d : Download K) : ℕ × ℕ × ℤ :=
  (d.got, d.released, d.counters.globalTransfers)

/-- A download that is read to its end: its one counter is given back at
the end of the body, and again by `Close`. And one in which a speed check
fails: it gives the counter back, and so does the closer. -/
theorem close_not_settled :
    (runEvents (next [7] ()) (start .new) (openBody ++
      [.read 1, .round ⟨.range, false, 0, .eof⟩])).close.tally = (1, 2, -1) ∧
    (runEvents (next [7] ()) (start .new) (openBody ++
      [.read 1, .round ⟨.range, true, 1, .nil⟩])).tally = (1, 2, -1) := by
  decide

end Download

end Ributil

end Ribs
