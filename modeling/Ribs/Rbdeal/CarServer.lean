import Mathlib.Tactic.Ring
import Ribs.Common.Uvarint
/-!
# Rbdeal — serving ranges of a CAR

`handleCarRequest` answers a request for a range by writing the whole CAR
into a stack of writers: one limits how much gets through, one checks the
speed, and one drops the bytes before the range. The writer of the CAR
stops at the first error, and does not look at how much was accepted.
-/

namespace Ribs

open Common

namespace Rbdeal

/-! ## The header -/

/-- `strconv.ParseUint(s, 10, 64)`, as far as digits go. -/
def parseDigits (bs : Bytes) : Option ℕ :=
  if bs = [] then none
  else
    bs.foldlM (fun n b =>
      if 0x30 ≤ b ∧ b ≤ 0x39 then some (10 * n + (b.toNat - 0x30)) else none) 0

/-- `strconv.ParseInt(s, 10, 64)`. -/
def parseInt (bs : Bytes) : Option ℤ :=
  let (neg, digits) :=
    match bs with
    | 0x2b :: bs => (false, bs)
    | 0x2d :: bs => (true, bs)
    | bs => (false, bs)
  (parseDigits digits).bind fun n =>
    if neg then if n ≤ 2 ^ 63 then some (-n) else none
    else if n < 2 ^ 63 then some n else none

/-- `"bytes"`. -/
def bytesUnit : Bytes := [0x62, 0x79, 0x74, 0x65, 0x73]

/-- How much to discard, and the last byte to send; `-1` for no limit. None
when the header is not accepted. -/
def parseRange (header : Bytes) : Option (ℤ × ℤ) :=
  if header = [] then some (0, -1)
  else
    match header.splitOn 0x3d with
    | [unit, spec] =>
      -- `strings.HasPrefix`: more may follow the unit
      if bytesUnit.isPrefixOf unit then
        match spec.splitOn 0x2d with
        -- an open end is no limit; a missing start is an error
        | [first, last] => (parseInt first).bind fun toDiscard =>
          if last = [] then some (toDiscard, -1)
          else (parseInt last).map fun toLimit => (toDiscard, toLimit)
        | _ => none
      else none
    | _ => none

/-! ## The writers -/

inductive Err where
  /-- Of the connection. -/
  | write
  | contentLength
  | tooSlow
  | limitReached
deriving DecidableEq

/-- What the connection and the speed checks do, write by write. -/
structure Net where
  /-- The `n`-th write to the connection accepts so many bytes, and fails. -/
  fails : ℕ → Option ℕ
  /-- The speed check of the `n`-th write fails, if one is made. -/
  slow : ℕ → Bool

/-- No write fails. -/
def Net.Calm (net : Net) : Prop := (∀ n, net.fails n = none) ∧ ∀ n, net.slow n = false

/-- A call of `Write` that returned: the length of its argument, and what it
returned. -/
structure WriteCall where
  len : ℕ
  n : ℕ
  err : Option Err
deriving DecidableEq

/-- The call told of what it did not accept. -/
def WriteCall.Reports (c : WriteCall) : Prop := c.n < c.len → c.err ≠ none

/-- **The response and its writers**: `carStatWriter`, the
`RateEnforcingWriter` over it and the `LimitWriter` over that. -/
structure Stack where
  contentLength : ℤ
  /-- What the client got. -/
  sent : Bytes
  /-- How much was to be sent, and the writes to the connection and to the
  rate writer. -/
  written : ℕ
  writes : ℕ
  checks : ℕ
  toDiscard : ℤ
  groupCtr : ℤ
  wrote : ℤ
  writeError : Bool
  /-- Of the `LimitWriter`. -/
  n : ℤ
  err : Option Err
  reached : Bool
  /-- The calls of `Write` of the discarding and of the limiting writer. -/
  calls : List WriteCall

/-- What `Write` returns. -/
abbrev Wrote := (ℕ × Option Err) × Stack

/-- `Write` of `http.ResponseWriter`. -/
def Stack.respWrite (net : Net) (p : Bytes) (s : Stack) : Wrote :=
  let s' := { s with written := s.written + p.length, writes := s.writes + 1 }
  if p = [] then ((0, none), s')
  else if s.contentLength < s'.written then ((0, some .contentLength), s')
  else
    match net.fails s.writes with
    | none => ((p.length, none), { s' with sent := s.sent ++ p })
    | some k => (((p.take k).length, some .write), { s' with sent := s.sent ++ p.take k })

/-- A call is noted. -/
def noted (p : Bytes) (r : Wrote) : Wrote :=
  (r.1, { r.2 with calls := r.2.calls ++ [⟨p.length, r.1.1, r.1.2⟩] })

/-- `defer func() { c.wrote += int64(n) }()`. -/
def counted (r : Wrote) : Wrote := (r.1, { r.2 with wrote := r.2.wrote + r.1.1 })

/-- `carStatWriter.Write`, to the response. -/
def Stack.passOn (net : Net) (p : Bytes) (discarded : ℕ) (s : Stack) : Wrote :=
  let r := s.respWrite net p
  ((r.1.1 + discarded, r.1.2), { r.2 with groupCtr := r.2.groupCtr + r.1.1 })

/-- `carStatWriter.Write`. -/
def Stack.statWrite (net : Net) (p : Bytes) (s : Stack) : Wrote :=
  noted p <| counted <|
    if 0 < s.toDiscard then
      if p.length ≤ s.toDiscard then
        ((p.length, none), { s with toDiscard := s.toDiscard - p.length })
      else { s with toDiscard := 0 }.passOn net (p.drop s.toDiscard.toNat) s.toDiscard.toNat
    else s.passOn net p 0

/-- `RateEnforcingWriter.Write`: the first write is not checked. -/
def Stack.rateWrite (net : Net) (p : Bytes) (s : Stack) : Wrote :=
  if s.writeError then ((0, some .tooSlow), s)
  else if 0 < s.checks ∧ net.slow s.checks then
    ((0, some .tooSlow), { s with writeError := true, checks := s.checks + 1 })
  else { s with checks := s.checks + 1 }.statWrite net p

/-- `lw.N -= int64(n)`; with nothing left the limit is reached, and the error
is the one of this write. -/
def limited (r : Wrote) : Wrote :=
  (r.1, if r.2.n - r.1.1 ≤ 0 then
      { r.2 with n := r.2.n - r.1.1, reached := true, err := r.1.2 }
    else { r.2 with n := r.2.n - r.1.1 })

/-- `LimitWriter.Write`. -/
def Stack.limitWrite (net : Net) (p : Bytes) (s : Stack) : Wrote :=
  noted p <|
    if s.reached then ((0, s.err), s)
    else if s.n ≤ 0 then ((0, s.err), { s with reached := true })
    else if s.n < p.length then
      limited ({ s with reached := true }.rateWrite net (p.take s.n.toNat))
    else limited (s.rateWrite net p)

/-! ## The response -/

/-- `ReadCar`: the writes of the CAR, up to the first error. -/
def readCar (write : Bytes → Stack → Wrote) : List Bytes → Stack → Option Err × Stack
  | [], s => (none, s)
  | p :: ps, s =>
    match write p s with
    | ((_, some e), s) => (some e, s)
    | ((_, none), s) => readCar write ps s

/-- `http.Error`, with some text. -/
def Stack.httpError (net : Net) (text : Bytes) (s : Stack) : Stack := (s.respWrite net text).2

/-- The writers of a request. -/
def Stack.start (carSize toDiscard toLimit : ℤ) : Stack where
  contentLength := if toLimit ≠ -1 then toLimit - toDiscard + 1 else carSize - toDiscard
  sent := []
  written := 0
  writes := 0
  checks := 0
  toDiscard := toDiscard
  groupCtr := 0
  wrote := 0
  writeError := false
  n := toLimit - toDiscard + 1
  err := some .limitReached
  reached := false
  calls := []

/-- `writerToUse.Write`. -/
def writerToUse (net : Net) (toLimit : ℤ) : Bytes → Stack → Wrote :=
  if toLimit ≠ -1 then Stack.limitWrite net else Stack.rateWrite net

/-- The CAR, in pieces, through the writers of a request; `text` is of the
error. -/
def serveCar (net : Net) (pieces : List Bytes) (text : Bytes) (toDiscard toLimit : ℤ) : Stack :=
  match readCar (writerToUse net toLimit) pieces
      (Stack.start pieces.flatten.length toDiscard toLimit) with
  | (none, s) => s
  | (some _, s) => s.httpError net text

/-- **`handleCarRequest`**, from the range on. A bad range is not served. -/
def handleCarRequest (net : Net) (pieces : List Bytes) (text header : Bytes) : Option Stack :=
  (parseRange header).map fun r => serveCar net pieces text r.1 r.2

/-! ## What the writers pass on -/

variable {net : Net} {a : ℕ} {done p : Bytes} {s : Stack}

/-- The writers below the limit are at `done`: the client got it from `a`
on. -/
structure Passing (a : ℕ) (done : Bytes) (s : Stack) : Prop where
  sent : s.sent = done.drop a
  written : s.written = done.length - a
  toDiscard : s.toDiscard = ((a - done.length : ℕ) : ℤ)
  writeError : s.writeError = false

/-- What the writers below the limit leave alone. -/
structure Kept (s s' : Stack) : Prop where
  contentLength : s'.contentLength = s.contentLength
  n : s'.n = s.n
  err : s'.err = s.err
  reached : s'.reached = s.reached

/-- What a write to the connection does, when it does not fail. -/
theorem respWrite_calm (hnet : net.Calm) (hroom : (s.written + p.length : ℤ) ≤ s.contentLength) :
    s.respWrite net p = ((p.length, none),
      { s with sent := s.sent ++ p, written := s.written + p.length, writes := s.writes + 1 }) := by
  unfold Stack.respWrite
  dsimp only
  split_ifs with hp hlt
  · rw [hp, List.append_nil, List.length_nil]
  · exact absurd hlt (by rw [Nat.cast_add]; omega)
  · rw [hnet.1]

/-- **The discarding writer passes on what is behind `a`.** -/
theorem statWrite_calm (hnet : net.Calm) (h : Passing a done s)
    (hroom : ((done ++ p).length - a : ℕ) ≤ s.contentLength) :
    (s.statWrite net p).1 = (p.length, none) ∧ Passing a (done ++ p) (s.statWrite net p).2 ∧
      Kept s (s.statWrite net p).2 := by
  have hsent := h.sent
  have hwritten := h.written
  have hdiscard := h.toDiscard
  rw [List.length_append] at hroom
  unfold Stack.statWrite
  split_ifs with hpos hall
  · -- all of it is discarded
    refine ⟨rfl, ⟨?_, ?_, ?_, h.writeError⟩, ⟨rfl, rfl, rfl, rfl⟩⟩
    · change s.sent = _
      rw [hsent, List.drop_eq_nil_of_le (by omega),
        List.drop_eq_nil_of_le (by rw [List.length_append]; omega)]
    · change s.written = _
      rw [List.length_append]
      omega
    · change s.toDiscard - p.length = _
      rw [List.length_append]
      omega
  · -- the range starts in this write
    have hn : (p.drop s.toDiscard.toNat).length + s.toDiscard.toNat = p.length := by
      rw [List.length_drop]
      omega
    have hresp := respWrite_calm (p := p.drop s.toDiscard.toNat) (s := { s with toDiscard := 0 })
      hnet (by
        change (s.written + (p.drop s.toDiscard.toNat).length : ℤ) ≤ s.contentLength
        omega)
    unfold Stack.passOn
    rw [hresp]
    refine ⟨Prod.ext hn rfl, ⟨?_, ?_, ?_, h.writeError⟩, ⟨rfl, rfl, rfl, rfl⟩⟩
    · change s.sent ++ p.drop s.toDiscard.toNat = _
      rw [hsent, List.drop_append]
      congr 2
      omega
    · change s.written + (p.drop s.toDiscard.toNat).length = _
      rw [List.length_append]
      omega
    · change (0 : ℤ) = _
      rw [List.length_append]
      omega
  -- the range has started
  · have hresp := respWrite_calm (p := p) hnet (s := s) (by omega)
    unfold Stack.passOn
    rw [hresp]
    refine ⟨rfl, ⟨?_, ?_, ?_, h.writeError⟩, ⟨rfl, rfl, rfl, rfl⟩⟩
    · change s.sent ++ p = _
      rw [hsent, List.drop_append_of_le_length (by omega)]
    · change s.written + p.length = _
      rw [List.length_append]
      omega
    · change s.toDiscard = _
      rw [List.length_append]
      omega

theorem rateWrite_calm (hnet : net.Calm) (h : Passing a done s)
    (hroom : ((done ++ p).length - a : ℕ) ≤ s.contentLength) :
    (s.rateWrite net p).1 = (p.length, none) ∧ Passing a (done ++ p) (s.rateWrite net p).2 ∧
      Kept s (s.rateWrite net p).2 := by
  unfold Stack.rateWrite
  rw [if_neg (by simp [h.writeError]), if_neg (by simp [hnet.2])]
  have h' : Passing a done { s with checks := s.checks + 1 } := 
    ⟨h.sent, h.written, h.toDiscard, h.writeError⟩
  obtain ⟨hr, hp, hk⟩ := statWrite_calm hnet h' hroom
  exact ⟨hr, hp, hk.contentLength, hk.n, hk.err, hk.reached⟩

/-! ## What the writers report -/

/-- All calls so far reported what they did not accept. -/
def Stack.Reported (s : Stack) : Prop := ∀ c ∈ s.calls, c.Reports

/-- **A write that returned**: with all of it accepted, or with an error. -/
structure Wrote.Ok (p : Bytes) (s : Stack) (r : Wrote) : Prop where
  all : r.1.2 = none → r.1.1 = p.length
  kept : Kept s r.2
  reported : s.Reported → r.2.Reported

theorem reported_noted {r : Wrote} (h : r.2.Reported) (hall : r.1.2 = none → r.1.1 = p.length) :
    (noted p r).2.Reported := by
  intro c hc
  rcases List.mem_append.mp hc with hc | hc
  · exact h c hc
  · rw [List.mem_singleton] at hc
    rw [hc]
    intro hlt hnone
    have := hall hnone
    change r.1.1 < p.length at hlt
    omega

theorem respWrite_ok : Wrote.Ok p s (s.respWrite net p) := by
  unfold Stack.respWrite
  dsimp only
  split_ifs with hp
  · exact ⟨fun _ => by rw [hp]; rfl, ⟨rfl, rfl, rfl, rfl⟩, id⟩
  · exact ⟨nofun, ⟨rfl, rfl, rfl, rfl⟩, id⟩
  · split
    · exact ⟨fun _ => rfl, ⟨rfl, rfl, rfl, rfl⟩, id⟩
    · exact ⟨nofun, ⟨rfl, rfl, rfl, rfl⟩, id⟩

theorem passOn_ok {discarded : ℕ} (hle : discarded ≤ p.length) :
    Wrote.Ok p s (s.passOn net (p.drop discarded) discarded) := by
  obtain ⟨hall, hkept, hrep⟩ := respWrite_ok (p := p.drop discarded) (s := s)
  refine ⟨fun hnone => ?_, ⟨hkept.contentLength, hkept.n, hkept.err, hkept.reached⟩, hrep⟩
  change (s.respWrite net (p.drop discarded)).1.1 + discarded = p.length
  rw [hall hnone, List.length_drop]
  omega

theorem statWrite_ok : Wrote.Ok p s (s.statWrite net p) := by
  have hnoted : ∀ r : Wrote, Wrote.Ok p s r → Wrote.Ok p s (noted p (counted r)) := by
    intro r hr
    exact ⟨hr.all, ⟨hr.kept.contentLength, hr.kept.n, hr.kept.err, hr.kept.reached⟩,
      fun h => reported_noted (r := counted r) (hr.reported h) hr.all⟩
  unfold Stack.statWrite
  apply hnoted
  split_ifs with hpos hall
  · exact ⟨fun _ => rfl, ⟨rfl, rfl, rfl, rfl⟩, id⟩
  · have hle : s.toDiscard.toNat ≤ p.length := by omega
    obtain ⟨hall', hkept, hrep⟩ := passOn_ok (s := { s with toDiscard := 0 }) hle
    exact ⟨hall', ⟨hkept.contentLength, hkept.n, hkept.err, hkept.reached⟩, hrep⟩
  · exact passOn_ok (Nat.zero_le _)

theorem rateWrite_ok : Wrote.Ok p s (s.rateWrite net p) := by
  unfold Stack.rateWrite
  split_ifs
  · exact ⟨nofun, ⟨rfl, rfl, rfl, rfl⟩, id⟩
  · exact ⟨nofun, ⟨rfl, rfl, rfl, rfl⟩, id⟩
  · obtain ⟨hall, hkept, hrep⟩ := statWrite_ok (p := p)
      (s := { s with checks := s.checks + 1 })
    exact ⟨hall, ⟨hkept.contentLength, hkept.n, hkept.err, hkept.reached⟩, hrep⟩

@[simp] theorem limited_n {r : Wrote} : (limited r).2.n = r.2.n - r.1.1 := by
  unfold limited
  dsimp only
  split_ifs <;> rfl

@[simp] theorem limited_calls {r : Wrote} : (limited r).2.calls = r.2.calls := by
  unfold limited
  dsimp only
  split_ifs <;> rfl

theorem limited_contentLength {r : Wrote} :
    (limited r).2.contentLength = r.2.contentLength := by
  unfold limited
  dsimp only
  split_ifs <;> rfl

theorem limited_reached {r : Wrote} (h : (limited r).2.reached = true) :
    r.2.reached = true ∨ (limited r).2.n ≤ 0 := by
  unfold limited at h ⊢
  dsimp only at h ⊢
  split_ifs at h ⊢ with hz
  · exact Or.inr hz
  · exact Or.inl h

/-- **A write within the limit** reports what it does not accept. -/
theorem limitWrite_within (hle : (p.length : ℤ) ≤ s.n) (hreached : s.reached → s.n ≤ 0)
    (hrep : s.Reported) : (s.limitWrite net p).2.Reported ∧
      ((s.limitWrite net p).1.2 = none → (s.limitWrite net p).2.n = s.n - p.length ∧
        ((s.limitWrite net p).2.reached → (s.limitWrite net p).2.n ≤ 0)) := by
  unfold Stack.limitWrite
  split_ifs with h hn hlt
  · -- nothing is left, and nothing is written
    have hzero := hreached h
    refine ⟨reported_noted hrep fun _ => ?_, fun _ => ?_⟩
    · change 0 = p.length
      omega
    · change s.n = _ ∧ (s.reached = true → s.n ≤ 0)
      omega
  · refine ⟨reported_noted (r := ((0, s.err), { s with reached := true })) hrep fun _ => ?_,
      fun _ => ?_⟩
    · change 0 = p.length
      omega
    · change s.n = _ ∧ (true = true → s.n ≤ 0)
      omega
  · exact absurd hlt (by omega)
  · obtain ⟨hall, hkept, hrep'⟩ := rateWrite_ok (p := p) (s := s)
    generalize s.rateWrite net p = r at *
    refine ⟨reported_noted (r := limited r) ?_ hall, fun hnone => ⟨?_, fun hre => ?_⟩⟩
    · intro c hc
      rw [limited_calls] at hc
      exact hrep' hrep c hc
    · change (limited r).2.n = _
      rw [limited_n, hkept.n, hall hnone]
    · rcases limited_reached hre with hre | hz
      · rw [hkept.reached] at hre
        exact absurd (hreached hre) hn
      · exact hz

/-! ## Behind the limit -/

variable {m : ℕ}

/-- The limiting writer was offered `done`, in writes that did not fail, and
let the first `m` bytes through. What it did not let through it did not
report. -/
structure Limiting (a m : ℕ) (done : Bytes) (s : Stack) : Prop where
  passing : Passing a (done.take m) s
  n : s.n = (m - (done.take m).length : ℕ)
  reached : s.reached → s.n ≤ 0
  silent : s.n ≤ 0 → s.reached ∧ s.err = none
  unreported : m < done.length → ¬ s.Reported

theorem not_reported_noted {r : Wrote} (hnone : r.1.2 = none) (hlt : r.1.1 < p.length) :
    ¬ (noted p r).2.Reported := by
  intro h
  exact h ⟨p.length, r.1.1, r.1.2⟩ (List.mem_append.mpr (Or.inr (List.mem_singleton.mpr rfl)))
    hlt hnone

theorem reported_of_noted {r : Wrote} (h : (noted p r).2.Reported) : r.2.Reported := by
  intro c hc
  exact h c (List.mem_append.mpr (Or.inl hc))

/-- What the limit keeps, once a write below it went through. -/
theorem limited_calm {r : Wrote} (hpassing : Passing a (done.take m) r.2)
    (hnone : r.1.2 = none) (hreached : r.2.reached → r.2.n - r.1.1 ≤ 0)
    (hn : r.2.n - r.1.1 = (m - (done.take m).length : ℕ)) :
    Passing a (done.take m) (limited r).2 ∧
      (limited r).2.n = (m - (done.take m).length : ℕ) ∧
      ((limited r).2.reached → (limited r).2.n ≤ 0) ∧
      ((limited r).2.n ≤ 0 → (limited r).2.reached ∧ (limited r).2.err = none) := by
  unfold limited
  dsimp only
  split_ifs with hz
  · exact ⟨⟨hpassing.sent, hpassing.written, hpassing.toDiscard, hpassing.writeError⟩, hn,
      fun _ => hz, fun _ => ⟨rfl, hnone⟩⟩
  · exact ⟨⟨hpassing.sent, hpassing.written, hpassing.toDiscard, hpassing.writeError⟩, hn,
      hreached, fun hle => absurd hle hz⟩

/-- **The limiting writer never fails by itself**: it reports the (missing)
error of the write that reached the limit. -/
theorem limitWrite_calm (hnet : net.Calm) (h : Limiting a m done s)
    (hroom : (m - a : ℕ) ≤ s.contentLength) :
    (s.limitWrite net p).1.2 = none ∧ Limiting a m (done ++ p) (s.limitWrite net p).2 ∧
      (s.limitWrite net p).2.contentLength = s.contentLength := by
  have hn := h.n
  have htake : (done.take m).length = min m done.length := List.length_take
  by_cases hz : s.n ≤ 0
  · -- the limit was reached
    obtain ⟨hreached, herr⟩ := h.silent hz
    have hsame : (done ++ p).take m = done.take m :=
      List.take_append_of_le_length (by omega)
    unfold Stack.limitWrite
    rw [if_pos hreached]
    refine ⟨herr, ⟨?_, ?_, h.reached, h.silent, ?_⟩, rfl⟩
    · rw [hsame]
      exact ⟨h.passing.sent, h.passing.written, h.passing.toDiscard, h.passing.writeError⟩
    · rw [hsame]
      exact hn
    · intro hlt hrep
      rcases Nat.eq_zero_or_pos p.length with hp | hp
      · rw [List.length_append, hp] at hlt
        exact h.unreported hlt (reported_of_noted hrep)
      · exact not_reported_noted (r := ((0, s.err), s)) herr hp hrep
  -- the limit is not reached yet: all of `done` was passed on
  · have hdone : done.take m = done := List.take_of_length_le (by omega)
    rw [hdone] at hn
    have hnotreached : ¬ s.reached = true := fun hre => hz (h.reached hre)
    have hpassing := h.passing
    rw [hdone] at hpassing
    unfold Stack.limitWrite
    rw [if_neg hnotreached, if_neg hz]
    split_ifs with hlt
    · -- the limit is reached in this write
      have hk : (done ++ p).take m = done ++ p.take s.n.toNat := by
        rw [List.take_append, List.take_of_length_le (by omega)]
        congr 2
        omega
      have hlen : (p.take s.n.toNat).length = s.n.toNat := by
        rw [List.length_take]
        omega
      obtain ⟨hr, hp, hkept⟩ := rateWrite_calm (p := p.take s.n.toNat)
        (s := { s with reached := true }) hnet
        ⟨hpassing.sent, hpassing.written, hpassing.toDiscard, hpassing.writeError⟩
        (by rw [List.length_append, hlen]; change _ ≤ s.contentLength; omega)
      generalize Stack.rateWrite net (p.take s.n.toNat) { s with reached := true } = r at *
      rw [← hk] at hp
      have hr1 : r.1.1 = s.n.toNat := by rw [hr]; exact hlen
      have hr2 : r.1.2 = none := by rw [hr]
      have hrn : r.2.n = s.n := hkept.n
      have hm : ((done ++ p).take m).length = m := by
        rw [hk, List.length_append, hlen]
        omega
      obtain ⟨hp', hn', hre', hsi'⟩ := limited_calm hp hr2 (fun _ => by omega) (by omega)
      refine ⟨hr2, ⟨?_, hn', hre', hsi', ?_⟩, ?_⟩
      · exact ⟨hp'.sent, hp'.written, hp'.toDiscard, hp'.writeError⟩
      · intro _
        refine not_reported_noted (r := limited r) hr2 ?_
        change r.1.1 < p.length
        omega
      · exact (limited_contentLength (r := r)).trans hkept.contentLength
    -- nor in this write
    · have hk : (done ++ p).take m = done ++ p :=
        List.take_of_length_le (by rw [List.length_append]; omega)
      obtain ⟨hr, hp, hkept⟩ := rateWrite_calm (p := p) hnet hpassing
        (by rw [List.length_append]; omega)
      generalize Stack.rateWrite net p s = r at *
      rw [← hk] at hp
      have hr1 : r.1.1 = p.length := by rw [hr]
      have hr2 : r.1.2 = none := by rw [hr]
      have hrn : r.2.n = s.n := hkept.n
      have hm : ((done ++ p).take m).length = done.length + p.length := by
        rw [hk, List.length_append]
      obtain ⟨hp', hn', hre', hsi'⟩ := limited_calm hp hr2
        (fun hre => absurd (hkept.reached ▸ hre) hnotreached) (by omega)
      refine ⟨hr2, ⟨?_, hn', hre', hsi', ?_⟩, ?_⟩
      · exact ⟨hp'.sent, hp'.written, hp'.toDiscard, hp'.writeError⟩
      · intro hlt'
        rw [List.length_append] at hlt'
        omega
      · exact (limited_contentLength (r := r)).trans hkept.contentLength

/-! ## A whole CAR -/

/-- What every write keeps holds when the CAR is written; what a failing
write leaves holds else. -/
theorem readCar_runs {write : Bytes → Stack → Wrote} {I : List Bytes → Stack → Prop}
    {Q : Option Err → Stack → Prop} (hnil : ∀ s, I [] s → Q none s)
    (hok : ∀ p ps s, I (p :: ps) s → (write p s).1.2 = none → I ps (write p s).2)
    (herr : ∀ p ps s e, I (p :: ps) s → (write p s).1.2 = some e → Q (some e) (write p s).2) :
    ∀ ps s, I ps s → Q (readCar write ps s).1 (readCar write ps s).2 := by
  intro ps
  induction ps with
  | nil => exact hnil
  | cons p ps ih =>
    intro s h
    have hok' := hok p ps s h
    have herr' := fun e => herr p ps s e h
    unfold readCar
    split
    next hw =>
      rw [hw] at herr'
      exact herr' _ rfl
    next hw =>
      rw [hw] at hok'
      exact ih _ (hok' rfl)

/-- Without a limit, and without failures, the client gets all from `a`
on. -/
theorem readCar_rate_calm (hnet : net.Calm) {car : Bytes} {pieces : List Bytes}
    (h : Passing a [] s) (hcar : pieces.flatten = car)
    (hroom : (car.length - a : ℕ) ≤ s.contentLength) :
    (readCar (Stack.rateWrite net) pieces s).1 = none ∧
      Passing a car (readCar (Stack.rateWrite net) pieces s).2 ∧
      (readCar (Stack.rateWrite net) pieces s).2.contentLength = s.contentLength := by
  refine readCar_runs (I := fun ps t => ∃ done, done ++ ps.flatten = car ∧ Passing a done t ∧
      t.contentLength = s.contentLength)
    (Q := fun e t => e = none ∧ Passing a car t ∧ t.contentLength = s.contentLength)
    ?_ ?_ ?_ pieces s ⟨[], hcar, h, rfl⟩
  · rintro t ⟨done, hdone, hp, hcl⟩
    rw [List.flatten_nil, List.append_nil] at hdone
    exact ⟨rfl, hdone ▸ hp, hcl⟩
  · rintro p ps t ⟨done, hdone, hp, hcl⟩ -
    have hlen := congrArg List.length hdone
    rw [List.flatten_cons, ← List.append_assoc] at hdone
    rw [List.flatten_cons, ← List.append_assoc, List.length_append] at hlen
    obtain ⟨-, hp', hk⟩ := rateWrite_calm (p := p) hnet hp (by omega)
    exact ⟨done ++ p, hdone, hp', hk.contentLength.trans hcl⟩
  · rintro p ps t e ⟨done, hdone, hp, hcl⟩ herr
    have hlen := congrArg List.length hdone
    rw [List.flatten_cons, ← List.append_assoc, List.length_append] at hlen
    obtain ⟨hr, -, -⟩ := rateWrite_calm (p := p) hnet hp (by omega)
    rw [hr] at herr
    exact absurd herr nofun

/-- With one, the client gets what is behind `a` of the first `m` bytes. -/
theorem readCar_limit_calm (hnet : net.Calm) {pieces : List Bytes} (h : Limiting a m [] s)
    (hroom : (m - a : ℕ) ≤ s.contentLength) :
    (readCar (Stack.limitWrite net) pieces s).1 = none ∧
      Limiting a m pieces.flatten (readCar (Stack.limitWrite net) pieces s).2 ∧
      (readCar (Stack.limitWrite net) pieces s).2.contentLength = s.contentLength := by
  refine readCar_runs (I := fun ps t => ∃ done, done ++ ps.flatten = pieces.flatten ∧
      Limiting a m done t ∧ t.contentLength = s.contentLength)
    (Q := fun e t => e = none ∧ Limiting a m pieces.flatten t ∧
      t.contentLength = s.contentLength)
    ?_ ?_ ?_ pieces s ⟨[], rfl, h, rfl⟩
  · rintro t ⟨done, hdone, hp, hcl⟩
    rw [List.flatten_nil, List.append_nil] at hdone
    exact ⟨rfl, hdone ▸ hp, hcl⟩
  · rintro p ps t ⟨done, hdone, hl, hcl⟩ -
    rw [List.flatten_cons, ← List.append_assoc] at hdone
    obtain ⟨-, hl', hcl'⟩ := limitWrite_calm (p := p) hnet hl (hcl.symm ▸ hroom)
    exact ⟨done ++ p, hdone, hl', hcl'.trans hcl⟩
  · rintro p ps t e ⟨done, -, hl, hcl⟩ herr
    obtain ⟨hr, -, -⟩ := limitWrite_calm (p := p) hnet hl (hcl.symm ▸ hroom)
    exact absurd (hr.symm.trans herr) nofun

/-- Without a limit all writes report. -/
theorem readCar_rate_reported {pieces : List Bytes} (h : s.Reported) :
    (readCar (Stack.rateWrite net) pieces s).2.Reported :=
  readCar_runs (I := fun _ => Stack.Reported) (Q := fun _ => Stack.Reported) (fun _ => id)
    (fun _ _ _ h _ => rateWrite_ok.reported h) (fun _ _ _ _ h _ => rateWrite_ok.reported h)
    pieces s h

/-- So do they with a limit that is not passed. -/
theorem readCar_limit_reported {pieces : List Bytes} (h : s.Reported)
    (hn : s.n = pieces.flatten.length) (hreached : s.reached → s.n ≤ 0) :
    (readCar (Stack.limitWrite net) pieces s).2.Reported := by
  refine readCar_runs (I := fun ps t => t.Reported ∧ t.n = ps.flatten.length ∧
    (t.reached → t.n ≤ 0)) (Q := fun _ => Stack.Reported) ?_ ?_ ?_ pieces s ⟨h, hn, hreached⟩
  · rintro t ⟨hrep, -, -⟩
    exact hrep
  · rintro p ps t ⟨hrep, hn, hreached⟩ hnone
    rw [List.flatten_cons, List.length_append] at hn
    obtain ⟨hrep', hall⟩ := limitWrite_within (p := p) (by omega) hreached hrep
    obtain ⟨hn', hreached'⟩ := hall hnone
    exact ⟨hrep', by omega, hreached'⟩
  · rintro p ps t e ⟨hrep, hn, hreached⟩ -
    rw [List.flatten_cons, List.length_append] at hn
    exact (limitWrite_within (by omega) hreached hrep).1

/-! ## Ranges -/

/-- Bytes `a` to `b` of a CAR; all from `a` on without a `b`. -/
def rangeOf (car : Bytes) (a : ℕ) : Option ℕ → Bytes
  | none => car.drop a
  | some b => (car.take (b + 1)).drop a

/-- `toLimit` of a range. -/
def limitOf : Option ℕ → ℤ
  | none => -1
  | some b => b

/-- **A request for a range is served**: when no write fails the client gets
the range, of the announced length; however writes fail, the discarding and
the limiting writer report what they do not accept. -/
structure Serves (pieces : List Bytes) (text header : Bytes) (a : ℕ) (b : Option ℕ) : Prop where
  sends : ∀ net : Net, net.Calm → ∃ s, handleCarRequest net pieces text header = some s ∧
    s.sent = rangeOf pieces.flatten a b ∧ s.contentLength = s.sent.length
  reports : ∀ (net : Net) (s : Stack), handleCarRequest net pieces text header = some s →
    s.Reported

variable {pieces : List Bytes} {text header : Bytes} {b : Option ℕ}

/-- What a served request writes is what was written of the CAR. -/
theorem serveCar_of_none {toDiscard toLimit : ℤ} {e : Option Err × Stack}
    (he : readCar (writerToUse net toLimit) pieces
      (Stack.start pieces.flatten.length toDiscard toLimit) = e) (hnone : e.1 = none) :
    serveCar net pieces text toDiscard toLimit = e.2 := by
  unfold serveCar
  rw [he]
  obtain ⟨e, s⟩ := e
  rw [show e = none from hnone]

theorem serveCar_reported {toDiscard toLimit : ℤ} {e : Option Err × Stack}
    (he : readCar (writerToUse net toLimit) pieces
      (Stack.start pieces.flatten.length toDiscard toLimit) = e) (hrep : e.2.Reported) :
    (serveCar net pieces text toDiscard toLimit).Reported := by
  unfold serveCar
  rw [he]
  obtain ⟨_ | e, s⟩ := e
  · exact hrep
  · exact respWrite_ok.reported hrep

theorem handleCarRequest_eq (hheader : parseRange header = some ((a : ℤ), limitOf b)) :
    handleCarRequest net pieces text header =
      some (serveCar net pieces text a (limitOf b)) := by
  rw [handleCarRequest, hheader]
  rfl

theorem writerToUse_none : writerToUse net (limitOf none) = Stack.rateWrite net :=
  if_neg fun h => h rfl

theorem writerToUse_some {x : ℕ} : writerToUse net (limitOf (some x)) = Stack.limitWrite net :=
  if_pos fun h => absurd h (by change (x : ℤ) ≠ -1; omega)

theorem start_passing {size toLimit : ℤ} : Passing a [] (Stack.start size a toLimit) :=
  ⟨(List.drop_nil).symm, (Nat.zero_sub a).symm, rfl, rfl⟩

theorem start_reported {size toDiscard toLimit : ℤ} :
    (Stack.start size toDiscard toLimit).Reported := fun _ hc => absurd hc List.not_mem_nil

/-- A range without an end is served. -/
theorem serves_open (hheader : parseRange header = some ((a : ℤ), limitOf none))
    (ha : a < pieces.flatten.length) : Serves pieces text header a none := by
  have hroom : ((pieces.flatten.length - a : ℕ) : ℤ) = (pieces.flatten.length : ℤ) - a := by omega
  refine ⟨fun net hnet => ⟨_, handleCarRequest_eq hheader, ?_⟩, fun net s hs => ?_⟩
  · obtain ⟨hnone, hp, hcl⟩ := readCar_rate_calm
      (s := Stack.start pieces.flatten.length a (limitOf none)) hnet start_passing rfl
      (le_of_eq hroom)
    rw [← writerToUse_none] at hnone hp hcl
    rw [serveCar_of_none rfl hnone, hp.sent, hcl, List.length_drop]
    exact ⟨rfl, hroom.symm⟩
  · rw [handleCarRequest_eq hheader, Option.some_inj] at hs
    rw [← hs]
    refine serveCar_reported rfl ?_
    rw [writerToUse_none]
    exact readCar_rate_reported start_reported

/-- What a range with an end is answered with: as many bytes as were
announced are let through, before the first are dropped. -/
theorem serveCar_limit_calm {x : ℕ} (hnet : net.Calm) (hax : a ≤ x) :
    let s := serveCar net pieces text a (limitOf (some x))
    Limiting a (x - a + 1) pieces.flatten s ∧ s.contentLength = (x - a + 1 : ℕ) := by
  have hlimit : (x : ℤ) - a + 1 = (x - a + 1 : ℕ) := by omega
  have hcl : (Stack.start pieces.flatten.length a (limitOf (some x))).contentLength =
      (x - a + 1 : ℕ) := by
    change (if (x : ℤ) ≠ -1 then (x : ℤ) - a + 1 else (pieces.flatten.length : ℤ) - a) = _
    rw [if_pos (by omega), hlimit]
  have hstart : Limiting a (x - a + 1) []
      (Stack.start pieces.flatten.length a (limitOf (some x))) := by
    refine ⟨start_passing, hlimit, nofun, fun hle => ?_, fun hlt => absurd hlt (Nat.not_lt_zero _)⟩
    change (x : ℤ) - a + 1 ≤ 0 at hle
    omega
  obtain ⟨hnone, hlim, hcl'⟩ := readCar_limit_calm hnet hstart (by omega)
  rw [← writerToUse_some (x := x)] at hnone hlim hcl'
  dsimp only
  rw [serveCar_of_none rfl hnone]
  exact ⟨hlim, hcl'.trans hcl⟩

/-- The range that is the whole CAR is served. -/
theorem serves_whole {x : ℕ} (hheader : parseRange header = some (((0 : ℕ) : ℤ), limitOf (some x)))
    (hx : x + 1 = pieces.flatten.length) : Serves pieces text header 0 (some x) := by
  refine ⟨fun net hnet => ⟨_, handleCarRequest_eq hheader, ?_⟩, fun net s hs => ?_⟩
  · obtain ⟨hlim, hcl⟩ := serveCar_limit_calm hnet
      (Nat.zero_le x)
    rw [hlim.passing.sent, hcl, Nat.sub_zero, List.drop_zero, List.length_take, rangeOf,
      List.drop_zero]
    exact ⟨rfl, by omega⟩
  · rw [handleCarRequest_eq hheader, Option.some_inj] at hs
    rw [← hs]
    refine serveCar_reported rfl ?_
    rw [writerToUse_some]
    refine readCar_limit_reported start_reported ?_ nofun
    change (x : ℤ) - (0 : ℕ) + 1 = _
    omega

/-- **When ranges are served**: those without an end, and the whole CAR.
Others are cut at their length before the first bytes are dropped, and the
limiting writer reports the write that reaches the limit as one without an
error. -/
theorem range_served_iff (hheader : parseRange header = some ((a : ℤ), limitOf b))
    (ha : a < pieces.flatten.length) (hb : ∀ x ∈ b, a ≤ x ∧ x < pieces.flatten.length) :
    Serves pieces text header a b ↔ b = none ∨ a = 0 ∧ b = some (pieces.flatten.length - 1) := by
  constructor
  · intro h
    cases b with
    | none => exact Or.inl rfl
    | some x =>
      obtain ⟨hax, hx⟩ := hb x rfl
      refine Or.inr ?_
      by_contra hne
      -- a calm connection, on which the limiting writer is silent
      let net : Net := ⟨fun _ => none, fun _ => false⟩
      have hnet : net.Calm := ⟨fun _ => rfl, fun _ => rfl⟩
      obtain ⟨hlim, -⟩ := serveCar_limit_calm hnet hax
      refine hlim.unreported ?_ (h.reports net _ (handleCarRequest_eq hheader))
      by_contra hle
      exact hne ⟨by omega, by rw [show x = pieces.flatten.length - 1 by omega]⟩
  · rintro (rfl | ⟨rfl, rfl⟩)
    · exact serves_open hheader ha
    · exact serves_whole hheader (by omega)

/-- `"bytes=1-2"`, and without the end. -/
def oneToTwo : Bytes := bytesUnit ++ [0x3d, 0x31, 0x2d, 0x32]

def fromOne : Bytes := bytesUnit ++ [0x3d, 0x31, 0x2d]

theorem range_served_fromOne : Serves [[5, 6], [7, 8]] [] fromOne 1 none :=
  (range_served_iff (by decide) (by decide) (by simp)).mpr (Or.inl rfl)

/-- One byte of the two is sent, and no error is returned. -/
theorem range_not_served :
    parseRange oneToTwo = some (1, 2) ∧ ¬ Serves [[5, 6, 7, 8]] [] oneToTwo 1 (some 2) := by
  refine ⟨by decide, fun h => ?_⟩
  obtain ⟨s, hs, hsent, -⟩ := h.sends ⟨fun _ => none, fun _ => false⟩ ⟨fun _ => rfl, fun _ => rfl⟩
  have hsent' : (handleCarRequest ⟨fun _ => none, fun _ => false⟩ [[5, 6, 7, 8]] []
      oneToTwo).map Stack.sent = some [6] := by decide
  rw [hs, Option.map_some, Option.some_inj, hsent] at hsent'
  exact absurd hsent' (by decide)

end Rbdeal

end Ribs
