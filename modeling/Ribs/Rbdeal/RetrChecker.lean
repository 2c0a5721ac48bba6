import Mathlib.Logic.Function.Basic
import Ribs.Bsst.Format
import Ribs.Common.Runs
import Ribs.Rbstor.PebbleIndex
/-!
# Rbdeal — probing deals for retrieval

`doRetrievalCheck` draws a hash from the sample of a deal's group and
starts a probe of the deal for it, up to thirty at a time. Lassie learns
whom to ask from `lookups`, which is keyed by the hash alone: the loop looks
whether the hash is there, the probe enters it, and takes it out again, each
under the lock and none under the same.
-/

namespace Ribs

open Common
open Bsst (Multihash)
open Rbstor (GroupKey)

namespace Rbdeal

structure RetrCheckCandidate where
  dealID : String
  provider : ℤ
  group : GroupKey
  verified : Bool
  fastRetr : Bool
deriving DecidableEq

/-- `types.RetrievalCandidate`, with its graphsync metadata. -/
structure RetrievalCandidate where
  minerPeer : String
  rootCid : Multihash
  pieceCid : Bytes
  verifiedDeal : Bool
  fastRetrieval : Bool
deriving DecidableEq

/-- What the checker uses of `ProviderAddrInfo`: the peer of the libp2p
addresses, and whether there are HTTP ones. -/
structure ProviderAddrs where
  peer : String
  hasHttp : Bool

structure RetrievalResult where
  success : Bool
  error : String
deriving DecidableEq

/-- Where a probe is. -/
inductive ProbeAt where
  | http
  /-- At the label `lassie`. -/
  | lassie
  /-- Before the entry in `lookups`. -/
  | registering
  /-- In `lsi.Fetch`. -/
  | fetching
  /-- Before the entry goes. -/
  | removing (res : RetrievalResult)
  | recording (res : RetrievalResult)
  /-- Before the slot of `checkThrottle` is free. -/
  | leaving
  | done
deriving DecidableEq

/-- **A call of `retrievalCheckCandidate`**. -/
structure Probe where
  candidate : RetrCheckCandidate
  hasHttp : Bool
  cidToGet : Multihash
  pieceCid : Bytes
  cs : List RetrievalCandidate
  at_ : ProbeAt := .http
  /-- What lassie was told for it by `FindCandidates`. -/
  found : List (List RetrievalCandidate) := []
  recorded : Option RetrievalResult := none

/-- Where the loop is. -/
inductive LoopAt where
  | idle
  | head
  /-- At the label `retryGetSample`. -/
  | sampling
  /-- Before the look into `lookups`. -/
  | looking (hash : Multihash)
  | preparing (hash : Multihash)
  /-- At `checkThrottle <-`. -/
  | starting (hash : Multihash)
  /-- In the loop behind, with so many slots taken. -/
  | draining (taken : ℕ)

/-- The checker, its probes by number, and what they share. -/
structure Checks where
  /-- The candidates that are left, the one at hand first. -/
  candidates : List RetrCheckCandidate
  samples : GroupKey → List Multihash
  pieceCid : GroupKey → Bytes
  at_ : LoopAt
  /-- The slots taken of `checkThrottle`. -/
  throttle : ℕ
  probes : ℕ → Option Probe
  started : ℕ
  lookups : Multihash → Option (List RetrievalCandidate)

inductive CheckEvent where
  /-- `doRetrievalCheck` is called, and reads what it needs. -/
  | check (candidates : List RetrCheckCandidate) (samples : GroupKey → List Multihash)
      (pieceCid : GroupKey → Bytes)
  /-- A step of the loop: the draw, and whether the provider is to be probed
  and its addresses are to be had. -/
  | loop (draw : ℕ) (ok : Bool)
  /-- A step of a probe, and the error of the attempt or the statement. -/
  | probe (j : ℕ) (err : Option String)
  /-- Lassie calls `FindCandidates` for a probe. -/
  | find (j : ℕ)

def parallelChecks : ℕ := 30

/-- The candidate that lassie is to ask for a deal. -/
def RetrCheckCandidate.asks (addrs : ℤ → ProviderAddrs) (c : RetrCheckCandidate)
    (hash : Multihash) (pieceCid : Bytes) : RetrievalCandidate where
  minerPeer := (addrs c.provider).peer
  rootCid := hash
  pieceCid := pieceCid
  verifiedDeal := c.verified
  fastRetrieval := c.fastRetr

namespace Checks

/-- Nothing was checked yet. -/
def start : Checks := ⟨[], fun _ => [], fun _ => [], .idle, 0, fun _ => none, 0, fun _ => none⟩

/-- `FindCandidates`. -/
def findCandidates (s : Checks) (hash : Multihash) : List RetrievalCandidate :=
  (s.lookups hash).getD []

def set (j : ℕ) (q : Probe) (s : Checks) : Checks :=
  { s with probes := Function.update s.probes j (some q) }

def lookup (hash : Multihash) (cs : Option (List RetrievalCandidate)) (s : Checks) : Checks :=
  { s with lookups := Function.update s.lookups hash cs }

/-- The loop goes on with the next candidate. -/
def skip (s : Checks) : Checks := { s with at_ := .head, candidates := s.candidates.tail }

/-- A draw from the sample of the candidate's group. -/
def sample (draw : ℕ) (s : Checks) : Checks :=
  match s.candidates with
  | [] => s
  | c :: _ =>
    match (s.samples c.group)[draw]? with
    | some hash => { s with at_ := .looking hash }
    | none => s

/-- `checkThrottle <-`, and the probe behind it. -/
def startProbe (addrs : ℤ → ProviderAddrs) (hash : Multihash) (s : Checks) : Checks :=
  match s.candidates with
  | [] => s
  | c :: _ =>
    if s.throttle < parallelChecks then
      (({ s with throttle := s.throttle + 1, started := s.started + 1 } : Checks).set s.started
        { candidate := c
          hasHttp := (addrs c.provider).hasHttp
          cidToGet := hash
          pieceCid := s.pieceCid c.group
          cs := [c.asks addrs hash (s.pieceCid c.group)] }).skip
    else s

/-- The loop behind the candidates, which waits for the probes. -/
def drain (taken : ℕ) (s : Checks) : Checks :=
  -- the loop takes the slots of the probes, one by one
  if s.throttle < parallelChecks then
    if taken + 1 < parallelChecks then
      { s with at_ := .draining (taken + 1), throttle := s.throttle + 1 }
    else { s with at_ := .idle, throttle := 0 }
  else s

/-- A step of the loop of `doRetrievalCheck`. -/
def loop (addrs : ℤ → ProviderAddrs) (draw : ℕ) (ok : Bool) (s : Checks) : Checks :=
  match s.at_ with
  | .idle => s
  | .head =>
    if s.candidates = [] then { s with at_ := .draining 0 }
    else if ok then { s with at_ := .sampling }
    else s.skip
  | .sampling => s.sample draw
  | .looking hash =>
    -- a hash that is being looked up is drawn again
    if s.lookups hash = none then { s with at_ := .preparing hash } else { s with at_ := .sampling }
  | .preparing hash => if ok then { s with at_ := .starting hash } else s.skip
  | .starting hash => s.startProbe addrs hash
  | .draining taken => s.drain taken

/-- A step of `retrievalCheckCandidate`. `allowLassie` is the environment's. -/
def probe (allowLassie : Bool) (j : ℕ) (err : Option String) (q : Probe) (s : Checks) : Checks :=
  match q.at_ with
  | .http =>
    if q.hasHttp ∧ err = none then s.set j { q with at_ := .recording ⟨true, ""⟩ }
    else s.set j { q with at_ := .lassie }
  | .lassie =>
    if allowLassie then s.set j { q with at_ := .registering }
    else s.set j { q with at_ := .recording ⟨false, "no http addrs, and lassie disabled"⟩ }
  | .registering => (s.lookup q.cidToGet (some q.cs)).set j { q with at_ := .fetching }
  | .fetching =>
    match err with
    | none => s.set j { q with at_ := .removing ⟨true, ""⟩ }
    | some e => s.set j { q with at_ := .removing ⟨false, e⟩ }
  | .removing res => (s.lookup q.cidToGet none).set j { q with at_ := .recording res }
  -- an error of the database is only logged
  | .recording res =>
    s.set j { q with at_ := .leaving, recorded := if err = none then some res else none }
  | .leaving => { s.set j { q with at_ := .done } with throttle := s.throttle - 1 }
  | .done => s

/-- Lassie calls `FindCandidates` in the `Fetch` of a probe. -/
def find (j : ℕ) (q : Probe) (s : Checks) : Checks :=
  if q.at_ = .fetching then s.set j { q with found := q.found ++ [s.findCandidates q.cidToGet] }
  else s

/-- An event of a probe that was not started is none. -/
def onProbe (j : ℕ) (f : Probe → Checks → Checks) (s : Checks) : Checks :=
  match s.probes j with
  | some q => f q s
  | none => s

def next (addrs : ℤ → ProviderAddrs) (allowLassie : Bool) (s : Checks) : CheckEvent → Checks
  | .check candidates samples pieceCid =>
    match s.at_ with
    | .idle =>
      { s with
        at_ := .head
        candidates := candidates
        samples := samples
        pieceCid := pieceCid
        throttle := 0 }
    | _ => s
  | .loop draw ok => s.loop addrs draw ok
  | .probe j err => s.onProbe j (probe allowLassie j err)
  | .find j => s.onProbe j (find j)

end Checks

/-! ## What is promised -/

/-- The candidate of the provider of the probe's deal. -/
def Probe.own (addrs : ℤ → ProviderAddrs) (q : Probe) : RetrievalCandidate :=
  q.candidate.asks addrs q.cidToGet q.pieceCid

namespace Checks

/-- **Probes are attributed to the right deal.** -/
structure Attributed (addrs : ℤ → ProviderAddrs) (s : Checks) : Prop where
  /-- At most one `Fetch` of a hash runs. -/
  one : ∀ i j p q, s.probes i = some p → s.probes j = some q → p.at_ = .fetching →
    q.at_ = .fetching → p.cidToGet = q.cidToGet → i = j
  /-- While it runs, its deal's provider is who is found. -/
  finds : ∀ j q, s.probes j = some q → q.at_ = .fetching →
    s.findCandidates q.cidToGet = [q.own addrs]
  /-- Whoever was asked for a deal is its provider. -/
  asked : ∀ j q, s.probes j = some q → ∀ l ∈ q.found, l = [q.own addrs]

/-- No probe enters a hash into `lookups`, or takes it out, while the `Fetch`
of another probe for this hash runs. -/
def Alone (s : Checks) : CheckEvent → Prop
  | .probe j _ => ∀ q, s.probes j = some q → (q.at_ = .registering ∨ ∃ res, q.at_ = .removing res) →
    ∀ i p, s.probes i = some p → p.at_ = .fetching → p.cidToGet ≠ q.cidToGet
  | _ => True

/-! ## Why -/

variable {addrs : ℤ → ProviderAddrs} {allowLassie : Bool} {s s' : Checks} {q q' : Probe}
variable {i j : ℕ} {e : CheckEvent}

/-- What holds of a probe, and of its entry while its `Fetch` runs. -/
structure ProbeOk (addrs : ℤ → ProviderAddrs) (s : Checks) (q : Probe) : Prop where
  cs : q.cs = [q.own addrs]
  entered : q.at_ = .fetching → s.lookups q.cidToGet = some q.cs
  asked : ∀ l ∈ q.found, l = [q.own addrs]

structure Inv (addrs : ℤ → ProviderAddrs) (s : Checks) : Prop where
  probes : ∀ j q, s.probes j = some q → ProbeOk addrs s q
  one : ∀ i j p q, s.probes i = some p → s.probes j = some q → p.at_ = .fetching →
    q.at_ = .fetching → p.cidToGet = q.cidToGet → i = j

theorem start_inv : Inv addrs start where
  probes j q hj := by simp [start] at hj
  one i j p q hi := by simp [start] at hi

theorem Inv.attributed (h : Inv addrs s) : Attributed addrs s where
  one := h.one
  finds j q hj hat := by
    have hok := h.probes j q hj
    rw [findCandidates, hok.entered hat, Option.getD_some, hok.cs]
  asked j q hj := (h.probes j q hj).asked

@[simp] theorem set_probes_self : (s.set j q).probes j = some q := Function.update_self ..

theorem set_probes_of_ne (hij : i ≠ j) : (s.set j q).probes i = s.probes i :=
  Function.update_of_ne hij ..

/-- **The invariant survives a step of the probe `j`** that leaves the entries
of the others' running fetches alone. -/
theorem Inv.moves (h : Inv addrs s) (hprobes : s'.probes = Function.update s.probes j (some q'))
    (hlookups : ∀ i p, i ≠ j → s.probes i = some p → p.at_ = .fetching →
      s'.lookups p.cidToGet = s.lookups p.cidToGet)
    (hok : ProbeOk addrs s' q')
    (hone : ∀ i p, i ≠ j → s.probes i = some p → p.at_ = .fetching → q'.at_ = .fetching →
      p.cidToGet ≠ q'.cidToGet) : Inv addrs s' := by
  have hself : s'.probes j = some q' := by rw [hprobes, Function.update_self]
  have hother : ∀ i, i ≠ j → s'.probes i = s.probes i := fun i hij => by
    rw [hprobes, Function.update_of_ne hij]
  refine ⟨fun i p hi => ?_, fun i k p q hi hk hp hq hcid => ?_⟩
  · by_cases hij : i = j
    · subst hij
      obtain rfl := Option.some.inj (hself.symm.trans hi)
      exact hok
    · rw [hother i hij] at hi
      have hp := h.probes i p hi
      refine ⟨hp.cs, fun hat => ?_, hp.asked⟩
      rw [hlookups i p hij hi hat, hp.entered hat]
  · by_cases hij : i = j
    · subst hij
      obtain rfl := Option.some.inj (hself.symm.trans hi)
      by_contra hne
      rw [hother k (Ne.symm hne)] at hk
      exact hone k q (Ne.symm hne) hk hq hp hcid.symm
    · rw [hother i hij] at hi
      by_cases hkj : k = j
      · subst hkj
        obtain rfl := Option.some.inj (hself.symm.trans hk)
        exact absurd hcid (hone i p hij hi hp hq)
      · rw [hother k hkj] at hk
        exact h.one i k p q hi hk hp hq hcid

/-- A step that leaves the probes and their entries alone. -/
theorem Inv.quiet (h : Inv addrs s) (hprobes : s'.probes = s.probes)
    (hlookups : s'.lookups = s.lookups) : Inv addrs s' := by
  refine ⟨fun j q hj => ?_, by rw [hprobes]; exact h.one⟩
  rw [hprobes] at hj
  have hq := h.probes j q hj
  refine ⟨hq.cs, ?_, hq.asked⟩
  rw [hlookups]
  exact hq.entered

/-- A probe goes on, and is in no `Fetch` behind that. -/
theorem Inv.goto (h : Inv addrs s) (hj : s.probes j = some q) {at_ : ProbeAt}
    {recorded : Option RetrievalResult} (hat : at_ ≠ .fetching) :
    Inv addrs (s.set j { q with at_ := at_, recorded := recorded }) := by
  have hq := h.probes j q hj
  exact h.moves rfl (fun _ _ _ _ _ => rfl) ⟨hq.cs, fun h => absurd h hat, hq.asked⟩
    fun _ _ _ _ _ h => absurd h hat

theorem startProbe_inv (h : Inv addrs s) (hash : Multihash) :
    Inv addrs (s.startProbe addrs hash) := by
  unfold startProbe
  split
  · exact h
  · split
    · exact h.moves (j := s.started) rfl (fun _ _ _ _ _ => rfl) ⟨rfl, nofun, nofun⟩
        fun _ _ _ _ _ => nofun
    · exact h

theorem loop_inv (h : Inv addrs s) (draw : ℕ) (ok : Bool) : Inv addrs (s.loop addrs draw ok) := by
  unfold loop
  split
  · exact h
  · split
    · exact h.quiet rfl rfl
    · split <;> exact h.quiet rfl rfl
  · unfold sample
    split
    · exact h
    · split
      · exact h.quiet rfl rfl
      · exact h
  · split <;> exact h.quiet rfl rfl
  · split <;> exact h.quiet rfl rfl
  · exact startProbe_inv h _
  · unfold drain
    split
    · split <;> exact h.quiet rfl rfl
    · exact h

/-- **A step of a probe** that is alone with its hash when it enters it or
takes it out. -/
theorem probe_inv (h : Inv addrs s) (hj : s.probes j = some q) {err : Option String}
    (halone : Alone s (.probe j err)) : Inv addrs (s.probe allowLassie j err q) := by
  have hq := h.probes j q hj
  have hlookup : ∀ {cs} {p : Probe} {i : ℕ}, s.probes i = some p → p.at_ = .fetching →
      (q.at_ = .registering ∨ ∃ res, q.at_ = .removing res) →
      (s.lookup q.cidToGet cs).lookups p.cidToGet = s.lookups p.cidToGet :=
    fun {cs p i} hi hp hat => Function.update_of_ne (halone q hj hat i p hi hp) ..
  unfold probe
  split
  · split <;> exact h.goto hj nofun
  · split <;> exact h.goto hj nofun
  · rename_i hat
    refine h.moves (j := j) rfl (fun i p _ hi hp => hlookup hi hp (.inl hat))
      ⟨hq.cs, fun _ => Function.update_self .., hq.asked⟩ fun i p _ hi hp _ => ?_
    exact halone q hj (.inl hat) i p hi hp
  · split <;> exact h.goto hj nofun
  · rename_i res hat
    exact h.moves (j := j) rfl (fun i p _ hi hp => hlookup hi hp (.inr ⟨res, hat⟩))
      ⟨hq.cs, nofun, hq.asked⟩ fun _ _ _ _ _ => nofun
  · exact h.goto hj nofun
  · exact Inv.quiet (s := s.set j { q with at_ := .done }) (h.goto hj nofun) rfl rfl
  · exact h

theorem find_inv (h : Inv addrs s) (hj : s.probes j = some q) : Inv addrs (s.find j q) := by
  have hq := h.probes j q hj
  unfold find
  split
  · rename_i hat
    refine h.moves (j := j) rfl (fun _ _ _ _ _ => rfl) ⟨hq.cs, hq.entered, fun l hl => ?_⟩
      fun i p hij hi hp _ hcid => hij (h.one i j p q hi hj hp hat hcid)
    rcases List.mem_append.mp hl with hl | hl
    · exact hq.asked l hl
    · rw [List.mem_singleton.mp hl]
      exact h.attributed.finds j q hj hat
  · exact h

theorem onProbe_inv (h : Inv addrs s) {f : Probe → Checks → Checks}
    (hf : ∀ q, s.probes j = some q → Inv addrs (f q s)) : Inv addrs (s.onProbe j f) := by
  unfold onProbe
  split
  · rename_i q hq
    exact hf q hq
  · exact h

/-- **An event that is alone keeps the invariant.** -/
theorem next_inv (h : Inv addrs s) (he : Alone s e) : Inv addrs (s.next addrs allowLassie e) := by
  cases e with
  | check candidates samples pieceCid =>
    simp only [next]
    split
    · exact h.quiet rfl rfl
    · exact h
  | loop draw ok => exact loop_inv h draw ok
  | probe j err => exact onProbe_inv h fun q hj => probe_inv h hj he
  | find j => exact onProbe_inv h fun q hj => find_inv h hj

/-- **One that is not** has two fetches of a hash run, or leaves one without
its entry. -/
theorem next_not_attributed (he : ¬ Alone s e) :
    ¬ Attributed addrs (s.next addrs allowLassie e) := by
  intro hbad
  cases e with
  | probe j err =>
    unfold Alone at he
    push Not at he
    obtain ⟨q, hj, hat, i, p, hi, hp, hcid⟩ := he
    have hij : i ≠ j := by
      rintro rfl
      obtain rfl := Option.some.inj (hi.symm.trans hj)
      rcases hat with hat | ⟨res, hat⟩ <;> exact absurd (hp.symm.trans hat) nofun
    rcases hat with hat | ⟨res, hat⟩
    · have hnext : s.next addrs allowLassie (.probe j err) =
          (s.lookup q.cidToGet (some q.cs)).set j { q with at_ := .fetching } := by
        simp only [next, onProbe, hj, probe, hat]
      rw [hnext] at hbad
      have hi' := (set_probes_of_ne (q := { q with at_ := .fetching })
        (s := s.lookup q.cidToGet (some q.cs)) hij).trans hi
      exact hij (hbad.one i j p _ hi' set_probes_self hp rfl hcid)
    · have hnext : s.next addrs allowLassie (.probe j err) =
          (s.lookup q.cidToGet none).set j { q with at_ := .recording res } := by
        simp only [next, onProbe, hj, probe, hat]
      rw [hnext] at hbad
      have hi' := (set_probes_of_ne (q := { q with at_ := .recording res })
        (s := s.lookup q.cidToGet none) hij).trans hi
      have hfinds := hbad.finds i p hi' hp
      rw [hcid] at hfinds
      have hnone : (s.lookup q.cidToGet none).findCandidates q.cidToGet = [] := by
        simp [findCandidates, lookup]
      exact absurd (hnone.symm.trans hfinds) nofun
  | _ => exact he trivial

/-- The state behind the events, from where nothing was checked yet. -/
abbrev run (addrs : ℤ → ProviderAddrs) (allowLassie : Bool) (es : List CheckEvent) : Checks :=
  runEvents (next addrs allowLassie) start es

/-- **Probes are attributed to the right deal exactly where** none enters a
hash into `lookups` or takes it out while lassie fetches this hash for
another. The look of the loop does not see to it: a probe enters its hash
only behind it. -/
theorem attributed_iff (addrs : ℤ → ProviderAddrs) (allowLassie : Bool) (es : List CheckEvent) :
    (∀ es', es' <+: es → Attributed addrs (run addrs allowLassie es')) ↔
      Always (next addrs allowLassie) Alone start es :=
  (always_iff_throughout (fun _ _ => next_inv) (fun _ h => h.attributed)
    (fun _ _ _ he => next_not_attributed he) start_inv).symm

/-! ## Two deals, one hash -/

/-- Two providers without an HTTP address. -/
def twoPeers (provider : ℤ) : ProviderAddrs := ⟨if provider = 1 then "one" else "two", false⟩

/-- Two deals of a group draw the same hash before the first probe has entered
it. Both enter it, and lassie asks the second's provider for the first. -/
def sameHash : List CheckEvent :=
  [.check [⟨"a", 1, 5, true, true⟩, ⟨"b", 2, 5, true, true⟩] (fun _ => [[7]]) (fun _ => [9])] ++
    List.replicate 10 (.loop 0 true) ++
    [.probe 0 none, .probe 1 none, .probe 0 none, .probe 1 none, .probe 0 none, .probe 1 none,
      .find 0, .probe 0 none, .probe 0 none, .probe 0 none]

/-- The success recorded for the first deal is of the second's provider. -/
theorem not_attributed_sameHash : ¬ Attributed twoPeers (run twoPeers true sameHash) := by
  intro h
  have hprobe : ((run twoPeers true sameHash).probes 0).map
      (fun q => (q.found.map (·.map (·.minerPeer)), (q.own twoPeers).minerPeer, q.recorded)) =
      some ([["two"]], "one", some ⟨true, ""⟩) := by decide +kernel
  obtain ⟨q, hq, heq⟩ := Option.map_eq_some_iff.mp hprobe
  obtain ⟨hfound, heq⟩ := Prod.mk.inj heq
  obtain ⟨hown, -⟩ := Prod.mk.inj heq
  obtain ⟨l, hl, hpeer⟩ : ∃ l ∈ q.found, l.map (·.minerPeer) = ["two"] := by
    rw [← List.mem_map, hfound]
    exact List.mem_singleton.mpr rfl
  rw [h.asked 0 q hq l hl, List.map_singleton, hown] at hpeer
  exact absurd hpeer (by decide)

end Checks

end Rbdeal

end Ribs
