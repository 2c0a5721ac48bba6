import Ribs.Common.Prog
import Ribs.Rbdeal.DealProviders
import Ribs.Rbdeal.ChunkSize
/-!
# Rbdeal — extending claims

Once a day the claims that do not run for as long as they may are
extended. Their terms go into messages of up to a thousand, in the order
the maps are visited in. A message that would take too much gas is given
up for two with half of the terms each. `mkMessage` has fuel: it ends when
the terms run out of halves before the fuel is used up.
-/

namespace Ribs

open Common

namespace Rbdeal

/-! ## Claims and messages -/

/-- `verifreg.Claim`, with what the cycle reads of it. -/
structure VerifiedClaim where
  client : ℕ
  termMax : ℤ
deriving DecidableEq

/-- `verifreg.ClaimTerm`. -/
structure ClaimTerm where
  provider : ℕ
  claimId : ℕ
  termMax : ℤ
deriving DecidableEq

/-- A message of `ExtendClaimTerms`. -/
structure ExtendMessage where
  terms : List ClaimTerm
  nonce : ℕ
  gasLimit : ℤ
deriving DecidableEq

/-- What `GasEstimateMessageGas` answers: the message with its gas limit,
or the text of an error and no message. -/
inductive GasEstimate where
  | ok (gasLimit : ℤ)
  | error (text : String)
deriving DecidableEq

inductive ExtendErr where
  /-- "getting nonce". -/
  | gettingNonce
  /-- "getting claims". -/
  | gettingClaims
  | newIDAddress
  | serializeParams
  /-- "signing message". -/
  | signing
  /-- "push". -/
  | push
  /-- "waiting for message". -/
  | waiting
  /-- "message failed", with its exit code. -/
  | failed (exitCode : ℤ)

/-- A cycle under way: its nonce, and for the record the messages that
were estimated, with the answer, and those that were pushed. -/
structure Extending where
  nonce : ℕ
  estimated : List (ExtendMessage × GasEstimate)
  pushed : List ExtendMessage
deriving DecidableEq

/-- **What a cycle runs against.** The maps of claims are visited in
orders that are not known, and the gateway may answer by all that went
before. -/
structure Gateway where
  /-- The ID of the client's address. -/
  client : ℕ
  /-- `MaximumVerifiedAllocationTerm`. -/
  tmax : ℤ
  /-- `BlockGasLimit`. -/
  blockGasLimit : ℤ
  /-- `RIBS_SEND_EXTENDS` is `"1"`. -/
  sendExtends : Bool
  /-- The claims of a provider. -/
  claims : ℕ → List (ℕ × VerifiedClaim)
  nodup : ∀ prov, ((claims prov).map Prod.fst).Nodup
  provOrder : Shuffle (ℕ × List (ℕ × VerifiedClaim))
  claimOrder : Shuffle (ℕ × VerifiedClaim)
  gwNonce : Extending → ℕ
  estimate : Extending → ExtendMessage → GasEstimate
  exitCode : Extending → ℤ

namespace Gateway

variable (c : Gateway)

/-- `build.BlockGasLimit*4/5`. -/
def gasBound : ℤ := (c.blockGasLimit * 4).tdiv 5

/-- `claimOurs`, for the claims of a provider. -/
def ours (prov : ℕ) : List (ℕ × VerifiedClaim) :=
  (c.claims prov).filter fun e => e.2.client = c.client

end Gateway

/-- `strings.Contains(err.Error(), "call ran out of gas")`. -/
def ranOutOfGas (text : String) : Bool :=
  decide ("call ran out of gas".toList <:+: text.toList)

/-- `m.GasLimit * 10 / 9`, an `int64`. -/
def overestimate (m : ExtendMessage) : ExtendMessage :=
  { m with gasLimit := (int64 (m.gasLimit * 10)).tdiv 9 }

namespace Extending

variable (c : Gateway)

/-- `if gwNonce > nonce { nonce = gwNonce }`. -/
def raiseNonce (s : Extending) : Extending := { s with nonce := max s.nonce (c.gwNonce s) }

/-- What `mkMessage` makes of the terms. -/
def message (s : Extending) (terms : List ClaimTerm) : ExtendMessage := ⟨terms, s.nonce, 0⟩

def recordEstimate (m : ExtendMessage) (s : Extending) : Extending :=
  { s with estimated := s.estimated ++ [(m, c.estimate s m)] }

def recordPush (m : ExtendMessage) (s : Extending) : Extending :=
  { s with pushed := s.pushed ++ [m] }

/-- `nonce++`, of a `uint64`. -/
def nextNonce (s : Extending) : Extending := { s with nonce := (s.nonce + 1) % 2 ^ 64 }

end Extending

/-! ## A cycle -/

/-- Sign, push and wait for a message. A push can fail behind the
gateway's back, with the message sent. -/
def sendMessage (c : Gateway) (m : ExtendMessage) : Prog Extending ExtendErr Unit := do
  .step .signing id
  .io (fun s => (s.recordPush m).nextNonce) (fun n s => if n = 0 then s else s.recordPush m)
    fun b => if b then .ret () else .throw .push
  .step .waiting id
  let s ← .read
  -- the receipt, which may be of a failure
  if c.exitCode s ≠ 0 then .throw (.failed (c.exitCode s)) else .ret ()

/-- Two messages for the terms of one, by `mkMessage`. -/
def splitMessage (mk : List ClaimTerm → Prog Extending ExtendErr (Option ExtendMessage))
    (terms : List ClaimTerm) : Prog Extending ExtendErr (Option ExtendMessage) := do
  let _ ← mk (terms.take (terms.length / 2))
  let _ ← mk (terms.drop (terms.length / 2))
  .ret none

/-- `mkMessage`. Its results are not looked at. -/
def mkMessage (c : Gateway) : ℕ → List ClaimTerm → Prog Extending ExtendErr (Option ExtendMessage)
  | 0, _ => .fault .blocked
  | fuel + 1, terms => do
    .step .newIDAddress id
    .step .serializeParams id
    .step .gettingNonce (Extending.raiseNonce c)
    let s ← .read
    .modify (Extending.recordEstimate c (s.message terms))
    match c.estimate s (s.message terms) with
    | .error text =>
      -- for any other error the gas limit of a nil message is read
      if ranOutOfGas text then splitMessage (mkMessage c fuel) terms else .fault .panic
    | .ok gasLimit =>
      if c.gasBound ≤ gasLimit then splitMessage (mkMessage c fuel) terms
      else do
        let m := overestimate { s.message terms with gasLimit := gasLimit }
        if c.sendExtends then sendMessage c m
        .ret (some m)

/-- One claim of the loop, with the terms that wait for a message. -/
def addClaim (c : Gateway) (fuel mid : ℕ) (terms : List ClaimTerm) (e : ℕ × VerifiedClaim) :
    Prog Extending ExtendErr (List ClaimTerm) :=
  -- extended already
  if e.2.termMax = c.tmax then .ret terms
  else
    let terms := terms ++ [⟨mid, e.1, c.tmax⟩]
    -- as many terms as a message is to have
    if 1000 ≤ terms.length then do
      let _ ← mkMessage c fuel terms
      .ret []
    else .ret terms

/-- The loop over the claims of one provider. -/
def addProvider (c : Gateway) (fuel : ℕ) (terms : List ClaimTerm)
    (p : ℕ × List (ℕ × VerifiedClaim)) : Prog Extending ExtendErr (List ClaimTerm) :=
  (c.claimOrder.order p.2).foldlM (addClaim c fuel p.1) terms

/-- The map of claims, provider by provider. -/
def getClaims (c : Gateway) :
    List ℕ → Prog Extending ExtendErr (List (ℕ × List (ℕ × VerifiedClaim)))
  | [] => .ret []
  | prov :: provs => do
    .step .gettingClaims id
    let rest ← getClaims c provs
    .ret (if c.ours prov = [] then rest else (prov, c.ours prov) :: rest)

/-- `claimExtendCycle`, for the providers of sealed deals. -/
def claimExtendCycle (c : Gateway) (fuel : ℕ) (provs : List ℕ) : Prog Extending ExtendErr Unit := do
  .step .gettingNonce fun s => { s with nonce := c.gwNonce s }
  let claims ← getClaims c provs
  let terms ← (c.provOrder.order claims).foldlM (addProvider c fuel) []
  -- the terms that are left over
  if 0 < terms.length then
    let _ ← mkMessage c fuel terms
  .ret ()

/-! ## What a cycle is for -/

namespace Extending

/-- The message of an estimate within the bound, with its gas limit. -/
def kept (c : Gateway) : ExtendMessage × GasEstimate → Option ExtendMessage
  | (_, .error _) => none
  | (m, .ok gasLimit) =>
    if c.gasBound ≤ gasLimit then none else some { m with gasLimit := gasLimit }

/-- The messages that were estimated within the bound. -/
def within (c : Gateway) (s : Extending) : List ExtendMessage := s.estimated.filterMap (kept c)

/-- The terms in these messages. -/
def terms (c : Gateway) (s : Extending) : List ClaimTerm :=
  (s.within c).flatMap ExtendMessage.terms

/-- No message is empty, and the nonces of the messages pushed rise. -/
structure InOrder (s : Extending) : Prop where
  nonempty : ∀ e ∈ s.estimated, e.1.terms ≠ []
  increasing : s.pushed.Pairwise fun m m' => m.nonce < m'.nonce

end Extending

/-- A term that the cycle is to extend. -/
def Expiring (c : Gateway) (provs : List ℕ) (t : ClaimTerm) : Prop :=
  t.provider ∈ provs ∧ t.termMax = c.tmax ∧
    ∃ claim, (t.claimId, claim) ∈ c.ours t.provider ∧ claim.termMax ≠ c.tmax

/-- **Every term once**: the messages within the bound have the terms of
the claims, none of them twice, and it is these messages that were
pushed, unless nothing is to be sent. -/
structure Extended (c : Gateway) (provs : List ℕ) (s : Extending) : Prop extends s.InOrder where
  mem_terms : ∀ t, t ∈ s.terms c ↔ Expiring c provs t
  once : (s.terms c).Nodup
  pushed : s.pushed = if c.sendExtends then (s.within c).map overestimate else []

/-- What a cycle owes: all of it when it returns nil, and the order of its
messages otherwise. It panics nowhere, and it does not go on for ever. -/
def extendsClaims (c : Gateway) (provs : List ℕ) : Post Extending ExtendErr Unit :=
  ⟨fun _ => Extended c provs, fun _ => Extending.InOrder, Extending.InOrder, fun _ _ => False⟩

/-- The number of claims of the providers. -/
def Gateway.numClaims (c : Gateway) (provs : List ℕ) : ℕ :=
  (provs.map fun prov => (c.claims prov).length).sum

/-- **What is asked of the estimator**: the only error is that a message
ran out of gas, and one term is not too much for a message. -/
structure Gateway.Estimates (c : Gateway) : Prop where
  outOfGas : ∀ s m text, c.estimate s m = .error text → ranOutOfGas text = true
  one : ∀ s m, m.terms.length = 1 → ∃ gasLimit, c.estimate s m = .ok gasLimit ∧
    gasLimit < c.gasBound

/-! ## The terms of the claims -/

variable {c : Gateway} {fuel : ℕ} {provs : List ℕ} {s : Extending} {m : ExtendMessage}

/-- The terms of one provider, as they are visited. -/
def termsOf (c : Gateway) (p : ℕ × List (ℕ × VerifiedClaim)) : List ClaimTerm :=
  ((c.claimOrder.order p.2).filter fun e => e.2.termMax ≠ c.tmax).map fun e => ⟨p.1, e.1, c.tmax⟩

/-- The map that `getClaims` makes. -/
def claimsMap (c : Gateway) : List ℕ → List (ℕ × List (ℕ × VerifiedClaim))
  | [] => []
  | prov :: provs =>
    if c.ours prov = [] then claimsMap c provs else (prov, c.ours prov) :: claimsMap c provs

/-- All terms, as they are visited. -/
def allTerms (c : Gateway) (provs : List ℕ) : List ClaimTerm :=
  (c.provOrder.order (claimsMap c provs)).flatMap (termsOf c)

theorem mem_claimsMap {p : ℕ × List (ℕ × VerifiedClaim)} :
    p ∈ claimsMap c provs ↔ p.1 ∈ provs ∧ p.2 = c.ours p.1 ∧ p.2 ≠ [] := by
  induction provs with
  | nil => simp [claimsMap]
  | cons prov provs ih =>
    unfold claimsMap
    obtain ⟨mid, cls⟩ := p
    by_cases hours : c.ours prov = []
    · rw [if_pos hours, ih, List.mem_cons]
      refine ⟨fun ⟨hmem, h⟩ => ⟨Or.inr hmem, h⟩, ?_⟩
      rintro ⟨rfl | hmem, heq, hne⟩
      · exact absurd (heq.trans hours) hne
      · exact ⟨hmem, heq, hne⟩
    · rw [if_neg hours, List.mem_cons, ih, List.mem_cons]
      constructor
      · rintro (heq | ⟨hmem, h⟩)
        · obtain ⟨rfl, rfl⟩ := Prod.mk.inj heq
          exact ⟨Or.inl rfl, rfl, hours⟩
        · exact ⟨Or.inr hmem, h⟩
      · rintro ⟨rfl | hmem, heq, hne⟩
        · exact Or.inl (Prod.ext rfl heq)
        · exact Or.inr ⟨hmem, heq, hne⟩

theorem nodup_claimsMap (h : provs.Nodup) : ((claimsMap c provs).map Prod.fst).Nodup := by
  induction provs with
  | nil => exact List.nodup_nil
  | cons prov provs ih =>
    obtain ⟨hnot, hrest⟩ := List.nodup_cons.mp h
    unfold claimsMap
    split_ifs with hours
    · exact ih hrest
    · refine List.nodup_cons.mpr ⟨fun hmem => ?_, ih hrest⟩
      obtain ⟨p, hp, hfst⟩ := List.mem_map.mp hmem
      have hin := (mem_claimsMap.mp hp).1
      rw [hfst] at hin
      exact hnot hin

theorem mem_termsOf {p : ℕ × List (ℕ × VerifiedClaim)} {t : ClaimTerm} :
    t ∈ termsOf c p ↔ t.provider = p.1 ∧ t.termMax = c.tmax ∧
      ∃ claim, (t.claimId, claim) ∈ p.2 ∧ claim.termMax ≠ c.tmax := by
  unfold termsOf
  rw [List.mem_map]
  constructor
  · rintro ⟨⟨id, claim⟩, he, rfl⟩
    obtain ⟨hmem, hne⟩ := List.mem_filter.mp he
    exact ⟨rfl, rfl, claim, (c.claimOrder.perm p.2).mem_iff.mp hmem, of_decide_eq_true hne⟩
  · obtain ⟨prov, id, tmax⟩ := t
    rintro ⟨rfl, rfl, claim, hmem, hne⟩
    have hin := (c.claimOrder.perm p.2).mem_iff.mpr hmem
    exact ⟨(id, claim), List.mem_filter.mpr ⟨hin, decide_eq_true hne⟩, rfl⟩

/-- **The terms of the claims.** -/
theorem mem_allTerms {t : ClaimTerm} : t ∈ allTerms c provs ↔ Expiring c provs t := by
  unfold allTerms Expiring
  rw [List.mem_flatMap]
  constructor
  · rintro ⟨p, hp, ht⟩
    obtain ⟨hprov, hmax, claim, hmem, hne⟩ := mem_termsOf.mp ht
    obtain ⟨hin, heq, -⟩ := mem_claimsMap.mp ((c.provOrder.perm _).mem_iff.mp hp)
    rw [hprov]
    exact ⟨hin, hmax, claim, heq ▸ hmem, hne⟩
  · rintro ⟨hin, hmax, claim, hmem, hne⟩
    refine ⟨(t.provider, c.ours t.provider), ?_, mem_termsOf.mpr ⟨rfl, hmax, claim, hmem, hne⟩⟩
    exact (c.provOrder.perm _).mem_iff.mpr
      (mem_claimsMap.mpr ⟨hin, rfl, List.ne_nil_of_mem hmem⟩)

theorem nodup_termsOf {p : ℕ × List (ℕ × VerifiedClaim)} (h : p ∈ claimsMap c provs) :
    (termsOf c p).Nodup := by
  have hids : (p.2.map Prod.fst).Nodup := by
    rw [(mem_claimsMap.mp h).2.1]
    exact (c.nodup p.1).sublist (List.filter_sublist.map Prod.fst)
  have horder : ((c.claimOrder.order p.2).map Prod.fst).Nodup :=
    ((c.claimOrder.perm p.2).map Prod.fst).nodup_iff.mpr hids
  unfold termsOf
  have hfilter := horder.sublist
    ((List.filter_sublist (p := fun e => decide (e.2.termMax ≠ c.tmax))).map Prod.fst)
  refine (List.pairwise_map.mp hfilter).map _ fun e e' hne heq => hne ?_
  exact (ClaimTerm.mk.inj heq).2.1

/-- No term comes twice: the providers differ, and the claims of one do. -/
theorem nodup_allTerms (h : provs.Nodup) : (allTerms c provs).Nodup := by
  have hprovs : ((c.provOrder.order (claimsMap c provs)).map Prod.fst).Nodup :=
    ((c.provOrder.perm _).map Prod.fst).nodup_iff.mpr (nodup_claimsMap h)
  unfold allTerms
  refine List.nodup_flatMap.mpr ⟨fun p hp => ?_, (List.pairwise_map.mp hprovs).imp ?_⟩
  · exact nodup_termsOf ((c.provOrder.perm _).mem_iff.mp hp)
  · intro p p' hne t ht ht'
    exact hne ((mem_termsOf.mp ht).1.symm.trans (mem_termsOf.mp ht').1)

theorem length_termsOf_le {p : ℕ × List (ℕ × VerifiedClaim)} :
    (termsOf c p).length ≤ p.2.length := by
  unfold termsOf
  rw [List.length_map, ← (c.claimOrder.perm p.2).length_eq]
  exact List.length_filter_le _ _

theorem length_allTerms_le : (allTerms c provs).length ≤ c.numClaims provs := by
  unfold allTerms
  rw [List.length_flatMap, ((c.provOrder.perm (claimsMap c provs)).map _).sum_eq]
  induction provs with
  | nil => simp [claimsMap]
  | cons prov provs ih =>
    have hours : (c.ours prov).length ≤ (c.claims prov).length := List.length_filter_le _ _
    have hterms : (termsOf c (prov, c.ours prov)).length ≤ (c.ours prov).length :=
      length_termsOf_le
    unfold Gateway.numClaims at *
    rw [claimsMap]
    split_ifs
    · rw [List.map_cons, List.sum_cons]
      omega
    · rw [List.map_cons, List.sum_cons, List.map_cons, List.sum_cons]
      omega

/-! ## One message -/

/-- **A cycle so far**: the messages within the bound have the terms that
are done, and there is room for the nonces of the rest. -/
structure Covered (c : Gateway) (total : ℕ) (done : List ClaimTerm) (s : Extending) : Prop
    extends s.InOrder where
  terms : s.terms c = done
  pushed : s.pushed = if c.sendExtends then (s.within c).map overestimate else []
  below : ∀ m ∈ s.pushed, m.nonce < s.nonce
  room : s.nonce + total < 2 ^ 64 + done.length

/-- What a part of a cycle owes. -/
def covers (α : Type) (c : Gateway) (total : ℕ) (done : List ClaimTerm) :
    Post Extending ExtendErr α :=
  ⟨fun _ => Covered c total done, fun _ => Extending.InOrder, Extending.InOrder, fun _ _ => False⟩

variable {total : ℕ} {done terms : List ClaimTerm} {α : Type}

theorem Covered.raiseNonce (h : Covered c total done s)
    (hroom : ∀ s, c.gwNonce s + total < 2 ^ 64) : Covered c total done (s.raiseNonce c) := by
  have hle : s.nonce ≤ (s.raiseNonce c).nonce := le_max_left _ _
  refine ⟨⟨h.nonempty, h.increasing⟩, h.terms, h.pushed, fun m hm => ?_, ?_⟩
  · exact (h.below m hm).trans_le hle
  · have hgw := hroom s
    have := h.room
    simp only [Extending.raiseNonce]
    omega

theorem within_recordEstimate (s : Extending) (m : ExtendMessage) :
    (s.recordEstimate c m).within c =
      s.within c ++ (Extending.kept c (m, c.estimate s m)).toList := by
  unfold Extending.within Extending.recordEstimate
  rw [List.filterMap_append]
  cases hkept : Extending.kept c (m, c.estimate s m) with
  | none => simp [hkept]
  | some m' => simp [hkept]

theorem Extending.InOrder.recordEstimate (h : s.InOrder) (hne : m.terms ≠ []) :
    (s.recordEstimate c m).InOrder := by
  refine ⟨fun e he => ?_, h.increasing⟩
  rcases List.mem_append.mp he with he | he
  · exact h.nonempty e he
  · rw [List.mem_singleton.mp he]
    exact hne

/-- An estimate that is not within the bound leaves all as it was. -/
theorem Covered.recordEstimate (h : Covered c total done s) (hne : m.terms ≠ [])
    (hkept : Extending.kept c (m, c.estimate s m) = none) :
    Covered c total done (s.recordEstimate c m) := by
  have hwithin : (s.recordEstimate c m).within c = s.within c := by
    rw [within_recordEstimate, hkept, Option.toList_none, List.append_nil]
  refine ⟨h.toInOrder.recordEstimate hne, ?_, ?_, h.below, h.room⟩
  · unfold Extending.terms
    rw [hwithin]
    exact h.terms
  · rw [hwithin]
    exact h.pushed

/-- A message that is to be sent gets a nonce behind those before it. -/
theorem Extending.InOrder.recordPush (h : s.InOrder)
    (hbelow : ∀ m' ∈ s.pushed, m'.nonce < m.nonce) : (s.recordPush m).InOrder := by
  refine ⟨h.nonempty, List.pairwise_append.mpr ⟨h.increasing, List.pairwise_singleton _ _, ?_⟩⟩
  intro m' hm' m'' hm''
  rw [List.mem_singleton.mp hm'']
  exact hbelow m' hm'

/-- One step and what follows it. -/
theorem wp_step_seq {σ ε β : Type} {F : Fates} {e : ε} {f : σ → σ} {k : Unit → Prog σ ε β}
    {Q : Post σ ε β} {t : σ} (hgo : wp F (k ()) Q (f t)) (herr : Q.err e t) (hcrash : Q.crash t) :
    wp F (Prog.step e f >>= k) Q t := by
  rw [wp_bind, wp_step]
  exact ⟨hgo, fun _ => herr, fun _ => hcrash⟩

/-- **Sending a message** that has the nonce of the cycle. -/
theorem wp_sendMessage (h : s.InOrder) (hbelow : ∀ m' ∈ s.pushed, m'.nonce < m.nonce) :
    wp anyFate (sendMessage c m) ⟨fun _ t => t = (s.recordPush m).nextNonce,
      fun _ => Extending.InOrder, Extending.InOrder, fun _ _ => False⟩ s := by
  have hpush := h.recordPush hbelow
  have hnext : ((s.recordPush m).nextNonce).InOrder := ⟨hpush.nonempty, hpush.increasing⟩
  unfold sendMessage
  refine wp_step_seq ?_ h h
  rw [wp_bind]
  refine ⟨?_, fun n _ => ?_, fun _ => h⟩
  · simp only [if_true, wp_ret]
    refine wp_step_seq ?_ hnext hnext
    simp only [wp_bind, wp_read, wp_ite, wp_throw, wp_ret]
    exact ⟨fun _ => hnext, fun _ => rfl⟩
  · simp only [Bool.false_eq_true, if_false, wp_throw]
    split_ifs
    · exact h
    · exact hpush

section

variable {gasLimit : ℤ}

/-- A message within the bound is one more. -/
theorem within_keep (hans : c.estimate s m = .ok gasLimit) (hlt : gasLimit < c.gasBound) :
    (s.recordEstimate c m).within c = s.within c ++ [{ m with gasLimit := gasLimit }] := by
  rw [within_recordEstimate, hans, Extending.kept, if_neg (by omega)]
  rfl

theorem terms_keep (hans : c.estimate s m = .ok gasLimit) (hlt : gasLimit < c.gasBound) :
    (s.recordEstimate c m).terms c = s.terms c ++ m.terms := by
  unfold Extending.terms
  rw [within_keep hans hlt, List.flatMap_append, List.flatMap_singleton]

/-- Such a message is done with when nothing is to be sent. -/
theorem Covered.keep (h : Covered c total done s) (hne : m.terms ≠ [])
    (hans : c.estimate s m = .ok gasLimit) (hlt : gasLimit < c.gasBound)
    (hsend : c.sendExtends = false) :
    Covered c total (done ++ m.terms) (s.recordEstimate c m) := by
  refine ⟨h.toInOrder.recordEstimate hne, ?_, ?_, h.below, ?_⟩
  · rw [terms_keep hans hlt, h.terms]
  · have hpushed := h.pushed
    rw [hsend] at hpushed ⊢
    exact hpushed
  · have := h.room
    rw [List.length_append]
    change s.nonce + total < _
    omega

/-- And when it was sent. -/
theorem Covered.send (h : Covered c total done s) (hne : m.terms ≠ [])
    (hans : c.estimate s m = .ok gasLimit) (hlt : gasLimit < c.gasBound)
    (hsend : c.sendExtends = true) (hnonce : m.nonce = s.nonce)
    (hle : done.length + m.terms.length ≤ total) :
    Covered c total (done ++ m.terms) ((s.recordEstimate c m).recordPush
      (overestimate { m with gasLimit := gasLimit })).nextNonce := by
  have hpos : 0 < m.terms.length := List.length_pos_of_ne_nil hne
  have hroom := h.room
  have hnext : (s.nonce + 1) % 2 ^ 64 = s.nonce + 1 := Nat.mod_eq_of_lt (by omega)
  have hbelow : ∀ m' ∈ s.pushed, m'.nonce < m.nonce := hnonce ▸ h.below
  have hpush : ((s.recordEstimate c m).recordPush
      (overestimate { m with gasLimit := gasLimit })).InOrder :=
    (h.toInOrder.recordEstimate hne).recordPush hbelow
  refine ⟨⟨hpush.nonempty, hpush.increasing⟩, ?_, ?_, fun m' hm' => ?_, ?_⟩
  · exact (terms_keep hans hlt).trans (by rw [h.terms])
  · have hpushed := h.pushed
    rw [hsend, if_pos rfl] at hpushed ⊢
    change s.pushed ++ _ = ((s.recordEstimate c m).within c).map _
    rw [within_keep hans hlt, List.map_append, hpushed]
    rfl
  · change m'.nonce < (s.nonce + 1) % 2 ^ 64
    rw [hnext]
    rcases List.mem_append.mp hm' with hm' | hm'
    · have := h.below m' hm'
      omega
    · rw [List.mem_singleton.mp hm']
      exact hnonce.trans_lt (Nat.lt_succ_self _)
  · change (s.nonce + 1) % 2 ^ 64 + total < _
    rw [List.length_append]
    omega

end

/-- **Two halves cover the terms** when each does: neither is empty, and
each is shorter. -/
theorem wp_splitMessage {mk : List ClaimTerm → Prog Extending ExtendErr (Option ExtendMessage)}
    (h : Covered c total done s) (htwo : 2 ≤ terms.length)
    (hle : done.length + terms.length ≤ total)
    (hmk : ∀ half done' t, half ≠ [] → half.length < terms.length → Covered c total done' t →
      done'.length + half.length ≤ total →
      wp anyFate (mk half) (covers _ c total (done' ++ half)) t) :
    wp anyFate (splitMessage mk terms) (covers _ c total (done ++ terms)) s := by
  have htake : (terms.take (terms.length / 2)).length = terms.length / 2 := by
    rw [List.length_take]
    omega
  have hdrop : (terms.drop (terms.length / 2)).length = terms.length - terms.length / 2 :=
    List.length_drop
  have hlen : (done ++ terms.take (terms.length / 2)).length = done.length + terms.length / 2 := by
    rw [List.length_append, htake]
  unfold splitMessage
  refine wp_seq (hmk _ done s (List.ne_nil_of_length_pos (by omega)) (by omega) h (by omega))
    (fun _ t ht => ?_) (fun _ _ => id) (fun _ => id) fun _ _ => id
  refine wp_seq (hmk _ _ t (List.ne_nil_of_length_pos (by omega)) (by omega) ht (by omega))
    (fun _ u hu => ?_) (fun _ _ => id) (fun _ => id) fun _ _ => id
  rw [List.append_assoc, List.take_append_drop] at hu
  exact hu

/-- **`mkMessage` covers its terms.** The induction is on the fuel: a
message that is given up has two terms at least, so both halves are
shorter. -/
theorem wp_mkMessage (hest : c.Estimates) (hroom : ∀ s, c.gwNonce s + total < 2 ^ 64)
    (hne : terms ≠ []) (hfuel : terms.length ≤ fuel) (h : Covered c total done s)
    (hle : done.length + terms.length ≤ total) :
    wp anyFate (mkMessage c fuel terms) (covers _ c total (done ++ terms)) s := by
  induction fuel generalizing terms done s with
  | zero => exact absurd (List.length_eq_zero_iff.mp (Nat.le_zero.mp hfuel)) hne
  | succ fuel ih =>
    have hpos : 0 < terms.length := List.length_pos_of_ne_nil hne
    unfold mkMessage
    refine wp_step_seq (wp_step_seq (wp_step_seq ?_ h.toInOrder h.toInOrder) h.toInOrder
      h.toInOrder) h.toInOrder h.toInOrder
    simp only [id]
    have hraise := h.raiseNonce hroom
    generalize s.raiseNonce c = s at hraise
    simp only [wp_bind, wp_read, wp_modify]
    have hmterms : (s.message terms).terms = terms := rfl
    have hinorder := hraise.toInOrder.recordEstimate (c := c) (m := s.message terms) hne
    -- a message that is given up has two terms at least
    have hsplit : Extending.kept c (s.message terms, c.estimate s (s.message terms)) = none →
        terms.length ≠ 1 → wp anyFate (splitMessage (mkMessage c fuel) terms)
          (covers _ c total (done ++ terms)) (s.recordEstimate c (s.message terms)) := by
      intro hkept hone
      refine wp_splitMessage (hraise.recordEstimate hne hkept) (by omega) hle ?_
      intro half done' t hhalf hlt ht hle'
      exact ih hhalf (by omega) ht hle'
    cases hans : c.estimate s (s.message terms) with
    -- the estimate fails for lack of gas only, and not for one term
    | error text =>
      have hout := hest.outOfGas _ _ _ hans
      simp only [hout, if_true]
      refine hsplit (by rw [hans, Extending.kept]) fun hone => ?_
      obtain ⟨gasLimit, hok, -⟩ := hest.one s (s.message terms) hone
      rw [hans] at hok
      exact absurd hok (by simp)
    | ok gasLimit =>
      simp only
      by_cases hgas : c.gasBound ≤ gasLimit
      · rw [if_pos hgas]
        refine hsplit (by rw [hans, Extending.kept, if_pos hgas]) fun hone => ?_
        obtain ⟨gasLimit', hok, hlt⟩ := hest.one s (s.message terms) hone
        rw [hans] at hok
        have := GasEstimate.ok.inj hok
        omega
      · rw [if_neg hgas]
        have hlt : gasLimit < c.gasBound := by omega
        cases hsend : c.sendExtends with
        | false => exact hraise.keep (m := s.message terms) hne hans hlt hsend
        -- the message is sent, and what it covers is done
        | true =>
          refine wp_seq (wp_sendMessage hinorder hraise.below) (fun _ t ht => ?_)
            (fun _ _ => id) (fun _ => id) fun _ _ => id
          subst ht
          exact hraise.send (m := s.message terms) hne hans hlt hsend rfl hle

/-! ## The loops -/

/-- The terms that wait for a message, behind the terms that are done. -/
def Waiting (c : Gateway) (total : ℕ) (visited terms : List ClaimTerm) (s : Extending) : Prop :=
  ∃ done, Covered c total done s ∧ done ++ terms = visited ∧ terms.length < 1000

/-- What the loops owe. -/
def waits (c : Gateway) (total : ℕ) (visited : List ClaimTerm) :
    Post Extending ExtendErr (List ClaimTerm) :=
  ⟨Waiting c total visited, fun _ => Extending.InOrder, Extending.InOrder, fun _ _ => False⟩

variable {visited : List ClaimTerm}

/-- **A loop** whose rounds visit terms, as long as there is room for the
terms of all of them. -/
theorem wp_loop {f : List ClaimTerm → α → Prog Extending ExtendErr (List ClaimTerm)}
    {new : α → List ClaimTerm}
    (hstep : ∀ x visited terms s, Waiting c total visited terms s →
      visited.length + (new x).length ≤ total →
      wp anyFate (f terms x) (waits c total (visited ++ new x)) s)
    (l : List α) (h : Waiting c total visited terms s)
    (hle : visited.length + (l.flatMap new).length ≤ total) :
    wp anyFate (l.foldlM f terms) (waits c total (visited ++ l.flatMap new)) s := by
  induction l generalizing visited terms s with
  | nil =>
    rw [List.flatMap_nil, List.append_nil]
    exact h
  | cons x l ih =>
    rw [List.flatMap_cons, List.length_append] at hle
    rw [List.foldlM_cons, List.flatMap_cons, ← List.append_assoc]
    refine wp_seq (hstep x visited terms s h (by omega)) (fun terms' t ht => ?_)
      (fun _ _ => id) (fun _ => id) fun _ _ => id
    exact ih ht (by rw [List.length_append]; omega)

/-- The term of one claim, if it is to be extended. -/
def claimTerm (c : Gateway) (mid : ℕ) (e : ℕ × VerifiedClaim) : List ClaimTerm :=
  if e.2.termMax = c.tmax then [] else [⟨mid, e.1, c.tmax⟩]

theorem termsOf_eq (c : Gateway) (p : ℕ × List (ℕ × VerifiedClaim)) :
    termsOf c p = (c.claimOrder.order p.2).flatMap (claimTerm c p.1) := by
  unfold termsOf
  induction c.claimOrder.order p.2 with
  | nil => rfl
  | cons e l ih =>
    rw [List.flatMap_cons, ← ih, claimTerm]
    by_cases hmax : e.2.termMax = c.tmax
    · simp [hmax]
    · simp [hmax]

/-- **One claim.** A thousand terms make a message. -/
theorem wp_addClaim (hest : c.Estimates) (hroom : ∀ s, c.gwNonce s + total < 2 ^ 64)
    (hfuel : 1000 ≤ fuel) {mid : ℕ} (e : ℕ × VerifiedClaim) (h : Waiting c total visited terms s)
    (hle : visited.length + (claimTerm c mid e).length ≤ total) :
    wp anyFate (addClaim c fuel mid terms e) (waits c total (visited ++ claimTerm c mid e)) s := by
  obtain ⟨done, hcov, rfl, hlt⟩ := h
  unfold addClaim
  rw [claimTerm] at hle ⊢
  by_cases hmax : e.2.termMax = c.tmax
  · rw [if_pos hmax, if_pos hmax]
    exact ⟨done, hcov, (List.append_nil _).symm, hlt⟩
  · rw [if_neg hmax, List.length_append, List.length_singleton] at hle
    rw [if_neg hmax, if_neg hmax]
    have hlen : (terms ++ [(⟨mid, e.1, c.tmax⟩ : ClaimTerm)]).length = terms.length + 1 :=
      List.length_append
    simp only
    by_cases hfull : 1000 ≤ (terms ++ [(⟨mid, e.1, c.tmax⟩ : ClaimTerm)]).length
    · rw [if_pos hfull]
      refine wp_seq (wp_mkMessage hest hroom (List.ne_nil_of_length_pos (by omega)) (by omega) hcov
        (by omega)) (fun _ t ht => ?_) (fun _ _ => id) (fun _ => id) fun _ _ => id
      exact ⟨_, ht, by rw [List.append_nil, List.append_assoc], by decide⟩
    · rw [if_neg hfull]
      exact ⟨done, hcov, (List.append_assoc _ _ _).symm, by omega⟩

/-- **The claims of a provider.** -/
theorem wp_addProvider (hest : c.Estimates) (hroom : ∀ s, c.gwNonce s + total < 2 ^ 64)
    (hfuel : 1000 ≤ fuel) (p : ℕ × List (ℕ × VerifiedClaim)) (h : Waiting c total visited terms s)
    (hle : visited.length + (termsOf c p).length ≤ total) :
    wp anyFate (addProvider c fuel terms p) (waits c total (visited ++ termsOf c p)) s := by
  rw [termsOf_eq] at hle ⊢
  exact wp_loop (fun e _ _ _ h hle => wp_addClaim hest hroom hfuel e h hle) _ h hle

/-- The claims are got without a change of the state. -/
theorem wp_getClaims (h : s.InOrder) (provs : List ℕ) :
    wp anyFate (getClaims c provs) ⟨fun claims t => claims = claimsMap c provs ∧ t = s,
      fun _ => Extending.InOrder, Extending.InOrder, fun _ _ => False⟩ s := by
  induction provs with
  | nil => exact ⟨rfl, rfl⟩
  | cons prov provs ih =>
    unfold getClaims claimsMap
    refine wp_step_seq (wp_seq ih (fun rest t ht => ?_) (fun _ _ => id) (fun _ => id)
      fun _ _ => id) h h
    obtain ⟨rfl, rfl⟩ := ht
    exact ⟨rfl, rfl⟩

/-- A cycle that has not begun. -/
def Extending.start : Extending := ⟨0, [], []⟩

/-- **Claim extension covers every term once.** Whatever else fails, and
wherever the process dies: the recursion ends, and a cycle that returns
nil has pushed every term in one message within the bound, with rising
nonces. The nonces of the account leave room for a message per claim. -/
theorem claimExtendCycle_extends (hest : c.Estimates) (hprovs : provs.Nodup)
    (hroom : ∀ s, c.gwNonce s + c.numClaims provs < 2 ^ 64) (hfuel : 1000 ≤ fuel)
    (p : List Fate) :
    ((claimExtendCycle c fuel provs).run .start p).Sat (extendsClaims c provs) := by
  have hstart : Extending.start.InOrder := ⟨by simp [Extending.start], List.Pairwise.nil⟩
  have hall : (allTerms c provs).length ≤ c.numClaims provs := length_allTerms_le
  have hdone : ∀ s, Covered c (c.numClaims provs) (allTerms c provs) s → Extended c provs s := by
    intro s hcov
    refine ⟨hcov.toInOrder, fun t => ?_, ?_, hcov.pushed⟩
    · rw [hcov.terms, mem_allTerms]
    · rw [hcov.terms]
      exact nodup_allTerms hprovs
  refine wp_sound ?_ (within_anyFate p)
  unfold claimExtendCycle
  refine wp_step_seq ?_ hstart hstart
  have hcov : Covered c (c.numClaims provs) []
      { Extending.start with nonce := c.gwNonce .start } := by
    refine ⟨⟨hstart.nonempty, hstart.increasing⟩, rfl, ?_, fun m hm => absurd hm ?_, hroom _⟩
    · cases c.sendExtends <;> rfl
    · exact List.not_mem_nil
  refine wp_seq (wp_getClaims hcov.toInOrder provs) (fun claims t ht => ?_) (fun _ _ => id)
    (fun _ => id) fun _ _ => id
  obtain ⟨rfl, rfl⟩ := ht
  have hwait : Waiting c (c.numClaims provs) [] []
      { Extending.start with nonce := c.gwNonce .start } := ⟨[], hcov, rfl, by decide⟩
  have hloop := wp_loop (fun p _ _ _ h hle => wp_addProvider hest hroom hfuel p h hle)
    (c.provOrder.order (claimsMap c provs)) hwait ((Nat.zero_add _).trans_le hall)
  refine wp_seq hloop (fun terms t ht => ?_) (fun _ _ => id) (fun _ => id) fun _ _ => id
  obtain ⟨done, hcov', hvisited, hlt⟩ := ht
  rw [List.nil_append] at hvisited
  change done ++ terms = allTerms c provs at hvisited
  by_cases hpos : 0 < terms.length
  · simp only [hpos, if_true]
    have hlen := congrArg List.length hvisited
    rw [List.length_append] at hlen
    refine wp_seq (wp_mkMessage hest hroom (List.ne_nil_of_length_pos hpos) (by omega) hcov'
      (by omega)) (fun _ u hu => ?_) (fun _ _ => id) (fun _ => id) fun _ _ => id
    rw [hvisited] at hu
    exact hdone u hu
  · simp only [hpos, if_false]
    obtain rfl : terms = [] := List.length_eq_zero_iff.mp (by omega)
    rw [List.append_nil] at hvisited
    exact hdone t (hvisited ▸ hcov')

/-- One claim of one provider, with every estimate the same. -/
def oneClaim (sendExtends : Bool) (answer : GasEstimate) : Gateway where
  client := 1
  tmax := 5256000
  blockGasLimit := 10000000000
  sendExtends := sendExtends
  claims := fun prov => if prov = 1000 then [(7, ⟨1, 518400⟩)] else []
  nodup := fun prov => by
    split_ifs
    · exact List.nodup_singleton _
    · exact List.nodup_nil
  provOrder := ⟨id, List.Perm.refl⟩
  claimOrder := ⟨id, List.Perm.refl⟩
  gwNonce := fun _ => 3
  estimate := fun _ _ => answer
  exitCode := fun _ => 0

/-- One claim, whose message is sent. -/
theorem claimExtendCycle_extends_oneClaim :
    ((claimExtendCycle (oneClaim true (.ok 5000000)) 1000 [1000]).run .start []).Sat
      (extendsClaims (oneClaim true (.ok 5000000)) [1000]) := by
  refine claimExtendCycle_extends ⟨fun _ _ _ h => ?_, fun _ _ _ => ⟨5000000, rfl, by decide⟩⟩
    (List.nodup_singleton _) (fun _ => show 3 + 1 < 2 ^ 64 by decide) (le_refl _) []
  exact absurd h (by simp [oneClaim])

/-- **A cycle that is not to send** returns nil, with its term in no
message that was pushed. And an error of the estimator that is not about
gas is a nil dereference. -/
theorem claimExtendCycle_dryRun :
    Expiring (oneClaim false (.ok 5000000)) [1000] ⟨1000, 7, 5256000⟩ ∧
      (∃ s, (claimExtendCycle (oneClaim false (.ok 5000000)) 1000 [1000]).run .start [] =
        .ok () s ∧ s.pushed = []) ∧
      ∃ s, (claimExtendCycle (oneClaim true (.error "actor not found")) 1000 [1000]).run .start [] =
        .fault .panic s := by
  refine ⟨⟨List.mem_singleton.mpr rfl, rfl, ⟨1, 518400⟩, by decide, by decide⟩, ⟨_, rfl, rfl⟩, ?_⟩
  exact ⟨_, rfl⟩

end Rbdeal

end Ribs
