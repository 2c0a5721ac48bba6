import Mathlib.Logic.Function.Basic
import Ribs.Common.Runs
import Ribs.Rbstor.PebbleIndex
/-!
# Rbdeal — the rows of deals

A deal is a row of the table `deals`. The deal maker, the status tracker,
the retrieval checker and the car server each update it, some of them long
after they have read it. A statement is atomic; between two statements of
one task those of the others run in any order.
-/

namespace Ribs

open Common
open Rbstor (GroupKey)

namespace Rbdeal

abbrev Uuid := String

/-- `dbDealInfo`. -/
structure DealInfo where
  dealUUID : Uuid
  groupID : GroupKey
  clientAddr : String
  providerAddr : ℤ
  pricePerEpoch : ℤ
  verified : Bool
  keepUnsealed : Bool
  startEpoch : ℤ
  endEpoch : ℤ
  signedProposalBytes : List UInt8

/-- A row of `deals`. A column that may be null is an option. -/
structure Deal where
  info : DealInfo
  dealId : Option ℤ := none
  dealPubTs : Option String := none
  sectorStartEpoch : Option ℤ := none
  /-- 1 when the deal is successfully proposed. -/
  proposed : Bool := false
  /-- The publish cid is set, and the message has landed on chain. -/
  published : Bool := false
  sealed : Bool := false
  /-- 1 when the deal is unsuccessful for any reason. -/
  failed : Bool := false
  rejected : Bool := false
  /-- 1 when the deal is failed and its start has passed. -/
  failedExpired : Bool := false
  errorMsg : Option String := none
  lastStateQuery : ℤ := 0
  lastStateQueryError : Option String := none
  carTransferStartTime : Option ℤ := none
  carTransferAttempts : ℕ := 0
  carTransferLastEndTime : Option ℤ := none
  carTransferLastBytes : Option ℤ := none
  spStatus : Option String := none
  spSealingStatus : Option String := none
  spSigProposal : Option String := none
  spPubMsgCid : Option String := none
  spRecvBytes : Option ℕ := none
  spTxsize : Option ℕ := none
  lastRetrievalCheck : ℤ := 0
  lastRetrievalCheckSuccess : ℤ := 0

/-- The row that `GetNonFailedDealCount` counts: a live replica of its group. -/
def Deal.Live (d : Deal) : Prop :=
  d.failed = false ∧
    (0 < d.lastRetrievalCheck → d.lastRetrievalCheck < d.lastRetrievalCheckSuccess + 3600 * 24)

/-- `types.DealStatus`. -/
structure DealStatus where
  /-- Not empty if the deal is in the error state. -/
  error : String
  status : String
  sealingStatus : String
  signedProposalCid : String
  publishCid : Option String

/-- `types.DealStatusResponse`. -/
structure DealStatusResponse where
  /-- Not empty if there was an error getting the status. -/
  error : String
  dealStatus : Option DealStatus
  transferSize : ℕ
  nBytesReceived : ℕ

/-- `TransferInfo`, read from a row. -/
structure TransferInfo where
  failed : Bool
  carTransferAttempts : ℕ
  carTransferStartTime : Option ℤ
  carTransferLastBytes : Option ℤ
  carTransferLastEndTime : Option ℤ

def Deal.transferInfo (d : Deal) : TransferInfo where
  failed := d.failed
  carTransferAttempts := d.carTransferAttempts
  carTransferStartTime := d.carTransferStartTime
  carTransferLastBytes := d.carTransferLastBytes
  carTransferLastEndTime := d.carTransferLastEndTime

/-- Where a car request is. -/
inductive CarAt where
  /-- Behind the entry in `activeUploads`, before `GetTransferStatusByDealUUID`. -/
  | reading
  /-- Before the second statement of `GetTransferStatusByDealUUID`. -/
  | starting (transferInfo : TransferInfo)
  | deciding (transferInfo : TransferInfo)
  /-- Before an `UpdateTransferStats` that gives the transfer up. -/
  | aborting (abortError : String)
  /-- In `ReadCar`, with `UpdateTransferStats` behind it. -/
  | serving
  /-- Before the entry in `activeUploads` goes. -/
  | leaving
  | returned

/-- A call of `handleCarRequest` for a deal. -/
structure CarRequest where
  dealUUID : Uuid
  at_ : CarAt

/-- The table and the requests under way, by number. -/
structure DealTasks where
  deals : Uuid → Option Deal
  requests : ℕ → Option CarRequest
  activeUploads : Uuid → Bool

/-- A statement, or a step of a car request. Times are in seconds, those of
a car request in nanoseconds. -/
inductive DealEvent where
  | storeDealProposal (d : DealInfo)
  | storeSuccessfullyProposedDeal (d : DealInfo)
  | storeRejectedDeal (duuid : Uuid) (emsg : String) (proposed : Bool)
  | updateSPDealState (id : Uuid) (stresp : Option DealStatusResponse) (qerr : Option String)
      (now : ℤ)
  | updatePublishedDeal (id : Uuid) (dealID : ℤ) (pubTs : String)
  | updateActivatedDeal (id : Uuid) (sectorStart : ℤ)
  | markExpiredDeals (currentEpoch : ℤ)
  | updateExpiredDeal (id : Uuid)
  | recordRetrievalCheckResult (dealId : Uuid) (success : Bool) (now : ℤ)
  | carRequest (j : ℕ) (id : Uuid)
  /-- `tooSlow` is the test of the speed; `wrote` and `writeError` are what the
  writer says behind `ReadCar`. -/
  | carStep (j : ℕ) (now : ℤ) (tooSlow : Bool) (wrote : ℤ) (writeError : Option String)

/-! ## The statements -/

namespace Deal

def storeRejected (emsg : String) (proposed : Bool) (d : Deal) : Deal :=
  { d with
    failed := true
    rejected := true
    spStatus := some "Rejected"
    errorMsg := some emsg
    proposed := proposed }

/-- `UpdateSPDealState`: one of three statements. The second and the third
write `failed` whatever it is. -/
def updateSPState (stresp : Option DealStatusResponse) (qerr : Option String) (now : ℤ)
    (d : Deal) : Deal :=
  match qerr, stresp with
  -- the query failed
  | some err, _ => { d with lastStateQueryError := some err }
  | none, none => { d with lastStateQueryError := some "DealStatusResponse is nil" }
  | none, some resp =>
    match resp.dealStatus with
    -- an answer without a status aborts the deal
    | none =>
      let errMsg := "DealStatus is nil (resp err: '" ++ resp.error ++ "')"
      { d with
        failed := false
        spStatus := some "Aborted"
        errorMsg := some errMsg
        lastStateQueryError := some errMsg
        lastStateQuery := now }
    | some st =>
      { d with
        failed := st.error != ""
        spStatus := some st.status
        errorMsg := some st.error
        spSealingStatus := some st.sealingStatus
        spSigProposal := some st.signedProposalCid
        spPubMsgCid := st.publishCid
        -- `case when`: the count does not go down
        spRecvBytes :=
          if resp.nBytesReceived > d.spRecvBytes.getD 0 then some resp.nBytesReceived
          else d.spRecvBytes
        spTxsize := some resp.transferSize
        lastStateQuery := now
        lastStateQueryError := none }

/-- `MarkExpiredDeals`, on a row. -/
def markExpired (currentEpoch : ℤ) (d : Deal) : Deal :=
  if d.failed = false ∧ d.sealed = false ∧ d.info.startEpoch < currentEpoch then
    { d with failed := true, failedExpired := true, published := false, spPubMsgCid := none }
  else d

def updateExpired (d : Deal) : Deal := { d with failed := true, failedExpired := true }

def recordRetrievalCheck (success : Bool) (now : ℤ) (d : Deal) : Deal :=
  { d with
    lastRetrievalCheck := now
    lastRetrievalCheckSuccess := if success then now else d.lastRetrievalCheckSuccess }

/-- `UpdateTransferStats`. A null `error_msg` is not equal to the empty text
and stays. -/
def updateTransferStats (lastBytes : ℤ) (abortError : Option String) (now : ℤ) (d : Deal) :
    Deal :=
  { d with
    carTransferLastEndTime := some now
    carTransferLastBytes := some lastBytes
    carTransferAttempts := d.carTransferAttempts + 1
    failed := abortError.isSome
    errorMsg := if d.errorMsg = some "" then some (abortError.getD "") else d.errorMsg }

end Deal

/-! ## The car server -/

def transferIdleTimeout : ℤ := 5 * 60 * 1000000000

def maxTransferRetries : ℕ := 10

/-- `time.Unix`, in nanoseconds, and back. -/
def unix (sec : ℤ) : ℤ := sec * 1000000000

def toUnix (ns : ℤ) : ℤ := ns / 1000000000

/-- What `handleCarRequest` does about what it has read: nothing, giving the
transfer up, or serving it. -/
def decideTransfer (bootTime now : ℤ) (tooSlow : Bool) (info : TransferInfo) : CarAt :=
  if info.failed then .leaving
  else if info.carTransferAttempts ≥ maxTransferRetries then
    .aborting "transfer has been retried too much"
  -- not just behind a restart, and only of a transfer that has started
  else if now - bootTime > transferIdleTimeout ∧ info.carTransferStartTime.getD 0 > 0 then
    if now - unix (info.carTransferLastEndTime.getD 0) > transferIdleTimeout then
      .aborting "transfer not restarted for too long"
    else if tooSlow then .leaving
    else .serving
  else .serving

namespace DealTasks

/-- The empty table. -/
def start : DealTasks := ⟨fun _ => none, fun _ => none, fun _ => false⟩

/-- A statement with `where uuid = id`. -/
def update (id : Uuid) (f : Deal → Deal) (s : DealTasks) : DealTasks :=
  { s with deals := Function.update s.deals id ((s.deals id).map f) }

def goto (j : ℕ) (c : CarRequest) (at_ : CarAt) (s : DealTasks) : DealTasks :=
  { s with requests := Function.update s.requests j (some { c with at_ := at_ }) }

/-- `handleCarRequest`, from one statement to the next. -/
def carStep (bootTime : ℤ) (j : ℕ) (c : CarRequest) (now : ℤ) (tooSlow : Bool) (wrote : ℤ)
    (writeError : Option String) (s : DealTasks) : DealTasks :=
  match c.at_ with
  | .reading =>
    match s.deals c.dealUUID with
    | none => s.goto j c .leaving
    | some d =>
      -- the first request notes when the transfer has started
      s.goto j c (if d.carTransferAttempts = 0 then .starting d.transferInfo
        else .deciding d.transferInfo)
  | .starting info =>
    (s.update c.dealUUID fun d => { d with carTransferStartTime := some (toUnix now) }).goto j c
      (.deciding info)
  | .deciding info => s.goto j c (decideTransfer bootTime now tooSlow info)
  | .aborting abortError =>
    (s.update c.dealUUID (Deal.updateTransferStats 0 (some abortError) (toUnix now))).goto j c
      .leaving
  | .serving =>
    (s.update c.dealUUID (Deal.updateTransferStats wrote writeError (toUnix now))).goto j c
      .leaving
  | .leaving =>
    { s.goto j c .returned with
      activeUploads := Function.update s.activeUploads c.dealUUID false }
  | .returned => s

/-- **A statement or a step, on the table and the requests.** -/
def next (bootTime : ℤ) (s : DealTasks) : DealEvent → DealTasks
  | .storeDealProposal i =>
    if s.deals i.dealUUID = none then
      { s with deals := Function.update s.deals i.dealUUID (some { info := i }) }
    else s
  | .storeSuccessfullyProposedDeal i => s.update i.dealUUID fun d => { d with proposed := true }
  | .storeRejectedDeal id emsg proposed => s.update id (Deal.storeRejected emsg proposed)
  | .updateSPDealState id stresp qerr now => s.update id (Deal.updateSPState stresp qerr now)
  | .updatePublishedDeal id dealID pubTs =>
    s.update id fun d =>
      { d with dealId := some dealID, dealPubTs := some pubTs, published := true }
  | .updateActivatedDeal id sectorStart =>
    s.update id fun d => { d with sectorStartEpoch := some sectorStart, sealed := true }
  | .markExpiredDeals currentEpoch =>
    { s with deals := fun id => (s.deals id).map (Deal.markExpired currentEpoch) }
  | .updateExpiredDeal id => s.update id Deal.updateExpired
  | .recordRetrievalCheckResult id success now =>
    s.update id (Deal.recordRetrievalCheck success now)
  | .carRequest j id =>
    if s.requests j = none ∧ s.activeUploads id = false then
      { s with
        requests := Function.update s.requests j (some ⟨id, .reading⟩)
        activeUploads := Function.update s.activeUploads id true }
    else s
  | .carStep j now tooSlow wrote writeError =>
    match s.requests j with
    | none => s
    | some c => s.carStep bootTime j c now tooSlow wrote writeError

end DealTasks

/-! ## What a statement does to a row -/

/-- The deal is rejected or expired. -/
def Deal.Dead (d : Deal) : Prop := d.rejected = true ∨ d.failedExpired = true

instance (d : Deal) : Decidable d.Dead := inferInstanceAs (Decidable (_ ∨ _))

instance (d : Deal) : Decidable d.Live := inferInstanceAs (Decidable (_ ∧ _))

/-- The columns of a deal agree: what is rejected or expired has failed. -/
def Deal.Sound (d : Deal) : Prop := d.Dead → d.failed = true

/-- The status query was answered, and not with an error of the deal. -/
def noError (stresp : Option DealStatusResponse) (qerr : Option String) : Bool :=
  match qerr, stresp with
  | none, some resp => resp.dealStatus.all fun st => st.error == ""
  | _, _ => false

/-- The deal of which the event writes 0 into `failed`, as an answer of the
status query without an error and the end of a transfer without one do. -/
def DealTasks.clears (s : DealTasks) : DealEvent → Option Uuid
  | .updateSPDealState id stresp qerr _ => if noError stresp qerr then some id else none
  | .carStep j _ _ _ none =>
    match s.requests j with
    | some ⟨id, .serving⟩ => some id
    | _ => none
  | _ => none

/-- Where the event writes 0 into `failed`, the deal is neither rejected nor
expired. -/
def DealTasks.Spares (s : DealTasks) (e : DealEvent) : Prop :=
  ∀ id d, s.clears e = some id → s.deals id = some d → ¬ d.Dead

/-- **What an event does to a row**, by whether it writes 0 into `failed`. -/
structure Deal.Next (clears : Prop) (d d' : Deal) : Prop where
  dead : d.Dead → d'.Dead
  cleared : clears → d'.failed = false
  spared : clears → d'.Dead → d.Dead
  failed : ¬ clears → d.failed = true → d'.failed = true
  marked : ¬ clears → d'.Dead → d.Dead ∨ d'.failed = true

namespace Deal

variable {p : Prop} {d d' : Deal}

/-- A row that is left as it is in these columns. -/
theorem Next.of_eq (hp : ¬ p) (hr : d'.rejected = d.rejected)
    (he : d'.failedExpired = d.failedExpired) (hf : d'.failed = d.failed) : d.Next p d' := by
  have hd : d'.Dead ↔ d.Dead := by
    unfold Dead
    rw [hr, he]
  exact ⟨hd.mpr, fun h => absurd h hp, fun _ => hd.mp, fun _ h => hf.trans h,
    fun _ h => Or.inl (hd.mp h)⟩

/-- A row that has failed afterwards. -/
theorem Next.of_failed (hp : ¬ p) (hd : d.Dead → d'.Dead) (hf : d'.failed = true) :
    d.Next p d' :=
  ⟨hd, fun h => absurd h hp, fun h => absurd h hp, fun _ _ => hf, fun _ _ => Or.inr hf⟩

/-- A row whose `failed` alone is written. -/
theorem Next.of_written (hr : d'.rejected = d.rejected)
    (he : d'.failedExpired = d.failedExpired) (hf : d'.failed = true ↔ ¬ p) : d.Next p d' := by
  have hd : d'.Dead ↔ d.Dead := by
    unfold Dead
    rw [hr, he]
  refine ⟨hd.mpr, fun h => ?_, fun _ => hd.mp, fun h _ => hf.mpr h,
    fun h _ => Or.inr (hf.mpr h)⟩
  exact Bool.eq_false_iff.mpr fun hf' => hf.mp hf' h

/-- Without a write of 0 a sound row stays sound. -/
theorem Next.sound (h : d.Next p d') (hp : ¬ p) (hd : d.Sound) : d'.Sound := by
  intro hd'
  rcases h.marked hp hd' with hdead | hf
  · exact h.failed hp (hd hdead)
  · exact hf

/-- A deal that was rejected or expired is not sound behind a write of 0. -/
theorem Next.not_sound (h : d.Next p d') (hp : p) (hd : d.Dead) : ¬ d'.Sound := by
  intro hs
  have hf : d'.failed = true := hs (h.dead hd)
  exact absurd hf (by simp [h.cleared hp])

theorem not_dead_of_not_sound (h : ¬ d.Sound) : d.Dead := by
  by_contra hd
  exact h fun hd' => absurd hd' hd

theorem updateSPState_next (stresp : Option DealStatusResponse) (qerr : Option String) (now : ℤ)
    (hp : p ↔ noError stresp qerr = true) : d.Next p (d.updateSPState stresp qerr now) := by
  cases qerr with
  | some err => exact .of_eq (by simp [hp, noError]) rfl rfl rfl
  | none =>
    cases stresp with
    | none => exact .of_eq (by simp [hp, noError]) rfl rfl rfl
    | some resp =>
      rcases resp with ⟨err, _ | st, size, received⟩
      · exact .of_written rfl rfl (by simp [updateSPState, hp, noError])
      · exact .of_written rfl rfl (by simp [updateSPState, hp, noError])

theorem markExpired_next (currentEpoch : ℤ) (hp : ¬ p) : d.Next p (d.markExpired currentEpoch) := by
  unfold markExpired
  split
  · exact .of_failed hp (fun _ => Or.inr rfl) rfl
  · exact .of_eq hp rfl rfl rfl

end Deal

namespace DealTasks

variable {bootTime : ℤ} {s : DealTasks} {e : DealEvent} {id : Uuid} {d : Deal}

/-- A row behind a statement with `where uuid = …`. -/
theorem update_row {p : Prop} {id' : Uuid} {f : Deal → Deal} (h : s.deals id = some d)
    (hp : p → id = id') (hf : id = id' → d.Next p (f d)) :
    ∃ d', (s.update id' f).deals id = some d' ∧ d.Next p d' := by
  by_cases hid : id = id'
  · subst hid
    exact ⟨f d, by simp [update, h], hf rfl⟩
  · refine ⟨d, by simp [update, hid, h], ?_⟩
    exact .of_eq (fun h => hid (hp h)) rfl rfl rfl

theorem goto_deals (j : ℕ) (c : CarRequest) (at_ : CarAt) : (s.goto j c at_).deals = s.deals := rfl

theorem row_of_eq {s' : DealTasks} {p : Prop} (hs : s'.deals = s.deals) (hp : ¬ p)
    (h : s.deals id = some d) : ∃ d', s'.deals id = some d' ∧ d.Next p d' :=
  ⟨d, hs ▸ h, .of_eq hp rfl rfl rfl⟩

/-- **A step of a car request on a row**: it is the end of a transfer without
an error that writes 0. -/
theorem carStep_row {j : ℕ} {c : CarRequest} {now : ℤ} {tooSlow : Bool} {wrote : ℤ}
    {writeError : Option String} (h : s.deals id = some d) (hc : s.requests j = some c) :
    ∃ d', (s.carStep bootTime j c now tooSlow wrote writeError).deals id = some d' ∧
      d.Next (s.clears (.carStep j now tooSlow wrote writeError) = some id) d' := by
  obtain ⟨id', at_⟩ := c
  cases at_ with
  | reading =>
    refine row_of_eq ?_ ?_ h
    · simp only [carStep]
      split <;> rfl
    · cases writeError <;> simp [clears, hc]
  | starting info =>
    have hn : s.clears (.carStep j now tooSlow wrote writeError) ≠ some id := by
      cases writeError <;> simp [clears, hc]
    exact update_row h (fun h => absurd h hn) fun _ => .of_eq hn rfl rfl rfl
  | deciding info => exact row_of_eq rfl (by cases writeError <;> simp [clears, hc]) h
  | aborting abortError =>
    have hn : s.clears (.carStep j now tooSlow wrote writeError) ≠ some id := by
      cases writeError <;> simp [clears, hc]
    exact update_row h (fun h => absurd h hn) fun _ => .of_failed hn (fun h => h) rfl
  | serving =>
    cases writeError with
    | none =>
      have hn : s.clears (.carStep j now tooSlow wrote none) = some id' := by simp [clears, hc]
      refine update_row h (fun h => Option.some.inj (h.symm.trans hn)) fun hid => ?_
      exact .of_written rfl rfl (by simp [Deal.updateTransferStats, hn, hid])
    | some err =>
      have hn : s.clears (.carStep j now tooSlow wrote (some err)) ≠ some id := by simp [clears]
      exact update_row h (fun h => absurd h hn) fun _ => .of_failed hn (fun h => h) rfl
  | leaving => exact row_of_eq rfl (by cases writeError <;> simp [clears, hc]) h
  | returned => exact row_of_eq rfl (by cases writeError <;> simp [clears, hc]) h

/-- **An event on a row.** -/
theorem next_row (h : s.deals id = some d) :
    ∃ d', (s.next bootTime e).deals id = some d' ∧ d.Next (s.clears e = some id) d' := by
  cases e with
  | storeDealProposal i =>
    refine ⟨d, ?_, .of_eq (by simp [clears]) rfl rfl rfl⟩
    simp only [next]
    -- a deal that is there already is not stored again
    split
    · rename_i hnone
      have hne : id ≠ i.dealUUID := by
        rintro rfl
        simp [h] at hnone
      simp [hne, h]
    · exact h
  | storeSuccessfullyProposedDeal i =>
    exact update_row h (by simp [clears]) fun _ => .of_eq (by simp [clears]) rfl rfl rfl
  | storeRejectedDeal id' emsg proposed =>
    exact update_row h (by simp [clears]) fun _ =>
      .of_failed (by simp [clears]) (fun _ => Or.inl rfl) rfl
  | updateSPDealState id' stresp qerr now =>
    refine update_row h ?_ fun hid => Deal.updateSPState_next stresp qerr now ?_
    · simp only [clears]
      split <;> simp +contextual [eq_comm]
    · simp [clears, hid]
  | updatePublishedDeal id' dealID pubTs =>
    exact update_row h (by simp [clears]) fun _ => .of_eq (by simp [clears]) rfl rfl rfl
  | updateActivatedDeal id' sectorStart =>
    exact update_row h (by simp [clears]) fun _ => .of_eq (by simp [clears]) rfl rfl rfl
  | markExpiredDeals currentEpoch =>
    refine ⟨d.markExpired currentEpoch, ?_, Deal.markExpired_next _ (by simp [clears])⟩
    simp [next, h]
  | updateExpiredDeal id' =>
    exact update_row h (by simp [clears]) fun _ =>
      .of_failed (by simp [clears]) (fun _ => Or.inr rfl) rfl
  | recordRetrievalCheckResult id' success now =>
    exact update_row h (by simp [clears]) fun _ => .of_eq (by simp [clears]) rfl rfl rfl
  | carRequest j id' =>
    refine row_of_eq ?_ (by simp [clears]) h
    simp only [next]
    split <;> rfl
  | carStep j now tooSlow wrote writeError =>
    cases hc : s.requests j with
    | none =>
      refine row_of_eq ?_ ?_ h
      · simp only [next, hc]
      · cases writeError <;> simp [clears, hc]
    | some c =>
      simp only [next, hc]
      exact carStep_row h hc

theorem update_none {id' : Uuid} {f : Deal → Deal} (h : s.deals id = none) :
    (s.update id' f).deals id = none := by
  by_cases hid : id = id'
  · subst hid
    simp [update, h]
  · simp [update, hid, h]

theorem carStep_none {j : ℕ} {c : CarRequest} {now : ℤ} {tooSlow : Bool} {wrote : ℤ}
    {writeError : Option String} (h : s.deals id = none) :
    (s.carStep bootTime j c now tooSlow wrote writeError).deals id = none := by
  unfold carStep
  split
  · split <;> exact h
  · exact update_none h
  · exact h
  · exact update_none h
  · exact update_none h
  · exact h
  · exact h

/-- A new row has just been proposed. -/
theorem next_new (h : s.deals id = none) (h' : (s.next bootTime e).deals id = some d) :
    ¬ d.Dead := by
  have hkept : (s.next bootTime e).deals id ≠ none := by simp [h']
  cases e with
  | storeDealProposal i =>
    simp only [next] at h'
    split at h'
    · by_cases hid : id = i.dealUUID
      · subst hid
        obtain rfl : { info := i } = d := by simpa using h'
        simp [Deal.Dead]
      · simp [hid, h] at h'
    · simp [h] at h'
  | markExpiredDeals currentEpoch => exact absurd (by simp [next, h]) hkept
  | carRequest j id' =>
    refine absurd ?_ hkept
    simp only [next]
    split <;> exact h
  | carStep j now tooSlow wrote writeError =>
    refine absurd ?_ hkept
    simp only [next]
    split
    · exact h
    · exact carStep_none h
  | storeSuccessfullyProposedDeal _ => exact absurd (update_none h) hkept
  | storeRejectedDeal _ _ _ => exact absurd (update_none h) hkept
  | updateSPDealState _ _ _ _ => exact absurd (update_none h) hkept
  | updatePublishedDeal _ _ _ => exact absurd (update_none h) hkept
  | updateActivatedDeal _ _ => exact absurd (update_none h) hkept
  | updateExpiredDeal _ => exact absurd (update_none h) hkept
  | recordRetrievalCheckResult _ _ _ => exact absurd (update_none h) hkept

/-! ## Runs -/

/-- Every row is sound. -/
def Sound (s : DealTasks) : Prop := ∀ id d, s.deals id = some d → d.Sound

/-- **An event that spares the dead keeps the table sound.** -/
theorem next_sound (hs : s.Sound) (he : s.Spares e) : (s.next bootTime e).Sound := by
  intro id d' h' hdead
  cases h : s.deals id with
  | none => exact absurd hdead (next_new h h')
  | some d =>
    obtain ⟨d'', h'', hnext⟩ := next_row (e := e) h
    obtain rfl : d'' = d' := Option.some.inj (h''.symm.trans h')
    by_cases hc : s.clears e = some id
    · exact absurd (hnext.spared hc hdead) (he id d hc h)
    · exact hnext.sound hc (hs id d h) hdead

/-- **One that does not** leaves a dead deal that has not failed. -/
theorem next_not_sound (he : ¬ s.Spares e) : ¬ (s.next bootTime e).Sound := by
  unfold Spares at he
  push Not at he
  obtain ⟨id, d, hc, h, hdead⟩ := he
  obtain ⟨d', h', hnext⟩ := next_row (e := e) h
  exact fun hs => hnext.not_sound hc hdead (hs id d' h')

/-- A deal once dead stays so. -/
theorem run_dead (h : s.deals id = some d) (hd : d.Dead) (es : List DealEvent) :
    ∃ d', (runEvents (next bootTime) s es).deals id = some d' ∧ d'.Dead := by
  refine runEvents_stable (I := fun (s : DealTasks) => ∃ d', s.deals id = some d' ∧ d'.Dead) ?_
    ⟨d, h, hd⟩ es
  rintro s e ⟨d, h, hd⟩
  obtain ⟨d', h', hnext⟩ := next_row (e := e) h
  exact ⟨d', h', hnext.dead hd⟩

theorem start_sound : start.Sound := fun _ _ h => nomatch h

/-- The run over the empty table. -/
abbrev run (bootTime : ℤ) (es : List DealEvent) : DealTasks := runEvents (next bootTime) start es

/-- **A deal that failed stays failed**: in every state of the run what is
rejected or expired has failed, and no deal that was is a live replica
later. -/
structure StaysFailed (bootTime : ℤ) (es : List DealEvent) : Prop where
  rejected : ∀ es', es' <+: es → ∀ id d, (run bootTime es').deals id = some d →
    d.rejected = true → d.failed = true
  expired : ∀ es', es' <+: es → ∀ id d, (run bootTime es').deals id = some d →
    d.failedExpired = true → d.failed = true
  dead : ∀ es₁ es₂, es₁ ++ es₂ <+: es → ∀ id d d', (run bootTime es₁).deals id = some d →
    d.Dead → (run bootTime (es₁ ++ es₂)).deals id = some d' → ¬ d'.Live

theorem staysFailed_iff_sound {es : List DealEvent} :
    StaysFailed bootTime es ↔ ∀ es', es' <+: es → (run bootTime es').Sound := by
  constructor
  · rintro h es' hes' id d hd (hr | he)
    · exact h.rejected es' hes' id d hd hr
    · exact h.expired es' hes' id d hd he
  · intro h
    refine ⟨fun es' hes' id d hd hr => h es' hes' id d hd (Or.inl hr),
      fun es' hes' id d hd he => h es' hes' id d hd (Or.inr he), ?_⟩
    intro es₁ es₂ hes id d d' hd hdead hd' hlive
    obtain ⟨d'', hd'', hdead'⟩ := run_dead hd hdead es₂
    rw [run, runEvents_append, hd''] at hd'
    obtain rfl := Option.some.inj hd'
    have hf : d''.failed = true := h _ hes id d'' (by rw [run, runEvents_append, hd'']) hdead'
    exact absurd hlive.1 (by simp [hf])

/-- **A deal stays failed exactly where** every statement that writes 0 into
`failed` finds a deal that is neither rejected nor expired. None of the
statements looks. -/
theorem staysFailed_iff (bootTime : ℤ) (es : List DealEvent) :
    StaysFailed bootTime es ↔ Always (next bootTime) Spares start es := by
  rw [staysFailed_iff_sound]
  exact (always_iff_throughout (fun _ _ => next_sound) (fun _ h => h)
    (fun _ _ _ => next_not_sound) start_sound).symm

/-! ## A deal that comes back -/

def someDeal : DealInfo where
  dealUUID := "d"
  groupID := 1
  clientAddr := "f01"
  providerAddr := 2
  pricePerEpoch := 0
  verified := true
  keepUnsealed := true
  startEpoch := 100
  endEpoch := 200
  signedProposalBytes := []

/-- The provider fetches the car while the answer to the proposal is lost, so
that the deal is rejected; the transfer ends behind that. -/
def lateTransfer : List DealEvent :=
  [.storeDealProposal someDeal, .carRequest 0 "d", .carStep 0 0 false 0 none,
    .carStep 0 0 false 0 none, .carStep 0 0 false 0 none,
    .storeRejectedDeal "d" "sending deal proposal rpc: i/o deadline reached" false,
    .carStep 0 0 false 1000 none]

/-- The rejected deal counts as a live replica again. -/
theorem not_staysFailed_lateTransfer : ¬ StaysFailed 0 lateTransfer := by
  intro h
  have hrejected : ((run 0 (lateTransfer.take 6)).deals "d").map (fun d => decide d.Dead) =
      some true := by decide +kernel
  have hlive : ((run 0 (lateTransfer.take 6 ++ lateTransfer.drop 6)).deals "d").map
      (fun d => decide d.Live) = some true := by decide +kernel
  obtain ⟨d, hd, hdead⟩ := Option.map_eq_some_iff.mp hrejected
  obtain ⟨d', hd', hl⟩ := Option.map_eq_some_iff.mp hlive
  have hprefix : lateTransfer.take 6 ++ lateTransfer.drop 6 <+: lateTransfer := by
    rw [List.take_append_drop]
  exact h.dead _ _ hprefix "d" d d' hd (of_decide_eq_true hdead) hd' (of_decide_eq_true hl)

end DealTasks

end Rbdeal

end Ribs
