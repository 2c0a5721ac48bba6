import Mathlib.Data.Int.Notation
import Mathlib.Algebra.Order.Ring.Int
import Ribs.Common.Ancestry
/-!
# Ributil — looking for the publish message

A deal is found through the message that published it. A search for a
message goes back from a tipset, one at a time, so a tipset that is close
above the message is looked for first, in four passes: by 500 epochs, by
100, by 30 and by 15. A pass ends at the last tipset it has seen at which
the sender has sent the message already.
-/

namespace Ribs

open Common

namespace Ributil

/-- `types.Message`, as far as it is looked at. -/
structure Message (Addr : Type) where
  from_ : Addr
  nonce : ℕ

structure TipSet (Key : Type) where
  key : Key
  height : ℤ

structure Actor where
  nonce : ℕ

inductive InfoErr where
  | api (n : ℕ)
  | wrap (s : String) (e : InfoErr)

/-- **`CurrentDealInfoAPI`**, as far as the passes use it. -/
structure CurrentDealInfoAPI (Cid Addr Key : Type) where
  chainGetMessage : Cid → Except InfoErr (Message Addr)
  chainGetTipSet : Key → Except InfoErr (TipSet Key)
  chainGetTipSetByHeight : ℤ → Key → Except InfoErr (TipSet Key)
  stateGetActor : Addr → Key → Except InfoErr Actor

variable {Cid Addr Key : Type}

namespace CurrentDealInfoAPI

/-- The loop of `FindCloseMsgTipset`. -/
def findCloseLoop (cdapi : CurrentDealInfoAPI Cid Addr Key) (pubmsg : Message Addr) (step : ℤ) :
    ℕ → TipSet Key → TipSet Key → Option (Except InfoErr Key)
  | 0, _, _ => none
  | fuel + 1, curTs, headTs =>
    match cdapi.stateGetActor pubmsg.from_ curTs.key with
    | .error e => some (.error (.wrap "getting actor" e))
    | .ok act =>
      -- not sent yet as of `curTs`, so the tipset of the round before is close
      if act.nonce ≤ pubmsg.nonce then some (.ok headTs.key)
      else
        match cdapi.chainGetTipSetByHeight (curTs.height - step) curTs.key with
        | .error e => some (.error (.wrap "getting tipset" e))
        | .ok ts => cdapi.findCloseLoop pubmsg step fuel ts curTs

/-- `FindCloseMsgTipset`, in so many rounds at most. -/
def findCloseMsgTipset (cdapi : CurrentDealInfoAPI Cid Addr Key) (fuel : ℕ) (tsk : Key)
    (publishCid : Cid) (step : ℤ) : Option (Except InfoErr Key) :=
  match cdapi.chainGetMessage publishCid with
  | .error e => some (.error (.wrap "getting publish deal message" e))
  | .ok pubmsg =>
    match cdapi.chainGetTipSet tsk with
    | .error e => some (.error (.wrap "getting head tipset" e))
    | .ok curTs => cdapi.findCloseLoop pubmsg step fuel curTs curTs

/-- The steps of the passes, with what an error of each is wrapped in. -/
def passes : List (ℤ × String) :=
  [(500, "looking for tipset (500) close te publish message"),
    (100, "looking for tipset (100) close te publish message"),
    (30, "looking for tipset (30) close te publish message"),
    (15, "looking for tipset (15) close te publish message")]

/-- Passes one after the other, each from where the one before it ended. -/
def runPasses (cdapi : CurrentDealInfoAPI Cid Addr Key) (fuel : ℕ) (publishCid : Cid) :
    List (ℤ × String) → Key → Option (Except InfoErr Key)
  | [], closeTsk => some (.ok closeTsk)
  | (step, s) :: ps, closeTsk =>
    -- a finer step from where the coarser one has ended
    match cdapi.findCloseMsgTipset fuel closeTsk publishCid step with
    | none => none
    | some (.error e) => some (.error (.wrap s e))
    | some (.ok closeTsk) => cdapi.runPasses fuel publishCid ps closeTsk

/-- `dealIDFromPublishDealsMsg`, up to the search from the tipset that the
passes find. -/
def closeMsgTipset (cdapi : CurrentDealInfoAPI Cid Addr Key) (fuel : ℕ) (tsk : Key)
    (publishCid : Cid) : Option (Except InfoErr Key) :=
  cdapi.runPasses fuel publishCid passes tsk

end CurrentDealInfoAPI

/-! ## The chain -/

/-- **The API answers from a chain** on which a message was executed: it
returns the ancestor at or just below a height, and an error below genesis;
the state of the sender at a tipset is that before it is executed. -/
structure Serves (cdapi : CurrentDealInfoAPI Cid Addr Key) (T : Ancestry Key) (nonce : Key → ℕ)
    (publishCid : Cid) (pubmsg : Message Addr) : Prop where
  message : cdapi.chainGetMessage publishCid = .ok pubmsg
  tipset : ∀ k, cdapi.chainGetTipSet k = .ok ⟨k, T.height k⟩
  byHeight : ∀ (h : ℕ) k, h ≤ T.height k →
    ∃ t, cdapi.chainGetTipSetByHeight h k = .ok ⟨t, T.height t⟩ ∧ T.AtOrBelow h k t
  belowGenesis : ∀ h k, h < 0 → ∃ e, cdapi.chainGetTipSetByHeight h k = .error e
  actor : ∀ k, cdapi.stateGetActor pubmsg.from_ k = .ok ⟨nonce k⟩

/-- **The tipset `e` executes the message**: its sender has not sent it
before, and has behind it. His nonce does not go down. -/
structure Executes (T : Ancestry Key) (nonce : Key → ℕ) (pubmsg : Message Addr) (e : Key) : Prop where
  mono : ∀ k p, T.parent k = some p → nonce p ≤ nonce k
  before : nonce e ≤ pubmsg.nonce
  behind : ∀ k, T.parent k = some e → pubmsg.nonce < nonce k

variable {cdapi : CurrentDealInfoAPI Cid Addr Key} {T : Ancestry Key} {nonce : Key → ℕ}
  {publishCid : Cid} {pubmsg : Message Addr} {e k tsk cur head : Key} {step : ℤ} {fuel : ℕ}

theorem Executes.lt_nonce (he : Executes T nonce pubmsg e) (h : T.Above k e) :
    pubmsg.nonce < nonce k := by
  obtain ⟨c, hc, hp⟩ := h.child
  exact lt_of_lt_of_le (he.behind c hp) (hc.le_of_parent he.mono)

theorem Executes.nonce_le (he : Executes T nonce pubmsg e) (h : T.Anc e k) :
    nonce k ≤ pubmsg.nonce :=
  le_trans (h.le_of_parent he.mono) he.before

/-! ## One pass -/

namespace Serves

open CurrentDealInfoAPI

variable (hs : Serves cdapi T nonce publishCid pubmsg)

include hs

theorem findCloseMsgTipset_eq : cdapi.findCloseMsgTipset fuel tsk publishCid step =
    cdapi.findCloseLoop pubmsg step fuel ⟨tsk, T.height tsk⟩ ⟨tsk, T.height tsk⟩ := by
  unfold findCloseMsgTipset
  rw [hs.message]
  dsimp only
  rw [hs.tipset]

/-- Where the message is not sent yet, the loop returns the probe before. -/
theorem loop_of_le (h : nonce cur ≤ pubmsg.nonce) {h' : ℤ} :
    cdapi.findCloseLoop pubmsg step (fuel + 1) ⟨cur, h'⟩ ⟨head, T.height head⟩ =
      some (.ok head) := by
  rw [findCloseLoop, hs.actor]
  exact if_pos h

/-- Where it is sent, the loop goes back. -/
theorem loop_of_lt (h : pubmsg.nonce < nonce cur) {ts : TipSet Key} :
    cdapi.findCloseLoop pubmsg step (fuel + 1) ⟨cur, T.height cur⟩ ts =
      match cdapi.chainGetTipSetByHeight (T.height cur - step) cur with
      | .error e => some (.error (.wrap "getting tipset" e))
      | .ok ts => cdapi.findCloseLoop pubmsg step fuel ts ⟨cur, T.height cur⟩ := by
  rw [findCloseLoop, hs.actor]
  exact if_neg (not_le.mpr h)

/-- **Every pass ends**, with a tipset or with an error. -/
theorem loop_ends (hstep : 0 < step) (n : ℕ) (hn : T.height cur < n) :
    ∃ r, cdapi.findCloseLoop pubmsg step n ⟨cur, T.height cur⟩ ⟨head, T.height head⟩ = some r := by
  induction n generalizing cur head with
  | zero => exact absurd hn (Nat.not_lt_zero _)
  | succ n ih =>
    rcases Nat.lt_or_ge pubmsg.nonce (nonce cur) with hlt | hle
    · rw [hs.loop_of_lt hlt]
      rcases lt_or_ge (T.height cur - step) 0 with hneg | hpos
      · obtain ⟨e, he⟩ := hs.belowGenesis _ cur hneg
        rw [he]
        exact ⟨_, rfl⟩
      · obtain ⟨h, hh⟩ := Int.eq_ofNat_of_zero_le hpos
        obtain ⟨t, ht, hbelow⟩ := hs.byHeight h cur (by omega)
        rw [hh, ht]
        exact ih (by have := hbelow.le; omega)
    · rw [hs.loop_of_le hle]
      exact ⟨_, rfl⟩

theorem findCloseMsgTipset_ends (hstep : 0 < step) :
    ∃ r, cdapi.findCloseMsgTipset (T.height tsk + 1) tsk publishCid step = some r := by
  rw [hs.findCloseMsgTipset_eq]
  exact hs.loop_ends hstep _ (Nat.lt_succ_self _)

/-- **The loop stays above the tipset** that executes the message, and
returns the lowest tipset it has seen there. -/
theorem loop_returns (he : Executes T nonce pubmsg e) (hstep : 0 < step)
    (hhigh : ∀ k, T.Above k e → step ≤ T.height k) (n : ℕ) (hcur : T.Above cur e)
    (hn : T.height cur < n) (head : Key) : ∃ k, cdapi.findCloseLoop pubmsg step (n + 1) ⟨cur, T.height cur⟩
      ⟨head, T.height head⟩ = some (.ok k) ∧ T.Anc cur k ∧ T.Above k e := by
  induction n generalizing cur head with
  | zero => exact absurd hn (Nat.not_lt_zero _)
  | succ n ih =>
    have hle := hhigh cur hcur
    obtain ⟨h, hh⟩ := Int.eq_ofNat_of_zero_le (show 0 ≤ T.height cur - step by omega)
    obtain ⟨t, ht, hbelow⟩ := hs.byHeight h cur (by omega)
    rw [hs.loop_of_lt (he.lt_nonce hcur), hh, ht]
    rcases hbelow.anc.above_or hcur.anc with habove | hanc
    · obtain ⟨k, hk, hanc, hkabove⟩ := ih habove (by have := hbelow.le; omega) cur
      exact ⟨k, hk, hbelow.anc.trans hanc, hkabove⟩
    · exact ⟨cur, hs.loop_of_le (he.nonce_le hanc), .refl, hcur⟩

/-- Too close to genesis, the first step back fails. -/
theorem findCloseMsgTipset_low (he : Executes T nonce pubmsg e) (hcur : T.Above cur e)
    (hlow : T.height cur < step) :
    cdapi.findCloseMsgTipset fuel cur publishCid step ≠ some (.ok k) := by
  rw [hs.findCloseMsgTipset_eq]
  cases fuel with
  | zero => simp [findCloseLoop]
  | succ fuel =>
    obtain ⟨err, herr⟩ := hs.belowGenesis (T.height cur - step) cur (by omega)
    rw [hs.loop_of_lt (he.lt_nonce hcur), herr]
    simp

end Serves

/-! ## The passes -/

/-- **Passes that do not overshoot**: each returns a tipset that its start
is or has as an ancestor, still above the one that executes the message. -/
def Closes (cdapi : CurrentDealInfoAPI Cid Addr Key) (T : Ancestry Key) (e : Key)
    (publishCid : Cid) (fuel : ℕ) : List (ℤ × String) → Key → Prop
  | [], _ => True
  | (step, _) :: ps, tsk => ∃ k, cdapi.findCloseMsgTipset fuel tsk publishCid step = some (.ok k) ∧
      T.Anc tsk k ∧ T.Above k e ∧ Closes cdapi T e publishCid fuel ps k

/-- **What the search for the message starts from** is then above the
tipset that executes it. -/
theorem Closes.runPasses {ps : List (ℤ × String)} (h : Closes cdapi T e publishCid fuel ps tsk)
    (htsk : T.Above tsk e) : ∃ k, cdapi.runPasses fuel publishCid ps tsk = some (.ok k) ∧
      T.Anc tsk k ∧ T.Above k e := by
  induction ps generalizing tsk with
  | nil => exact ⟨tsk, rfl, .refl, htsk⟩
  | cons p ps ih =>
    obtain ⟨k, hk, hanc, habove, hrest⟩ := h
    obtain ⟨k', hk', hanc', habove'⟩ := ih hrest habove
    refine ⟨k', ?_, hanc.trans hanc', habove'⟩
    rw [CurrentDealInfoAPI.runPasses, hk]
    exact hk'

theorem Serves.closes (hs : Serves cdapi T nonce publishCid pubmsg)
    (he : Executes T nonce pubmsg e) {ps : List (ℤ × String)} (hsteps : ∀ p ∈ ps, 0 < p.1)
    (hhigh : ∀ p ∈ ps, ∀ k, T.Above k e → p.1 ≤ T.height k) (htsk : T.Above tsk e) {n : ℕ}
    (hn : T.height tsk < n) : Closes cdapi T e publishCid (n + 1) ps tsk := by
  induction ps generalizing tsk with
  | nil => trivial
  | cons p ps ih =>
    obtain ⟨hstep, hsteps⟩ := List.forall_mem_cons.mp hsteps
    obtain ⟨hlow, hhigh⟩ := List.forall_mem_cons.mp hhigh
    obtain ⟨k, hk, hanc, habove⟩ := hs.loop_returns he hstep hlow n htsk hn tsk
    refine ⟨k, hs.findCloseMsgTipset_eq.trans hk, hanc, habove, ?_⟩
    exact ih hsteps hhigh habove (Nat.lt_of_le_of_lt hanc.height_le hn)

open CurrentDealInfoAPI in
/-- **From every start the four passes close in on the message**, if and
only if no tipset above the one that executes it is within 500 epochs of
genesis. -/
theorem closes_iff (hs : Serves cdapi T nonce publishCid pubmsg)
    (he : Executes T nonce pubmsg e) :
    (∀ tsk, T.Above tsk e → ∃ fuel, Closes cdapi T e publishCid fuel passes tsk) ↔
      ∀ tsk, T.Above tsk e → 500 ≤ T.height tsk := by
  constructor
  · intro h tsk htsk
    by_contra hlow
    obtain ⟨fuel, k, hk, -⟩ := h tsk htsk
    exact absurd hk (hs.findCloseMsgTipset_low he htsk (by omega))
  · intro hhigh tsk htsk
    refine ⟨T.height tsk + 2, hs.closes he (fun p hp => ?_) (fun p hp k hk => ?_) htsk
      (Nat.lt_succ_self _)⟩
    · simp only [passes, List.mem_cons, List.not_mem_nil, or_false] at hp
      rcases hp with rfl | rfl | rfl | rfl <;> decide
    · have h500 := hhigh k hk
      simp only [passes, List.mem_cons, List.not_mem_nil, or_false] at hp
      rcases hp with rfl | rfl | rfl | rfl <;> dsimp only <;> omega

/-! ## Two chains -/

/-- A chain with a tipset every `d` epochs. -/
def everyEpochs (d : ℕ) (hd : 0 < d) : Ancestry ℕ where
  parent k := if k = 0 then none else some (k - 1)
  height k := d * k
  height_lt := by
    intro k p h
    split_ifs at h with hk
    rw [← Option.some_inj.mp h]
    exact Nat.mul_lt_mul_of_pos_left (by omega) hd

/-- The sender's message is in the tipset `1`. -/
def sentAtOne (k : ℕ) : ℕ := if k ≤ 1 then 5 else 6

/-- What answers from it. -/
def chainOf (d : ℕ) : CurrentDealInfoAPI Unit Unit ℕ where
  chainGetMessage _ := .ok ⟨(), 5⟩
  chainGetTipSet k := .ok ⟨k, (d * k : ℕ)⟩
  chainGetTipSetByHeight h k :=
    if h < 0 then .error (.api 0) else .ok ⟨min k (h.toNat / d), (d * min k (h.toNat / d) : ℕ)⟩
  stateGetActor _ k := .ok ⟨sentAtOne k⟩

theorem anc_everyEpochs {d : ℕ} (hd : 0 < d) {k t : ℕ} : (everyEpochs d hd).Anc k t ↔ t ≤ k := by
  constructor
  · intro h
    refine h.le_of_parent (f := id) fun k p hp => ?_
    simp only [everyEpochs] at hp
    split_ifs at hp
    have := Option.some_inj.mp hp
    simp only [id]
    omega
  · intro h
    obtain ⟨n, rfl⟩ := Nat.exists_eq_add_of_le h
    induction n with
    | zero => exact .refl
    | succ n ih => exact Relation.ReflTransGen.head (by simp [everyEpochs]) (ih (by omega))

theorem serves_chainOf (d : ℕ) (hd : 0 < d) :
    Serves (chainOf d) (everyEpochs d hd) sentAtOne () ⟨(), 5⟩ where
  message := rfl
  tipset _ := rfl
  byHeight h k hle := by
    refine ⟨min k (h / d), by simp [chainOf, everyEpochs], ?_, ?_, fun u hu hh => ?_⟩
    · exact (anc_everyEpochs hd).mpr (min_le_left _ _)
    · calc d * min k (h / d) ≤ d * (h / d) := Nat.mul_le_mul_left _ (min_le_right _ _)
        _ ≤ h := Nat.mul_div_le h d
    · refine Nat.mul_le_mul_left _ (le_min ((anc_everyEpochs hd).mp hu) ?_)
      exact (Nat.le_div_iff_mul_le hd).mpr (by rw [Nat.mul_comm]; exact hh)
  belowGenesis h k hneg := ⟨_, if_pos hneg⟩
  actor _ := rfl

theorem executes_everyEpochs (d : ℕ) (hd : 0 < d) :
    Executes (everyEpochs d hd) sentAtOne (⟨(), 5⟩ : Message Unit) 1 where
  mono k p hp := by
    have hle : p ≤ k := (anc_everyEpochs hd).mp (.single hp)
    unfold sentAtOne
    split_ifs <;> omega
  before := le_rfl
  behind k hp := by
    simp only [everyEpochs] at hp
    split_ifs at hp
    have := Option.some_inj.mp hp
    unfold sentAtOne
    rw [if_neg (by omega)]
    decide

open CurrentDealInfoAPI in
/-- With a tipset every 500 epochs, all starts are high enough. -/
theorem closes_iff_everyFiveHundred :
    (∀ tsk, (everyEpochs 500 (by decide)).Above tsk 1 →
        ∃ fuel, Closes (chainOf 500) (everyEpochs 500 (by decide)) 1 () fuel passes tsk) ↔
      ∀ tsk, (everyEpochs 500 (by decide)).Above tsk 1 → 500 ≤ (everyEpochs 500 (by decide)).height tsk :=
  closes_iff (serves_chainOf 500 (by decide)) (executes_everyEpochs 500 (by decide))

open CurrentDealInfoAPI in
/-- **A young chain**: with a tipset every 30 epochs, the message is at
height 30, and the first pass from height 60 asks for a tipset below
genesis. -/
theorem not_closes_young :
    ¬ ∀ tsk, (everyEpochs 30 (by decide)).Above tsk 1 →
      ∃ fuel, Closes (chainOf 30) (everyEpochs 30 (by decide)) 1 () fuel passes tsk := by
  intro h
  have habove : (everyEpochs 30 (by decide)).Above 2 1 := .single (by simp [everyEpochs])
  obtain ⟨fuel, k, hk, -⟩ := h 2 habove
  cases fuel with
  | zero => exact absurd hk (by simp [chainOf, findCloseMsgTipset, findCloseLoop])
  | succ fuel =>
    exact absurd hk (by simp [chainOf, findCloseMsgTipset, findCloseLoop, sentAtOne])

end Ributil

end Ribs
