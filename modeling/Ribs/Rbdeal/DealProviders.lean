import Mathlib.Data.List.Nodup
import Mathlib.Data.List.Perm.Basic
import Mathlib.Order.Defs.LinearOrder
import Ribs.Rbdeal.Deals
/-!
# Rbdeal — the providers for a deal

`SelectDealProviders` asks three times for providers that the deals of the
group do not leave out and that take pieces of the size: any of them, those
with booster-http, and those with booster-bitswap. Each answer is in random
order and cut; the three are put together, without repetition, and cut
once more.
-/

namespace Ribs

open Common
open Rbstor (GroupKey)

namespace Rbdeal

/-! ## The tables -/

/-- A row of `deals`, with its `start_time`. -/
structure DealRow where
  deal : Deal
  startTime : ℤ

/-- **The table**. The time of its insertion is in a row from then on. -/
structure DealTable where
  tasks : DealTasks
  inserted : List (Uuid × ℤ)

namespace DealTable

def start : DealTable := ⟨.start, []⟩

def rows (t : DealTable) : List DealRow :=
  t.inserted.filterMap fun (id, startTime) => (t.tasks.deals id).map fun d => ⟨d, startTime⟩

/-- A statement or a step, at a time. -/
def next (bootTime : ℤ) (t : DealTable) (e : ℤ × DealEvent) : DealTable where
  tasks := t.tasks.next bootTime e.2
  inserted :=
    match e.2 with
    | .storeDealProposal d =>
      if t.tasks.deals d.dealUUID = none then t.inserted ++ [(d.dealUUID, e.1)] else t.inserted
    | _ => t.inserted

end DealTable

/-- A row of `good_providers`, as far as it is looked at. -/
structure GoodProvider (P : Type) where
  id : ℤ
  boosterHttp : Bool
  boosterBitswap : Bool
  askPrice : P
  askVerifPrice : P
  askMinPieceSize : ℤ
  askMaxPieceSize : ℤ

/-- **`good_providers`**, of which `id` is the primary key. -/
structure GoodProviders (P : Type) where
  rows : List (GoodProvider P)
  key : (rows.map GoodProvider.id).Nodup

/-- `dealProvider`. -/
structure DealProvider (P : Type) where
  id : ℤ
  askPrice : P
  askVerifPrice : P

variable {P : Type}

def GoodProvider.scan (p : GoodProvider P) : DealProvider P := ⟨p.id, p.askPrice, p.askVerifPrice⟩

/-- The ask price that applies. -/
def DealProvider.price (verified : Bool) (p : DealProvider P) : P :=
  if verified then p.askVerifPrice else p.askPrice

/-! ## The queries -/

/-- **An order that is not known**: of a query, or of the range over a map. -/
structure Shuffle (α : Type) where
  order : List α → List α
  perm : ∀ l, (order l).Perm l

/-- What the database does with a query: the rows come in some order, or
there is an error. -/
structure QueryAnswer (P : Type) where
  order : Shuffle (GoodProvider P)
  /-- "querying providers", "scanning provider", "iterating providers" or
  "closing providers". -/
  err : Option String

structure Answers (P : Type) where
  random : QueryAnswer P
  withHttp : QueryAnswer P
  withBitswap : QueryAnswer P
  mapOrder : Shuffle (DealProvider P)

/-- The deals of the subselect. -/
def leftOut (now : ℤ) (group : GroupKey) (d : DealRow) : Bool :=
  d.deal.info.groupID = group &&
    (!d.deal.rejected || d.deal.rejected && now - 24 * 3600 ≤ d.startTime) &&
    (!d.deal.failed || !d.deal.rejected && d.deal.failed && now - 100 * 3600 ≤ d.startTime)

/-- What the three queries have in common. -/
def eligible (rows : List DealRow) (now : ℤ) (group : GroupKey) (pieceSize : ℤ)
    (p : GoodProvider P) : Bool :=
  !(rows.any fun d => d.deal.info.providerAddr = p.id && leftOut now group d) &&
    p.askMinPieceSize ≤ pieceSize && pieceSize ≤ p.askMaxPieceSize

/-- `order by random() limit`. -/
def QueryAnswer.query (a : QueryAnswer P) (cond : GoodProvider P → Bool) (limit : ℕ)
    (good : GoodProviders P) : Except String (List (DealProvider P)) :=
  match a.err with
  | some s => .error s
  | none => .ok (((a.order.order (good.rows.filter cond)).take limit).map GoodProvider.scan)

/-- One round of the loop that fills `seen`. -/
def addSeen (seen : List (DealProvider P)) (p : DealProvider P) : List (DealProvider P) :=
  if seen.any fun q => q.id = p.id then seen else seen ++ [p]

/-- The map `seen`, in the order of its insertions. -/
def dedup (out : List (DealProvider P)) : List (DealProvider P) := out.foldl addSeen []

/-- The price is not too high: the row is not passed over. -/
def withinPrice [LinearOrder P] (verified : Bool) (maxPrice : P) (p : DealProvider P) : Bool :=
  if verified ∧ maxPrice < p.askVerifPrice then false
  else if ¬ verified ∧ maxPrice < p.askPrice then false
  else true

/-- `SelectDealProviders`; the price is looked at behind the first query. -/
def selectDealProviders [LinearOrder P] (rows : List DealRow) (good : GoodProviders P) (now : ℤ)
    (a : Answers P) (group : GroupKey) (pieceSize : ℤ) (verified : Bool) (maxPrice : P) :
    Except String (List (DealProvider P)) := do
  let random ← a.random.query (eligible rows now group pieceSize) 15 good
  let withHttp ← a.withHttp.query
    (fun p => eligible rows now group pieceSize p && p.boosterHttp) 7 good
  let withBitswap ← a.withBitswap.query
    (fun p => eligible rows now group pieceSize p && p.boosterBitswap) 7 good
  return (a.mapOrder.order
    (dedup (withHttp ++ withBitswap ++ random.filter (withinPrice verified maxPrice)))).take 9

/-! ## Without repetition -/

section

variable {out seen : List (DealProvider P)} {p q : DealProvider P}

theorem mem_addSeen (h : q ∈ addSeen seen p) : q ∈ seen ∨ q = p := by
  unfold addSeen at h
  split_ifs at h
  · exact Or.inl h
  · simpa using h

theorem subset_addSeen (h : q ∈ seen) : q ∈ addSeen seen p := by
  unfold addSeen
  split_ifs
  · exact h
  · exact List.mem_append_left _ h

theorem exists_mem_addSeen (seen : List (DealProvider P)) (p : DealProvider P) :
    ∃ q ∈ addSeen seen p, q.id = p.id := by
  unfold addSeen
  split_ifs with h
  · simpa using h
  · exact ⟨p, by simp, rfl⟩

theorem nodup_addSeen (h : (seen.map DealProvider.id).Nodup) :
    ((addSeen seen p).map DealProvider.id).Nodup := by
  unfold addSeen
  split_ifs with hany
  · exact h
  · rw [List.map_append, List.nodup_append]
    refine ⟨h, by simp, fun a ha b hb => ?_⟩
    obtain ⟨q, hq, rfl⟩ := List.mem_map.mp ha
    simp only [List.map_cons, List.map_nil, List.mem_singleton] at hb
    rw [hb]
    intro heq
    exact hany (List.any_eq_true.mpr ⟨q, hq, decide_eq_true heq⟩)

theorem mem_foldl_addSeen (h : q ∈ out.foldl addSeen seen) : q ∈ seen ∨ q ∈ out := by
  induction out generalizing seen with
  | nil => exact Or.inl h
  | cons p out ih =>
    rcases ih h with h | h
    · rcases mem_addSeen h with h | rfl
      · exact Or.inl h
      · exact Or.inr List.mem_cons_self
    · exact Or.inr (List.mem_cons_of_mem _ h)

theorem subset_foldl_addSeen (h : q ∈ seen) : q ∈ out.foldl addSeen seen := by
  induction out generalizing seen with
  | nil => exact h
  | cons p out ih => exact ih (subset_addSeen h)

theorem nodup_foldl_addSeen (h : (seen.map DealProvider.id).Nodup) :
    ((out.foldl addSeen seen).map DealProvider.id).Nodup := by
  induction out generalizing seen with
  | nil => exact h
  | cons p out ih => exact ih (nodup_addSeen h)

theorem exists_mem_foldl_addSeen (h : p ∈ out) : ∃ q ∈ out.foldl addSeen seen, q.id = p.id := by
  induction out generalizing seen with
  | nil => exact absurd h List.not_mem_nil
  | cons p' out ih =>
    rcases List.mem_cons.mp h with rfl | h
    · obtain ⟨q, hq, hid⟩ := exists_mem_addSeen seen p
      exact ⟨q, show q ∈ out.foldl addSeen (addSeen seen p) from subset_foldl_addSeen hq, hid⟩
    · exact ih h

/-- **What is kept was there**, ... -/
theorem mem_of_mem_dedup (h : q ∈ dedup out) : q ∈ out :=
  (mem_foldl_addSeen h).resolve_left List.not_mem_nil

/-- ... **once**, ... -/
theorem nodup_dedup : ((dedup out).map DealProvider.id).Nodup :=
  nodup_foldl_addSeen List.nodup_nil

/-- ... **and nothing is lost**. -/
theorem exists_mem_dedup (h : p ∈ out) : ∃ q ∈ dedup out, q.id = p.id :=
  exists_mem_foldl_addSeen h

end

/-! ## What can be selected -/

section

variable [LinearOrder P] {rows : List DealRow} {good : GoodProviders P} {now : ℤ}
  {group : GroupKey} {pieceSize : ℤ} {verified : Bool} {maxPrice : P} {a : Answers P}
  {out : List (DealProvider P)} {p : GoodProvider P}

/-- **A row that can come into the result**: through the first query if its
price is not too high, through one of the others whatever its price is. -/
structure Selectable (rows : List DealRow) (good : GoodProviders P) (now : ℤ) (group : GroupKey)
    (pieceSize : ℤ) (verified : Bool) (maxPrice : P) (p : GoodProvider P) : Prop where
  mem : p ∈ good.rows
  eligible : eligible rows now group pieceSize p = true
  offered : p.scan.price verified ≤ maxPrice ∨ p.boosterHttp = true ∨ p.boosterBitswap = true

omit [LinearOrder P] in
theorem mem_query {q : QueryAnswer P} {cond : GoodProvider P → Bool} {limit : ℕ}
    (h : q.query cond limit good = .ok out) {x : DealProvider P} (hx : x ∈ out) :
    ∃ p ∈ good.rows, cond p = true ∧ x = p.scan := by
  unfold QueryAnswer.query at h
  split at h
  · cases h
  · rw [← Except.ok.inj h] at hx
    obtain ⟨p, hp, rfl⟩ := List.mem_map.mp hx
    obtain ⟨hp, hcond⟩ := List.mem_filter.mp ((q.order.perm _).mem_iff.mp (List.mem_of_mem_take hp))
    exact ⟨p, hp, hcond, rfl⟩

theorem withinPrice_iff {x : DealProvider P} :
    withinPrice verified maxPrice x = true ↔ x.price verified ≤ maxPrice := by
  unfold withinPrice DealProvider.price
  cases verified <;> simp

theorem select_cases (h : selectDealProviders rows good now a group pieceSize verified maxPrice =
    .ok out) : ∃ random withHttp withBitswap,
      a.random.query (eligible rows now group pieceSize) 15 good = .ok random ∧
      a.withHttp.query (fun p => eligible rows now group pieceSize p && p.boosterHttp) 7 good =
        .ok withHttp ∧
      a.withBitswap.query (fun p => eligible rows now group pieceSize p && p.boosterBitswap) 7 good =
        .ok withBitswap ∧
      out = (a.mapOrder.order
        (dedup (withHttp ++ withBitswap ++ random.filter (withinPrice verified maxPrice)))).take 9 := by
  unfold selectDealProviders at h
  simp only [bind, Except.bind] at h
  split at h
  · cases h
  · next random hrandom =>
    split at h
    · cases h
    · next withHttp hhttp =>
      split at h
      · cases h
      · next withBitswap hbitswap =>
        exact ⟨random, withHttp, withBitswap, hrandom, hhttp, hbitswap, (Except.ok.inj h).symm⟩

/-- **Only what can be selected is.** -/
theorem selectable_of_mem (h : selectDealProviders rows good now a group pieceSize verified maxPrice =
    .ok out) {x : DealProvider P} (hx : x ∈ out) :
    ∃ p, Selectable rows good now group pieceSize verified maxPrice p ∧ x = p.scan := by
  obtain ⟨random, withHttp, withBitswap, hrandom, hhttp, hbitswap, rfl⟩ := select_cases h
  have hmem := mem_of_mem_dedup ((a.mapOrder.perm _).mem_iff.mp (List.mem_of_mem_take hx))
  simp only [List.mem_append, List.mem_filter] at hmem
  rcases hmem with (hmem | hmem) | ⟨hmem, hprice⟩
  · obtain ⟨p, hp, hcond, rfl⟩ := mem_query hhttp hmem
    obtain ⟨helig, hflag⟩ := Bool.and_eq_true_iff.mp hcond
    exact ⟨p, ⟨hp, helig, Or.inr (Or.inl hflag)⟩, rfl⟩
  · obtain ⟨p, hp, hcond, rfl⟩ := mem_query hbitswap hmem
    obtain ⟨helig, hflag⟩ := Bool.and_eq_true_iff.mp hcond
    exact ⟨p, ⟨hp, helig, Or.inr (Or.inr hflag)⟩, rfl⟩
  · obtain ⟨p, hp, helig, rfl⟩ := mem_query hrandom hmem
    exact ⟨p, ⟨hp, helig, Or.inl (withinPrice_iff.mp hprice)⟩, rfl⟩

/-- **At most nine, and none twice.** -/
theorem nodup_select (h : selectDealProviders rows good now a group pieceSize verified maxPrice =
    .ok out) : out.length ≤ 9 ∧ (out.map DealProvider.id).Nodup := by
  obtain ⟨random, withHttp, withBitswap, -, -, -, rfl⟩ := select_cases h
  refine ⟨List.length_take_le _ _, ?_⟩
  rw [List.map_take]
  exact (((a.mapOrder.perm _).map _).nodup_iff.mpr nodup_dedup).sublist (List.take_sublist _ _)

/-! ## What comes first -/

/-- The order that brings what meets `f` first. -/
def Shuffle.first {α : Type} (f : α → Bool) : Shuffle α where
  order l := l.filter f ++ l.filter fun x => !f x
  perm l := List.filter_append_perm f l

omit [LinearOrder P] in
theorem Shuffle.exists_mem_take {α : Type} (f : α → Bool) {l : List α} {x : α} (hx : x ∈ l)
    (hf : f x = true) {n : ℕ} (hn : 0 < n) :
    ∃ y ∈ ((Shuffle.first f).order l).take n, y ∈ l ∧ f y = true := by
  obtain ⟨y, ys, hys⟩ := List.exists_cons_of_ne_nil
    (List.ne_nil_of_mem (List.mem_filter.mpr ⟨hx, hf⟩))
  have hy : y ∈ l.filter f := hys ▸ List.mem_cons_self
  obtain ⟨m, rfl⟩ := Nat.exists_eq_succ_of_ne_zero hn.ne'
  refine ⟨y, ?_, List.mem_filter.mp hy⟩
  change y ∈ (l.filter f ++ _).take (m + 1)
  rw [hys, List.cons_append, List.take_succ_cons]
  exact List.mem_cons_self

/-- The answers that bring a provider first. -/
def Answers.first (id : ℤ) : Answers P where
  random := ⟨.first fun p => p.id = id, none⟩
  withHttp := ⟨.first fun p => p.id = id, none⟩
  withBitswap := ⟨.first fun p => p.id = id, none⟩
  mapOrder := .first fun p => p.id = id

omit [LinearOrder P] in
/-- The primary key. -/
theorem GoodProviders.eq_of_id (good : GoodProviders P) {p q : GoodProvider P} (hp : p ∈ good.rows)
    (hq : q ∈ good.rows) (h : p.id = q.id) : p = q :=
  List.inj_on_of_nodup_map good.key hp hq h

/-- The queries of these answers succeed. -/
def QueryAnswer.first (id : ℤ) : QueryAnswer P := ⟨.first fun p => p.id = id, none⟩

omit [LinearOrder P] in
theorem exists_query (id : ℤ) (cond : GoodProvider P → Bool) (limit : ℕ) (good : GoodProviders P) :
    ∃ l, (QueryAnswer.first id).query cond limit good = .ok l := ⟨_, rfl⟩

omit [LinearOrder P] in
/-- A query that brings a row first has it in its answer. -/
theorem mem_query_first {cond : GoodProvider P → Bool} {limit : ℕ} (hlimit : 0 < limit)
    (hp : p ∈ good.rows) (hcond : cond p = true)
    (h : (QueryAnswer.first p.id).query cond limit good = .ok out) : p.scan ∈ out := by
  have hfirst : decide (p.id = p.id) = true := decide_eq_true rfl
  obtain ⟨y, hy, hmem, hid⟩ := Shuffle.exists_mem_take (fun p' => decide (p'.id = p.id))
    (List.mem_filter.mpr ⟨hp, hcond⟩) hfirst hlimit
  have heq : y = p := good.eq_of_id (List.mem_filter.mp hmem).1 hp (of_decide_eq_true hid)
  rw [← Except.ok.inj h]
  exact List.mem_map.mpr ⟨y, hy, by rw [heq]⟩

/-- **All that can be selected is**, in some order. -/
theorem exists_select (h : Selectable rows good now group pieceSize verified maxPrice p) :
    ∃ a out, selectDealProviders rows good now a group pieceSize verified maxPrice = .ok out ∧
      p.scan ∈ out := by
  obtain ⟨random, hrandom⟩ := exists_query p.id (eligible rows now group pieceSize) 15 good
  obtain ⟨withHttp, hhttp⟩ := exists_query p.id
    (fun p => eligible rows now group pieceSize p && p.boosterHttp) 7 good
  obtain ⟨withBitswap, hbitswap⟩ := exists_query p.id
    (fun p => eligible rows now group pieceSize p && p.boosterBitswap) 7 good
  have hmem : p.scan ∈ withHttp ++ withBitswap ++ random.filter (withinPrice verified maxPrice) := by
    simp only [List.mem_append, List.mem_filter]
    rcases h.offered with hprice | hflag | hflag
    · exact Or.inr ⟨mem_query_first (by decide) h.mem h.eligible hrandom,
        withinPrice_iff.mpr hprice⟩
    · exact Or.inl (Or.inl (mem_query_first (by decide) h.mem
        (Bool.and_eq_true_iff.mpr ⟨h.eligible, hflag⟩) hhttp))
    · exact Or.inl (Or.inr (mem_query_first (by decide) h.mem
        (Bool.and_eq_true_iff.mpr ⟨h.eligible, hflag⟩) hbitswap))
  -- every row with the id of `p` is `p`, so the one that is kept is
  have hscan : ∀ x ∈ withHttp ++ withBitswap ++ random.filter (withinPrice verified maxPrice),
      x.id = p.id → x = p.scan := by
    intro x hx hid
    obtain ⟨p', hp', rfl⟩ : ∃ p' ∈ good.rows, x = p'.scan := by
      simp only [List.mem_append, List.mem_filter] at hx
      rcases hx with (hx | hx) | ⟨hx, -⟩
      · obtain ⟨p', hp', -, heq⟩ := mem_query hhttp hx
        exact ⟨p', hp', heq⟩
      · obtain ⟨p', hp', -, heq⟩ := mem_query hbitswap hx
        exact ⟨p', hp', heq⟩
      · obtain ⟨p', hp', -, heq⟩ := mem_query hrandom hx
        exact ⟨p', hp', heq⟩
    rw [good.eq_of_id hp' h.mem hid]
  obtain ⟨x, hx, hid⟩ := exists_mem_dedup hmem
  obtain ⟨y, hy, hmemy, hidy⟩ := Shuffle.exists_mem_take (fun x => decide (x.id = p.id)) hx
    (decide_eq_true hid) (show 0 < 9 by decide)
  refine ⟨⟨.first p.id, .first p.id, .first p.id, .first fun x => x.id = p.id⟩, _, ?_,
    hscan y (mem_of_mem_dedup hmemy) (of_decide_eq_true hidy) ▸ hy⟩
  unfold selectDealProviders
  rw [hrandom, hhttp, hbitswap]
  rfl

/-! ## Exclusion by history -/

/-- **A deal that should keep its provider out**: it is neither failed nor
rejected, it was rejected within a day, or it failed within 100 hours. -/
def Barred (now : ℤ) (group : GroupKey) (d : DealRow) : Prop :=
  d.deal.info.groupID = group ∧
    (d.deal.failed = false ∧ d.deal.rejected = false ∨
      d.deal.rejected = true ∧ now - 24 * 3600 ≤ d.startTime ∨
      d.deal.failed = true ∧ d.deal.rejected = false ∧ now - 100 * 3600 ≤ d.startTime)

/-- A deal for the group that was rejected within a day, as `StoreRejectedDeal`
leaves it. -/
def FreshlyRejected (now : ℤ) (group : GroupKey) (d : DealRow) : Prop :=
  d.deal.info.groupID = group ∧ d.deal.rejected = true ∧ d.deal.failed = true ∧
    now - 24 * 3600 ≤ d.startTime

instance (now : ℤ) (group : GroupKey) (d : DealRow) : Decidable (Barred now group d) :=
  inferInstanceAs (Decidable (_ ∧ _))

/-- The row takes pieces of the size, at a price that is not too high. -/
def Fits (pieceSize : ℤ) (verified : Bool) (maxPrice : P) (p : GoodProvider P) : Prop :=
  p.askMinPieceSize ≤ pieceSize ∧ pieceSize ≤ p.askMaxPieceSize ∧ p.scan.price verified ≤ maxPrice

omit [LinearOrder P] in
/-- **What the subselect leaves out** is what should be, less what was
rejected and has failed. -/
theorem leftOut_iff {d : DealRow} :
    leftOut now group d = true ↔ Barred now group d ∧ ¬ FreshlyRejected now group d := by
  unfold leftOut Barred FreshlyRejected
  cases d.deal.rejected <;> cases d.deal.failed <;> simp

omit [LinearOrder P] in
theorem eligible_iff : eligible rows now group pieceSize p = true ↔
    (∀ d ∈ rows, d.deal.info.providerAddr = p.id → leftOut now group d = false) ∧
      p.askMinPieceSize ≤ pieceSize ∧ pieceSize ≤ p.askMaxPieceSize := by
  simp [eligible, and_assoc]

/-- **Exclusion by history**: a provider with a deal that should keep it out
is not selected, and no other deal keeps one out. -/
structure ByHistory (rows : List DealRow) (good : GoodProviders P) (now : ℤ) (group : GroupKey)
    (pieceSize : ℤ) (verified : Bool) (maxPrice : P) : Prop where
  never : ∀ a out, selectDealProviders rows good now a group pieceSize verified maxPrice = .ok out →
    ∀ x ∈ out, ∀ d ∈ rows, d.deal.info.providerAddr = x.id → ¬ Barred now group d
  only : ∀ p ∈ good.rows, Fits pieceSize verified maxPrice p →
    (∀ d ∈ rows, d.deal.info.providerAddr = p.id → ¬ Barred now group d) →
      ∃ a out, selectDealProviders rows good now a group pieceSize verified maxPrice = .ok out ∧
        p.scan ∈ out

/-- **History excludes as it should** if and only if no provider that can be
selected has a deal for the group that was rejected within a day and has
`failed` set. -/
theorem byHistory_iff (t : DealTable) (good : GoodProviders P) (now : ℤ) (group : GroupKey)
    (pieceSize : ℤ) (verified : Bool) (maxPrice : P) :
    ByHistory t.rows good now group pieceSize verified maxPrice ↔
      ∀ p, Selectable t.rows good now group pieceSize verified maxPrice p →
        ∀ d ∈ t.rows, d.deal.info.providerAddr = p.id → ¬ FreshlyRejected now group d := by
  constructor
  · intro h p hp d hd hprov hfresh
    obtain ⟨a, out, hout, hmem⟩ := exists_select hp
    refine h.never a out hout p.scan hmem d hd hprov ?_
    exact ⟨hfresh.1, Or.inr (Or.inl ⟨hfresh.2.1, hfresh.2.2.2⟩)⟩
  · intro h
    constructor
    · intro a out hout x hx d hd hprov hbarred
      obtain ⟨p, hp, rfl⟩ := selectable_of_mem hout hx
      have hleft := (eligible_iff.mp hp.eligible).1 d hd hprov
      exact Bool.false_ne_true (hleft.symm.trans (leftOut_iff.mpr ⟨hbarred, h p hp d hd hprov⟩))
    · intro p hp hfits hfree
      refine exists_select ⟨hp, eligible_iff.mpr ⟨fun d hd hprov => ?_, hfits.1, hfits.2.1⟩,
        Or.inl hfits.2.2⟩
      exact Bool.eq_false_iff.mpr fun hleft => hfree d hd hprov (leftOut_iff.mp hleft).1

/-! ## The price -/

/-- **The selected providers are acceptable**: at most nine, none twice, and
each takes the piece at a price that is not too high. -/
def Acceptable (rows : List DealRow) (good : GoodProviders P) (now : ℤ) (group : GroupKey)
    (pieceSize : ℤ) (verified : Bool) (maxPrice : P) : Prop :=
  ∀ a out, selectDealProviders rows good now a group pieceSize verified maxPrice = .ok out →
    out.length ≤ 9 ∧ (out.map DealProvider.id).Nodup ∧
      ∀ x ∈ out, ∃ p ∈ good.rows, x = p.scan ∧ Fits pieceSize verified maxPrice p

/-- **All providers that are selected are acceptable** if and only if none
with booster-http or booster-bitswap that the queries return is too
expensive. -/
theorem acceptable_iff (t : DealTable) (good : GoodProviders P) (now : ℤ) (group : GroupKey)
    (pieceSize : ℤ) (verified : Bool) (maxPrice : P) :
    Acceptable t.rows good now group pieceSize verified maxPrice ↔
      ∀ p ∈ good.rows, eligible t.rows now group pieceSize p = true →
        p.boosterHttp = true ∨ p.boosterBitswap = true → p.scan.price verified ≤ maxPrice := by
  constructor
  · intro h p hp helig hflag
    have hsel : Selectable t.rows good now group pieceSize verified maxPrice p :=
      ⟨hp, helig, Or.inr hflag⟩
    obtain ⟨a, out, hout, hmem⟩ := exists_select hsel
    obtain ⟨p', hp', heq, hfits⟩ := (h a out hout).2.2 _ hmem
    rw [heq]
    exact hfits.2.2
  · intro h a out hout
    obtain ⟨hlen, hnodup⟩ := nodup_select hout
    refine ⟨hlen, hnodup, fun x hx => ?_⟩
    obtain ⟨p, hp, rfl⟩ := selectable_of_mem hout hx
    have hsize := (eligible_iff.mp hp.eligible).2
    refine ⟨p, hp.mem, rfl, hsize.1, hsize.2, ?_⟩
    exact hp.offered.elim id (h p hp.mem hp.eligible)

end

/-! ## One provider -/

/-- It has booster-http and asks for 7. -/
def boosterProvider : GoodProvider ℤ := ⟨2, true, false, 7, 7, 0, 1⟩

def oneProvider : GoodProviders ℤ where
  rows := [boosterProvider]
  key := by simp

/-- A deal with it is proposed, and rejected at once. -/
def rejectedAtOnce : DealTable :=
  runEvents (DealTable.next 0) .start
    [(0, .storeDealProposal DealTasks.someDeal), (0, .storeRejectedDeal "d" "rejected" true)]

/-- **An hour later** it is selected for the same group again. -/
theorem not_byHistory_rejectedAtOnce :
    ¬ ByHistory rejectedAtOnce.rows oneProvider 3600 1 1 true 7 := by
  intro h
  have helig : eligible rejectedAtOnce.rows 3600 1 1 boosterProvider = true := by decide +kernel
  have hbarred : (rejectedAtOnce.rows.any fun d =>
      d.deal.info.providerAddr = 2 && decide (Barred 3600 1 d)) = true := by decide +kernel
  obtain ⟨d, hd, hbarred⟩ := List.any_eq_true.mp hbarred
  obtain ⟨hprov, hbarred⟩ := Bool.and_eq_true_iff.mp hbarred
  have hsel : Selectable rejectedAtOnce.rows oneProvider 3600 1 1 true 7 boosterProvider :=
    ⟨List.mem_singleton_self _, helig, Or.inr (Or.inl rfl)⟩
  obtain ⟨a, out, hout, hmem⟩ := exists_select hsel
  exact h.never a out hout _ hmem d hd (of_decide_eq_true hprov) (of_decide_eq_true hbarred)

/-- **Without any deals** it is selected for less than it asks. -/
theorem not_acceptable_booster : ¬ Acceptable DealTable.start.rows oneProvider 0 1 1 true 6 := by
  intro h
  have hsel : Selectable DealTable.start.rows oneProvider 0 1 1 true 6 boosterProvider :=
    ⟨List.mem_singleton_self _, by decide, Or.inr (Or.inl rfl)⟩
  obtain ⟨a, out, hout, hmem⟩ := exists_select hsel
  obtain ⟨p, hp, -, hfits⟩ := (h a out hout).2.2 _ hmem
  rw [List.mem_singleton.mp hp] at hfits
  exact absurd hfits.2.2 (by decide)

end Rbdeal

end Ribs
