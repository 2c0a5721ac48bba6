import Ribs.Rbdeal.Delivered
/-!
# Rbdeal — promises that nobody will keep

The HTTP stage of a call releases what it did not get, for its own lassie
stage to claim. A call that gives up on the way there leaves what it has
released in the map: who waits for it waits on.
-/

namespace Ribs

open Common
open Bsst (Multihash)

namespace Rbdeal

open Fetches

/-- The call will come to ask for the index `k`, if it does not give up. -/
def FetchAt.Reaches (k : ℕ) : FetchAt → Prop
  | .looking i => k < i
  | .candidates => True
  | .asking .http _ => True
  | .asking (.lassie _) i => i ≤ k
  | .waiting .http _ _ _ => True
  | .waiting (.lassie _) i _ _ => i < k
  | .getting i _ _ _ => i ≠ k
  | .fetching _ i _ _ => i < k
  | .resolving _ i _ _ _ _ => i < k
  | .returned _ => False

/-- The call will come to ask for the hash `h`. -/
def FetchCall.Ahead (c : FetchCall) (h : Multihash) : Prop :=
  ∃ k, c.at_.Reaches k ∧ c.mh[k]? = some (some h)

/-- A call that runs will resolve the promise, or claim it: it has it in its
hands, or the hash ahead of it. -/
def Fetches.Kept (s : Fetches) (h : Multihash) (p : ℕ) : Prop :=
  ∃ j c, s.calls j = some c ∧ (c.Claims p ∨ c.Ahead h)

/-- **No promise is abandoned**, and no waiter. -/
structure NoneAbandoned (s : Fetches) : Prop where
  entries : ∀ h p, s.ongoingRequests h = some p → s.Kept h p
  waiters : ∀ i d h p, s.calls i = some d → d.WaitsFor h p → (s.promises p).closes = 0 →
    s.Kept h p

/-- A stage whose failure is the end of the call. -/
def Stage.Last : Stage → Prop
  | .http => True
  | .lassie attempt => 16 ≤ attempt + 1

/-- The event makes the call give up: the candidates are not to be had, a
promise it waits for fails in the HTTP stage, or an index has failed for the
sixteenth time. -/
def Fetches.GivesUp (s : Fetches) (c : FetchCall) : FetchEvent → Prop
  | .candidates _ none => c.at_ = .candidates
  | .ctxDone _ => ∃ stage i h p, c.at_ = .waiting stage i h p ∧ stage.Last
  | .step _ => (∃ stage i h p, c.at_ = .waiting stage i h p ∧ stage.Last ∧
      (s.promises p).closes ≠ 0 ∧ (s.promises p).err = true) ∨
    ∃ attempt i h p, c.at_ = .resolving attempt i h p none .closed ∧ (Stage.lassie attempt).Last
  | _ => False

/-- A call that gives up has no hash ahead of it whose promise is released,
unless another call has it ahead of it too. -/
def Fetches.Relieved (s : Fetches) (e : FetchEvent) : Prop :=
  ∀ j c h p, e.caller = some j → s.calls j = some c → s.GivesUp c e → c.Ahead h →
    s.ongoingRequests h = some p → (s.promises p).claimed = none →
    ∃ i d, i ≠ j ∧ s.calls i = some d ∧ d.Ahead h

variable {hashes : Multihash → Bytes → Bool} {e : FetchEvent} {s s' : Fetches}
variable {c c' : FetchCall} {i j : ℕ} {h : Multihash} {p : ℕ}

theorem fail_of_last {stage : Stage} (hl : stage.Last) :
    stage.fail i = .returned (some (.block i)) := by
  cases stage with
  | http => rfl
  | lassie attempt =>
    have hge : 16 ≤ attempt + 1 := hl
    simp only [Stage.fail, if_neg (Nat.not_lt.mpr hge)]

theorem fail_of_not_last {attempt : ℕ} (hl : ¬ (Stage.lassie attempt).Last) :
    (Stage.lassie attempt).fail i = .asking (.lassie (attempt + 1)) i := by
  have hlt : attempt + 1 < 16 := Nat.lt_of_not_le hl
  simp only [Stage.fail, if_pos hlt]

/-- **A call that gives up** returns, and changes nothing else. -/
theorem next_givesUp (hcaller : e.caller = some j) (hj : s.calls j = some c)
    (hg : s.GivesUp c e) : ∃ err, s.next hashes e = s.goto j c (.returned (some err)) := by
  cases e with
  | candidates k found =>
    obtain rfl : k = j := Option.some.inj hcaller
    cases found with
    | none =>
      have hat : c.at_ = .candidates := hg
      exact ⟨.candidates, by simp [next, onCall, hj, readCandidates, hat]⟩
    | some b => exact absurd hg not_false
  | ctxDone k =>
    obtain rfl : k = j := Option.some.inj hcaller
    obtain ⟨stage, i, h, p, hat, hlast⟩ := hg
    exact ⟨.block i, by simp [next, onCall, hj, ctxDone, hat, fail_of_last hlast]⟩
  | step k =>
    obtain rfl : k = j := Option.some.inj hcaller
    rcases hg with ⟨stage, i, h, p, hat, hlast, hclosed, herr⟩ | ⟨attempt, i, h, p, hat, hlast⟩
    · exact ⟨.block i, by
        simp [next, onCall, hj, step, hat, wake, hclosed, herr, fail_of_last hlast]⟩
    · exact ⟨.block i, by simp [next, onCall, hj, step, hat, fail_of_last hlast]⟩
  | _ => exact absurd hg not_false

/-- Setting one index to nil leaves the others ahead. -/
theorem getElem?_set_nil {mh : List (Option Multihash)} {k : ℕ} (hik : i ≠ k)
    (hk : mh[k]? = some (some h)) : (mh.set i none)[k]? = some (some h) := by
  rw [List.getElem?_set_ne hik, hk]

theorem afterHttp_ahead (hc : ListOk c) {k : ℕ} (hk : c.mh[k]? = some (some h)) :
    FetchCall.Ahead { c with at_ := c.afterHttp } h := by
  refine ⟨k, ?_, hk⟩
  unfold FetchCall.afterHttp
  split
  · rename_i hall
    exact absurd hk (hc.none_left hall k h)
  · exact Nat.zero_le k

theorem fetch_reaches {stage : Stage} {k : ℕ} (hr : (FetchAt.asking stage i).Reaches k)
    (hik : i ≠ k) : (stage.fetch i h p).Reaches k := by
  cases stage with
  | http => exact hik
  | lassie attempt => exact Nat.lt_of_le_of_ne hr hik

theorem onward_reaches {stage : Stage} {k : ℕ} (hr : (FetchAt.waiting stage i h p).Reaches k) :
    (stage.onward i).Reaches k := by
  cases stage with
  | http => trivial
  | lassie attempt => exact hr

/-- A call takes up the index it has come to: what it has there is in its
hands, the rest ahead of it. -/
theorem ahead_or_grip {stage : Stage} {k : ℕ} {h' : Multihash}
    (hr : (FetchAt.asking stage i).Reaches k) (hleft : c.mh[i]? = some (some h'))
    (hk : c.mh[k]? = some (some h)) (hc' : c' = { c with at_ := stage.fetch i h' p }) :
    c'.Ahead h ∨ ∃ p, c'.at_.grip = some ⟨h, p, .listed⟩ := by
  subst hc'
  by_cases hik : i = k
  · subst hik
    obtain rfl := Option.some.inj (Option.some.inj (hleft.symm.trans hk))
    exact .inr ⟨p, fetch_grip stage⟩
  · exact .inl ⟨k, fetch_reaches hr hik, hk⟩

/-- **What becomes of a hash that a call has ahead of it**: it has it still, or
has its promise in its hands, or waits for one that is claimed; or it has
given up. -/
theorem Fetches.Moves.ahead (hm : Moves hashes e s j c s') (hc : ListOk c)
    (hj' : s'.calls j = some c') (ha : c.Ahead h) : c'.Ahead h ∨ s.GivesUp c e ∨
      (∃ p, c'.at_.grip = some ⟨h, p, .listed⟩) ∨
      ∃ p, s.ongoingRequests h = some p ∧ (s.promises p).claimed ≠ none := by
  obtain ⟨k, hreach, hk⟩ := ha
  have hat : ∀ {d : FetchCall}, s'.calls j = some d → d.Ahead h → c'.Ahead h :=
    of_calls (P := (·.Ahead h)) hj'
  have hplace : ∀ {at_}, c.at_ = at_ → at_.Reaches k := fun h => h ▸ hreach
  cases hm with
  | hit i h' b place left cached =>
    have hki : k < i := hplace place
    exact .inl (hat set_calls_self ⟨k, Nat.lt_succ_of_lt hki,
      getElem?_set_nil (Nat.ne_of_gt hki) hk⟩)
  | miss i place => exact .inl (hat set_calls_self ⟨k, Nat.lt_succ_of_lt (hplace place), hk⟩)
  | looked i place outside =>
    refine .inl (hat set_calls_self ⟨k, ?_, hk⟩)
    dsimp only
    split
    · rename_i hall
      -- all hits: nothing would be left, but `h` is
      have hzero : c.httpHits = 0 := hc.early (by rw [place]; rfl)
      exact absurd hk (hc.none_left (by omega) k h)
    · trivial
  | noCandidates place event => exact .inr (.inl (event ▸ place))
  | http place => exact .inl (hat set_calls_self ⟨k, trivial, hk⟩)
  | noHttp place => exact .inl (hat set_calls_self (afterHttp_ahead hc hk))
  | endHttp i place outside => exact .inl (hat set_calls_self (afterHttp_ahead hc hk))
  | endLassie attempt i place outside =>
    have hik : i ≤ k := hplace place
    obtain ⟨hlt, -⟩ := List.getElem?_eq_some_iff.mp hk
    have := List.getElem?_eq_none_iff.mp outside
    omega
  | skip stage i place found =>
    cases stage with
    | http => exact .inl (hat set_calls_self ⟨k, trivial, hk⟩)
    | lassie attempt =>
      have hik : i ≤ k := hplace place
      -- `h` is left, so its place is not the one that is skipped
      have hne : i ≠ k := by
        rintro rfl
        rw [found] at hk
        simp at hk
      exact .inl (hat set_calls_self ⟨k, Nat.lt_of_le_of_ne hik hne, hk⟩)
  | create stage i h' place left free event =>
    rcases ahead_or_grip (hplace place) left hk (Option.some.inj (hj'.symm.trans set_calls_self))
      with ha | hg
    · exact .inl ha
    · exact .inr (.inr (.inl hg))
  | claim stage i h' p place left entry free event =>
    rcases ahead_or_grip (hplace place) left hk (Option.some.inj (hj'.symm.trans set_calls_self))
      with ha | hg
    · exact .inl ha
    · exact .inr (.inr (.inl hg))
  | wait stage i h' p place left entry taken event =>
    -- to wait at the place of `h` is to wait for its claimer
    by_cases hik : i = k
    · subst hik
      obtain rfl := Option.some.inj (Option.some.inj (left.symm.trans hk))
      exact .inr (.inr (.inr ⟨p, entry, taken⟩))
    · refine .inl (hat set_calls_self ⟨k, ?_, hk⟩)
      cases stage with
      | http => trivial
      | lassie attempt => exact Nat.lt_of_le_of_ne (hplace place) hik
  | fail stage i h' p place event =>
    -- a failure ends the last stage only; before it, the next one starts over
    by_cases hlast : stage.Last
    · refine .inr (.inl ?_)
      rcases event with rfl | ⟨rfl, hclosed, herr⟩
      · exact ⟨stage, i, h', p, place, hlast⟩
      · exact .inl ⟨stage, i, h', p, place, hlast, hclosed, herr⟩
    · cases stage with
      | http => exact absurd trivial hlast
      | lassie attempt =>
        refine .inl (hat set_calls_self ⟨k, ?_, hk⟩)
        rw [fail_of_not_last hlast]
        exact Nat.le_of_lt (hplace place)
  | given stage i h' p place closed fine =>
    exact .inl (hat set_calls_self ⟨k, onward_reaches (hplace place), hk⟩)
  | success i h' p b place hash =>
    have hik : i ≠ k := hplace place
    exact .inl (hat set_calls_self ⟨k, hik, hk⟩)
  | release i h' p place => exact .inl (hat set_calls_self ⟨k, trivial, hk⟩)
  | resolveHttp i h' p b r place left =>
    have hik : i ≠ k := hplace place
    exact .inl (hat set_calls_self ⟨k, hik, hk⟩)
  | gotHttp i h' p b place =>
    exact .inl (hat set_calls_self ⟨k, trivial, getElem?_set_nil (hplace place) hk⟩)
  | fetched attempt i h' p block place event =>
    have hik : i < k := hplace place
    exact .inl (hat set_calls_self ⟨k, hik, hk⟩)
  | resolveLassie attempt i h' p block r place left =>
    have hik : i < k := hplace place
    exact .inl (hat set_calls_self ⟨k, hik, hk⟩)
  | failLassie attempt i h' p place event =>
    by_cases hlast : (Stage.lassie attempt).Last
    · subst event
      exact .inr (.inl (.inr ⟨attempt, i, h', p, place, hlast⟩))
    · refine .inl (hat set_calls_self ⟨k, ?_, hk⟩)
      rw [fail_of_not_last hlast]
      exact Nat.le_of_lt (hplace place)
  | gotLassie attempt i h' p b place =>
    have hik : i < k := hplace place
    exact .inl (hat set_calls_self ⟨k, hik, hk⟩)

/-- **What is released is ahead of the call**, which has not got the block. -/
theorem Fetches.Moves.released (hm : Moves hashes e s j c s') (hc : ListOk c)
    (hj' : s'.calls j = some c') (hgrip : c.at_.grip = some ⟨h, p, .listed⟩)
    (hgone : c'.at_.grip = none) : c'.Ahead h := by
  have hplace : ∀ {at_}, c.at_ = at_ → at_.grip = some ⟨h, p, .listed⟩ := fun h => h ▸ hgrip
  have hkeep : ∀ {d : FetchCall}, s'.calls j = some d → d.at_.grip = none := fun hd =>
    of_calls (P := fun c => c.at_.grip = none) hd hj' hgone
  cases hm with
  | release i h' p' place =>
    obtain rfl := Option.some.inj (set_calls_self.symm.trans hj')
    obtain ⟨rfl, -⟩ := Grip.mk.inj (Option.some.inj (hplace place))
    exact ⟨i, trivial, hc.place i h' (by rw [place]; rfl)⟩
  | success i h' p' b place hash => exact absurd (hkeep set_calls_self) nofun
  | fetched attempt i h' p' block place event => exact absurd (hkeep set_calls_self) nofun
  | resolveHttp i h' p' b r place left =>
    cases r with
    | removing => exact absurd (hkeep set_calls_self) nofun
    | _ => exact absurd (hplace place) (by simp [FetchAt.grip, Resolve.phase])
  | resolveLassie attempt i h' p' block r place left =>
    cases r with
    | removing => exact absurd (hkeep set_calls_self) nofun
    | _ => exact absurd (hplace place) (by simp [FetchAt.grip, Resolve.phase])
  | _ => simp_all [FetchAt.grip, Resolve.phase]

/-- An entry that is not claimed was not before, or has just been released. -/
theorem Fetches.Change.unclaimed (hs : Inv s) (hj : s.calls j = some c) (hc : Change s j c s')
    (hj' : s'.calls j = some c') (hentry : s'.ongoingRequests h = some p)
    (hfree : (s'.promises p).claimed = none) :
    s.ongoingRequests h = some p ∧ (s.promises p).claimed = none ∨
      c.at_.grip = some ⟨h, p, .listed⟩ ∧ c'.at_.grip = none := by
  -- a write that leaves the claim is no release
  have hwrite : ∀ {q : ℕ} {f at_}, (f (s.promises q)).claimed = (s.promises q).claimed →
      (((s.write q f).goto j c at_).promises p).claimed = none →
      (s.promises p).claimed = none := by
    intro q f at_ hf hfree
    by_cases hpq : p = q
    · subst hpq
      rw [write_goto_promise, hf] at hfree
      exact hfree
    · change (Function.update s.promises q _ p).claimed = none at hfree
      rw [Function.update_of_ne hpq] at hfree
      exact hfree
  cases hc with
  | quiet _ d calls promises made ongoing grip waits =>
    rw [ongoing] at hentry
    rw [promises] at hfree
    exact .inl ⟨hentry, hfree⟩
  | create stage i h' grip free =>
    change Function.update s.ongoingRequests h' (some s.made) h = some p at hentry
    change (Function.update s.promises s.made _ p).claimed = none at hfree
    -- the new promise is claimed by the call that makes it
    by_cases hp : p = s.made
    · subst hp
      rw [Function.update_self] at hfree
      exact absurd hfree nofun
    · rw [Function.update_of_ne hp] at hfree
      by_cases hh : h = h'
      · subst hh
        rw [Function.update_self] at hentry
        exact absurd (Option.some.inj hentry).symm hp
      · rw [Function.update_of_ne hh] at hentry
        exact .inl ⟨hentry, hfree⟩
  | claim stage i h' q grip entry free =>
    by_cases hpq : p = q
    · subst hpq
      rw [write_goto_promise] at hfree
      exact absurd hfree nofun
    · change (Function.update s.promises q _ p).claimed = none at hfree
      rw [Function.update_of_ne hpq] at hfree
      exact .inl ⟨hentry, hfree⟩
  | release h' q at_ grip after waits =>
    by_cases hpq : p = q
    · subst hpq
      -- the released promise is the entry of one hash only
      have hcid : h = h' := (hs.entries h p hentry).cid.symm.trans
        ((hs.calls j c hj).grip _ grip).cid
      subst hcid
      obtain rfl := Option.some.inj (set_calls_self.symm.trans hj')
      exact .inr ⟨grip, after⟩
    · change (Function.update s.promises q _ p).claimed = none at hfree
      rw [Function.update_of_ne hpq] at hfree
      exact .inl ⟨hentry, hfree⟩
  | remove h' q at_ grip after waits =>
    change Function.update s.ongoingRequests h' none h = some p at hentry
    by_cases hh : h = h'
    · subst hh
      rw [Function.update_self] at hentry
      exact absurd hentry nofun
    · rw [Function.update_of_ne hh] at hentry
      exact .inl ⟨hentry, hfree⟩
  | setResult h' q f at_ grip sets result after waits =>
    exact .inl ⟨hentry, hwrite (sets _).2.1 hfree⟩
  | close h' q at_ grip after waits => exact .inl ⟨hentry, hwrite rfl hfree⟩

/-! ## Why a promise is kept -/

/-- **The invariant**: whose promise is released has its hash ahead. -/
structure Held (s : Fetches) : Prop where
  inv : Inv s
  lists : ∀ j c, s.calls j = some c → ListOk c
  ahead : ∀ h p, s.ongoingRequests h = some p → (s.promises p).claimed = none →
    ∃ j c, s.calls j = some c ∧ c.Ahead h

theorem start_held : Held start := ⟨start_inv, nofun, nofun⟩

/-- **An event that relieves keeps it.** -/
theorem Held.effect (hs : Held s) (hr : s.Relieved e) (he : Effect hashes s e s') : Held s' := by
  have hs' : Inv s' := hs.inv.effect he
  refine ⟨hs', ListOk.effect hs.lists he, fun h p hentry hfree => ?_⟩
  cases he with
  | none => exact hs.ahead h p hentry hfree
  | evict hash => exact hs.ahead h p hentry hfree
  | call j mh caller fresh =>
    obtain ⟨i, d, hi, hd⟩ := hs.ahead h p hentry hfree
    have hij : i ≠ j := by
      rintro rfl
      exact absurd (fresh.symm.trans hi) nofun
    exact ⟨i, d, (set_calls_of_ne hij).trans hi, hd⟩
  | moves j c _ caller call moves =>
    have hother : ∀ i d, i ≠ j → s.calls i = some d → d.Ahead h →
        ∃ j c, s'.calls j = some c ∧ c.Ahead h := fun i d hij hi hd =>
      ⟨i, d, (moves.change.calls_of_ne hij).trans hi, hd⟩
    obtain ⟨c', hj'⟩ := moves.stays
    rcases moves.change.unclaimed hs.inv call hj' hentry hfree with ⟨hold, hunclaimed⟩ | ⟨hg, hgone⟩
    · obtain ⟨i, d, hi, hd⟩ := hs.ahead h p hold hunclaimed
      by_cases hij : i = j
      · subst hij
        obtain rfl := Option.some.inj (call.symm.trans hi)
        rcases moves.ahead (hs.lists i c call) hj' hd with ha | hgives | ⟨q, hg⟩ | ⟨q, hq, htaken⟩
        · exact ⟨i, c', hj', ha⟩
        · obtain ⟨k, d, hki, hk, hd⟩ := hr i c h p caller call hgives hd hold hunclaimed
          exact hother k d hki hk hd
        · have hok := (hs'.calls i c' hj').grip _ hg
          obtain rfl := Option.some.inj ((hok.listed.mp rfl).symm.trans hentry)
          exact absurd (hok.claimed.symm.trans hfree) nofun
        · obtain rfl := Option.some.inj (hq.symm.trans hold)
          exact absurd hunclaimed htaken
      · exact hother i d hij hi hd
    · exact ⟨j, c', hj', moves.released (hs.lists j c call) hj' hg hgone⟩

/-- **No promise is abandoned** where the invariant holds. -/
theorem Held.noneAbandoned (hs : Held s) : NoneAbandoned s := by
  have hentries : ∀ h p, s.ongoingRequests h = some p → s.Kept h p := by
    intro h p hp
    cases hclaimed : (s.promises p).claimed with
    | none =>
      obtain ⟨j, c, hj, hc⟩ := hs.ahead h p hp hclaimed
      exact ⟨j, c, hj, .inr hc⟩
    | some j =>
      obtain ⟨c, hj, hg⟩ := (hs.inv.entries h p hp).claimed j hclaimed
      exact ⟨j, c, hj, .inl ⟨_, hg, rfl⟩⟩
  refine ⟨hentries, fun i d h p hi hw hopen => ?_⟩
  obtain ⟨hmade, hcid⟩ := (hs.inv.calls i d hi).waits h p hw
  rcases (hs.inv.promises p hmade).open_ hopen with hentry | ⟨j, c, hj, hc⟩
  · rw [hcid] at hentry
    exact hentries h p hentry
  · exact ⟨j, c, hj, .inl hc⟩

/-- **An event that does not relieve** leaves a promise to nobody. -/
theorem Held.abandons (hs : Held s) (hr : ¬ s.Relieved e) :
    ¬ NoneAbandoned (s.next hashes e) := by
  unfold Relieved at hr
  push Not at hr
  obtain ⟨j, c, h, p, hcaller, hj, hgives, ha, hentry, hfree, hnone⟩ := hr
  obtain ⟨err, heq⟩ := next_givesUp hcaller hj hgives
  rw [heq]
  intro habandoned
  obtain ⟨i, d, hi, hkept⟩ := habandoned.entries h p hentry
  by_cases hij : i = j
  · subst hij
    obtain rfl := Option.some.inj (set_calls_self.symm.trans hi)
    rcases hkept with ⟨g, hg, -⟩ | ⟨k, hk, -⟩
    · exact absurd hg nofun
    · exact hk
  · have hi : s.calls i = some d := (set_calls_of_ne hij).symm.trans hi
    rcases hkept with ⟨g, hg, rfl⟩ | hd
    · have hclaimed := ((hs.inv.calls i d hi).grip g hg).claimed
      exact absurd (hfree.symm.trans hclaimed) nofun
    · exact hnone i d hij hi hd

/-- **No retrieval promise is abandoned exactly where** a call that gives up
has no hash ahead of it whose promise is released, or another call has it
ahead of it too. -/
theorem noneAbandoned_iff (hashes : Multihash → Bytes → Bool) (es : List FetchEvent) :
    (∀ es', es' <+: es → NoneAbandoned (run hashes es')) ↔
      Always (next hashes) Relieved start es :=
  (always_iff_throughout (fun s e hs hr => hs.effect hr (next_effect hashes s e))
    (fun _ hs => hs.noneAbandoned) (fun _ _ hs hr => hs.abandons hr) start_held).symm

/-! ## A call that fails on its first hash -/

/-- A call that no event is of was not made. -/
theorem run_calls_none {es : List FetchEvent} (h : ∀ e ∈ es, e.caller ≠ some j) :
    (run hashes es).calls j = none := by
  exact runEvents_invariant (I := fun s => s.calls j = none)
    (fun s e hs he => ((next_effect hashes s e).calls_of_ne he).trans hs) rfl
    (always_of_forall h start)

/-- A call asks for two blocks, and releases both promises in its HTTP stage;
another waits for the second. Lassie fails sixteen times on the first. -/
def failsOnFirst : List FetchEvent :=
  [.call 0 [[1], [2]], .step 0, .step 0, .step 0, .candidates 0 (some true), .step 0,
    .httpFailed 0, .step 0, .call 1 [[2]], .step 1, .step 1, .candidates 1 (some false), .step 1,
    .httpFailed 0, .step 0] ++
  (List.replicate 16 [.step 0, .lassie 0 none, .step 0, .step 0, .step 0, .step 0,
    .step 0]).flatten

/-- The second call waits for a promise that nobody will keep. -/
theorem not_noneAbandoned_failsOnFirst :
    ¬ NoneAbandoned (run (· == ·) failsOnFirst) := by
  intro h
  have hentry : (run (· == ·) failsOnFirst).ongoingRequests [2] = some 1 := by decide +kernel
  have hfirst : ((run (· == ·) failsOnFirst).calls 0).map FetchCall.at_ =
      some (.returned (some (.block 0))) := by decide +kernel
  have hsecond : ((run (· == ·) failsOnFirst).calls 1).map (fun c => (c.at_, c.mh)) =
      some (.waiting (.lassie 0) 0 [2] 1, [some [2]]) := by decide +kernel
  obtain ⟨j, c, hj, hkept⟩ := h.entries [2] 1 hentry
  by_cases h0 : j = 0
  · subst h0
    rw [hj] at hfirst
    have hat : c.at_ = .returned (some (.block 0)) := Option.some.inj hfirst
    rcases hkept with ⟨g, hg, -⟩ | ⟨k, hk, -⟩
    · rw [hat] at hg
      exact absurd hg nofun
    · rw [hat] at hk
      exact hk
  by_cases h1 : j = 1
  · subst h1
    rw [hj] at hsecond
    obtain ⟨hat, hmh⟩ := Prod.mk.inj (Option.some.inj hsecond)
    rcases hkept with ⟨g, hg, -⟩ | ⟨k, hk, hleft⟩
    · rw [hat] at hg
      exact absurd hg nofun
    · rw [hat] at hk
      have hpos : 0 < k := hk
      rw [hmh, List.getElem?_eq_none_iff.mpr (by simp; omega)] at hleft
      exact absurd hleft nofun
  · have hcallers : ∀ e ∈ failsOnFirst, e.caller = some 0 ∨ e.caller = some 1 := by
      decide +kernel
    have hnone : (run (· == ·) failsOnFirst).calls j = none := by
      refine run_calls_none fun e he hcaller => ?_
      rcases hcallers e he with h | h
      · exact h0 (Option.some.inj (hcaller.symm.trans h))
      · exact h1 (Option.some.inj (hcaller.symm.trans h))
    exact absurd (hnone.symm.trans hj) nofun

end Rbdeal

end Ribs
