import Ribs.Rbdeal.FetchBlocks
/-!
# Rbdeal — what a call of `FetchBlocks` delivers

A call keeps book of its list in three ways: what the cache or its own HTTP
stage has found it sets to nil, and counts; what it was given in the HTTP
stage by another call's promise it hands on, and neither sets to nil nor
counts. Lassie's stage goes over all that is left, that too.
-/

namespace Ribs

open Common
open Bsst (Multihash)

namespace Rbdeal

/-- How often `cb` was called for an index. -/
def FetchCall.times (c : FetchCall) (i : ℕ) : ℕ := c.delivered.countP fun x => x.1 = i

/-- The index that is worked on, and its hash. -/
def FetchAt.place : FetchAt → Option (ℕ × Multihash)
  | .waiting _ i h _ => some (i, h)
  | .getting i h _ _ => some (i, h)
  | .fetching _ i h _ => some (i, h)
  | .resolving _ i h _ _ _ => some (i, h)
  | _ => none

/-- The first index that the HTTP stage has not left behind. -/
def FetchAt.httpFrom : FetchAt → Option ℕ
  | .looking _ => some 0
  | .candidates => some 0
  | .asking .http i => some i
  | .waiting .http i _ _ => some i
  | .getting i _ _ _ => some i
  | _ => none

/-- The first index that lassie's stage has not left behind. -/
def FetchAt.lassieFrom : FetchAt → Option ℕ
  | .looking _ => some 0
  | .candidates => some 0
  | .asking .http _ => some 0
  | .asking (.lassie _) i => some i
  | .waiting .http _ _ _ => some 0
  | .waiting (.lassie _) i _ _ => some i
  | .getting _ _ _ _ => some 0
  | .fetching _ i _ _ => some i
  | .resolving _ i _ _ _ _ => some i
  | .returned _ => none

/-- The index that lassie's stage has come to, of a stage that is at `i`. -/
def Stage.lassieIndex (i : ℕ) : Stage → ℕ
  | .http => 0
  | .lassie _ => i

/-- Before the HTTP stage. -/
def FetchAt.early : FetchAt → Bool
  | .looking _ => true
  | .candidates => true
  | _ => false

/-- **What a call knows of its list.** -/
structure ListOk (c : FetchCall) : Prop where
  length : c.mh.length = c.asked.length
  left : ∀ (i : ℕ) h, c.mh[i]? = some (some h) → c.asked[i]? = some h
  place : ∀ (i : ℕ) h, c.at_.place = some (i, h) → c.mh[i]? = some (some h)
  hits : c.cacheHits + c.httpHits = c.mh.count none
  early : c.at_.early = true → c.httpHits = 0
  /-- What is set to nil was delivered. -/
  found : ∀ i : ℕ, c.mh[i]? = some none → c.times i = 1
  /-- What is left was delivered where it was borrowed, and by lassie's stage. -/
  todo : ∀ (i : ℕ) h n, c.mh[i]? = some (some h) → c.at_.lassieFrom = some n →
    c.times i = c.borrowed.count i + if i < n then 1 else 0
  borrowed : ∀ i n, c.at_.httpFrom = some n → i ∈ c.borrowed → i < n
  nodup : c.borrowed.Nodup
  /-- The call does not note that it has borrowed a block. -/
  kept : ∀ i ∈ c.borrowed, ∃ h, c.mh[i]? = some (some h)
  done : c.at_ = .returned none → ∀ (i : ℕ) h, c.mh[i]? = some (some h) →
    c.times i = c.borrowed.count i + 1
  failed : ∀ i : ℕ, c.at_ = .returned (some (.block i)) →
    c.times i = c.borrowed.count i ∧ ∃ h, c.mh[i]? = some (some h)

section lists

open Fetches

variable {hashes : Multihash → Bytes → Bool} {e : FetchEvent} {s s' : Fetches}
variable {c c' : FetchCall} {i j : ℕ} {h : Multihash} {p : ℕ} {b : Bytes}

/-- One more call of `cb`. -/
theorem times_append (k : ℕ) :
    (c.delivered ++ [(i, b)]).countP (fun x => x.1 = k) = c.times k + if i = k then 1 else 0 := by
  rw [List.countP_append, List.countP_singleton, FetchCall.times]
  by_cases hik : i = k <;> simp [hik]

/-- Before lassie's stage what is left and not borrowed was not delivered. -/
theorem ListOk.times_zero (hc : ListOk c) (hleft : c.mh[i]? = some (some h))
    (hlassie : c.at_.lassieFrom = some 0) (hhttp : ∃ n, c.at_.httpFrom = some n ∧ n ≤ i) :
    c.times i = 0 := by
  obtain ⟨n, hn, hle⟩ := hhttp
  have hborrowed : i ∉ c.borrowed := fun hi => by
    have := hc.borrowed i n hn hi
    omega
  rw [hc.todo i h 0 hleft hlassie, List.count_eq_zero.mpr hborrowed]
  rfl

/-- The call goes on, with its list and its book as they are. -/
theorem ListOk.goto (hc : ListOk c) {at_ : FetchAt}
    (hplace : ∀ (i : ℕ) h, at_.place = some (i, h) → c.mh[i]? = some (some h))
    (hearly : at_.early = true → c.at_.early = true)
    (hlassie : ∀ n, at_.lassieFrom = some n → ∃ m, c.at_.lassieFrom = some m ∧
      ∀ (i : ℕ) h, c.mh[i]? = some (some h) → (i < n ↔ i < m))
    (hhttp : ∀ n, at_.httpFrom = some n → ∃ m, c.at_.httpFrom = some m ∧ m ≤ n)
    (hdone : at_ = .returned none → ∀ (i : ℕ) h, c.mh[i]? = some (some h) →
      c.times i = c.borrowed.count i + 1)
    (hfailed : ∀ i : ℕ, at_ = .returned (some (.block i)) →
      c.times i = c.borrowed.count i ∧ ∃ h, c.mh[i]? = some (some h)) :
    ListOk { c with at_ := at_ } where
  length := hc.length
  left := hc.left
  place := hplace
  hits := hc.hits
  early h := hc.early (hearly h)
  found := hc.found
  todo i h n hleft hn := by
    obtain ⟨m, hm, hiff⟩ := hlassie n hn
    have htimes := hc.todo i h m hleft hm
    simp only [hiff i h hleft]
    exact htimes
  borrowed i n hn hi := by
    obtain ⟨m, hm, hle⟩ := hhttp n hn
    exact Nat.lt_of_lt_of_le (hc.borrowed i m hm hi) hle
  nodup := hc.nodup
  kept := hc.kept
  done := hdone
  failed := hfailed

/-- The call goes on, and has not returned. -/
theorem ListOk.stay (hc : ListOk c) {at_ : FetchAt}
    (hplace : ∀ i h, at_.place = some (i, h) → c.mh[i]? = some (some h))
    (hearly : at_.early = true → c.at_.early = true) (hlassie : at_.lassieFrom = c.at_.lassieFrom)
    (hhttp : ∀ n, at_.httpFrom = some n → ∃ m, c.at_.httpFrom = some m ∧ m ≤ n)
    (hreturned : ∀ err, at_ ≠ .returned err) : ListOk { c with at_ := at_ } :=
  hc.goto hplace hearly (fun n hn => ⟨n, hlassie.symm.trans hn, fun _ _ _ => Iff.rfl⟩) hhttp
    (fun h => absurd h (hreturned _)) (fun _ h => absurd h (hreturned _))

/-- The call goes on at the index it is at. -/
theorem ListOk.work (hc : ListOk c) {at_ : FetchAt} (hleft : c.mh[i]? = some (some h))
    (hplace : at_.place = some (i, h)) (hearly : at_.early = false)
    (hlassie : at_.lassieFrom = c.at_.lassieFrom) (hhttp : at_.httpFrom = c.at_.httpFrom)
    (hreturned : ∀ err, at_ ≠ .returned err) : ListOk { c with at_ := at_ } := by
  refine hc.stay (fun k x hk => ?_) (fun he => ?_) hlassie (fun n hn => ?_) hreturned
  · obtain ⟨rfl, rfl⟩ := Prod.mk.inj (Option.some.inj (hplace.symm.trans hk))
    exact hleft
  · rw [hearly] at he
    exact absurd he nofun
  · exact ⟨n, hhttp.symm.trans hn, Nat.le_refl n⟩

/-- The call has found a block, sets its hash to nil and counts it. -/
theorem ListOk.settle (hc : ListOk c) (hleft : c.mh[i]? = some (some h))
    (hzero : c.times i = 0) {cacheHits httpHits : ℕ} {at_ : FetchAt}
    (hhits : cacheHits + httpHits = c.cacheHits + c.httpHits + 1)
    (hplace : at_.place = none) (hearly : at_.early = true → httpHits = 0)
    (hlassie : at_.lassieFrom = some 0) (hlassie' : c.at_.lassieFrom = some 0)
    (hhttp : ∀ n, at_.httpFrom = some n → ∃ m, c.at_.httpFrom = some m ∧ m ≤ n)
    (hreturned : ∀ err, at_ ≠ .returned err) :
    ListOk { c with
      mh := c.mh.set i none
      cacheHits := cacheHits
      httpHits := httpHits
      delivered := c.delivered ++ [(i, b)]
      at_ := at_ } := by
  have hne : ∀ k x, (c.mh.set i none)[k]? = some (some x) → i ≠ k ∧ c.mh[k]? = some (some x) := by
    intro k x hk
    by_cases hik : i = k
    · subst hik
      simp [List.getElem?_set] at hk
    · rw [List.getElem?_set_ne hik] at hk
      exact ⟨hik, hk⟩
  -- a borrowed block was delivered, and this one was not
  have hnot : i ∉ c.borrowed := by
    have htimes := hc.todo i h 0 hleft hlassie'
    exact List.count_eq_zero.mp (by simp at htimes; omega)
  refine ⟨?_, ?_, ?_, ?_, hearly, ?_, ?_, ?_, hc.nodup, ?_, ?_, ?_⟩
  · exact (List.length_set ..).trans hc.length
  · exact fun k x hk => hc.left k x (hne k x hk).2
  · exact fun k x hk => absurd (hplace.symm.trans hk) nofun
  · change cacheHits + httpHits = (c.mh.set i none).count none
    obtain ⟨hi, hget⟩ := List.getElem?_eq_some_iff.mp hleft
    rw [hhits, hc.hits, List.count_set hi, hget]
    simp
  · intro k hk
    change (c.delivered ++ [(i, b)]).countP (fun x => x.1 = k) = 1
    rw [times_append]
    by_cases hik : i = k
    · subst hik
      rw [hzero, if_pos rfl]
    · change (c.mh.set i none)[k]? = some none at hk
      rw [List.getElem?_set_ne hik] at hk
      rw [hc.found k hk, if_neg hik]
  · intro k x n hk hn
    obtain ⟨hik, hk⟩ := hne k x hk
    obtain rfl := Option.some.inj (hlassie.symm.trans hn)
    change (c.delivered ++ [(i, b)]).countP (fun x => x.1 = k) = _
    rw [times_append, if_neg hik]
    exact hc.todo k x 0 hk hlassie'
  · intro k n hn hk
    obtain ⟨m, hm, hle⟩ := hhttp n hn
    exact Nat.lt_of_lt_of_le (hc.borrowed k m hm hk) hle
  · intro k hk
    obtain ⟨x, hx⟩ := hc.kept k hk
    refine ⟨x, ?_⟩
    change (c.mh.set i none)[k]? = some (some x)
    have hik : i ≠ k := by
      rintro rfl
      exact hnot hk
    rw [List.getElem?_set_ne hik, hx]
  · exact fun hat => absurd hat (hreturned _)
  · exact fun k hat => absurd hat (hreturned _)

/-- The HTTP stage hands on what another call's promise holds. -/
theorem ListOk.borrow (hc : ListOk c) (hat : c.at_ = .waiting .http i h p) :
    ListOk { c with
      borrowed := i :: c.borrowed
      delivered := c.delivered ++ [(i, b)]
      at_ := .asking .http (i + 1) } := by
  have hleft : c.mh[i]? = some (some h) := hc.place i h (by rw [hat]; rfl)
  have hnot : i ∉ c.borrowed := fun hi =>
    absurd (hc.borrowed i i (by rw [hat]; rfl) hi) (Nat.lt_irrefl i)
  have hlassie : c.at_.lassieFrom = some 0 := by
    rw [hat]
    rfl
  refine ⟨hc.length, hc.left, fun _ _ hk => (nomatch hk), hc.hits, fun hk => (nomatch hk), ?_, ?_, ?_,
    List.nodup_cons.mpr ⟨hnot, hc.nodup⟩, ?_, fun hk => (nomatch hk), fun _ hk => (nomatch hk)⟩
  · intro k hk
    change (c.delivered ++ [(i, b)]).countP (fun x => x.1 = k) = 1
    have hik : i ≠ k := by
      rintro rfl
      rw [hleft] at hk
      simp at hk
    rw [times_append, if_neg hik, hc.found k hk]
  · intro k x n hk hn
    obtain rfl : 0 = n := Option.some.inj hn
    change (c.delivered ++ [(i, b)]).countP (fun x => x.1 = k) = (i :: c.borrowed).count k + 0
    rw [times_append, hc.todo k x 0 hk hlassie, List.count_cons]
    by_cases hik : i = k <;> simp [hik]
  · intro k n hn hk
    obtain rfl : i + 1 = n := Option.some.inj hn
    rcases List.mem_cons.mp hk with rfl | hk
    · exact Nat.lt_succ_self k
    · exact Nat.lt_succ_of_lt (hc.borrowed k i (by rw [hat]; rfl) hk)
  · intro k hk
    rcases List.mem_cons.mp hk with rfl | hk
    · exact ⟨h, hleft⟩
    · exact hc.kept k hk

/-- Lassie's stage has the block of an index. -/
theorem ListOk.pass (hc : ListOk c) (hplace : c.at_.place = some (i, h))
    (hlassie : c.at_.lassieFrom = some i) :
    ListOk { c with
      delivered := c.delivered ++ [(i, b)]
      at_ := .asking (.lassie 0) (i + 1) } := by
  have hleft : c.mh[i]? = some (some h) := hc.place i h hplace
  refine ⟨hc.length, hc.left, fun _ _ hk => (nomatch hk), hc.hits, fun hk => (nomatch hk), ?_, ?_,
    fun _ _ hk => (nomatch hk), hc.nodup, hc.kept, fun hk => (nomatch hk), fun _ hk => (nomatch hk)⟩
  · intro k hk
    change (c.delivered ++ [(i, b)]).countP (fun x => x.1 = k) = 1
    have hik : i ≠ k := by
      rintro rfl
      rw [hleft] at hk
      simp at hk
    rw [times_append, if_neg hik, hc.found k hk]
  · intro k x n hk hn
    obtain rfl : i + 1 = n := Option.some.inj hn
    change (c.delivered ++ [(i, b)]).countP (fun x => x.1 = k) =
      c.borrowed.count k + if k < i + 1 then 1 else 0
    rw [times_append, hc.todo k x i hk hlassie]
    split_ifs <;> omega

/-- When as many were found as there are, nothing is left. -/
theorem ListOk.none_left (hc : ListOk c) (hall : c.cacheHits + c.httpHits = c.mh.length) (k : ℕ)
    (x : Multihash) : c.mh[k]? ≠ some (some x) := by
  intro hk
  rw [hc.hits] at hall
  have hmem := List.count_eq_length.mp hall _ (List.mem_of_getElem? hk)
  exact absurd hmem nofun

/-- Behind the HTTP stage. -/
theorem ListOk.afterHttp (hc : ListOk c) (hlassie : c.at_.lassieFrom = some 0) :
    ListOk { c with at_ := c.afterHttp } := by
  unfold FetchCall.afterHttp
  split
  · rename_i hall
    exact hc.goto (fun _ _ hk => nomatch hk) (fun hk => nomatch hk) (fun _ hk => nomatch hk)
      (fun _ hk => nomatch hk) (fun _ k x hk => absurd hk (hc.none_left hall k x))
      (fun _ hk => nomatch hk)
  · refine hc.goto (fun _ _ hk => nomatch hk) (fun hk => nomatch hk) (fun n hn => ?_)
      (fun _ hk => nomatch hk) (fun hk => nomatch hk) (fun _ hk => nomatch hk)
    obtain rfl : 0 = n := Option.some.inj hn
    exact ⟨0, hlassie, fun _ _ _ => Iff.rfl⟩

/-- A stage fails at an index, or tries it again. -/
theorem ListOk.fail (hc : ListOk c) {stage : Stage} (hplace : c.at_.place = some (i, h))
    (hlassie : c.at_.lassieFrom = some (stage.lassieIndex i)) :
    ListOk { c with at_ := stage.fail i } := by
  have hleft : c.mh[i]? = some (some h) := hc.place i h hplace
  have htimes : c.times i = c.borrowed.count i := by
    rw [hc.todo i h _ hleft hlassie, if_neg]
    · rfl
    · cases stage with
      | http => exact Nat.not_lt_zero i
      | lassie attempt => exact Nat.lt_irrefl i
  have hgiveUp : ListOk { c with at_ := .returned (some (.block i)) } := by
    refine hc.goto (by simp [FetchAt.place]) (by simp [FetchAt.early]) (by simp [FetchAt.lassieFrom])
      (by simp [FetchAt.httpFrom]) (by simp) (fun k hk => ?_)
    obtain rfl : i = k := FetchErr.block.inj (Option.some.inj (FetchAt.returned.inj hk))
    exact ⟨htimes, h, hleft⟩
  cases stage with
  | http => exact hgiveUp
  | lassie attempt =>
    simp only [Stage.fail]
    split
    · refine hc.goto (by simp [FetchAt.place]) (by simp [FetchAt.early]) (fun n hn => ?_)
        (by simp [FetchAt.httpFrom]) (by simp) (by simp)
      obtain rfl : i = n := Option.some.inj hn
      exact ⟨i, hlassie, fun _ _ _ => Iff.rfl⟩
    · exact hgiveUp

theorem ListOk.moves (hc : ListOk c) (hm : Moves hashes e s j c s') (hj : s'.calls j = some c') :
    ListOk c' := by
  have hat : ∀ {d : FetchCall}, s'.calls j = some d → ListOk d → ListOk c' := of_calls hj
  -- what the place of the move says, read at the call's own place
  have hplace : ∀ {at_}, c.at_ = at_ → c.at_.place = at_.place := fun h => by rw [h]
  have hlassie : ∀ {at_}, c.at_ = at_ → c.at_.lassieFrom = at_.lassieFrom := fun h => by rw [h]
  have hhttp : ∀ {at_}, c.at_ = at_ → c.at_.httpFrom = at_.httpFrom := fun h => by rw [h]
  have hearly : ∀ {at_}, c.at_ = at_ → c.at_.early = at_.early := fun h => by rw [h]
  cases hm with
  -- the cache answers: the block is delivered, and its place emptied
  | hit i h b place left cached =>
    refine hat set_calls_self (hc.settle left ?_ ?_ rfl ?_ rfl (hlassie place) ?_ nofun)
    · exact hc.times_zero left (hlassie place) ⟨0, hhttp place, Nat.zero_le _⟩
    · change c.cacheHits + 1 + c.httpHits = _
      omega
    · exact fun _ => hc.early (hearly place)
    · intro n hn
      exact ⟨0, hhttp place, Nat.zero_le _⟩
  | miss i place =>
    refine hat set_calls_self (hc.stay nofun (fun _ => hearly place) (hlassie place).symm ?_ nofun)
    exact fun n hn => ⟨n, (hhttp place).trans hn, Nat.le_refl n⟩
  | looked i place outside =>
    refine hat set_calls_self ?_
    split
    -- all hits: nothing is left of the list, so there is nothing to keep
    · rename_i hall
      have hzero := hc.early (hearly place)
      refine hc.goto nofun nofun nofun nofun (fun _ k x hk => ?_) nofun
      exact absurd hk (hc.none_left (by omega) k x)
    · refine hc.stay nofun (fun _ => hearly place) (hlassie place).symm (fun n hn => ?_) nofun
      exact ⟨n, (hhttp place).trans hn, Nat.le_refl n⟩
  | noCandidates place => exact hat set_calls_self (hc.goto nofun nofun nofun nofun nofun nofun)
  | http place =>
    refine hat set_calls_self (hc.stay nofun nofun (hlassie place).symm (fun n hn => ?_) nofun)
    exact ⟨0, hhttp place, Nat.zero_le n⟩
  | noHttp place => exact hat set_calls_self (hc.afterHttp (hlassie place))
  | endHttp i place outside => exact hat set_calls_self (hc.afterHttp (hlassie place))
  | endLassie attempt i place outside =>
    refine hat set_calls_self (hc.goto nofun nofun nofun nofun (fun _ k x hk => ?_) nofun)
    have hki : k < i := by
      obtain ⟨hk, -⟩ := List.getElem?_eq_some_iff.mp hk
      have := List.getElem?_eq_none_iff.mp outside
      omega
    -- what is left of the list was passed by the last attempt
    rw [hc.todo k x i hk (hlassie place), if_pos hki]
  | skip stage i place found =>
    refine hat set_calls_self ?_
    cases stage with
    | http =>
      refine hc.stay nofun nofun (hlassie place).symm (fun n hn => ?_) nofun
      obtain rfl : i + 1 = n := Option.some.inj hn
      exact ⟨i, hhttp place, Nat.le_succ i⟩
    | lassie attempt =>
      refine hc.goto nofun nofun (fun n hn => ?_) nofun nofun nofun
      obtain rfl : i + 1 = n := Option.some.inj hn
      refine ⟨i, hlassie place, fun k x hk => ?_⟩
      -- the place that is skipped is empty
      have hik : k ≠ i := by
        rintro rfl
        rw [found] at hk
        simp at hk
      omega
  | create stage i h place left free =>
    refine hat set_calls_self ?_
    cases stage with
    | http => exact hc.work left rfl rfl (hlassie place).symm (hhttp place).symm nofun
    | lassie attempt => exact hc.work left rfl rfl (hlassie place).symm (hhttp place).symm nofun
  | claim stage i h p place left entry free =>
    refine hat set_calls_self ?_
    cases stage with
    | http => exact hc.work left rfl rfl (hlassie place).symm (hhttp place).symm nofun
    | lassie attempt => exact hc.work left rfl rfl (hlassie place).symm (hhttp place).symm nofun
  | wait stage i h p place left entry taken =>
    refine hat set_calls_self ?_
    cases stage with
    | http => exact hc.work left rfl rfl (hlassie place).symm (hhttp place).symm nofun
    | lassie attempt => exact hc.work left rfl rfl (hlassie place).symm (hhttp place).symm nofun
  | fail stage i h p place =>
    refine hat set_calls_self (hc.fail (hplace place) ?_)
    cases stage <;> exact hlassie place
  | given stage i h p place closed fine =>
    cases stage with
    -- the answer of another call: it is borrowed, and stays on the list
    | http => exact hat set_calls_self (hc.borrow place)
    | lassie attempt => exact hat set_calls_self (hc.pass (hplace place) (hlassie place))
  | success i h p b place hash =>
    exact hat set_calls_self (hc.work (hc.place i h (hplace place)) rfl rfl (hlassie place).symm
      (hhttp place).symm nofun)
  | release i h p place =>
    refine hat set_calls_self (hc.stay nofun nofun (hlassie place).symm (fun n hn => ?_) nofun)
    obtain rfl : i + 1 = n := Option.some.inj hn
    exact ⟨i, hhttp place, Nat.le_succ i⟩
  | resolveHttp i h p b r place left =>
    exact hat set_calls_self (hc.work (hc.place i h (hplace place)) rfl rfl (hlassie place).symm
      (hhttp place).symm nofun)
  -- the call's own block: delivered, and its place emptied
  | gotHttp i h p b place =>
    have hleft := hc.place i h (hplace place)
    refine hat set_calls_self (hc.settle hleft ?_ ?_ rfl nofun rfl (hlassie place) ?_ nofun)
    · exact hc.times_zero hleft (hlassie place) ⟨i, hhttp place, Nat.le_refl _⟩
    · change c.cacheHits + (c.httpHits + 1) = _
      omega
    · intro n hn
      obtain rfl : i + 1 = n := Option.some.inj hn
      exact ⟨i, hhttp place, Nat.le_succ i⟩
  | fetched attempt i h p block place event =>
    exact hat set_calls_self (hc.work (hc.place i h (hplace place)) rfl rfl (hlassie place).symm
      (hhttp place).symm nofun)
  | resolveLassie attempt i h p block r place left =>
    exact hat set_calls_self (hc.work (hc.place i h (hplace place)) rfl rfl (hlassie place).symm
      (hhttp place).symm nofun)
  | failLassie attempt i h p place =>
    exact hat set_calls_self (hc.fail (hplace place) (hlassie place))
  | gotLassie attempt i h p b place =>
    exact hat set_calls_self (hc.pass (hplace place) (hlassie place))

theorem ListOk.new (mh : List Multihash) : ListOk { mh := mh.map some, asked := mh } where
  length := List.length_map ..
  left i h hi := by
    obtain ⟨x, hx, hxh⟩ := Option.map_eq_some_iff.mp ((List.getElem?_map ..).symm.trans hi)
    rw [hx, Option.some.inj hxh]
  place _ _ hp := (nomatch hp)
  hits := by
    change 0 = (mh.map some).count none
    rw [eq_comm, List.count_eq_zero]
    simp
  early _ := rfl
  found i hi := by
    obtain ⟨x, -, hx⟩ := Option.map_eq_some_iff.mp ((List.getElem?_map ..).symm.trans hi)
    exact absurd hx nofun
  todo i h n _ hn := by
    obtain rfl : 0 = n := Option.some.inj hn
    rfl
  borrowed _ _ _ hi := (nomatch hi)
  nodup := List.nodup_nil
  kept _ hi := (nomatch hi)
  done hat := (nomatch hat)
  failed _ hat := (nomatch hat)

/-! ## What the borrowed indices spoil -/

/-- No index that was borrowed has come up in lassie's stage. -/
structure Clean (c : FetchCall) : Prop where
  place : ∀ i h, c.at_.place = some (i, h) → i ∉ c.borrowed
  ahead : ∀ i ∈ c.borrowed, ∀ n, c.at_.lassieFrom = some n → n ≤ i
  done : c.at_ = .returned none → c.borrowed = []
  failed : ∀ i, c.at_ = .returned (some (.block i)) → i ∉ c.borrowed

/-- Lassie's stage never comes to an index that the call has borrowed in its
HTTP stage. -/
def Unborrowed (s : Fetches) : FetchEvent → Prop
  | .step j => ∀ c attempt i h, s.calls j = some c → c.at_ = .asking (.lassie attempt) i →
    c.mh[i]? = some (some h) → i ∉ c.borrowed
  | _ => True

/-- The work at an index does not start behind it. -/
theorem place_from {at_ : FetchAt} (hp : at_.place = some (i, h)) :
    ∃ n, at_.lassieFrom = some n ∧ n ≤ i := by
  cases at_ with
  | waiting stage k x q =>
    obtain ⟨rfl, rfl⟩ := Prod.mk.inj (Option.some.inj hp)
    cases stage with
    | http => exact ⟨0, rfl, Nat.zero_le k⟩
    | lassie attempt => exact ⟨k, rfl, Nat.le_refl k⟩
  | getting k x q got => exact ⟨0, rfl, Nat.zero_le _⟩
  | fetching attempt k x q =>
    obtain ⟨rfl, rfl⟩ := Prod.mk.inj (Option.some.inj hp)
    exact ⟨k, rfl, Nat.le_refl k⟩
  | resolving attempt k x q block r =>
    obtain ⟨rfl, rfl⟩ := Prod.mk.inj (Option.some.inj hp)
    exact ⟨k, rfl, Nat.le_refl k⟩
  | _ => exact absurd hp nofun

theorem Clean.goto {at_ : FetchAt}
    (hplace : ∀ i h, at_.place = some (i, h) → i ∉ c.borrowed)
    (hahead : ∀ n, at_.lassieFrom = some n → ∀ i ∈ c.borrowed, n ≤ i)
    (hdone : at_ = .returned none → c.borrowed = [])
    (hfailed : ∀ i, at_ = .returned (some (.block i)) → i ∉ c.borrowed) :
    Clean { c with at_ := at_ } :=
  ⟨hplace, fun i hi n hn => hahead n hn i hi, hdone, hfailed⟩

/-- The call goes on with the index it is at, or with none. -/
theorem Clean.stay (hk : Clean c) {at_ : FetchAt}
    (hplace : at_.place = none ∨ at_.place = c.at_.place)
    (hlassie : at_.lassieFrom = c.at_.lassieFrom) (hreturned : ∀ err, at_ ≠ .returned err) :
    Clean { c with at_ := at_ } := by
  refine Clean.goto (fun i h hp => ?_) (fun n hn i hi => hk.ahead i hi n (hlassie.symm.trans hn))
    (fun h => absurd h (hreturned _)) (fun _ h => absurd h (hreturned _))
  rcases hplace with hnone | hsame
  · exact absurd (hnone.symm.trans hp) nofun
  · exact hk.place i h (hsame.symm.trans hp)

/-- Where nothing is left nothing was borrowed. -/
theorem ListOk.borrowed_nil (hc : ListOk c)
    (hleft : ∀ k ∈ c.borrowed, ∀ x, c.mh[k]? ≠ some (some x)) : c.borrowed = [] := by
  refine List.eq_nil_iff_forall_not_mem.mpr fun k hk => ?_
  obtain ⟨x, hx⟩ := hc.kept k hk
  exact hleft k hk x hx

theorem Clean.afterHttp (hk : Clean c) (hc : ListOk c) (hlassie : c.at_.lassieFrom = some 0) :
    Clean { c with at_ := c.afterHttp } := by
  unfold FetchCall.afterHttp
  split
  · rename_i hall
    exact Clean.goto nofun nofun (fun _ => hc.borrowed_nil fun k _ => hc.none_left hall k) nofun
  · exact hk.stay (.inl rfl) hlassie.symm nofun

theorem Clean.fail (hk : Clean c) {stage : Stage} (hplace : c.at_.place = some (i, h))
    (hlassie : c.at_.lassieFrom = some (stage.lassieIndex i)) :
    Clean { c with at_ := stage.fail i } := by
  have hgiveUp : Clean { c with at_ := .returned (some (.block i)) } := by
    refine Clean.goto (by simp [FetchAt.place]) (by simp [FetchAt.lassieFrom]) (by simp)
      fun k hat => ?_
    obtain rfl : i = k := FetchErr.block.inj (Option.some.inj (FetchAt.returned.inj hat))
    exact hk.place i h hplace
  cases stage with
  | http => exact hgiveUp
  | lassie attempt =>
    simp only [Stage.fail]
    split
    · exact hk.stay (.inl rfl) hlassie.symm (by simp)
    · exact hgiveUp

/-- The call takes up an index that it has not borrowed. -/
theorem Clean.work (hk : Clean c) {at_ : FetchAt} (hplace : at_.place = some (i, h))
    (hnot : i ∉ c.borrowed) (hlassie : at_.lassieFrom = c.at_.lassieFrom)
    (hreturned : ∀ err, at_ ≠ .returned err) : Clean { c with at_ := at_ } := by
  refine Clean.goto (fun k x hp => ?_) (fun n hn k hi => hk.ahead k hi n (hlassie.symm.trans hn))
    (fun h => absurd h (hreturned _)) (fun _ h => absurd h (hreturned _))
  obtain ⟨rfl, rfl⟩ := Prod.mk.inj (Option.some.inj (hplace.symm.trans hp))
  exact hnot

/-- The index `i` is left behind in lassie's stage. -/
theorem Clean.pass (hk : Clean c) (hnot : i ∉ c.borrowed) (hlassie : c.at_.lassieFrom = some i)
    {d : FetchCall} (hb : d.borrowed = c.borrowed) (hat : d.at_ = .asking (.lassie 0) (i + 1)) :
    Clean d := by
  refine ⟨?_, ?_, ?_, ?_⟩
  · rw [hat]
    exact nofun
  · rw [hat, hb]
    intro k hk' n hn
    obtain rfl : i + 1 = n := Option.some.inj hn
    have hle := hk.ahead k hk' i hlassie
    have hne : i ≠ k := by
      rintro rfl
      exact hnot hk'
    omega
  · rw [hat]
    exact nofun
  · rw [hat]
    exact nofun

/-- What the HTTP stage comes to it has not borrowed. -/
theorem ListOk.http_not_borrowed (hc : ListOk c) (hhttp : c.at_.httpFrom = some i) :
    i ∉ c.borrowed :=
  fun hi => absurd (hc.borrowed i i hhttp hi) (Nat.lt_irrefl i)

theorem Clean.moves (hk : Clean c) (hc : ListOk c) (hm : Moves hashes e s j c s')
    (hcall : s.calls j = some c) (hu : Unborrowed s e) (hj : s'.calls j = some c') : Clean c' := by
  have hat : ∀ {d : FetchCall}, s'.calls j = some d → Clean d → Clean c' := of_calls hj
  have hplace : ∀ {at_}, c.at_ = at_ → c.at_.place = at_.place := fun h => by rw [h]
  have hlassie : ∀ {at_}, c.at_ = at_ → c.at_.lassieFrom = at_.lassieFrom := fun h => by rw [h]
  have hhttp : ∀ {at_}, c.at_ = at_ → c.at_.httpFrom = at_.httpFrom := fun h => by rw [h]
  -- a hash that is taken up is not a borrowed one, by the condition on the step
  have htake : ∀ {stage i h}, e = .step j → c.at_ = .asking stage i →
      c.mh[i]? = some (some h) → i ∉ c.borrowed := by
    intro stage i h he place left
    cases stage with
    | http => exact hc.http_not_borrowed (hhttp place)
    | lassie attempt =>
      subst he
      exact hu c attempt i h hcall place left
  cases hm with
  | hit i h b place left cached =>
    exact hat set_calls_self ⟨nofun, fun i hi n hn => hk.ahead i hi n ((hlassie place).trans hn),
      nofun, nofun⟩
  | miss i place => exact hat set_calls_self (hk.stay (.inl rfl) (hlassie place).symm nofun)
  | looked i place outside =>
    refine hat set_calls_self ?_
    split
    · have hnil : c.borrowed = [] := List.eq_nil_iff_forall_not_mem.mpr fun k hb =>
        absurd (hc.borrowed k 0 (hhttp place) hb) (Nat.not_lt_zero k)
      exact Clean.goto nofun nofun (fun _ => hnil) nofun
    · exact hk.stay (.inl rfl) (hlassie place).symm nofun
  | noCandidates place => exact hat set_calls_self (Clean.goto nofun nofun nofun nofun)
  | http place => exact hat set_calls_self (hk.stay (.inl rfl) (hlassie place).symm nofun)
  | noHttp place => exact hat set_calls_self (hk.afterHttp hc (hlassie place))
  | endHttp i place outside => exact hat set_calls_self (hk.afterHttp hc (hlassie place))
  | endLassie attempt i place outside =>
    refine hat set_calls_self (Clean.goto nofun nofun (fun _ => hc.borrowed_nil fun k hb x hx => ?_)
      nofun)
    -- a borrowed place is ahead of the call, and there is none behind the list
    have hle := hk.ahead k hb i (hlassie place)
    obtain ⟨hlt, -⟩ := List.getElem?_eq_some_iff.mp hx
    have := List.getElem?_eq_none_iff.mp outside
    omega
  | skip stage i place found =>
    cases stage with
    | http => exact hat set_calls_self (hk.stay (.inl rfl) (hlassie place).symm nofun)
    | lassie attempt =>
      refine hat set_calls_self (hk.pass (fun hb => ?_) (hlassie place) rfl rfl)
      -- a borrowed place is not empty, so it is not skipped
      obtain ⟨x, hx⟩ := hc.kept i hb
      rw [found] at hx
      simp at hx
  | create stage i h place left free event =>
    refine hat set_calls_self ?_
    cases stage with
    | http => exact hk.work rfl (htake event place left) (hlassie place).symm nofun
    | lassie attempt => exact hk.work rfl (htake event place left) (hlassie place).symm nofun
  | claim stage i h p place left entry free event =>
    refine hat set_calls_self ?_
    cases stage with
    | http => exact hk.work rfl (htake event place left) (hlassie place).symm nofun
    | lassie attempt => exact hk.work rfl (htake event place left) (hlassie place).symm nofun
  | wait stage i h p place left entry taken event =>
    refine hat set_calls_self ?_
    cases stage with
    | http => exact hk.work rfl (htake event place left) (hlassie place).symm nofun
    | lassie attempt => exact hk.work rfl (htake event place left) (hlassie place).symm nofun
  | fail stage i h p place =>
    refine hat set_calls_self (hk.fail (hplace place) ?_)
    cases stage <;> exact hlassie place
  | given stage i h p place closed fine =>
    cases stage with
    | http =>
      refine hat set_calls_self ⟨nofun, fun k _ n hn => ?_, nofun, nofun⟩
      -- the loop starts again at the first place
      obtain rfl : 0 = n := Option.some.inj hn
      exact Nat.zero_le k
    | lassie attempt =>
      exact hat set_calls_self (hk.pass (hk.place i h (hplace place)) (hlassie place) rfl rfl)
  | success i h p b place hash =>
    exact hat set_calls_self (hk.stay (.inr (hplace place).symm) (hlassie place).symm nofun)
  | release i h p place => exact hat set_calls_self (hk.stay (.inl rfl) (hlassie place).symm nofun)
  | resolveHttp i h p b r place left =>
    exact hat set_calls_self (hk.stay (.inr (hplace place).symm) (hlassie place).symm nofun)
  | gotHttp i h p b place =>
    exact hat set_calls_self ⟨nofun, fun i hi n hn => hk.ahead i hi n ((hlassie place).trans hn),
      nofun, nofun⟩
  | fetched attempt i h p block place event =>
    exact hat set_calls_self (hk.stay (.inr (hplace place).symm) (hlassie place).symm nofun)
  | resolveLassie attempt i h p block r place left =>
    exact hat set_calls_self (hk.stay (.inr (hplace place).symm) (hlassie place).symm nofun)
  | failLassie attempt i h p place =>
    exact hat set_calls_self (hk.fail (hplace place) (hlassie place))
  | gotLassie attempt i h p b place =>
    exact hat set_calls_self (hk.pass (hk.place i h (hplace place)) (hlassie place) rfl rfl)

/-! ## The blocks that are delivered -/

/-- Every block in the cache, or given to `cb`, has the hash it was asked for. -/
structure DataOk (hashes : Multihash → Bytes → Bool) (s : Fetches) : Prop where
  cache : ∀ h b, s.blockCache h = some b → hashes h b = true
  /-- Behind its write the HTTP stage finds in the promise what it has put there. -/
  told : ∀ j c i h p b r, s.calls j = some c → c.at_ = .getting i h p (some (b, r)) →
    r = .closing ∨ r = .closed →
    p < s.made ∧ (s.promises p).claimed = some j ∧ (s.promises p).res = some b
  delivered : ∀ j c, s.calls j = some c → ∀ x ∈ c.delivered,
    ∃ h, c.asked[x.1]? = some h ∧ hashes h x.2 = true

end lists

namespace Fetches

variable {hashes : Multihash → Bytes → Bool} {e : FetchEvent} {s s' : Fetches}
variable {c c' : FetchCall} {i j k : ℕ} {h : Multihash} {p : ℕ} {b : Bytes}

/-- A call leaves alone what another has claimed. -/
theorem Change.theirs (hs : Inv s) (hj : s.calls j = some c) (hc : Change s j c s')
    (hp : p < s.made) (hclaimed : (s.promises p).claimed = some k) (hkj : k ≠ j) :
    s'.promises p = s.promises p := by
  have hother : ∀ {h q phase}, c.at_.grip = some ⟨h, q, phase⟩ → p ≠ q := by
    rintro h q phase hgrip rfl
    have hmine := ((hs.calls j c hj).grip _ hgrip).claimed
    exact hkj (Option.some.inj (hclaimed.symm.trans hmine))
  cases hc with
  | quiet _ c' calls promises made ongoing grip waits => rw [promises]
  | create stage i h grip free => exact Function.update_of_ne (Nat.ne_of_lt hp) ..
  | claim stage i h q grip entry free =>
    have hpq : p ≠ q := by
      rintro rfl
      exact absurd (hclaimed.symm.trans free) nofun
    exact Function.update_of_ne hpq ..
  | release h q at_ grip after waits => exact Function.update_of_ne (hother grip) ..
  | remove h q at_ grip after waits => rfl
  | setResult h q f at_ grip sets result after waits => exact Function.update_of_ne (hother grip) ..
  | close h q at_ grip after waits => exact Function.update_of_ne (hother grip) ..

theorem Change.made (hc : Change s j c s') : s.made ≤ s'.made := by
  cases hc with
  | quiet _ c' calls promises made ongoing grip waits => exact Nat.le_of_eq made.symm
  | create stage i h grip free => exact Nat.le_succ _
  | _ => exact Nat.le_refl _

/-- What is added to the cache was in the hands of the call. -/
theorem Moves.cache (hm : Moves hashes e s j c s') (hb : s'.blockCache h = some b) :
    s.blockCache h = some b ∨ c.at_.block = some (h, b) := by
  have hresolve : ∀ {q h' block r at_}, c.at_.block = block.map (fun b => (h', b)) →
      ((s.resolve h' q block r).goto j c at_).blockCache h = some b →
      s.blockCache h = some b ∨ c.at_.block = some (h, b) := by
    intro q h' block r at_ hblock hb
    cases r with
    | caching =>
      cases block with
      | none => exact Or.inl hb
      | some b' =>
        change Function.update s.blockCache h' (some b') h = some b at hb
        by_cases hh : h = h'
        · subst hh
          rw [Function.update_self] at hb
          exact Or.inr (Option.some.inj hb ▸ hblock)
        · rw [Function.update_of_ne hh] at hb
          exact Or.inl hb
    | setting => cases block <;> exact Or.inl hb
    | _ => exact Or.inl hb
  cases hm with
  | resolveHttp i h' q b' r place left => exact hresolve (by rw [place]; rfl) hb
  | resolveLassie attempt i h' q block r place left =>
    exact hresolve (by rw [place, resolving_block]) hb
  | _ => exact Or.inl hb

/-- **What a step gives to `cb`.** -/
theorem Moves.delivered (hm : Moves hashes e s j c s') (hj : s.calls j = some c) (hs : Inv s)
    (hv : Verified hashes s) (hd : DataOk hashes s) (hc : ListOk c)
    (hj' : s'.calls j = some c') : c'.asked = c.asked ∧ ∀ x ∈ c'.delivered, x ∈ c.delivered ∨
      ∃ h, c.asked[x.1]? = some h ∧ hashes h x.2 = true := by
  have hnone : ∀ {d : FetchCall}, s'.calls j = some d → d.asked = c.asked →
      d.delivered = c.delivered → c'.asked = c.asked ∧ ∀ x ∈ c'.delivered, x ∈ c.delivered ∨
      ∃ h, c.asked[x.1]? = some h ∧ hashes h x.2 = true := by
    intro d hd ha hdel
    obtain rfl := Option.some.inj (hd.symm.trans hj')
    exact ⟨ha, fun x hx => Or.inl (hdel ▸ hx)⟩
  have hone : ∀ {d : FetchCall} {i h b}, s'.calls j = some d → d.asked = c.asked →
      d.delivered = c.delivered ++ [(i, b)] → c.mh[i]? = some (some h) → hashes h b = true →
      c'.asked = c.asked ∧ ∀ x ∈ c'.delivered, x ∈ c.delivered ∨
      ∃ h, c.asked[x.1]? = some h ∧ hashes h x.2 = true := by
    intro d i h b hd ha hdel hleft hhash
    obtain rfl := Option.some.inj (hd.symm.trans hj')
    refine ⟨ha, fun x hx => ?_⟩
    rw [hdel] at hx
    rcases List.mem_append.mp hx with hx | hx
    · exact Or.inl hx
    · rw [List.mem_singleton.mp hx]
      exact Or.inr ⟨h, hc.left i h hleft, hhash⟩
  have hplace : ∀ {at_}, c.at_ = at_ → c.at_.place = at_.place := fun h => by rw [h]
  cases hm with
  | hit i h b place left cached =>
    exact hone set_calls_self rfl rfl left (hd.cache h b cached)
  | given stage i h p place closed fine =>
    obtain ⟨hmade, hcid⟩ := (hs.calls j c hj).waits h p ⟨stage, i, place⟩
    have hok := hs.promises p hmade
    have hclosed : (s.promises p).closes = 1 := by
      have := hok.closes
      omega
    obtain ⟨b, hb⟩ := Option.ne_none_iff_exists'.mp ((hok.set hclosed).resolve_right fine)
    refine hone set_calls_self rfl rfl (hc.place i h (hplace place)) ?_
    rw [hb, ← hcid]
    exact hv.promises p b hb
  | gotHttp i h p b place =>
    refine hone set_calls_self rfl rfl (hc.place i h (hplace place)) ?_
    rw [(hd.told j c i h p b .closed hj place (.inr rfl)).2.2]
    exact hv.held j c (h, b) hj (by rw [place]; rfl)
  | gotLassie attempt i h p b place =>
    refine hone set_calls_self rfl rfl (hc.place i h (hplace place)) ?_
    exact hv.held j c (h, b) hj (by rw [place]; rfl)
  | _ => exact hnone set_calls_self rfl rfl

/-- **What the HTTP stage has put into its promise is there.** -/
theorem Moves.told (hm : Moves hashes e s j c s') (hj : s.calls j = some c) (hs : Inv s)
    (hd : DataOk hashes s) (hj' : s'.calls j = some c') {r : Resolve}
    (hat' : c'.at_ = .getting i h p (some (b, r))) (hr : r = .closing ∨ r = .closed) :
    p < s'.made ∧ (s'.promises p).claimed = some j ∧ (s'.promises p).res = some b := by
  have hat : ∀ {d : FetchCall}, s'.calls j = some d → d.at_ = .getting i h p (some (b, r)) :=
    fun hd => of_calls (P := fun c => c.at_ = .getting i h p (some (b, r))) hd hj' hat'
  -- the call has a block in its hands, so the move has given or left it one
  have hnone : ∀ {d : FetchCall}, s'.calls j = some d → d.at_.block ≠ none := fun hd => by
    rw [hat hd]
    nofun
  cases hm with
  | resolveHttp i' h' p' b' r' place left =>
    have hgrip : c.at_.grip = r'.phase.map fun phase => ⟨h', p', phase⟩ := by
      rw [place]
      rfl
    obtain ⟨-, -, rfl, hgot⟩ := FetchAt.getting.inj (hat set_calls_self)
    obtain ⟨rfl, rfl⟩ := Prod.mk.inj (Option.some.inj hgot)
    cases r' with
    | setting =>
      have hok := (hs.calls j c hj).grip _ hgrip
      refine ⟨hok.made, ?_, ?_⟩
      · exact (congrArg Promise.claimed write_goto_promise).trans hok.claimed
      · exact congrArg Promise.res write_goto_promise
    | closing =>
      obtain ⟨hmade, hclaimed, hres⟩ := hd.told j c i' h' p' b' .closing hj place (.inl rfl)
      refine ⟨hmade, ?_, ?_⟩
      · exact (congrArg Promise.claimed write_goto_promise).trans hclaimed
      · exact (congrArg Promise.res write_goto_promise).trans hres
    | closed => exact absurd rfl left
    | removing => exact absurd hr (by decide)
    | caching => exact absurd hr (by decide)
  | success i' h' p' b' place hash =>
    obtain ⟨-, -, -, hgot⟩ := FetchAt.getting.inj (hat set_calls_self)
    obtain ⟨-, rfl⟩ := Prod.mk.inj (Option.some.inj hgot)
    exact absurd hr (by decide)
  | fetched attempt i' h' p' block place event => exact absurd (hat set_calls_self) nofun
  | resolveLassie attempt i' h' p' block r' place left =>
    exact absurd (hat set_calls_self) nofun
  | looked i' place outside =>
    refine absurd ?_ (hnone set_calls_self)
    dsimp only
    split <;> rfl
  | noHttp place => exact absurd afterHttp_block (hnone set_calls_self)
  | endHttp i' place outside => exact absurd afterHttp_block (hnone set_calls_self)
  | skip stage i' place found => exact absurd (onward_block stage) (hnone set_calls_self)
  | create stage i' h' place left free event =>
    exact absurd (fetch_block stage) (hnone set_calls_self)
  | claim stage i' h' p' place left entry free event =>
    exact absurd (fetch_block stage) (hnone set_calls_self)
  | fail stage i' h' p' place => exact absurd (fail_block stage) (hnone set_calls_self)
  | given stage i' h' p' place closed fine =>
    exact absurd (onward_block stage) (hnone set_calls_self)
  | failLassie attempt i' h' p' place =>
    exact absurd (fail_block (.lassie attempt)) (hnone set_calls_self)
  | _ => exact absurd rfl (hnone set_calls_self)

end Fetches

section runs

open Fetches

variable {hashes : Multihash → Bytes → Bool} {e : FetchEvent} {s s' : Fetches}
variable {c c' : FetchCall} {i j : ℕ} {h : Multihash}

theorem start_dataOk : DataOk hashes start where
  cache _ _ hb := nomatch hb
  told _ _ _ _ _ _ _ hj := nomatch hj
  delivered _ _ hj := nomatch hj

/-- **Every event keeps the blocks right.** -/
theorem DataOk.effect (hd : DataOk hashes s) (hs : Inv s) (hv : Verified hashes s)
    (hc : ∀ j c, s.calls j = some c → ListOk c) (he : Effect hashes s e s') :
    DataOk hashes s' := by
  cases he with
  | none => exact hd
  | evict hash =>
    refine ⟨fun h b hb => ?_, hd.told, hd.delivered⟩
    by_cases hh : h = hash
    · subst hh
      exact absurd ((Function.update_self ..).symm.trans hb) nofun
    · exact hd.cache h b ((Function.update_of_ne hh ..).symm.trans hb)
  | call j mh caller fresh =>
    refine ⟨hd.cache, fun k d i h p b r hk hat hr => ?_, fun k d hk x hx => ?_⟩
    · by_cases hkj : k = j
      · subst hkj
        obtain rfl := Option.some.inj (set_calls_self.symm.trans hk)
        exact absurd hat nofun
      · rw [set_calls_of_ne hkj] at hk
        exact hd.told k d i h p b r hk hat hr
    · by_cases hkj : k = j
      · subst hkj
        obtain rfl := Option.some.inj (set_calls_self.symm.trans hk)
        exact absurd hx List.not_mem_nil
      · rw [set_calls_of_ne hkj] at hk
        exact hd.delivered k d hk x hx
  | moves j c _ caller call moves =>
    refine ⟨fun h b hb => ?_, fun k d i h p b r hk hat hr => ?_, fun k d hk x hx => ?_⟩
    · rcases moves.cache hb with hold | hblock
      · exact hd.cache h b hold
      · exact hv.held j c (h, b) call hblock
    · by_cases hkj : k = j
      · subst hkj
        exact moves.told call hs hd hk hat hr
      · rw [moves.change.calls_of_ne hkj] at hk
        obtain ⟨hmade, hclaimed, hres⟩ := hd.told k d i h p b r hk hat hr
        rw [moves.change.theirs hs call hmade hclaimed hkj]
        exact ⟨Nat.lt_of_lt_of_le hmade moves.change.made, hclaimed, hres⟩
    · by_cases hkj : k = j
      · subst hkj
        obtain ⟨hasked, hall⟩ := moves.delivered call hs hv hd (hc k c call) hk
        rw [hasked]
        rcases hall x hx with hold | hnew
        · exact hd.delivered k c call x hold
        · exact hnew
      · rw [moves.change.calls_of_ne hkj] at hk
        exact hd.delivered k d hk x hx

/-! ## Runs -/

theorem ListOk.effect (hc : ∀ j c, s.calls j = some c → ListOk c) (he : Effect hashes s e s')
    (j : ℕ) (c' : FetchCall) (hj : s'.calls j = some c') : ListOk c' := by
  cases he with
  | none => exact hc j c' hj
  | evict hash => exact hc j c' hj
  | call k mh caller fresh =>
    by_cases hjk : j = k
    · subst hjk
      obtain rfl := Option.some.inj (set_calls_self.symm.trans hj)
      exact ListOk.new mh
    · rw [set_calls_of_ne hjk] at hj
      exact hc j c' hj
  | moves k c _ caller call moves =>
    by_cases hjk : j = k
    · subst hjk
      exact (hc j c call).moves moves hj
    · rw [moves.change.calls_of_ne hjk] at hj
      exact hc j c' hj

theorem Clean.effect (hk : ∀ j c, s.calls j = some c → Clean c)
    (hc : ∀ j c, s.calls j = some c → ListOk c) (hu : Unborrowed s e)
    (he : Effect hashes s e s') (j : ℕ) (c' : FetchCall) (hj : s'.calls j = some c') :
    Clean c' := by
  cases he with
  | none => exact hk j c' hj
  | evict hash => exact hk j c' hj
  | call k mh caller fresh =>
    by_cases hjk : j = k
    · subst hjk
      obtain rfl := Option.some.inj (set_calls_self.symm.trans hj)
      exact ⟨nofun, nofun, nofun, nofun⟩
    · rw [set_calls_of_ne hjk] at hj
      exact hk j c' hj
  | moves k c _ caller call moves =>
    by_cases hjk : j = k
    · subst hjk
      exact (hk j c call).moves (hc j c call) moves call hu hj
    · rw [moves.change.calls_of_ne hjk] at hj
      exact hk j c' hj

/-- **Each index is delivered once.** -/
structure DeliversOnce (hashes : Multihash → Bytes → Bool) (s : Fetches) : Prop where
  /-- A call that has returned nil has called `cb` once for every index. -/
  nil : ∀ j c, s.calls j = some c → c.at_ = .returned none → ∀ i, i < c.asked.length →
    c.times i = 1
  /-- What is given to `cb` has the hash of its index. -/
  data : ∀ j c, s.calls j = some c → ∀ x ∈ c.delivered,
    ∃ h, c.asked[x.1]? = some h ∧ hashes h x.2 = true
  /-- What was delivered is not fetched again, -/
  fetched : ∀ j c i h, s.calls j = some c → c.at_.place = some (i, h) → c.times i = 0
  /-- nor does it make the call fail. -/
  failed : ∀ j c i, s.calls j = some c → c.at_ = .returned (some (.block i)) → c.times i = 0

/-- What a call delivers that never comes to an index it has borrowed. -/
theorem Clean.delivered_once (hk : Clean c) (hc : ListOk c) (hat : c.at_ = .returned none) {i : ℕ}
    (hi : i < c.asked.length) : c.times i = 1 := by
  rw [← hc.length] at hi
  have hsome : c.mh[i]? = some c.mh[i] := List.getElem?_eq_getElem hi
  cases hx : c.mh[i] with
  | none => exact hc.found i (hsome.trans (congrArg some hx))
  | some h =>
    rw [hc.done hat i h (hsome.trans (congrArg some hx)), hk.done hat]
    rfl

theorem Clean.not_delivered (hk : Clean c) (hc : ListOk c) (hp : c.at_.place = some (i, h)) :
    c.times i = 0 := by
  obtain ⟨n, hn, hle⟩ := place_from hp
  rw [hc.todo i h n (hc.place i h hp) hn, List.count_eq_zero.mpr (hk.place i h hp),
    if_neg (by omega)]

theorem Clean.not_failed (hk : Clean c) (hc : ListOk c) (hat : c.at_ = .returned (some (.block i))) :
    c.times i = 0 := by
  rw [(hc.failed i hat).1, List.count_eq_zero.mpr (hk.failed i hat)]

/-- At the head of its loop a stage takes up what is left at the index. -/
theorem ask_place {stage : Stage} (hleft : c.mh[i]? = some (some h)) :
    ∃ at_, (s.ask j c stage i).calls j = some { c with at_ := at_ } ∧
      at_.place = some (i, h) := by
  have hfetch : ∀ p, (stage.fetch i h p).place = some (i, h) := fun p => by cases stage <;> rfl
  unfold ask
  rw [hleft]
  simp only [retrievalPromise]
  split
  · exact ⟨_, set_calls_self, hfetch _⟩
  · split
    · exact ⟨_, set_calls_self, hfetch _⟩
    · exact ⟨_, set_calls_self, rfl⟩

/-- **A call that comes to an index it has borrowed** works on what it has
delivered. -/
theorem not_fetched_of_borrowed (hc : ∀ j c, s.calls j = some c → ListOk c)
    (hu : ¬ Unborrowed s e) : ∃ j c' i h, (s.next hashes e).calls j = some c' ∧
      c'.at_.place = some (i, h) ∧ c'.times i ≠ 0 := by
  cases e with
  | step j =>
    unfold Unborrowed at hu
    push Not at hu
    obtain ⟨c, attempt, i, h, hj, hat, hleft, hborrowed⟩ := hu
    obtain ⟨at_, hcalls, hplace⟩ := ask_place (s := s) (j := j) hleft
    refine ⟨j, { c with at_ := at_ }, i, h, ?_, hplace, ?_⟩
    · simp only [next, onCall, hj, step, hat]
      exact hcalls
    · change c.times i ≠ 0
      rw [(hc j c hj).todo i h i hleft (by rw [hat]; rfl)]
      have := List.count_pos_iff.mpr hborrowed
      omega
  | _ => exact absurd trivial hu

/-- **Each index is delivered once exactly where** no call comes, in lassie's
stage, to an index that it was given in its HTTP stage by another call's
promise. It comes there whenever no other index fails before: the HTTP stage
does not note what it was given. -/
theorem deliversOnce_iff (es : List FetchEvent)
    (hlassie : Always (next hashes) (LassieVerifies hashes) start es) :
    (∀ es', es' <+: es → DeliversOnce hashes (run hashes es')) ↔
      Always (next hashes) Unborrowed start es := by
  let I : Fetches → Prop := fun s =>
    (∀ j c, s.calls j = some c → ListOk c) ∧ ∀ j c, s.calls j = some c → Clean c
  have hstart : I start := ⟨nofun, nofun⟩
  have hstep : ∀ s e, I s → Unborrowed s e → I (s.next hashes e) := fun s e hI hu =>
    ⟨ListOk.effect hI.1 (next_effect hashes s e),
      Clean.effect hI.2 hI.1 hu (next_effect hashes s e)⟩
  constructor
  · intro h
    refine (always_iff_throughout (G := fun s => ∀ j c i h, s.calls j = some c →
      c.at_.place = some (i, h) → c.times i = 0) hstep
      (fun s hI j c i h hj hp => (hI.2 j c hj).not_delivered (hI.1 j c hj) hp)
      (fun s e hI hu hG => by
        obtain ⟨j, c', i, h, hj, hp, hne⟩ := not_fetched_of_borrowed hI.1 hu
        exact hne (hG j c' i h hj hp)) hstart).mpr fun es' hes' => (h es' hes').fetched
  · rintro hu es' ⟨rest, rfl⟩
    have hI : I (run hashes es') := runEvents_invariant hstep hstart hu.left
    have hdata : Inv (run hashes es') ∧ Verified hashes (run hashes es') ∧
        (∀ j c, (run hashes es').calls j = some c → ListOk c) ∧ DataOk hashes (run hashes es') := by
      refine runEvents_invariant (I := fun s => Inv s ∧ Verified hashes s ∧
        (∀ j c, s.calls j = some c → ListOk c) ∧ DataOk hashes s) (fun s e hs he => ?_)
        ⟨start_inv, start_verified, nofun, start_dataOk⟩ hlassie.left
      obtain ⟨hs, hv, hc, hd⟩ := hs
      have heffect := next_effect hashes s e
      exact ⟨hs.effect heffect, hv.effect hs he heffect, ListOk.effect hc heffect,
        hd.effect hs hv hc heffect⟩
    exact ⟨fun j c hj hat i hi => (hI.2 j c hj).delivered_once (hI.1 j c hj) hat hi,
      hdata.2.2.2.delivered, fun j c i h hj hp => (hI.2 j c hj).not_delivered (hI.1 j c hj) hp,
      fun j c i hj hat => (hI.2 j c hj).not_failed (hI.1 j c hj) hat⟩

end runs

/-! ## A block that is delivered twice -/

section borrowedBlock

open Fetches

/-- Two calls for one block, both with an HTTP candidate: the second is given
the block by the first in its HTTP stage, and asks lassie for it behind that. -/
def borrowedBlock : List FetchEvent :=
  [.call 0 [[7]], .step 0, .step 0, .candidates 0 (some true), .step 0, .call 1 [[7]], .step 1,
    .step 1, .candidates 1 (some true), .step 1, .httpData 0 [7], .step 0, .step 0, .step 0,
    .step 0, .step 1, .step 1, .step 1, .lassie 1 (some [7]), .step 1, .step 1, .step 1, .step 1,
    .step 1, .step 1]

/-- The second call returns nil, and has called `cb` for its index twice. -/
theorem not_deliversOnce_borrowedBlock :
    ¬ DeliversOnce (· == ·) (run (· == ·) borrowedBlock) := by
  intro h
  have hcall : ((run (· == ·) borrowedBlock).calls 1).map
      (fun c => (c.at_, c.asked.length, c.times 0)) = some (.returned none, 1, 2) := by
    decide +kernel
  obtain ⟨c, hc, heq⟩ := Option.map_eq_some_iff.mp hcall
  obtain ⟨hat, heq⟩ := Prod.mk.inj heq
  obtain ⟨hlen, htwice⟩ := Prod.mk.inj heq
  have hone := h.nil 1 c hc hat 0 (by omega)
  omega

theorem deliversOnce_iff_borrowedBlock :
    (∀ es', es' <+: borrowedBlock → DeliversOnce (· == ·) (run (· == ·) es')) ↔
      Always (next (· == ·)) Unborrowed start borrowedBlock := by
  refine deliversOnce_iff borrowedBlock ?_
  simp only [borrowedBlock, Always, LassieVerifies, true_and, and_true]
  intro c attempt i h p hc hat
  have hfetching : ((run (· == ·) (borrowedBlock.take 18)).calls 1).map FetchCall.at_ =
      some (.fetching 0 0 [7] 1) := by decide +kernel
  change (run (· == ·) (borrowedBlock.take 18)).calls 1 = some c at hc
  rw [hc, Option.map_some, hat] at hfetching
  obtain ⟨-, -, rfl, -⟩ := FetchAt.fetching.inj (Option.some.inj hfetching)
  decide

end borrowedBlock

end Rbdeal

end Ribs
