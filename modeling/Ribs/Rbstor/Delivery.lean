import Ribs.Rbstor.Session
import Ribs.Rbstor.TopIndex
/-!
# Rbstor — what a session delivers

`View` calls back for the blocks of the groups that it reaches, once for
each index. It reaches all groups up to the first offloaded one: there it
returns what the provider returns. And of the groups listed for a block it
asks the first one only.
-/

namespace Ribs

open Common

namespace Rbstor

namespace Session

open PebbleIndex

/-! ## Regrouping -/

/-- The group that `View` takes of those listed. -/
def firstGroup : List GroupKey → Option GroupKey
  | [] => none
  | g :: _ => if g = undefGroupKey then none else some g

theorem mem_of_firstGroup {gs : List GroupKey} {g : GroupKey} (h : firstGroup gs = some g) :
    g ∈ gs := by
  cases gs with
  | nil => exact absurd h (by simp [firstGroup])
  | cons g' gs =>
    rw [firstGroup] at h
    split_ifs at h
    exact Option.some.inj h ▸ List.mem_cons_self

/-- The group that `View` asks for the index `i`. -/
def assigned (db : Db) (cids : List Multihash) (i : ℕ) : Option GroupKey :=
  (cids[i]?).bind fun m => firstGroup (listed db m)

/-- **The requests of the first `n` indices, by group**: each index is with
the group that `a` assigns to it. -/
structure Grouped (a : ℕ → Option GroupKey) (n : ℕ) (bg : List (GroupKey × List ℕ)) : Prop where
  nodup : (bg.map Prod.fst).Nodup
  mem : ∀ e ∈ bg, e.2.Nodup ∧ ∀ i, i ∈ e.2 ↔ i < n ∧ a i = some e.1
  exists_mem : ∀ i < n, ∀ g, a i = some g → ∃ idxs, (g, idxs) ∈ bg

variable {a : ℕ → Option GroupKey} {n : ℕ} {bg : List (GroupKey × List ℕ)} {g : GroupKey}

theorem mem_keys_appendTo {g' : GroupKey} :
    g' ∈ (appendTo g n bg).map Prod.fst ↔ g' = g ∨ g' ∈ bg.map Prod.fst := by
  induction bg with
  | nil => simp [appendTo]
  | cons e bg ih =>
    rw [appendTo]
    split_ifs with h
    · simp [h]
    · rw [List.map_cons, List.mem_cons, ih, List.map_cons, List.mem_cons]
      exact or_left_comm

theorem nodup_appendTo (h : (bg.map Prod.fst).Nodup) : ((appendTo g n bg).map Prod.fst).Nodup := by
  induction bg with
  | nil => simp [appendTo]
  | cons e bg ih =>
    rw [List.map_cons, List.nodup_cons] at h
    rw [appendTo]
    split_ifs with he
    · rw [List.map_cons, List.nodup_cons]
      exact ⟨he ▸ h.1, h.2⟩
    · rw [List.map_cons, List.nodup_cons, mem_keys_appendTo]
      exact ⟨not_or.mpr ⟨he, h.1⟩, ih h.2⟩

theorem mem_appendTo (h : (bg.map Prod.fst).Nodup) {e : GroupKey × List ℕ} :
    e ∈ appendTo g n bg → (e.1 ≠ g ∧ e ∈ bg) ∨
      e.1 = g ∧ ((e.2 = [n] ∧ g ∉ bg.map Prod.fst) ∨ ∃ idxs, (g, idxs) ∈ bg ∧ e.2 = idxs ++ [n]) := by
  induction bg with
  | nil =>
    rw [appendTo, List.mem_singleton]
    rintro rfl
    exact Or.inr ⟨rfl, Or.inl ⟨rfl, List.not_mem_nil⟩⟩
  | cons x bg ih =>
    rw [List.map_cons, List.nodup_cons] at h
    rw [appendTo]
    split_ifs with hx
    · rw [List.mem_cons]
      rintro (rfl | he)
      · exact Or.inr ⟨rfl, Or.inr ⟨x.2, by rw [← hx]; exact List.mem_cons_self, rfl⟩⟩
      · refine Or.inl ⟨?_, List.mem_cons_of_mem _ he⟩
        rintro rfl
        exact h.1 (hx ▸ List.mem_map_of_mem he)
    · rw [List.mem_cons]
      rintro (rfl | he)
      · exact Or.inl ⟨hx, List.mem_cons_self⟩
      · rcases ih h.2 he with ⟨hne, hmem⟩ | ⟨heq, ⟨hn, hnot⟩ | ⟨idxs, hmem, hn⟩⟩
        · exact Or.inl ⟨hne, List.mem_cons_of_mem _ hmem⟩
        · refine Or.inr ⟨heq, Or.inl ⟨hn, ?_⟩⟩
          rw [List.map_cons, List.mem_cons]
          exact not_or.mpr ⟨fun h => hx h.symm, hnot⟩
        · exact Or.inr ⟨heq, Or.inr ⟨idxs, List.mem_cons_of_mem _ hmem, hn⟩⟩

theorem Grouped.nil : Grouped a 0 [] := ⟨List.nodup_nil, by simp, by simp⟩

/-- An index without a group. -/
theorem Grouped.skip (h : Grouped a n bg) (hn : a n = none) : Grouped a (n + 1) bg := by
  refine ⟨h.nodup, fun e he => ⟨(h.mem e he).1, fun i => ?_⟩, fun i hi g hg => ?_⟩
  · rw [(h.mem e he).2, Nat.lt_succ_iff_lt_or_eq]
    constructor
    · exact fun hi => ⟨Or.inl hi.1, hi.2⟩
    · rintro ⟨hi | rfl, hg⟩
      · exact ⟨hi, hg⟩
      · rw [hn] at hg
        exact absurd hg (by simp)
  · rcases Nat.lt_succ_iff_lt_or_eq.mp hi with hi | rfl
    · exact h.exists_mem i hi g hg
    · rw [hn] at hg
      exact absurd hg (by simp)

/-- **An index is added to its group.** -/
theorem Grouped.append (h : Grouped a n bg) (hn : a n = some g) :
    Grouped a (n + 1) (appendTo g n bg) := by
  -- the other groups get nothing
  have hother : ∀ g', g' ≠ g → ∀ i, (i < n + 1 ∧ a i = some g') ↔ i < n ∧ a i = some g' := by
    intro g' hg' i
    refine and_congr_left fun hi => ?_
    have hne : i ≠ n := by
      rintro rfl
      rw [hn, Option.some.injEq] at hi
      exact hg' hi.symm
    omega
  refine ⟨nodup_appendTo h.nodup, fun e he => ?_, fun i hi g' hg' => ?_⟩
  · rcases mem_appendTo h.nodup he with ⟨hne, hmem⟩ | ⟨heq, ⟨h2, hnot⟩ | ⟨idxs, hmem, h2⟩⟩
    · exact ⟨(h.mem e hmem).1, fun i => by rw [(h.mem e hmem).2, hother e.1 hne]⟩
    · refine ⟨by simp [h2], fun i => ?_⟩
      rw [h2, heq, List.mem_singleton]
      constructor
      · rintro rfl
        exact ⟨by omega, hn⟩
      · rintro ⟨hi, hg⟩
        by_contra hne
        obtain ⟨idxs, hidxs⟩ := h.exists_mem i (by omega) g hg
        exact hnot (List.mem_map_of_mem hidxs)
    -- the group has requests already
    · obtain ⟨hnd, hidxs⟩ := h.mem _ hmem
      refine ⟨?_, fun i => ?_⟩
      · rw [h2, List.nodup_append]
        refine ⟨hnd, List.nodup_singleton n, fun i hi j hj => ?_⟩
        have := ((hidxs i).mp hi).1
        have := List.mem_singleton.mp hj
        omega
      · rw [h2, heq, List.mem_append, List.mem_singleton, hidxs]
        constructor
        · rintro (⟨hi, hg⟩ | rfl)
          · exact ⟨by omega, hg⟩
          · exact ⟨by omega, hn⟩
        · rintro ⟨hi, hg⟩
          rcases Nat.lt_succ_iff_lt_or_eq.mp hi with hi | rfl
          · exact Or.inl ⟨hi, hg⟩
          · exact Or.inr rfl
  · have hkey : g' ∈ (appendTo g n bg).map Prod.fst := by
      rw [mem_keys_appendTo]
      rcases Nat.lt_succ_iff_lt_or_eq.mp hi with hi | rfl
      · obtain ⟨idxs, hidxs⟩ := h.exists_mem i hi g' hg'
        exact Or.inr (List.mem_map_of_mem hidxs)
      · exact Or.inl (Option.some.inj (hg'.symm.trans hn))
    obtain ⟨e, he, rfl⟩ := List.mem_map.mp hkey
    exact ⟨e.2, he⟩

/-- One index of the regrouping. -/
theorem scanGroups_regroup (i : ℕ) (gs : List GroupKey) {s : ByGroup} (hi : i ∉ s.done) :
    ∃ done, (∀ j ∈ done, j ∈ s.done ∨ j = i) ∧ scanGroups regroup i gs s =
      .ok ⟨done, match firstGroup gs with
        | none => s.byGroup
        | some g => appendTo g i s.byGroup⟩ := by
  have hdone : ∀ j ∈ i :: s.done, j ∈ s.done ∨ j = i := fun j hj =>
    (List.mem_cons.mp hj).symm
  cases gs with
  | nil => exact ⟨s.done, fun j => Or.inl, rfl⟩
  | cons g gs =>
    by_cases hg : g = undefGroupKey
    · refine ⟨i :: s.done, hdone, ?_⟩
      simp only [scanGroups, regroup, if_neg hi, firstGroup, hg, if_true]
      cases gs with
      | nil => rfl
      | cons g' gs => simp [scanGroups, regroup]
    · exact ⟨i :: s.done, hdone, by simp [scanGroups, regroup, hi, firstGroup, hg]⟩

theorem getGroupsFrom_regroup (db : Db) (c mh : List Multihash) {s : ByGroup} {i : ℕ}
    (hmh : c.drop i = mh) (hi : i ≤ c.length) (hdone : ∀ j ∈ s.done, j < i)
    (h : Grouped (assigned db c) i s.byGroup) :
    ∃ s', getGroupsFrom db regroup i mh s = .ok s' ∧
      Grouped (assigned db c) c.length s'.byGroup := by
  induction mh generalizing i s with
  | nil =>
    have hlen : i = c.length := Nat.le_antisymm hi (List.drop_eq_nil_iff.mp hmh)
    exact ⟨s, rfl, hlen ▸ h⟩
  | cons m mh ih =>
    have hlt : i < c.length := by
      by_contra hge
      rw [List.drop_of_length_le (Nat.not_lt.mp hge)] at hmh
      exact absurd hmh (by simp)
    rw [List.drop_eq_getElem_cons hlt, List.cons.injEq] at hmh
    have hassigned : assigned db c i = firstGroup (listed db m) := by
      rw [assigned, List.getElem?_eq_getElem hlt, hmh.1, Option.bind_some]
    obtain ⟨done, hsub, hscan⟩ := scanGroups_regroup i (listed db m)
      (fun hmem => absurd (hdone i hmem) (Nat.lt_irrefl i))
    have hdone' : ∀ j ∈ done, j < i + 1 := fun j hj => by
      rcases hsub j hj with hj | rfl
      · exact Nat.lt_succ_of_lt (hdone j hj)
      · exact Nat.lt_succ_self j
    rw [getGroupsFrom, getGroupsAt_eq, hscan]
    refine ih hmh.2 hlt hdone' ?_
    cases hfirst : firstGroup (listed db m) with
    | none => exact h.skip (hassigned.trans hfirst)
    | some g => exact h.append (hassigned.trans hfirst)

/-- **The regrouping** assigns each index to the first group listed. -/
theorem regrouped_ok (r : Store) (c : List Multihash) :
    ∃ s, regrouped r c = .ok s ∧ Grouped (assigned r.index c) c.length s.byGroup :=
  getGroupsFrom_regroup r.index c c rfl (Nat.zero_le _) (by simp) .nil

/-! ## The groups visited -/

/-- The order in which `View` visits the groups it has regrouped by. -/
def visits (r : Store) (c : List Multihash) : List (GroupKey × List ℕ) :=
  match regrouped r c with
  | .error _ => []
  | .ok s => r.range s.byGroup

/-- The group is offloaded. -/
def Offloaded (r : Store) (g : GroupKey) : Prop :=
  ∃ grp, r.group g = .ok grp ∧ grp.offloaded = true

/-- What a group has of a block: in its log, or, when it is offloaded, with
the provider. -/
def holdsAt (r : Store) (g : GroupKey) (m : Multihash) : Option Bytes :=
  match r.group g with
  | .error _ => none
  | .ok grp =>
    if grp.offloaded then r.external.bind fun ext => ext.stored g m else grp.jb.held m

/-- What the group listed for an index has for it. -/
def delivers (r : Store) (c : List Multihash) (i : ℕ) : Option Bytes :=
  (assigned r.index c i).bind fun g => holdsAt r g (c.getD i [])

/-- The calls for the blocks that a group has. -/
def deliver (r : Store) (c : List Multihash) (e : GroupKey × List ℕ) : List (ℕ × Bytes) :=
  e.2.filterMap fun i => (holdsAt r e.1 (c.getD i [])).map fun d => (i, d)

/-- **The groups that `View` reaches**: up to the first offloaded one. -/
inductive Reaches (r : Store) :
    List (GroupKey × List ℕ) → List (GroupKey × List ℕ) → List (GroupKey × List ℕ) → Prop
  | nil : Reaches r [] [] []
  | offloaded {e : GroupKey × List ℕ} {rest : List (GroupKey × List ℕ)} (h : Offloaded r e.1) :
    Reaches r (e :: rest) [e] rest
  | cons {e : GroupKey × List ℕ} {es reached rest : List (GroupKey × List ℕ)}
    (h : ¬ Offloaded r e.1) (hes : Reaches r es reached rest) :
    Reaches r (e :: es) (e :: reached) rest

variable {r : Store} {c : List Multihash} {order reached rest : List (GroupKey × List ℕ)}
  {calls : List (ℕ × Bytes)}

theorem Reaches.append_eq (h : Reaches r order reached rest) : order = reached ++ rest := by
  induction h with
  | nil => rfl
  | offloaded => rfl
  | cons _ _ ih => rw [ih, List.cons_append]

/-- What is behind the first offloaded group is not reached. -/
theorem Reaches.exists_offloaded (h : Reaches r order reached rest) (hne : rest ≠ []) :
    ∃ pre e, reached = pre ++ [e] ∧ Offloaded r e.1 := by
  induction h with
  | nil => exact absurd rfl hne
  | offloaded h => exact ⟨[], _, rfl, h⟩
  | cons _ _ ih =>
    obtain ⟨pre, e, rfl, he⟩ := ih hne
    exact ⟨_ :: pre, e, rfl, he⟩

/-- The first offloaded group is the last one reached. -/
theorem Reaches.rest_of_offloaded (h : Reaches r order reached rest)
    {pre post : List (GroupKey × List ℕ)} {e : GroupKey × List ℕ}
    (hsplit : order = pre ++ e :: post) (he : Offloaded r e.1) :
    ∀ x ∈ post, x ∈ rest := by
  induction h generalizing pre with
  | nil => simp at hsplit
  | offloaded =>
    cases pre with
    | nil =>
      rw [List.nil_append, List.cons.injEq] at hsplit
      exact hsplit.2 ▸ fun x hx => hx
    | cons x pre =>
      rw [List.cons_append, List.cons.injEq] at hsplit
      rw [hsplit.2]
      exact fun x hx => List.mem_append_right _ (List.mem_cons_of_mem _ hx)
  | cons h _ ih =>
    cases pre with
    | nil =>
      rw [List.nil_append, List.cons.injEq] at hsplit
      exact absurd (hsplit.1 ▸ he) h
    | cons x pre =>
      rw [List.cons_append, List.cons.injEq] at hsplit
      exact ih hsplit.2

/-- The answers for the blocks of a group, at the indices of the request. -/
theorem found_answers (held : Multihash → Option Bytes) (cidxs : List ℕ) :
    found cidxs (answers held (toGet c cidxs)) =
      cidxs.filterMap fun i => (held (c.getD i [])).map fun d => (i, d) := by
  have hget : ∀ e ∈ cidxs.zipIdx, cidxs.getD e.2 0 = e.1 := by
    intro e he
    rw [List.mem_zipIdx_iff_getElem?] at he
    rw [List.getD_eq_getElem?_getD, he]
    rfl
  rw [found, answers, toGet, List.zipIdx_map, List.map_map, List.filterMap_map]
  conv_rhs => rw [← List.zipIdx_map_fst 0 cidxs, List.filterMap_map]
  refine List.filterMap_congr fun e he => ?_
  simp only [Function.comp_apply, Prod.map_fst, Prod.map_snd, id_eq, hget e he]

/-- **The loop of `View`**: when it returns nil it has called back for the
blocks of the groups it reaches. -/
theorem viewGroups_nil (h : viewGroups r c order = (calls, none)) :
    ∃ reached rest, Reaches r order reached rest ∧ calls.Perm (reached.flatMap (deliver r c)) := by
  induction order generalizing calls with
  | nil =>
    obtain rfl := (Prod.mk.inj h).1
    exact ⟨[], [], .nil, .refl _⟩
  | cons e order ih =>
    obtain ⟨g, cidxs⟩ := e
    rw [viewGroups] at h
    cases hg : r.group g with
    | error x => simp [hg] at h
    | ok grp =>
      simp only [hg, Group.view] at h
      by_cases hoff : grp.offloaded = true
      · -- the provider's answer is returned
        rw [if_pos hoff] at h
        cases hext : r.external with
        | none => simp [hext] at h
        | some ext =>
          simp only [hext, Prod.mk.injEq] at h
          obtain ⟨rfl, hnil⟩ := h
          refine ⟨_, _, .offloaded ⟨grp, hg, hoff⟩, ?_⟩
          have hperm := (ext.fetch_nil g (toGet c cidxs) hnil).filterMap
            fun e => e.2.map fun data => (cidxs.getD e.1 0, data)
          rw [← found, ← found, found_answers] at hperm
          have hheld : ∀ m, holdsAt r g m = ext.stored g m := fun m => by
            simp [holdsAt, hg, hoff, hext]
          simpa [found, deliver, List.filterMap_map, Function.comp_def, hheld] using hperm
      · rw [if_neg hoff] at h
        -- a group that is here: its log calls back, and the loop goes on
        have hlocal : ¬ Offloaded r g := by
          rintro ⟨grp', hgrp', hoff'⟩
          rw [hg] at hgrp'
          exact hoff (Except.ok.inj hgrp' ▸ hoff')
        rcases hview : grp.jb.view (toGet c cidxs) with ⟨vcalls, _ | x⟩
        · simp only [hview] at h
          obtain ⟨more, hmore⟩ : ∃ more, viewGroups r c order = (more, none) :=
            ⟨(viewGroups r c order).1, Prod.ext rfl (Prod.mk.inj h).2⟩
          obtain ⟨reached, rest, hreach, hperm⟩ := ih hmore
          refine ⟨_, _, .cons hlocal hreach, ?_⟩
          have hcalls : calls = found cidxs vcalls ++ more := by
            rw [← (Prod.mk.inj h).1, hmore]
          have hvcalls : vcalls = answers grp.jb.held (toGet c cidxs) := by
            have := grp.jb.view_nil (toGet c cidxs) (by rw [hview])
            rwa [hview] at this
          have hheld : ∀ m, holdsAt r g m = grp.jb.held m := fun m => by
            simp [holdsAt, hg, hoff]
          rw [hcalls, hvcalls, found_answers, List.flatMap_cons, deliver]
          simp only [hheld]
          exact hperm.append_left _
        -- an error of the log is returned, and it is not that the group is offloaded
        · have hne := grp.jb.view_ne (toGet c cidxs)
          rw [hview] at hne
          simp only [hview] at h
          cases x with
          | errOffloaded => exact absurd rfl hne
          | _ => simp at h

/-! ## What was called -/

theorem Grouped.perm {bg' : List (GroupKey × List ℕ)} (h : Grouped a n bg) (hperm : bg'.Perm bg) :
    Grouped a n bg' where
  nodup := (hperm.map Prod.fst).nodup_iff.mpr h.nodup
  mem e he := h.mem e (hperm.mem_iff.mp he)
  exists_mem i hi g hg := (h.exists_mem i hi g hg).imp fun _ hidxs => hperm.mem_iff.mpr hidxs

theorem visits_grouped (r : Store) (c : List Multihash) :
    Grouped (assigned r.index c) c.length (visits r c) := by
  obtain ⟨s, hs, hgrouped⟩ := regrouped_ok r c
  rw [visits, hs]
  exact hgrouped.perm (r.range_perm _)

/-- An index is with one group only. -/
theorem Grouped.eq_of_mem (h : Grouped a n bg) {e e' : GroupKey × List ℕ} (he : e ∈ bg)
    (he' : e' ∈ bg) {i : ℕ} (hi : i ∈ e.2) (hi' : i ∈ e'.2) : e = e' := by
  have h1 := (((h.mem e he).2 i).mp hi).2
  have h2 := (((h.mem e' he').2 i).mp hi').2
  exact List.inj_on_of_nodup_map h.nodup he he' (Option.some.inj (h1.symm.trans h2))

theorem nodup_map_fst_flatMap_deliver (h : Grouped (assigned r.index c) c.length order) :
    ((order.flatMap (deliver r c)).map Prod.fst).Nodup := by
  have hsub : ∀ e, ∀ i ∈ (deliver r c e).map Prod.fst, i ∈ e.2 := by
    intro e i hi
    obtain ⟨x, hx, rfl⟩ := List.mem_map.mp hi
    obtain ⟨j, hj, hd⟩ := List.mem_filterMap.mp hx
    obtain ⟨d, -, rfl⟩ := Option.map_eq_some_iff.mp hd
    exact hj
  rw [List.map_flatMap, List.nodup_flatMap]
  refine ⟨fun e he => ?_, ?_⟩
  · rw [deliver, List.map_filterMap]
    refine (h.mem e he).1.filterMap fun i j x hi hj => ?_
    simp only [Option.mem_def, Option.map_map, Option.map_eq_some_iff, Function.comp_apply] at hi hj
    obtain ⟨-, -, rfl⟩ := hi
    obtain ⟨-, -, heq⟩ := hj
    exact heq.symm
  · have hpair : order.Pairwise fun e e' => e ≠ e' := h.nodup.of_map _
    refine hpair.imp_of_mem fun {e e'} he he' hne => ?_
    exact List.disjoint_left.mpr fun i hi hi' => hne (h.eq_of_mem he he' (hsub e i hi) (hsub e' i hi'))

/-- **When `View` returns nil** it has called back, at most once for each
index, for what the groups it reaches have. -/
theorem view_nil (h : view r c = (calls, none)) :
    ∃ reached rest, Reaches r (visits r c) reached rest ∧ (calls.map Prod.fst).Nodup ∧
      ∀ i d, (i, d) ∈ calls ↔ (∃ e ∈ reached, i ∈ e.2) ∧ delivers r c i = some d := by
  have hgrouped := visits_grouped r c
  obtain ⟨s, hs, -⟩ := regrouped_ok r c
  have hvisits : visits r c = r.range s.byGroup := by rw [visits, hs]
  simp only [view, hs, ← hvisits] at h
  obtain ⟨reached, rest, hreach, hperm⟩ := viewGroups_nil h
  refine ⟨reached, rest, hreach, ?_, fun i d => ?_⟩
  · have hnodup := nodup_map_fst_flatMap_deliver hgrouped
    rw [hreach.append_eq, List.flatMap_append, List.map_append] at hnodup
    exact (hperm.map Prod.fst).nodup_iff.mpr hnodup.of_append_left
  · have hmem : ∀ e ∈ reached, (i, d) ∈ deliver r c e ↔ i ∈ e.2 ∧ delivers r c i = some d := by
      intro e he
      have he : e ∈ visits r c := hreach.append_eq ▸ List.mem_append_left _ he
      rw [deliver, List.mem_filterMap]
      constructor
      · rintro ⟨j, hj, hd⟩
        obtain ⟨d', hd', heq⟩ := Option.map_eq_some_iff.mp hd
        obtain ⟨rfl, rfl⟩ := Prod.mk.inj heq
        refine ⟨hj, ?_⟩
        rw [delivers, (((hgrouped.mem e he).2 j).mp hj).2, Option.bind_some, hd']
      · rintro ⟨hi, hd⟩
        rw [delivers, (((hgrouped.mem e he).2 i).mp hi).2, Option.bind_some] at hd
        exact ⟨i, hi, by rw [hd]; rfl⟩
    rw [hperm.mem_iff, List.mem_flatMap]
    constructor
    · rintro ⟨e, he, hd⟩
      obtain ⟨hi, hd⟩ := (hmem e he).mp hd
      exact ⟨⟨e, he, hi⟩, hd⟩
    · rintro ⟨⟨e, he, hi⟩, hd⟩
      exact ⟨e, he, (hmem e he).mpr ⟨hi, hd⟩⟩

/-- The index `i` is with a group behind an offloaded one. -/
def Behind (r : Store) (c : List Multihash) (i : ℕ) : Prop :=
  ∃ pre e post, visits r c = pre ++ e :: post ∧ Offloaded r e.1 ∧ ∃ x ∈ post, i ∈ x.2

/-- An index with a group is with one that `View` reaches, or with one
behind an offloaded group. -/
theorem reached_iff_not_behind (hreach : Reaches r (visits r c) reached rest) {i : ℕ} {g : GroupKey}
    (hi : assigned r.index c i = some g) : (∃ e ∈ reached, i ∈ e.2) ↔ ¬ Behind r c i := by
  have hgrouped := visits_grouped r c
  have hlt : i < c.length := by
    by_contra hge
    rw [assigned, List.getElem?_eq_none (Nat.not_lt.mp hge)] at hi
    exact absurd hi (by simp)
  obtain ⟨idxs, hidxs⟩ := hgrouped.exists_mem i hlt g hi
  have hmem : i ∈ idxs := ((hgrouped.mem _ hidxs).2 i).mpr ⟨hlt, hi⟩
  have hnodup : (reached ++ rest).Nodup := hreach.append_eq ▸ hgrouped.nodup.of_map _
  have hall : ∀ x ∈ reached ++ rest, x ∈ visits r c := fun x hx => hreach.append_eq ▸ hx
  constructor
  · rintro ⟨e, he, hie⟩ ⟨pre, o, post, hsplit, hoff, x, hx, hix⟩
    have hrest := hreach.rest_of_offloaded hsplit hoff x hx
    have heq := hgrouped.eq_of_mem (hall e (List.mem_append_left _ he))
      (hall x (List.mem_append_right _ hrest)) hie hix
    subst heq
    exact List.disjoint_of_nodup_append hnodup he hrest
  · intro hbehind
    rw [hreach.append_eq, List.mem_append] at hidxs
    refine hidxs.elim (fun h => ⟨_, h, hmem⟩) fun hrest => absurd ?_ hbehind
    obtain ⟨pre, e, heq, hoff⟩ := hreach.exists_offloaded (List.ne_nil_of_mem hrest)
    refine ⟨pre, e, rest, ?_, hoff, _, hrest, hmem⟩
    rw [hreach.append_eq, heq, List.append_assoc, List.singleton_append]

/-- **`View` delivers every stored block**, each once, if and only if no
group behind an offloaded one has anything for the request. -/
theorem view_delivers_iff (h : view r c = (calls, none)) :
    ((calls.map Prod.fst).Nodup ∧ ∀ i d, delivers r c i = some d → (i, d) ∈ calls) ↔
      ∀ i, Behind r c i → delivers r c i = none := by
  obtain ⟨reached, rest, hreach, hnodup, hmem⟩ := view_nil h
  have hassigned : ∀ {i d}, delivers r c i = some d → ∃ g, assigned r.index c i = some g :=
    fun hd => (Option.bind_eq_some_iff.mp hd).imp fun _ hg => hg.1
  constructor
  · rintro ⟨-, hall⟩ i hbehind
    rw [Option.eq_none_iff_forall_not_mem]
    intro d hd
    obtain ⟨g, hg⟩ := hassigned hd
    exact (reached_iff_not_behind hreach hg).mp ((hmem i d).mp (hall i d hd)).1 hbehind
  · intro hnone
    refine ⟨hnodup, fun i d hd => (hmem i d).mpr ⟨?_, hd⟩⟩
    obtain ⟨g, hg⟩ := hassigned hd
    refine (reached_iff_not_behind hreach hg).mpr fun hbehind => ?_
    rw [hnone i hbehind] at hd
    exact absurd hd (by simp)

/-- **An orphan entry hides no block** if and only if the first group listed
for a block that is held holds it, and is not behind an offloaded one. -/
theorem view_finds_iff (h : view r cids = (calls, none)) :
    (∀ i m, cids[i]? = some m → (∃ g ∈ listed r.index m, (holdsAt r g m).isSome) →
        ∃ g ∈ listed r.index m, ∃ d, holdsAt r g m = some d ∧ (i, d) ∈ calls) ↔
      ∀ i m, cids[i]? = some m → (∃ g ∈ listed r.index m, (holdsAt r g m).isSome) →
        (∃ g, firstGroup (listed r.index m) = some g ∧ (holdsAt r g m).isSome) ∧
          ¬ Behind r cids i := by
  obtain ⟨reached, rest, hreach, -, hmem⟩ := view_nil h
  have hassigned : ∀ i m, cids[i]? = some m →
      assigned r.index cids i = firstGroup (listed r.index m) ∧ cids.getD i [] = m := fun i m hi =>
    ⟨by rw [assigned, hi, Option.bind_some], by rw [List.getD_eq_getElem?_getD, hi]; rfl⟩
  constructor
  · intro hall i m hi hheld
    obtain ⟨-, -, d, -, hcall⟩ := hall i m hi hheld
    obtain ⟨hreached, hdel⟩ := (hmem i d).mp hcall
    obtain ⟨ha, hget⟩ := hassigned i m hi
    rw [delivers, hget, ha] at hdel
    obtain ⟨g', hg', hd'⟩ := Option.bind_eq_some_iff.mp hdel
    refine ⟨⟨g', hg', by rw [hd']; rfl⟩, ?_⟩
    exact (reached_iff_not_behind hreach (ha.trans hg')).mp hreached
  · intro hall i m hi hheld
    obtain ⟨⟨g, hg, hsome⟩, hnot⟩ := hall i m hi hheld
    obtain ⟨d, hd⟩ := Option.isSome_iff_exists.mp hsome
    obtain ⟨ha, hget⟩ := hassigned i m hi
    refine ⟨g, mem_of_firstGroup hg, d, hd, (hmem i d).mpr ⟨?_, ?_⟩⟩
    · exact (reached_iff_not_behind hreach (ha.trans hg)).mpr hnot
    · rw [delivers, hget, ha, hg, Option.bind_some, hd]

/-! ## Two groups -/

/-- The data in an identity multihash of one byte. -/
def identityData (m : Multihash) : Bytes := m.drop 2

/-- A log without errors. -/
def ofHeld (held : Multihash → Option Bytes) : GroupLog where
  held := held
  view c := (answers held c, none)
  view_prefix _ := List.prefix_refl _
  view_nil _ _ := rfl
  view_ne _ := by simp

/-- A provider that has every block. -/
def identityProvider : Provider where
  stored _ m := some (identityData m)
  fetchBlocks _ c := (c.zipIdx.map fun e => (e.2, identityData e.1), none)
  fetch_nil _ c _ := by
    rw [answers, List.map_map]
    exact .refl _

/-- The blocks of the bytes 7 and 8: group 1 has the first one and is
offloaded, group 2 has the second one. -/
def offloadedFirst : Store where
  index := commit ∅ (addBatch [[0, 1, 7]] [1] 1 ++ addBatch [[0, 1, 8]] [1] 2)
  group g := .ok ⟨decide (g = 1), ofHeld fun m => some (identityData m)⟩
  external := some identityProvider
  range l := l
  range_perm _ := .refl _

/-- **The second block is not delivered**, though `View` returns nil. -/
theorem view_offloadedFirst :
    view offloadedFirst [[0, 1, 7], [0, 1, 8]] = ([(0, [7])], none) ∧
      delivers offloadedFirst [[0, 1, 7], [0, 1, 8]] 1 = some [8] :=
  ⟨rfl, rfl⟩

/-- The same groups, with a request for the second block only. -/
theorem view_delivers_iff_offloadedFirst :
    (([((0 : ℕ), ([8] : Bytes))].map Prod.fst).Nodup ∧ ∀ i d,
        delivers offloadedFirst [[0, 1, 8]] i = some d → (i, d) ∈ [(0, [8])]) ↔
      ∀ i, Behind offloadedFirst [[0, 1, 8]] i → delivers offloadedFirst [[0, 1, 8]] i = none := by
  have h : view offloadedFirst [[0, 1, 8]] = ([(0, [8])], none) := rfl
  exact view_delivers_iff h

/-- The block of the byte 7 is in group 1; group 2 was added last for it
and does not have it. -/
def orphanLast : Store where
  index := commit ∅ (addBatch [[0, 1, 7]] [1] 1 ++ addBatch [[0, 1, 7]] [1] 2)
  group g := .ok ⟨false, ofHeld fun m => if g = 1 then some (identityData m) else none⟩
  external := none
  range l := l
  range_perm _ := .refl _

/-- **The block is not found**, though `View` returns nil. -/
theorem view_orphanLast :
    view orphanLast [[0, 1, 7]] = ([], none) ∧ listed orphanLast.index [0, 1, 7] = [2, 1, 2] ∧
      holdsAt orphanLast 1 [0, 1, 7] = some [7] :=
  ⟨rfl, rfl, rfl⟩

/-- The same groups, as the condition has it. -/
theorem view_finds_iff_orphanLast :
    (∀ (i : ℕ) (m : Multihash), [[0, 1, 7]][i]? = some m →
        (∃ g ∈ listed orphanLast.index m, (holdsAt orphanLast g m).isSome) →
        ∃ g ∈ listed orphanLast.index m, ∃ d, holdsAt orphanLast g m = some d ∧ (i, d) ∈ []) ↔
      ∀ (i : ℕ) (m : Multihash), [[0, 1, 7]][i]? = some m →
        (∃ g ∈ listed orphanLast.index m, (holdsAt orphanLast g m).isSome) →
        (∃ g, firstGroup (listed orphanLast.index m) = some g ∧ (holdsAt orphanLast g m).isSome) ∧
          ¬ Behind orphanLast [[0, 1, 7]] i := by
  have h : view orphanLast [[0, 1, 7]] = ([], none) := rfl
  exact view_finds_iff h

end Session

end Rbstor

end Ribs
