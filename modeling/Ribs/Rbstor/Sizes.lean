import Ribs.Rbstor.TopIndex
/-!
# Rbstor — sizes

A key `s:` outlives the groups: `DropGroup` takes the group out of it and
leaves the size, for a pass that is to clean up later. So `GetSizes`
answers for whatever was added once, with the size that was given last,
and the blockstore's `Has` and `GetSize` with it.
-/

namespace Ribs

open Common

namespace Rbstor

namespace PebbleIndex

/-! ## Calls, one after the other -/

def Call.run (db : Db) : Call → Option Db
  | add mh sizes group => addGroup db mh sizes group
  | drop mh group => some (dropGroup db mh group)

/-- **The index behind calls**, unless one of them panics. -/
def runCalls (calls : List Call) : Option Db := calls.foldlM Call.run ∅

/-- What a call may be about. -/
def Call.Ok (V : Multihash → Prop) : Call → Prop
  | add mh _ group => (∀ m ∈ mh, V m) ∧ NonNegative group
  | drop mh group => (∀ m ∈ mh, V m) ∧ NonNegative group

/-- The sizes that the calls gave for a multihash, in their order. -/
def givenSizes (calls : List Call) (m : Multihash) : List I32 :=
  calls.flatMap fun
    | .add mh sizes _ => ((mh.zip sizes).filter fun e => e.1 = m).map Prod.snd
    | .drop _ _ => []

variable {V : Multihash → Prop} {db db' : Db} {calls : List Call} {c : Call} {m : Multihash}

theorem givenSizes_concat : givenSizes (calls ++ [c]) m =
    givenSizes calls m ++ givenSizes [c] m := List.flatMap_append ..

theorem runCalls_concat : runCalls (calls ++ [c]) = (runCalls calls).bind fun db => c.run db := by
  rw [runCalls, List.foldlM_append, runCalls]
  cases List.foldlM Call.run (∅ : Db) calls with
  | none => rfl
  | some db => exact bind_pure (c.run db)

/-- The reads of `DropGroup`, with nothing in between. -/
theorem reads_reachable {t : Top} {d : Dropping} {todo : List Multihash} (h : Reachable V t)
    (hd : t.dropping = some { d with todo := todo }) :
    Reachable V { t with dropping := some { d with
      todo := [], batch := d.batch ++ todo.flatMap (dropWrites t.db d.group) } } := by
  induction todo generalizing t d with
  | nil => simpa [← hd] using h
  | cons m todo ih =>
    have hread := h.tail (.read hd rfl)
    have := ih (d := { d with batch := d.batch ++ dropWrites t.db d.group m }) hread rfl
    simpa [List.append_assoc] using this

/-- **Calls one after the other** are runs of their steps. -/
theorem reachable_runCalls (hok : ∀ c ∈ calls, c.Ok V) (hrun : runCalls calls = some db) :
    Reachable V ⟨db, none, calls⟩ := by
  induction calls using List.reverseRecOn generalizing db with
  | nil =>
    obtain rfl := Option.some.inj hrun
    exact .refl
  | append_singleton calls c ih =>
    rw [runCalls_concat] at hrun
    obtain ⟨db₁, hdb₁, hc⟩ := Option.bind_eq_some_iff.mp hrun
    have hreach := ih (fun c hc => hok c (List.mem_append_left _ hc)) hdb₁
    have hcok := hok c (by simp)
    cases c with
    | add mh sizes group =>
      exact hreach.tail (.add hcok.1 hcok.2 (fun d hd => by simp at hd) hc)
    | drop mh group =>
      obtain rfl := Option.some.inj hc
      have hlock := hreach.tail (.lock hcok.1 hcok.2 rfl)
      have hread := reads_reachable (d := ⟨group, mh, mh, []⟩) hlock rfl
      exact hread.tail (.commit (d := ⟨group, mh, [], mh.flatMap (dropWrites db₁ group)⟩) rfl rfl)

/-! ## Sizes -/

/-- `AddGroup` sets the size of what it lists, to the last size it gives. -/
theorem sizeKey_addWrites (db : Db) (group : GroupKey) (l : List (Multihash × I32))
    (m : Multihash) : (commit db (l.flatMap (addWrites group)))[sizeKey m]? =
      ((l.filter fun e => e.1 = m).getLast?.map fun e => sizeBytes e.2 ++ groupBytes group).or
        db[sizeKey m]? := by
  induction l using List.reverseRecOn with
  | nil => rfl
  | append_singleton l e ih =>
    have hne : ¬ (Write.set (groupKeyOf e.1 group) ([] : Bytes)).key = sizeKey m :=
      fun h => sizeKey_ne_groupKeyOf h.symm
    have hkey : (Write.set (sizeKey e.1) (sizeBytes e.2 ++ groupBytes group)).key = sizeKey m ↔
        e.1 = m := ⟨sizeKey_injective, congrArg sizeKey⟩
    rw [List.flatMap_append, commit_append, List.filter_append]
    change (applyWrite (applyWrite _ (.set (groupKeyOf e.1 group) []))
      (.set (sizeKey e.1) (sizeBytes e.2 ++ groupBytes group)))[sizeKey m]? = _
    rw [getElem?_applyWrite, getElem?_applyWrite, if_neg hne, ih]
    by_cases hm : e.1 = m
    · rw [if_pos (hkey.mpr hm)]
      simp [hm, Write.value]
    · rw [if_neg fun h => hm (hkey.mp h)]
      simp [hm]

/-- `DropGroup` keeps the size. -/
theorem sizeKey_dropGroup (db : Db) (mh : List Multihash) (group : GroupKey) (m : Multihash) :
    (dropGroup db mh group)[sizeKey m]?.map uint32 = db[sizeKey m]?.map uint32 := by
  refine commit_induction (P := fun x => x.map uint32 = db[sizeKey m]?.map uint32) db rfl
    fun w hw hk => ?_
  obtain ⟨m', -, hw⟩ := List.mem_flatMap.mp hw
  rcases List.mem_cons.mp hw with rfl | hw
  · exact absurd hk.symm sizeKey_ne_groupKeyOf
  · cases hval : db[sizeKey m']? with
    | none => simp [hval] at hw
    | some val =>
      simp only [hval] at hw
      split_ifs at hw
      · obtain rfl := List.mem_singleton.mp hw
        obtain rfl := sizeKey_injective hk
        simp [Write.value, hval, uint32, List.take_take]
      · exact absurd hw List.not_mem_nil

/-- **The size in a key `s:`** is the one given last. -/
theorem size_of_runCalls (hrun : runCalls calls = some db) (m : Multihash) :
    db[sizeKey m]?.map uint32 = (givenSizes calls m).getLast? := by
  induction calls using List.reverseRecOn generalizing db with
  | nil =>
    obtain rfl := Option.some.inj hrun
    simp [givenSizes]
  | append_singleton calls c ih =>
    rw [runCalls_concat] at hrun
    obtain ⟨db₁, hdb₁, hc⟩ := Option.bind_eq_some_iff.mp hrun
    have ih := ih hdb₁
    cases c with
    | add mh sizes group =>
      simp only [Call.run, addGroup] at hc
      split_ifs at hc
      obtain rfl := Option.some.inj hc
      rw [addBatch, sizeKey_addWrites, givenSizes_concat, List.getLast?_append, ← ih]
      simp only [givenSizes, List.flatMap_cons, List.flatMap_nil, List.append_nil, List.getLast?_map]
      cases hl : ((mh.zip sizes).filter fun e => e.1 = m).getLast? with
      | none => simp
      | some e => simp [uint32_sizeBytes]
    | drop mh group =>
      obtain rfl := Option.some.inj hc
      rw [sizeKey_dropGroup, ih]
      simp [givenSizes]

theorem getSizes_eq_map (hrun : runCalls calls = some db) (c : List Multihash) :
    getSizes db c = c.map fun m => ((givenSizes calls m).getLast?).getD (-1) := by
  refine List.map_congr_left fun m _ => ?_
  rw [← size_of_runCalls hrun]
  cases db[sizeKey m]? <;> rfl

/-- What a group holds has a size. -/
theorem givenSizes_ne_nil_of_holds {g : GroupKey} (hok : ∀ c ∈ calls, c.Ok V)
    (hrun : runCalls calls = some db) (h : Holds calls m g) : givenSizes calls m ≠ [] := by
  have hsome := ((reachable_runCalls hok hrun).ok.db.holds m g h).2.2
  have hsize := size_of_runCalls hrun m
  intro hnil
  obtain ⟨val, hval⟩ := Option.isSome_iff_exists.mp hsome
  replace hval : db[sizeKey m]? = some val := hval
  rw [hval, hnil] at hsize
  simp at hsize

end PebbleIndex

/-! ## The blockstore -/

namespace Blockstore

open PebbleIndex

/-- `Session.GetSize` of one block; `none` is `ErrNotFound`. -/
def getSize (db : Db) (m : Multihash) : Option ℤ :=
  let r := (getSizes db [m]).headD 0
  if r = -1 then none else some r.toInt

/-- `Has`: `GetSize` finds it. -/
def has (db : Db) (m : Multihash) : Bool := (getSize db m).isSome

end Blockstore

namespace PebbleIndex

variable {V : Multihash → Prop} {db : Db} {calls : List Call}

/-- **`GetSizes` tells what was ever added**, with the size given last, and
the blockstore with it; so what a group holds has a size. -/
theorem getSizes_eq_given (hself : SelfDelimiting V) (hok : ∀ c ∈ calls, c.Ok V)
    (hsizes : ∀ m, ∀ n ∈ givenSizes calls m, n ≠ -1) (hrun : runCalls calls = some db)
    {mh : List Multihash} (hmh : ∀ m ∈ mh, V m) :
    ∃ out, getGroups db mh (collect : GroupsCb _ Empty) [] = .ok out ∧ ∀ i m, mh[i]? = some m →
      (getSizes db mh)[i]? = some ((givenSizes calls m).getLast?.getD (-1)) ∧
      ((getSizes db mh)[i]? = some (-1) ↔ givenSizes calls m = []) ∧
      (∀ g, (i, g) ∈ out → (getSizes db mh)[i]? ≠ some (-1)) ∧
      Blockstore.getSize db m = (givenSizes calls m).getLast?.map BitVec.toInt ∧
      (Blockstore.has db m = true ↔ givenSizes calls m ≠ []) := by
  obtain ⟨out, hout, hmem⟩ := getGroups_eq_holds hself (reachable_runCalls hok hrun) hmh (ε := Empty)
  refine ⟨out, hout, fun i m hi => ?_⟩
  have hsize : (getSizes db mh)[i]? = some ((givenSizes calls m).getLast?.getD (-1)) := by
    rw [getSizes_eq_map hrun, List.getElem?_map, hi]
    rfl
  have hnone : (getSizes db mh)[i]? = some (-1) ↔ givenSizes calls m = [] := by
    rw [hsize, Option.some.injEq]
    cases hlast : (givenSizes calls m).getLast? with
    | none => simpa using List.getLast?_eq_none_iff.mp hlast
    | some n =>
      refine iff_of_false (hsizes m n (List.mem_of_getLast? hlast)) fun hnil => ?_
      rw [hnil] at hlast
      simp at hlast
  have hget : Blockstore.getSize db m = (givenSizes calls m).getLast?.map BitVec.toInt := by
    have hone : (getSizes db [m]).headD 0 = (givenSizes calls m).getLast?.getD (-1) := by
      rw [getSizes_eq_map hrun]
      rfl
    simp only [Blockstore.getSize, hone]
    cases hlast : (givenSizes calls m).getLast? with
    | none => rfl
    | some n => exact if_neg (hsizes m n (List.mem_of_getLast? hlast))
  refine ⟨hsize, hnone, fun g hg => ?_, hget, ?_⟩
  · obtain ⟨m', hm', hh⟩ := (hmem i g).mp hg
    obtain rfl : m = m' := Option.some.inj (hi.symm.trans hm')
    exact fun h => givenSizes_ne_nil_of_holds hok hrun hh (hnone.mp h)
  · rw [Blockstore.has, hget, Option.isSome_map]
    simp

/-- One block, that one group has, and has no more. -/
def addDrop (m : Multihash) : List Call := [.add [m] [5] 1, .drop [m] 1]

/-- The size of a block that no group holds any more. -/
theorem getSizes_addDrop : ∃ db, runCalls (addDrop [0, 0]) = some db ∧
    getGroups db [[0, 0]] (collect : GroupsCb _ Empty) [] = .ok [] ∧
    getSizes db [[0, 0]] = [5] ∧ Blockstore.getSize db [0, 0] = some 5 ∧
    Blockstore.has db [0, 0] = true :=
  ⟨_, rfl, rfl, rfl, rfl, rfl⟩

theorem ok_addDrop : ∀ c ∈ addDrop [0, 0], c.Ok Carlog.ValidMultihash := by
  have hm : ∀ m ∈ [[0, 0]], Carlog.ValidMultihash m :=
    List.forall_mem_singleton.mpr validMultihash_zero
  exact List.forall_mem_cons.mpr ⟨⟨hm, by decide⟩, List.forall_mem_singleton.mpr ⟨hm, by decide⟩⟩

/-- The sizes, where one block was added and dropped. -/
theorem getSizes_eq_given_addDrop :
    ∃ out, getGroups ((runCalls (addDrop [0, 0])).getD ∅) [[0, 0]] (collect : GroupsCb _ Empty) []
      = .ok out ∧ ∀ i m, [[0, 0]][i]? = some m →
      (getSizes ((runCalls (addDrop [0, 0])).getD ∅) [[0, 0]])[i]? =
        some ((givenSizes (addDrop [0, 0]) m).getLast?.getD (-1)) ∧
      ((getSizes ((runCalls (addDrop [0, 0])).getD ∅) [[0, 0]])[i]? = some (-1) ↔
        givenSizes (addDrop [0, 0]) m = []) ∧
      (∀ g, (i, g) ∈ out →
        (getSizes ((runCalls (addDrop [0, 0])).getD ∅) [[0, 0]])[i]? ≠ some (-1)) ∧
      Blockstore.getSize ((runCalls (addDrop [0, 0])).getD ∅) m =
        (givenSizes (addDrop [0, 0]) m).getLast?.map BitVec.toInt ∧
      (Blockstore.has ((runCalls (addDrop [0, 0])).getD ∅) m = true ↔
        givenSizes (addDrop [0, 0]) m ≠ []) := by
  refine getSizes_eq_given selfDelimiting_validMultihash ok_addDrop (fun m n hn => ?_) rfl
    (List.forall_mem_singleton.mpr validMultihash_zero)
  have hn5 : n = 5 := by
    simp only [givenSizes, addDrop, List.flatMap_cons, List.flatMap_nil, List.append_nil,
      List.zip_cons_cons, List.zip_nil_left] at hn
    obtain ⟨e, he, rfl⟩ := List.mem_map.mp hn
    rw [List.mem_singleton.mp (List.mem_filter.mp he).1]
  rw [hn5]
  decide

end PebbleIndex

end Rbstor

end Ribs
