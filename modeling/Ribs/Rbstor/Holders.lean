import Ribs.Rbstor.TopIndex
import Mathlib.Data.List.Nodup
/-!
# Rbstor — how often a holder is reported

`GetGroups` first reports the group that the key `s:` of a multihash
names, and then scans the keys `i:` of the multihash, where that group is
listed as well. The scan meets every group once, and `GetGroups` does not
skip the group it began with. So a group is reported once when no key
`s:` names it, and twice otherwise. `FindHashes` keeps what it is told.
-/

namespace Ribs

open Common

namespace Rbstor

open PebbleIndex

variable {ε : Type}

/-- The callback of `FindHashes`. -/
def appendGroup : GroupsCb (List GroupKey) ε := fun _ group out =>
  if group = undefGroupKey then .ok (out, true) else .ok (out ++ [group], true)

/-- `FindHashes`. -/
def findHashes (db : Db) (hash : Multihash) : Except ε (List GroupKey) :=
  getGroups db [hash] appendGroup []

namespace PebbleIndex

variable {V : Multihash → Prop} {calls : List Call} {db : Db} {m : Multihash} {g : GroupKey}

/-! ## The scan -/

/-- **A scan meets a group once**: the keys differ, and a key of the
multihash is told by its group. -/
theorem nodup_iterGroups (hself : SelfDelimiting V) (h : DbOk V calls db) (hm : V m) :
    (iterGroups db m).Nodup := by
  have hkeys : db.keys.Nodup := by
    have hdistinct := Std.TreeMap.distinct_keys (t := db)
    refine hdistinct.imp fun {a b} hne heq => hne ?_
    rw [heq]
    exact Std.ReflCmp.compare_self
  unfold iterGroups
  refine List.Nodup.map_on (fun k hk k' hk' heq => ?_) (hkeys.filter _)
  obtain ⟨hk, hrange⟩ := List.mem_filter.mp hk
  obtain ⟨hk', hrange'⟩ := List.mem_filter.mp hk'
  obtain ⟨g, rfl⟩ := groupKeyOf_of_scanned hself h hm hk (of_decide_eq_true hrange)
  obtain ⟨g', rfl⟩ := groupKeyOf_of_scanned hself h hm hk' (of_decide_eq_true hrange')
  rw [uint64_groupKeyOf, uint64_groupKeyOf] at heq
  rw [heq]

/-! ## What is listed -/

/-- The group of the key `s:` is listed besides what the scan meets. -/
theorem count_listed (hself : SelfDelimiting V) (h : DbOk V calls db) (hm : V m)
    (hh : Holds calls m g) :
    (listed db m).count g = ((db[sizeKey m]?).bind cachedGroup).toList.count g + 1 := by
  have hscan : (iterGroups db m).count g = 1 :=
    List.count_eq_one_of_mem (nodup_iterGroups hself h hm) ((mem_iterGroups hself h hm).mpr hh)
  have hsome := (h.holds m g hh).2.2
  unfold listed
  cases hval : db[sizeKey m]? with
  | none => simp [hval] at hsome
  | some val => rw [List.count_append, hscan, Option.bind_some]

/-- **How often a holder is listed.** -/
theorem count_listed_eq (hself : SelfDelimiting V) (h : DbOk V calls db) (hm : V m)
    (hh : Holds calls m g) : (listed db m).count g = 1 ↔ ¬ Caches db m g := by
  rw [count_listed hself h hm hh, Caches]
  cases hc : (db[sizeKey m]?).bind cachedGroup with
  | none => simp
  | some g' =>
    rw [Option.toList_some, Option.some.injEq]
    by_cases heq : g' = g
    · subst heq
      simp
    · simp [heq]

/-- **The list has no group twice** when no key `s:` names one of it. -/
theorem nodup_listed (hself : SelfDelimiting V) (h : DbOk V calls db) (hm : V m) :
    (listed db m).Nodup ↔ ∀ g, ¬ Caches db m g := by
  constructor
  · intro hnodup g hc
    have hh := h.caches m g hc
    have hone := List.count_eq_one_of_mem hnodup ((mem_listed hself h hm).mpr hh)
    exact (count_listed_eq hself h hm hh).mp hone hc
  · intro hnone
    rw [List.nodup_iff_count_eq_one]
    intro g hg
    have hh := (mem_listed hself h hm).mp hg
    exact (count_listed_eq hself h hm hh).mpr (hnone g)

/-! ## The calls of the callback -/

/-- What is told at the index of a multihash is what is listed of it. -/
theorem getGroupsFrom_collect_count (db : Db) (idx : ℕ) (mh : List Multihash)
    (s : List (ℕ × GroupKey)) :
    ∃ out, getGroupsFrom db (collect : GroupsCb _ ε) idx mh s = .ok (s ++ out) ∧
      (∀ e ∈ out, idx ≤ e.1) ∧
      ∀ j m g, mh[j]? = some m → out.count (idx + j, g) = (listed db m).count g := by
  induction mh generalizing idx s with
  | nil => exact ⟨[], by simp [getGroupsFrom], by simp, by simp⟩
  | cons m mh ih =>
    obtain ⟨out, hout, hge, hcount⟩ := ih (idx + 1) (s ++ (listed db m).map (Prod.mk idx))
    have hinj : Function.Injective (Prod.mk idx : GroupKey → ℕ × GroupKey) :=
      Prod.mk_right_injective idx
    refine ⟨(listed db m).map (Prod.mk idx) ++ out, ?_, fun e he => ?_, fun j m' g hj => ?_⟩
    · rw [getGroupsFrom, getGroupsAt_eq, scanGroups_collect, ← List.append_assoc]
      exact hout
    · rcases List.mem_append.mp he with he | he
      · obtain ⟨g, -, rfl⟩ := List.mem_map.mp he
        exact le_refl idx
      · have := hge e he
        omega
    · rw [List.count_append]
      cases j with
      | zero =>
        rw [List.getElem?_cons_zero, Option.some.injEq] at hj
        subst hj
        have hzero : out.count (idx, g) = 0 := by
          refine List.count_eq_zero_of_not_mem fun he => ?_
          have := hge _ he
          simp only at this
          omega
        rw [Nat.add_zero, List.count_map_of_injective _ _ hinj, hzero, Nat.add_zero]
      | succ j =>
        rw [List.getElem?_cons_succ] at hj
        have hzero : ((listed db m).map (Prod.mk idx)).count (idx + (j + 1), g) = 0 := by
          refine List.count_eq_zero_of_not_mem fun he => ?_
          obtain ⟨g', -, heq⟩ := List.mem_map.mp he
          have := congrArg Prod.fst heq
          simp only at this
          omega
        have := hcount j m' g hj
        rw [show idx + 1 + j = idx + (j + 1) by omega] at this
        rw [hzero, this, Nat.zero_add]

/-- `FindHashes` keeps the groups it is told, but for `UndefGroupKey`. -/
theorem scanGroups_appendGroup (idx : ℕ) (gs out : List GroupKey) :
    scanGroups (appendGroup : GroupsCb _ ε) idx gs out =
      .ok (out ++ gs.filter fun g => g ≠ undefGroupKey) := by
  induction gs generalizing out with
  | nil => simp [scanGroups]
  | cons g gs ih =>
    rw [scanGroups, appendGroup]
    by_cases hg : g = undefGroupKey
    · simp [hg, ih]
    · simp [hg, ih]

end PebbleIndex

variable {V : Multihash → Prop} {calls : List PebbleIndex.Call} {db : Db} {m : Multihash}

/-- **`FindHashes`** returns what is listed: no holder is `UndefGroupKey`. -/
theorem findHashes_eq (hself : SelfDelimiting V) (h : DbOk V calls db) (hm : V m) :
    findHashes db m = (.ok (listed db m) : Except ε _) := by
  have hall : (listed db m).filter (fun g => g ≠ undefGroupKey) = listed db m := by
    refine List.filter_eq_self.mpr fun g hg => ?_
    have hnn := (h.holds m g ((mem_listed hself h hm).mp hg)).2.1
    refine decide_eq_true ?_
    rintro rfl
    exact absurd hnn (by decide)
  unfold findHashes getGroups
  rw [getGroupsFrom, getGroupsAt_eq, scanGroups_appendGroup, hall]
  rfl

/-! ## Once -/

/-- **Each holder is reported once**: by `GetGroups`, for each index it is
asked for at, and by `FindHashes`. -/
structure ReportedOnce (ε : Type) (db : Db) (calls : List PebbleIndex.Call)
    (mh : List Multihash) : Prop where
  getGroups : ∃ out, getGroups db mh (collect : GroupsCb _ ε) [] = .ok out ∧
    ∀ i m g, mh[i]? = some m → Holds calls m g → out.count (i, g) = 1
  findHashes : ∀ m ∈ mh, ∃ gs, findHashes db m = (.ok gs : Except ε _) ∧ gs.Nodup

/-- **When each holder is reported once.** After any steps of `AddGroup`
and `DropGroup` this is when no key `s:` of what is asked for names a
group. -/
theorem reportedOnce_iff (ε : Type) (hself : SelfDelimiting V) {t : Top} (h : Reachable V t)
    {mh : List Multihash} (hmh : ∀ m ∈ mh, V m) :
    ReportedOnce ε t.db t.calls mh ↔ ∀ m ∈ mh, ∀ g, ¬ Caches t.db m g := by
  constructor
  · intro hrep m hm
    obtain ⟨gs, hgs, hnodup⟩ := hrep.findHashes m hm
    rw [findHashes_eq hself h.ok.db (hmh m hm)] at hgs
    obtain rfl := Except.ok.inj hgs
    exact (nodup_listed hself h.ok.db (hmh m hm)).mp hnodup
  · intro hnone
    obtain ⟨out, hout, -, hcount⟩ := getGroupsFrom_collect_count (ε := ε) t.db 0 mh []
    refine ⟨⟨out, hout, fun i m g hi hh => ?_⟩, fun m hm =>
      ⟨_, findHashes_eq hself h.ok.db (hmh m hm), ?_⟩⟩
    · have hm := List.mem_of_getElem? hi
      have := hcount i m g hi
      rw [Nat.zero_add] at this
      rw [this]
      exact (count_listed_eq hself h.ok.db (hmh m hm) hh).mpr (hnone m hm g)
    · exact (nodup_listed hself h.ok.db (hmh m hm)).mpr (hnone m hm)

/-- The index behind one call of `AddGroup`. -/
def afterAdd : Top := ⟨commit ∅ (addBatch [[0, 0]] [5] 1), none, [.add [[0, 0]] [5] 1]⟩

theorem reachable_afterAdd : Reachable Carlog.ValidMultihash afterAdd := by
  have hm : ∀ m ∈ [[0, 0]], Carlog.ValidMultihash m :=
    List.forall_mem_singleton.mpr validMultihash_zero
  have hstep : Step Carlog.ValidMultihash .init afterAdd :=
    .add (t := .init) hm (by decide) (fun d hd => absurd hd (by simp [Top.init])) rfl
  exact .single hstep

/-- One block was asked for, that one group has. -/
theorem reportedOnce_iff_afterAdd : ReportedOnce Empty afterAdd.db afterAdd.calls [[0, 0]] ↔
    ∀ m ∈ [[0, 0]], ∀ g, ¬ Caches afterAdd.db m g :=
  reportedOnce_iff Empty selfDelimiting_validMultihash reachable_afterAdd
    (List.forall_mem_singleton.mpr validMultihash_zero)

/-- **One call of `AddGroup` is enough**: its group is reported twice. -/
theorem reportedTwice_afterAdd : Reachable Carlog.ValidMultihash afterAdd ∧
    getGroups afterAdd.db [[0, 0]] (collect : GroupsCb _ Empty) [] = .ok [(0, 1), (0, 1)] ∧
    findHashes afterAdd.db [0, 0] = (.ok [1, 1] : Except Empty _) ∧
    ¬ ReportedOnce Empty afterAdd.db afterAdd.calls [[0, 0]] := by
  have hget : getGroups afterAdd.db [[0, 0]] (collect : GroupsCb _ Empty) [] =
      .ok [(0, 1), (0, 1)] := by decide
  have hfind : findHashes afterAdd.db [0, 0] = (.ok [1, 1] : Except Empty _) := by decide
  refine ⟨reachable_afterAdd, hget, hfind, fun hrep => ?_⟩
  obtain ⟨gs, hgs, hnodup⟩ := hrep.findHashes _ List.mem_cons_self
  rw [hfind] at hgs
  obtain rfl := Except.ok.inj hgs
  exact absurd hnodup (by decide)

end Rbstor

end Ribs
