import Ribs.Carlog.Format
import Ribs.Rbstor.PebbleIndex
/-!
# Rbstor — the top index is a set of pairs

Whatever calls of `AddGroup` and `DropGroup` there were, `GetGroups`
reports of a multihash the groups whose last call on it was `AddGroup`.
A call of `DropGroup` reads the keys `s:` one by one and then commits its
batch; other groups may be added between any two of these steps, and one
lock keeps other calls of `DropGroup` out. So the group in a key `s:` may
be lost, but it is never wrong, and the keys `i:` have them all.
-/

namespace Ribs

open Common

namespace Rbstor

/-! ## Keys and values -/

/-- A group that is not negative. -/
def NonNegative (g : GroupKey) : Prop := g.toNat < 2 ^ 63

instance : DecidablePred NonNegative := fun g => inferInstanceAs (Decidable (g.toNat < 2 ^ 63))

/-- **Self-delimiting multihashes**: none is the beginning of another. -/
def SelfDelimiting (V : Multihash → Prop) : Prop := ∀ m m', V m → V m' → m <+: m' → m = m'

/-- The multihashes of the multihash format are self-delimiting. -/
theorem selfDelimiting_validMultihash : SelfDelimiting Carlog.ValidMultihash := by
  rintro m m' ⟨code, digest, hcode, hlen, rfl⟩ ⟨code', digest', hcode', hlen', rfl⟩ ⟨rest, hrest⟩
  simp only [List.append_assoc] at hrest
  obtain ⟨rfl, htail⟩ := putUvarint_append_inj (by omega) (by omega) hrest
  obtain ⟨hdigest, hrest⟩ := putUvarint_append_inj (by omega) (by omega) htail
  have hd : digest = digest' := by
    have := congrArg (List.take digest.length) hrest
    rwa [List.take_left' rfl, List.take_of_length_le hdigest.ge] at this
  rw [hd]

@[simp] theorem length_groupBytes (g : GroupKey) : (groupBytes g).length = 8 := by simp [groupBytes]

@[simp] theorem length_sizeBytes (n : I32) : (sizeBytes n).length = 4 := by simp [sizeBytes]

theorem beNat_groupBytes (g : GroupKey) : beNat (groupBytes g) = g.toNat := by
  have hlt : g.toNat < 256 ^ 8 := by have := g.isLt; norm_num at this ⊢; exact this
  rw [beNat, groupBytes, List.reverse_reverse, leNat_leBytes hlt]

theorem uint64_groupBytes (g : GroupKey) : uint64 (groupBytes g) = g := by
  rw [uint64, List.take_of_length_le (length_groupBytes g).le, beNat_groupBytes,
    BitVec.ofNat_toNat, BitVec.setWidth_eq]

theorem uint32_sizeBytes (n : I32) (rest : Bytes) : uint32 (sizeBytes n ++ rest) = n := by
  have hlt : n.toNat < 256 ^ 4 := by have := n.isLt; norm_num at this ⊢; exact this
  rw [uint32, List.take_left' (length_sizeBytes n), beNat, sizeBytes, List.reverse_reverse,
    leNat_leBytes hlt, BitVec.ofNat_toNat, BitVec.setWidth_eq]

theorem groupBytes_injective {g g' : GroupKey} (h : groupBytes g = groupBytes g') : g = g' := by
  rw [← uint64_groupBytes g, h, uint64_groupBytes]

/-- The bound of a scan lies behind the groups that are not negative. -/
theorem groupBytes_lt {g : GroupKey} (hg : NonNegative g) :
    groupBytes g < List.replicate 8 0xff := by
  refine lt_of_beNat_take_lt (n := 8) (by simp) ?_
  rw [List.take_of_length_le (length_groupBytes g).le, beNat_groupBytes]
  have hmax : beNat (List.take 8 (List.replicate 8 (0xff : UInt8))) = 2 ^ 64 - 1 := by decide
  rw [hmax]
  simp only [NonNegative] at hg
  omega

variable {m m' : Multihash} {g g' : GroupKey}

theorem sizeKey_injective (h : sizeKey m = sizeKey m') : m = m' := List.append_cancel_left h

theorem groupKeyOf_injective (h : groupKeyOf m g = groupKeyOf m' g') : m = m' ∧ g = g' := by
  obtain ⟨hm, hg⟩ := List.append_inj' h (by simp)
  exact ⟨List.append_cancel_left hm, groupBytes_injective hg⟩

theorem sizeKey_ne_groupKeyOf : sizeKey m ≠ groupKeyOf m' g := by
  simp [sizeKey, groupKeyOf, sizePrefix, groupPrefix]

namespace PebbleIndex

/-! ## Calls -/

/-- A call that changes the index, when it is done. -/
inductive Call where
  | add (mh : List Multihash) (sizes : List I32) (group : GroupKey)
  | drop (mh : List Multihash) (group : GroupKey)

namespace Call

/-- The call is about the pair. -/
def touches (m : Multihash) (g : GroupKey) : Call → Bool
  | add mh _ group => decide (m ∈ mh ∧ g = group)
  | drop mh group => decide (m ∈ mh ∧ g = group)

def isAdd : Call → Bool
  | add .. => true
  | drop .. => false

end Call

/-- **The group holds the multihash**: the last call on the pair was
`AddGroup`. -/
def Holds (calls : List Call) (m : Multihash) (g : GroupKey) : Prop :=
  ∃ c, (calls.filter (Call.touches m g)).getLast? = some c ∧ c.isAdd = true

variable {calls : List Call} {c : Call}

theorem not_holds_nil : ¬ Holds [] m g := by simp [Holds]

theorem holds_concat_of_touches (h : c.touches m g = true) :
    Holds (calls ++ [c]) m g ↔ c.isAdd = true := by
  simp [Holds, List.filter_append, h]

theorem holds_concat_of_not_touches (h : c.touches m g = false) :
    Holds (calls ++ [c]) m g ↔ Holds calls m g := by
  simp [Holds, List.filter_append, h]

/-! ## The steps of the calls -/

/-- A call of `DropGroup` under way: what it was called with, what it has
not read yet, and its batch so far. -/
structure Dropping where
  group : GroupKey
  mh : List Multihash
  todo : List Multihash
  batch : List (Write Bytes Bytes)

/-- Read the key `s:` of one more multihash. -/
def Dropping.read (d : Dropping) (db : Db) (m : Multihash) (todo : List Multihash) : Dropping :=
  { d with todo := todo, batch := d.batch ++ dropWrites db d.group m }

/-- The index, the call of `DropGroup` that holds `dropLk`, and the calls
that are done. -/
structure Top where
  db : Db
  dropping : Option Dropping
  calls : List Call

def Top.init : Top := ⟨∅, none, []⟩

/-- **One step** of a call. -/
inductive Step (V : Multihash → Prop) : Top → Top → Prop
  | add {t : Top} {mh : List Multihash} {sizes : List I32} {group : GroupKey} {db : Db}
    (hV : ∀ m ∈ mh, V m) (hgroup : NonNegative group)
    (hother : ∀ d, t.dropping = some d → d.group ≠ group)
    (hadd : addGroup t.db mh sizes group = some db) :
    Step V t { t with db := db, calls := t.calls ++ [.add mh sizes group] }
  | lock {t : Top} {mh : List Multihash} {group : GroupKey} (hV : ∀ m ∈ mh, V m)
    (hgroup : NonNegative group) (hfree : t.dropping = none) :
    Step V t { t with dropping := some ⟨group, mh, mh, []⟩ }
  | read {t : Top} {d : Dropping} {m : Multihash} {todo : List Multihash}
    (hd : t.dropping = some d) (htodo : d.todo = m :: todo) :
    Step V t { t with dropping := some (d.read t.db m todo) }
  | commit {t : Top} {d : Dropping} (hd : t.dropping = some d) (htodo : d.todo = []) :
    Step V t ⟨Common.commit t.db d.batch, none, t.calls ++ [.drop d.mh d.group]⟩

/-- What a sequence of calls and interleavings can reach. -/
def Reachable (V : Multihash → Prop) : Top → Prop := Relation.ReflTransGen (Step V) .init

/-! ## The invariant -/

/-- The group in a value of a key `s:`. -/
def cachedGroup (val : Bytes) : Option GroupKey :=
  if 4 < val.length then some (uint64 (val.drop 4)) else none

/-- The key `s:` of the multihash names the group. -/
def Caches (db : Db) (m : Multihash) (g : GroupKey) : Prop :=
  (db[sizeKey m]?).bind cachedGroup = some g

/-- A write of the batch of `DropGroup`. -/
inductive DropWrite (group : GroupKey) (mh : List Multihash) : Write Bytes Bytes → Prop
  | delete {m : Multihash} (hm : m ∈ mh) : DropWrite group mh (.delete (groupKeyOf m group))
  | set {m : Multihash} {val : Bytes} (hm : m ∈ mh) (hval : val.length = 4) :
    DropWrite group mh (.set (sizeKey m) val)

/-- A call of `DropGroup` under way: for what it has read, its batch takes
out the key `i:`, and clears the key `s:` unless that names another group. -/
structure DropOk (V : Multihash → Prop) (db : Db) (d : Dropping) : Prop where
  group : NonNegative d.group
  valid : ∀ m ∈ d.mh, V m
  todo : ∀ m ∈ d.todo, m ∈ d.mh
  writes : ∀ w ∈ d.batch, DropWrite d.group d.mh w
  deletes : ∀ m ∈ d.mh, m ∈ d.todo ∨ .delete (groupKeyOf m d.group) ∈ d.batch
  clears : ∀ m ∈ d.mh, m ∈ d.todo ∨ (∃ val, .set (sizeKey m) val ∈ d.batch) ∨
    ¬ Caches db m d.group

/-- **What is in the database.** -/
structure DbOk (V : Multihash → Prop) (calls : List Call) (db : Db) : Prop where
  keys : ∀ k, db[k]?.isSome → (∃ m, k = sizeKey m) ∨ ∃ m g, V m ∧ k = groupKeyOf m g
  groups : ∀ m g, V m → (db[groupKeyOf m g]?.isSome ↔ Holds calls m g)
  holds : ∀ m g, Holds calls m g → V m ∧ NonNegative g ∧ db[sizeKey m]?.isSome
  length : ∀ m val, db[sizeKey m]? = some val → val.length = 4 ∨ val.length = 12
  caches : ∀ m g, Caches db m g → Holds calls m g

structure Top.Ok (V : Multihash → Prop) (t : Top) : Prop where
  db : DbOk V t.calls t.db
  dropping : ∀ d, t.dropping = some d → DropOk V t.db d

/-! ## What a batch leaves -/

section

variable {V : Multihash → Prop} {db : Db} {mh : List Multihash} {sizes : List I32}
  {group : GroupKey} {d : Dropping}

theorem mem_addBatch {w : Write Bytes Bytes} : w ∈ addBatch mh sizes group ↔
    ∃ e ∈ mh.zip sizes, w = .set (groupKeyOf e.1 group) [] ∨
      w = .set (sizeKey e.1) (sizeBytes e.2 ++ groupBytes group) := by
  simp [addBatch, addWrites]

/-- Every multihash of the call has a size. -/
theorem exists_size (hlen : mh.length ≤ sizes.length) (hm : m ∈ mh) :
    ∃ n, (m, n) ∈ mh.zip sizes := by
  rw [← List.map_fst_zip hlen] at hm
  obtain ⟨⟨m', n⟩, he, rfl⟩ := List.mem_map.mp hm
  exact ⟨n, he⟩

theorem isSome_groupKey_add (hlen : mh.length ≤ sizes.length) :
    (commit db (addBatch mh sizes group))[groupKeyOf m g]?.isSome ↔
      (m ∈ mh ∧ g = group) ∨ db[groupKeyOf m g]?.isSome := by
  have hset : ∀ w ∈ addBatch mh sizes group, w.value.isSome := by
    intro w hw
    obtain ⟨e, -, rfl | rfl⟩ := mem_addBatch.mp hw <;> rfl
  by_cases h : m ∈ mh ∧ g = group
  · obtain ⟨hm, rfl⟩ := h
    obtain ⟨n, hn⟩ := exists_size hlen hm
    have hw : Write.set (groupKeyOf m g) [] ∈ addBatch mh sizes g :=
      mem_addBatch.mpr ⟨_, hn, Or.inl rfl⟩
    have hsome : (commit db (addBatch mh sizes g))[groupKeyOf m g]?.isSome :=
      commit_of_mem (P := fun x => x.isSome) db hw rfl fun w hw _ => hset w hw
    exact iff_of_true hsome (Or.inl ⟨hm, rfl⟩)
  · rw [getElem?_commit_of_forall_ne]
    · simp [h]
    · rintro w hw hk
      obtain ⟨e, he, rfl | rfl⟩ := mem_addBatch.mp hw
      · obtain ⟨rfl, rfl⟩ := groupKeyOf_injective hk
        exact h ⟨(List.of_mem_zip he).1, rfl⟩
      · exact sizeKey_ne_groupKeyOf hk

/-- Behind `AddGroup` the key `s:` names the group. -/
theorem sizeKey_add_of_mem (db : Db) (group : GroupKey) (hlen : mh.length ≤ sizes.length) (hm : m ∈ mh) :
    ∃ n, (m, n) ∈ mh.zip sizes ∧ (commit db (addBatch mh sizes group))[sizeKey m]? =
      some (sizeBytes n ++ groupBytes group) := by
  obtain ⟨n, hn⟩ := exists_size hlen hm
  have hw : Write.set (sizeKey m) (sizeBytes n ++ groupBytes group) ∈ addBatch mh sizes group :=
    mem_addBatch.mpr ⟨_, hn, Or.inr rfl⟩
  refine commit_of_mem (P := fun x => ∃ n, (m, n) ∈ mh.zip sizes ∧
    x = some (sizeBytes n ++ groupBytes group)) db hw rfl fun w hw hk => ?_
  obtain ⟨⟨m', n'⟩, he, rfl | rfl⟩ := mem_addBatch.mp hw
  · exact absurd hk.symm sizeKey_ne_groupKeyOf
  · obtain rfl := sizeKey_injective hk
    exact ⟨n', he, rfl⟩

theorem sizeKey_add_of_not_mem (hm : m ∉ mh) :
    (commit db (addBatch mh sizes group))[sizeKey m]? = db[sizeKey m]? := by
  refine getElem?_commit_of_forall_ne db fun w hw hk => ?_
  obtain ⟨e, he, rfl | rfl⟩ := mem_addBatch.mp hw
  · exact sizeKey_ne_groupKeyOf hk.symm
  · obtain rfl := sizeKey_injective hk
    exact hm (List.of_mem_zip he).1

@[simp] theorem cachedGroup_added (n : I32) (g : GroupKey) :
    cachedGroup (sizeBytes n ++ groupBytes g) = some g := by
  have hdrop : (sizeBytes n ++ groupBytes g).drop 4 = groupBytes g := List.drop_left' (by simp)
  rw [cachedGroup, if_pos (by simp), hdrop, uint64_groupBytes]

theorem cachedGroup_of_length {val : Bytes} (h : val.length = 4) : cachedGroup val = none := by
  rw [cachedGroup, if_neg (by omega)]

theorem caches_add (hlen : mh.length ≤ sizes.length) :
    Caches (commit db (addBatch mh sizes group)) m g ↔
      if m ∈ mh then g = group else Caches db m g := by
  split_ifs with hm
  · obtain ⟨n, -, hn⟩ := sizeKey_add_of_mem db group hlen hm
    rw [Caches, hn, Option.bind_some, cachedGroup_added, Option.some.injEq, eq_comm]
  · rw [Caches, sizeKey_add_of_not_mem hm, Caches]

/-- **`AddGroup` keeps the invariant.** -/
theorem DbOk.add (h : DbOk V calls db) (hV : ∀ m ∈ mh, V m) (hgroup : NonNegative group)
    (hlen : mh.length ≤ sizes.length) :
    DbOk V (calls ++ [.add mh sizes group]) (commit db (addBatch mh sizes group)) := by
  have htouches : ∀ m g, Call.touches m g (.add mh sizes group) = true ↔ m ∈ mh ∧ g = group :=
    fun m g => by simp [Call.touches]
  -- the pairs that are added hold, the others hold as before
  have hholds : ∀ m g, Holds (calls ++ [.add mh sizes group]) m g ↔
      (m ∈ mh ∧ g = group) ∨ Holds calls m g := by
    intro m g
    by_cases hmg : m ∈ mh ∧ g = group
    · rw [holds_concat_of_touches ((htouches m g).mpr hmg)]
      simp [Call.isAdd, hmg]
    · rw [holds_concat_of_not_touches (Bool.eq_false_iff.mpr fun ht => hmg ((htouches m g).mp ht))]
      simp [hmg]
  refine ⟨fun k => ?_, fun m g hm => ?_, fun m g hmg => ?_, fun m val hval => ?_, fun m g hc => ?_⟩
  · refine commit_induction (P := fun x => x.isSome → (∃ m, k = sizeKey m) ∨
      ∃ m g, V m ∧ k = groupKeyOf m g) db (h.keys k) fun w hw hk _ => ?_
    obtain ⟨e, he, rfl | rfl⟩ := mem_addBatch.mp hw
    · exact Or.inr ⟨e.1, group, hV _ (List.of_mem_zip he).1, hk.symm⟩
    · exact Or.inl ⟨e.1, hk.symm⟩
  · rw [isSome_groupKey_add hlen, hholds, h.groups m g hm]
  · rw [hholds] at hmg
    by_cases hm : m ∈ mh
    -- its size is in the batch, with the group as the cached one
    · obtain ⟨n, -, hn⟩ := sizeKey_add_of_mem db group hlen hm
      refine ⟨hV m hm, ?_, by rw [hn]; rfl⟩
      rcases hmg with ⟨-, rfl⟩ | hmg
      · exact hgroup
      · exact (h.holds m g hmg).2.1
    · rw [sizeKey_add_of_not_mem hm]
      exact h.holds m g (hmg.resolve_left fun h => hm h.1)
  · by_cases hm : m ∈ mh
    · obtain ⟨n, -, hn⟩ := sizeKey_add_of_mem db group hlen hm
      rw [hn, Option.some.injEq] at hval
      exact Or.inr (by simp [← hval])
    · rw [sizeKey_add_of_not_mem hm] at hval
      exact h.length m val hval
  · rw [caches_add hlen] at hc
    rw [hholds]
    split_ifs at hc with hm
    · exact Or.inl ⟨hm, hc⟩
    · exact Or.inr (h.caches m g hc)

/-- A call of `DropGroup` under way does not mind another group. -/
theorem DropOk.add (h : DropOk V db d) (hother : d.group ≠ group)
    (hlen : mh.length ≤ sizes.length) : DropOk V (commit db (addBatch mh sizes group)) d := by
  refine { h with clears := fun m hm => ?_ }
  rcases h.clears m hm with htodo | hset | hcache
  · exact Or.inl htodo
  · exact Or.inr (Or.inl hset)
  · refine Or.inr (Or.inr fun hc => ?_)
    rw [caches_add hlen] at hc
    split_ifs at hc
    · exact hother hc
    · exact hcache hc

theorem DropWrite.of_dropWrites {w : Write Bytes Bytes} (hm : m ∈ mh)
    (hlen : ∀ val, db[sizeKey m]? = some val → val.length = 4 ∨ val.length = 12)
    (hw : w ∈ dropWrites db group m) : DropWrite group mh w := by
  rcases List.mem_cons.mp hw with rfl | hw
  · exact .delete hm
  · cases hval : db[sizeKey m]? with
    | none => simp [hval] at hw
    | some val =>
      simp only [hval] at hw
      split_ifs at hw
      · obtain rfl := List.mem_singleton.mp hw
        refine .set hm ?_
        rw [List.length_take]
        have := hlen val hval
        omega
      · exact absurd hw List.not_mem_nil

/-- A key `s:` that names the group is cleared. -/
theorem set_mem_dropWrites (hc : Caches db m group) :
    ∃ val, .set (sizeKey m) val ∈ dropWrites db group m := by
  obtain ⟨val, hval, hcached⟩ := Option.bind_eq_some_iff.mp hc
  rw [cachedGroup] at hcached
  split_ifs at hcached with hlt
  rw [Option.some.injEq] at hcached
  exact ⟨val.take 4, by simp [dropWrites, hval, hlt, hcached]⟩

/-- **Reading a key `s:`** for the batch of `DropGroup`. -/
theorem DropOk.read {todo : List Multihash} (hdb : DbOk V calls db) (h : DropOk V db d)
    (htodo : d.todo = m :: todo) : DropOk V db (d.read db m todo) := by
  have hm : m ∈ d.mh := h.todo m (by simp [htodo])
  refine ⟨h.group, h.valid, fun m' hm' => h.todo m' (by simp [htodo, show m' ∈ todo from hm']),
    fun w hw => ?_, fun m' hm' => ?_, fun m' hm' => ?_⟩
  · rcases List.mem_append.mp hw with hw | hw
    · exact h.writes w hw
    · exact .of_dropWrites hm (hdb.length m) hw
  · rcases h.deletes m' hm' with hmem | hmem
    · rw [htodo, List.mem_cons] at hmem
      rcases hmem with rfl | hmem
      · exact Or.inr (List.mem_append_right _ List.mem_cons_self)
      · exact Or.inl hmem
    · exact Or.inr (List.mem_append_left _ hmem)
  · rcases h.clears m' hm' with hmem | ⟨val, hmem⟩ | hcache
    · rw [htodo, List.mem_cons] at hmem
      rcases hmem with rfl | hmem
      · by_cases hc : Caches db m' d.group
        · obtain ⟨val, hval⟩ := set_mem_dropWrites hc
          exact Or.inr (Or.inl ⟨val, List.mem_append_right _ hval⟩)
        · exact Or.inr (Or.inr hc)
      · exact Or.inl hmem
    · exact Or.inr (Or.inl ⟨val, List.mem_append_left _ hmem⟩)
    · exact Or.inr (Or.inr hcache)

/-- **Committing the batch of `DropGroup`.** -/
theorem DbOk.drop (h : DbOk V calls db) (hd : DropOk V db d) (htodo : d.todo = []) :
    DbOk V (calls ++ [.drop d.mh d.group]) (commit db d.batch) := by
  have htouches : ∀ m g, Call.touches m g (.drop d.mh d.group) = true ↔ m ∈ d.mh ∧ g = d.group :=
    fun m g => by simp [Call.touches]
  -- the pairs that are dropped no longer hold
  have hholds : ∀ m g, Holds (calls ++ [.drop d.mh d.group]) m g ↔
      ¬ (m ∈ d.mh ∧ g = d.group) ∧ Holds calls m g := by
    intro m g
    by_cases hmg : m ∈ d.mh ∧ g = d.group
    · rw [holds_concat_of_touches ((htouches m g).mpr hmg)]
      simp [Call.isAdd, hmg]
    · rw [holds_concat_of_not_touches (Bool.eq_false_iff.mpr fun ht => hmg ((htouches m g).mp ht))]
      simp [hmg]
  -- a key `s:` keeps its value, or is cleared by a write of the batch
  have hsize : ∀ m, (commit db d.batch)[sizeKey m]? = db[sizeKey m]? ∧
      (∀ val, .set (sizeKey m) val ∉ d.batch) ∨
      m ∈ d.mh ∧ ∃ val, val.length = 4 ∧ (commit db d.batch)[sizeKey m]? = some val := by
    intro m
    by_cases hex : ∃ val, .set (sizeKey m) val ∈ d.batch
    · obtain ⟨val, hval⟩ := hex
      refine Or.inr (commit_of_mem (P := fun x => m ∈ d.mh ∧ ∃ val, val.length = 4 ∧ x = some val)
        db hval rfl fun w hw hk => ?_)
      cases hd.writes w hw with
      | delete hm => exact absurd hk.symm sizeKey_ne_groupKeyOf
      | set hm hlen =>
        obtain rfl := sizeKey_injective hk
        exact ⟨hm, _, hlen, rfl⟩
    · refine Or.inl ⟨getElem?_commit_of_forall_ne db fun w hw hk => ?_, fun val hval => hex ⟨val, hval⟩⟩
      cases hd.writes w hw with
      | delete hm => exact sizeKey_ne_groupKeyOf hk.symm
      | set hm hlen =>
        obtain rfl := sizeKey_injective hk
        exact hex ⟨_, hw⟩
  refine ⟨fun k => ?_, fun m g hm => ?_, fun m g hmg => ?_, fun m val hval => ?_, fun m g hc => ?_⟩
  · refine commit_induction (P := fun x => x.isSome → (∃ m, k = sizeKey m) ∨
      ∃ m g, V m ∧ k = groupKeyOf m g) db (h.keys k) fun w hw hk hsome => ?_
    cases hd.writes w hw with
    | delete hm => exact absurd hsome (by simp [Write.value])
    | set hm hlen => exact Or.inl ⟨_, hk.symm⟩
  · rw [hholds, ← h.groups m g hm]
    by_cases hmg : m ∈ d.mh ∧ g = d.group
    · obtain ⟨hmem, rfl⟩ := hmg
      have hdel : .delete (groupKeyOf m d.group) ∈ d.batch :=
        (hd.deletes m hmem).resolve_left (by simp [htodo])
      -- its key is deleted, whatever else the batch does
      have hnone : (commit db d.batch)[groupKeyOf m d.group]? = none := by
        refine commit_of_mem (P := fun x => x = none) db hdel rfl fun w hw hk => ?_
        cases hd.writes w hw with
        | delete => rfl
        | set => exact absurd hk sizeKey_ne_groupKeyOf
      rw [hnone]
      simp [hmem]
    · rw [getElem?_commit_of_forall_ne]
      · simp [hmg]
      · intro w hw hk
        cases hd.writes w hw with
        | delete hmem =>
          obtain ⟨rfl, rfl⟩ := groupKeyOf_injective hk
          exact hmg ⟨hmem, rfl⟩
        | set => exact sizeKey_ne_groupKeyOf hk
  · obtain ⟨hm, hg, hsome⟩ := h.holds m g ((hholds m g).mp hmg).2
    refine ⟨hm, hg, ?_⟩
    rcases hsize m with ⟨heq, -⟩ | ⟨-, val, -, heq⟩
    · rwa [heq]
    · rw [heq]
      rfl
  · rcases hsize m with ⟨heq, -⟩ | ⟨-, val', hlen, heq⟩
    · exact h.length m val (heq ▸ hval)
    · rw [heq, Option.some.injEq] at hval
      exact Or.inl (hval ▸ hlen)
  · rw [Caches] at hc
    rcases hsize m with ⟨heq, hnot⟩ | ⟨-, val, hlen, heq⟩
    · rw [heq] at hc
      refine (hholds m g).mpr ⟨?_, h.caches m g hc⟩
      rintro ⟨hm, rfl⟩
      -- a cached group that was dropped is cleared, so this is another
      rcases hd.clears m hm with hmem | ⟨val, hval⟩ | hcache
      · simp [htodo] at hmem
      · exact hnot val hval
      · exact hcache hc
    · rw [heq, Option.bind_some, cachedGroup_of_length hlen] at hc
      exact absurd hc (by simp)

/-! ## Every reachable index -/

theorem dbOk_empty : DbOk V [] ∅ := by
  refine ⟨fun k hk => ?_, fun m g _ => ?_, fun m g h => absurd h not_holds_nil,
    fun m val hval => ?_, fun m g hc => ?_⟩
  · simp at hk
  · simp [not_holds_nil]
  · simp at hval
  · simp [Caches] at hc

/-- **A step keeps the invariant.** -/
theorem Step.ok {t t' : Top} (hstep : Step V t t') (h : t.Ok V) : t'.Ok V := by
  cases hstep with
  | add hV hgroup hother hadd =>
    simp only [addGroup] at hadd
    split_ifs at hadd with hlen
    obtain rfl := Option.some.inj hadd
    have hlen := Nat.not_lt.mp hlen
    exact ⟨h.db.add hV hgroup hlen, fun d hd => (h.dropping d hd).add (hother d hd) hlen⟩
  | lock hV hgroup hfree =>
    refine ⟨h.db, fun d hd => ?_⟩
    obtain rfl := Option.some.inj hd
    exact ⟨hgroup, hV, fun _ => id, by simp, fun m hm => Or.inl hm, fun m hm => Or.inl hm⟩
  | read hd htodo =>
    refine ⟨h.db, fun d' hd' => ?_⟩
    obtain rfl := Option.some.inj hd'
    exact (h.dropping _ hd).read h.db htodo
  | commit hd htodo => exact ⟨h.db.drop (h.dropping _ hd) htodo, fun d hd => by simp at hd⟩

theorem Reachable.ok {t : Top} (h : Reachable V t) : t.Ok V := by
  induction h with
  | refl => exact ⟨dbOk_empty, fun d hd => by simp [Top.init] at hd⟩
  | tail _ hstep ih => exact hstep.ok ih

/-! ## `GetGroups` -/

/-- The groups that `GetGroups` reports of a multihash, in their order. -/
def listed (db : Db) (m : Multihash) : List GroupKey :=
  match db[sizeKey m]? with
  | none => []
  | some val => (cachedGroup val).toList ++ iterGroups db m

variable {σ ε : Type}

/-- **One multihash of `GetGroups`** is a loop over the groups listed. -/
theorem getGroupsAt_eq (db : Db) (cb : GroupsCb σ ε) (idx : ℕ) (m : Multihash) (s : σ) :
    getGroupsAt db cb idx m s = scanGroups cb idx (listed db m) s := by
  rw [getGroupsAt, listed]
  cases db[sizeKey m]? with
  | none => rfl
  | some val =>
    simp only [cachedGroup]
    by_cases hlt : 4 < val.length
    · rw [if_pos hlt, if_pos hlt]
      rfl
    · rw [if_neg hlt, if_neg hlt]
      rfl

/-- The callback that always asks for more, and keeps what it was told. -/
def collect : GroupsCb (List (ℕ × GroupKey)) ε := fun idx g s => .ok (s ++ [(idx, g)], true)

theorem scanGroups_collect (idx : ℕ) (gs : List GroupKey) (s : List (ℕ × GroupKey)) :
    scanGroups (collect : GroupsCb _ ε) idx gs s = .ok (s ++ gs.map (Prod.mk idx)) := by
  induction gs generalizing s with
  | nil => simp [scanGroups]
  | cons g gs ih =>
    rw [scanGroups, collect]
    simp [ih]

theorem getGroupsFrom_collect (db : Db) (idx : ℕ) (mh : List Multihash)
    (s : List (ℕ × GroupKey)) :
    ∃ out, getGroupsFrom db (collect : GroupsCb _ ε) idx mh s = .ok (s ++ out) ∧
      ∀ i g, (i, g) ∈ out ↔ ∃ j m, i = idx + j ∧ mh[j]? = some m ∧ g ∈ listed db m := by
  induction mh generalizing idx s with
  | nil => exact ⟨[], by simp [getGroupsFrom], by simp⟩
  | cons m mh ih =>
    obtain ⟨out, hout, hmem⟩ := ih (idx + 1) (s ++ (listed db m).map (Prod.mk idx))
    refine ⟨(listed db m).map (Prod.mk idx) ++ out, ?_, fun i g => ?_⟩
    · rw [getGroupsFrom, getGroupsAt_eq, scanGroups_collect]
      rw [← List.append_assoc]
      exact hout
    · rw [List.mem_append, hmem, List.mem_map]
      constructor
      · rintro (⟨g', hg', heq⟩ | ⟨j, m', rfl, hj, hg⟩)
        · obtain ⟨rfl, rfl⟩ := Prod.mk.inj heq
          exact ⟨0, m, rfl, rfl, hg'⟩
        · exact ⟨j + 1, m', by omega, hj, hg⟩
      · rintro ⟨_ | j, m', rfl, hj, hg⟩
        · rw [List.getElem?_cons_zero, Option.some.injEq] at hj
          subst hj
          exact Or.inl ⟨g, hg, rfl⟩
        · exact Or.inr ⟨j, m', by omega, hj, hg⟩

theorem mem_keys {k : Bytes} : k ∈ db.keys ↔ db[k]?.isSome := by
  rw [Std.TreeMap.mem_keys, Std.TreeMap.mem_iff_isSome_getElem?]

/-- The last bytes of a key `i:` are its group. -/
theorem uint64_groupKeyOf (m : Multihash) (g : GroupKey) :
    uint64 ((groupKeyOf m g).drop ((groupKeyOf m g).length - 8)) = g := by
  have : (groupKeyOf m g).length - 8 = (groupPrefix ++ m).length := by
    simp [groupKeyOf, groupPrefix]
  rw [this, groupKeyOf, List.drop_left, uint64_groupBytes]

/-- The key `i:` of a pair is within the bounds of the scan. -/
theorem mem_iterGroups_of_isSome (h : db[groupKeyOf m g]?.isSome) (hg : NonNegative g) :
    g ∈ iterGroups db m := by
  refine List.mem_map.mpr ⟨groupKeyOf m g, List.mem_filter.mpr ⟨mem_keys.mpr h,
    decide_eq_true ⟨?_, ?_⟩⟩, uint64_groupKeyOf m g⟩
  · exact not_append_lt _ _
  · exact append_lt_append_iff.mpr (groupBytes_lt hg)

/-- The keys of a scan are keys `i:` of its multihash. -/
theorem groupKeyOf_of_scanned (hself : SelfDelimiting V) (h : DbOk V calls db) (hm : V m)
    {k : Bytes} (hk : k ∈ db.keys)
    (hrange : ¬ k < groupPrefix ++ m ∧ k < groupPrefix ++ m ++ List.replicate 8 0xff) :
    ∃ g, k = groupKeyOf m g := by
  have hpre := isPrefix_of_range hrange.1 hrange.2
  rcases h.keys k (mem_keys.mp hk) with ⟨m', rfl⟩ | ⟨m', g', hm', rfl⟩
  · obtain ⟨rest, hrest⟩ := hpre
    simp [sizeKey, sizePrefix, groupPrefix] at hrest
  · -- the multihash of the key begins alike, so it is the one asked for
    have hpre' : m <+: m' ++ groupBytes g' := by
      rwa [groupKeyOf, List.append_assoc, List.prefix_append_right_inj] at hpre
    rcases List.prefix_or_prefix_of_prefix hpre' (List.prefix_append m' _) with hle | hle
    · exact ⟨g', by rw [hself m m' hm hm' hle]⟩
    · exact ⟨g', by rw [hself m' m hm' hm hle]⟩

/-- **The scan** of a multihash sees the pairs of that multihash. -/
theorem mem_iterGroups (hself : SelfDelimiting V) (h : DbOk V calls db) (hm : V m) :
    g ∈ iterGroups db m ↔ Holds calls m g := by
  rw [← h.groups m g hm]
  constructor
  · intro hmem
    rw [iterGroups, List.mem_map] at hmem
    obtain ⟨k, hk, rfl⟩ := hmem
    obtain ⟨hk, hrange⟩ := List.mem_filter.mp hk
    obtain ⟨g', rfl⟩ := groupKeyOf_of_scanned hself h hm hk (of_decide_eq_true hrange)
    rw [uint64_groupKeyOf]
    exact mem_keys.mp hk
  · intro hsome
    exact mem_iterGroups_of_isSome hsome (h.holds m g ((h.groups m g hm).mp hsome)).2.1

/-- The key `s:` names only groups that the scan sees as well. -/
theorem mem_listed (hself : SelfDelimiting V) (h : DbOk V calls db) (hm : V m) :
    g ∈ listed db m ↔ Holds calls m g := by
  have hscan := mem_iterGroups (g := g) hself h hm
  rw [listed]
  cases hval : db[sizeKey m]? with
  | none =>
    refine iff_of_false List.not_mem_nil fun hh => ?_
    have := (h.holds m g hh).2.2
    rw [hval] at this
    exact absurd this (by simp)
  | some val =>
    simp only [List.mem_append, Option.mem_toList, hscan]
    refine or_iff_right_of_imp fun hc => h.caches m g ?_
    rw [Caches, hval, Option.bind_some]
    exact hc

end

/-- **The top index is a set of pairs**: behind any steps of `AddGroup` and
`DropGroup`, `GetGroups` reports exactly the groups that hold what is
asked for. -/
theorem getGroups_eq_holds {V : Multihash → Prop} (hself : SelfDelimiting V) {t : Top}
    (h : Reachable V t) {mh : List Multihash} (hmh : ∀ m ∈ mh, V m) {ε : Type} :
    ∃ out, getGroups t.db mh (collect : GroupsCb _ ε) [] = .ok out ∧
      ∀ i g, (i, g) ∈ out ↔ ∃ m, mh[i]? = some m ∧ Holds t.calls m g := by
  obtain ⟨out, hout, hmem⟩ := getGroupsFrom_collect (ε := ε) t.db 0 mh []
  refine ⟨out, hout, fun i g => ?_⟩
  rw [hmem]
  constructor
  · rintro ⟨j, m, rfl, hj, hg⟩
    rw [Nat.zero_add]
    exact ⟨m, hj, (mem_listed hself h.ok.db (hmh m (List.mem_of_getElem? hj))).mp hg⟩
  · rintro ⟨m, hi, hh⟩
    exact ⟨i, m, by omega, hi, (mem_listed hself h.ok.db (hmh m (List.mem_of_getElem? hi))).mpr hh⟩

theorem validMultihash_zero : Carlog.ValidMultihash [0, 0] :=
  ⟨0, [], by norm_num, by simp, by decide⟩

/-- One block, that one group has. -/
theorem getGroups_eq_holds_one : ∃ out,
    getGroups (commit ∅ (addBatch [[0, 0]] [5] 1)) [[0, 0]] (collect : GroupsCb _ Empty) [] =
      .ok out ∧ ∀ i g, (i, g) ∈ out ↔
        ∃ m, [[0, 0]][i]? = some m ∧ Holds [.add [[0, 0]] [5] 1] m g := by
  have hm : ∀ m ∈ [[0, 0]], Carlog.ValidMultihash m :=
    List.forall_mem_singleton.mpr validMultihash_zero
  exact getGroups_eq_holds selfDelimiting_validMultihash
    (.single (.add (t := .init) hm (by decide) (fun d hd => absurd hd (by simp [Top.init])) rfl)) hm

end PebbleIndex

end Rbstor

end Ribs
