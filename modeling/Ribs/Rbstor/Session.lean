import Ribs.Rbstor.Group
import Mathlib.Data.List.Perm.Basic
/-!
# Rbstor — reading through a session

`View` asks the top index for a group of each multihash, takes the first
one, regroups the requests by group, and visits the groups in the order
in which a map is ranged over. A local group is asked for its blocks; at
an offloaded one the external provider is asked, and its answer is
returned.
-/

namespace Ribs

open Common

namespace Rbstor

namespace Session

/-- The data of the blocks of a list, each with its index. -/
def answers (held : Multihash → Option Bytes) (c : List Multihash) : List (ℕ × Option Bytes) :=
  c.zipIdx.map fun e => (e.2, held e.1)

/-- **The log of a group**, as a session reads it: `CarLog.View` calls its
callback with what the log holds, for index after index, to the end when
it returns nil. -/
structure GroupLog where
  held : Multihash → Option Bytes
  view : List Multihash → List (ℕ × Option Bytes) × Option Err
  view_prefix : ∀ c, (view c).1 <+: answers held c
  view_nil : ∀ c, (view c).2 = none → (view c).1 = answers held c
  /-- `ErrOffloaded` is not an error of the log. -/
  view_ne : ∀ c, (view c).2 ≠ some .errOffloaded

structure Group where
  offloaded : Bool
  jb : GroupLog

/-- **The external provider**: when `FetchBlocks` returns nil it has called
back once for every index, with the block. -/
structure Provider where
  stored : GroupKey → Multihash → Option Bytes
  fetchBlocks : GroupKey → List Multihash → List (ℕ × Bytes) × Option Err
  fetch_nil : ∀ g c, (fetchBlocks g c).2 = none →
    ((fetchBlocks g c).1.map fun e => (e.1, some e.2)).Perm (answers (stored g) c)

/-- What a session reads: the top index, the groups, as `withReadableGroup`
opens them, the provider, and the order in which a map is ranged over. -/
structure Store where
  index : Db
  group : GroupKey → Except Err Group
  external : Option Provider
  range : List (GroupKey × List ℕ) → List (GroupKey × List ℕ)
  range_perm : ∀ l, (range l).Perm l

/-- `Group.View`. -/
def Group.view (g : Group) (c : List Multihash) : List (ℕ × Option Bytes) × Option Err :=
  if g.offloaded then ([], some .errOffloaded) else g.jb.view c

/-! ## Regrouping -/

/-- What `View` keeps while it asks the top index: the indices done, and
the indices of each group. -/
structure ByGroup where
  done : List ℕ
  byGroup : List (GroupKey × List ℕ)

/-- `byGroup[group] = append(byGroup[group], cidx)`. -/
def appendTo (g : GroupKey) (cidx : ℕ) : List (GroupKey × List ℕ) → List (GroupKey × List ℕ)
  | [] => [(g, [cidx])]
  | e :: es => if e.1 = g then (g, e.2 ++ [cidx]) :: es else e :: appendTo g cidx es

/-- The callback of `View` for the top index: the first group of an index
is taken. -/
def regroup : PebbleIndex.GroupsCb ByGroup Err := fun cidx group s =>
  if cidx ∈ s.done then .ok (s, false)
  else
    -- the index is done with its first group, whatever that is
    let s := { s with done := cidx :: s.done }
    if group = undefGroupKey then .ok (s, true)
    else .ok ({ s with byGroup := appendTo group cidx s.byGroup }, false)

/-! ## Visiting the groups -/

/-- `toGet`. -/
def toGet (c : List Multihash) (cidxs : List ℕ) : List Multihash := cidxs.map fun i => c.getD i []

/-- The calls of `View`'s callback for the blocks that a group found. -/
def found (cidxs : List ℕ) (calls : List (ℕ × Option Bytes)) : List (ℕ × Bytes) :=
  calls.filterMap fun e => e.2.map fun data => (cidxs.getD e.1 0, data)

/-- The loop of `View` over the groups: the calls of its callback, and its
result. -/
def viewGroups (r : Store) (c : List Multihash) :
    List (GroupKey × List ℕ) → List (ℕ × Bytes) × Option Err
  | [] => ([], none)
  | (g, cidxs) :: rest =>
    match r.group g with
    | .error e => ([], some (.wrap "with readable group/view" e))
    | .ok grp =>
      match grp.view (toGet c cidxs) with
      | (calls, none) =>
        let (more, e) := viewGroups r c rest
        (found cidxs calls ++ more, e)
      -- an offloaded group ends the loop with what the provider returns
      | (calls, some .errOffloaded) =>
        match r.external with
        | none => (found cidxs calls, some (.noExternal g))
        | some ext =>
          let (fetched, e) := ext.fetchBlocks g (toGet c cidxs)
          (found cidxs calls ++ fetched.map fun e => (cidxs.getD e.1 0, e.2), e)
      | (calls, some e) => (found cidxs calls, some (.wrap "with readable group/view" e))

/-- `byGroup`, as the top index has it. -/
def regrouped (r : Store) (c : List Multihash) : Except Err ByGroup :=
  PebbleIndex.getGroups r.index c regroup ⟨[], []⟩

/-- `View`. -/
def view (r : Store) (c : List Multihash) : List (ℕ × Bytes) × Option Err :=
  match regrouped r c with
  | .error e => ([], some e)
  | .ok s => viewGroups r c (r.range s.byGroup)

end Session

end Rbstor

end Ribs
