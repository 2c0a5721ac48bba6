import Ribs.Common.Endian
import Ribs.Common.Kv
import Ribs.Bsst.Format
import Std.Data.TreeMap.Basic
/-!
# Rbstor — the top index

The top index tells of a multihash the groups that hold it. A key `s:`
has the size of the block and, in the common case, the group it was last
added to; a key `i:` stands for one pair of a multihash and a group. Both
are written in batches.
-/

namespace Ribs

open Common

namespace Rbstor

export Bsst (I64 Multihash)

/-- `iface.GroupKey`, an `int64`, as its bits. -/
abbrev GroupKey := I64

instance instLawfulBEqGroupKey : LawfulBEq GroupKey := inferInstance

/-- `iface.UndefGroupKey`. -/
def undefGroupKey : GroupKey := -1

/-- `int32`, as its bits. -/
abbrev I32 := BitVec 32

/-- The Pebble database. -/
abbrev Db := Std.TreeMap Bytes Bytes

/-- `"s:"`. -/
def sizePrefix : Bytes := [0x73, 0x3a]

/-- `"i:"`. -/
def groupPrefix : Bytes := [0x69, 0x3a]

/-- Eight bytes, big endian. -/
def groupBytes (g : GroupKey) : Bytes := (leBytes 8 g.toNat).reverse

/-- `binary.BigEndian.Uint64`. -/
def uint64 (bs : Bytes) : GroupKey := BitVec.ofNat 64 (beNat (bs.take 8))

/-- Four bytes, big endian. -/
def sizeBytes (n : I32) : Bytes := (leBytes 4 n.toNat).reverse

/-- `int32(binary.BigEndian.Uint32)`. -/
def uint32 (bs : Bytes) : I32 := BitVec.ofNat 32 (beNat (bs.take 4))

def sizeKey (m : Multihash) : Bytes := sizePrefix ++ m

def groupKeyOf (m : Multihash) (g : GroupKey) : Bytes := groupPrefix ++ m ++ groupBytes g

namespace PebbleIndex

/-! ## Reading -/

/-- The callback of `GetGroups`, with what it keeps from call to call: it
says whether it asks for more groups. -/
abbrev GroupsCb (σ ε : Type) := ℕ → GroupKey → σ → Except ε (σ × Bool)

variable {σ ε : Type}

/-- The groups of the keys `i:` of a multihash, by the bounds of the scan. -/
def iterGroups (db : Db) (m : Multihash) : List GroupKey :=
  let keyPrefix := groupPrefix ++ m
  let upperBound := groupPrefix ++ m ++ List.replicate 8 0xff
  (db.keys.filter fun k => ¬ k < keyPrefix ∧ k < upperBound).map fun k =>
    uint64 (k.drop (k.length - 8))

/-- The loop over the scan. -/
def scanGroups (cb : GroupsCb σ ε) (idx : ℕ) : List GroupKey → σ → Except ε σ
  | [], s => .ok s
  | g :: gs, s =>
    match cb idx g s with
    | .error e => .error e
    -- `false` stops the scan of this multihash
    | .ok (s, more) => if more then scanGroups cb idx gs s else .ok s

/-- One multihash of `GetGroups`. -/
def getGroupsAt (db : Db) (cb : GroupsCb σ ε) (idx : ℕ) (m : Multihash) (s : σ) : Except ε σ :=
  match db[sizeKey m]? with
  | none => .ok s
  | some val =>
    -- the group in the key `s:` comes first
    if 4 < val.length then
      match cb idx (uint64 (val.drop 4)) s with
      | .error e => .error e
      | .ok (s, more) => if more then scanGroups cb idx (iterGroups db m) s else .ok s
    else scanGroups cb idx (iterGroups db m) s

/-- The loop of `GetGroups`, from index `idx` on. -/
def getGroupsFrom (db : Db) (cb : GroupsCb σ ε) : ℕ → List Multihash → σ → Except ε σ
  | _, [], s => .ok s
  | idx, m :: ms, s =>
    match getGroupsAt db cb idx m s with
    | .error e => .error e
    | .ok s => getGroupsFrom db cb (idx + 1) ms s

def getGroups (db : Db) (mh : List Multihash) (cb : GroupsCb σ ε) (s : σ) : Except ε σ :=
  getGroupsFrom db cb 0 mh s

/-- `-1` for what is not there. -/
def getSizes (db : Db) (mh : List Multihash) : List I32 :=
  mh.map fun m =>
    match db[sizeKey m]? with
    | none => -1
    | some val => uint32 val

/-! ## Writing -/

/-- What `AddGroup` puts into its batch for one multihash. -/
def addWrites (group : GroupKey) (e : Multihash × I32) : List (Write Bytes Bytes) :=
  [.set (groupKeyOf e.1 group) [], .set (sizeKey e.1) (sizeBytes e.2 ++ groupBytes group)]

/-- The batch of `AddGroup`. -/
def addBatch (mh : List Multihash) (sizes : List I32) (group : GroupKey) :
    List (Write Bytes Bytes) := (mh.zip sizes).flatMap (addWrites group)

/-- `AddGroup`; it panics when a size is missing. -/
def addGroup (db : Db) (mh : List Multihash) (sizes : List I32) (group : GroupKey) : Option Db :=
  if sizes.length < mh.length then none else some (commit db (addBatch mh sizes group))

/-- What `DropGroup` puts into its batch for one multihash: the key `i:`
goes, and the group is taken out of the key `s:` when it is the one
there. -/
def dropWrites (db : Db) (group : GroupKey) (m : Multihash) : List (Write Bytes Bytes) :=
  .delete (groupKeyOf m group) ::
    match db[sizeKey m]? with
    | none => []
    | some val =>
      if 4 < val.length ∧ uint64 (val.drop 4) = group then [.set (sizeKey m) (val.take 4)] else []

/-- `DropGroup`, with nothing in between. -/
def dropGroup (db : Db) (mh : List Multihash) (group : GroupKey) : Db :=
  commit db (mh.flatMap (dropWrites db group))

end PebbleIndex

end Rbstor

end Ribs
