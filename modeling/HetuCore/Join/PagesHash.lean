import HetuCore.Foundation.ChainedIndex
import HetuCore.Foundation.Machine
import HetuCore.Hash.HashCommon

/-! The index of the build rows of a join: `DefaultPagesHash` and `BigintPagesHash`, both with the
links of `ArrayPositionLinks`. A table has `2 ^ bits` slots; the array `key` of the heads and the
array of the links hold `none` for `-1`. -/
namespace HetuCore.Join
open Foundation Foundation.OpenAddressing Foundation.ChainedIndex Hash

inductive Failure
  | arrayIndexOutOfBounds
  /-- A loop that never ends. -/
  | diverges
deriving DecidableEq

section Lookup
variable {slots size : Nat} (heads : Fin slots → Option (Fin size))

/-- The probe loop of `getAddressIndex`, from a slot on. -/
def search (matching : Fin size → Bool) (start : Fin slots) : Except Failure (Option (Fin size)) :=
  match probe heads matching slots start with
  | none => .error .diverges
  | some pos => .ok (heads pos)

variable {count : Nat} (hashPositions : Fin count → Fin slots) (matching : Fin count → Fin size → Bool)

/-- Splits the found keys into those that were the proper ones, which go to the result, and
the hash collisions. -/
def verify (result : Fin count → Option (Fin size)) : List (Fin count) → (Fin count → Option (Fin size)) × List (Fin count)
  | [] => (result,[])
  | index :: found =>
    match heads (hashPositions index) with
    | none => verify result found
    | some key =>
      if matching index key then verify (Function.update result index (some key)) found
      else
        let (result,remaining) := verify result found
        (result,index :: remaining)

/-- The positions that are left are searched for one after the other, from the slot after the
one that has been checked. -/
def searchRemaining (result : Fin count → Option (Fin size)) :
    List (Fin count) → Except Failure (Fin count → Option (Fin size))
  | [] => .ok result
  | index :: remaining => do
    match ← search heads (matching index) (succ (hashPositions index)) with
    | none => searchRemaining result remaining
    | some key => searchRemaining (Function.update result index (some key)) remaining

/-- The batch form of `getAddressIndex`, once the slots of the positions are known. -/
def searchAll : Except Failure (Fin count → Option (Fin size)) :=
  let found := (List.finRange count).filter fun index => (heads (hashPositions index)).isSome
  let (result,remaining) := verify heads hashPositions matching (fun _ => none) found
  searchRemaining heads hashPositions matching result remaining

end Lookup

/-- `CACHE_SIZE.toBytes() / Integer.SIZE`, if there are that many addresses. -/
def positionsInStep (size : Nat) : Nat := min (size + 1) (131072 / 32)

def stepPositions (size step : Nat) : List (Fin size) :=
  ((List.finRange size).drop (step * positionsInStep size)).take (positionsInStep size)

/-- The steps with `step * positionsInStep <= addresses.size()`. -/
def steps (size : Nat) : List Nat := List.range (size / positionsInStep size + 1)

/-- What the compiled strategy of a join says of its rows. The probe rows are those without a
NULL among their join keys. -/
structure PagesHashStrategy (Build Probe : Type) where
  hashPosition : Build → BitVec 64
  hashRow : Probe → BitVec 64
  isPositionNull : Build → Bool
  positionEqualsPositionIgnoreNulls : Build → Build → Bool
  positionEqualsRowIgnoreNulls : Build → Probe → Bool

structure DefaultPagesHash (bits size : Nat) extends Index (2 ^ bits) size where
  positionToHashes : Fin size → BitVec 8

namespace DefaultPagesHash
variable {Build Probe : Type} {bits size : Nat} (strategy : PagesHashStrategy Build Probe) (addresses : Fin size → Build)

/-- Extracts the hashes of the positions of a step to the native array. -/
def readHashes (hash : DefaultPagesHash bits size) (positions : List (Fin size)) : DefaultPagesHash bits size :=
  { hash with positionToHashes := positions.foldl (fun hashes position =>
      Function.update hashes position (tag (strategy.hashPosition (addresses position)))) hash.positionToHashes }

/-- Puts a position into the slot of its key, linked to the position that was there. -/
def indexPosition (hash : DefaultPagesHash bits size) (position : Fin size) : Except Failure (DefaultPagesHash bits size) :=
  let row := addresses position
  if strategy.isPositionNull row then .ok hash
  else
    let rawHash := strategy.hashPosition row
    match probe hash.heads (fun currentKey => tag rawHash == hash.positionToHashes currentKey &&
        strategy.positionEqualsPositionIgnoreNulls (addresses currentKey) row) (2 ^ bits) (getHashPosition bits rawHash) with
    | none => .error .diverges
    | some pos => .ok { hash with toIndex := hash.toIndex.put pos position }

def indexStep (hash : DefaultPagesHash bits size) (step : Nat) : Except Failure (DefaultPagesHash bits size) :=
  (stepPositions size step).foldlM (indexPosition strategy addresses) (readHashes strategy addresses hash (stepPositions size step))

/-- The constructor, for a table of `2 ^ bits` slots. -/
def create (bits : Nat) : Except Failure (DefaultPagesHash bits size) :=
  (steps size).foldlM (indexStep strategy addresses)
    { heads := fun _ => none, links := fun _ => none, positionToHashes := fun _ => 0 }

variable (hash : DefaultPagesHash bits size)

def positionEqualsCurrentRowIgnoreNulls (row : Probe) (rawHash : BitVec 64) (leftPosition : Fin size) : Bool :=
  hash.positionToHashes leftPosition == tag rawHash && strategy.positionEqualsRowIgnoreNulls (addresses leftPosition) row

/-- `getAddressIndex(rightPosition, hashChannelsPage, rawHash)`. -/
def getAddressIndexOfHash (row : Probe) (rawHash : BitVec 64) : Except Failure (Option (Fin size)) :=
  search hash.heads (hash.positionEqualsCurrentRowIgnoreNulls strategy addresses row rawHash) (getHashPosition bits rawHash)

def getAddressIndex (row : Probe) : Except Failure (Option (Fin size)) :=
  hash.getAddressIndexOfHash strategy addresses row (strategy.hashRow row)

variable {pageSize count : Nat} (hashChannelsPage : Fin pageSize → Probe) (positions : Fin count → Fin pageSize)

def readRawHash (rawHashes : List (BitVec 64)) (position : Fin pageSize) : Except Failure (BitVec 64) :=
  match rawHashes[(position : Nat)]? with
  | none => .error .arrayIndexOutOfBounds
  | some rawHash => .ok rawHash

/-- `getAddressIndex(positions, hashChannelsPage, rawHashes)`. -/
def getAddressIndexesOfHashes (rawHashes : List (BitVec 64)) : Except Failure (Fin count → Option (Fin size)) := do
  let hashes ← forEach fun i => readRawHash rawHashes (positions i)
  searchAll hash.heads (fun i => getHashPosition bits (hashes i)) fun i =>
    hash.positionEqualsCurrentRowIgnoreNulls strategy addresses (hashChannelsPage (positions i)) (hashes i)

def writeRowHash (hashes : List (BitVec 64)) (position : Fin pageSize) : Except Failure (List (BitVec 64)) :=
  if (position : Nat) < hashes.length then .ok (hashes.set position (strategy.hashRow (hashChannelsPage position)))
  else .error .arrayIndexOutOfBounds

/-- The array of hashes has room for the last of the positions. -/
def readRowHashes (positions : List (Fin pageSize)) : Except Failure (List (BitVec 64)) :=
  match positions.getLast? with
  | none => .error .arrayIndexOutOfBounds
  | some last => positions.foldlM (writeRowHash strategy hashChannelsPage) (List.replicate (last + 1) 0)

/-- `getAddressIndex(positions, hashChannelsPage)`. -/
def getAddressIndexes : Except Failure (Fin count → Option (Fin size)) := do
  let hashes ← readRowHashes strategy hashChannelsPage (List.ofFn positions)
  hash.getAddressIndexesOfHashes strategy addresses hashChannelsPage positions hashes

end DefaultPagesHash

/-- The index of a join with one key of type bigint. -/
structure BigintPagesHash (bits size : Nat) extends Index (2 ^ bits) size where
  values : Fin size → BitVec 64

namespace BigintPagesHash
variable {bits size : Nat} (joinChannel : Fin size → Option (BitVec 64))

def indexPosition (hash : BigintPagesHash bits size) (addressIndex : Fin size) : Except Failure (BigintPagesHash bits size) :=
  match joinChannel addressIndex with
  | none => .ok hash
  | some value =>
    match probe hash.heads (fun currentKey => value == hash.values currentKey) (2 ^ bits) (getHashPosition bits value) with
    | none => .error .diverges
    | some pos => .ok {
        toIndex := hash.toIndex.put pos addressIndex
        values := Function.update hash.values addressIndex value }

def indexStep (hash : BigintPagesHash bits size) (step : Nat) : Except Failure (BigintPagesHash bits size) :=
  (stepPositions size step).foldlM (indexPosition joinChannel) hash

def create (bits : Nat) : Except Failure (BigintPagesHash bits size) :=
  (steps size).foldlM (indexStep joinChannel) { heads := fun _ => none, links := fun _ => none, values := fun _ => 0 }

variable (hash : BigintPagesHash bits size)

def getAddressIndex (value : BitVec 64) : Except Failure (Option (Fin size)) :=
  search hash.heads (fun key => value == hash.values key) (getHashPosition bits value)

def getAddressIndexes {pageSize count : Nat} (hashChannelsPage : Fin pageSize → BitVec 64)
    (positions : Fin count → Fin pageSize) : Except Failure (Fin count → Option (Fin size)) :=
  let incomingValues := fun i => hashChannelsPage (positions i)
  searchAll hash.heads (fun i => getHashPosition bits (incomingValues i)) fun i key => hash.values key == incomingValues i

end BigintPagesHash
end HetuCore.Join
