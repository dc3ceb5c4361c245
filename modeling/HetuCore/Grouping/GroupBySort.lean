import HetuCore.Grouping.GroupByHash

/-! `MultiChannelGroupBySort` and `BigintGroupBySort`: group ids for rows that come sorted. A row is
compared with the rows before it by remembered hashes, or by the remembered value. -/
namespace HetuCore.Grouping

/-- The objects that `rawPrevNullBitSet` can be: the empty set of the constructor, or the set
`localNullBitset` itself. -/
inductive NullBitSet
  | empty
  | localNullBitset
deriving DecidableEq

def NullBitSet.bits (localNullBitset : List Bool) : NullBitSet → List Bool
  | empty => []
  | .localNullBitset => localNullBitset

def intersects (left right : List Bool) : Bool := (left.zip right).any fun bits => bits.1 && bits.2

/-- `Integer.MAX_VALUE` in the starting ranges is `none`. -/
structure MultiChannelGroupBySort (V : Type) where
  completedPages : List (List (StoredRow V))
  currentPage : List (StoredRow V)
  rawPrevHash : BitVec 64
  nextSortBasedGroupId : Nat
  maxGroupId : List Nat
  nextGroupIdStartingRange : Option Nat
  currentGroupIdStartingRange : Option Nat
  newGroupId : Nat
  sliceIndex : Nat
  rawPrevNullHash : BitVec 64
  rawPrevNullBitSet : NullBitSet

namespace MultiChannelGroupBySort
variable {V : Type} (valueHash : Nat → V → BitVec 64) (hash : Key V → BitVec 64) (precomputedHashChannel : Bool)
  (isFull : List (StoredRow V) → Bool) (s : MultiChannelGroupBySort V)

def create : MultiChannelGroupBySort V :=
  { completedPages := [], currentPage := [], rawPrevHash := -1, nextSortBasedGroupId := 0, maxGroupId := [],
    nextGroupIdStartingRange := none, currentGroupIdStartingRange := none, newGroupId := 0, sliceIndex := 0,
    rawPrevNullHash := -1, rawPrevNullBitSet := .empty }

def channelBuilders : List (List (StoredRow V)) := s.completedPages ++ [s.currentPage]

def read (blockIndex position : Nat) : Option (StoredRow V) := s.channelBuilders[blockIndex]?.bind (·[position]?)

def getNullPosition (key : Key V) : List Bool := key.map Option.isNone

/-- `getHashValueForNullAndZeroPosition`: NULL has the hash 1 here. -/
def nullHash (key : Key V) : BitVec 64 :=
  key.zipIdx.foldl (fun result value => 31 * result + (value.1.map (valueHash value.2)).getD 1) 0

/-- The last id of the page is kept as the next range, or behind those that are kept. -/
def startNewPage : MultiChannelGroupBySort V :=
  { s with
    completedPages := s.completedPages ++ [s.currentPage]
    currentPage := []
    nextGroupIdStartingRange := some (s.nextGroupIdStartingRange.getD s.nextSortBasedGroupId)
    maxGroupId := if s.nextGroupIdStartingRange.isNone then s.maxGroupId else s.maxGroupId ++ [s.nextSortBasedGroupId] }

/-- `addNewGroup` for a row of the page builders. -/
def addRow (row : StoredRow V) : Nat × MultiChannelGroupBySort V :=
  let s := { s with currentPage := s.currentPage ++ [row] }
  let s := if isFull s.currentPage then s.startNewPage else s
  (s.nextSortBasedGroupId,{ s with nextSortBasedGroupId := s.nextSortBasedGroupId + 1 })

def addNewGroup (key : Key V) (rawHash : BitVec 64) : Nat × MultiChannelGroupBySort V :=
  s.addRow isFull ⟨key,if precomputedHashChannel then some rawHash else none⟩

def putIfAbsent (key : Key V) : Nat × MultiChannelGroupBySort V :=
  let rawHash := hash key
  let localNullBitset := getNullPosition key
  if localNullBitset.any id then
    let rawNullHash := nullHash valueHash key
    if s.rawPrevNullHash == rawNullHash && intersects (s.rawPrevNullBitSet.bits localNullBitset) localNullBitset then
      (s.nextSortBasedGroupId - 1,s)
    else
      addNewGroup precomputedHashChannel isFull
        { s with rawPrevNullHash := rawNullHash, rawPrevNullBitSet := .localNullBitset } key rawHash
  else if s.rawPrevHash == -1 then
    let (groupId,s) := s.addNewGroup precomputedHashChannel isFull key rawHash
    (groupId,{ s with rawPrevHash := rawHash })
  else if s.rawPrevHash == rawHash then (s.nextSortBasedGroupId - 1,s)
  else addNewGroup precomputedHashChannel isFull { s with rawPrevHash := rawHash } key rawHash

/-- `hashStrategy.appendTo`. -/
def appendTo (blockIndex position : Nat) : Except String (StoredRow V) :=
  match s.read blockIndex position with
  | none => .error "position is not valid"
  | some row => .ok row

def appendValuesTo (groupId : Nat) : Except String (StoredRow V × MultiChannelGroupBySort V) :=
  if some groupId = s.nextGroupIdStartingRange then do
    let row ← s.appendTo s.sliceIndex (if s.newGroupId = 0 then groupId else s.newGroupId)
    pure (row,{ s with
      currentGroupIdStartingRange := s.nextGroupIdStartingRange
      nextGroupIdStartingRange := s.maxGroupId.head?
      maxGroupId := s.maxGroupId.tail
      sliceIndex := s.sliceIndex + 1
      newGroupId := 0 })
  else if s.currentGroupIdStartingRange.any fun range => range < groupId then do
    let row ← s.appendTo s.sliceIndex s.newGroupId
    pure (row,{ s with newGroupId := s.newGroupId + 1 })
  else do
    let row ← s.appendTo s.sliceIndex groupId
    pure (row,s)

/-- The capacity is never asked for. -/
def groupBy : GroupBy (MultiChannelGroupBySort V) (Key V) where
  needMoreCapacity := fun _ => false
  tryToIncreaseCapacity := fun _ => .error "UnsupportedOperationException"
  putIfAbsent := fun s key => .ok (s.putIfAbsent valueHash hash precomputedHashChannel isFull key)

end MultiChannelGroupBySort

structure BigintGroupBySort where
  maxFill : Nat
  sortedValuesByGroupId : List (BitVec 64)
  nextGroupId : Nat
  nullGroupId : Option Nat
  prevValue : BitVec 64
  addNewGroup : Bool

namespace BigintGroupBySort
variable (s : BigintGroupBySort)

def create (expectedSize : Nat) : BigintGroupBySort :=
  { maxFill := expectedSize, sortedValuesByGroupId := [], nextGroupId := 0, nullGroupId := none, prevValue := -1,
    addNewGroup := true }

def needMoreCapacity : Bool := decide (s.maxFill ≤ s.nextGroupId)

def arrayExceeded : String := "Size of Array cannot exceed 1 billion entries"

def tryToIncreaseCapacity : Except String (Bool × BigintGroupBySort) :=
  if s.maxFill * 2 > 2147483647 then .error arrayExceeded
  else .ok (true,{ s with maxFill := s.maxFill * 2 })

/-- `addNewGroup` with a value for the array: that of NULL is not read. -/
def addGroup (value : BitVec 64) : Except String (Nat × BigintGroupBySort) := do
  let groupId := s.nextGroupId
  let s := { s with sortedValuesByGroupId := s.sortedValuesByGroupId ++ [value], nextGroupId := groupId + 1 }
  if s.needMoreCapacity then
    let (_,s) ← s.tryToIncreaseCapacity
    pure (groupId,s)
  else pure (groupId,s)

def putIfAbsent (key : Option (BitVec 64)) : Except String (Nat × BigintGroupBySort) :=
  match key with
  | none =>
    match s.nullGroupId with
    | some nullGroupId => .ok (nullGroupId,{ s with prevValue := 0, addNewGroup := true })
    | none => do
      let (nullGroupId,s) ← s.addGroup (-1)
      pure (nullGroupId,{ s with nullGroupId := some nullGroupId, prevValue := 0, addNewGroup := true })
  | some value =>
    if s.addNewGroup = false ∧ s.prevValue = value then .ok (s.nextGroupId - 1,s)
    else addGroup { s with addNewGroup := false, prevValue := value } value

def appendValuesTo (groupId : Nat) : Except String (Option (BitVec 64)) :=
  if some groupId = s.nullGroupId then .ok none
  else
    match s.sortedValuesByGroupId[groupId]? with
    | none => .error "IndexOutOfBoundsException"
    | some value => .ok (some value)

def groupBy : GroupBy BigintGroupBySort (Option (BitVec 64)) where
  needMoreCapacity := needMoreCapacity
  tryToIncreaseCapacity := tryToIncreaseCapacity
  putIfAbsent := putIfAbsent

end BigintGroupBySort
end HetuCore.Grouping
