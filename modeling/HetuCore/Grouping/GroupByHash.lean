import HetuCore.Foundation.OpenAddressing
import HetuCore.Hash.HashCommon
import HetuCore.Grouping.GroupByWork

/-! `MultiChannelGroupByHash` and `BigintGroupByHash`: group ids from an open addressing table that
is doubled when it is three quarters full, if the memory callback grants it. A table has `2 ^ bits`
slots; the text "diverges" stands for a probe loop that does not end. -/
namespace HetuCore.Grouping
open Foundation.OpenAddressing Hash

/-- `(int) Math.ceil(hashSize * FILL_RATIO)`, less than the size. -/
def calculateMaxFill (hashSize : Nat) : Nat :=
  let maxFill := (3 * hashSize + 3) / 4
  if maxFill = hashSize then maxFill - 1 else maxFill

def sizeExceeded : String := "Size of hash table cannot exceed 1 billion entries"

/-- The answers that the memory callback will give. -/
abbrev UpdateMemory := Nat → Bool

/-- Is the table to be doubled? The callback is asked if the new capacity is permitted. -/
def reserveMemory (bits : Nat) (updateMemory : UpdateMemory) : Except String (Bool × UpdateMemory) :=
  if 2 ^ bits * 2 > 2147483647 then .error sizeExceeded
  else .ok (updateMemory 0,fun call => updateMemory (call + 1))

/-- Puts an entry into the first free slot from its own. -/
def rehashEntry {E : Type} {n : Nat} (home : E → Fin n) (table : Fin n → Option E) (entry : E) :
    Except String (Fin n → Option E) :=
  match probe table (fun _ => false) n (home entry) with
  | none => .error "diverges"
  | some pos => .ok (Function.update table pos (some entry))

/-- A slice of the page builders and a position in it. -/
structure Address where
  sliceIndex : Nat
  position : Nat
deriving DecidableEq

/-- A used slot: the arrays `groupAddressByHash`, `rawHashByHashPosition` and `groupIdsByHash`. -/
structure Slot where
  address : Address
  rawHash : BitVec 8
  groupId : Nat
deriving DecidableEq

/-- A row of the page builders, with its hash if there is a channel for it. -/
structure StoredRow (V : Type) where
  key : Key V
  rawHash : Option (BitVec 64)

structure MultiChannelGroupByHash (V : Type) where
  bits : Nat
  slots : Fin (2 ^ bits) → Option Slot
  completedPages : List (List (StoredRow V))
  currentPage : List (StoredRow V)
  groupAddressByGroupId : List Address
  nextGroupId : Nat
  updateMemory : UpdateMemory

namespace MultiChannelGroupByHash
variable {V : Type} [DecidableEq V] (hash : Key V → BitVec 64) (precomputedHashChannel : Bool)
  (isFull : List (StoredRow V) → Bool) (s : MultiChannelGroupByHash V)

def create (bits : Nat) (updateMemory : UpdateMemory) : MultiChannelGroupByHash V :=
  { bits, slots := fun _ => none, completedPages := [], currentPage := [], groupAddressByGroupId := [], nextGroupId := 0,
    updateMemory }

/-- The block builders of all slices, the open one last. -/
def channelBuilders : List (List (StoredRow V)) := s.completedPages ++ [s.currentPage]

def read (address : Address) : Option (StoredRow V) :=
  s.channelBuilders[address.sliceIndex]?.bind (·[address.position]?)

def needMoreCapacity : Bool := decide (calculateMaxFill (2 ^ s.bits) ≤ s.nextGroupId)

/-- The hash of a stored row, read from its channel if there is one. -/
def hashPosition (address : Address) : Except String (BitVec 64) :=
  match s.read address with
  | none => .error "IndexOutOfBoundsException"
  | some row =>
    match row.rawHash with
    | some rawHash => .ok rawHash
    | none => .ok (hash row.key)

/-- One round of the rehash: the next used slot is entered into the new table. -/
def rehashSlot {bits : Nat} (table : Fin (2 ^ bits) → Option Slot) (slot : Slot) :
    Except String (Fin (2 ^ bits) → Option Slot) := do
  let rawHash ← s.hashPosition hash slot.address
  rehashEntry (fun _ => getHashPosition bits rawHash) table { slot with rawHash := tag rawHash }

def usedSlots : List Slot := (List.finRange (2 ^ s.bits)).filterMap s.slots

def tryToIncreaseCapacity : Except String (Bool × MultiChannelGroupByHash V) := do
  let (granted,updateMemory) ← reserveMemory s.bits s.updateMemory
  if granted then
    if s.usedSlots.length < s.nextGroupId then throw "ArrayIndexOutOfBoundsException"
    let slots ← (s.usedSlots.take s.nextGroupId).foldlM (s.rehashSlot hash) fun _ => none
    pure (true,{ s with bits := s.bits + 1, slots := slots, updateMemory := updateMemory })
  else pure (false,{ s with updateMemory := updateMemory })

def startNewPage : MultiChannelGroupByHash V :=
  { s with completedPages := s.completedPages ++ [s.currentPage], currentPage := [] }

variable (hashPosition : Fin (2 ^ s.bits))

/-- The row is added to the open page, and its address is recorded under a new group id. -/
def addRow (key : Key V) (rawHash : BitVec 64) : MultiChannelGroupByHash V :=
  let address := ⟨s.completedPages.length,s.currentPage.length⟩
  { s with
    currentPage := s.currentPage ++ [⟨key,if precomputedHashChannel then some rawHash else none⟩]
    nextGroupId := s.nextGroupId + 1
    slots := Function.update s.slots hashPosition (some ⟨address,tag rawHash,s.nextGroupId⟩)
    groupAddressByGroupId := s.groupAddressByGroupId ++ [address] }

def addNewGroup (key : Key V) (rawHash : BitVec 64) : Except String (Nat × MultiChannelGroupByHash V) := do
  let groupId := s.nextGroupId
  let s := s.addRow precomputedHashChannel hashPosition key rawHash
  let s := if isFull s.currentPage then s.startNewPage else s
  if s.needMoreCapacity then
    let (_,s) ← s.tryToIncreaseCapacity hash
    pure (groupId,s)
  else pure (groupId,s)

variable (key : Key V) (rawHash : BitVec 64)

def positionNotDistinctFromCurrentRow (slot : Slot) : Bool :=
  slot.rawHash == tag rawHash && (s.read slot.address).any (·.key == key)

/-- `putIfAbsent(position, page, rawHash)`, for the key of the position. -/
def putIfAbsentOfHash : Except String (Nat × MultiChannelGroupByHash V) :=
  match probe s.slots (s.positionNotDistinctFromCurrentRow key rawHash) (2 ^ s.bits) (getHashPosition s.bits rawHash) with
  | none => .error "diverges"
  | some pos =>
    match s.slots pos with
    | some slot => .ok (slot.groupId,s)
    | none => s.addNewGroup hash precomputedHashChannel isFull pos key rawHash

def putIfAbsent : Except String (Nat × MultiChannelGroupByHash V) :=
  s.putIfAbsentOfHash hash precomputedHashChannel isFull key (hash key)

/-- `contains(position, page, hashChannels, rawHash)`, for the key of the position. -/
def containsOfHash : Except String Bool :=
  match probe s.slots (s.positionNotDistinctFromCurrentRow key rawHash) (2 ^ s.bits) (getHashPosition s.bits rawHash) with
  | none => .error "diverges"
  | some pos => .ok (s.slots pos).isSome

/-- `contains(position, page, hashChannels)`: the hash is that of the leading channels of the page,
which are the hash channels. -/
def contains : Except String Bool := s.containsOfHash key (hash key)

def appendValuesTo (groupId : Nat) : Except String (StoredRow V) :=
  match s.groupAddressByGroupId[groupId]? with
  | none => .error "ArrayIndexOutOfBoundsException"
  | some address =>
    match s.read address with
    | none => .error "IndexOutOfBoundsException"
    | some row => .ok row

def groupBy : GroupBy (MultiChannelGroupByHash V) (Key V) where
  needMoreCapacity := needMoreCapacity
  tryToIncreaseCapacity := tryToIncreaseCapacity hash
  putIfAbsent := putIfAbsent hash precomputedHashChannel isFull

end MultiChannelGroupByHash

/-- A used slot: the arrays `values` and `groupIds`. -/
structure BigintSlot where
  value : BitVec 64
  groupId : Nat
deriving DecidableEq

/-- `valuesByGroupId` has `none` where no value was written: at the group of NULL. -/
structure BigintGroupByHash where
  bits : Nat
  slots : Fin (2 ^ bits) → Option BigintSlot
  valuesByGroupId : List (Option (BitVec 64))
  nextGroupId : Nat
  nullGroupId : Option Nat
  updateMemory : UpdateMemory

namespace BigintGroupByHash
variable (s : BigintGroupByHash)

def create (bits : Nat) (updateMemory : UpdateMemory) : BigintGroupByHash :=
  { bits, slots := fun _ => none, valuesByGroupId := [], nextGroupId := 0, nullGroupId := none, updateMemory }

def needMoreCapacity : Bool := decide (calculateMaxFill (2 ^ s.bits) ≤ s.nextGroupId)

/-- One round of the rehash, over the group ids. -/
def rehashGroup {bits : Nat} (table : Fin (2 ^ bits) → Option BigintSlot) (groupId : Nat) :
    Except String (Fin (2 ^ bits) → Option BigintSlot) :=
  if some groupId = s.nullGroupId then .ok table
  else
    let value := (s.valuesByGroupId[groupId]?.join).getD 0
    rehashEntry (fun entry => getHashPosition bits entry.value) table ⟨value,groupId⟩

def tryToIncreaseCapacity : Except String (Bool × BigintGroupByHash) := do
  let (granted,updateMemory) ← reserveMemory s.bits s.updateMemory
  if granted then
    let slots ← (List.range s.nextGroupId).foldlM s.rehashGroup fun _ => none
    pure (true,{ s with bits := s.bits + 1, slots := slots, updateMemory := updateMemory })
  else pure (false,{ s with updateMemory := updateMemory })

/-- Increases the capacity, if necessary, and returns the group id. -/
def returnGroupId (groupId : Nat) : Except String (Nat × BigintGroupByHash) :=
  if s.needMoreCapacity then do
    let (_,s) ← s.tryToIncreaseCapacity
    pure (groupId,s)
  else .ok (groupId,s)

def addNewGroup (hashPosition : Fin (2 ^ s.bits)) (value : BitVec 64) : Except String (Nat × BigintGroupByHash) :=
  let groupId := s.nextGroupId
  returnGroupId { s with
    slots := Function.update s.slots hashPosition (some ⟨value,groupId⟩)
    valuesByGroupId := s.valuesByGroupId ++ [some value]
    nextGroupId := groupId + 1 } groupId

variable (key : Option (BitVec 64))

def putIfAbsent : Except String (Nat × BigintGroupByHash) :=
  match key with
  | none =>
    match s.nullGroupId with
    | some nullGroupId => s.returnGroupId nullGroupId
    | none =>
      -- set null group id
      returnGroupId { s with
        nullGroupId := some s.nextGroupId
        valuesByGroupId := s.valuesByGroupId ++ [none]
        nextGroupId := s.nextGroupId + 1 } s.nextGroupId
  | some value =>
    match probe s.slots (fun slot => value == slot.value) (2 ^ s.bits) (getHashPosition s.bits value) with
    | none => .error "diverges"
    | some pos =>
      match s.slots pos with
      | some slot => .ok (slot.groupId,s)
      | none => s.addNewGroup pos value

def contains : Except String Bool :=
  match key with
  | none => .ok s.nullGroupId.isSome
  | some value =>
    match probe s.slots (fun slot => value == slot.value) (2 ^ s.bits) (getHashPosition s.bits value) with
    | none => .error "diverges"
    | some pos => .ok (s.slots pos).isSome

def appendValuesTo (groupId : Nat) : Option (BitVec 64) :=
  if some groupId = s.nullGroupId then none else some ((s.valuesByGroupId[groupId]?.join).getD 0)

def groupBy : GroupBy BigintGroupByHash (Option (BitVec 64)) where
  needMoreCapacity := needMoreCapacity
  tryToIncreaseCapacity := tryToIncreaseCapacity
  putIfAbsent := putIfAbsent

end BigintGroupByHash
end HetuCore.Grouping
