import HetuCore.Array.BigArray
import HetuCore.Decimal.LongDecimalState

namespace HetuCore.Decimal
open HetuCore.Array

structure GroupedLongDecimalWithOverflowState where
  groupId : Nat
  isNotNull : BigArray false
  unscaledDecimals : BigArray (0 : Word)
  overflows : Option (BigArray (0 : Word))

structure GroupedLongDecimalWithOverflowStateState where
  unscaledDecimals : BigArrayState Word
  overflows : BigArrayState Word
  baseState : Nat
  isNotNull : BigArrayState Bool

namespace GroupedLongDecimalWithOverflowState

def createGroupedState : GroupedLongDecimalWithOverflowState := ⟨0,.new,.new,none⟩

def ensureCapacity (s : GroupedLongDecimalWithOverflowState) (size : Nat) : GroupedLongDecimalWithOverflowState :=
  { s with
    isNotNull := s.isNotNull.ensureCapacity size
    unscaledDecimals := s.unscaledDecimals.ensureCapacity (size * 2)
    overflows := s.overflows.map (·.ensureCapacity size) }

variable (s : GroupedLongDecimalWithOverflowState)

def setGroupId (groupId : Nat) : GroupedLongDecimalWithOverflowState :=
  { s with groupId := groupId }

def getIsNotNull : Except String Bool := s.isNotNull.get s.groupId

def setNotNull : Except String GroupedLongDecimalWithOverflowState := do
  let isNotNull ← s.isNotNull.set s.groupId true
  pure { s with isNotNull := isNotNull }

/-- The two words of the group, adjacent in one segment. -/
def getDecimal : Except String Unscaled := do
  let low ← s.unscaledDecimals.get (s.groupId * 2)
  let high ← s.unscaledDecimals.get (s.groupId * 2 + 1)
  pure ⟨low,high⟩

def setDecimal (decimal : Unscaled) : Except String GroupedLongDecimalWithOverflowState := do
  let written ← s.unscaledDecimals.set (s.groupId * 2) decimal.rawLow
  let written ← written.set (s.groupId * 2 + 1) decimal.rawHigh
  pure { s with unscaledDecimals := written }

def getOverflow : Except String Word :=
  match s.overflows with
  | none => pure 0
  | some overflows => overflows.get s.groupId

/-- A zero overflow does not create the array. -/
def addOverflow (overflow : Word) : Except String GroupedLongDecimalWithOverflowState :=
  if overflow ≠ 0 then do
    let overflows := s.overflows.getD (BigArray.new.ensureCapacity s.isNotNull.capacity)
    let old ← overflows.get s.groupId
    let written ← overflows.set s.groupId (old + overflow)
    pure { s with overflows := some written }
  else pure s

/-- The overflow array is captured without a null check. -/
def capture (s : GroupedLongDecimalWithOverflowState) : Except String GroupedLongDecimalWithOverflowStateState :=
  match s.overflows with
  | none => .error "NullPointerException"
  | some overflows => pure ⟨s.unscaledDecimals.capture,overflows.capture,s.groupId,s.isNotNull.capture⟩

/-- The overflow array is restored in place, also without a null check. -/
def restore (s : GroupedLongDecimalWithOverflowState) (myState : GroupedLongDecimalWithOverflowStateState) :
    Except String GroupedLongDecimalWithOverflowState :=
  match s.overflows with
  | none => .error "NullPointerException"
  | some overflows => pure
      ⟨myState.baseState,s.isNotNull.restore myState.isNotNull,s.unscaledDecimals.restore myState.unscaledDecimals,
        some (overflows.restore myState.overflows)⟩

/-- What the accessors return for a group. -/
def observe (groupId : Nat) : Except String LongDecimalWithOverflowState := do
  let s := s.setGroupId groupId
  let isNotNull ← s.getIsNotNull
  let decimal ← s.getDecimal
  let overflow ← s.getOverflow
  pure ⟨isNotNull,decimal,overflow⟩

end GroupedLongDecimalWithOverflowState

/-- What one position of a page does to its group: add a decimal, or combine a
deserialised partial state. -/
inductive GroupAction where
  | input (x : EncodedDecimal)
  | combine (otherState : LongDecimalWithOverflowState)
  deriving DecidableEq, Repr

namespace GroupAction

variable (state : LongDecimalWithOverflowState)

def apply : GroupAction → LongDecimalWithOverflowState
  | input x => state.addDecimal x.words
  | combine otherState => state.combine otherState

/-- The overflow that is added to the counter. -/
def addedOverflow : GroupAction → Word
  | input x => (state.unscaledDecimal.addWithOverflow x.words).2
  | combine otherState =>
    if state.isNotNull then otherState.overflow + (state.unscaledDecimal.addWithOverflow otherState.unscaledDecimal).2
    else otherState.overflow

end GroupAction

structure GroupRow where
  groupId : Nat
  action : GroupAction
  deriving DecidableEq, Repr

/-- A page with the number of groups seen so far; its rows name groups below it. -/
structure GroupedPage where
  groupCount : Nat
  rows : List GroupRow
  inRange : ∀ r ∈ rows, r.groupId < groupCount

namespace GroupedLongDecimalWithOverflowState

variable (s : GroupedLongDecimalWithOverflowState)

def input (x : EncodedDecimal) : Except String GroupedLongDecimalWithOverflowState := do
  let s ← s.setNotNull
  let left ← s.getDecimal
  let (decimal,overflow) := left.addWithOverflow x.words
  let s ← s.setDecimal decimal
  s.addOverflow overflow

def combine (otherState : LongDecimalWithOverflowState) : Except String GroupedLongDecimalWithOverflowState := do
  if ← s.getIsNotNull then
    let left ← s.getDecimal
    let (decimal,overflow) := left.addWithOverflow otherState.unscaledDecimal
    let s ← s.setDecimal decimal
    s.addOverflow (otherState.overflow + overflow)
  else
    let s ← s.setNotNull
    let s ← s.setDecimal otherState.unscaledDecimal
    s.addOverflow otherState.overflow

def addRow (r : GroupRow) : Except String GroupedLongDecimalWithOverflowState :=
  match r.action with
  | .input x => (s.setGroupId r.groupId).input x
  | .combine otherState => (s.setGroupId r.groupId).combine otherState

def addPage (page : GroupedPage) : Except String GroupedLongDecimalWithOverflowState :=
  page.rows.foldlM addRow (s.ensureCapacity page.groupCount)

def run (pages : List GroupedPage) : Except String GroupedLongDecimalWithOverflowState :=
  pages.foldlM addPage createGroupedState

end GroupedLongDecimalWithOverflowState
end HetuCore.Decimal
