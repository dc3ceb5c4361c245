import HetuCore.Predicate.Domain
import Mathlib.Data.List.AList
import Mathlib.Data.Finset.Sort

namespace HetuCore.HeuristicIndex
open Predicate

/-- A type that can be indexed: its native values in the order of the type, the index keys in the order
of their class, and `TypeUtils.getActualValue` between them. -/
structure IndexedType where
  Native : Type
  Key : Type
  nativeOrder : LinearOrder Native
  keyOrder : LinearOrder Key
  actual : Native → Key

attribute [instance] IndexedType.nativeOrder IndexedType.keyOrder

abbrev IndexedType.Domain (t : IndexedType) := Predicate.Domain (.orderable t.Native)

/-- The keys of the tree in order, each with the bitmap of its positions. -/
structure BitmapIndex (Key : Type) where
  btree : List (Key × Finset Nat)

namespace BitmapIndex
variable {Key : Type} [LinearOrder Key]

/-- `computeIfAbsent(value, ...).add(i)`; NULL has no key. -/
def addPosition (positions : AList fun _ : Key => List Nat) (entry : Option Key × Nat) : AList fun _ : Key => List Nat :=
  match entry.1 with
  | none => positions
  | some value => positions.insert value ((positions.lookup value).getD [] ++ [entry.2])

def addValues (columnValues : List (Option Key)) : BitmapIndex Key :=
  let positions := columnValues.zipIdx.foldl addPosition ∅
  let bitmaps := positions.entries.map fun e => (e.1,e.2.toFinset)
  ⟨bitmaps.mergeSort fun o1 o2 => decide (o1.1 ≤ o2.1)⟩

/-- The ends of a sub-map, exchanged if they are out of order. -/
structure KeyBounds (Key : Type) where
  low : Key
  fromInclusive : Bool
  high : Key
  toInclusive : Bool

def KeyBounds.ordered (low : Key) (fromInclusive : Bool) (high : Key) (toInclusive : Bool) : KeyBounds Key :=
  if low > high then ⟨high,fromInclusive,low,toInclusive⟩ else ⟨low,fromInclusive,high,toInclusive⟩

def KeyBounds.includes (bounds : KeyBounds Key) (key : Key) : Bool :=
  (decide (bounds.low < key) || bounds.fromInclusive && decide (bounds.low = key)) &&
    (decide (key < bounds.high) || bounds.toInclusive && decide (key = bounds.high))

variable (index : BitmapIndex Key)

def firstKey : Except String Key :=
  match index.btree.head? with
  | some e => .ok e.1
  | none => .error "Btree has not been initialized correctly."

def lastKey : Except String Key :=
  match index.btree.getLast? with
  | some e => .ok e.1
  | none => .error "Btree has not been initialized correctly."

section
variable {t : IndexedType} (index : BitmapIndex t.Key) (range : Range t.Native)

/-- The sub-map of a range that is not a single value. -/
def keyBounds : Except String (KeyBounds t.Key) := do
  match range.high.isUpperUnbounded, range.low.isLowerUnbounded with
  | true, false =>
    let low ← range.low.getValue
    let high ← index.lastKey
    pure (.ordered (t.actual low) (range.low.bound == .exactly) high true)
  | false, true =>
    let low ← index.firstKey
    let high ← range.high.getValue
    pure (.ordered low true (t.actual high) (range.high.bound == .exactly))
  | false, false =>
    let low ← range.low.getValue
    let high ← range.high.getValue
    pure (.ordered (t.actual low) true (t.actual high) true)
  | true, true => .error "No use for bitmap index as all values are matched due to no bounds."

/-- The keys whose bitmaps a range adds; reading a tree without keys fails. -/
def rangeKeys : Except String (t.Key → Bool) :=
  if index.btree = [] then .error "Btree has not been initialized correctly."
  else if range.isSingleValue then do
    let value ← range.getSingleValue
    pure fun key => decide (key = t.actual value)
  else do
    let bounds ← index.keyBounds range
    pure bounds.includes

def matching (keys : t.Key → Bool) : List (Finset Nat) :=
  (index.btree.filter fun e => keys e.1).map Prod.snd

/-- The positions of the look-up in increasing order; whatever fails is reported as unsupported. -/
def lookUp (predicate : t.Domain) : Except String (List Nat) :=
  match (SortedRangeSet.getOrderedRanges predicate.values).mapM index.rangeKeys with
  | .ok selections => .ok ((selections.flatMap index.matching).foldr (· ∪ ·) ∅).sort
  | .error _ => .error "Unsupported expression type."

end

end BitmapIndex
end HetuCore.HeuristicIndex
