import HetuCore.DynamicFiltering.DynamicFilter
import HetuCore.Foundation.Machine

namespace HetuCore.DynamicFiltering.OrcPredicate
open Foundation
variable {Column Other : Type} [DecidableEq Column] [DecidableEq Other]

def IsLong (value : Int) : Prop := -2 ^ 63 ≤ value ∧ value < 2 ^ 63

/-- The bounds are null if they are not known. -/
structure IntegerStatistics where
  min : Option Int
  max : Option Int
  minLong : ∀ a ∈ min, IsLong a
  maxLong : ∀ b ∈ max, IsLong b
  ordered : ∀ a ∈ min, ∀ b ∈ max, a ≤ b

structure ColumnStatistics where
  numberOfValues : Option Int
  integerStatistics : Option IntegerStatistics

variable (H : BloomHash) (dynamicFilter : DynamicFilter Other)

/-- Exact on a `Long`: no filter throws for one. -/
def containsLong (value : Int) : Bool :=
  match dynamicFilter.contains H (some (.long value)) with
  | .ok contained => contained
  | .error _ => false

def getFilters : DynamicFilter Other → List (DynamicFilter Other)
  | .combined filter1 filter2 => getFilters filter1 ++ getFilters filter2
  | filter => [filter]

/-- `getMin` and `getMax`, if both are set; a combined filter has none of its own. -/
def minMax : DynamicFilter Other → Option (Int × Int)
  | .hashSet _ _ min max => do pure (← min,← max)
  | .filtered _ _ _ min max => do pure (← min,← max)
  | .bloom _ _ min max => do pure (← min,← max)
  | .combined _ _ => none

def hasMinMaxStats : Bool :=
  (getFilters dynamicFilter).all fun filter => (minMax filter).isSome

def isRangeOverlaps (statsMin statsMax : Int) : Bool :=
  (getFilters dynamicFilter).all fun filter =>
    (minMax filter).all fun bounds => decide (bounds.1 ≤ statsMax) && decide (statsMin ≤ bounds.2)

/-- The loop starts at `min + 1`, which wraps around at the greatest `long`. -/
def rangeMatch (min max : Int) (dynamicFilter : DynamicFilter Other) : Bool :=
  let start := Int.bmod (min + 1) (2 ^ 64)
  (List.range (max - start).toNat).any fun k => containsLong H dynamicFilter (start + k)

def integralTypes : List String := ["bigint","tinyint","smallint","integer"]

def getColumnBasicStats (typeName : String) (numberOfRows : Nat) (columnStatistics : ColumnStatistics) : Option (Int × Int) :=
  if numberOfRows = 0 then none
  else if columnStatistics.numberOfValues = some 0 then none
  else if typeName ∈ integralTypes then do
    let integerStatistics ← columnStatistics.integerStatistics
    pure (← integerStatistics.min,← integerStatistics.max)
  else none

/-- One filter against the bounds of the statistics. -/
def overlaps (min max : Int) : Bool :=
  if hasMinMaxStats dynamicFilter then isRangeOverlaps dynamicFilter min max
  else containsLong H dynamicFilter min || containsLong H dynamicFilter max || rangeMatch H min max dynamicFilter

/-- The loop over the filters of a column, with the flag of the filters before. -/
def columnOverlaps (H : BloomHash) (stats : Option (Int × Int)) (filterResult : Bool) : List (DynamicFilter Other) → Bool
  | [] => filterResult
  | dynamicFilter :: dynamicFilters =>
    match stats with
    | none => columnOverlaps H stats filterResult dynamicFilters
    | some (min,max) =>
      if overlaps H dynamicFilter min max then true else columnOverlaps H stats false dynamicFilters

/-- The filters of a column, over all maps that have one. -/
def colDynamicFilterList (dynamicFilters : List (FilterMap Column Other)) (column : Column) : List (DynamicFilter Other) :=
  dynamicFilters.filterMap fun filtersMap => filtersMap.lookup column

/-- The columns of the file that the predicate is built for, and its filters of each. -/
def build (columns : List Column) (dynamicFilters : List (FilterMap Column Other)) : List (Column × List (DynamicFilter Other)) :=
  (columns.map fun column => (column,colDynamicFilterList dynamicFilters column)).filter fun entry => !entry.2.isEmpty

/-- The statistics of a column may be missing. -/
def «matches» (typeName : Column → String) (columnDynamicFilters : List (Column × List (DynamicFilter Other)))
    (numberOfRows : Nat) (allColumnStatistics : Column → Option ColumnStatistics) : Bool :=
  columnDynamicFilters.all fun entry =>
    match allColumnStatistics entry.1 with
    | none => true
    | some columnStatistics =>
      columnOverlaps H (getColumnBasicStats (typeName entry.1) numberOfRows columnStatistics) true entry.2

end HetuCore.DynamicFiltering.OrcPredicate
