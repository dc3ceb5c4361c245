import HetuCore.Relation.DomainTranslator

namespace HetuCore.Relation
open Foundation Predicate LogicalRowExpressions ComparisonOperator

/-- The order in which a hash set hands out its elements. -/
structure SetIteration where
  list : {α : Type} → Finset α → List α
  coe_list : ∀ {α : Type} (s : Finset α), (list s : Multiset α) = s.val

theorem SetIteration.mem_list (iteration : SetIteration) {α : Type} {s : Finset α} {v : α} :
    v ∈ iteration.list s ↔ v ∈ s := by
  rw [← Finset.mem_val,← iteration.coe_list,Multiset.mem_coe]

namespace RowExpressionDomainTranslator
variable {S : Signature} [DecidableEq (RowExpression S .boolean)] {t : SqlType S.Base}

variable (supported : equal.Supports (S.columnType t)) (reference : RowExpression S t)

def inList (first : RowExpression S t) (rest : List (RowExpression S t)) : RowExpression S .boolean :=
  .isIn t supported reference (first :: rest).get

/-- One value is written as an equality, several as an IN predicate. -/
def equalOrIn (first : RowExpression S t) : List (RowExpression S t) → RowExpression S .boolean
  | [] => .comparison .equal t supported reference first
  | rest => inList supported reference first rest

/-- The single values come back as an equality or an IN predicate. -/
def addSingleValues (supported : equal.Supports (S.columnType t))
    (disjuncts : List (RowExpression S .boolean)) : List (RowExpression S t) → List (RowExpression S .boolean)
  | [] => disjuncts
  | first :: rest => disjuncts ++ [equalOrIn supported reference first rest]

section
variable {α : Type} [LinearOrder α] (reference : RowExpression S t)
  (supported : ∀ operator : ComparisonOperator, operator.Supports (S.columnType t)) (native : α → S.Value t)

/-- `LiteralEncoder.toRowExpression`. -/
def toRowExpression {α : Type} (native : α → S.Value t) (value : α) : RowExpression S t :=
  .constant t (some (native value))

variable (range : Range α)

def isBetween : Bool :=
  !range.low.isLowerUnbounded && range.low.bound == .exactly &&
    !range.high.isUpperUnbounded && range.high.bound == .exactly

/-- The comparison with the lower end, if the range has one. -/
def lowConjunct : Except String (List (RowExpression S .boolean)) :=
  if range.low.isLowerUnbounded then pure []
  else match range.low.bound with
    | .above => do
      let value ← range.low.getValue
      pure [.comparison .greaterThan t (supported _) reference (toRowExpression native value)]
    | .exactly => do
      let value ← range.low.getValue
      pure [.comparison .greaterThanOrEqual t (supported _) reference (toRowExpression native value)]
    | .below => .error "Low Marker should never use BELOW bound: "

/-- The comparison with the upper end, if the range has one. -/
def highConjunct : Except String (List (RowExpression S .boolean)) :=
  if range.high.isUpperUnbounded then pure []
  else match range.high.bound with
    | .above => .error "High Marker should never use ABOVE bound: "
    | .exactly => do
      let value ← range.high.getValue
      pure [.comparison .lessThanOrEqual t (supported _) reference (toRowExpression native value)]
    | .below => do
      let value ← range.high.getValue
      pure [.comparison .lessThan t (supported _) reference (toRowExpression native value)]

def processRange : Except String (RowExpression S .boolean) :=
  if range.isAll then pure TRUE_CONSTANT
  else if isBetween range then do
    let low ← range.low.getValue
    let high ← range.high.getValue
    pure (.between t (supported _) reference (toRowExpression native low) (toRowExpression native high))
  else do
    let low ← lowConjunct reference supported native range
    let high ← highConjunct reference supported native range
    -- the checks of this method and of the discrete values carry no message
    if low ++ high = [] then .error "" else pure (combineConjuncts (low ++ high))

def excludedPointsExpression (first : RowExpression S t) : List (RowExpression S t) → RowExpression S .boolean
  | [] => .comparison .notEqual t (supported _) reference first
  | rest => .not (inList (supported _) reference first rest)

def combineRangeWithExcludedPoints (excludedPoints : List (RowExpression S t)) :
    Except String (RowExpression S .boolean) :=
  match excludedPoints with
  | [] => processRange reference supported native range
  | first :: rest => do
    let expression ← processRange reference supported native range
    pure (combineConjuncts [expression,excludedPointsExpression reference supported first rest])

/-- The state of the loop over the ranges: the disjuncts, the single values and what is left of the
excluded points. -/
structure Disjuncts (S : Signature) (t : SqlType S.Base) (α : Type) [LinearOrder α] where
  disjuncts : List (RowExpression S .boolean)
  singleValues : List (RowExpression S t)
  singleValueExclusions : List (Range α)

/-- One round of the loop; the excluded points at the front that lie in the range are taken. -/
def addRange (state : Disjuncts S t α) (range : Range α) : Except String (Disjuncts S t α) :=
  if range.isSingleValue then do
    let value ← range.getSingleValue
    pure { state with singleValues := state.singleValues ++ [toRowExpression native value] }
  else do
    let points ← (state.singleValueExclusions.takeWhile range.contains).mapM Range.getSingleValue
    let disjunct ← if points ≠ [] then
        combineRangeWithExcludedPoints reference supported native range (points.map (toRowExpression native))
      else processRange reference supported native range
    pure ⟨state.disjuncts ++ [disjunct],state.singleValues,state.singleValueExclusions.dropWhile range.contains⟩

/-- `extractDisjuncts` of ordered ranges: ranges that only excluded points keep apart are joined. -/
def extractRangeDisjuncts (orderedRanges : List (Range α)) : Except String (List (RowExpression S .boolean)) := do
  let sortedRangeSet ← SortedRangeSet.copyOf orderedRanges
  let complement ← sortedRangeSet.complement
  let singleValueExclusionsList := complement.getOrderedRanges.filter Range.isSingleValue
  let exclusions ← SortedRangeSet.copyOf singleValueExclusionsList
  let originalUnionSingleValues ← exclusions.union sortedRangeSet
  let state ← originalUnionSingleValues.getOrderedRanges.foldlM (addRange reference supported native)
    ⟨[],[],singleValueExclusionsList⟩
  pure (addSingleValues reference (supported _) state.disjuncts state.singleValues)

end

/-- `extractDisjuncts` of discrete values. -/
def extractDiscreteDisjuncts {α : Type} (reference : RowExpression S t)
    (supported : equal.Supports (S.columnType t)) (native : α → S.Value t) (isWhiteList : Bool)
    (discreteValues : List α) : Except String (List (RowExpression S .boolean)) :=
  match discreteValues.map (toRowExpression native) with
  | [] => .error ""
  | first :: rest =>
    let predicate := equalOrIn supported reference first rest
    pure [if isWhiteList then predicate else .not predicate]

/-- The processor of the kind of value set that the type has. -/
def extractDisjuncts (iteration : SetIteration) (reference : RowExpression S t) : {columnType : ColumnType} →
    (∀ operator : ComparisonOperator, operator.Supports columnType → operator.Supports (S.columnType t)) →
    (columnType.Value → S.Value t) → ValueSet columnType → Except String (List (RowExpression S .boolean))
  | @ColumnType.orderable _ _, supports, native, values =>
    extractRangeDisjuncts reference (fun operator => supports operator trivial) native
      (SortedRangeSet.getOrderedRanges values)
  | @ColumnType.comparable _ _ _, supports, native, values =>
    extractDiscreteDisjuncts reference (supports .equal trivial) native (EquatableValueSet.whiteList values)
      (iteration.list (EquatableValueSet.entries values))
  | @ColumnType.incomparable _ _, _, _, _ => .error "Case should not be reachable"

def domainPredicate (iteration : SetIteration) (domain : Domain (S.columnType t)) (reference : RowExpression S t) :
    Except String (RowExpression S .boolean) :=
  if domain.values.isNone then pure (if domain.nullAllowed then .isNull t reference else FALSE_CONSTANT)
  else if domain.values.isAll then pure (if domain.nullAllowed then TRUE_CONSTANT else .not (.isNull t reference))
  else do
    let disjuncts ← extractDisjuncts iteration reference (fun _ => id) id domain.values
    pure (combineDisjunctsWithDefault (if domain.nullAllowed then disjuncts ++ [.isNull t reference] else disjuncts)
      TRUE_CONSTANT)

def toPredicate [DecidableEq S.Base] (iteration : SetIteration)
    (tupleDomain : TupleDomain (VariableReference.columnType (S := S))) : Except String (RowExpression S .boolean) :=
  match tupleDomain.domains with
  | none => pure FALSE_CONSTANT
  | some domains => do
    let conjuncts ← domains.entries.mapM fun entry => domainPredicate iteration entry.2 (.variable entry.1.type entry.1.name)
    pure (combineConjuncts conjuncts)

end RowExpressionDomainTranslator
end HetuCore.Relation
