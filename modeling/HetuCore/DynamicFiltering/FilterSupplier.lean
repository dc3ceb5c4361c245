import HetuCore.DynamicFiltering.DynamicFilter
import HetuCore.Relation.RowExpression

namespace HetuCore.DynamicFiltering
open Foundation

/-- The expression that a descriptor may carry: a call of a comparison operator, whose operands are both
variables or not, or something else. -/
inductive FilterExpression
  | comparison (operator : Relation.ComparisonOperator) (ofVariables : Bool)
  | other
deriving DecidableEq

/-- A dynamic filter of the plan on a plain column. -/
structure Descriptor where
  id : String
  input : String
  filter : Option FilterExpression
deriving DecidableEq

namespace FilterSupplier
variable {Column Other : Type}

/-- The symbol of each filter; a builder of a map does not take a key twice. -/
def extractSourceExpressionSymbols (dynamicFilters : List Descriptor) : Except Thrown (List (String × String)) :=
  if (dynamicFilters.map Descriptor.id).Nodup then .ok (dynamicFilters.map fun descriptor => (descriptor.id,descriptor.input))
  else .error (.other "IllegalArgumentException")

variable (columnHandles : String → Option Column)

/-- A map does not take null for a value. -/
def handleOf (entry : String × String) : Except Thrown (String × Column) :=
  match columnHandles entry.2 with
  | some column => .ok (entry.1,column)
  | none => .error (.other "NullPointerException")

def sourceColumnHandles (dynamicFilters : List Descriptor) : Except Thrown (List (String × Column)) := do
  let symbols ← extractSourceExpressionSymbols dynamicFilters
  symbols.mapM (handleOf columnHandles)

/-- The filters of one disjunct that are there, each with its column. -/
def availableFilters (sourceColumnHandles : List (String × Column)) (cached : AList fun _ : String => DynamicFilter Other)
    (dynamicFilters : List Descriptor) : List (Column × DynamicFilter Other) :=
  dynamicFilters.filterMap fun descriptor => do
    let df ← cached.lookup descriptor.id
    let column ← sourceColumnHandles.lookup descriptor.id
    pure (column,df)

/-- What the supplier gives; the filters of the query may be unknown. -/
def supply (cachedDynamicFilters : Option (AList fun _ : String => DynamicFilter Other)) :
    List (List Descriptor × List (String × Column)) → List (List (Column × DynamicFilter Other))
  | [] => []
  | (dynamicFilters,sourceColumnHandles) :: rest =>
    match cachedDynamicFilters with
    | none => supply cachedDynamicFilters rest
    | some cached =>
      if sourceColumnHandles.isEmpty || cached.entries.isEmpty then supply cachedDynamicFilters rest
      else
        let dynamicFiltersSet := availableFilters sourceColumnHandles cached dynamicFilters
        if dynamicFiltersSet.isEmpty then supply cachedDynamicFilters rest
        else dynamicFiltersSet :: supply cachedDynamicFilters rest

/-- The columns are looked up when the supplier is made, the filters when it is asked. -/
def getDynamicFilterSupplier (dynamicFilterList : List (List Descriptor)) (columnHandles : String → Option Column) :
    Except Thrown (Option (AList fun _ : String => DynamicFilter Other) → List (List (Column × DynamicFilter Other))) := do
  let sourceColumnHandlesList ← dynamicFilterList.mapM (sourceColumnHandles columnHandles)
  pure fun cachedDynamicFilters => supply cachedDynamicFilters (dynamicFilterList.zip sourceColumnHandlesList)

end FilterSupplier
end HetuCore.DynamicFiltering
