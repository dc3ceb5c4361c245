import HetuCore.DynamicFiltering.FilterSupplier

namespace HetuCore.DynamicFiltering.FiltersCollector
variable {Column Other : Type} [DecidableEq Column] [DecidableEq Other]

/-- Only an order comparison of two variables is a predicate. -/
def createDynamicFilterPredicate : Option FilterExpression → Option Comparison
  | some (.comparison .lessThan true) => some .lessThan
  | some (.comparison .lessThanOrEqual true) => some .lessThanOrEqual
  | some (.comparison .greaterThan true) => some .greaterThan
  | some (.comparison .greaterThanOrEqual true) => some .greaterThanOrEqual
  | _ => none

variable (disjunct : List Descriptor)

/-- The filters of a column in a disjunct. -/
def getId (column : String) : List String :=
  (disjunct.filter fun descriptor => decide (descriptor.input = column)).map Descriptor.id

/-- The expression of a filter in a disjunct: the last one given for its id. -/
def getFilter (id : String) : Option FilterExpression :=
  disjunct.foldl (fun filter descriptor =>
    if descriptor.id = id ∧ descriptor.filter.isSome then descriptor.filter else filter) none

/-- `DynamicFilterFactory.create` followed by `setMinMax`. -/
def create (filterId : String) (valueSet : Finset (NativeValue Other)) (predicate : Option Comparison) : DynamicFilter Other :=
  DynamicFilter.setMinMax <| match predicate with
    | some comparison => .filtered filterId valueSet (some comparison) none none
    | none => .hashSet filterId valueSet none none

/-- The values collected so far, and the filters made of them. A filter shares its set of values with
`predicates`, so that the set it was made with counts no more. -/
structure Collector (Other : Type) where
  predicates : AList fun _ : String => Finset (NativeValue Other)
  cachedDynamicFilters : AList fun _ : String => DynamicFilter Other

/-- The filter with the values that its set has now. -/
def share (valueSet : Finset (NativeValue Other)) : DynamicFilter Other → DynamicFilter Other
  | .hashSet filterId _ min max => .hashSet filterId valueSet min max
  | .filtered filterId _ filter min max => .filtered filterId valueSet filter min max
  | filter => filter

def intersectEntry (predicates : AList fun _ : String => Finset (NativeValue Other))
    (entry : String × Finset (NativeValue Other)) : AList fun _ : String => Finset (NativeValue Other) :=
  match predicates.lookup entry.1 with
  | none => predicates.insert entry.1 entry.2
  | some predicateSet => predicates.insert entry.1 (predicateSet ∪ entry.2)

def intersectDynamicFilter (collector : Collector Other) (predicate : List (String × Finset (NativeValue Other))) : Collector Other :=
  { collector with predicates := predicate.foldl intersectEntry collector.predicates }

/-- A call of `getDynamicFilters`: the columns of the scan, the global filters that are cached, and whether
dynamic filtering across regions is on. -/
structure Call (Column Other : Type) where
  assignments : List (String × Column)
  globalFilters : String → Option (DynamicFilter Other)
  crossRegion : Bool

section
variable (collector : Collector Other) (call : Call Column Other) (disjunct : List Descriptor)

variable (cached : AList fun _ : String => DynamicFilter Other)

/-- The filter that is cached, here or globally. -/
def cachedFilter (filterId : String) : Option (DynamicFilter Other) :=
  match cached.lookup filterId with
  | some filter => some (share ((collector.predicates.lookup filterId).getD ∅) filter)
  | none => call.globalFilters filterId

/-- One filter of a column. A cached filter is combined with what the column has; a new one replaces it. -/
def visitId (columnHandle : Column) (state : (AList fun _ : String => DynamicFilter Other) × FilterMap Column Other)
    (filterId : String) : (AList fun _ : String => DynamicFilter Other) × FilterMap Column Other :=
  match cachedFilter collector call state.1 filterId with
  | some cachedDynamicFilter =>
    match state.2.lookup columnHandle with
    | none => (state.1,state.2.insert columnHandle cachedDynamicFilter)
    | some dynamicFilter => (state.1,state.2.insert columnHandle (.combined dynamicFilter cachedDynamicFilter))
  | none =>
    match collector.predicates.lookup filterId with
    | none => state
    | some valueSet =>
      let dynamicFilter := create filterId valueSet (createDynamicFilterPredicate (getFilter disjunct filterId))
      (state.1.insert filterId dynamicFilter,state.2.insert columnHandle dynamicFilter)

def visitColumn (state : (AList fun _ : String => DynamicFilter Other) × FilterMap Column Other) (entry : String × Column) :
    (AList fun _ : String => DynamicFilter Other) × FilterMap Column Other :=
  (getId disjunct entry.1).foldl (visitId collector call disjunct entry.2) state

def visitDisjunct : (AList fun _ : String => DynamicFilter Other) × FilterMap Column Other :=
  call.assignments.foldl (visitColumn collector call disjunct) (cached,∅)

/-- The disjuncts with a filter. -/
def visitDisjuncts (cached : AList fun _ : String => DynamicFilter Other) :
    List (List Descriptor) → (AList fun _ : String => DynamicFilter Other) × List (FilterMap Column Other)
  | [] => (cached,[])
  | disjunct :: disjuncts =>
    let (cached,result) := visitDisjunct collector call disjunct cached
    let (cached,resultList) := visitDisjuncts cached disjuncts
    (cached,if result.entries.isEmpty then resultList else result :: resultList)

end

variable (descriptors : List (List Descriptor))

/-- The table is not one of a data center. -/
def getDynamicFilters (collector : Collector Other) (call : Call Column Other) :
    Collector Other × List (FilterMap Column Other) :=
  let (cached,resultList) := visitDisjuncts collector call collector.cachedDynamicFilters descriptors
  let collector := { collector with cachedDynamicFilters := cached }
  if call.crossRegion then (collector,resultList)
  else if resultList.length ≠ descriptors.length then (collector,[])
  else (collector,resultList)

inductive Action (Column Other : Type)
  | intersect (predicate : List (String × Finset (NativeValue Other)))
  | get (call : Call Column Other)

def step (collector : Collector Other) : Action Column Other → Collector Other
  | .intersect predicate => intersectDynamicFilter collector predicate
  | .get call => (getDynamicFilters descriptors collector call).1

def run (actions : List (Action Column Other)) : Collector Other :=
  actions.foldl (step descriptors) ⟨∅,∅⟩

end HetuCore.DynamicFiltering.FiltersCollector
