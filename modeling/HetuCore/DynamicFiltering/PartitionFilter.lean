import HetuCore.DynamicFiltering.DynamicFilter

namespace HetuCore.DynamicFiltering
variable {T Other : Type} [DecidableEq Other]

structure HiveColumnHandle (T : Type) where
  name : String
  type : T
  isPartitionKey : Bool
deriving DecidableEq

structure ColumnFilter (T Other : Type) where
  columnHandle : HiveColumnHandle T
  filter : DynamicFilter Other

namespace PartitionFilter

def DEFAULT_PARTITION_VALUE : String := "\\N"

/-- What a loop does after a round: it returns from the method, or goes on with the flag. -/
inductive Flow
  | returns (value : Bool)
  | continues (result : Bool)

variable (H : BloomHash) (getValueAsType : T → String → Except Thrown (NativeValue Other))

/-- A Bloom filter is asked for the text of a value that is not a `Long`. -/
def realObjectValue (filter : DynamicFilter Other) (partitionValue : String) (value : NativeValue Other) : NativeValue Other :=
  match filter, value with
  | .bloom _ _ _ _, .long n => .long n
  | .bloom _ _ _ _, _ => .string partitionValue
  | _, value => value

def containsValue (dynamicFilter : ColumnFilter T Other) (partitionValue : String) : Except Thrown Bool := do
  let value ← getValueAsType dynamicFilter.columnHandle.type partitionValue
  dynamicFilter.filter.contains H (some (realObjectValue dynamicFilter.filter partitionValue value))

variable (partitions : String → Option String)

/-- The value that a filter is tested with, if there is one. -/
def askedValue (dynamicFilter : ColumnFilter T Other) : Option String :=
  if dynamicFilter.columnHandle.isPartitionKey then
    (partitions dynamicFilter.columnHandle.name).filter fun partitionValue => decide (partitionValue ≠ DEFAULT_PARTITION_VALUE)
  else none

def checkFilter (result : Bool) (dynamicFilter : ColumnFilter T Other) : Except Thrown Flow :=
  let result := result || dynamicFilter.filter.isEmpty
  match askedValue partitions dynamicFilter with
  | none => .ok (.continues result)
  | some partitionValue =>
    match containsValue H getValueAsType dynamicFilter partitionValue with
    | .ok contained =>
      let result := result || !contained
      if result then .ok (.continues result) else .ok (.returns false)
    | .error .prestoException => .ok (.returns false)
    | .error .classCastException => .ok (.returns false)
    | .error exception => .error exception

def checkSet (result : Bool) : List (ColumnFilter T Other) → Except Thrown Flow
  | [] => .ok (.continues result)
  | dynamicFilter :: dynamicFilters => do
    match ← checkFilter H getValueAsType partitions result dynamicFilter with
    | .returns value => pure (.returns value)
    | .continues result => checkSet result dynamicFilters

def checkSets (result : Bool) : List (List (ColumnFilter T Other)) → Except Thrown Bool
  | [] => .ok result
  | set :: sets => do
    match ← checkSet H getValueAsType partitions result set with
    | .returns value => pure value
    | .continues result => checkSets result sets

/-- The sets are given in the order in which they are gone through. -/
def isPartitionFiltered (partitionKeys : Option (List (String × String)))
    (dynamicFilterList : Option (List (List (ColumnFilter T Other)))) : Except Thrown Bool :=
  match partitionKeys, dynamicFilterList with
  | some partitionKeys, some (set :: sets) =>
    if (partitionKeys.map Prod.fst).Nodup then checkSets H getValueAsType (fun name => partitionKeys.lookup name) false (set :: sets)
    else .error (.other "IllegalStateException")
  | _, _ => .ok false

/-- The filter does not contain the partition's value of its column; a default value stands for NULL. -/
def Rejects (dynamicFilter : ColumnFilter T Other) : Prop :=
  dynamicFilter.columnHandle.isPartitionKey = true ∧ ∃ partitionValue,
    partitions dynamicFilter.columnHandle.name = some partitionValue ∧
    if partitionValue = DEFAULT_PARTITION_VALUE then dynamicFilter.filter.contains H none = .ok false
    else containsValue H getValueAsType dynamicFilter partitionValue = .ok false

/-- No row of the partition passes the filter. -/
def Hit (dynamicFilter : ColumnFilter T Other) : Prop :=
  dynamicFilter.filter.isEmpty = true ∨ Rejects H getValueAsType partitions dynamicFilter

end PartitionFilter
end HetuCore.DynamicFiltering
