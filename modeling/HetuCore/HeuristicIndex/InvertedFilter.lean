import HetuCore.HeuristicIndex.BTreeIndex
import HetuCore.HeuristicIndex.SequenceUnion
import HetuCore.HeuristicIndex.RangeSearch
import Mathlib.Data.List.AList

namespace HetuCore.HeuristicIndex.InvertedFilter
open HetuCore.Relation BTreeIndex
variable {S : Signature} {M : ObjectModel S} {columns : Columns S}

section
variable {Symbol : Type} [LinearOrder Symbol]

/-- The B-trees of each column that the filter knows. -/
abbrev BTrees (M : ObjectModel S) (columns : Columns S) (Symbol : Type) :=
  (name : String) → Option (List (BTreeIndex M (M.classOf (columns name)) Symbol))

variable (indices : BTrees M columns Symbol)

/-- The union of the look-ups in all indexes of the column; `none` is the universe, for a column without
indexes or a look-up that fails. -/
def lookUpAll {t : SqlType S.Base} (varRef : RowExpression S t) (query : Query S) : Except Failure (Option (List Symbol)) :=
  match varRef with
  | .variable _ name =>
    match indices name with
    | none => .error (.thrown "NullPointerException")
    | some [] => .ok none
    | some selectedIndex =>
      match selectedIndex.mapM fun index => index.lookUp query with
      | .ok iterators => .ok (some (SequenceUtils.union iterators))
      | .error _ => .ok none
  | _ => .ok none

/-- The universe does not restrict a conjunction. -/
def intersectUniverse : Option (List Symbol) → Option (List Symbol) → Option (List Symbol)
  | none, b => b
  | a, none => a
  | some a, some b => some (SequenceUtils.intersect [a,b])

theorem one_lt_of_ne {n : Nat} (h₀ : n ≠ 0) (h₁ : n ≠ 1) : 1 < n := by omega

def lookUp : {t : SqlType S.Base} → RowExpression S t → Except Failure (Option (List Symbol))
  | _, .comparison operator _ _ left right => lookUpAll indices left (.call (.comparison operator) right)
  | _, .not argument => lookUpAll indices argument .incomplete
  | _, .cast _ _ argument => lookUpAll indices argument .incomplete
  | _, .betweenCall _ _ value low _ => lookUpAll indices value (.call (.other .operator) low)
  | _, @RowExpression.call _ n _ _ function arguments =>
    if h₀ : n = 0 then .error (.thrown "IndexOutOfBoundsException")
    else if h₁ : n = 1 then lookUpAll indices (arguments ⟨0,Nat.pos_of_ne_zero h₀⟩) .incomplete
    else lookUpAll indices (arguments ⟨0,Nat.pos_of_ne_zero h₀⟩)
      (.call (.other (M.handle function)) (arguments ⟨1,one_lt_of_ne h₀ h₁⟩))
  | _, .isIn _ _ target values => lookUpAll indices target (.isIn (List.ofFn values))
  | _, .between _ _ value low high => lookUpAll indices value (.between low high)
  | _, .logical .and left right => do
    let iteratorAnd1 ← lookUp left
    let iteratorAnd2 ← lookUp right
    pure (intersectUniverse iteratorAnd1 iteratorAnd2)
  | _, .logical .or left right => do
    match ← lookUp left, ← lookUp right with
    | some iteratorOr1, some iteratorOr2 => pure (some (SequenceUtils.union [iteratorOr1,iteratorOr2]))
    | _, _ => .error (.thrown "IndexLookUpException")
  | _, _ => .error (.thrown "IndexLookUpException")

end

/-- A symbol of an index names a stripe by its file and its ends. -/
structure LookUpResult (Path : Type) where
  filepath : Path
  stripe : Int × Int

/-- An index as it was loaded: the partition it is for, or none for the whole table, and the newest time of
modification it has seen. -/
structure IndexMetadata (M : ObjectModel S) (c : M.Class) (Path Partition : Type) where
  partitionKey : Option Partition
  maxModifiedTime : Int
  index : BTreeIndex M c (LookUpResult Path)

structure Split (Path Partition : Type) where
  filePath : Path
  partitionKey : Option Partition
  lastModifiedTime : Int
  startIndex : Int
  endIndex : Int

variable {Path Partition : Type} [DecidableEq Path] [DecidableEq Partition]

abbrev Indices (M : ObjectModel S) (columns : Columns S) (Path Partition : Type) :=
  (name : String) → List (IndexMetadata M (M.classOf (columns name)) Path Partition)

/-- A later index overwrites the time of an earlier one of the same partition, whatever their columns. -/
def indexMaxLastUpdated (referencedColumns : List String) (allIndices : Indices M columns Path Partition) :
    AList fun _ : Option Partition => Int :=
  referencedColumns.foldl (fun updated name =>
    (allIndices name).foldl (fun updated index => updated.insert index.partitionKey index.maxModifiedTime) updated) ∅

/-- The time that counts for a partition: that of its own indexes, or that of the table-level indexes if
there are no others. -/
def indexLastModifiedTime (updated : AList fun _ : Option Partition => Int) (partitionKey : Option Partition) : Option Int :=
  match updated.lookup partitionKey with
  | some time => some time
  | none => if updated.entries.length = 1 then updated.lookup none else none

variable (results : List (LookUpResult Path))

/-- The stripes of a file among the results, sorted by their starts. -/
def stripesOf (filePath : Path) : List (Int × Int) :=
  ((results.filter fun result => decide (result.filepath = filePath)).map LookUpResult.stripe).mergeSort
    fun a b => decide (a.1 ≤ b.1)

def keepsSplit (time : Option Int) (split : Split Path Partition) : Except Failure Bool :=
  match time with
  | none => .ok true
  | some time =>
    if split.lastModifiedTime > time then .ok true
    else if stripesOf results split.filePath = [] then .ok false
    else (RangeSearch.rangeSearch (stripesOf results split.filePath) (split.startIndex,split.endIndex)).mapError .thrown

def filterSplits (results : List (LookUpResult Path)) (time : Option Int) :
    List (Split Path Partition) → Except Failure (List (Split Path Partition))
  | [] => .ok []
  | split :: splits => do
    let kept ← keepsSplit results time split
    let filteredSplits ← filterSplits results time splits
    pure (if kept then split :: filteredSplits else filteredSplits)

/-- The splits are filtered partition by partition. -/
def filterPartitions (results : List (LookUpResult Path)) (updated : AList fun _ : Option Partition => Int)
    (inputSplits : List (Split Path Partition)) : List (Option Partition) → Except Failure (List (Split Path Partition))
  | [] => .ok []
  | partitionKey :: partitions => do
    let partitionSplits := inputSplits.filter fun split => decide (split.partitionKey = partitionKey)
    let kept ← filterSplits results (indexLastModifiedTime updated partitionKey) partitionSplits
    let filteredSplits ← filterPartitions results updated inputSplits partitions
    pure (kept ++ filteredSplits)

variable [LinearOrder (LookUpResult Path)] (expression : RowExpression S .boolean)

variable (inputSplits : List (Split Path Partition))

/-- The body of the `try`; a look-up that gives the universe is an exception too. -/
def tryFilter (referencedColumns : List String) (allIndices : Indices M columns Path Partition) :
    Except Failure (List (Split Path Partition)) := do
  let indices : BTrees M columns (LookUpResult Path) := fun name =>
    if name ∈ referencedColumns then some ((allIndices name).map IndexMetadata.index) else none
  match ← lookUp indices expression with
  | none => .error (.thrown "IndexLookUpException")
  | some results =>
    filterPartitions results (indexMaxLastUpdated referencedColumns allIndices) inputSplits
      (inputSplits.map Split.partitionKey).dedup

def filterUsingInvertedIndex
    (referencedColumns : List String) (allIndices : Indices M columns Path Partition) : List (Split Path Partition) :=
  match tryFilter expression inputSplits referencedColumns allIndices with
  | .ok filteredSplits => filteredSplits
  | .error _ => inputSplits

end HetuCore.HeuristicIndex.InvertedFilter
