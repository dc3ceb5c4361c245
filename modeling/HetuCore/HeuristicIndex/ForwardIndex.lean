import HetuCore.HeuristicIndex.ActualValue
import HetuCore.HeuristicIndex.BloomFilter

namespace HetuCore.HeuristicIndex
open HetuCore.Relation

/-- The sizes of bloom filters, and the hash of their entries. -/
structure BloomConfig where
  numHashFunctions : Nat
  numBits : Nat
  hash64 : String → BitVec 64

variable {S : Signature}

inductive Callee
  | comparison (operator : ComparisonOperator)
  | other (handle : FunctionHandle)
deriving DecidableEq

/-- The least and the greatest value, both null until there is one. -/
structure MinMaxIndex (M : ObjectModel S) (c : M.Class) where
  bounds : Option (M.Object c × M.Object c)

namespace MinMaxIndex
variable {M : ObjectModel S} {c : M.Class}

def addValue (index : MinMaxIndex M c) (value : M.Object c) : MinMaxIndex M c :=
  match index.bounds with
  | none => ⟨some (value,value)⟩
  | some (min,max) =>
    ⟨some (if M.rank value < M.rank min then value else min,if M.rank max < M.rank value then value else max)⟩

def addValues (values : List (Option (M.Object c))) : MinMaxIndex M c :=
  values.foldl (fun index v => match v with
    | none => index
    | some value => index.addValue value) ⟨none⟩

/-- The tests of the operators; the others are not supported. -/
def test (index : MinMaxIndex M c) (operator : ComparisonOperator) (value : Option M.AnyObject) : Except Failure Bool :=
  let compare (other : Option (M.Object c)) : Except Failure Ordering :=
    match value with
    | none => .error (.thrown "NullPointerException")
    | some value => M.compareTo value other
  let min := index.bounds.map Prod.fst
  let max := index.bounds.map Prod.snd
  match operator with
  | .equal => do
    if (← compare min) = .lt then pure false else pure ((← compare max) != .gt)
  | .lessThan => do pure ((← compare min) == .gt)
  | .lessThanOrEqual => do pure ((← compare min) != .lt)
  | .greaterThan => do pure ((← compare max) == .lt)
  | .greaterThanOrEqual => do pure ((← compare max) != .gt)
  | .notEqual => .error .unsupported
  | .isDistinctFrom => .error .unsupported

def «matches» (index : MinMaxIndex M c) (callee : Callee) {t : SqlType S.Base} (right : RowExpression S t) : Except Failure Bool :=
  match callee with
  | .other .external => .error .unsupported
  | .other .builtIn => .ok true
  | .other .operator => do
    let _ ← M.extractValueFromRowExpression right
    .error .unsupported
  | .comparison operator => do
    let value ← M.extractValueFromRowExpression right
    index.test operator value

end MinMaxIndex

namespace BloomIndex
variable (config : BloomConfig) {M : ObjectModel S} {c : M.Class}

def addValues (values : List (Option (M.Object c))) : BloomFilter :=
  values.foldl (fun filter v => match v with
    | none => filter
    | some value => filter.addHash (config.hash64 (M.text value))) ⟨config.numHashFunctions,config.numBits,∅⟩

/-- The value is taken from the call even if the operator does not ask for it. -/
def «matches» (M : ObjectModel S) (filter : BloomFilter) (callee : Callee) {t : SqlType S.Base} (right : RowExpression S t) :
    Except Failure Bool :=
  match callee with
  | .other .external => .error .unsupported
  | callee => do
    let value ← M.extractValueFromRowExpression right
    if callee = .comparison .equal then
      match value with
      | none => .error (.thrown "NullPointerException")
      | some object => .ok (filter.testHash (config.hash64 (M.text object.2)))
    else .ok true

end BloomIndex

/-- The kinds of forward indexes, in the order in which they are asked. -/
inductive IndexKind
  | minMax
  | bloom
deriving DecidableEq, Repr

inductive ForwardIndex (M : ObjectModel S) (c : M.Class)
  | minMax (index : MinMaxIndex M c)
  | bloom (filter : BloomFilter)

namespace ForwardIndex
variable (config : BloomConfig) {M : ObjectModel S} {c : M.Class}

def getId : ForwardIndex M c → IndexKind
  | .minMax _ => .minMax
  | .bloom _ => .bloom

def «matches» (index : ForwardIndex M c) (callee : Callee) {t : SqlType S.Base} (right : RowExpression S t) : Except Failure Bool :=
  match index with
  | .minMax index => index.matches callee right
  | .bloom filter => BloomIndex.matches config M filter callee right

end ForwardIndex

abbrev Columns (S : Signature) := String → SqlType S.Base

structure IndexMetadata (M : ObjectModel S) (c : M.Class) where
  splitStart : Int
  index : ForwardIndex M c

abbrev Indices (M : ObjectModel S) (columns : Columns S) :=
  (name : String) → Option (List (IndexMetadata M (M.classOf (columns name))))

namespace HeuristicIndexFilter
variable (config : BloomConfig) {M : ObjectModel S} {columns : Columns S} (indices : Indices M columns)

/-- One index that matches or cannot decide is enough. -/
def matchLoop {c : M.Class} (callee : Callee) {t : SqlType S.Base} (right : RowExpression S t) :
    List (IndexMetadata M c) → Except Failure Bool
  | [] => .ok false
  | indexMetadata :: selectedIndices =>
    match indexMetadata.index.matches config callee right with
    | .ok true => .ok true
    | .ok false => matchLoop callee right selectedIndices
    | .error .unsupported => .ok true
    | .error (.thrown exception) => .error (.thrown exception)

/-- A call with two operands. -/
def matchAny {s t : SqlType S.Base} (varRef : RowExpression S s) (callee : Callee) (right : RowExpression S t) :
    Except Failure Bool :=
  match varRef with
  | .variable _ columnName =>
    match indices columnName with
    | none => .ok true
    | some [] => .ok true
    | some selectedIndices => matchLoop config callee right selectedIndices
  | _ => .ok true

/-- IN is the first of the equalities that matches. -/
def matchIn {s t : SqlType S.Base} (varRef : RowExpression S s) : List (RowExpression S t) → Except Failure Bool
  | [] => .ok false
  | exp :: exps => do
    if ← matchAny config indices varRef (.comparison .equal) exp then pure true else matchIn varRef exps

def «matches» : {t : SqlType S.Base} → RowExpression S t → Except Failure Bool
  | _, .comparison operator _ _ left right => matchAny config indices left (.comparison operator) right
  | _, @RowExpression.call _ n _ _ function arguments =>
    if h : n = 2 then
      matchAny config indices (arguments ⟨0,zero_lt_of_two h⟩) (.other (M.handle function))
        (arguments ⟨1,one_lt_of_two h⟩)
    else .ok true
  | _, .between _ _ value low high => do
    if ← matchAny config indices value (.comparison .greaterThanOrEqual) low then
      matchAny config indices value (.comparison .lessThanOrEqual) high
    else pure false
  | _, .isIn _ _ target values => matchIn config indices target (List.ofFn values)
  | _, .logical .and left right => do
    if ← «matches» left then «matches» right else pure false
  | _, .logical .or left right => do
    if ← «matches» left then pure true else «matches» right
  | _, _ => .ok true

end HeuristicIndexFilter
end HetuCore.HeuristicIndex
