import HetuCore.HeuristicIndex.ForwardIndex

namespace HetuCore.HeuristicIndex
open HetuCore.Relation
variable {S : Signature}

/-- The keys in the order of their class, each with its symbols. -/
structure BTreeIndex (M : ObjectModel S) (c : M.Class) (Symbol : Type) where
  dataMap : List (M.Object c × List Symbol)
  ascending : dataMap.Pairwise fun a b => M.rank a.1 < M.rank b.1

namespace BTreeIndex
variable {M : ObjectModel S} {c : M.Class} {Symbol : Type} (index : BTreeIndex M c Symbol)

def firstKey : Except Failure (M.Object c) :=
  match index.dataMap.head? with
  | some entry => .ok entry.1
  | none => .error (.thrown "NoSuchElementException")

def lastKey : Except Failure (M.Object c) :=
  match index.dataMap.getLast? with
  | some entry => .ok entry.1
  | none => .error (.thrown "NoSuchElementException")

/-- The map compares a key by its comparator, which is for objects of the class only. -/
def comparable (c : M.Class) (key : Option M.AnyObject) : Except Failure (M.Object c) :=
  match key with
  | none => .error (.thrown "NullPointerException")
  | some object => if h : object.1 = c then .ok (h ▸ object.2) else .error (.thrown "ClassCastException")

def get (key : M.Object c) : List (List Symbol) :=
  (index.dataMap.filter fun entry => decide (M.rank entry.1 = M.rank key)).map Prod.snd

/-- The values of the keys of a range; a look-up that returns too much is given up. -/
def rangeLookUp (low : M.Object c) (fromInclusive : Bool) (high : M.Object c) (toInclusive : Bool) :
    Except Failure (List (List Symbol)) :=
  if M.rank high < M.rank low then .ok []
  else
    let values := (index.dataMap.filter fun entry =>
      (decide (M.rank low < M.rank entry.1) || fromInclusive && decide (M.rank low = M.rank entry.1)) &&
        (decide (M.rank entry.1 < M.rank high) || toInclusive && decide (M.rank entry.1 = M.rank high))).map Prod.snd
    if values.length > 10000 ∧ index.dataMap.length ≤ 10 * values.length then .error (.thrown "IndexLookUpException")
    else .ok values

/-- What a look-up may be asked: a call with its second operand, BETWEEN, IN, or a call without a second
operand. -/
inductive Query (S : Signature)
  | call (callee : Callee) {t : SqlType S.Base} (right : RowExpression S t)
  | between {t : SqlType S.Base} (low high : RowExpression S t)
  | isIn {t : SqlType S.Base} (values : List (RowExpression S t))
  | incomplete

def lookUpComparison (operator : ComparisonOperator) (key : Option M.AnyObject) : Except Failure (List (List Symbol)) :=
  match operator with
  | .equal => do
    let key ← comparable c key
    pure (index.get key)
  | .lessThan => do
    let low ← index.firstKey
    let key ← comparable c key
    index.rangeLookUp low true key false
  | .lessThanOrEqual => do
    let low ← index.firstKey
    let key ← comparable c key
    index.rangeLookUp low true key true
  | .greaterThan => do
    let high ← index.lastKey
    let key ← comparable c key
    index.rangeLookUp key false high true
  | .greaterThanOrEqual => do
    let high ← index.lastKey
    let key ← comparable c key
    index.rangeLookUp key true high true
  | .notEqual => .error .unsupported
  | .isDistinctFrom => .error .unsupported

/-- A built-in function that is not an operator finds nothing. -/
def lookUpCall (callee : Callee) (key : Option M.AnyObject) : Except Failure (List (List Symbol)) :=
  match callee with
  | .other .external => .error .unsupported
  | .other .builtIn => .ok []
  | .other .operator => .error .unsupported
  | .comparison operator => index.lookUpComparison operator key

def lookUpResults (query : Query S) : Except Failure (List (List Symbol)) :=
  match query with
  | .call callee right => do
    let key ← M.extractValueFromRowExpression right
    index.lookUpCall callee key
  | .between low high => do
    let left ← M.extractValueFromRowExpression low
    let right ← M.extractValueFromRowExpression high
    let left ← comparable c left
    let right ← comparable c right
    index.rangeLookUp left true right true
  | .isIn values => do
    let found ← values.mapM fun exp => do
      let key ← M.extractValueFromRowExpression exp
      let key ← comparable c key
      pure (index.get key)
    pure found.flatten
  | .incomplete => .error (.thrown "IndexOutOfBoundsException")

/-- The symbols of the values found, each once and in order. -/
def lookUp [LinearOrder Symbol] (query : Query S) : Except Failure (List Symbol) := do
  let lookUpResults ← index.lookUpResults query
  pure (lookUpResults.flatten.dedup.mergeSort fun a b => decide (a ≤ b))

end BTreeIndex
end HetuCore.HeuristicIndex
