import HetuCore.Relation.RowExpression

namespace HetuCore.HeuristicIndex
open HetuCore.Relation

/-- What a call of an index may throw: the case its callers handle, or any other exception. -/
inductive Failure
  | unsupported
  | thrown (exception : String)
deriving DecidableEq, Repr

inductive FunctionHandle
  | operator
  | builtIn
  | external
deriving DecidableEq, Repr

/-- The classes of the objects, what their `compareTo` compares and what their `toString` prints; the
objects that stand for the values of a type; what `getActualValue` does with a NULL of the type; and how
a cast to the type reads the text of an object anew, as casts to REAL and DATE do. -/
structure ObjectModel (S : Signature) where
  Class : Type
  classEq : DecidableEq Class
  Object : Class → Type
  Rank : Class → Type
  rankOrder : (c : Class) → LinearOrder (Rank c)
  rank : {c : Class} → Object c → Rank c
  text : {c : Class} → Object c → String
  supported : SqlType S.Base → Bool
  classOf : SqlType S.Base → Class
  actual : (t : SqlType S.Base) → S.Value t → Object (classOf t)
  nullFailure : SqlType S.Base → Option String
  parse : SqlType S.Base → Option (String → Except String (Sigma Object))
  handle : {n : Nat} → {ts : Fin n → SqlType S.Base} → {t : SqlType S.Base} → S.Function ts t → FunctionHandle

namespace ObjectModel
variable {S : Signature} (M : ObjectModel S)

instance : DecidableEq M.Class := M.classEq
instance (c : M.Class) : LinearOrder (M.Rank c) := M.rankOrder c

abbrev AnyObject := Sigma M.Object

def getActualValue (t : SqlType S.Base) (value : Option (S.Value t)) : Except Failure (Option M.AnyObject) :=
  if M.supported t then
    match value, M.nullFailure t with
    | some v, _ => .ok (some ⟨M.classOf t,M.actual t v⟩)
    | none, some exception => .error (.thrown exception)
    | none, none => .ok none
  else .error .unsupported

theorem getActualValue_eq_some {t : SqlType S.Base} {value : Option (S.Value t)} {object : M.AnyObject}
    (h : M.getActualValue t value = .ok (some object)) : ∃ v, value = some v ∧ object = ⟨M.classOf t,M.actual t v⟩ := by
  rw [getActualValue.eq_def] at h
  split at h
  · cases value with
    | none =>
      cases hn : M.nullFailure t with
      | none | some exception => rw [hn] at h; cases h
    | some v => exact ⟨v,rfl,(Option.some.inj (Except.ok.inj h)).symm⟩
  · cases h

/-- The value of a constant under casts. A cast asks the object for its class, so it fails on NULL. -/
def extractValueFromRowExpression : {t : SqlType S.Base} → RowExpression S t → Except Failure (Option M.AnyObject)
  | _, .cast _ t argument => do
    match ← extractValueFromRowExpression argument with
    | none => .error (.thrown "NullPointerException")
    | some valueExtracted =>
      match M.parse t with
      | none => .ok (some valueExtracted)
      | some parse =>
        match parse (M.text valueExtracted.2) with
        | .ok object => .ok (some object)
        | .error exception => .error (.thrown exception)
  | _, .call function _ =>
    match M.handle function with
    | .external => .error (.thrown "ClassCastException")
    | _ => .error .unsupported
  | _, .constant t value => M.getActualValue t value
  | _, _ => .error .unsupported

/-- `value.compareTo(other)`, with a null for `other` if there is none. -/
def compareTo {c : M.Class} (value : M.AnyObject) (other : Option (M.Object c)) : Except Failure Ordering :=
  match other with
  | none => .error (.thrown "NullPointerException")
  | some object =>
    if h : value.1 = c then .ok (compare (M.rank (h ▸ value.2)) (M.rank object))
    else .error (.thrown "ClassCastException")

end ObjectModel
end HetuCore.HeuristicIndex
