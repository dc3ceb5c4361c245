import HetuCore.Foundation.Kleene
import HetuCore.Predicate.ValueSet

namespace HetuCore.Relation
open Foundation Predicate ColumnType

theorem zero_lt_of_two {n : Nat} (h : n = 2) : 0 < n := h ▸ Nat.two_pos

theorem one_lt_of_two {n : Nat} (h : n = 2) : 1 < n := h ▸ Nat.one_lt_two

inductive SqlType (Base : Type)
  | boolean
  | other (base : Base)

/-- The types of a query besides BOOLEAN and the functions it may call besides `not`, the comparison
operators, BETWEEN and casts. -/
structure Signature where
  Base : Type
  base : Base → ColumnType
  Function : {n : Nat} → (Fin n → SqlType Base) → SqlType Base → Type
  displayName : {n : Nat} → {ts : Fin n → SqlType Base} → {t : SqlType Base} → Function ts t → String
  deterministic : {n : Nat} → {ts : Fin n → SqlType Base} → {t : SqlType Base} → Function ts t → Bool

namespace Signature

abbrev columnType (S : Signature) : SqlType S.Base → ColumnType
  | .boolean => .orderable Bool
  | .other b => S.base b

abbrev Value (S : Signature) (t : SqlType S.Base) : Type := (S.columnType t).Value

end Signature

/-- The operators for which `OperatorType.isComparisonOperator` holds. -/
inductive ComparisonOperator
  | equal
  | notEqual
  | lessThan
  | lessThanOrEqual
  | greaterThan
  | greaterThanOrEqual
  | isDistinctFrom
deriving DecidableEq, Repr

namespace ComparisonOperator

def name : ComparisonOperator → String
  | equal => "EQUAL"
  | notEqual => "NOT_EQUAL"
  | lessThan => "LESS_THAN"
  | lessThanOrEqual => "LESS_THAN_OR_EQUAL"
  | greaterThan => "GREATER_THAN"
  | greaterThanOrEqual => "GREATER_THAN_OR_EQUAL"
  | isDistinctFrom => "IS_DISTINCT_FROM"

/-- An operator the type defines: all of them if it is orderable, the equalities if it is comparable. -/
def Supports : ComparisonOperator → ColumnType → Prop
  | _, @orderable _ _ => True
  | equal, @comparable _ _ _ => True
  | notEqual, @comparable _ _ _ => True
  | isDistinctFrom, @comparable _ _ _ => True
  | _, _ => False

/-- `null` for an operator whose negation is not a comparison operator. -/
def negate : ComparisonOperator → Option ComparisonOperator
  | equal => some notEqual
  | notEqual => some equal
  | greaterThan => some lessThanOrEqual
  | lessThan => some greaterThanOrEqual
  | lessThanOrEqual => some greaterThan
  | greaterThanOrEqual => some lessThan
  | isDistinctFrom => none

def flip : ComparisonOperator → ComparisonOperator
  | equal => equal
  | notEqual => notEqual
  | lessThan => greaterThan
  | lessThanOrEqual => greaterThanOrEqual
  | greaterThan => lessThan
  | greaterThanOrEqual => lessThanOrEqual
  | isDistinctFrom => isDistinctFrom

def holds : ComparisonOperator → {t : ColumnType} → t.Value → t.Value → Bool
  | equal, @orderable _ _, v, w => decide (v = w)
  | notEqual, @orderable _ _, v, w => decide (v ≠ w)
  | lessThan, @orderable _ _, v, w => decide (v < w)
  | lessThanOrEqual, @orderable _ _, v, w => decide (v ≤ w)
  | greaterThan, @orderable _ _, v, w => decide (w < v)
  | greaterThanOrEqual, @orderable _ _, v, w => decide (w ≤ v)
  | isDistinctFrom, @orderable _ _, v, w => decide (v ≠ w)
  | equal, @comparable _ _ _, v, w => decide (v = w)
  | notEqual, @comparable _ _ _, v, w => decide (v ≠ w)
  | isDistinctFrom, @comparable _ _ _, v, w => decide (v ≠ w)
  | _, _, _, _ => false

/-- The operator on nullable values: only IS DISTINCT FROM sees a NULL. -/
def evaluate (operator : ComparisonOperator) {t : ColumnType} (left right : Option t.Value) : Kleene :=
  match operator, left, right with
  | _, some v, some w => some (operator.holds v w)
  | isDistinctFrom, none, none => some false
  | isDistinctFrom, _, _ => some true
  | _, _, _ => none

variable {operator negated : ComparisonOperator} {t : ColumnType}

theorem supports_negate (h : operator.negate = some negated) : operator.Supports t → negated.Supports t := by
  intro hs
  cases operator <;> cases h <;> cases t <;> exact hs

theorem supports_flip {operator : ComparisonOperator} (hs : operator.Supports t) : operator.flip.Supports t := by
  cases operator <;> cases t <;> exact hs

theorem holds_negate (h : operator.negate = some negated) (hs : operator.Supports t) (v w : t.Value) :
    negated.holds v w = !operator.holds v w := by
  cases t with
  | orderable α =>
    have hlt : ∀ a b : α, decide (b ≤ a) = !decide (a < b) := fun a b => by rw [← decide_not,decide_eq_decide,not_lt]
    have hle : ∀ a b : α, decide (b < a) = !decide (a ≤ b) := fun a b => by rw [← decide_not,decide_eq_decide,not_le]
    cases operator <;> cases h <;> first | exact hlt _ _ | exact hle _ _ | simp [holds]
  | comparable α => cases operator <;> cases h <;> simp [holds] <;> exact hs.elim
  | incomparable α => cases operator <;> exact hs.elim

theorem holds_flip (operator : ComparisonOperator) (v w : t.Value) : operator.flip.holds w v = operator.holds v w := by
  cases t <;> cases operator <;> simp [holds,flip,eq_comm]

theorem evaluate_negate (h : operator.negate = some negated) (hs : operator.Supports t) (left right : Option t.Value) :
    negated.evaluate left right = (operator.evaluate left right).not := by
  cases left with
  | none => cases operator <;> cases h <;> rfl
  | some v =>
    cases right with
    | none => cases operator <;> cases h <;> rfl
    | some w =>
      have hv := congrArg some (holds_negate h hs v w)
      cases operator <;> cases h <;> exact hv

theorem evaluate_flip (operator : ComparisonOperator) (left right : Option t.Value) :
    operator.flip.evaluate right left = operator.evaluate left right := by
  cases left with
  | none => cases right <;> cases operator <;> rfl
  | some v =>
    cases right with
    | none => cases operator <;> rfl
    | some w =>
      have hv := congrArg some (holds_flip operator v w)
      cases operator <;> exact hv

end ComparisonOperator

/-- The special forms that no modelled transformation looks into. -/
inductive OtherForm
  | ifForm
  | nullIf
  | switch
  | when
  | coalesce
  | dereference
  | rowConstructor
  | bind
  | betweenAnd
deriving DecidableEq, Repr

/-- An expression of type `t`; operands have the types their operator asks for. -/
inductive RowExpression (S : Signature) : SqlType S.Base → Type
  | constant (t : SqlType S.Base) (value : Option (S.Value t)) : RowExpression S t
  | variable (t : SqlType S.Base) (name : String) : RowExpression S t
  | not (argument : RowExpression S .boolean) : RowExpression S .boolean
  | comparison (operator : ComparisonOperator) (t : SqlType S.Base) (supported : operator.Supports (S.columnType t))
      (left right : RowExpression S t) : RowExpression S .boolean
  | betweenCall (t : SqlType S.Base) (supported : ComparisonOperator.lessThan.Supports (S.columnType t))
      (value low high : RowExpression S t) : RowExpression S .boolean
  | cast (s t : SqlType S.Base) (argument : RowExpression S s) : RowExpression S t
  | call {n : Nat} {ts : Fin n → SqlType S.Base} {t : SqlType S.Base} (function : S.Function ts t)
      (arguments : (i : Fin n) → RowExpression S (ts i)) : RowExpression S t
  | logical (form : Joiner) (left right : RowExpression S .boolean) : RowExpression S .boolean
  | isIn (t : SqlType S.Base) (supported : ComparisonOperator.equal.Supports (S.columnType t))
      (target : RowExpression S t) {n : Nat} (values : Fin (n + 1) → RowExpression S t) : RowExpression S .boolean
  | isNull (t : SqlType S.Base) (value : RowExpression S t) : RowExpression S .boolean
  | between (t : SqlType S.Base) (supported : ComparisonOperator.lessThan.Supports (S.columnType t))
      (value low high : RowExpression S t) : RowExpression S .boolean
  | special (form : OtherForm) {n : Nat} {ts : Fin n → SqlType S.Base} {t : SqlType S.Base}
      (arguments : (i : Fin n) → RowExpression S (ts i)) : RowExpression S t

/-- The meaning of what a signature leaves open: functions, special forms and casts of non-null values. -/
structure Interpretation (S : Signature) where
  call : {n : Nat} → {ts : Fin n → SqlType S.Base} → {t : SqlType S.Base} → S.Function ts t →
    ((i : Fin n) → Option (S.Value (ts i))) → Option (S.Value t)
  special : OtherForm → {n : Nat} → {ts : Fin n → SqlType S.Base} → {t : SqlType S.Base} →
    ((i : Fin n) → Option (S.Value (ts i))) → Option (S.Value t)
  cast : (s t : SqlType S.Base) → S.Value s → S.Value t

def Row (S : Signature) := (t : SqlType S.Base) → String → Option (S.Value t)

namespace RowExpression
variable {S : Signature}

def evaluateBetween {t : ColumnType} (value low high : Option t.Value) : Kleene :=
  Joiner.and.join (ComparisonOperator.greaterThanOrEqual.evaluate value low)
    (ComparisonOperator.lessThanOrEqual.evaluate value high)

def eval (I : Interpretation S) (row : Row S) : {t : SqlType S.Base} → RowExpression S t → Option (S.Value t)
  | _, .constant _ value => value
  | _, .variable t name => row t name
  | _, .not argument => Kleene.not (eval I row argument)
  | _, .comparison operator _ _ left right => operator.evaluate (eval I row left) (eval I row right)
  | _, .betweenCall _ _ value low high => evaluateBetween (eval I row value) (eval I row low) (eval I row high)
  | _, .cast s t argument => (eval I row argument).map (I.cast s t)
  | _, .call function arguments => I.call function fun i => eval I row (arguments i)
  | _, .logical form left right => form.join (α := Kleene) (eval I row left) (eval I row right)
  | _, .isIn _ _ target values => Joiner.or.combine (α := Kleene) (List.ofFn fun i =>
      ComparisonOperator.equal.evaluate (eval I row target) (eval I row (values i)))
  | _, .isNull _ value => some (eval I row value).isNone
  | _, .between _ _ value low high => evaluateBetween (eval I row value) (eval I row low) (eval I row high)
  | _, .special form arguments => I.special form fun i => eval I row (arguments i)

/-- The three-valued truth of a predicate on a row. -/
def truth (I : Interpretation S) (row : Row S) (e : RowExpression S .boolean) : Kleene := eval I row e

end RowExpression
end HetuCore.Relation
