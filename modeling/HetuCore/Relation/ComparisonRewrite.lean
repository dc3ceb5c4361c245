import HetuCore.Relation.ComparisonDomain
import HetuCore.Relation.RowExpressionInterpreter

/-! Comparisons of an implicitly cast operand with a value, rewritten to the operand's own type, and
the bound that lets the visitor end. -/
namespace HetuCore.Relation
open Foundation Predicate LogicalRowExpressions RowExpressionInterpreter ComparisonOperator List

namespace RowExpressionDomainTranslator
variable {S : Signature} {I : Interpretation S} (M : Metadata I)

structure NormalizedSimpleComparison (S : Signature) (t : SqlType S.Base) where
  expression : RowExpression S t
  operator : ComparisonOperator
  value : Option (S.Value t)

/-- Exactly one side is a value; it is taken to the right. -/
def toNormalizedSimpleComparison (operator : ComparisonOperator) {t : SqlType S.Base}
    (left right : RowExpression S t) : Option (NormalizedSimpleComparison S t) :=
  match optimize M left, optimize M right with
  | none, some value => some ⟨left,operator,value⟩
  | some value, none => some ⟨right,operator.flip,value⟩
  | _, _ => none

/-- `originalValueType.compareTo`, defined for orderable types. -/
def compareTo : {t : ColumnType} → t.Value → t.Value → Ordering
  | @ColumnType.orderable _ _, v, w => compare v w
  | _, _, _ => .eq

theorem supports_all {t : ColumnType} (h : lessThan.Supports t) (operator : ComparisonOperator) :
    operator.Supports t := by
  cases t with
  | orderable α => cases operator <;> trivial
  | comparable α | incomparable α => exact h.elim

/-- The comparison with the coerced value that the comparison with the original value amounts to. -/
def rewriteComparisonExpression {s : SqlType S.Base} (orderable : lessThan.Supports (S.columnType s))
    (expression : RowExpression S s) (originalComparedToCoerced : Ordering) (coercedValue : S.Value s)
    (comparisonOperator : ComparisonOperator) : RowExpression S .boolean :=
  let binaryOperator (operator : ComparisonOperator) : RowExpression S .boolean :=
    .comparison operator s (supports_all orderable operator) expression (.constant s (some coercedValue))
  match comparisonOperator, originalComparedToCoerced with
  | .greaterThanOrEqual, .lt => binaryOperator .greaterThanOrEqual
  | .greaterThan, .lt => binaryOperator .greaterThanOrEqual
  | .greaterThanOrEqual, .gt => binaryOperator .greaterThan
  | .greaterThan, .gt => binaryOperator .greaterThan
  | .lessThanOrEqual, .gt => binaryOperator .lessThanOrEqual
  | .lessThan, .gt => binaryOperator .lessThanOrEqual
  | .lessThanOrEqual, .lt => binaryOperator .lessThan
  | .lessThan, .lt => binaryOperator .lessThan
  | operator, .eq => binaryOperator operator
  -- false, true or distinct for every non-null value
  | .equal, _ => and [binaryOperator .equal,binaryOperator .notEqual]
  | .notEqual, _ => or [binaryOperator .equal,binaryOperator .notEqual]
  | .isDistinctFrom, _ => TRUE_CONSTANT

/-- One cast is peeled off the expression side with the saturated floor of the value. -/
def coerceComparisonWithRounding {s t : SqlType S.Base} (coercion : M.canCoerce s t = true)
    (expression : RowExpression S s) (value : Option (S.Value t)) (comparisonOperator : ComparisonOperator) :
    Option (RowExpression S .boolean) :=
  match value with
  | none => none
  | some originalValue =>
    match h : M.saturatedFloorCast t s with
    | none => none
    | some floorValue => some (rewriteComparisonExpression (M.floor_spec coercion h).source expression
        (compareTo originalValue (I.cast s t (floorValue originalValue))) (floorValue originalValue) comparisonOperator)

def complementIfNecessary (expression : RowExpression S .boolean) (complement : Bool) : RowExpression S .boolean :=
  if complement then .not expression else expression

/-- How often the visitor can peel a cast off an operand. -/
def castDepth : {t : SqlType S.Base} → RowExpression S t → Nat
  | _, .cast _ _ argument => castDepth argument + 1
  | _, _ => 0

/-- The bound for a comparison of operands with so many casts. -/
def comparisonWeight (left right : Nat) : Nat := 3 ^ (left + right + 1)

/-- A bound for the expressions the visitor goes through; IN, BETWEEN and a coerced comparison are
visited as the logical expression they are rewritten to. -/
def weight : {t : SqlType S.Base} → RowExpression S t → Nat
  | _, .not argument => weight argument + 1
  | _, .comparison _ _ _ left right => comparisonWeight (castDepth left) (castDepth right)
  | _, .betweenCall _ _ value low high =>
    comparisonWeight (castDepth value) (castDepth low) + comparisonWeight (castDepth value) (castDepth high) + 2
  | _, .logical _ left right => weight left + weight right + 1
  | _, .isIn _ _ target values => (ofFn fun i => comparisonWeight (castDepth target) (castDepth (values i)) + 1).sum
  | _, .between _ _ value low high =>
    comparisonWeight (castDepth value) (castDepth low) + comparisonWeight (castDepth value) (castDepth high) + 2
  | _, _ => 0

theorem binaryExpression_pair (form : Joiner) (left right : RowExpression S .boolean) :
    binaryExpression form [left,right] = .logical form left right := by
  rw [binaryExpression,combinePairs,combinePairs,binaryExpression]
  rintro _ _ _ ⟨⟩

private theorem sum_weight_combinePairs (form : Joiner) : (queue : List (RowExpression S .boolean)) →
    ((combinePairs form queue).map fun e => weight e + 1).sum = (queue.map fun e => weight e + 1).sum
  | [] | [_] => by simp only [combinePairs]
  | left :: right :: queue => by
    have ih := sum_weight_combinePairs form queue
    simp only [combinePairs,map_cons,sum_cons,weight,ih]
    omega

theorem weight_binaryExpression (form : Joiner) (expressions : List (RowExpression S .boolean)) (hne : expressions ≠ []) :
    weight (binaryExpression form expressions) < (expressions.map fun e => weight e + 1).sum := by
  induction expressions using binaryExpression.induct with
  | form => exact form
  | case1 => exact absurd rfl hne
  | case2 expression => simp [binaryExpression]
  | case3 left right queue ih =>
    rw [binaryExpression,← sum_weight_combinePairs]
    exact ih (by rw [combinePairs]; exact cons_ne_nil _ _)

variable {s : SqlType S.Base}

theorem weight_rewritten (orderable : lessThan.Supports (S.columnType s))
    (expression : RowExpression S s) (ordering : Ordering) (coercedValue : S.Value s) (operator : ComparisonOperator) :
    weight (rewriteComparisonExpression orderable expression ordering coercedValue operator) <
      3 ^ (castDepth expression + 2) := by
  have hs : 3 ^ (castDepth expression + 1) < 3 ^ (castDepth expression + 2) :=
    Nat.pow_lt_pow_right (by omega) (by omega)
  have hp : 3 ^ (castDepth expression + 1) + 3 ^ (castDepth expression + 1) + 1 < 3 ^ (castDepth expression + 2) := by
    have hps : 0 < 3 ^ castDepth expression := Nat.pow_pos (by omega)
    rw [pow_succ,pow_succ]
    omega
  have hz : 0 < 3 ^ (castDepth expression + 2) := Nat.pow_pos (by omega)
  cases operator <;> cases ordering <;>
    simp only [rewriteComparisonExpression,LogicalRowExpressions.and,LogicalRowExpressions.or,binaryExpression_pair,
      weight,comparisonWeight,castDepth,add_zero,TRUE_CONSTANT] <;>
    first | exact hs | exact hp | exact hz

variable {M : Metadata I} {operator : ComparisonOperator} {coerced : RowExpression S .boolean} {t : SqlType S.Base}

variable {coercion : M.canCoerce s t = true}

theorem weight_coerced {expression : RowExpression S s}
    {value : Option (S.Value t)} (h : coerceComparisonWithRounding M coercion expression value operator = some coerced) :
    weight coerced < 3 ^ (castDepth expression + 2) := by
  unfold coerceComparisonWithRounding at h
  split at h
  case h_1 => cases h
  case h_2 =>
    split at h
    case h_1 => cases h
    case h_2 =>
      cases h
      exact weight_rewritten _ _ _ _ _

variable {normalized : NormalizedSimpleComparison S t}

theorem castDepth_normalized {left right : RowExpression S t}
    (h : toNormalizedSimpleComparison M operator left right = some normalized) :
    castDepth normalized.expression ≤ castDepth left + castDepth right := by
  rw [toNormalizedSimpleComparison] at h
  split at h
  case h_1 => cases h; exact Nat.le_add_right _ _
  case h_2 => cases h; exact Nat.le_add_left _ _
  case h_3 => cases h

theorem betweenFree_normalized {left right : RowExpression S t} (hl : left.betweenFree = true) (hr : right.betweenFree = true)
    (h : toNormalizedSimpleComparison M operator left right = some normalized) : normalized.expression.betweenFree = true := by
  rw [toNormalizedSimpleComparison] at h
  split at h
  case h_1 => cases h; exact hl
  case h_2 => cases h; exact hr
  case h_3 => cases h

theorem betweenFree_coerced {expression : RowExpression S s} {value : Option (S.Value t)} (hb : expression.betweenFree = true)
    (h : coerceComparisonWithRounding M coercion expression value operator = some coerced) : coerced.operandsBetweenFree = true := by
  unfold coerceComparisonWithRounding at h
  split at h
  case h_1 => cases h
  case h_2 =>
    split at h
    case h_1 => cases h
    case h_2 =>
      cases h
      cases operator <;>
        simp only [rewriteComparisonExpression,LogicalRowExpressions.and,LogicalRowExpressions.or,binaryExpression_pair] <;>
        split <;> simp [RowExpression.operandsBetweenFree,RowExpression.betweenFree,hb,TRUE_CONSTANT]

theorem weight_disjuncts (supported : equal.Supports (S.columnType t))
    (target : RowExpression S t) {n : Nat} (values : Fin (n + 1) → RowExpression S t) :
    weight (or (ofFn fun i => .comparison .equal t supported target (values i))) <
      weight (.isIn t supported target values) := by
  refine (weight_binaryExpression .or _ (by simp)).trans_eq ?_
  rw [map_ofFn]
  rfl

/-- The comparison left after a cast has been peeled off a normalized operand is smaller. -/
theorem weight_peeled {left right : RowExpression S t} {argument : RowExpression S s}
    (h : toNormalizedSimpleComparison M operator left right = some normalized)
    (he : normalized.expression = .cast s t argument)
    (hc : coerceComparisonWithRounding M coercion argument normalized.value normalized.operator = some coerced) :
    weight coerced < comparisonWeight (castDepth left) (castDepth right) := by
  have hd := castDepth_normalized h
  rw [he,castDepth] at hd
  refine (weight_coerced hc).trans_le (Nat.pow_le_pow_right (by omega) ?_)
  omega

end RowExpressionDomainTranslator
end HetuCore.Relation
