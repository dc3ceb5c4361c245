import HetuCore.Relation.DomainTranslatorLaws

/-! Predicates over comparisons of variables with constants, read at a tuple of points of the value
spaces, and their exact extraction if every disjunction is over one column. -/
namespace HetuCore.Relation
open Foundation Predicate LogicalRowExpressions RowExpression RowExpressionDomainTranslator List

variable {S : Signature}

/-- NULL or a point of the value space for every variable. -/
abbrev PointRow (S : Signature) := (v : VariableReference S) → Option v.columnType.Point

variable (tuple : PointRow S)

/-- A comparison of a variable with a constant, in either order. -/
def comparisonAt (operator : ComparisonOperator) : {t : SqlType S.Base} →
    RowExpression S t → RowExpression S t → Kleene
  | t, .variable _ name, .constant _ value => operator.evaluateAt (tuple ⟨t,name⟩) value
  | t, .constant _ value, .variable _ name => operator.flip.evaluateAt (tuple ⟨t,name⟩) value
  | _, _, _ => none

def isNullAt : {t : SqlType S.Base} → RowExpression S t → Kleene
  | t, .variable _ name => some (tuple ⟨t,name⟩).isNone
  | _, _ => none

/-- The value at a tuple of points; NULL for what is not built from such comparisons. -/
def evalAt (tuple : PointRow S) : {t : SqlType S.Base} → RowExpression S t → Option (S.Value t)
  | _, .constant _ value => value
  | _, .not argument => Kleene.not (evalAt tuple argument)
  | _, .comparison operator _ _ left right => comparisonAt tuple operator left right
  | _, .logical form left right => form.join (α := Kleene) (evalAt tuple left) (evalAt tuple right)
  | _, .isIn _ _ operand values => Joiner.or.combine (α := Kleene)
      (ofFn fun i => comparisonAt tuple .equal operand (values i))
  | _, .isNull _ operand => isNullAt tuple operand
  | _, .between _ _ operand low high => Joiner.and.join (α := Kleene)
      (comparisonAt tuple .greaterThanOrEqual operand low) (comparisonAt tuple .lessThanOrEqual operand high)
  | _, _ => none

def truthAt (e : RowExpression S .boolean) : Kleene := evalAt tuple e

/-- The truth of predicates at a tuple of points. -/
def pointValuation : Valuation S where
  value := truthAt tuple
  value_not _ := rfl
  value_logical _ _ _ := rfl
  value_isIn _ _ _ _ := rfl
  value_between _ _ _ _ _ _ := rfl
  value_emptyConstant form := by cases form <;> rfl
  value_flip expression := by
    fun_cases flipOperatorFunctionWithOneVarOneConstant expression with
    | case1 operator t supported value name => rfl
    | case2 => rfl

/-- A predicate over one column. -/
inductive OverColumn (column : VariableReference S) : RowExpression S .boolean → Prop
  | constant (value : Bool) : OverColumn column (.constant .boolean (some value))
  | comparison (operator supported value) :
    OverColumn column (.comparison operator column.type supported (.variable column.type column.name) (.constant column.type value))
  | isNull : OverColumn column (.isNull column.type (.variable column.type column.name))
  | isIn (supported) {n : Nat} (values : Fin (n + 1) → Option (S.Value column.type)) :
    OverColumn column (.isIn column.type supported (.variable column.type column.name) fun i => .constant column.type (values i))
  | between (supported low high) :
    OverColumn column (.between column.type supported (.variable column.type column.name) (.constant column.type low) (.constant column.type high))
  | not {argument} (h : OverColumn column argument) : OverColumn column (.not argument)
  | logical (form) {left right} (hl : OverColumn column left) (hr : OverColumn column right) :
    OverColumn column (.logical form left right)

/-- A conjunction of predicates over one column each. -/
inductive Columnar : RowExpression S .boolean → Prop
  | column {column e} (h : OverColumn column e) : Columnar e
  | and {left right} (hl : Columnar left) (hr : Columnar right) : Columnar (.logical .and left right)

variable {e : RowExpression S .boolean}

namespace OverColumn
variable {column : VariableReference S}

theorem logical_iff (form : Joiner) (left right : RowExpression S .boolean) :
    OverColumn column (.logical form left right) ↔ OverColumn column left ∧ OverColumn column right := by
  refine ⟨fun h => ?_,fun h => .logical form h.1 h.2⟩
  cases h with
  | logical _ hl hr => exact ⟨hl,hr⟩

theorem flip (h : OverColumn column e) : OverColumn column (flipOperatorFunctionWithOneVarOneConstant e) := by
  have hs : flipOperatorFunctionWithOneVarOneConstant e = e := by cases h <;> rfl
  rwa [hs]

theorem emptyConstant (form : Joiner) : OverColumn column (emptyConstant form) := by
  cases form with
  | and => exact .constant true
  | or => exact .constant false

theorem truthAt_congr (h : OverColumn column e) {tuple tuple' : PointRow S}
    (hp : tuple column = tuple' column) : truthAt tuple e = truthAt tuple' e := by
  induction h with
  | constant value => rfl
  | comparison operator supported value => exact congrArg (fun x => operator.evaluateAt x value) hp
  | isNull => exact congrArg (fun x => some x.isNone) hp
  | isIn supported values => exact congrArg (fun x => Joiner.or.combine (α := Kleene)
      (ofFn fun i => ComparisonOperator.equal.evaluateAt x (values i))) hp
  | between supported low high => exact congrArg (fun x => Joiner.and.join (α := Kleene)
      (ComparisonOperator.greaterThanOrEqual.evaluateAt x low) (ComparisonOperator.lessThanOrEqual.evaluateAt x high)) hp
  | not _ ih => exact congrArg Kleene.not ih
  | logical form _ _ ihl ihr => exact congrArg₂ form.join ihl ihr

/-- A predicate over one column has the same truth on a row as at the points of its values. -/
theorem truth_eq {I : Interpretation S} (h : OverColumn column e) (row : Row S) : truth I row e = truthAt (points row) e := by
  have hc : ∀ operator value, ComparisonOperator.evaluate operator (row column.type column.name) value =
      operator.evaluateAt (points row column) value := fun operator value => (operator.evaluateAt_point _ value).symm
  induction h with
  | constant value => rfl
  | comparison operator supported value => exact hc operator value
  | isNull => exact congrArg some (Option.isNone_map).symm
  | isIn supported values => exact congrArg (fun values => Joiner.or.combine (α := Kleene) (ofFn values)) (funext fun i => hc _ _)
  | between supported low high => exact congrArg₂ (Joiner.and.join (α := Kleene)) (hc _ _) (hc _ _)
  | not _ ih => exact congrArg Kleene.not ih
  | logical form _ _ ihl ihr => exact congrArg₂ form.join ihl ihr

end OverColumn

namespace Columnar

theorem truth_eq {I : Interpretation S} (h : Columnar e) (row : Row S) : truth I row e = truthAt (points row) e := by
  induction h with
  | column h => exact h.truth_eq row
  | and _ _ ihl ihr => exact congrArg₂ (Joiner.and.join (α := Kleene)) ihl ihr

theorem and_iff (left right : RowExpression S .boolean) :
    Columnar (.logical .and left right) ↔ Columnar left ∧ Columnar right := by
  refine ⟨fun h => ?_,fun h => .and h.1 h.2⟩
  cases h with
  | column h => exact ((OverColumn.logical_iff .and left right).mp h).imp .column .column
  | and hl hr => exact ⟨hl,hr⟩

theorem flip (h : Columnar e) : Columnar (flipOperatorFunctionWithOneVarOneConstant e) := by
  cases h with
  | column h => exact .column h.flip
  | and hl hr => exact .and hl hr

end Columnar

end HetuCore.Relation
