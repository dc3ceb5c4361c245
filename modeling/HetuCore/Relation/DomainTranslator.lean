import HetuCore.Relation.ComparisonRewrite
import HetuCore.Relation.NormalForm
import HetuCore.Predicate.TupleDomain

namespace HetuCore.Relation
open Foundation Predicate LogicalRowExpressions

deriving instance DecidableEq for SqlType

/-- A variable reference, the key of a tuple domain. -/
structure VariableReference (S : Signature) where
  type : SqlType S.Base
  name : String

instance {S : Signature} [DecidableEq S.Base] : DecidableEq (VariableReference S) := fun a b =>
  decidable_of_iff (a.type = b.type ∧ a.name = b.name) (by cases a; cases b; simp)

abbrev VariableReference.columnType {S : Signature} (v : VariableReference S) : ColumnType := S.columnType v.type

namespace RowExpressionDomainTranslator
variable {S : Signature} {I : Interpretation S} [DecidableEq S.Base] [DecidableEq (RowExpression S .boolean)]

structure ExtractionResult (S : Signature) [DecidableEq S.Base] where
  tupleDomain : TupleDomain (VariableReference.columnType (S := S))
  remainingExpression : RowExpression S .boolean

/-- Nothing is known of the columns. -/
def visitRowExpression (node : RowExpression S .boolean) (complement : Bool) : ExtractionResult S :=
  ⟨TupleDomain.all,complementIfNecessary node complement⟩

/-- Both tuple domains consist of the same single column. -/
def matchingSingleSymbolDomains (left right : TupleDomain (VariableReference.columnType (S := S))) : Bool :=
  match left.domains, right.domains with
  | some l, some r => decide (l.keys.length = 1) && decide (r.keys.length = 1) && decide (l.keys = r.keys)
  | _, _ => false

/-- The column-wise union is known to be the strict union. -/
def unionIsExact (left right : ExtractionResult S) : Except String Bool :=
  if left.remainingExpression = right.remainingExpression ∧ left.remainingExpression.isDeterministic = true then do
    let rightInLeft ← left.tupleDomain.contains right.tupleDomain
    let leftInRight ← right.tupleDomain.contains left.tupleDomain
    pure (matchingSingleSymbolDomains left.tupleDomain right.tupleDomain || rightInLeft || leftInRight)
  else pure false

def visitBinaryLogic (node : RowExpression S .boolean) (form : Joiner) (complement : Bool)
    (left right : ExtractionResult S) : Except String (ExtractionResult S) :=
  match if complement then form.flip else form with
  | .and => do
    let tupleDomain ← left.tupleDomain.intersect right.tupleDomain
    pure ⟨tupleDomain,combineConjuncts [left.remainingExpression,right.remainingExpression]⟩
  | .or => do
    let columnUnioned ← TupleDomain.columnWiseUnion [left.tupleDomain,right.tupleDomain]
    let exact ← unionIsExact left right
    pure ⟨columnUnioned,if exact then left.remainingExpression else complementIfNecessary node complement⟩

/-- The tuple domain of one column, with nothing remaining. -/
def columnDomain (column : VariableReference S) (domain : Domain column.columnType) : ExtractionResult S :=
  ⟨if domain.isNone then TupleDomain.none else TupleDomain.withColumnDomains (AList.singleton column domain),TRUE_CONSTANT⟩

/-- The visitor with its complement flag. -/
def accept (M : Metadata I) (complement : Bool) : RowExpression S .boolean → Except String (ExtractionResult S)
  | .logical form left right => do
    let leftResult ← accept M complement left
    let rightResult ← accept M complement right
    visitBinaryLogic (.logical form left right) form complement leftResult rightResult
  | .isIn t supported target values => do
    let disjuncts := List.ofFn fun i => RowExpression.comparison .equal t supported target (values i)
    let extractionResult ← accept M complement (or disjuncts)
    -- the original IN predicate is kept if no column was constrained
    if extractionResult.tupleDomain.isAll then
      pure ⟨extractionResult.tupleDomain,complementIfNecessary (.isIn t supported target values) complement⟩
    else pure extractionResult
  | .isNull t value => do
    let onlyNull ← (Domain.onlyNull : Except String (Domain (S.columnType t)))
    let domain ← onlyNull.complementIfNecessary complement
    match value with
    | .variable _ name =>
      pure ⟨TupleDomain.withColumnDomains (AList.singleton (⟨t,name⟩ : VariableReference S) domain),TRUE_CONSTANT⟩
    | value => pure (visitRowExpression (.isNull t value) complement)
  | .between t supported value low high =>
    accept M complement (and [.comparison .greaterThanOrEqual t (supports_all supported _) value low,
      .comparison .lessThanOrEqual t (supports_all supported _) value high])
  | .betweenCall t supported value low high =>
    accept M complement (and [.comparison .greaterThanOrEqual t (supports_all supported _) value low,
      .comparison .lessThanOrEqual t (supports_all supported _) value high])
  | .constant _ none => pure ⟨TupleDomain.none,TRUE_CONSTANT⟩
  | .constant _ (some value) => pure ⟨if complement != value then TupleDomain.all else TupleDomain.none,TRUE_CONSTANT⟩
  | .not argument => accept M (!complement) argument
  | .comparison operator t supported left right =>
    match _h : toNormalizedSimpleComparison M operator left right with
    | none => pure (visitRowExpression (.comparison operator t supported left right) complement)
    | some normalized => do
      let domain ← createComparisonDomain normalized.operator normalized.value complement
      match _hexpr : normalized.expression with
      | .variable _ name => pure (columnDomain ⟨t,name⟩ domain)
      | .cast s _ argument =>
        if coercion : M.canCoerce s t = true then
          match _hc : coerceComparisonWithRounding M coercion argument normalized.value normalized.operator with
          | some coerced => accept M complement coerced
          | none => pure (visitRowExpression (.comparison operator t supported left right) complement)
        else pure (visitRowExpression (.comparison operator t supported left right) complement)
      | _ => pure (visitRowExpression (.comparison operator t supported left right) complement)
  | expression => pure (visitRowExpression expression complement)
termination_by expression => weight expression
decreasing_by
  · simp only [weight]
    omega
  · simp only [weight]
    omega
  · exact weight_disjuncts supported target values
  · simp only [LogicalRowExpressions.and,binaryExpression_pair,weight]
    omega
  · simp only [LogicalRowExpressions.and,binaryExpression_pair,weight]
    omega
  · simp only [weight]
    omega
  · exact weight_peeled _h _hexpr _hc

def fromPredicate (M : Metadata I) (predicate : RowExpression S .boolean) : Except String (ExtractionResult S) :=
  accept M false predicate

end RowExpressionDomainTranslator
end HetuCore.Relation
