import HetuCore.Relation.RowExpression

namespace HetuCore.Relation
open Foundation

namespace LogicalRowExpressions
variable {S : Signature}

def TRUE_CONSTANT : RowExpression S .boolean := .constant .boolean (some true)
def FALSE_CONSTANT : RowExpression S .boolean := .constant .boolean (some false)

/-- What an empty list joined by the form stands for. -/
def emptyConstant : Joiner → RowExpression S .boolean
  | .and => TRUE_CONSTANT
  | .or => FALSE_CONSTANT

/-- One pass over the queue: neighbours are joined and an odd last element is kept. -/
def combinePairs (form : Joiner) : List (RowExpression S .boolean) → List (RowExpression S .boolean)
  | left :: right :: queue => .logical form left right :: combinePairs form queue
  | queue => queue

theorem length_combinePairs (form : Joiner) : (queue : List (RowExpression S .boolean)) →
    (combinePairs form queue).length = (queue.length + 1) / 2
  | [] | [_] => by simp [combinePairs]
  | _ :: _ :: queue => by
    rw [combinePairs,List.length_cons,length_combinePairs form queue,List.length_cons,List.length_cons]
    omega

/-- The balanced tree of the expressions, in their order. -/
def binaryExpression (form : Joiner) : List (RowExpression S .boolean) → RowExpression S .boolean
  | [] => emptyConstant form
  | [expression] => expression
  | left :: right :: queue => binaryExpression form (combinePairs form (left :: right :: queue))
termination_by expressions => expressions.length
decreasing_by
  rw [length_combinePairs]
  simp only [List.length_cons]
  omega

def and (expressions : List (RowExpression S .boolean)) : RowExpression S .boolean := binaryExpression .and expressions
def or (expressions : List (RowExpression S .boolean)) : RowExpression S .boolean := binaryExpression .or expressions

/-- The operands of a tree of one logical form. -/
def extractPredicates (form : Joiner) : RowExpression S .boolean → List (RowExpression S .boolean)
  | .logical own left right =>
    if own = form then extractPredicates form left ++ extractPredicates form right else [.logical own left right]
  | expression => [expression]

/-- `extractPredicates` with the expression's own form. -/
def extractOwnPredicates : RowExpression S .boolean → List (RowExpression S .boolean)
  | .logical form left right => extractPredicates form (.logical form left right)
  | expression => [expression]

/-- The determinism test by display name that de-duplication uses. -/
def isDeterministic : RowExpression S .boolean → Bool
  | .call function _ => !(["rand","random","shuffle","uuid"].contains (S.displayName function).toLower)
  | _ => true

/-- A comparison of a constant with a variable is written with the variable first. -/
def flipOperatorFunctionWithOneVarOneConstant : RowExpression S .boolean → RowExpression S .boolean
  | .comparison operator t supported (.constant _ value) (.variable _ name) =>
    .comparison operator.flip t (ComparisonOperator.supports_flip supported) (.variable t name) (.constant t value)
  | expression => expression

section
variable [DecidableEq (RowExpression S .boolean)]

instance (e : RowExpression S .boolean) (group : List (RowExpression S .boolean)) : Decidable (e ∈ group) :=
  List.instDecidableMemOfLawfulBEq e group

/-- One round of the loop of `removeDuplicates` on `seen` and `result`. -/
def addUnseen (state : List (RowExpression S .boolean) × List (RowExpression S .boolean))
    (expression : RowExpression S .boolean) : List (RowExpression S .boolean) × List (RowExpression S .boolean) :=
  if isDeterministic expression then
    let expressionFlip := flipOperatorFunctionWithOneVarOneConstant expression
    if expressionFlip ∈ state.1 then state else (expressionFlip :: state.1,state.2 ++ [expressionFlip])
  else (state.1,state.2 ++ [expression])

def removeDuplicates (expressions : List (RowExpression S .boolean)) : List (RowExpression S .boolean) :=
  (expressions.foldl addUnseen ([],[])).2

/-- Flattened, without the neutral constant and duplicates; the opposite constant decides. -/
def combineWithDefault (form : Joiner) (expressions : List (RowExpression S .boolean))
    (emptyDefault : RowExpression S .boolean) : RowExpression S .boolean :=
  let predicates := removeDuplicates
    ((expressions.flatMap (extractPredicates form)).filter (fun e => decide (e ≠ emptyConstant form)))
  if emptyConstant form.flip ∈ predicates then emptyConstant form.flip
  else if predicates = [] then emptyDefault
  else binaryExpression form predicates

def combineConjuncts (expressions : List (RowExpression S .boolean)) : RowExpression S .boolean :=
  combineWithDefault .and expressions TRUE_CONSTANT

def combineDisjunctsWithDefault (expressions : List (RowExpression S .boolean))
    (emptyDefault : RowExpression S .boolean) : RowExpression S .boolean :=
  combineWithDefault .or expressions emptyDefault

def combineDisjuncts (expressions : List (RowExpression S .boolean)) : RowExpression S .boolean :=
  combineDisjunctsWithDefault expressions FALSE_CONSTANT

def combinePredicates : Joiner → List (RowExpression S .boolean) → RowExpression S .boolean
  | .and, expressions => combineConjuncts expressions
  | .or, expressions => combineDisjuncts expressions

end

mutual

/-- `PushNegationVisitor` on an expression. -/
def pushNegation : {t : SqlType S.Base} → RowExpression S t → RowExpression S t
  | _, .not argument => pushNegationOfNot argument
  | _, .logical form left right => .logical form (pushNegation left) (pushNegation right)
  | _, expression => expression

/-- `PushNegationVisitor` on the negation of an expression. -/
def pushNegationOfNot : RowExpression S .boolean → RowExpression S .boolean
  | .not argument => pushNegation argument
  | .comparison operator t supported left right =>
    match h : operator.negate with
    | none => .not (.comparison operator t supported left right)
    | some newOperator => .comparison newOperator t (ComparisonOperator.supports_negate h supported)
        (pushNegation left) (pushNegation right)
  | .logical form left right => .logical form.flip (pushNegationOfNot left) (pushNegationOfNot right)
  | argument => .not argument

end

def pushNegationToLeaves (expression : RowExpression S .boolean) : RowExpression S .boolean := pushNegation expression

end LogicalRowExpressions
end HetuCore.Relation
