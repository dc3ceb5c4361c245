import HetuCore.Relation.LogicalRowExpressions
import HetuCore.Foundation.Outcome

namespace HetuCore.Relation
open Foundation

namespace RowExpression
variable {S : Signature}

/-- `RowExpressionDeterminismEvaluator`: no call below the expression is nondeterministic. -/
def isDeterministic : {t : SqlType S.Base} → RowExpression S t → Bool
  | _, .constant _ _ => true
  | _, .variable _ _ => true
  | _, .not argument => isDeterministic argument
  | _, .comparison _ _ _ left right => isDeterministic left && isDeterministic right
  | _, .betweenCall _ _ value low high => isDeterministic value && isDeterministic low && isDeterministic high
  | _, .cast _ _ argument => isDeterministic argument
  | _, .call function arguments => S.deterministic function && decide (∀ i, isDeterministic (arguments i) = true)
  | _, .logical _ left right => isDeterministic left && isDeterministic right
  | _, .isIn _ _ target values => isDeterministic target && decide (∀ i, isDeterministic (values i) = true)
  | _, .isNull _ value => isDeterministic value
  | _, .between _ _ value low high => isDeterministic value && isDeterministic low && isDeterministic high
  | _, .special _ arguments => decide (∀ i, isDeterministic (arguments i) = true)

end RowExpression

inductive Form
  | logical (joiner : Joiner)
  | isIn
  | isNull
  | between
  | other (form : OtherForm)
deriving DecidableEq

namespace LogicalRowExpressions
variable {S : Signature}

def ELIMINATE_COMMON_SIZE_LIMIT : Nat := 10000

section
variable [DecidableEq (RowExpression S .boolean)]

def isSuperSet (a b : List (RowExpression S .boolean)) : Bool := decide (a.length > b.length) && decide (b ⊆ a)

def isSameSet (a b : List (RowExpression S .boolean)) : Bool :=
  decide (a.length = b.length) && decide (b ⊆ a) && decide (a ⊆ b)

variable (groups : List (List (RowExpression S .boolean)))

/-- One round of the inner loop: the group that group `i` is reduced to so far, compared with group `j`. -/
def reduceStep (reduceTo j : Nat) : Nat :=
  if isSuperSet (groups.getD reduceTo []) (groups.getD j []) then j
  else if isSameSet (groups.getD reduceTo []) (groups.getD j []) then min reduceTo j
  else reduceTo

def reduceGroup (i : Nat) : Nat :=
  if (groups.getD i []).all RowExpression.isDeterministic then (List.range groups.length).foldl (reduceStep groups) i
  else i

def eliminateCommonPredicates : List (List (RowExpression S .boolean)) :=
  if groups.length < 2 then groups
  else (((List.range groups.length).map (reduceGroup groups)).eraseDups).map fun j => groups.getD j []

/-- The predicates that every group has, in the order of the first group. -/
def commonPredicates : List (RowExpression S .boolean) :=
  match groups with
  | [] => []
  | first :: rest => rest.foldl (fun common group => common.filter (fun e => decide (e ∈ group))) first.eraseDups

/-- Groups for the flipped joiner, or `null` if no predicate is common. -/
def extractCommonPredicates (rootClauseJoiner : Joiner) (groups : List (List (RowExpression S .boolean))) :
    Option (List (List (RowExpression S .boolean))) :=
  let common := commonPredicates groups
  if common = [] then none
  else
    let remaining := groups.map fun group =>
      combinePredicates rootClauseJoiner.flip (group.filter (fun e => decide (e ∉ common)))
    some (common.map (fun predicate => [predicate]) ++ [remaining])

def combineGroupedClauses (clauseJoiner : Joiner) (nested : List (List (RowExpression S .boolean))) :
    RowExpression S .boolean :=
  combinePredicates clauseJoiner (nested.map (combinePredicates clauseJoiner.flip))

/-- Every clause list so far extended by every clause of the next group. -/
def crossProductStep (previous : List (List (RowExpression S .boolean))) (clauses : List (RowExpression S .boolean)) :
    List (List (RowExpression S .boolean)) :=
  previous.flatMap fun previousClauses => clauses.map fun newClause => previousClauses ++ [newClause]

def crossProduct : List (List (RowExpression S .boolean)) → Except String (List (List (RowExpression S .boolean)))
  | [] => .error "Must contains more than one child"
  | first :: rest => pure (rest.foldl crossProductStep (first.map fun clause => [clause]))

/-- The clause count of the distributive law, or `none` where the loop returns early. -/
def countProduced (depth numClauses : Nat) : Nat → List (List (RowExpression S .boolean)) → Option Nat
  | produced, [] => some produced
  | produced, group :: groups =>
    if depth > 0 ∨ produced * group.length > numClauses * 2 then none
    else countProduced depth numClauses (produced * group.length) groups

variable (expected : Joiner) (depth : Nat)

/-- The part of `visitSpecialForm` after common predicates were extracted. -/
def distribute (joiner : Joiner) (groups : List (List (RowExpression S .boolean))) :
    Except String (RowExpression S .boolean) :=
  let numClauses := (groups.map List.length).sum
  match countProduced depth numClauses groups.length groups with
  | none => pure (combineGroupedClauses joiner groups)
  | some produced =>
    if produced = numClauses then pure (combineGroupedClauses joiner groups)
    else if joiner = expected ∨ ¬ groups.flatten.all RowExpression.isDeterministic then
      pure (combineGroupedClauses joiner groups)
    else do
      let product ← crossProduct groups
      pure (combineGroupedClauses expected product)

/-- The part of `visitSpecialForm` after the operands were combined. -/
def normalizeCombined : RowExpression S .boolean → Except String (RowExpression S .boolean)
  | .logical form left right =>
    let grouped := (extractPredicates form (.logical form left right)).map extractOwnPredicates
    if (grouped.map List.length).sum > ELIMINATE_COMMON_SIZE_LIMIT then pure (.logical form left right)
    else
      let groups := eliminateCommonPredicates grouped
      match extractCommonPredicates form groups with
      | some flipped => distribute expected depth form.flip flipped
      | none => distribute expected depth form groups
  | rewritten => pure rewritten

/-- The operands of the expression under one form, each visited at the given depth. -/
def convertOperands (expected : Joiner) : RowExpression S .boolean → Joiner → Nat →
    Except String (List (RowExpression S .boolean))
  | .logical own left right, form, depth =>
    if own = form then do
      let lefts ← convertOperands expected left form depth
      let rights ← convertOperands expected right form depth
      pure (lefts ++ rights)
    else do
      let lefts ← convertOperands expected left own (depth + 1)
      let rights ← convertOperands expected right own (depth + 1)
      let converted ← normalizeCombined expected depth (combinePredicates own (lefts ++ rights))
      pure [converted]
  | expression, _, _ => pure [expression]

/-- `ConvertNormalFormVisitor` at the given depth. -/
def convert : RowExpression S .boolean → Except String (RowExpression S .boolean)
  | .logical form left right => do
    let operands ← convertOperands expected (.logical form left right) form (depth + 1)
    normalizeCombined expected depth (combinePredicates form operands)
  | expression => pure expression

variable (expression : RowExpression S .boolean)

def convertToNormalForm (clauseJoiner : Joiner) : Except String (RowExpression S .boolean) :=
  convert clauseJoiner 0 (pushNegationToLeaves expression)

def convertToConjunctiveNormalForm : Except String (RowExpression S .boolean) :=
  convertToNormalForm expression .and

def convertToDisjunctiveNormalForm : Except String (RowExpression S .boolean) :=
  convertToNormalForm expression .or

end

def getForm : {t : SqlType S.Base} → RowExpression S t → Option Form
  | _, .logical form _ _ => some (.logical form)
  | _, .isIn _ _ _ _ => some .isIn
  | _, .isNull _ _ => some .isNull
  | _, .between _ _ _ _ _ => some .between
  | _, .special form _ => some (.other form)
  | _, _ => none

/-- `extractPredicates` for any special form; the operands need not be boolean. -/
def extractOperands (form : Form) : {t : SqlType S.Base} → RowExpression S t →
    Except String (List ((t : SqlType S.Base) × RowExpression S t))
  | _, .logical own left right =>
    if form = .logical own then do
      let lefts ← extractOperands form left
      let rights ← extractOperands form right
      pure (lefts ++ rights)
    else pure [⟨_,.logical own left right⟩]
  | _, .isIn t supported target (n := n) values =>
    if form = .isIn then
      if n + 2 = 2 then do
        let lefts ← extractOperands form target
        let rights ← extractOperands form (values 0)
        pure (lefts ++ rights)
      else .error "logical binary expression requires exactly 2 operands"
    else pure [⟨_,.isIn t supported target values⟩]
  | _, .isNull t value =>
    if form = .isNull then .error "logical binary expression requires exactly 2 operands"
    else pure [⟨_,.isNull t value⟩]
  | _, .between t supported value low high =>
    if form = .between then .error "logical binary expression requires exactly 2 operands"
    else pure [⟨_,.between t supported value low high⟩]
  | t, .special own (n := n) arguments =>
    if form = .other own then
      if h : n = 2 then do
        let lefts ← extractOperands form (arguments ⟨0,zero_lt_of_two h⟩)
        let rights ← extractOperands form (arguments ⟨1,one_lt_of_two h⟩)
        pure (lefts ++ rights)
      else .error "logical binary expression requires exactly 2 operands"
    else pure [⟨t,.special own arguments⟩]
  | t, expression => pure [⟨t,expression⟩]

/-- The size of the group that an operand is split into. -/
def groupSize : ((t : SqlType S.Base) × RowExpression S t) → Nat
  | ⟨.boolean,expression⟩ => (extractOwnPredicates expression).length
  | _ => 1

def numOfClauses (expression : RowExpression S .boolean) : Except String Nat :=
  match getForm expression with
  | some form => do
    let operands ← extractOperands form expression
    pure (operands.map groupSize).sum
  | none => pure 1

def minimalNormalForm [DecidableEq (RowExpression S .boolean)] (expression : RowExpression S .boolean) :
    Except String (RowExpression S .boolean) := do
  let conjunctiveNormalForm ← convertToConjunctiveNormalForm expression
  let disjunctiveNormalForm ← convertToDisjunctiveNormalForm expression
  let conjunctiveClauses ← numOfClauses conjunctiveNormalForm
  let disjunctiveClauses ← numOfClauses disjunctiveNormalForm
  pure (if conjunctiveClauses > disjunctiveClauses then disjunctiveNormalForm else conjunctiveNormalForm)

end LogicalRowExpressions
end HetuCore.Relation
