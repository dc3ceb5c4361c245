/-! Iceberg row filters over integral fields, with their two-valued meaning: NULL
satisfies only the null test. -/
namespace HetuCore.Iceberg

inductive Expression where
  | alwaysTrue
  | alwaysFalse
  | and (left right : Expression)
  | or (left right : Expression)
  | not (child : Expression)
  | isNull (ref : String)
  | isIn (ref : String) (literals : List Int)
  | equal (ref : String) (literal : Int)
  | lessThan (ref : String) (literal : Int)
  | lessThanOrEqual (ref : String) (literal : Int)
  | greaterThan (ref : String) (literal : Int)
  | greaterThanOrEqual (ref : String) (literal : Int)
  deriving DecidableEq, Repr

namespace Expression

/-- Evaluation on a record of named fields. -/
def satisfied (fields : String → Option Int) : Expression → Bool
  | alwaysTrue => true
  | alwaysFalse => false
  | and left right => left.satisfied fields && right.satisfied fields
  | or left right => left.satisfied fields || right.satisfied fields
  | not child => !child.satisfied fields
  | isNull ref => (fields ref).isNone
  | isIn ref literals => (fields ref).any fun v => literals.contains v
  | equal ref literal => (fields ref).any fun v => v == literal
  | lessThan ref literal => (fields ref).any fun v => decide (v < literal)
  | lessThanOrEqual ref literal => (fields ref).any fun v => decide (v ≤ literal)
  | greaterThan ref literal => (fields ref).any fun v => decide (literal < v)
  | greaterThanOrEqual ref literal => (fields ref).any fun v => decide (literal ≤ v)

/-- The disjunction of a list as a balanced tree. -/
def orList (expressions : List Expression) : Expression :=
  match h : expressions with
  | [] => alwaysFalse
  | [e] => e
  | first :: second :: rest =>
    let mid := (first :: second :: rest).length / 2
    or (orList (expressions.take mid)) (orList (expressions.drop mid))
termination_by expressions.length
decreasing_by all_goals subst h; simp only [List.length_take,List.length_drop,List.length_cons]; omega

theorem satisfied_orList (fields : String → Option Int) (expressions : List Expression) :
    (orList expressions).satisfied fields = true ↔ ∃ e ∈ expressions, e.satisfied fields = true := by
  induction expressions using orList.induct with
  | case1 => simp [orList,satisfied]
  | case2 e => simp [orList]
  | case3 first second rest mid ih1 ih2 =>
    rw [orList,satisfied,Bool.or_eq_true,ih1,ih2]
    rw [← exists_or]
    simp only [← or_and_right,← List.mem_append,List.take_append_drop]

end Expression
end HetuCore.Iceberg
