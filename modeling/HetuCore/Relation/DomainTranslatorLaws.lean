import HetuCore.Relation.DomainTranslator
import HetuCore.Relation.ComparisonRewriteLaws
import HetuCore.Predicate.TupleDomainExact

namespace HetuCore.Relation
open Foundation Predicate LogicalRowExpressions RowExpression RowExpressionDomainTranslator TupleDomain List

/-- A joined value is the one looked for if both, or one of, the operands are. -/
theorem join_eq_target (form : Joiner) (neg : Bool) (x y : Kleene) : form.join x y = target neg ↔
      match if neg then form.flip else form with
      | .and => x = target neg ∧ y = target neg
      | .or => x = target neg ∨ y = target neg := by
  cases neg with
  | false =>
    cases form with
    | and => exact inf_eq_top_iff
    | or => exact max_eq_top
  | true =>
    cases form with
    | and => exact min_eq_bot
    | or => exact sup_eq_bot_iff

def points {S : Signature} (row : Row S) (v : VariableReference S) : Option v.columnType.Point :=
  (row v.type v.name).map ColumnType.point

namespace RowExpressionDomainTranslator
variable {S : Signature} {I : Interpretation S}

variable (row : Row S) (column : VariableReference S)

theorem truth_complementIfNecessary (e : RowExpression S .boolean) (neg : Bool) :
    truth I row (complementIfNecessary e neg) = ⊤ ↔ truth I row e = target neg := by
  cases neg with
  | false => exact .rfl
  | true => exact Kleene.not_eq_top_iff _

variable {t : SqlType S.Base} {neg : Bool} {e : RowExpression S .boolean}

theorem truth_disjuncts (supported : ComparisonOperator.equal.Supports (S.columnType t)) (target : RowExpression S t)
    {n : Nat} (values : Fin (n + 1) → RowExpression S t) :
    truth I row (or (ofFn fun i => .comparison .equal t supported target (values i))) =
      truth I row (.isIn t supported target values) := by
  rw [LogicalRowExpressions.or,truth_binaryExpression,map_ofFn]
  rfl

theorem truth_conjuncts (supported : ComparisonOperator.lessThan.Supports (S.columnType t))
    (value low high : RowExpression S t) :
    truth I row (and [.comparison .greaterThanOrEqual t (supports_all supported _) value low,
      .comparison .lessThanOrEqual t (supports_all supported _) value high]) =
      evaluateBetween (eval I row value) (eval I row low) (eval I row high) := by
  rw [LogicalRowExpressions.and,binaryExpression_pair]
  rfl

variable [DecidableEq S.Base]

/-- The result describes the rows on which the predicate has the truth value looked for. -/
def Extracts (I : Interpretation S) (neg : Bool) (e : RowExpression S .boolean) (r : ExtractionResult S) : Prop :=
  ∀ row, truth I row e = target neg ↔ points row ∈ r.tupleDomain.tuples ∧ truth I row r.remainingExpression = ⊤

theorem visitRowExpression_extracts (e : RowExpression S .boolean) (neg : Bool) :
    Extracts I neg e (visitRowExpression e neg) := by
  intro row
  rw [visitRowExpression,tuples_all,truth_complementIfNecessary]
  exact (and_iff_right trivial).symm

theorem Extracts.congr {e e' : RowExpression S .boolean} {r : ExtractionResult S} (h : Extracts I neg e r)
    (heq : ∀ row, truth I row e = truth I row e') : Extracts I neg e' r := by
  intro row
  rw [← heq]
  exact h row

variable (domain : Domain column.columnType)

section
variable (h : ∀ row, truth I row e = target neg ↔ domain.Admits (points row column))
include h

/-- A domain that admits the points giving the predicate its value describes it. -/
theorem singleton_extracts :
    Extracts I neg e ⟨withColumnDomains (AList.singleton column domain),TRUE_CONSTANT⟩ := by
  intro row
  rw [mem_tuples_singleton,h]
  exact (and_iff_left rfl).symm

theorem columnDomain_extracts : Extracts I neg e (columnDomain column domain) := by
  rw [columnDomain]
  split
  case isTrue hn =>
    intro row
    rw [tuples_none,h]
    exact iff_of_false ((Domain.isNone_iff domain).mp hn _) fun hr => hr.1
  case isFalse => exact singleton_extracts column domain h

end

theorem matchingSingleSymbolDomains_spec {a b : TupleDomain (VariableReference.columnType (S := S))}
    (h : matchingSingleSymbolDomains a b = true) {u : TupleDomain (VariableReference.columnType (S := S))}
    (hu : columnWiseUnion [a,b] = .ok u) : u.tuples = a.tuples ∪ b.tuples := by
  rw [matchingSingleSymbolDomains] at h
  split at h
  case h_1 l r ha hb =>
    simp only [Bool.and_eq_true,decide_eq_true_eq] at h
    obtain ⟨c,hc⟩ := length_eq_one_iff.mp h.1.1
    exact columnWiseUnion_of_single hu ha hb hc (h.2.symm.trans hc)
  case h_2 => cases h

/-- The domain of a normalized comparison of a variable describes the comparison. -/
theorem comparison_extracts {M : Metadata I} {operator : ComparisonOperator}
    {supported : operator.Supports (S.columnType t)} {left right : RowExpression S t}
    {normalized : NormalizedSimpleComparison S t} {name : String} (hl : left.betweenFree = true) (hr : right.betweenFree = true)
    (h : toNormalizedSimpleComparison M operator left right = some normalized)
    (hex : normalized.expression = .variable t name) {domain : Domain (S.columnType t)}
    (hd : ∀ x, domain.Admits x ↔ normalized.operator.evaluateAt x normalized.value = target neg) :
    Extracts I neg (.comparison operator t supported left right) (columnDomain ⟨t,name⟩ domain) := by
  refine columnDomain_extracts ⟨t,name⟩ domain fun row => ?_
  have he := normalized_eval hl hr h row
  rw [hex,eval] at he
  rw [truth_comparison,← he,hd,points,ComparisonOperator.evaluateAt_point]

variable [DecidableEq (RowExpression S .boolean)]

/-- If the union is judged exact, the remaining expressions agree and the tuple sets are united exactly. -/
theorem unionIsExact_spec (left right : ExtractionResult S) :
    ∃ exact, unionIsExact left right = .ok exact ∧ (exact = true → left.remainingExpression = right.remainingExpression ∧
      ∀ u, columnWiseUnion [left.tupleDomain,right.tupleDomain] = .ok u →
        u.tuples = left.tupleDomain.tuples ∪ right.tupleDomain.tuples) := by
  rw [unionIsExact]
  split
  case isFalse => exact ⟨false,rfl,by simp⟩
  case isTrue heq =>
    obtain ⟨rl,hrl,hr⟩ := contains_spec left.tupleDomain right.tupleDomain
    obtain ⟨lr,hlr,hl⟩ := contains_spec right.tupleDomain left.tupleDomain
    refine ⟨_,by rw [hrl,hlr]; rfl,fun h => ⟨heq.1,fun u hu => ?_⟩⟩
    rw [Bool.or_eq_true,Bool.or_eq_true,hr,hl,or_assoc] at h
    rcases h with hs | hsb
    · exact matchingSingleSymbolDomains_spec hs hu
    · exact columnWiseUnion_of_subset hu hsb

/-- The results of two operands are combined into a result of the logical expression. -/
theorem visitBinaryLogic_extracts {l r : RowExpression S .boolean} {left right : ExtractionResult S} (form : Joiner)
    (hl : Extracts I neg l left) (hr : Extracts I neg r right) :
    Ends (fun _ => False) (Extracts I neg (.logical form l r))
      (visitBinaryLogic (.logical form l r) form neg left right) := by
  have hj := fun row => join_eq_target form neg (truth I row l) (truth I row r)
  rw [visitBinaryLogic]
  cases he : (if neg then form.flip else form) with
  | and =>
    simp only [he] at hj
    obtain ⟨i,hi,ht⟩ := intersect_spec left.tupleDomain right.tupleDomain
    refine .after hi fun row => ?_
    have hrm : truth I row (combineConjuncts [left.remainingExpression,right.remainingExpression]) = ⊤ ↔
        truth I row left.remainingExpression = ⊤ ∧ truth I row right.remainingExpression = ⊤ := by
      have hv := truth_combinePredicates I row .and [left.remainingExpression,right.remainingExpression]
      rw [combinePredicates] at hv
      rw [hv,map_cons,map_singleton,Joiner.combine_cons,Joiner.combine_singleton]
      exact inf_eq_top_iff
    rw [truth_logical,hj,hl row,hr row,ht,hrm,Set.mem_inter_iff,and_and_and_comm]
  | or =>
    simp only [he] at hj
    obtain ⟨u,hu,-⟩ := columnWiseUnion_pair left.tupleDomain right.tupleDomain
    obtain ⟨exact,hex,hs⟩ := unionIsExact_spec left right
    refine .after hu (.after hex fun row => ?_)
    rw [truth_logical,hj,hl row,hr row]
    cases exact with
    | true =>
      obtain ⟨hrm,hun⟩ := hs rfl
      rw [if_pos rfl,hun u hu,Set.mem_union,hrm,or_and_right]
    | false =>
      have hn := truth_complementIfNecessary (I := I) row (.logical form l r) neg
      rw [truth_logical,hj,hl row,hr row] at hn
      rw [if_neg Bool.false_ne_true,hn]
      refine ⟨fun h => ⟨?_,h⟩,And.right⟩
      exact subset_columnWiseUnion hu (h.imp And.left And.left)

/-- The visitor never throws and its result describes the predicate. -/
theorem accept_extracts {M : Metadata I} (hm : M.Lossless) (neg : Bool) {e : RowExpression S .boolean}
    (hb : e.operandsBetweenFree = true) : Ends (fun _ => False) (Extracts I neg e) (accept M neg e) := by
  induction hw : weight e using Nat.strong_induction_on generalizing neg e with
  | _ w ih =>
    subst hw
    cases e with
    | logical form left right =>
      rw [accept]
      obtain ⟨hbl,hbr⟩ := Bool.and_eq_true_iff.mp hb
      have hl := ih (weight left) (by simp only [weight]; omega) neg hbl rfl
      have hr := ih (weight right) (by simp only [weight]; omega) neg hbr rfl
      exact hl.bind fun _ hlf => hr.bind fun _ hrg => visitBinaryLogic_extracts form hlf hrg
    | isIn t supported target values =>
      rw [accept]
      obtain ⟨hbt,hbv⟩ := Bool.and_eq_true_iff.mp hb
      have hbo : (or (ofFn fun i => .comparison .equal t supported target (values i))).operandsBetweenFree = true := by
        refine binaryExpression_closed (P := fun e => e.operandsBetweenFree = true)
          (fun _ _ hl hr => Bool.and_eq_true_iff.mpr ⟨hl,hr⟩) (by simp) fun e he => ?_
        obtain ⟨i,rfl⟩ := mem_ofFn.mp he
        exact Bool.and_eq_true_iff.mpr ⟨hbt,of_decide_eq_true hbv i⟩
      have hor := ih _ (weight_disjuncts supported target values) neg hbo rfl
      refine hor.bind fun result hrs => ?_
      have hin := hrs.congr fun row => truth_disjuncts row supported target values
      split
      case isTrue hal =>
        intro row
        rw [tuples_of_isAll hal,truth_complementIfNecessary]
        exact (and_iff_right trivial).symm
      case isFalse => exact hin
    | isNull t value =>
      rw [accept]
      obtain ⟨onlyNull,hn,hnc⟩ := Domain.onlyNull_spec (t := S.columnType t)
      obtain ⟨domain,hd,hdc⟩ := onlyNull.complementIfNecessary_spec neg
      refine .after hn (.after hd ?_)
      split
      case h_1 name =>
        refine singleton_extracts ⟨t,name⟩ domain fun row => ?_
        rw [hdc,hnc,points,Option.map_eq_none_iff,← Option.isNone_iff_eq_none]
        exact some_eq_target _ neg
      case h_2 => exact visitRowExpression_extracts _ neg
    | between t supported value low high | betweenCall t supported value low high =>
      rw [accept]
      simp only [operandsBetweenFree,Bool.and_eq_true] at hb
      refine (ih _ ?_ neg ?_ rfl).mono fun _ hrs => hrs.congr fun row => truth_conjuncts row supported value low high
      · simp only [LogicalRowExpressions.and,binaryExpression_pair,weight]
        omega
      · simp [LogicalRowExpressions.and,binaryExpression_pair,operandsBetweenFree,hb.1,hb.2]
    | constant t value =>
      cases value with
      | none =>
        rw [accept]
        intro row
        rw [tuples_none]
        exact iff_of_false (none_ne_target neg) And.left
      | some b =>
        rw [accept]
        intro row
        refine (some_eq_target b neg).trans ?_
        rw [and_iff_left (show truth I row TRUE_CONSTANT = ⊤ from rfl)]
        cases b <;> cases neg <;> simp [tuples_none,tuples_all]
    | not argument =>
      rw [accept]
      have hba : argument.operandsBetweenFree = true := hb
      refine (ih (weight argument) (by simp only [weight]; omega) (!neg) hba rfl).mono fun _ hrs row => ?_
      rw [← hrs row]
      cases neg with
      | false => exact Kleene.not_eq_top_iff _
      | true => exact Kleene.not_eq_bot_iff _
    | comparison operator t supported left right =>
      rw [accept]
      obtain ⟨hbl,hbr⟩ := Bool.and_eq_true_iff.mp hb
      split
      case h_1 => exact visitRowExpression_extracts _ neg
      case h_2 normalized hnr =>
        obtain ⟨domain,hdm,ha⟩ := createComparisonDomain_spec (normalized_supports hnr supported)
          normalized.value neg
        refine .after hdm ?_
        split
        case h_1 name he => exact comparison_extracts hbl hbr hnr he ha
        case h_2 s argument he =>
          split
          case isTrue coercion =>
            split
            case h_1 coerced hc =>
              have hba : argument.betweenFree = true := by
                have hbe := betweenFree_normalized hbl hbr hnr
                rwa [he] at hbe
              refine (ih _ (weight_peeled hnr he hc) neg (betweenFree_coerced hba hc) rfl).mono fun _ hrs => ?_
              refine hrs.congr fun row => ?_
              rw [truth_coerced hm hc,← he,normalized_eval hbl hbr hnr,truth_comparison]
            case h_2 => exact visitRowExpression_extracts _ neg
          case isFalse => exact visitRowExpression_extracts _ neg
        case h_3 => exact visitRowExpression_extracts _ neg
    | _ => simp only [accept]; exact visitRowExpression_extracts _ neg

end RowExpressionDomainTranslator

namespace Numbers
open RowExpressionDomainTranslator

inductive Base
  | natural
  | integer
  | text
deriving DecidableEq

/-- Natural numbers, integers and texts that can only be compared for equality; there are no functions. -/
def signature : Signature where
  Base := Base
  base
    | .natural => .orderable Nat
    | .integer => .orderable Int
    | .text => .comparable String
  Function _ _ := Empty
  displayName := Empty.elim
  deterministic := Empty.elim

instance : DecidableEq signature.Base := inferInstanceAs (DecidableEq Base)

noncomputable instance : DecidableEq (RowExpression signature .boolean) := Classical.decEq _

abbrev natural : SqlType signature.Base := .other .natural
abbrev integer : SqlType signature.Base := .other .integer

def defaultValue : (t : SqlType signature.Base) → signature.Value t
  | .boolean => false
  | .other .natural => (0 : Nat)
  | .other .integer => (0 : Int)
  | .other .text => ""

def interpretation (cast : Nat → Int) : Interpretation signature where
  call := Empty.elim
  special _ _ _ _ _ := none
  cast
    | .other .natural, .other .integer => cast
    | _, t => fun _ => defaultValue t

/-- Only natural numbers are coerced, to integers. -/
def metadata (cast : Nat → Int) (floor : Int → Nat) (hm : ∀ x y, x ≤ y → cast x ≤ cast y)
    (hg : ∀ v y, cast y ≤ v → cast (floor v) ≤ v ∧ y ≤ floor v) (hs : ∀ v, (∀ y, v < cast y) → ∀ y, floor v ≤ y) :
    Metadata (interpretation cast) where
  isCalledOnNullInput := Empty.elim
  call_null f := f.elim
  isInterpreted := Empty.elim
  visitSpecialForm _ _ _ _ _ := none
  special_eval _ _ _ _ _ _ h := nomatch h
  isTypeOnlyCoercion _ _ := false
  canCoerce
    | .other .natural, .other .integer => true
    | _, _ => false
  saturatedFloorCast
    | .other .integer, .other .natural => some floor
    | _, _ => none
  floor_spec {s t own} hc hf := by
    split at hc
    · cases hf
      exact SaturatedFloor.of_order (α := Nat) (β := Int) hm hg hs
    · cases hc

theorem metadata_lossless {cast : Nat → Int} {floor : Int → Nat} {hm hg hs} (hi : Function.Injective cast) :
    (metadata cast floor hm hg hs).Lossless := by
  intro s t hc _
  rw [metadata] at hc
  dsimp only at hc
  split at hc
  · exact hi
  · cases hc

/-- A natural number as an integer. -/
def exact : Metadata (interpretation fun n => n) :=
  metadata (fun n => n) Int.toNat (fun x y h => Int.ofNat_le.mpr h) (fun v y h => by omega) (fun v h y => by have := h 0; omega)

/-- `(CAST(n AS INTEGER) < 5 OR n IS NULL) AND NOT n IN (2, 3)`. -/
def small : RowExpression signature .boolean :=
  .logical .and
    (.logical .or (.comparison .lessThan integer trivial (.cast natural integer (.variable natural "n"))
      (.constant integer (some (5 : Int)))) (.isNull natural (.variable natural "n")))
    (.not (.isIn natural trivial (.variable natural "n")
      ![.constant natural (some (2 : Nat)),.constant natural (some (3 : Nat))]))

/-- `n` and `yes` in a row where nothing else has a value. -/
def row (n : Nat) (yes : Bool) : Row signature
  | .other .natural, "n" => some n
  | .boolean, "yes" => some yes
  | _, _ => none

/-- Half of a natural number, rounded down. -/
def halves : Metadata (interpretation fun n => n / 2) :=
  metadata (fun n => n / 2) (fun v => (2 * v + 1).toNat) (fun x y h => by omega) (fun v y h => by omega)
    (fun v h y => by have := h 0; omega)

/-- `CAST(n AS INTEGER) = 0`. -/
def isZero : RowExpression signature .boolean :=
  .comparison .equal integer trivial (.cast natural integer (.variable natural "n")) (.constant integer (some (0 : Int)))

/-- `(n BETWEEN NULL AND 5) = yes`, with BETWEEN as a call. -/
def isBetween : RowExpression signature .boolean :=
  .comparison .equal .boolean trivial
    (.betweenCall natural trivial (.variable natural "n") (.constant natural none) (.constant natural (some (5 : Nat))))
    (.variable .boolean "yes")

end Numbers
end HetuCore.Relation
