import HetuCore.Relation.PointValuation

namespace HetuCore.Relation
open Foundation Predicate LogicalRowExpressions RowExpression List

namespace RowExpressionDomainTranslator
variable {S : Signature} {I : Interpretation S} [DecidableEq S.Base]

/-- Nothing remains and the tuple domain is the set of tuples with the truth value looked for. -/
def Reads (neg : Bool) (e : RowExpression S .boolean) (r : ExtractionResult S) : Prop :=
  r.remainingExpression = TRUE_CONSTANT ∧ ∀ tuple, tuple ∈ r.tupleDomain.tuples ↔ truthAt tuple e = target neg

variable {neg : Bool} {e : RowExpression S .boolean} {l r : RowExpression S .boolean}
  {left right : ExtractionResult S} {column : VariableReference S}

theorem Reads.congr {e e' : RowExpression S .boolean} {r : ExtractionResult S} (h : Reads neg e r)
    (heq : ∀ tuple, truthAt tuple e = truthAt tuple e') : Reads neg e' r := by
  refine ⟨h.1,fun tuple => ?_⟩
  rw [← heq]
  exact h.2 tuple

theorem singleton_reads (column : VariableReference S) (domain : Domain column.columnType)
    (h : ∀ tuple, domain.Admits (tuple column) ↔ truthAt tuple e = target neg) :
    Reads neg e ⟨TupleDomain.withColumnDomains (AList.singleton column domain),TRUE_CONSTANT⟩ :=
  ⟨rfl,fun tuple => (TupleDomain.mem_tuples_singleton column domain tuple).trans (h tuple)⟩

theorem columnDomain_reads (column : VariableReference S) (domain : Domain column.columnType)
    (h : ∀ tuple, domain.Admits (tuple column) ↔ truthAt tuple e = target neg) :
    Reads neg e (columnDomain column domain) := by
  rw [columnDomain]
  split
  case isTrue hn =>
    refine ⟨rfl,fun tuple => ?_⟩
    rw [TupleDomain.tuples_none,← h]
    exact iff_of_false (Set.notMem_empty tuple) ((Domain.isNone_iff domain).mp hn _)
  case isFalse => exact singleton_reads column domain h

/-- Of two tuple sets that only depend on one column, one contains the other or both store a domain for
that column alone. -/
theorem matchingSingleSymbolDomains_of_dependent (column : VariableReference S)
    {a b : TupleDomain (VariableReference.columnType (S := S))} (ha : ∀ t t' : PointRow S, t column = t' column → t ∈ a.tuples → t' ∈ a.tuples)
    (hb : ∀ t t' : PointRow S, t column = t' column → t ∈ b.tuples → t' ∈ b.tuples) :
    matchingSingleSymbolDomains a b = true ∨ b.tuples ⊆ a.tuples ∨ a.tuples ⊆ b.tuples := by
  by_cases hs : b.tuples ⊆ a.tuples ∨ a.tuples ⊆ b.tuples
  · exact .inr hs
  · rw [not_or] at hs
    obtain ⟨m,hm,hmk⟩ := TupleDomain.keys_of_dependent ha
      (fun h => hs.2 (by rw [h]; exact Set.empty_subset _)) (fun h => hs.1 (by rw [h]; exact Set.subset_univ _))
    obtain ⟨n,hn,hnk⟩ := TupleDomain.keys_of_dependent hb
      (fun h => hs.1 (by rw [h]; exact Set.empty_subset _)) (fun h => hs.2 (by rw [h]; exact Set.subset_univ _))
    simp [matchingSingleSymbolDomains,hm,hn,hmk,hnk]

variable [DecidableEq (RowExpression S .boolean)]

omit [DecidableEq S.Base] in
private theorem combineConjuncts_true :
    combineConjuncts [TRUE_CONSTANT,TRUE_CONSTANT] = (TRUE_CONSTANT : RowExpression S .boolean) := by
  simp [combineConjuncts,combineWithDefault,TRUE_CONSTANT,extractPredicates,emptyConstant,removeDuplicates]

theorem visitBinaryLogic_and {form : Joiner} (hf : (if neg then form.flip else form) = .and)
    (hl : Reads neg l left) (hr : Reads neg r right) :
    Ends (fun _ => False) (Reads neg (.logical form l r))
      (visitBinaryLogic (.logical form l r) form neg left right) := by
  rw [visitBinaryLogic,hf]
  obtain ⟨i,hi,ht⟩ := TupleDomain.intersect_spec left.tupleDomain right.tupleDomain
  refine .after hi ⟨?_,fun tuple => ?_⟩
  · rw [hl.1,hr.1]
    exact combineConjuncts_true
  · have hj := join_eq_target form neg (truthAt tuple l) (truthAt tuple r)
    simp only [hf] at hj
    rw [ht,Set.mem_inter_iff,hl.2,hr.2]
    exact hj.symm

theorem visitBinaryLogic_or {form : Joiner} (hf : (if neg then form.flip else form) = .or)
    (hcl : OverColumn column l) (hcr : OverColumn column r) (hl : Reads neg l left) (hr : Reads neg r right) :
    Ends (fun _ => False) (Reads neg (.logical form l r))
      (visitBinaryLogic (.logical form l r) form neg left right) := by
  rw [visitBinaryLogic,hf]
  obtain ⟨u,hu,-⟩ := TupleDomain.columnWiseUnion_pair left.tupleDomain right.tupleDomain
  have hc := matchingSingleSymbolDomains_of_dependent column
    (fun t t' hp ht => (hl.2 t').mpr ((hcl.truthAt_congr hp).symm.trans ((hl.2 t).mp ht)))
    (fun t t' hp ht => (hr.2 t').mpr ((hcr.truthAt_congr hp).symm.trans ((hr.2 t).mp ht)))
  have he : unionIsExact left right = .ok true := by
    obtain ⟨rl,hrl,hrc⟩ := TupleDomain.contains_spec left.tupleDomain right.tupleDomain
    obtain ⟨lr,hlr,hlc⟩ := TupleDomain.contains_spec right.tupleDomain left.tupleDomain
    rw [← hrc,← hlc,← or_assoc,← Bool.or_eq_true,← Bool.or_eq_true] at hc
    rw [unionIsExact,if_pos ⟨hl.1.trans hr.1.symm,by rw [hl.1]; rfl⟩,hrl,hlr]
    exact congrArg Except.ok hc
  refine .after hu (.after he ⟨by rw [if_pos rfl]; exact hl.1,fun tuple => ?_⟩)
  have hun : u.tuples = left.tupleDomain.tuples ∪ right.tupleDomain.tuples :=
    hc.elim (fun h => matchingSingleSymbolDomains_spec h hu) (TupleDomain.columnWiseUnion_of_subset hu)
  have hj := join_eq_target form neg (truthAt tuple l) (truthAt tuple r)
  simp only [hf] at hj
  rw [hun,Set.mem_union,hl.2,hr.2]
  exact hj.symm

theorem accept_overColumn (M : Metadata I) (h : OverColumn column e) (neg : Bool) :
    Ends (fun _ => False) (Reads neg e) (accept M neg e) := by
  induction hw : weight e using Nat.strong_induction_on generalizing neg e with
  | _ w ih =>
    subst hw
    cases h with
    | constant value =>
      rw [accept]
      refine ⟨rfl,fun tuple => (.trans ?_ (some_eq_target value neg).symm)⟩
      cases value <;> cases neg <;> simp [TupleDomain.tuples_none,TupleDomain.tuples_all]
    | comparison operator supported value =>
      rw [accept]
      obtain ⟨domain,hdm,had⟩ := createComparisonDomain_spec supported value neg
      exact .after hdm (columnDomain_reads column domain fun tuple => had (tuple column))
    | isNull =>
      rw [accept]
      obtain ⟨onlyNull,hn,hnc⟩ := Domain.onlyNull_spec (t := S.columnType column.type)
      obtain ⟨domain,hd,hdc⟩ := onlyNull.complementIfNecessary_spec neg
      refine .after hn (.after hd (singleton_reads column domain fun tuple => ?_))
      rw [hdc,hnc,← Option.isNone_iff_eq_none]
      exact (some_eq_target _ neg).symm
    | isIn supported values =>
      rw [accept]
      have hor : OverColumn column (LogicalRowExpressions.or (ofFn fun i => .comparison .equal
          column.type supported (.variable column.type column.name) (.constant column.type (values i)))) := by
        refine binaryExpression_closed (fun _ _ => .logical .or) (by simp) fun e he => ?_
        obtain ⟨i,rfl⟩ := mem_ofFn.mp he
        exact .comparison _ _ _
      refine (ih _ (weight_disjuncts supported _ _) hor neg rfl).bind fun result hrs => ?_
      have hin : Reads neg (.isIn column.type supported (.variable column.type column.name)
          fun i => .constant column.type (values i)) result := hrs.congr fun tuple => by
        refine ((pointValuation tuple).value_binaryExpression .or _).trans ?_
        rw [map_ofFn]
        rfl
      split
      case isTrue hal =>
        -- NULL is never in or out of a list, so the result is not ALL
        have hnl := (hin.2 fun _ => none).mp (by rw [TupleDomain.tuples_of_isAll hal]; trivial)
        refine absurd (Eq.trans (Eq.symm ?_) hnl) (none_ne_target neg)
        refine Kleene.combine_unknown .or (fun i => ComparisonOperator.equal.evaluateAt none (values i)) fun i => ?_
        cases values i <;> rfl
      case isFalse => exact hin
    | between supported low high =>
      rw [accept]
      have han : OverColumn column (LogicalRowExpressions.and [.comparison .greaterThanOrEqual column.type (supports_all supported _)
          (.variable column.type column.name) (.constant column.type low), .comparison .lessThanOrEqual column.type
          (supports_all supported _) (.variable column.type column.name) (.constant column.type high)]) := by
        rw [LogicalRowExpressions.and,binaryExpression_pair]
        exact .logical .and (.comparison _ _ _) (.comparison _ _ _)
      refine (ih _ ?_ han neg rfl).mono fun _ hrs => hrs.congr fun tuple => ?_
      · simp only [LogicalRowExpressions.and,binaryExpression_pair,weight]
        omega
      · rw [LogicalRowExpressions.and,binaryExpression_pair]
        rfl
    | not ha =>
      rw [accept]
      refine (ih _ (by simp only [weight]; omega) ha (!neg) rfl).mono fun _ hrs => ⟨hrs.1,fun tuple => ?_⟩
      rw [hrs.2]
      cases neg with
      | false => exact (Kleene.not_eq_top_iff _).symm
      | true => exact (Kleene.not_eq_bot_iff _).symm
    | logical form hl hr =>
      rw [accept]
      refine (ih _ (by simp only [weight]; omega) hl neg rfl).bind fun _ hlf =>
        (ih _ (by simp only [weight]; omega) hr neg rfl).bind fun _ hrg => ?_
      cases hf : (if neg then form.flip else form) with
      | and => exact visitBinaryLogic_and hf hlf hrg
      | or => exact visitBinaryLogic_or hf hl hr hlf hrg

/-- The extraction from a conjunction of predicates over one column each is exact. -/
theorem accept_columnar (M : Metadata I) (h : Columnar e) : Ends (fun _ => False) (Reads false e) (accept M false e) := by
  induction h with
  | column h => exact accept_overColumn M h false
  | and _ _ ihl ihr =>
    rw [accept]
    exact ihl.bind fun _ hl => ihr.bind fun _ hr => visitBinaryLogic_and rfl hl hr

end RowExpressionDomainTranslator
end HetuCore.Relation
