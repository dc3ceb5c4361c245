import HetuCore.Relation.RangeDisjunctsLoop
import HetuCore.Relation.ColumnExtraction

namespace HetuCore.Relation
open Foundation Predicate LogicalRowExpressions RowExpression List

namespace RowExpressionDomainTranslator
variable {S : Signature} {column : VariableReference S}

/-- The predicate of discrete values is true at the values of a white list, or at those off a black list. -/
theorem extractDiscreteDisjuncts_spec {α : Type} [DecidableEq α] [Infinite α] {values : EquatableValueSet α}
    (supports : ∀ operator : ComparisonOperator, operator.Supports (.comparable α) → operator.Supports (S.columnType column.type))
    (native : α → S.Value column.type) {list : List α} (hl : ∀ v, v ∈ list ↔ v ∈ values.entries) (hne : list ≠ []) :
    ∃ disjuncts, extractDiscreteDisjuncts (.variable column.type column.name) (supports .equal trivial) native
        values.whiteList list = .ok disjuncts ∧ (∀ d ∈ disjuncts, OverColumn column d) ∧
      ∀ V x, @Sees S (.comparable α) V column supports native x →
        ((∃ d ∈ disjuncts, V.value d = ⊤) ↔ ∃ v, x = some v ∧ values.containsValue v = true) := by
  obtain ⟨first,rest,rfl⟩ := exists_cons_of_ne_nil hne
  have ho := equalOrIn_overColumn native (supports .equal trivial) first rest
  refine ⟨_,rfl,forall_mem_singleton.mpr ?_,fun V x hs => ?_⟩
  · split
    · exact ho
    · exact .not ho
  · have hvl := equalOrIn_value hs trivial first rest
    have he : ∀ v w : α, ComparisonOperator.equal.holdsAt (t := .comparable α) v w = decide (v = w) := fun _ _ => rfl
    simp only [mem_singleton,exists_eq_left,EquatableValueSet.containsValue_iff,← hl]
    cases values.whiteList with
    | true =>
      rw [if_pos rfl,hvl]
      refine (@mem_values_iff (.comparable α) x (first :: rest)).trans (exists_congr fun v => and_congr_right fun _ => ?_)
      simp [he]
    | false =>
      rw [if_neg Bool.false_ne_true,V.value_not,Kleene.not_eq_top_iff,hvl]
      refine (@notMem_values_iff (.comparable α) x _ (cons_ne_nil first rest)).trans
        (exists_congr fun v => and_congr_right fun _ => ?_)
      simp only [he,decide_eq_false_iff_not,Bool.false_eq_true,false_iff]
      exact ⟨fun h hv => h v hv rfl,fun h w hw hvw => h (hvw ▸ hw)⟩

theorem pointValuation_sees (tuple : PointRow S) (column : VariableReference S) :
    Sees (pointValuation tuple) column (fun _ => id) id (tuple column) := fun _ _ _ => rfl

variable [DecidableEq (RowExpression S .boolean)]

variable (iteration : SetIteration)

/-- The disjuncts of a value set that is neither none nor all are true at its points. -/
theorem extractDisjuncts_spec {columnType : ColumnType}
    (supports : ∀ operator : ComparisonOperator, operator.Supports columnType → operator.Supports (S.columnType column.type))
    (native : columnType.Value → S.Value column.type) {values : ValueSet columnType} (hn : values.isNone = false)
    (ha : values.isAll = false) :
    ∃ disjuncts, extractDisjuncts iteration (.variable column.type column.name) supports native values = .ok disjuncts ∧
      (∀ d ∈ disjuncts, OverColumn column d) ∧ ∀ V x, Sees V column supports native x →
        ((∃ d ∈ disjuncts, V.value d = ⊤) ↔ ∃ p, x = some p ∧ values.Contains p) := by
  cases columnType with
  | orderable α => exact extractRangeDisjuncts_spec column native supports ha
  | comparable α =>
    refine extractDiscreteDisjuncts_spec supports native (fun v => iteration.mem_list) fun hnl => ?_
    have he : EquatableValueSet.entries values = ∅ :=
      Finset.eq_empty_of_forall_notMem fun v hv => by simpa [hnl] using iteration.mem_list.mpr hv
    have hb : (EquatableValueSet.isNone values || EquatableValueSet.isAll values) = true := by
      rw [EquatableValueSet.isNone,EquatableValueSet.isAll,he]
      cases EquatableValueSet.whiteList values <;> rfl
    rw [Bool.or_eq_true] at hb
    exact hb.elim (fun h => Bool.false_ne_true (hn.symm.trans h)) fun h => Bool.false_ne_true (ha.symm.trans h)
  | incomparable α =>
    have hb : (!AllOrNoneValueSet.all values) = false ∧ AllOrNoneValueSet.all values = false := ⟨hn,ha⟩
    rw [hb.2] at hb
    exact absurd hb.1.symm Bool.false_ne_true

variable [DecidableEq S.Base]

/-- A disjunction over the column that is true somewhere keeps its value, whatever the default. -/
theorem combineDisjunctsWithDefault_spec {disjuncts : List (RowExpression S .boolean)} {domain : Domain column.columnType}
    (ho : ∀ d ∈ disjuncts, OverColumn column d)
    (ht : ∀ tuple : PointRow S, (∃ d ∈ disjuncts, truthAt tuple d = ⊤) ↔ domain.Admits (tuple column))
    (hs : domain.isNone = false) : OverColumn column (combineDisjunctsWithDefault disjuncts TRUE_CONSTANT) ∧
      ∀ tuple : PointRow S, truthAt tuple (combineDisjunctsWithDefault disjuncts TRUE_CONSTANT) = ⊤ ↔
        domain.Admits (tuple column) := by
  have hc : ∀ tuple : PointRow S, Joiner.or.combine (disjuncts.map (truthAt tuple)) = ⊤ ↔ domain.Admits (tuple column) := by
    intro tuple
    rw [Kleene.combine_or_eq_top,← ht]
    simp only [mem_map,exists_exists_and_eq_and]
  refine ⟨combineWithDefault_closed (OverColumn.logical_iff .or) (fun _ => .flip) (.emptyConstant _)
    ho (.constant true),fun tuple => ?_⟩
  obtain ⟨x,hx⟩ := not_forall.mp fun h => Bool.false_ne_true (hs.symm.trans ((Domain.isNone_iff domain).mpr h))
  have hp := (hc (Function.update (fun _ => none) column x)).mpr (by rw [Function.update_self]; exact not_not.mp hx)
  have hd := (pointValuation _).combineWithDefault_default .or disjuncts
    (fun h => Bool.false_ne_true (Option.some.inj (h.symm.trans hp))) TRUE_CONSTANT FALSE_CONSTANT
  rw [← hc,combineDisjunctsWithDefault,hd]
  exact iff_of_eq (congrArg (· = ⊤) ((pointValuation tuple).value_combineWithDefault .or disjuncts FALSE_CONSTANT
    ((pointValuation tuple).value_emptyConstant .or)))

variable (column) in
/-- The predicate of a domain is over the column and true at the points the domain admits. -/
theorem domainPredicate_spec (domain : Domain column.columnType) :
    ∃ e, domainPredicate iteration domain (.variable column.type column.name) = .ok e ∧ OverColumn column e ∧
      ∀ tuple : PointRow S, truthAt tuple e = ⊤ ↔ domain.Admits (tuple column) := by
  have hi : ∀ tuple : PointRow S,
      truthAt tuple (.isNull column.type (.variable column.type column.name)) = ⊤ ↔ tuple column = none := fun tuple =>
    Option.some_inj.trans Option.isNone_iff_eq_none
  rw [domainPredicate]
  split
  case isTrue hnn =>
    have he := (ValueSet.isNone_iff domain.values).mp hnn
    refine ⟨_,rfl,?_⟩
    cases hn : domain.nullAllowed with
    | true =>
      refine ⟨.isNull,fun tuple => (hi tuple).trans ?_⟩
      cases tuple column <;> simp [Domain.Admits,hn,he]
    | false =>
      refine ⟨.constant false,fun tuple => iff_of_false (fun h => Bool.false_ne_true (Option.some.inj h)) ?_⟩
      cases tuple column <;> simp [Domain.Admits,hn,he]
  case isFalse hnn =>
    split
    case isTrue ha =>
      have hf := (ValueSet.isAll_iff domain.values).mp ha
      refine ⟨_,rfl,?_⟩
      cases hn : domain.nullAllowed with
      | true =>
        refine ⟨.constant true,fun tuple => iff_of_true rfl ?_⟩
        cases tuple column <;> simp [Domain.Admits,hn,hf]
      | false =>
        refine ⟨.not .isNull,fun tuple => Option.some_inj.trans ?_⟩
        cases tuple column <;> simp [Domain.Admits,hn,hf]
    case isFalse ha =>
      obtain ⟨disjuncts,hd,ho,hv⟩ := extractDisjuncts_spec iteration (fun _ => id) id
        (Bool.eq_false_of_not_eq_true hnn) (Bool.eq_false_of_not_eq_true ha)
      have ht : ∀ tuple : PointRow S, (∃ d ∈ disjuncts, truthAt tuple d = ⊤) ↔
          ∃ p, tuple column = some p ∧ domain.values.Contains p := fun tuple =>
        hv (pointValuation tuple) (tuple column) (pointValuation_sees tuple column)
      have hs : domain.isNone = false := by rw [Domain.isNone,Bool.eq_false_of_not_eq_true hnn,Bool.false_and]
      refine Ends.total (.after hd (combineDisjunctsWithDefault_spec ?_ (fun tuple => ?_) hs))
      · split
        · exact forall_mem_append.mpr ⟨ho,forall_mem_singleton.mpr .isNull⟩
        · exact ho
      · split
        case isTrue hn =>
          simp only [mem_append,mem_singleton,or_and_right,exists_or,exists_eq_left,ht,hi]
          cases tuple column <;> simp [Domain.Admits,hn]
        case isFalse hn =>
          rw [ht]
          cases tuple column <;> simp [Domain.Admits,hn]

/-- The predicates of the columns are over their columns and true at the points the domains admit. -/
theorem mapM_domainPredicate_spec (entries : List (Sigma fun c : VariableReference S => Domain c.columnType)) :
    ∃ conjuncts, entries.mapM (fun entry => domainPredicate iteration entry.2 (.variable entry.1.type entry.1.name)) = .ok conjuncts ∧
      (∀ e ∈ conjuncts, Columnar e) ∧ ∀ tuple : PointRow S, (∀ e ∈ conjuncts, truthAt tuple e = ⊤) ↔
        ∀ entry ∈ entries, entry.2.Admits (tuple entry.1) := by
  induction entries with
  | nil => exact ⟨[],rfl,by simp,by simp⟩
  | cons entry entries ih =>
    obtain ⟨e,he,ho,ht⟩ := domainPredicate_spec entry.1 iteration entry.2
    obtain ⟨conjuncts,hc,hcl,ha⟩ := ih
    refine ⟨e :: conjuncts,by rw [mapM_cons,he,hc]; rfl,forall_mem_cons.mpr ⟨.column ho,hcl⟩,fun tuple => ?_⟩
    rw [forall_mem_cons,forall_mem_cons,ht,ha]

theorem toPredicate_spec (tupleDomain : TupleDomain (VariableReference.columnType (S := S))) :
    ∃ e, toPredicate iteration tupleDomain = .ok e ∧ Columnar e ∧
      ∀ tuple, truthAt tuple e = ⊤ ↔ tuple ∈ tupleDomain.tuples := by
  have hc : ∀ value, Columnar (S := S) (.constant .boolean (some value)) := fun value =>
    .column (OverColumn.constant value : OverColumn (⟨.boolean,""⟩ : VariableReference S) _)
  rw [toPredicate]
  cases hdm : tupleDomain.domains with
  | none =>
    refine ⟨_,rfl,hc false,fun tuple => ?_⟩
    rw [TupleDomain.tuples_of_isNone (a := tupleDomain) (by rw [TupleDomain.isNone,hdm]; rfl)]
    exact iff_of_false (fun h => Bool.false_ne_true (Option.some.inj h)) (Set.notMem_empty tuple)
  | some domains =>
    obtain ⟨conjuncts,hcn,hcl,ha⟩ := mapM_domainPredicate_spec iteration domains.entries
    refine Ends.total (Ends.after hcn ⟨combineWithDefault_closed Columnar.and_iff (fun _ => Columnar.flip)
      (hc false) hcl (hc true),fun tuple => ?_⟩)
    have hv := (pointValuation tuple).value_combineWithDefault .and conjuncts TRUE_CONSTANT
      ((pointValuation tuple).value_emptyConstant .and)
    refine (iff_of_eq (congrArg (· = ⊤) hv)).trans ?_
    rw [Kleene.combine_and_eq_top,forall_mem_map,TupleDomain.tuples_of_domains hdm]
    refine (ha tuple).trans (Iff.trans ?_ Set.mem_univ_pi.symm)
    exact ⟨fun h c d hd => h ⟨c,d⟩ (AList.mem_lookup_iff.mp hd),fun h entry he => h entry.1 entry.2 (AList.mem_lookup_iff.mpr he)⟩

/-- Every tuple domain is written as a predicate that is TRUE on exactly the rows it contains, and from
which an equal tuple domain is extracted with TRUE remaining. -/
theorem toPredicate_roundTrip {I : Interpretation S} (M : Metadata I) (iteration : SetIteration)
    (tupleDomain : TupleDomain (VariableReference.columnType (S := S))) :
    ∃ predicate, toPredicate iteration tupleDomain = .ok predicate ∧
      (∀ row : Row S, truth I row predicate = ⊤ ↔ tupleDomain.includesRow (fun v => row v.type v.name) = true) ∧
      ∃ result, fromPredicate M predicate = .ok result ∧ result.tupleDomain.equals tupleDomain = true ∧
        result.remainingExpression = TRUE_CONSTANT := by
  obtain ⟨predicate,hp,hc,htr⟩ := toPredicate_spec iteration tupleDomain
  obtain ⟨result,hrs,hr,ht⟩ := (accept_columnar M hc).total
  have hs : result.tupleDomain.tuples = tupleDomain.tuples :=
    Set.ext fun tuple => (ht tuple).trans (htr tuple)
  refine ⟨predicate,hp,fun row => ?_,result,hrs,(TupleDomain.equals_iff _ _).mpr hs,hr⟩
  rw [hc.truth_eq row,htr,TupleDomain.includesRow_iff]
  rfl

end RowExpressionDomainTranslator

namespace Numbers
open RowExpressionDomainTranslator

noncomputable def iteration : SetIteration := ⟨Finset.toList,Finset.coe_toList⟩

/-- `n` is NULL, or not 2 and either below 4 or above 7; `name` is neither `a` nor `b`, and not NULL. -/
def domains (numbers : SortedRangeSet Nat) : TupleDomain (VariableReference.columnType (S := signature)) :=
  .withColumnDomains ((AList.singleton (⟨natural,"n"⟩ : VariableReference signature) ⟨numbers,true⟩).insert
    ⟨.other .text,"name"⟩ ⟨(⟨false,{"a","b"}⟩ : EquatableValueSet String),false⟩)

theorem toPredicate_roundTrip_numbers : ∃ numbers, (do
      let below ← Predicate.Range.lessThan 2
      let between ← Predicate.Range.range 2 false 4 false
      let above ← Predicate.Range.greaterThan 7
      SortedRangeSet.copyOf [above,below,between]) = .ok numbers ∧
    ∃ predicate, toPredicate iteration (domains numbers) = .ok predicate ∧
      (∀ row : Row signature, truth (interpretation fun n => n) row predicate = ⊤ ↔
        (domains numbers).includesRow (fun v => row v.type v.name) = true) ∧
      ∃ result, fromPredicate exact predicate = .ok result ∧ result.tupleDomain.equals (domains numbers) = true ∧
        result.remainingExpression = TRUE_CONSTANT :=
  ⟨_,rfl,toPredicate_roundTrip exact iteration _⟩

end Numbers
end HetuCore.Relation
