import HetuCore.Relation.RangeDisjuncts
import HetuCore.Predicate.ExcludedPoints

namespace HetuCore.Relation
open Foundation Predicate LogicalRowExpressions RowExpression List

namespace RowExpressionDomainTranslator
variable {S : Signature} {column : VariableReference S} {α : Type} [LinearOrder α] {native : α → S.Value column.type}
  {supports : ∀ operator : ComparisonOperator, operator.Supports (.orderable α) → operator.Supports (S.columnType column.type)}

theorem excludedPointsExpression_selects (first : α) (rest : List α) :
    Selects column supports native (fun x => ∃ m, x = some m ∧ ∀ v ∈ first :: rest, m ≠ .exactly v)
      (excludedPointsExpression (.variable column.type column.name) (fun operator => supports operator trivial)
        (toRowExpression native first) (rest.map (toRowExpression native))) := by
  cases rest with
  | nil =>
    refine comparison_selects (by decide) first fun m => ?_
    rw [forall_mem_singleton]
    exact decide_eq_true_iff
  | cons second rest =>
    refine ⟨.not (inList_overColumn native _ first (second :: rest)),fun V x hs => ?_⟩
    have hv := inList_value hs trivial first (second :: rest)
    refine (V.value_not _ ▸ Kleene.not_eq_top_iff _).trans ?_
    refine (hv ▸ @notMem_values_iff (.orderable α) x _ (cons_ne_nil _ _)).trans ?_
    refine exists_congr fun m => and_congr_right fun _ => forall₂_congr fun v _ => ?_
    exact decide_eq_false_iff_not

variable [DecidableEq (RowExpression S .boolean)]

variable (column supports native) in
/-- A range with excluded points selects its other markers. -/
theorem combineRangeWithExcludedPoints_spec (range : Range α) {values : List α} (h : range.isAll = true → values ≠ []) :
    ∃ e, combineRangeWithExcludedPoints (.variable column.type column.name) (fun operator => supports operator trivial)
      native range (values.map (toRowExpression native)) = .ok e ∧ Selects column supports native
        (fun x => ∃ m, x = some m ∧ range.includes m = true ∧ ∀ v ∈ values, m ≠ .exactly v) e := by
  obtain ⟨e,he,hs⟩ := processRange_spec column native supports range
  cases values with
  | nil =>
    refine ⟨e,he,hs.congr fun x => ?_⟩
    have hal : ¬ range.isAll = true := fun hal => h hal rfl
    simp [hal]
  | cons first rest =>
    refine ⟨_,by rw [map_cons,combineRangeWithExcludedPoints,he]; rfl,
      (combineConjuncts_selects (.cons hs (.cons (excludedPointsExpression_selects first rest) .nil))).congr fun x => ?_⟩
    have hal : ∀ m, range.isAll = true → range.includes m = true := fun m hal => by
      obtain ⟨hl,hh⟩ := (Range.isAll_iff range).mp hal
      rw [Range.includes_iff,hl,hh]
      exact ⟨Marker.lowerUnbounded_le m,Marker.le_upperUnbounded m⟩
    constructor
    · intro hx
      obtain ⟨m,hm,hne⟩ := hx _ (mem_cons_of_mem _ mem_cons_self)
      refine ⟨m,hm,?_,hne⟩
      rcases hx _ mem_cons_self with ha | ⟨n,hn,hi⟩
      · exact hal m ha
      · rwa [Option.some.inj (hm.symm.trans hn)]
    · rintro ⟨m,hm,hi,hne⟩
      exact forall_mem_cons.mpr ⟨.inr ⟨m,hm,hi⟩,forall_mem_singleton.mpr ⟨m,hm,hne⟩⟩

/-- The disjuncts and single values select the markers of the ranges that are not excluded. -/
def Writes (column : VariableReference S)
    (supports : ∀ operator : ComparisonOperator, operator.Supports (.orderable α) → operator.Supports (S.columnType column.type))
    (native : α → S.Value column.type) (selected : Marker α → Prop) (ds : List (RowExpression S .boolean))
    (values : List α) : Prop :=
  (∀ d ∈ ds, OverColumn column d) ∧ ∀ V x, @Sees S (.orderable α) V column supports native x →
    ((∃ d ∈ ds, V.value d = ⊤) ∨ (∃ v ∈ values, x = some (.exactly v)) ↔ ∃ m, x = some m ∧ selected m)

variable {ds : List (RowExpression S .boolean)} {selected : Marker α → Prop}

omit [DecidableEq (RowExpression S .boolean)] in
theorem Writes.cons_value {selected' : Marker α → Prop}
    {values : List α} (h : Writes column supports native selected ds values) (v : α)
    (hi : ∀ m, selected' m ↔ m = .exactly v ∨ selected m) :
    Writes column supports native selected' ds (v :: values) := by
  refine ⟨h.1,fun V x hs => ?_⟩
  rw [exists_mem_cons_iff,or_left_comm,h.2 V x hs]
  simp only [hi,and_or_left,exists_or,exists_eq_right]

variable {d : RowExpression S .boolean}

omit [DecidableEq (RowExpression S .boolean)] in
theorem Writes.cons_disjunct {selected' chosen : Marker α → Prop}
    {values : List α} (h : Writes column supports native selected ds values)
    (hd : Selects column supports native (fun x => ∃ m, x = some m ∧ chosen m) d)
    (hi : ∀ m, selected' m ↔ chosen m ∨ selected m) :
    Writes column supports native selected' (d :: ds) values := by
  refine ⟨forall_mem_cons.mpr ⟨hd.1,h.1⟩,fun V x hs => ?_⟩
  rw [exists_mem_cons_iff,or_assoc,h.2 V x hs,hd.2 V x hs]
  simp only [hi,and_or_left,exists_or]

omit [DecidableEq (RowExpression S .boolean)] in
theorem Writes.addSingleValues {values : List α} (h : Writes column supports native selected ds values) :
    Writes column supports native selected (RowExpressionDomainTranslator.addSingleValues (.variable column.type column.name)
      (supports .equal trivial) ds (values.map (toRowExpression native))) [] := by
  cases values with
  | nil => exact h
  | cons first rest =>
    refine ⟨forall_mem_append.mpr ⟨h.1,forall_mem_singleton.mpr (equalOrIn_overColumn native _ first rest)⟩,
      fun V x hs => ?_⟩
    have hvl : V.value (equalOrIn (supports .equal trivial) (.variable column.type column.name)
        (toRowExpression native first) (rest.map (toRowExpression native))) = ⊤ ↔ ∃ v ∈ first :: rest, x = some (.exactly v) := by
      rw [equalOrIn_value hs trivial first rest]
      refine (@mem_values_iff (.orderable α) x (first :: rest)).trans ⟨?_,?_⟩
      · rintro ⟨m,hm,v,hv,hh⟩
        exact ⟨v,hv,hm.trans (congrArg some (of_decide_eq_true hh))⟩
      · rintro ⟨v,hv,hx⟩
        exact ⟨_,hx,v,hv,decide_eq_true rfl⟩
    rw [← h.2 V x hs,← hvl]
    simp [RowExpressionDomainTranslator.addSingleValues]

theorem addRange_of_span {state : Disjuncts S column.type α} {range : Range α} (hs : ¬ range.isSingleValue = true)
    {points : List α} (hp : (state.singleValueExclusions.takeWhile range.contains).mapM Range.getSingleValue = .ok points) (hd : combineRangeWithExcludedPoints (.variable column.type column.name)
      (fun operator => supports operator trivial) native range (points.map (toRowExpression native)) = .ok d) :
    addRange (.variable column.type column.name) (fun operator => supports operator trivial) native state range =
      .ok ⟨state.disjuncts ++ [d],state.singleValues,state.singleValueExclusions.dropWhile range.contains⟩ := by
  rw [addRange,if_neg hs,hp]
  cases points with
  | nil =>
    exact congrArg (· >>= _) hd
  | cons point points => exact congrArg (· >>= _) hd

variable (column supports native) in
theorem foldlM_addRange_spec (ranges : List (Range α)) : ∀ state : Disjuncts S column.type α,
    Excludes ranges state.singleValueExclusions →
    ∃ (ds : List (RowExpression S .boolean)) (values : List α) (left : List (Range α)),
      ranges.foldlM (addRange (.variable column.type column.name) (fun operator => supports operator trivial) native) state =
        .ok ⟨state.disjuncts ++ ds,state.singleValues ++ values.map (toRowExpression native),left⟩ ∧
      Writes column supports native (Remains ranges state.singleValueExclusions) ds values := by
  induction ranges with
  | nil =>
    intro state _
    exact ⟨[],[],state.singleValueExclusions,by simp; rfl,by simp,by simp [Remains]⟩
  | cons r ranges ih =>
    intro state h
    rw [foldlM_cons]
    by_cases hs : r.isSingleValue = true
    · obtain ⟨v,hv,hlw,hh⟩ := Range.getSingleValue_spec hs
      obtain ⟨ds,values,left,hl,hw⟩ := ih
        { state with singleValues := state.singleValues ++ [toRowExpression native v] } (h.tail_of_single hs)
      refine ⟨ds,v :: values,left,?_,hw.cons_value v fun m => ?_⟩
      · rw [addRange,if_pos hs,hv]
        refine hl.trans ?_
        simp
      · rw [h.remains_cons_single hs,Range.includes_single hlw hh]
    · obtain ⟨points,hpn,hnl,hm⟩ := mapM_getSingleValue fun p hp =>
        h.single p ((Excludes.mem_iff (r := r) p).mpr (.inl hp))
      obtain ⟨d,hd,hsl⟩ := combineRangeWithExcludedPoints_spec column native supports r
        fun ha hn => h.takeWhile_ne_nil ha (hnl.mp hn)
      obtain ⟨ds,values,left,hl,hw⟩ := ih
        ⟨state.disjuncts ++ [d],state.singleValues,state.singleValueExclusions.dropWhile r.contains⟩ h.tail
      refine ⟨d :: ds,values,left,?_,hw.cons_disjunct hsl fun m => ?_⟩
      · rw [addRange_of_span hs hpn hd]
        refine hl.trans ?_
        simp
      · rw [h.remains_cons,hm]

variable (column supports native) in
/-- The disjuncts of a sorted range set are over the column and true at its markers. -/
theorem extractRangeDisjuncts_spec {s : SortedRangeSet α} (hs : s.isAll = false) :
    ∃ ds, extractRangeDisjuncts (.variable column.type column.name) (fun operator => supports operator trivial) native
        s.getOrderedRanges = .ok ds ∧ (∀ d ∈ ds, OverColumn column d) ∧
      ∀ V x, @Sees S (.orderable α) V column supports native x →
        ((∃ d ∈ ds, V.value d = ⊤) ↔ ∃ m, x = some m ∧ s.Contains m) := by
  obtain ⟨copy,hcy,hcp⟩ := Builder.build_spec s.getOrderedRanges
  obtain rfl : copy = s := SortedRangeSet.ext_contains hcp
  obtain ⟨complement,hcm,hc⟩ := SortedRangeSet.complement_spec copy
  obtain ⟨exclusions,hex,he⟩ :=
    Builder.build_spec (complement.getOrderedRanges.filter Range.isSingleValue)
  obtain ⟨union,hun,hu⟩ := SortedRangeSet.union_spec exclusions copy
  simp only [he] at hu
  obtain ⟨ds,values,left,hl,hw⟩ := foldlM_addRange_spec column native supports
    union.getOrderedRanges ⟨[],[],complement.getOrderedRanges.filter Range.isSingleValue⟩ (.of_complement hs hc hu)
  have hr : ∀ m, Remains union.getOrderedRanges (complement.getOrderedRanges.filter Range.isSingleValue) m ↔
      copy.Contains m := by
    intro m
    refine ⟨fun h => ((hu m).mp h.1).resolve_left fun ⟨p,hp,hpm⟩ => h.2 p hp hpm,fun h => ⟨(hu m).mpr (.inr h),?_⟩⟩
    intro p hp hpm
    exact (hc m).mp ⟨p,(mem_filter.mp hp).1,hpm⟩ h
  refine Ends.total (.after hcy (.after hcm (.after hex (.after hun (.after hl ?_)))))
  obtain ⟨ho,hsl⟩ := hw.addSingleValues
  refine ⟨ho,fun V x hss => ?_⟩
  simpa [hr] using hsl V x hss

end RowExpressionDomainTranslator
end HetuCore.Relation
