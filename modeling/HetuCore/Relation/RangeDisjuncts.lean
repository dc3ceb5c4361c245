import HetuCore.Relation.DomainToPredicate
import HetuCore.Relation.PointValuation

namespace HetuCore.Relation
open Foundation Predicate LogicalRowExpressions RowExpression Marker ComparisonOperator List

namespace ComparisonOperator

/-- A comparison other than IS DISTINCT FROM is decided at the points, and unknown at NULL. -/
theorem evaluateAt_eq_some {operator : ComparisonOperator} (h : operator ≠ isDistinctFrom) {t : ColumnType}
    (x : Option t.Point) (v : t.Value) (b : Bool) :
    operator.evaluateAt x (some v) = some b ↔ ∃ p, x = some p ∧ operator.holdsAt p v = b := by
  have hv : operator.evaluateAt x (some v) = x.map (operator.holdsAt · v) := by
    cases x <;> cases operator <;> first | rfl | exact absurd rfl h
  rw [hv]
  exact Option.map_eq_some_iff

end ComparisonOperator

namespace RowExpressionDomainTranslator
variable {S : Signature} {column : VariableReference S}

theorem inList_overColumn {α : Type} (native : α → S.Value column.type)
    (supported : equal.Supports (S.columnType column.type)) (first : α) (rest : List α) :
    OverColumn column (inList supported (.variable column.type column.name) (toRowExpression native first)
      (rest.map (toRowExpression native))) := by
  have hg : (toRowExpression native first :: rest.map (toRowExpression native)).get =
      fun i => .constant column.type (some (native ((first :: rest).get (i.cast (by simp))))) := by
    funext i
    simp only [get_eq_getElem,← map_cons,getElem_map]
    rfl
  rw [inList,hg]
  exact .isIn supported _

theorem equalOrIn_overColumn {α : Type} (native : α → S.Value column.type)
    (supported : equal.Supports (S.columnType column.type)) (first : α) (rest : List α) :
    OverColumn column (equalOrIn supported (.variable column.type column.name) (toRowExpression native first)
      (rest.map (toRowExpression native))) := by
  cases rest with
  | nil => exact .comparison _ _ _
  | cons second rest => exact inList_overColumn native supported first (second :: rest)

/-- The valuation compares the column as if it were at the point. -/
def Sees {columnType : ColumnType} (V : Valuation S) (column : VariableReference S)
    (supports : ∀ operator : ComparisonOperator, operator.Supports columnType → operator.Supports (S.columnType column.type))
    (native : columnType.Value → S.Value column.type) (x : Option columnType.Point) : Prop :=
  ∀ (operator : ComparisonOperator) (h : operator.Supports columnType) (v : columnType.Value),
    V.value (.comparison operator column.type (supports operator h) (.variable column.type column.name)
      (toRowExpression native v)) = operator.evaluateAt x (some v)

variable {columnType : ColumnType}

section
variable {V : Valuation S}
  {supports : ∀ operator : ComparisonOperator, operator.Supports columnType → operator.Supports (S.columnType column.type)}
  {native : columnType.Value → S.Value column.type} {x : Option columnType.Point} (h : Sees V column supports native x)
  (heq : equal.Supports columnType) (first : columnType.Value) (rest : List columnType.Value)
include h

theorem inList_value :
    V.value (inList (supports .equal heq) (.variable column.type column.name) (toRowExpression native first)
      (rest.map (toRowExpression native))) =
        Joiner.or.combine ((first :: rest).map fun v => equal.evaluateAt x (some v)) := by
  rw [inList,V.value_isIn]
  have hm := map_ofFn (f := (toRowExpression native first :: rest.map (toRowExpression native)).get)
    (g := fun e => V.value (.comparison .equal column.type (supports .equal heq) (.variable column.type column.name) e))
  rw [ofFn_get,← map_cons,map_map] at hm
  refine congrArg Joiner.or.combine (hm.symm.trans (map_congr_left fun v _ => ?_))
  exact h .equal heq v

theorem equalOrIn_value :
    V.value (equalOrIn (supports .equal heq) (.variable column.type column.name) (toRowExpression native first)
      (rest.map (toRowExpression native))) =
        Joiner.or.combine ((first :: rest).map fun v => equal.evaluateAt x (some v)) := by
  cases rest with
  | nil =>
    rw [map_singleton,Joiner.combine_singleton]
    exact h .equal heq first
  | cons second rest => exact inList_value h heq first (second :: rest)

end

variable (x : Option columnType.Point)

theorem mem_values_iff (values : List columnType.Value) :
    Joiner.or.combine (values.map fun v => equal.evaluateAt x (some v)) = ⊤ ↔
      ∃ p, x = some p ∧ ∃ v ∈ values, equal.holdsAt p v = true := by
  have he : ∀ v, equal.evaluateAt x (some v) = ⊤ ↔ _ := fun v =>
    evaluateAt_eq_some (by decide) x v true
  rw [Kleene.combine_or_eq_top]
  simp only [mem_map,exists_exists_and_eq_and,he]
  constructor
  · rintro ⟨v,hv,p,hp,h⟩
    exact ⟨p,hp,v,hv,h⟩
  · rintro ⟨p,hp,v,hv,h⟩
    exact ⟨v,hv,p,hp,h⟩

theorem notMem_values_iff {values : List columnType.Value} (hne : values ≠ []) :
    Joiner.or.combine (values.map fun v => equal.evaluateAt x (some v)) = ⊥ ↔
      ∃ p, x = some p ∧ ∀ v ∈ values, equal.holdsAt p v = false := by
  have he : ∀ v, equal.evaluateAt x (some v) = ⊥ ↔ _ := fun v =>
    evaluateAt_eq_some (by decide) x v false
  rw [Kleene.combine_or_eq_bot]
  simp only [forall_mem_map,he]
  constructor
  · intro h
    obtain ⟨v,hv⟩ := exists_mem_of_ne_nil _ hne
    obtain ⟨p,hp,-⟩ := h v hv
    refine ⟨p,hp,fun w hw => ?_⟩
    obtain ⟨q,hq,hh⟩ := h w hw
    rwa [Option.some.inj (hp.symm.trans hq)]
  · rintro ⟨p,hp,h⟩ v hv
    exact ⟨p,hp,h v hv⟩

section
variable {α : Type} [LinearOrder α] {native : α → S.Value column.type}
  {supports : ∀ operator : ComparisonOperator, operator.Supports (.orderable α) → operator.Supports (S.columnType column.type)}

/-- The expression is over the column and true at the selected points. -/
def Selects (column : VariableReference S)
    (supports : ∀ operator : ComparisonOperator, operator.Supports (.orderable α) → operator.Supports (S.columnType column.type))
    (native : α → S.Value column.type) (selected : Option (Marker α) → Prop) (e : RowExpression S .boolean) : Prop :=
  OverColumn column e ∧ ∀ V x, @Sees S (.orderable α) V column supports native x → (V.value e = ⊤ ↔ selected x)

theorem comparison_selects {operator : ComparisonOperator} (h : operator ≠ .isDistinctFrom) (v : α) {p : Marker α → Prop}
    (hp : ∀ m, operator.holdsAt (t := .orderable α) m v = true ↔ p m) :
    Selects column supports native (fun x => ∃ m, x = some m ∧ p m)
      (.comparison operator column.type (supports operator trivial) (.variable column.type column.name) (toRowExpression native v)) := by
  refine ⟨.comparison _ _ _,fun V x hs => ?_⟩
  simp only [← hp]
  exact (hs operator trivial v) ▸ evaluateAt_eq_some h x v true

theorem Selects.congr {selected selected' : Option (Marker α) → Prop} {e : RowExpression S .boolean}
    (h : Selects column supports native selected e) (hi : ∀ x, selected x ↔ selected' x) :
    Selects column supports native selected' e :=
  ⟨h.1,fun V x hs => (h.2 V x hs).trans (hi x)⟩

variable (column supports native) in
/-- There is no lower end, or its comparison selects the markers from the end on. -/
theorem lowConjunct_spec (range : Range α) : ∃ low, lowConjunct (.variable column.type column.name)
    (fun operator => supports operator trivial) native range = .ok low ∧ (low = [] ∧ range.low = .lowerUnbounded ∨
      ∃ e, low = [e] ∧ Selects column supports native (fun x => ∃ m, x = some m ∧ range.low ≤ m) e) := by
  rw [lowConjunct]
  obtain hl | ⟨a,hl | hl⟩ := range.low_shape
  · rw [if_pos ((isLowerUnbounded_iff _).mpr hl)]
    exact ⟨[],rfl,.inl ⟨rfl,hl⟩⟩
  · rw [hl]
    exact ⟨_,rfl,.inr ⟨_,rfl,comparison_selects (by decide) a fun m => decide_eq_true_iff⟩⟩
  · rw [hl]
    have hc : (exactly a) ⋖ above a := some_covBy rfl
    refine ⟨_,rfl,.inr ⟨_,rfl,comparison_selects (by decide) a fun m => ?_⟩⟩
    exact decide_eq_true_iff.trans ⟨hc.ge_of_gt,hc.lt.trans_le⟩

variable (column supports native) in
/-- There is no upper end, or its comparison selects the markers up to the end. -/
theorem highConjunct_spec (range : Range α) : ∃ high, highConjunct (.variable column.type column.name)
    (fun operator => supports operator trivial) native range = .ok high ∧ (high = [] ∧ range.high = .upperUnbounded ∨
      ∃ e, high = [e] ∧ Selects column supports native (fun x => ∃ m, x = some m ∧ m ≤ range.high) e) := by
  rw [highConjunct]
  obtain hh | ⟨a,hh | hh⟩ := range.high_shape
  · rw [if_pos ((isUpperUnbounded_iff _).mpr hh)]
    exact ⟨[],rfl,.inl ⟨rfl,hh⟩⟩
  · rw [hh]
    exact ⟨_,rfl,.inr ⟨_,rfl,comparison_selects (by decide) a fun m => decide_eq_true_iff⟩⟩
  · rw [hh]
    have hc : (below a) ⋖ exactly a := some_covBy rfl
    refine ⟨_,rfl,.inr ⟨_,rfl,comparison_selects (by decide) a fun m => ?_⟩⟩
    exact decide_eq_true_iff.trans ⟨hc.le_of_lt,fun h => h.trans_lt hc.lt⟩

theorem between_selects (low high : α) : Selects column supports native
    (fun x => ∃ m, x = some m ∧ .exactly low ≤ m ∧ m ≤ .exactly high)
    (.between column.type (supports _ trivial) (.variable column.type column.name) (toRowExpression native low)
      (toRowExpression native high)) := by
  refine ⟨.between _ _ _,fun V x hs => ?_⟩
  have hlw := (comparison_selects (show greaterThanOrEqual ≠ _ by decide) low fun m => decide_eq_true_iff).2 V x hs
  have hhg := (comparison_selects (show lessThanOrEqual ≠ _ by decide) high fun m => decide_eq_true_iff).2 V x hs
  rw [V.value_between (supports _ trivial) (supports _ trivial) (supports _ trivial)]
  refine inf_eq_top_iff.trans ((and_congr hlw hhg).trans ⟨?_,?_⟩)
  · rintro ⟨⟨m,hm,hl⟩,n,hn,hh⟩
    obtain rfl := Option.some.inj (hm.symm.trans hn)
    exact ⟨m,hm,hl,hh⟩
  · rintro ⟨m,hm,hl,hh⟩
    exact ⟨⟨m,hm,hl⟩,m,hm,hh⟩

theorem isBetween_shape {range : Range α} (h : isBetween range = true) :
    ∃ a b, range.low = .exactly a ∧ range.high = .exactly b := by
  simp only [isBetween,Bool.and_eq_true,beq_iff_eq] at h
  obtain hl | ⟨a,hl | hl⟩ := range.low_shape
  · rw [hl] at h
    exact absurd h.1.1.2 (show Bound.above ≠ .exactly by decide)
  · obtain hh | ⟨b,hh | hh⟩ := range.high_shape
    · rw [hh] at h
      exact absurd h.2 (show Bound.below ≠ .exactly by decide)
    · exact ⟨a,b,hl,hh⟩
    · rw [hh] at h
      exact absurd h.2 (show Bound.below ≠ .exactly by decide)
  · rw [hl] at h
    exact absurd h.1.1.2 (show Bound.above ≠ .exactly by decide)

variable [DecidableEq (RowExpression S .boolean)]

theorem combineConjuncts_selects {selected : List (Option (Marker α) → Prop)} {expressions : List (RowExpression S .boolean)}
    (h : List.Forall₂ (Selects column supports native) selected expressions) :
    Selects column supports native (fun x => ∀ p ∈ selected, p x) (combineConjuncts expressions) := by
  have ho : ∀ e ∈ expressions, OverColumn column e := by
    induction h with
    | nil => simp
    | cons hp _ ih => exact forall_mem_cons.mpr ⟨hp.1,ih⟩
  refine ⟨combineWithDefault_closed (OverColumn.logical_iff .and) (fun _ => .flip) (.emptyConstant _)
    ho (.constant true),fun V x hs => ?_⟩
  have hv := V.value_combineWithDefault .and expressions TRUE_CONSTANT (V.value_emptyConstant .and)
  rw [combineConjuncts,hv,Kleene.combine_and_eq_top,forall_mem_map]
  clear ho hv
  induction h with
  | nil => simp
  | cons hp _ ih =>
    dsimp only
    rw [forall_mem_cons,forall_mem_cons]
    exact and_congr (hp.2 V x hs) ih

variable (column supports native) in
/-- A range selects its markers; only the range of all markers selects NULL. -/
theorem processRange_spec (range : Range α) : ∃ e, processRange (.variable column.type column.name)
    (fun operator => supports operator trivial) native range = .ok e ∧
      Selects column supports native (fun x => range.isAll = true ∨ ∃ m, x = some m ∧ range.includes m = true) e := by
  rw [processRange]
  by_cases ha : range.isAll = true
  · rw [if_pos ha]
    exact ⟨_,rfl,.constant true,fun V x _ => iff_of_true (V.value_emptyConstant .and) (.inl ha)⟩
  simp only [ha,Bool.false_eq_true,false_or,Range.includes_iff]
  by_cases hb : isBetween range = true
  · obtain ⟨a,b,hl,hh⟩ := isBetween_shape hb
    rw [if_pos hb,hl,hh]
    exact ⟨_,rfl,between_selects a b⟩
  rw [if_neg hb]
  obtain ⟨low,hlw,hl⟩ := lowConjunct_spec column native supports range
  obtain ⟨high,hhg,hh⟩ := highConjunct_spec column native supports range
  rw [hlw,hhg]
  obtain ⟨rfl,hl⟩ | ⟨e,rfl,hl⟩ := hl
  · obtain ⟨rfl,hh⟩ | ⟨f,rfl,hh⟩ := hh
    · exact absurd ((Range.isAll_iff range).mpr ⟨hl,hh⟩) ha
    · refine ⟨_,rfl,(combineConjuncts_selects (.cons hh .nil)).congr fun x => ?_⟩
      simp [hl,lowerUnbounded_le]
  · obtain ⟨rfl,hh⟩ | ⟨f,rfl,hh⟩ := hh
    · refine ⟨_,rfl,(combineConjuncts_selects (.cons hl .nil)).congr fun x => ?_⟩
      simp [hh,le_upperUnbounded]
    · refine ⟨_,rfl,(combineConjuncts_selects (.cons hl (.cons hh .nil))).congr fun x => ?_⟩
      cases x <;> simp

end

end RowExpressionDomainTranslator
end HetuCore.Relation
