import HetuCore.Relation.ComparisonRewrite
import HetuCore.Relation.LogicalRowExpressionsLaws

namespace HetuCore.Relation
open Foundation Predicate LogicalRowExpressions RowExpression RowExpressionInterpreter RowExpressionDomainTranslator ComparisonOperator

theorem ComparisonOperator.evaluate_some (operator : ComparisonOperator) {t : ColumnType} (v w : t.Value) :
    operator.evaluate (some v) (some w) = (some (operator.holds v w) : Kleene) := by
  cases operator <;> rfl

theorem ComparisonOperator.holds_of_orderable {t : ColumnType} (h : lessThan.Supports t) (v w : t.Value)
    (operator : ComparisonOperator) : operator.holds v w =
      match operator with
      | equal => equal.holds v w
      | notEqual => !equal.holds v w
      | lessThan => lessThan.holds v w
      | lessThanOrEqual => lessThan.holds v w || equal.holds v w
      | greaterThan => !(lessThan.holds v w || equal.holds v w)
      | greaterThanOrEqual => !lessThan.holds v w
      | isDistinctFrom => !equal.holds v w := by
  cases t with
  | orderable α =>
    have hle : ∀ a b : α, decide (a ≤ b) = (decide (a < b) || decide (a = b)) := fun a b => by
      rw [← Bool.decide_or,decide_eq_decide,le_iff_lt_or_eq]
    have hgt : ∀ a b : α, decide (b < a) = !(decide (a < b) || decide (a = b)) := fun a b => by
      rw [← hle,← decide_not,decide_eq_decide,not_le]
    have hge : ∀ a b : α, decide (b ≤ a) = !decide (a < b) := fun a b => by rw [← decide_not,decide_eq_decide,not_lt]
    cases operator with
    | equal | lessThan => rfl
    | notEqual | isDistinctFrom => exact decide_not
    | lessThanOrEqual => exact hle v w
    | greaterThan => exact hgt v w
    | greaterThanOrEqual => exact hge v w
  | comparable α | incomparable α => exact h.elim

/-- A strictly monotone cast with a saturated floor, between linear orders. -/
private theorem floor_order {α β : Type} [LinearOrder α] [LinearOrder β] (cast : α → β) (floor : β → α)
    (hm : StrictMono cast) (hg : ∀ v y, cast y ≤ v → cast (floor v) ≤ v ∧ y ≤ floor v)
    (hs : ∀ v, (∀ y, v < cast y) → ∀ y, floor v ≤ y) (v : β) (x : α) :
    (v = cast (floor v) → (cast x < v ↔ x < floor v) ∧ (cast x = v ↔ x = floor v)) ∧
    (cast (floor v) < v → (cast x < v ↔ x ≤ floor v) ∧ cast x ≠ v) ∧
    (v < cast (floor v) → v < cast x ∧ floor v ≤ x) := by
  refine ⟨fun hv => ?_,fun hv => ?_,fun hv => ?_⟩
  · have hlt : cast x < cast (floor v) ↔ x < floor v := hm.lt_iff_lt
    have heq : cast x = cast (floor v) ↔ x = floor v := hm.injective.eq_iff
    rw [← hv] at hlt heq
    exact ⟨hlt,heq⟩
  · have hle : cast x ≤ v → x ≤ floor v := fun hx => (hg v x hx).2
    have hlt : x ≤ floor v → cast x < v := fun hx => (hm.monotone hx).trans_lt hv
    exact ⟨⟨fun hx => hle hx.le,hlt⟩,fun hx => absurd (hlt (hle hx.le)) (hx ▸ lt_irrefl _)⟩
  · have ha : ∀ y, v < cast y := fun y => lt_of_not_ge fun hy => absurd (hg v y hy).1 (not_le.mpr hv)
    exact ⟨ha x,hs v ha x⟩

namespace SaturatedFloor
variable {s t : ColumnType} {cast : s.Value → t.Value} {floor : t.Value → s.Value}

/-- A cast operand compared with a value, by where the cast of the value's floor lies. -/
theorem holds_floor (h : SaturatedFloor cast floor) (hi : Function.Injective cast) (v : t.Value) (x : s.Value) :
    (compareTo v (cast (floor v)) = .eq →
      lessThan.holds (cast x) v = lessThan.holds x (floor v) ∧ equal.holds (cast x) v = equal.holds x (floor v)) ∧
    (compareTo v (cast (floor v)) = .gt →
      lessThan.holds (cast x) v = lessThanOrEqual.holds x (floor v) ∧ equal.holds (cast x) v = false) ∧
    (compareTo v (cast (floor v)) = .lt →
      lessThan.holds (cast x) v = false ∧ equal.holds (cast x) v = false ∧ lessThan.holds x (floor v) = false) := by
  cases s with
  | comparable α | incomparable α => exact h.source.elim
  | orderable α =>
    cases t with
    | comparable β | incomparable β => exact h.result.elim
    | orderable β =>
      have hm : Monotone cast := fun a b hab => of_decide_eq_true (h.monotone a b (decide_eq_true hab))
      have hs := floor_order cast floor (hm.strictMono_of_injective hi)
        (fun v y hy => (h.greatest v y (decide_eq_true hy)).imp of_decide_eq_true of_decide_eq_true)
        (fun v hv y => of_decide_eq_true (h.saturates v (fun y => decide_eq_true (hv y)) y)) v x
      refine ⟨fun hv => ?_,fun hv => ?_,fun hv => ?_⟩
      · obtain ⟨hlt,heq⟩ := hs.1 (compare_eq_iff_eq.mp hv)
        exact ⟨decide_eq_decide.mpr hlt,decide_eq_decide.mpr heq⟩
      · obtain ⟨hlt,heq⟩ := hs.2.1 (compare_gt_iff_gt.mp hv)
        exact ⟨decide_eq_decide.mpr hlt,decide_eq_false heq⟩
      · obtain ⟨hlt,hle⟩ := hs.2.2 (compare_lt_iff_lt.mp hv)
        exact ⟨decide_eq_false hlt.not_gt,decide_eq_false hlt.ne',decide_eq_false hle.not_gt⟩

theorem of_order {α β : Type} [LinearOrder α] [LinearOrder β] {cast : α → β} {floor : β → α} (hm : Monotone cast)
    (hg : ∀ v y, cast y ≤ v → cast (floor v) ≤ v ∧ y ≤ floor v) (hs : ∀ v, (∀ y, v < cast y) → ∀ y, floor v ≤ y) :
    SaturatedFloor (s := .orderable α) (t := .orderable β) cast floor :=
  ⟨trivial,trivial,fun _ _ h => decide_eq_true (hm (of_decide_eq_true h)),
    fun v y h => (hg v y (of_decide_eq_true h)).imp decide_eq_true decide_eq_true,
    fun v h y => decide_eq_true (hs v (fun y => of_decide_eq_true (h y)) y)⟩

end SaturatedFloor

namespace RowExpressionDomainTranslator
variable {S : Signature} {I : Interpretation S}

/-- The rewritten comparison has the value of the comparison with the cast operand, NULL included. -/
theorem truth_rewriteComparisonExpression {s t : SqlType S.Base} {floor : S.Value t → S.Value s}
    (h : SaturatedFloor (I.cast s t) floor) (hi : Function.Injective (I.cast s t)) (row : Row S) (expression : RowExpression S s) (v : S.Value t)
    (operator : ComparisonOperator) :
    truth I row (rewriteComparisonExpression h.source expression (compareTo v (I.cast s t (floor v))) (floor v) operator) =
      operator.evaluate ((eval I row expression).map (I.cast s t)) (some v) := by
  cases hx : eval I row expression with
  | none =>
    cases operator <;> cases compareTo v (I.cast s t (floor v)) <;>
      simp only [rewriteComparisonExpression,LogicalRowExpressions.and,LogicalRowExpressions.or,binaryExpression_pair,
        truth_logical,truth_comparison,eval,hx,Option.map_none] <;> rfl
  | some x =>
    obtain ⟨heq,hgt,hlt⟩ := h.holds_floor hi v x
    have hc := holds_of_orderable h.result (I.cast s t x) v
    have hs := holds_of_orderable h.source x (floor v)
    have ho : ∀ op : ComparisonOperator, truth I row (.comparison op s (supports_all h.source op) expression
        (.constant s (some (floor v)))) = (some (op.holds x (floor v)) : Kleene) := fun op => by
      rw [truth_comparison,hx,eval,evaluate_some]
    have hp : ∀ form : Joiner, form.join (α := Kleene) (some (equal.holds x (floor v)))
        (some (notEqual.holds x (floor v))) = form.flip.unit := fun form => by
      rw [hs notEqual]
      cases form <;> cases equal.holds x (floor v) <;> rfl
    rw [Option.map_some,evaluate_some,hc]
    cases hv : compareTo v (I.cast s t (floor v)) with
    | eq =>
      obtain ⟨hl,he⟩ := heq hv
      have hsm : rewriteComparisonExpression h.source expression .eq (floor v) operator =
          .comparison operator s (supports_all h.source operator) expression (.constant s (some (floor v))) := by
        cases operator <;> rfl
      rw [hsm,ho,hs,hl,he]
    | gt =>
      obtain ⟨hl,he⟩ := hgt hv
      have hg : greaterThan.holds x (floor v) = !lessThanOrEqual.holds x (floor v) :=
        holds_negate rfl (supports_all h.source _) x (floor v)
      cases operator <;>
        simp only [rewriteComparisonExpression,LogicalRowExpressions.and,LogicalRowExpressions.or,binaryExpression_pair,
          truth_logical,ho,hp,hl,he,hg,Bool.or_false] <;> rfl
    | lt =>
      obtain ⟨hl,he,hls⟩ := hlt hv
      have hg : greaterThanOrEqual.holds x (floor v) = !lessThan.holds x (floor v) :=
        holds_negate rfl h.source x (floor v)
      cases operator <;>
        simp only [rewriteComparisonExpression,LogicalRowExpressions.and,LogicalRowExpressions.or,binaryExpression_pair,
          truth_logical,ho,hp,hl,he,hg,hls,Bool.or_false] <;> rfl

variable {M : Metadata I} {operator : ComparisonOperator} {t : SqlType S.Base}

theorem truth_coerced {s t : SqlType S.Base} {coercion : M.canCoerce s t = true} {argument : RowExpression S s}
    {value : Option (S.Value t)} {coerced : RowExpression S .boolean} (hl : M.Lossless)
    (h : coerceComparisonWithRounding M coercion argument value operator = some coerced) (row : Row S) :
    truth I row coerced = operator.evaluate (eval I row (.cast s t argument)) value := by
  unfold coerceComparisonWithRounding at h
  split at h
  case h_1 => cases h
  case h_2 v =>
    split at h
    case h_1 => cases h
    case h_2 floor hf =>
      cases h
      have hi := hl s t coercion (hf ▸ Option.some_ne_none floor)
      exact truth_rewriteComparisonExpression (M.floor_spec coercion hf) hi row argument v operator

variable {normalized : NormalizedSimpleComparison S t}

theorem normalized_eval {left right : RowExpression S t} (hl : left.betweenFree = true) (hr : right.betweenFree = true)
    (h : toNormalizedSimpleComparison M operator left right = some normalized) (row : Row S) :
    normalized.operator.evaluate (eval I row normalized.expression) normalized.value =
      operator.evaluate (eval I row left) (eval I row right) := by
  rw [toNormalizedSimpleComparison] at h
  split at h
  case h_1 value _ ho =>
    cases h
    rw [optimize_eval row hr ho]
  case h_2 value ho _ =>
    cases h
    rw [optimize_eval row hl ho,evaluate_flip]
  case h_3 => cases h

theorem normalized_supports {left right : RowExpression S t}
    (h : toNormalizedSimpleComparison M operator left right = some normalized) (hs : operator.Supports (S.columnType t)) :
    normalized.operator.Supports (S.columnType t) := by
  rw [toNormalizedSimpleComparison] at h
  split at h
  case h_1 => cases h; exact hs
  case h_2 => cases h; exact supports_flip hs
  case h_3 => cases h

end RowExpressionDomainTranslator
end HetuCore.Relation
