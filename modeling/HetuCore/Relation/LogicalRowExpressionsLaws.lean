import HetuCore.Relation.LogicalRowExpressions

namespace HetuCore.Relation
open Foundation RowExpression Joiner List

namespace RowExpression
variable {S : Signature} (I : Interpretation S) (row : Row S)

@[simp] theorem truth_logical (form : Joiner) (left right : RowExpression S .boolean) :
    truth I row (.logical form left right) = form.join (truth I row left) (truth I row right) := rfl

theorem truth_comparison (operator : ComparisonOperator) (t : SqlType S.Base)
    (supported : operator.Supports (S.columnType t)) (left right : RowExpression S t) :
    truth I row (.comparison operator t supported left right) =
      operator.evaluate (eval I row left) (eval I row right) := rfl

end RowExpression

namespace LogicalRowExpressions
variable {S : Signature}

section closed
variable {P : RowExpression S .boolean → Prop} {form : Joiner}

private theorem combinePairs_closed (hj : ∀ left right, P left → P right → P (.logical form left right)) :
    (queue : List (RowExpression S .boolean)) → (∀ e ∈ queue, P e) → ∀ e ∈ combinePairs form queue, P e
  | [],_ => by simp [combinePairs]
  | [e],h => by simpa [combinePairs] using h
  | left :: right :: queue,h => by
    rw [combinePairs]
    intro e he
    rcases mem_cons.mp he with rfl | he
    · exact hj left right (h left (by simp)) (h right (by simp))
    · exact combinePairs_closed hj queue (fun o ho => h o (by simp [ho])) e he

variable {es : List (RowExpression S .boolean)}

theorem binaryExpression_closed (hj : ∀ left right, P left → P right → P (.logical form left right))
    (hne : es ≠ []) (h : ∀ e ∈ es, P e) : P (binaryExpression form es) := by
  induction es using binaryExpression.induct with
  | form => exact form
  | case1 => exact absurd rfl hne
  | case2 ex =>
    rw [binaryExpression]
    exact h ex mem_cons_self
  | case3 left right queue ih =>
    rw [binaryExpression]
    refine ih ?_ (combinePairs_closed hj _ h)
    exact cons_ne_nil _ _

theorem extractPredicates_closed (hs : ∀ left right, P (.logical form left right) → P left ∧ P right)
    {ex : RowExpression S .boolean} (h : P ex) : ∀ e ∈ extractPredicates form ex, P e := by
  induction ex using extractPredicates.induct form with
  | case1 left right ihl ihr =>
    obtain ⟨hl,hr⟩ := hs left right h
    rw [extractPredicates,if_pos rfl]
    intro e he
    exact (mem_append.mp he).elim (ihl hl e) (ihr hr e)
  | case2 own left right hne =>
    rw [extractPredicates,if_neg hne]
    intro e he
    rwa [mem_singleton.mp he]
  | case3 ex hne =>
    rw [extractPredicates]
    · intro e he
      rwa [mem_singleton.mp he]
    · exact hne

variable [DecidableEq (RowExpression S .boolean)]

theorem removeDuplicates_closed (hf : ∀ e, P e → P (flipOperatorFunctionWithOneVarOneConstant e))
    (h : ∀ e ∈ es, P e) : ∀ e ∈ removeDuplicates es, P e := by
  have hl : ∀ (items : List (RowExpression S .boolean)) (state : List (RowExpression S .boolean) × List (RowExpression S .boolean)),
      (∀ e ∈ items, P e) → (∀ e ∈ state.2, P e) → ∀ e ∈ (items.foldl addUnseen state).2, P e := by
    intro items
    induction items with
    | nil => exact fun state _ hs => hs
    | cons item items ih =>
      intro state hi hs
      refine ih _ (fun e he => hi e (mem_cons_of_mem _ he)) ?_
      have him := hi item mem_cons_self
      rw [addUnseen]
      dsimp only
      split
      · split
        · exact hs
        · exact forall_mem_concat.mpr ⟨hs,hf item him⟩
      · exact forall_mem_concat.mpr ⟨hs,him⟩
  exact hl es ([],[]) h (by simp)

/-- What holds of the operands holds of their combination if the form neither breaks nor makes it. -/
theorem combineWithDefault_closed (hs : ∀ left right, P (.logical form left right) ↔ P left ∧ P right)
    (hf : ∀ e, P e → P (flipOperatorFunctionWithOneVarOneConstant e)) (hz : P (emptyConstant form.flip))
    (h : ∀ e ∈ es, P e) {emptyDefault : RowExpression S .boolean} (hd : P emptyDefault) :
    P (combineWithDefault form es emptyDefault) := by
  rw [combineWithDefault]
  split
  case isTrue => exact hz
  case isFalse =>
    split
    case isTrue => exact hd
    case isFalse hne =>
      refine binaryExpression_closed (fun left right hl hr => (hs left right).mpr ⟨hl,hr⟩) hne ?_
      refine removeDuplicates_closed hf fun e he => ?_
      obtain ⟨o,ho,heo⟩ := mem_flatMap.mp (mem_of_mem_filter he)
      exact extractPredicates_closed (fun left right => (hs left right).mp) (h o ho) e heo

end closed

/-- A three-valued reading of predicates under which the connectives are those of the lattice, IN and
BETWEEN are the comparisons they stand for, and a flipped comparison is the comparison. -/
structure Valuation (S : Signature) where
  value : RowExpression S .boolean → Kleene
  value_not : ∀ argument, value (.not argument) = (value argument).not
  value_logical : ∀ form left right, value (.logical form left right) = form.join (value left) (value right)
  value_isIn : ∀ {t : SqlType S.Base} (supported) (operand : RowExpression S t) {n : Nat}
    (values : Fin (n + 1) → RowExpression S t), value (.isIn t supported operand values) =
      Joiner.or.combine (ofFn fun i => value (.comparison .equal t supported operand (values i)))
  value_between : ∀ {t : SqlType S.Base} (supported hlow hhigh) (operand low high : RowExpression S t),
    value (.between t supported operand low high) = Joiner.and.join
      (value (.comparison .greaterThanOrEqual t hlow operand low))
      (value (.comparison .lessThanOrEqual t hhigh operand high))
  value_emptyConstant : ∀ form, value (emptyConstant form) = form.unit
  value_flip : ∀ ex, value (flipOperatorFunctionWithOneVarOneConstant ex) = value ex

namespace Valuation
variable (V : Valuation S) (form : Joiner) (es : List (RowExpression S .boolean))

theorem combine_combinePairs : (queue : List (RowExpression S .boolean)) →
    form.combine ((combinePairs form queue).map V.value) = form.combine (queue.map V.value)
  | [] | [_] => by simp only [combinePairs]
  | left :: right :: queue => by
    rw [combinePairs,map_cons,combine_cons,combine_combinePairs queue,V.value_logical,map_cons,
      map_cons,combine_cons,combine_cons,join_assoc]

theorem value_binaryExpression :
    V.value (binaryExpression form es) = form.combine (es.map V.value) := by
  induction es using binaryExpression.induct with
  | form => exact form
  | case1 => rw [binaryExpression,V.value_emptyConstant]; rfl
  | case2 ex => rw [binaryExpression,map_singleton,combine_singleton]
  | case3 left right queue ih => rw [binaryExpression,ih,combine_combinePairs]

variable (ex : RowExpression S .boolean)

theorem combine_extractPredicates :
    form.combine ((extractPredicates form ex).map V.value) = V.value ex := by
  induction ex using extractPredicates.induct form with
  | case1 left right ihl ihr =>
    rw [extractPredicates,if_pos rfl,map_append,combine_append,ihl,ihr,V.value_logical]
  | case2 own left right hne =>
    rw [extractPredicates,if_neg hne,map_singleton,combine_singleton]
  | case3 ex hne =>
    rw [extractPredicates,map_singleton,combine_singleton]
    exact hne

/-- The clauses of a tree, grouped under the opposite form, have the value of the tree. -/
theorem grouped_extractPredicates : form.grouped ((extractPredicates form ex).map fun operand =>
      (extractOwnPredicates operand).map V.value) = V.value ex := by
  induction ex using extractPredicates.induct form with
  | case1 left right ihl ihr =>
    rw [grouped,map_map] at ihl ihr
    rw [extractPredicates,if_pos rfl,map_append,grouped,map_append,combine_append,map_map,
      map_map,ihl,ihr,V.value_logical]
  | case2 own left right hne =>
    have ho : form.flip = own := by cases form <;> cases own <;> first | rfl | exact absurd rfl hne
    rw [extractPredicates,if_neg hne,map_singleton,grouped,map_singleton,combine_singleton,
      extractOwnPredicates,ho,combine_extractPredicates]
  | case3 ex hne =>
    rw [extractPredicates,map_singleton,grouped,map_singleton,combine_singleton,
      extractOwnPredicates,map_singleton,combine_singleton]
    · exact hne
    · exact hne

section
variable [DecidableEq (RowExpression S .boolean)]

/-- The loop adds the values of what it goes over, whatever it leaves out as seen. -/
private theorem mem_foldl_addUnseen (x : Kleene) :
    ∀ state : List (RowExpression S .boolean) × List (RowExpression S .boolean), state.1 ⊆ state.2 →
    (x ∈ (es.foldl addUnseen state).2.map V.value ↔
      x ∈ state.2.map V.value ∨ x ∈ es.map V.value) := by
  induction es with
  | nil => simp
  | cons ex rest ih =>
    intro state hs
    have hst : (addUnseen state ex).1 ⊆ (addUnseen state ex).2 ∧
        (x ∈ (addUnseen state ex).2.map V.value ↔ x ∈ state.2.map V.value ∨ x = V.value ex) := by
      rw [addUnseen]
      dsimp only
      split
      · split
        case isTrue hm =>
          refine ⟨hs,⟨.inl,?_⟩⟩
          rintro (h | rfl)
          · exact h
          · exact mem_map.mpr ⟨_,hs hm,V.value_flip ex⟩
        case isFalse =>
          refine ⟨?_,by simp [V.value_flip]⟩
          intro e he
          rcases mem_cons.mp he with rfl | he
          · exact mem_append_right _ mem_cons_self
          · exact mem_append_left _ (hs he)
      · exact ⟨fun e he => mem_append_left _ (hs he),by simp⟩
    rw [foldl_cons,ih _ hst.1,hst.2,map_cons,mem_cons,or_assoc]

theorem combine_removeDuplicates :
    form.combine ((removeDuplicates es).map V.value) = form.combine (es.map V.value) := by
  have hm : ∀ x, x ∈ (removeDuplicates es).map V.value ↔ x ∈ es.map V.value := by
    intro x
    rw [removeDuplicates,mem_foldl_addUnseen V es x ([],[]) (nil_subset _)]
    simp
  exact combine_congr form (fun x hx => .inr ((hm x).mpr hx)) (fun x hx => .inr ((hm x).mp hx))

/-- Combining keeps the value if the default is the value of an empty list. -/
theorem value_combineWithDefault (emptyDefault : RowExpression S .boolean) (hd : V.value emptyDefault = form.unit) :
    V.value (combineWithDefault form es emptyDefault) = form.combine (es.map V.value) := by
  have hfl : form.combine ((removeDuplicates ((es.flatMap (extractPredicates form)).filter
      (fun e => decide (e ≠ emptyConstant form)))).map V.value) = form.combine (es.map V.value) := by
    rw [combine_removeDuplicates]
    have hf : form.combine (((es.flatMap (extractPredicates form)).filter
        (fun e => decide (e ≠ emptyConstant form))).map V.value) =
          form.combine ((es.flatMap (extractPredicates form)).map V.value) := by
      apply combine_congr
      · intro x hx
        obtain ⟨e,he,rfl⟩ := mem_map.mp hx
        by_cases heq : e = emptyConstant form
        · exact .inl (by rw [heq,V.value_emptyConstant])
        · exact .inr (mem_map_of_mem (mem_filter.mpr ⟨he,decide_eq_true heq⟩))
      · intro x hx
        exact .inr (map_subset _ (filter_subset_self _) hx)
    rw [hf,map_flatMap,combine_flatMap]
    congr 1
    exact map_congr_left fun e _ => combine_extractPredicates V form e
  rw [← hfl,combineWithDefault]
  split
  case isTrue hz =>
    rw [V.value_emptyConstant,combine_eq_zero]
    exact mem_map.mpr ⟨_,hz,V.value_emptyConstant _⟩
  case isFalse =>
    split
    case isTrue hn => rw [hn,hd,map_nil,combine_nil]
    case isFalse => exact value_binaryExpression V form _

/-- The default is not used if some reading gives the joined list another value than the empty one. -/
theorem combineWithDefault_default (h : form.combine (es.map V.value) ≠ form.unit)
    (emptyDefault other : RowExpression S .boolean) :
    combineWithDefault form es emptyDefault = combineWithDefault form es other := by
  have hv := V.value_combineWithDefault form es (emptyConstant form) (V.value_emptyConstant form)
  rw [combineWithDefault] at hv
  rw [combineWithDefault,combineWithDefault]
  split
  case isTrue => rfl
  case isFalse hz =>
    rw [if_neg hz] at hv
    split
    case isTrue hn =>
      rw [if_pos hn,V.value_emptyConstant] at hv
      exact absurd hv.symm h
    case isFalse => rfl

@[simp] theorem value_combinePredicates :
    V.value (combinePredicates form es) = form.combine (es.map V.value) := by
  cases form with
  | and => exact value_combineWithDefault V .and es TRUE_CONSTANT (V.value_emptyConstant .and)
  | or => exact value_combineWithDefault V .or es FALSE_CONSTANT (V.value_emptyConstant .or)

end
end Valuation

variable (I : Interpretation S) (row : Row S) (form : Joiner) (es : List (RowExpression S .boolean))

def truthOn : Valuation S where
  value := truth I row
  value_not _ := rfl
  value_logical _ _ _ := rfl
  value_isIn _ _ _ _ := rfl
  value_between _ _ _ _ _ _ := rfl
  value_emptyConstant form := by cases form <;> rfl
  value_flip ex := by
    fun_cases flipOperatorFunctionWithOneVarOneConstant ex with
    | case1 operator t supported value name => exact ComparisonOperator.evaluate_flip operator value (row t name)
    | case2 => rfl

theorem truth_binaryExpression :
    truth I row (binaryExpression form es) = form.combine (es.map (truth I row)) :=
  (truthOn I row).value_binaryExpression form es

theorem grouped_extractPredicates (ex : RowExpression S .boolean) :
    form.grouped ((extractPredicates form ex).map fun operand =>
      (extractOwnPredicates operand).map (truth I row)) = truth I row ex :=
  (truthOn I row).grouped_extractPredicates form ex

@[simp] theorem truth_combinePredicates [DecidableEq (RowExpression S .boolean)] :
    truth I row (combinePredicates form es) = form.combine (es.map (truth I row)) :=
  (truthOn I row).value_combinePredicates form es

mutual

theorem eval_pushNegation : {t : SqlType S.Base} → (ex : RowExpression S t) →
    eval I row (pushNegation ex) = eval I row ex
  | _, .not argument => by rw [pushNegation]; exact eval_pushNegationOfNot argument
  | _, .logical form left right => by
    have hl := eval_pushNegation left
    have hr := eval_pushNegation right
    rw [pushNegation,eval,eval,hl,hr]
  | _, .constant _ _ | _, .variable _ _ | _, .comparison _ _ _ _ _ | _, .betweenCall _ _ _ _ _ | _, .cast _ _ _
  | _, .call _ _ | _, .isIn _ _ _ _ | _, .isNull _ _ | _, .between _ _ _ _ _ | _, .special _ _ => by
    simp only [pushNegation]

theorem eval_pushNegationOfNot : (ex : RowExpression S .boolean) →
    eval I row (pushNegationOfNot ex) = Kleene.not (eval I row ex)
  | .not argument => by
    have h := eval_pushNegation argument
    rw [pushNegationOfNot,h]
    exact (Kleene.not_not _).symm
  | .comparison operator t supported left right => by
    have hl := eval_pushNegation left
    have hr := eval_pushNegation right
    rw [pushNegationOfNot]
    split
    case h_1 => rfl
    case h_2 newOperator hnegate =>
      rw [eval,eval,hl,hr]
      exact ComparisonOperator.evaluate_negate hnegate supported _ _
  | .logical form left right => by
    have hl := eval_pushNegationOfNot left
    have hr := eval_pushNegationOfNot right
    rw [pushNegationOfNot,eval,eval,hl,hr]
    exact (Kleene.not_join form _ _).symm
  | .constant _ _ | .variable _ _ | .betweenCall _ _ _ _ _ | .cast _ _ _
  | .call _ _ | .isIn _ _ _ _ | .isNull _ _ | .between _ _ _ _ _ | .special _ _ => by
    simp only [pushNegationOfNot]
    rfl

end

end LogicalRowExpressions
end HetuCore.Relation
