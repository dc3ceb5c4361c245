import HetuCore.Relation.NormalForm
import Mathlib.Data.Fin.VecNotation

/-! `RowExpressionInterpreter.optimize`: what an expression is evaluated to without its variables. -/
namespace HetuCore.Relation
open Foundation Predicate ComparisonOperator Matrix

/-- `floor` is the saturated floor cast back along `cast`: orders are kept, and the floor is the largest
value that is not above its argument, or the least value if all are above. -/
structure SaturatedFloor {s t : ColumnType} (cast : s.Value → t.Value) (floor : t.Value → s.Value) : Prop where
  source : lessThan.Supports s
  result : lessThan.Supports t
  monotone : ∀ x y, lessThanOrEqual.holds x y = true → lessThanOrEqual.holds (cast x) (cast y) = true
  greatest : ∀ v y, lessThanOrEqual.holds (cast y) v = true → lessThanOrEqual.holds (cast (floor v)) v = true ∧
      lessThanOrEqual.holds y (floor v) = true
  saturates : ∀ v, (∀ y, lessThan.holds v (cast y) = true) → ∀ y, lessThanOrEqual.holds (floor v) y = true

/-- What an expression is optimized to: a value, or `none` if a row expression is left. -/
abbrev Optimized (S : Signature) (t : SqlType S.Base) := Option (Option (S.Value t))

/-- What the interpreter and the translator ask of the engine. A function that is not called on NULL gives NULL for
it, and a special form is optimized to the value it has. -/
structure Metadata {S : Signature} (I : Interpretation S) where
  isCalledOnNullInput : {n : Nat} → {ts : Fin n → SqlType S.Base} → {t : SqlType S.Base} → S.Function ts t → Bool
  call_null : ∀ {n : Nat} {ts : Fin n → SqlType S.Base} {t : SqlType S.Base} (function : S.Function ts t),
    isCalledOnNullInput function = false → ∀ arguments i, arguments i = none → I.call function arguments = none
  isInterpreted : {n : Nat} → {ts : Fin n → SqlType S.Base} → {t : SqlType S.Base} → S.Function ts t → Bool
  visitSpecialForm : OtherForm → {n : Nat} → {ts : Fin n → SqlType S.Base} → {t : SqlType S.Base} →
    ((i : Fin n) → Optimized S (ts i)) → Optimized S t
  special_eval : ∀ (form : OtherForm) {n : Nat} {ts : Fin n → SqlType S.Base} {t : SqlType S.Base}
    {arguments : (i : Fin n) → Optimized S (ts i)} {value : Option (S.Value t)}, visitSpecialForm form arguments = some value →
    ∀ values : (i : Fin n) → Option (S.Value (ts i)), (∀ i v, arguments i = some v → values i = v) → I.special form values = value
  isTypeOnlyCoercion : SqlType S.Base → SqlType S.Base → Bool
  canCoerce : SqlType S.Base → SqlType S.Base → Bool
  saturatedFloorCast : (s t : SqlType S.Base) → Option (S.Value s → S.Value t)
  floor_spec : ∀ {s t : SqlType S.Base} {floor : S.Value t → S.Value s}, canCoerce s t = true →
    saturatedFloorCast t s = some floor → SaturatedFloor (I.cast s t) floor

/-- A cast with a saturated floor cast back takes different values to different values. -/
def Metadata.Lossless {S : Signature} {I : Interpretation S} (M : Metadata I) : Prop :=
  ∀ s t, M.canCoerce s t = true → M.saturatedFloorCast t s ≠ none → Function.Injective (I.cast s t)

namespace RowExpressionInterpreter
variable {S : Signature}

section call
variable {n : Nat} {ts : Fin n → SqlType S.Base} {t : SqlType S.Base}

/-- NULL for a NULL argument, unless the function is called on it; else the value once all arguments have theirs and
the call may be evaluated. -/
def visitCall (isCalledOnNullInput evaluated : Bool) (argumentValues : (i : Fin n) → Optimized S (ts i))
    (invoke : ((i : Fin n) → Option (S.Value (ts i))) → Option (S.Value t)) : Optimized S t :=
  if !isCalledOnNullInput && decide (∃ i, (argumentValues i).any Option.isNone = true) then some none
  else if h : evaluated = true ∧ ∀ i, (argumentValues i).isSome = true then
    some (invoke fun i => (argumentValues i).get (h.2 i))
  else none

theorem visitCall_eval {isCalledOnNullInput evaluated : Bool} {argumentValues : (i : Fin n) → Optimized S (ts i)}
    {invoke : ((i : Fin n) → Option (S.Value (ts i))) → Option (S.Value t)} {value : Option (S.Value t)}
    (h : visitCall isCalledOnNullInput evaluated argumentValues invoke = some value)
    (hn : isCalledOnNullInput = false → ∀ values i, values i = none → invoke values = none)
    (values : (i : Fin n) → Option (S.Value (ts i))) (hv : ∀ i v, argumentValues i = some v → values i = v) :
    invoke values = value := by
  unfold visitCall at h
  split at h
  · rename_i hc
    simp only [Bool.and_eq_true,Bool.not_eq_true',decide_eq_true_eq] at hc
    obtain ⟨hf,i,hi⟩ := hc
    rw [← Option.some.inj h]
    cases ha : argumentValues i with
    | none => simp [ha] at hi
    | some v =>
      have hnl : v = none := by simpa [ha] using hi
      exact hn hf values i ((hv i v ha).trans hnl)
  · split at h
    · rename_i hr
      rw [← Option.some.inj h]
      exact congrArg invoke (funext fun i => hv i _ (Option.some_get (hr.2 i)).symm)
    · cases h

end call

/-- A side that decides, or the other side if one says nothing. -/
def visitLogical (form : Joiner) (left right : Option Kleene) : Option Kleene :=
  if left = some form.flip.unit then left
  else if right = some form.unit then left
  else if right = some form.flip.unit ∨ left = some form.unit then right
  else match left, right with
    | some none, some none => some none
    | _, _ => none

/-- IN with the comparisons that could be evaluated: one that is true decides, else none may be left. -/
def visitIn {n : Nat} (comparisons : Fin (n + 1) → Option Kleene) : Option Kleene :=
  if ∃ i, comparisons i = some ⊤ then some ⊤
  else if ∃ i, comparisons i = none then none
  else if ∃ i, (comparisons i).any (fun value => Option.isNone value) = true then some none
  else some ⊥

def invokeComparison (operator : ComparisonOperator) {t : SqlType S.Base} (values : Fin 2 → Option (S.Value t)) : Kleene :=
  operator.evaluate (vecHead values) (vecHead (vecTail values))

def invokeBetween {t : SqlType S.Base} (values : Fin 3 → Option (S.Value t)) : Kleene :=
  RowExpression.evaluateBetween (vecHead values) (vecHead (vecTail values)) (vecHead (vecTail (vecTail values)))

variable {I : Interpretation S} (M : Metadata I)

def optimize : {t : SqlType S.Base} → RowExpression S t → Optimized S t
  | _, .constant _ value => some value
  | _, .variable _ _ => none
  | _, .not argument => visitCall false argument.isDeterministic ![optimize argument]
      fun values : Fin 1 → Option (S.Value .boolean) => Kleene.not (values 0)
  | _, .comparison operator t _ left right =>
    visitCall (operator = .isDistinctFrom) (left.isDeterministic && right.isDeterministic)
      ![optimize left,optimize right] (invokeComparison (t := t) operator)
  | _, .betweenCall t _ value low high =>
    visitCall false (value.isDeterministic && low.isDeterministic && high.isDeterministic)
      ![optimize value,optimize low,optimize high] (invokeBetween (t := t))
  | _, .cast s t argument => visitCall false (M.isTypeOnlyCoercion s t || argument.isDeterministic) ![optimize argument]
      fun values : Fin 1 → Option (S.Value s) => (values 0).map (I.cast s t)
  | _, .call function arguments => visitCall (M.isCalledOnNullInput function)
      (M.isInterpreted function && (RowExpression.call function arguments).isDeterministic)
      (fun i => optimize (arguments i)) (I.call function)
  | _, .logical form left right => visitLogical form (optimize left) (optimize right)
  | _, .isIn _ _ target values =>
    match optimize target with
    | none => none
    | some none => some none
    | some (some target) => visitIn fun i => (optimize (values i)).map fun value => equal.evaluate (some target) value
  | _, .isNull _ value => (optimize value).map fun value => some value.isNone
  -- a BETWEEN that could be evaluated is returned as it is
  | _, .between _ _ _ _ _ => none
  | _, .special form arguments => M.visitSpecialForm form fun i => optimize (arguments i)

section laws
variable {form : Joiner} {value : Kleene}

theorem visitLogical_eval {left right : Option Kleene} (h : visitLogical form left right = some value) {x y : Kleene}
    (hl : ∀ v, left = some v → x = v) (hr : ∀ v, right = some v → y = v) : form.join x y = value := by
  have hz : form.join form.flip.unit y = form.flip.unit ∧ form.join x form.flip.unit = form.flip.unit ∧
      form.join x form.unit = x ∧ form.join form.unit y = y := by
    cases form with
    | and => exact ⟨bot_inf_eq _,inf_bot_eq _,inf_top_eq _,top_inf_eq _⟩
    | or => exact ⟨top_sup_eq _,sup_top_eq _,sup_bot_eq _,bot_sup_eq _⟩
  unfold visitLogical at h
  split at h
  · rename_i hd
    rw [hl _ hd,hz.1]
    exact Option.some.inj (hd.symm.trans h)
  · split at h
    · rename_i hd
      rw [hr _ hd,hz.2.2.1]
      exact hl _ h
    · split at h
      · rename_i hd
        rcases hd with hd | hd
        · rw [hr _ hd,hz.2.1]
          exact Option.some.inj (hd.symm.trans h)
        · rw [hl _ hd,hz.2.2.2]
          exact hr _ h
      · split at h
        · rw [hl _ rfl,hr _ rfl,← Option.some.inj h]
          cases form <;> rfl
        · cases h

theorem visitIn_eval {n : Nat} {comparisons : Fin (n + 1) → Option Kleene} (h : visitIn comparisons = some value)
    (values : Fin (n + 1) → Kleene) (hv : ∀ i v, comparisons i = some v → values i = v) :
    Joiner.or.combine (List.ofFn values) = value := by
  unfold visitIn at h
  split at h
  · rename_i hf
    obtain ⟨i,hi⟩ := hf
    rw [← Option.some.inj h,Kleene.combine_or_eq_top]
    exact ⟨values i,List.mem_ofFn.mpr ⟨i,rfl⟩,hv i _ hi⟩
  · rename_i hf
    split at h
    · cases h
    · rename_i hu
      have hc : ∀ i, comparisons i = some (values i) := by
        intro i
        cases hi : comparisons i with
        | none => exact absurd ⟨i,hi⟩ hu
        | some v => rw [hv i v hi]
      have ht : Joiner.or.combine (List.ofFn values) ≠ ⊤ := by
        rw [Ne,Kleene.combine_or_eq_top]
        rintro ⟨_,hm,rfl⟩
        obtain ⟨i,hi⟩ := List.mem_ofFn.mp hm
        exact hf ⟨i,(hc i).trans (congrArg some hi)⟩
      split at h
      · rename_i hn
        obtain ⟨i,hi⟩ := hn
        have hb : Joiner.or.combine (List.ofFn values) ≠ ⊥ := by
          rw [Ne,Kleene.combine_or_eq_bot]
          intro ha
          rw [hc i,ha _ (List.mem_ofFn.mpr ⟨i,rfl⟩)] at hi
          cases hi
        rw [← Option.some.inj h]
        rcases hx : Joiner.or.combine (List.ofFn values) with _ | _ | _
        · rfl
        · exact absurd hx hb
        · exact absurd hx ht
      · rename_i hn
        rw [← Option.some.inj h,Kleene.combine_or_eq_bot]
        intro x hm
        obtain ⟨i,rfl⟩ := List.mem_ofFn.mp hm
        rcases hx : values i with _ | _ | _
        · exact absurd ⟨i,by rw [hc i,hx]; rfl⟩ hn
        · rfl
        · exact absurd ⟨i,(hc i).trans (congrArg some hx)⟩ hf

end laws

end RowExpressionInterpreter

namespace RowExpression
variable {S : Signature}

/-- There is no BETWEEN call in the expression; the planner writes BETWEEN as a special form. -/
def betweenFree : {t : SqlType S.Base} → RowExpression S t → Bool
  | _, .constant _ _ => true
  | _, .variable _ _ => true
  | _, .not argument => betweenFree argument
  | _, .comparison _ _ _ left right => betweenFree left && betweenFree right
  | _, .betweenCall _ _ _ _ _ => false
  | _, .cast _ _ argument => betweenFree argument
  | _, .call _ arguments => decide (∀ i, betweenFree (arguments i) = true)
  | _, .logical _ left right => betweenFree left && betweenFree right
  | _, .isIn _ _ target values => betweenFree target && decide (∀ i, betweenFree (values i) = true)
  | _, .isNull _ value => betweenFree value
  | _, .between _ _ value low high => betweenFree value && betweenFree low && betweenFree high
  | _, .special _ arguments => decide (∀ i, betweenFree (arguments i) = true)

/-- No operand of a comparison, IN or BETWEEN of the predicate has a BETWEEN call in it. -/
def operandsBetweenFree : {t : SqlType S.Base} → RowExpression S t → Bool
  | _, .not argument => operandsBetweenFree argument
  | _, .logical _ left right => operandsBetweenFree left && operandsBetweenFree right
  | _, .comparison _ _ _ left right => left.betweenFree && right.betweenFree
  | _, .isIn _ _ target values => target.betweenFree && decide (∀ i, (values i).betweenFree = true)
  | _, .between _ _ value low high => value.betweenFree && low.betweenFree && high.betweenFree
  | _, .betweenCall _ _ value low high => value.betweenFree && low.betweenFree && high.betweenFree
  | _, _ => true

end RowExpression

namespace RowExpressionInterpreter
open RowExpression
variable {S : Signature} {I : Interpretation S} {M : Metadata I}

/-- What an expression without BETWEEN calls is optimized to is its value in every row. -/
theorem optimize_eval (row : Row S) {t : SqlType S.Base} {e : RowExpression S t} (hb : e.betweenFree = true)
    {value : Option (S.Value t)} (h : optimize M e = some value) : eval I row e = value := by
  induction e with
  | constant t own => exact Option.some.inj h
  | not argument ih =>
    exact visitCall_eval h (fun _ values => Fin.forall_fin_one.mpr fun hn => congrArg Kleene.not hn) ![eval I row argument]
      (Fin.forall_fin_one.mpr fun v hv => ih hb hv)
  | comparison operator t supported left right ihl ihr =>
    obtain ⟨hl,hr⟩ := Bool.and_eq_true_iff.mp hb
    refine visitCall_eval h (fun hd values => Fin.forall_fin_two.mpr ⟨fun hn => ?_,fun hn => ?_⟩)
      ![eval I row left,eval I row right] (Fin.forall_fin_two.mpr ⟨fun v hv => ihl hl hv,fun v hv => ihr hr hv⟩)
    · rw [invokeComparison,show vecHead values = none from hn]
      cases operator <;> first | rfl | cases hd
    · rw [invokeComparison,show vecHead (vecTail values) = none from hn]
      cases vecHead values <;> cases operator <;> first | rfl | cases hd
  | betweenCall t supported operand low high => cases hb
  | cast s t argument ih =>
    exact visitCall_eval h (fun _ values => Fin.forall_fin_one.mpr fun hn => congrArg (Option.map (I.cast s t)) hn)
      ![eval I row argument] (Fin.forall_fin_one.mpr fun v hv => ih hb hv)
  | call function arguments ih =>
    exact visitCall_eval h (M.call_null function) (fun i => eval I row (arguments i)) fun i v hv => ih i (of_decide_eq_true hb i) hv
  | logical form left right ihl ihr =>
    obtain ⟨hl,hr⟩ := Bool.and_eq_true_iff.mp hb
    exact visitLogical_eval h (fun v hv => ihl hl hv) fun v hv => ihr hr hv
  | isIn t supported target values iht ihv =>
    obtain ⟨ht,hv⟩ := Bool.and_eq_true_iff.mp hb
    rw [optimize] at h
    split at h
    · cases h
    · rename_i hn
      rw [← Option.some.inj h,eval,iht ht hn]
      exact Kleene.combine_unknown .or _ fun i => by cases eval I row (values i) <;> rfl
    · rename_i w hw
      refine visitIn_eval h _ fun i v hi => ?_
      obtain ⟨x,hx,rfl⟩ := Option.map_eq_some_iff.mp hi
      rw [iht ht hw,ihv i (of_decide_eq_true hv i) hx]
  | isNull t operand ih =>
    obtain ⟨v,hv,rfl⟩ := Option.map_eq_some_iff.mp h
    rw [eval,ih hb hv]
  | special form arguments ih =>
    exact M.special_eval form h (fun i => eval I row (arguments i)) fun i v hv => ih i (of_decide_eq_true hb i) hv
  | _ => cases h

end RowExpressionInterpreter
end HetuCore.Relation
