import HetuCore.Relation.RowExpression
import HetuCore.Predicate.Complement

namespace HetuCore.Relation
open Foundation Predicate ColumnType

/-- The truth value an extraction looks for: FALSE once the predicate is complemented. -/
def target : Bool → Kleene
  | false => ⊤
  | true => ⊥

namespace ComparisonOperator

/-- A point of the value space compared with a value; for an orderable type the points are markers. -/
def holdsAt : ComparisonOperator → {t : ColumnType} → t.Point → t.Value → Bool
  | operator, @orderable α _, m, v => operator.holds (t := .orderable (Marker α)) m (Marker.exactly v)
  | operator, @comparable α _ _, w, v => operator.holds (t := .comparable α) w v
  | operator, @incomparable α _, w, v => operator.holds (t := .incomparable α) w v

/-- A nullable point compared with a nullable value. -/
def evaluateAt (operator : ComparisonOperator) {t : ColumnType} (x : Option t.Point) (value : Option t.Value) : Kleene :=
  match operator, x, value with
  | _, some p, some v => some (operator.holdsAt p v)
  | isDistinctFrom, none, none => some false
  | isDistinctFrom, _, _ => some true
  | _, _, _ => none

variable (operator : ComparisonOperator)

theorem holdsAt_point {t : ColumnType} (w v : t.Value) : operator.holdsAt (point w) v = operator.holds w v := by
  cases t with
  | orderable α =>
    have hle : ∀ a b : α, .exactly a ≤ Marker.exactly b ↔ a ≤ b := fun a b => Marker.exactly_le_exactly
    have hlt : ∀ a b : α, Marker.exactly a < Marker.exactly b ↔ a < b := fun a b => by
      rw [← not_le,hle,not_le]
    have heq : ∀ a b : α, Marker.exactly a = Marker.exactly b ↔ a = b := fun a b => by
      rw [le_antisymm_iff,hle,hle,← le_antisymm_iff]
    cases operator <;> simp only [holdsAt,holds,point,hle,hlt,heq,ne_eq]
  | comparable α | incomparable α => rfl

theorem evaluateAt_point {t : ColumnType} (x value : Option t.Value) :
    operator.evaluateAt (x.map point) value = operator.evaluate x value := by
  cases x with
  | none => cases value <;> cases operator <;> rfl
  | some w =>
    cases value with
    | none => cases operator <;> rfl
    | some v =>
      have h := congrArg some (holdsAt_point operator w v)
      cases operator <;> exact h

end ComparisonOperator

namespace RowExpressionDomainTranslator
open ComparisonOperator

variable {α : Type}

/-- The ranges of an operator on an orderable type. -/
def comparisonRanges [LinearOrder α] : ComparisonOperator → α → Except String (List (Range α))
  | equal, v => do
    let r ← Range.equal v
    pure [r]
  | greaterThan, v => do
    let r ← Range.greaterThan v
    pure [r]
  | greaterThanOrEqual, v => do
    let r ← Range.greaterThanOrEqual v
    pure [r]
  | lessThan, v => do
    let r ← Range.lessThan v
    pure [r]
  | lessThanOrEqual, v => do
    let r ← Range.lessThanOrEqual v
    pure [r]
  | notEqual, v => do
    let below ← Range.lessThan v
    let above ← Range.greaterThan v
    pure [below,above]
  | isDistinctFrom, v => do
    let below ← Range.lessThan v
    let above ← Range.greaterThan v
    pure [below,above]

variable (operator : ComparisonOperator)

/-- IS DISTINCT FROM sees NULL and complements the whole domain; the others never admit NULL. -/
def toDomain {t : ColumnType} (values : ValueSet t) (complement : Bool) : Except String (Domain t) :=
  match operator with
  | isDistinctFrom => (⟨values,true⟩ : Domain t).complementIfNecessary complement
  | _ => do
    let complemented ← values.complementIfNecessary complement
    pure ⟨complemented,false⟩

def extractOrderableDomain [LinearOrder α] (operator : ComparisonOperator) (value : α) (complement : Bool) :
    Except String (Domain (.orderable α)) := do
  let ranges ← comparisonRanges operator value
  let values ← SortedRangeSet.copyOf ranges
  toDomain operator (t := .orderable α) values complement

def extractEquatableDomain [DecidableEq α] [Infinite α] (operator : ComparisonOperator) (value : α)
    (complement : Bool) : Except String (Domain (.comparable α)) :=
  match operator with
  | equal => toDomain equal (t := .comparable α) (EquatableValueSet.of value []) complement
  | notEqual => toDomain notEqual (t := .comparable α) (EquatableValueSet.of value []).complement complement
  | isDistinctFrom => toDomain isDistinctFrom (t := .comparable α) (EquatableValueSet.of value []).complement complement
  | _ => .error ("Unhandled operator: " ++ operator.name)

def createComparisonDomain : {t : ColumnType} → Option t.Value → Bool → Except String (Domain t)
  | _, none, complement =>
    match operator with
    | isDistinctFrom => do
      let domain ← Domain.notNull
      domain.complementIfNecessary complement
    | _ => Domain.none
  | @orderable _ _, some value, complement => extractOrderableDomain operator value complement
  | @comparable _ _ _, some value, complement => extractEquatableDomain operator value complement
  | @incomparable _ _, some _, _ => 
    .error "Type cannot be used in a comparison expression (should have been caught in analysis)"

variable (operator : ComparisonOperator)

private theorem comparisonRanges_spec [LinearOrder α] (v : α) : ∃ ranges, comparisonRanges operator v = .ok ranges ∧
      ∀ m, (∃ r ∈ ranges, r.includes m = true) ↔ operator.holdsAt (t := .orderable α) m v = true := by
  obtain ⟨below,hb,hlt⟩ := Range.lessThan_spec v
  obtain ⟨above,ha,hgt⟩ := Range.greaterThan_spec v
  obtain ⟨lower,hl,hle⟩ := Range.lessThanOrEqual_spec v
  obtain ⟨upper,hu,hge⟩ := Range.greaterThanOrEqual_spec v
  obtain ⟨single,hs,heq⟩ := Range.equal_spec v
  have ho : ∀ (r : Range α) m, (∃ q ∈ [r], q.includes m = true) ↔ r.includes m = true := fun r m => by simp
  have hne : ∀ m, (∃ r ∈ [below,above], r.includes m = true) ↔ m ≠ .exactly v := fun m => by
    simp only [List.mem_cons,List.not_mem_nil,or_false,exists_eq_or_imp,exists_eq_left,hlt,hgt,ne_iff_lt_or_gt]
  cases operator with
  | equal => exact ⟨[single],by rw [comparisonRanges,hs]; rfl,fun m =>
      (ho single m).trans ((heq m).trans decide_eq_true_iff.symm)⟩
  | notEqual => exact ⟨[below,above],by rw [comparisonRanges,hb,ha]; rfl,fun m =>
      (hne m).trans decide_eq_true_iff.symm⟩
  | lessThan => exact ⟨[below],by rw [comparisonRanges,hb]; rfl,fun m =>
      (ho below m).trans ((hlt m).trans decide_eq_true_iff.symm)⟩
  | lessThanOrEqual => exact ⟨[lower],by rw [comparisonRanges,hl]; rfl,fun m =>
      (ho lower m).trans ((hle m).trans decide_eq_true_iff.symm)⟩
  | greaterThan => exact ⟨[above],by rw [comparisonRanges,ha]; rfl,fun m =>
      (ho above m).trans ((hgt m).trans decide_eq_true_iff.symm)⟩
  | greaterThanOrEqual => exact ⟨[upper],by rw [comparisonRanges,hu]; rfl,fun m =>
      (ho upper m).trans ((hge m).trans decide_eq_true_iff.symm)⟩
  | isDistinctFrom => exact ⟨[below,above],by rw [comparisonRanges,hb,ha]; rfl,fun m =>
      (hne m).trans decide_eq_true_iff.symm⟩

theorem some_eq_target (b complement : Bool) : (some b : Kleene) = target complement ↔ (b = true ↔ complement = false) := by
  cases complement with
  | false | true => exact Option.some_inj.trans (by simp)

theorem none_ne_target (complement : Bool) : (none : Kleene) ≠ target complement := by
  cases complement <;> exact (Option.some_ne_none _).symm

/-- A value set of the points for which the operator holds gives the domain of the comparison. -/
private theorem toDomain_spec {t : ColumnType} (values : ValueSet t) (v : t.Value)
    (hv : ∀ p, values.Contains p ↔ operator.holdsAt p v = true) (complement : Bool) :
    ∃ d, toDomain operator values complement = .ok d ∧
      ∀ x, d.Admits x ↔ operator.evaluateAt x (some v) = target complement := by
  by_cases hop : operator = isDistinctFrom
  · subst hop
    obtain ⟨d,hd,hc⟩ := (⟨values,true⟩ : Domain t).complementIfNecessary_spec complement
    refine ⟨d,hd,fun x => ?_⟩
    rw [hc]
    cases x with
    | none => exact (some_eq_target true complement).symm
    | some p =>
      rw [Domain.Admits,hv]
      exact (some_eq_target _ complement).symm
  · obtain ⟨s,hs,hc⟩ := values.complementIfNecessary_spec complement
    have hdm : toDomain operator values complement = .ok ⟨s,false⟩ := by
      have hb := congrArg (fun r => r >>= fun complemented => pure (⟨complemented,false⟩ : Domain t)) hs
      cases operator <;> first | exact absurd rfl hop | exact hb
    refine ⟨⟨s,false⟩,hdm,fun x => ?_⟩
    cases x with
    | none =>
      have hn : operator.evaluateAt (t := t) none (some v) = none := by
        cases operator <;> first | exact absurd rfl hop | rfl
      rw [hn]
      exact iff_of_false Bool.false_ne_true (none_ne_target complement)
    | some p =>
      have hvl : operator.evaluateAt (some p) (some v) = some (operator.holdsAt p v) := by cases operator <;> rfl
      rw [Domain.Admits,hc,hv]
      exact (some_eq_target _ complement).symm

/-- The domain of a comparison admits exactly the points that give it the truth value looked for. -/
theorem createComparisonDomain_spec {operator : ComparisonOperator} {t : ColumnType} (hs : operator.Supports t)
    (value : Option t.Value) (complement : Bool) : ∃ d, createComparisonDomain operator value complement = .ok d ∧
      ∀ x, d.Admits x ↔ operator.evaluateAt x value = target complement := by
  cases value with
  | none =>
    by_cases hop : operator = isDistinctFrom
    · subst hop
      obtain ⟨notNull,hn,hnc⟩ := Domain.notNull_spec (t := t)
      obtain ⟨d,hd,hc⟩ := notNull.complementIfNecessary_spec complement
      refine ⟨d,?_,fun x => ?_⟩
      · cases t <;> (rw [createComparisonDomain,hn]; exact hd)
      · rw [hc,hnc]
        cases x with
        | none => exact (iff_congr (by simp) .rfl).trans (some_eq_target false complement).symm
        | some p => exact (iff_congr (by simp) .rfl).trans (some_eq_target true complement).symm
    · obtain ⟨d,hd,hc⟩ := Domain.none_spec (t := t)
      refine ⟨d,?_,fun x => ?_⟩
      · cases operator <;> first | exact absurd rfl hop | (cases t <;> exact hd)
      · have hnl : operator.evaluateAt x none = none := by
          cases operator <;> cases x <;> first | exact absurd rfl hop | rfl
        rw [hnl]
        exact iff_of_false (hc x) (none_ne_target complement)
  | some v =>
    cases t with
    | orderable α =>
      obtain ⟨ranges,hr,hrc⟩ := comparisonRanges_spec operator v
      obtain ⟨s,hs,hsc⟩ := Builder.build_spec ranges
      obtain ⟨d,hd,hc⟩ := toDomain_spec operator (t := .orderable α) s v (fun m => (hsc m).trans (hrc m)) complement
      refine ⟨d,?_,hc⟩
      rw [createComparisonDomain,extractOrderableDomain,hr]
      exact (congrArg (· >>= fun values => toDomain operator (t := .orderable α) values complement) hs).trans hd
    | comparable α =>
      have hof : ∀ w : α, (EquatableValueSet.of v []).containsValue w = true ↔ w = v := fun w => by
        simp [EquatableValueSet.containsValue_iff,EquatableValueSet.of]
      have hne : ∀ w : α, (EquatableValueSet.of v []).complement.containsValue w = true ↔ w ≠ v := fun w => by
        rw [EquatableValueSet.complement_contains,hof]
      cases operator with
      | equal => exact toDomain_spec equal (t := .comparable α) _ v (fun w => (hof w).trans decide_eq_true_iff.symm) complement
      | notEqual =>
        exact toDomain_spec notEqual (t := .comparable α) _ v (fun w => (hne w).trans decide_eq_true_iff.symm) complement
      | isDistinctFrom =>
        exact toDomain_spec isDistinctFrom (t := .comparable α) _ v (fun w => (hne w).trans decide_eq_true_iff.symm) complement
      | lessThan | lessThanOrEqual | greaterThan | greaterThanOrEqual => exact hs.elim
    | incomparable α => cases operator <;> exact hs.elim

end RowExpressionDomainTranslator
end HetuCore.Relation
