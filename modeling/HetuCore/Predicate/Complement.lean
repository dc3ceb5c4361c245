import HetuCore.Predicate.Domain

namespace HetuCore.Predicate
open ColumnType

namespace EquatableValueSet
variable {α : Type} [DecidableEq α]

def none : EquatableValueSet α := ⟨true,∅⟩
def all : EquatableValueSet α := ⟨false,∅⟩
def of (first : α) (rest : List α) : EquatableValueSet α := ⟨true,(first :: rest).toFinset⟩
variable (s : EquatableValueSet α)

def complement : EquatableValueSet α := ⟨!s.whiteList,s.entries⟩

theorem complement_contains (v : α) : s.complement.containsValue v = true ↔ ¬ s.containsValue v = true := by
  obtain ⟨w,e⟩ := s
  cases w <;> simp [complement,containsValue_iff]

end EquatableValueSet

namespace AllOrNoneValueSet

def complement (s : AllOrNoneValueSet) : AllOrNoneValueSet := ⟨!s.all⟩

end AllOrNoneValueSet

namespace ValueSet
variable {t : ColumnType}

def none : {t : ColumnType} → Except String (ValueSet t)
  | @orderable _ _ => SortedRangeSet.none
  | @comparable _ _ _ => pure EquatableValueSet.none
  | @incomparable _ _ => pure (AllOrNoneValueSet.mk false)

def all : {t : ColumnType} → Except String (ValueSet t)
  | @orderable _ _ => SortedRangeSet.all
  | @comparable _ _ _ => pure EquatableValueSet.all
  | @incomparable _ _ => pure (AllOrNoneValueSet.mk true)

def complement : {t : ColumnType} → ValueSet t → Except String (ValueSet t)
  | @orderable _ _, s => SortedRangeSet.complement s
  | @comparable _ _ _, s => pure (EquatableValueSet.complement s)
  | @incomparable _ _, s => pure (AllOrNoneValueSet.complement s)

variable (s : ValueSet t)

def complementIfNecessary (complement : Bool) : Except String (ValueSet t) :=
  if complement then s.complement else pure s

theorem none_spec : ∃ s : ValueSet t, none = .ok s ∧ ∀ p, ¬ s.Contains p := by
  cases t with
  | orderable α =>
    obtain ⟨s,hs,hc⟩ := Builder.build_spec ([] : List (Range α))
    refine ⟨s,hs,fun m => ?_⟩
    rw [Contains,hc]
    simp
  | comparable α => exact ⟨_,rfl,fun v => by simp [Contains,EquatableValueSet.containsValue_iff,EquatableValueSet.none]⟩
  | incomparable α => exact ⟨_,rfl,fun v => Bool.false_ne_true⟩

theorem all_spec : ∃ s : ValueSet t, all = .ok s ∧ ∀ p, s.Contains p := by
  cases t with
  | orderable α =>
    obtain ⟨r,hr,hm⟩ := Range.all_spec (α := α)
    obtain ⟨s,hs,hc⟩ := Builder.build_spec [r]
    refine ⟨s,(congrArg (· >>= fun r => Builder.build [r]) hr).trans hs,fun m => ?_⟩
    rw [Contains,hc]
    exact ⟨r,List.mem_singleton_self r,hm m⟩
  | comparable α => exact ⟨_,rfl,fun v => by simp [Contains,EquatableValueSet.containsValue_iff,EquatableValueSet.all]⟩
  | incomparable α => exact ⟨_,rfl,fun v => rfl⟩

theorem complement_spec : ∃ x, s.complement = .ok x ∧ ∀ p, x.Contains p ↔ ¬ s.Contains p := by
  cases t with
  | orderable α => exact SortedRangeSet.complement_spec s
  | comparable α => exact ⟨_,rfl,EquatableValueSet.complement_contains s⟩
  | incomparable α =>
    refine ⟨_,rfl,fun p => ?_⟩
    show (!AllOrNoneValueSet.all s) = true ↔ ¬ AllOrNoneValueSet.all s = true
    rw [Bool.not_eq_true',Bool.not_eq_true]

theorem complementIfNecessary_spec (complement : Bool) :
    ∃ x, s.complementIfNecessary complement = .ok x ∧ ∀ p, x.Contains p ↔ (s.Contains p ↔ complement = false) := by
  cases complement with
  | false => exact ⟨s,rfl,fun p => by simp⟩
  | true =>
    obtain ⟨x,hx,hc⟩ := s.complement_spec
    exact ⟨x,hx,fun p => by simp [hc]⟩

end ValueSet

namespace Domain
variable {t : ColumnType}

def none : Except String (Domain t) := do
  let values ← ValueSet.none
  pure ⟨values,false⟩

def onlyNull : Except String (Domain t) := do
  let values ← ValueSet.none
  pure ⟨values,true⟩

def notNull : Except String (Domain t) := do
  let values ← ValueSet.all
  pure ⟨values,false⟩

def complement (d : Domain t) : Except String (Domain t) := do
  let values ← d.values.complement
  pure ⟨values,!d.nullAllowed⟩

def complementIfNecessary (d : Domain t) (complement : Bool) : Except String (Domain t) :=
  if complement then d.complement else pure d

theorem none_spec : ∃ d : Domain t, none = .ok d ∧ ∀ x, ¬ d.Admits x := by
  obtain ⟨s,hs,hc⟩ := ValueSet.none_spec (t := t)
  refine ⟨⟨s,false⟩,by rw [none,hs]; rfl,fun x => ?_⟩
  cases x with
  | none => exact Bool.false_ne_true
  | some p => exact hc p

theorem onlyNull_spec : ∃ d : Domain t, onlyNull = .ok d ∧ ∀ x, d.Admits x ↔ x = .none := by
  obtain ⟨s,hs,hc⟩ := ValueSet.none_spec (t := t)
  refine ⟨⟨s,true⟩,by rw [onlyNull,hs]; rfl,fun x => ?_⟩
  cases x with
  | none => exact iff_of_true rfl rfl
  | some p => exact iff_of_false (hc p) (Option.some_ne_none p)

theorem notNull_spec : ∃ d : Domain t, notNull = .ok d ∧ ∀ x, d.Admits x ↔ x ≠ .none := by
  obtain ⟨s,hs,hc⟩ := ValueSet.all_spec (t := t)
  refine ⟨⟨s,false⟩,by rw [notNull,hs]; rfl,fun x => ?_⟩
  cases x with
  | none => exact iff_of_false Bool.false_ne_true (fun h => h rfl)
  | some p => exact iff_of_true (hc p) (Option.some_ne_none p)

theorem complementIfNecessary_spec (d : Domain t) (complement : Bool) :
    ∃ x, d.complementIfNecessary complement = .ok x ∧ ∀ v, x.Admits v ↔ (d.Admits v ↔ complement = false) := by
  cases complement with
  | false => exact ⟨d,rfl,fun v => by simp⟩
  | true =>
    obtain ⟨s,hs,hc⟩ := d.values.complement_spec
    refine ⟨⟨s,!d.nullAllowed⟩,?_,fun v => ?_⟩
    · rw [complementIfNecessary,Domain.complement,hs]
      rfl
    · cases v with
      | none => simp [Admits]
      | some p => simp [Admits,hc]

end Domain
end HetuCore.Predicate
