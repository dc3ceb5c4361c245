import HetuCore.Predicate.SortedRangeSetLaws
import Mathlib.Data.Set.Finite.Basic

namespace HetuCore.Predicate

/-- Values of an infinite comparable type, collectively included or collectively excluded. -/
@[ext] structure EquatableValueSet (α : Type) where
  whiteList : Bool
  entries : Finset α
deriving DecidableEq

namespace EquatableValueSet
variable {α : Type} [DecidableEq α] (s : EquatableValueSet α)

def isNone : Bool := s.whiteList && decide (s.entries = ∅)
def isAll : Bool := !s.whiteList && decide (s.entries = ∅)
def containsValue (value : α) : Bool := s.whiteList == decide (value ∈ s.entries)

/-- The smaller set is filtered by the larger one. -/
def intersectSets (set1 set2 : Finset α) : Finset α :=
  if set1.card > set2.card then set2.filter (· ∈ set1) else set1.filter (· ∈ set2)

def unionSets (set1 set2 : Finset α) : Finset α := set1 ∪ set2
def subtractSets (set1 set2 : Finset α) : Finset α := set1.filter (fun value => ¬ value ∈ set2)

variable (o : EquatableValueSet α)

def intersect : EquatableValueSet α :=
  if s.whiteList && o.whiteList then ⟨true,intersectSets s.entries o.entries⟩
  else if s.whiteList then ⟨true,subtractSets s.entries o.entries⟩
  else if o.whiteList then ⟨true,subtractSets o.entries s.entries⟩
  else ⟨false,unionSets o.entries s.entries⟩

def union : EquatableValueSet α :=
  if s.whiteList && o.whiteList then ⟨true,unionSets s.entries o.entries⟩
  else if s.whiteList then ⟨false,subtractSets o.entries s.entries⟩
  else if o.whiteList then ⟨false,subtractSets s.entries o.entries⟩
  else ⟨false,intersectSets o.entries s.entries⟩

theorem mem_intersectSets (set1 set2 : Finset α) (v : α) : v ∈ intersectSets set1 set2 ↔ v ∈ set1 ∧ v ∈ set2 := by
  unfold intersectSets
  split
  · rw [Finset.mem_filter,and_comm]
  · rw [Finset.mem_filter]

theorem containsValue_iff (v : α) : s.containsValue v = true ↔ (s.whiteList = true ↔ v ∈ s.entries) := by
  rw [containsValue,beq_iff_eq,Bool.eq_iff_iff,decide_eq_true_eq]

theorem intersect_contains (v : α) :
    (s.intersect o).containsValue v = true ↔ s.containsValue v = true ∧ o.containsValue v = true := by
  obtain ⟨w1,e1⟩ := s
  obtain ⟨w2,e2⟩ := o
  cases w1 <;> cases w2 <;>
    simp [intersect,containsValue_iff,mem_intersectSets,unionSets,subtractSets,and_comm]

theorem union_contains (v : α) :
    (s.union o).containsValue v = true ↔ s.containsValue v = true ∨ o.containsValue v = true := by
  obtain ⟨w1,e1⟩ := s
  obtain ⟨w2,e2⟩ := o
  cases w1 <;> cases w2 <;>
    simp [union,containsValue_iff,mem_intersectSets,unionSets,subtractSets,imp_iff_or_not,or_comm]

/-- No finite list has the same values as an excluded one when the type is infinite. -/
theorem ext_contains [Infinite α] {s o : EquatableValueSet α}
    (h : ∀ v, s.containsValue v = true ↔ o.containsValue v = true) : s = o := by
  have hw : s.whiteList = o.whiteList := by
    by_contra hne
    obtain ⟨v,hv⟩ := (s.entries ∪ o.entries).exists_notMem
    rw [Finset.mem_union] at hv
    have hvs := h v
    simp only [containsValue_iff] at hvs
    exact hne (by cases hs : s.whiteList <;> cases ho : o.whiteList <;> simp_all)
  refine EquatableValueSet.ext hw (Finset.ext (fun v => ?_))
  have hv := h v
  simp only [containsValue_iff,hw] at hv
  tauto

end EquatableValueSet

/-- Either every value of the type or none. -/
@[ext] structure AllOrNoneValueSet where
  all : Bool
deriving DecidableEq

namespace AllOrNoneValueSet

variable (s : AllOrNoneValueSet)

def isNone : Bool := !s.all
def isAll : Bool := s.all
variable (o : AllOrNoneValueSet)

def intersect : AllOrNoneValueSet := ⟨s.all && o.all⟩
def union : AllOrNoneValueSet := ⟨s.all || o.all⟩

end AllOrNoneValueSet

/-- A column type by what its values can be compared for. -/
inductive ColumnType : Type 1
  | orderable (α : Type) [LinearOrder α]
  | comparable (α : Type) [DecidableEq α] [Infinite α]
  | incomparable (α : Type) [Nonempty α]

namespace ColumnType

abbrev Value : ColumnType → Type
  | @orderable α _ => α
  | @comparable α _ _ => α
  | @incomparable α _ => α

/-- The continuous value space: markers for an orderable type, values otherwise. -/
abbrev Point : ColumnType → Type
  | @orderable α _ => Marker α
  | @comparable α _ _ => α
  | @incomparable α _ => α

def point : {t : ColumnType} → t.Value → t.Point
  | @orderable _ _, value => Marker.exactly value
  | @comparable _ _ _, value => value
  | @incomparable _ _, value => value

end ColumnType
open ColumnType

/-- The value set class chosen by the type. -/
abbrev ValueSet : ColumnType → Type
  | @orderable α _ => SortedRangeSet α
  | @comparable α _ _ => EquatableValueSet α
  | @incomparable _ _ => AllOrNoneValueSet

namespace ValueSet
variable {t : ColumnType}

def isNone : {t : ColumnType} → ValueSet t → Bool
  | @orderable _ _, s => SortedRangeSet.isNone s
  | @comparable _ _ _, s => EquatableValueSet.isNone s
  | @incomparable _ _, s => AllOrNoneValueSet.isNone s

def isAll : {t : ColumnType} → ValueSet t → Bool
  | @orderable _ _, s => SortedRangeSet.isAll s
  | @comparable _ _ _, s => EquatableValueSet.isAll s
  | @incomparable _ _, s => AllOrNoneValueSet.isAll s

def containsValue : {t : ColumnType} → ValueSet t → t.Value → Bool
  | @orderable _ _, s, value => SortedRangeSet.containsValue s value
  | @comparable _ _ _, s, value => EquatableValueSet.containsValue s value
  | @incomparable _ _, s, _ => AllOrNoneValueSet.all s

def intersect : {t : ColumnType} → ValueSet t → ValueSet t → Except String (ValueSet t)
  | @orderable _ _, s, o => SortedRangeSet.intersect s o
  | @comparable _ _ _, s, o => pure (EquatableValueSet.intersect s o)
  | @incomparable _ _, s, o => pure (AllOrNoneValueSet.intersect s o)

def union : {t : ColumnType} → ValueSet t → ValueSet t → Except String (ValueSet t)
  | @orderable _ _, s, o => SortedRangeSet.union s o
  | @comparable _ _ _, s, o => pure (EquatableValueSet.union s o)
  | @incomparable _ _, s, o => pure (AllOrNoneValueSet.union s o)

/-- Union with a collection: one builder for ranges, the interface's default loop otherwise. -/
def unionAll : {t : ColumnType} → ValueSet t → List (ValueSet t) → Except String (ValueSet t)
  | @orderable _ _, s, valueSets => SortedRangeSet.unionAll s valueSets
  | @comparable α _ _, s, valueSets => valueSets.foldlM (@union (.comparable α)) s
  | @incomparable α _, s, valueSets => valueSets.foldlM (@union (.incomparable α)) s

def equals : {t : ColumnType} → ValueSet t → ValueSet t → Bool
  | @orderable _ _, s, o => SortedRangeSet.equals s o
  | @comparable _ _ _, s, o => decide (EquatableValueSet.whiteList s = EquatableValueSet.whiteList o) &&
      decide (EquatableValueSet.entries s = EquatableValueSet.entries o)
  | @incomparable _ _, s, o => decide (AllOrNoneValueSet.all s = AllOrNoneValueSet.all o)

def Contains : {t : ColumnType} → ValueSet t → t.Point → Prop
  | @orderable _ _, s, m => SortedRangeSet.Contains s m
  | @comparable _ _ _, s, v => EquatableValueSet.containsValue s v = true
  | @incomparable _ _, s, _ => AllOrNoneValueSet.all s = true

variable (s : ValueSet t)

theorem containsValue_iff (v : t.Value) : s.containsValue v = true ↔ s.Contains (point v) := by
  cases t with
  | orderable α => exact SortedRangeSet.includesMarker_iff s (.exactly v)
  | comparable α | incomparable α => exact .rfl

theorem ext_contains {s o : ValueSet t} (h : ∀ p, s.Contains p ↔ o.Contains p) : s = o := by
  cases t with
  | orderable α => exact SortedRangeSet.ext_contains h
  | comparable α => exact EquatableValueSet.ext_contains h
  | incomparable α =>
    obtain ⟨p⟩ := (inferInstance : Nonempty α)
    exact AllOrNoneValueSet.ext (Bool.eq_iff_iff.mpr (h p))

theorem equals_iff (s o : ValueSet t) : s.equals o = true ↔ s = o := by
  cases t with
  | orderable α =>
    refine (SortedRangeSet.equals_iff s o).trans ⟨SortedRangeSet.ext_contains,?_⟩
    rintro rfl m
    rfl
  | comparable α =>
    rw [equals,Bool.and_eq_true,decide_eq_true_eq,decide_eq_true_eq]
    exact EquatableValueSet.ext_iff.symm
  | incomparable α =>
    rw [equals,decide_eq_true_eq]
    exact AllOrNoneValueSet.ext_iff.symm

theorem isNone_iff : s.isNone = true ↔ ∀ p, ¬ s.Contains p := by
  cases t with
  | orderable α => exact SortedRangeSet.isNone_iff s
  | comparable α =>
    constructor
    · intro h v
      simp_all [isNone,EquatableValueSet.isNone,Contains,EquatableValueSet.containsValue_iff]
    · intro h
      have hs : s = (⟨true,∅⟩ : EquatableValueSet α) := EquatableValueSet.ext_contains (fun v => by
        simpa [EquatableValueSet.containsValue_iff,Contains] using h v)
      simp [isNone,EquatableValueSet.isNone,hs]
  | incomparable α =>
    obtain ⟨p⟩ := (inferInstance : Nonempty α)
    constructor
    · intro h v hv
      simp_all [isNone,AllOrNoneValueSet.isNone,Contains]
    · intro h
      simpa [isNone,AllOrNoneValueSet.isNone,Contains] using h p

theorem isAll_iff : s.isAll = true ↔ ∀ p, s.Contains p := by
  cases t with
  | orderable α => exact SortedRangeSet.isAll_iff s
  | comparable α =>
    constructor
    · intro h v
      simp_all [isAll,EquatableValueSet.isAll,Contains,EquatableValueSet.containsValue_iff]
    · intro h
      have hs : s = (⟨false,∅⟩ : EquatableValueSet α) := EquatableValueSet.ext_contains (fun v => by
        simpa [EquatableValueSet.containsValue_iff,Contains] using h v)
      simp [isAll,EquatableValueSet.isAll,hs]
  | incomparable α =>
    obtain ⟨p⟩ := (inferInstance : Nonempty α)
    exact ⟨fun h _ => h,fun h => h p⟩

theorem intersect_spec (s o : ValueSet t) :
    ∃ x, s.intersect o = .ok x ∧ ∀ p, x.Contains p ↔ s.Contains p ∧ o.Contains p := by
  cases t with
  | orderable α => exact SortedRangeSet.intersect_spec s o
  | comparable α => exact ⟨_,rfl,EquatableValueSet.intersect_contains s o⟩
  | incomparable α => exact ⟨_,rfl,fun _ => Bool.and_eq_true_iff⟩

theorem union_spec (s o : ValueSet t) : ∃ x, s.union o = .ok x ∧ ∀ p, x.Contains p ↔ s.Contains p ∨ o.Contains p := by
  cases t with
  | orderable α => exact SortedRangeSet.union_spec s o
  | comparable α => exact ⟨_,rfl,EquatableValueSet.union_contains s o⟩
  | incomparable α => exact ⟨_,rfl,fun _ => Bool.or_eq_true_iff⟩

variable (valueSets : List (ValueSet t))

private theorem foldlM_union_spec : ∃ x, valueSets.foldlM union s = .ok x ∧
      ∀ p, x.Contains p ↔ s.Contains p ∨ ∃ o ∈ valueSets, o.Contains p := by
  induction valueSets generalizing s with
  | nil => exact ⟨s,rfl,fun p => by simp⟩
  | cons o rest ih =>
    obtain ⟨y,hy,hyc⟩ := s.union_spec o
    obtain ⟨x,hx,hxc⟩ := ih y
    refine ⟨x,by rw [List.foldlM_cons,hy]; exact hx,fun p => ?_⟩
    rw [hxc,hyc]
    simp only [List.mem_cons,exists_eq_or_imp,or_assoc]

theorem unionAll_spec : ∃ x, s.unionAll valueSets = .ok x ∧
      ∀ p, x.Contains p ↔ s.Contains p ∨ ∃ o ∈ valueSets, o.Contains p := by
  cases t with
  | orderable α => exact SortedRangeSet.unionAll_spec s valueSets
  | comparable α | incomparable α => exact foldlM_union_spec s valueSets

end ValueSet
end HetuCore.Predicate
