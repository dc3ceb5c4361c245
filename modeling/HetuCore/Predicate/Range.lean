import HetuCore.Predicate.Marker

/-! Ranges of markers. The constructor refuses ends of the wrong kind and an
inverted pair, so that a range is a nonempty closed interval of markers. -/
namespace HetuCore.Predicate
open Marker

@[ext] structure Range (α : Type) [LinearOrder α] where
  low : Marker α
  high : Marker α
  low_bound : low.bound ≠ .below
  high_bound : high.bound ≠ .above
  compare_ends : low.compareTo high ≠ .gt

namespace Range
variable {α : Type} [LinearOrder α]

/-- The public constructor; both ends have the one type of the value space. -/
def new (low high : Marker α) : Except String (Range α) :=
  if hl : low.bound = .below then .error "low bound must be EXACTLY or ABOVE"
  else if hh : high.bound = .above then .error "high bound must be EXACTLY or BELOW"
  else if hc : low.compareTo high = .gt then .error "low must be less than or equal to high"
  else .ok ⟨low,high,hl,hh,hc⟩

def all : Except String (Range α) := new .lowerUnbounded .upperUnbounded
def greaterThan (low : α) : Except String (Range α) := new (.above low) .upperUnbounded
def greaterThanOrEqual (low : α) : Except String (Range α) := new (.exactly low) .upperUnbounded
def lessThan (high : α) : Except String (Range α) := new .lowerUnbounded (.below high)
def lessThanOrEqual (high : α) : Except String (Range α) := new .lowerUnbounded (.exactly high)
def equal (value : α) : Except String (Range α) := new (.exactly value) (.exactly value)

/-- A range with explicitly inclusive or exclusive ends. -/
def range (low : α) (lowInclusive : Bool) (high : α) (highInclusive : Bool) : Except String (Range α) :=
  new (if lowInclusive then .exactly low else .above low)
    (if highInclusive then .exactly high else .below high)

variable (r : Range α)

/-- The cached flag of the source: it only tests that the end is bounded. -/
def isLowInclusive : Bool := !r.low.isLowerUnbounded && !r.low.isUpperUnbounded
/-- The cached flag of the source: it only tests that the end is bounded. -/
def isHighInclusive : Bool := !r.high.isUpperUnbounded && !r.high.isLowerUnbounded

def isLowUnbounded : Bool := r.low.valueBlock.isNone
def isHighUnbounded : Bool := r.high.valueBlock.isNone

def getLowBoundedValue : Except String α :=
  match r.low.valueBlock with
  | some v => .ok v
  | none => .error "The range is low-unbounded"

def getHighBoundedValue : Except String α :=
  match r.high.valueBlock with
  | some v => .ok v
  | none => .error "The range is high-unbounded"

def isSingleValue : Bool := r.low.bound == .exactly && decide (r.low = r.high)

def getSingleValue : Except String α :=
  if !r.isSingleValue then .error "Range does not have just a single value" else r.low.getValue

def isAll : Bool := r.low.isLowerUnbounded && r.high.isUpperUnbounded

def includes (m : Marker α) : Bool :=
  (r.low.compareTo m).isLE && (r.high.compareTo m).isGE

def contains (o : Range α) : Bool :=
  (r.low.compareTo o.low).isLE && (r.high.compareTo o.high).isGE

def span (o : Range α) : Except String (Range α) :=
  new (Marker.min r.low o.low) (Marker.max r.high o.high)

def overlaps (o : Range α) : Bool :=
  (r.low.compareTo o.high).isLE && (o.low.compareTo r.high).isLE

def intersect (r o : Range α) : Except String (Range α) :=
  if r.overlaps o then new (Marker.max r.low o.low) (Marker.min r.high o.high)
  else .error "Cannot intersect non-overlapping ranges"

variable (r : Range α) (v : α)

theorem low_le_high : r.low ≤ r.high := compareTo_ne_gt.mp r.compare_ends

theorem low_shape : r.low = .lowerUnbounded ∨ ∃ a, r.low = .exactly a ∨ r.low = .above a := by
  have hb := r.low_bound
  obtain h | h | ⟨a,b,h⟩ := r.low.shape
  · exact .inl h
  · exact absurd (congrArg bound h) hb
  · refine .inr ⟨a,?_⟩
    cases b with
    | below => exact absurd (congrArg bound h) hb
    | exactly => exact .inl h
    | above => exact .inr h

theorem high_shape : r.high = .upperUnbounded ∨ ∃ b, r.high = .exactly b ∨ r.high = .below b := by
  have hb := r.high_bound
  obtain h | h | ⟨a,b,h⟩ := r.high.shape
  · exact absurd (congrArg bound h) hb
  · exact .inl h
  · refine .inr ⟨a,?_⟩
    cases b with
    | below => exact .inr h
    | exactly => exact .inl h
    | above => exact absurd (congrArg bound h) hb

theorem new_eq_ok {low high : Marker α} (hl : low.bound ≠ .below) (hh : high.bound ≠ .above)
    (hc : low ≤ high) : new low high = .ok ⟨low,high,hl,hh,compareTo_ne_gt.mpr hc⟩ := by
  rw [new,dif_neg hl,dif_neg hh,dif_neg (compareTo_ne_gt.mpr hc)]

@[simp] theorem includes_iff (m : Marker α) : r.includes m = true ↔ r.low ≤ m ∧ m ≤ r.high := by simp [includes]

@[simp] theorem overlaps_iff (o : Range α) :
    r.overlaps o = true ↔ r.low ≤ o.high ∧ o.low ≤ r.high := by simp [overlaps]

theorem isAll_iff : r.isAll = true ↔ r.low = .lowerUnbounded ∧ r.high = .upperUnbounded := by
  rw [isAll,Bool.and_eq_true,isLowerUnbounded_iff,isUpperUnbounded_iff]

def ends : Marker α × Marker α := (r.low,r.high)

@[simp] theorem ends_fst : r.ends.1 = r.low := rfl
@[simp] theorem ends_snd : r.ends.2 = r.high := rfl

theorem ends_injective : Function.Injective (ends : Range α → _) := by
  intro r o h
  exact Range.ext (congrArg Prod.fst h) (congrArg Prod.snd h)

instance : DecidableEq (Range α) := fun r o => decidable_of_iff (r.ends = o.ends) ends_injective.eq_iff

theorem span_eq_ok (o : Range α) : ∃ s, r.span o = .ok s ∧ s.low = r.low ⊓ o.low ∧ s.high = r.high ⊔ o.high := by
  have hl : (r.low ⊓ o.low).bound ≠ .below := by
    rcases min_choice r.low o.low with h | h <;> rw [h]
    · exact r.low_bound
    · exact o.low_bound
  have hh : (r.high ⊔ o.high).bound ≠ .above := by
    rcases max_choice r.high o.high with h | h <;> rw [h]
    · exact r.high_bound
    · exact o.high_bound
  have hc : r.low ⊓ o.low ≤ r.high ⊔ o.high :=
    inf_le_left.trans (r.low_le_high.trans le_sup_left)
  refine ⟨⟨_,_,hl,hh,compareTo_ne_gt.mpr hc⟩,?_,rfl,rfl⟩
  rw [span,min_eq,max_eq,new_eq_ok hl hh hc]

theorem intersect_eq_ok {r o : Range α} (h : r.overlaps o = true) :
    ∃ s, r.intersect o = .ok s ∧ s.low = r.low ⊔ o.low ∧ s.high = r.high ⊓ o.high := by
  have hl : (r.low ⊔ o.low).bound ≠ .below := by
    rcases max_choice r.low o.low with h | h <;> rw [h]
    · exact r.low_bound
    · exact o.low_bound
  have hh : (r.high ⊓ o.high).bound ≠ .above := by
    rcases min_choice r.high o.high with h | h <;> rw [h]
    · exact r.high_bound
    · exact o.high_bound
  obtain ⟨hro,hor⟩ := (overlaps_iff r o).mp h
  have hc : r.low ⊔ o.low ≤ r.high ⊓ o.high :=
    sup_le (le_inf r.low_le_high hro) (le_inf hor o.low_le_high)
  refine ⟨⟨_,_,hl,hh,compareTo_ne_gt.mpr hc⟩,?_,rfl,rfl⟩
  rw [intersect,if_pos h,min_eq,max_eq,new_eq_ok hl hh hc]

theorem all_spec : ∃ r : Range α, all = .ok r ∧ ∀ m, r.includes m = true :=
  ⟨_,new_eq_ok (show Bound.above ≠ .below by decide) (show Bound.below ≠ .above by decide) (lowerUnbounded_le _),
    fun m => (includes_iff _ m).mpr ⟨lowerUnbounded_le m,le_upperUnbounded m⟩⟩

theorem greaterThan_spec : ∃ r, greaterThan v = .ok r ∧ ∀ m, r.includes m = true ↔ .exactly v < m := by
  have hc : (exactly v) ⋖ above v := some_covBy rfl
  refine ⟨_,new_eq_ok (show Bound.above ≠ .below by decide) (show Bound.below ≠ .above by decide)
    (le_upperUnbounded _),fun m => ?_⟩
  rw [includes_iff,and_iff_left (le_upperUnbounded m)]
  exact ⟨hc.lt.trans_le,hc.ge_of_gt⟩

theorem greaterThanOrEqual_spec : ∃ r, greaterThanOrEqual v = .ok r ∧ ∀ m, r.includes m = true ↔ .exactly v ≤ m := by
  refine ⟨_,new_eq_ok (show Bound.exactly ≠ .below by decide) (show Bound.below ≠ .above by decide)
    (le_upperUnbounded _),fun m => ?_⟩
  rw [includes_iff,and_iff_left (le_upperUnbounded m)]

theorem lessThan_spec : ∃ r, lessThan v = .ok r ∧ ∀ m, r.includes m = true ↔ m < .exactly v := by
  have hc : (below v) ⋖ exactly v := some_covBy rfl
  refine ⟨_,new_eq_ok (show Bound.above ≠ .below by decide) (show Bound.below ≠ .above by decide)
    (lowerUnbounded_le _),fun m => ?_⟩
  rw [includes_iff,and_iff_right (lowerUnbounded_le m)]
  exact ⟨fun h => h.trans_lt hc.lt,hc.le_of_lt⟩

theorem lessThanOrEqual_spec : ∃ r, lessThanOrEqual v = .ok r ∧ ∀ m, r.includes m = true ↔ m ≤ .exactly v := by
  refine ⟨_,new_eq_ok (show Bound.above ≠ .below by decide) (show Bound.exactly ≠ .above by decide)
    (lowerUnbounded_le _),fun m => ?_⟩
  rw [includes_iff,and_iff_right (lowerUnbounded_le m)]

theorem equal_spec : ∃ r, equal v = .ok r ∧ ∀ m, r.includes m = true ↔ m = .exactly v := by
  refine ⟨_,new_eq_ok (show Bound.exactly ≠ .below by decide) (show Bound.exactly ≠ .above by decide) le_rfl,fun m => ?_⟩
  rw [includes_iff,← le_antisymm_iff,eq_comm]

theorem contains_iff (o : Range α) : r.contains o = true ↔ r.low ≤ o.low ∧ o.high ≤ r.high := by simp [contains]

theorem getSingleValue_spec {r : Range α} (h : r.isSingleValue = true) :
    ∃ v, r.getSingleValue = .ok v ∧ r.low = .exactly v ∧ r.high = .exactly v := by
  rw [isSingleValue,Bool.and_eq_true,beq_iff_eq,decide_eq_true_eq] at h
  obtain hl | ⟨v,hl | hl⟩ := r.low_shape
  · rw [hl] at h
    exact absurd h.1 (show Bound.above ≠ .exactly by decide)
  · rw [getSingleValue,isSingleValue,← h.2,hl]
    simp [exactly,getValue]
  · rw [hl] at h
    exact absurd h.1 (show Bound.above ≠ .exactly by decide)

end Range
end HetuCore.Predicate
