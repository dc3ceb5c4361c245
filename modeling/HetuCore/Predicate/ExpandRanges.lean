import HetuCore.Predicate.SortedRangeSet

/-! `SortedRangeSet.tryExpandRanges` over the integral types. The ends of a range are handed over as blocks,
which `getDiscreteValues` casts to a long, so that no bounded range is ever expanded. -/
namespace HetuCore.Predicate
open Range

inductive IntegralType
  | tinyint
  | smallint
  | integer
  | bigint
  | shortDecimal (precision : Nat)

/-- What `Type.Range` holds: the block of a marker, or a boxed value. -/
inductive RangeEnd
  | block (value : Int)
  | long (value : Int)

def RangeEnd.toLong : RangeEnd → Except String Int
  | block _ => .error "ClassCastException"
  | long value => .ok value

/-- `LongStream.rangeClosed`. -/
def rangeClosed (low high : Int) : List Int := (List.range (high + 1 - low).toNat).map fun (k : Nat) => low + k

namespace IntegralType

/-- The short decimal does not override `getRange`. -/
def getRange : IntegralType → Option (Int × Int)
  | tinyint => some (-2 ^ 7,2 ^ 7 - 1)
  | smallint => some (-2 ^ 15,2 ^ 15 - 1)
  | integer => some (-2 ^ 31,2 ^ 31 - 1)
  | bigint => some (-2 ^ 63,2 ^ 63 - 1)
  | shortDecimal _ => none

def Contains : IntegralType → Int → Prop
  | tinyint, v => -2 ^ 7 ≤ v ∧ v < 2 ^ 7
  | smallint, v => -2 ^ 15 ≤ v ∧ v < 2 ^ 15
  | integer, v => -2 ^ 31 ≤ v ∧ v < 2 ^ 31
  | bigint, v => -2 ^ 63 ≤ v ∧ v < 2 ^ 63
  | shortDecimal precision, v => -10 ^ precision < v ∧ v < 10 ^ precision

/-- All five types cast the ends in the same way. -/
def getDiscreteValues (_ : IntegralType) (min max : RangeEnd) : Except String (Option (List Int)) := do
  let low ← min.toLong
  let high ← max.toLong
  pure (some (rangeClosed low high))

def typeRange (type : IntegralType) : Except String (Range Int) :=
  match type.getRange with
  | some (min,max) => Range.range min true max true
  | .none => all

variable {type : IntegralType}

theorem typeRange_of_some {low high : Int} (h : type.getRange = some (low,high)) :
    ∃ t, type.typeRange = .ok t ∧ t.low = .exactly low ∧ t.high = .exactly high := by
  have hle : low ≤ high := by
    cases type <;> cases h <;> decide
  rw [typeRange,h]
  exact ⟨_,new_eq_ok (show Bound.exactly ≠ .below by decide) (show Bound.exactly ≠ .above by decide)
    (Marker.exactly_le_exactly.mpr hle),rfl,rfl⟩

theorem typeRange_of_none (h : type.getRange = none) :
    ∃ t, type.typeRange = .ok t ∧ t.low = .lowerUnbounded ∧ t.high = .upperUnbounded := by
  rw [typeRange,h]
  exact ⟨_,rfl,rfl,rfl⟩

end IntegralType

namespace SortedRangeSet

/-- The loop over the iterator of one range; nothing is returned at the limit. -/
def addValues (highInclusive : Bool) (valuesLimit : Nat) : List Int → List Int → Option (List Int)
  | [], result => some result
  | current :: iterator, result =>
    if highInclusive || !iterator.isEmpty then
      if valuesLimit ≤ result.length then .none else addValues highInclusive valuesLimit iterator (result ++ [current])
    else addValues highInclusive valuesLimit iterator result

/-- The values of a range with two bounded ends. -/
def expandRange (type : IntegralType) (range : Range Int) (valuesLimit : Nat) (result : List Int) :
    Except String (Option (List Int)) := do
  let low ← range.getLowBoundedValue
  let high ← range.getHighBoundedValue
  let discreteValues ← type.getDiscreteValues (.block low) (.block high)
  match discreteValues with
  | .none => pure .none
  | some [] => .error "discreteValues iterator is empty"
  | some (value :: iterator) =>
    pure (addValues range.isHighInclusive valuesLimit
      (if range.isLowInclusive then value :: iterator else iterator) result)

def isUnbounded (range : Range Int) : Bool := range.isLowUnbounded || range.isHighUnbounded

def restrict (typeRange range : Range Int) : Except String (Range Int) :=
  if isUnbounded range then range.intersect typeRange else pure range

def expandLoop (type : IntegralType) (typeRange : Range Int) (valuesLimit : Nat) :
    List (Range Int) → List Int → Except String (Option (List Int))
  | [], result => pure (some result)
  | range :: ranges, result => do
    let range ← restrict typeRange range
    -- a range that was bounded from the start passes this test too
    if isUnbounded range then pure .none
    else do
      let expanded ← expandRange type range valuesLimit result
      match expanded with
      | .none => pure .none
      | some result => expandLoop type typeRange valuesLimit ranges result

variable (s : SortedRangeSet Int)

def tryExpandRanges (type : IntegralType) (valuesLimit : Nat) : Except String (Option (List Int)) := do
  let typeRange ← type.typeRange
  expandLoop type typeRange valuesLimit s.getOrderedRanges []

/-- Whatever comes back is the values of the set in order, within the limit. -/
def Expands (type : IntegralType) (valuesLimit : Nat) : Prop :=
  ∃ result, s.tryExpandRanges type valuesLimit = .ok result ∧ ∀ values ∈ result,
    (∀ v, v ∈ values ↔ type.Contains v ∧ s.containsValue v = true) ∧ values.Pairwise (· < ·) ∧
      values.length ≤ valuesLimit

variable {type : IntegralType} {typeRange range r : Range Int} {n : Nat} {ranges : List (Range Int)} {result : List Int}

theorem expandRange_throws (h : isUnbounded range = false) :
    expandRange type range n result = .error "ClassCastException" := by
  obtain ⟨hl,hh⟩ := Bool.or_eq_false_iff.mp h
  unfold expandRange getLowBoundedValue getHighBoundedValue
  cases hlw : range.low.valueBlock with
  | none => simp [isLowUnbounded,hlw] at hl
  | some low =>
    cases hhg : range.high.valueBlock with
    | none => simp [isHighUnbounded,hhg] at hh
    | some high => rfl

theorem expandLoop_of_unbounded (hr : restrict typeRange range = .ok r) (h : isUnbounded r = true) :
    expandLoop type typeRange n (range :: ranges) result = .ok .none := by
  rw [expandLoop,hr]
  exact if_pos h

theorem expandLoop_of_bounded (hr : restrict typeRange range = .ok r) (h : isUnbounded r = false) :
    expandLoop type typeRange n (range :: ranges) result = .error "ClassCastException" := by
  rw [expandLoop,hr]
  refine (if_neg (Bool.eq_false_iff.mp h)).trans ?_
  rw [expandRange_throws h]
  rfl

private theorem isNone_eq_false_of_between {m : Marker Int} {low high : Int} (hl : .exactly low ≤ m)
    (hh : m ≤ .exactly high) : m.valueBlock.isNone = false := by
  obtain rfl | rfl | ⟨v,b,rfl⟩ := m.shape
  · exact absurd hl (Marker.lowerUnbounded_lt_some _ _ _).not_ge
  · exact absurd hh (Marker.some_lt_upperUnbounded _ _ _).not_ge
  · rfl

/-- Cut down to the range of its type a range is bounded, and then it cannot be expanded. -/
theorem expandLoop_throws (type : IntegralType) (n : Nat) (range : Range Int) (ranges : List (Range Int))
    (result : List Int) {low high : Int} (hlw : typeRange.low = .exactly low) (hhg : typeRange.high = .exactly high) :
    ∃ message, expandLoop type typeRange n (range :: ranges) result = .error message := by
  cases h : restrict typeRange range with
  | error message => exact ⟨message,by rw [expandLoop,h]; rfl⟩
  | ok r =>
    refine ⟨_,expandLoop_of_bounded h ?_⟩
    unfold restrict at h
    split at h
    · have ho : range.overlaps typeRange = true := by
        by_contra ho
        rw [Range.intersect,if_neg ho] at h
        cases h
      obtain ⟨s,hs,hl,hh⟩ := intersect_eq_ok ho
      obtain rfl := Except.ok.inj (h.symm.trans hs)
      have hlr : .exactly low ≤ r.low := by
        rw [hl,hlw]
        exact le_sup_right
      have hrh : r.high ≤ .exactly high := by
        rw [hh,hhg]
        exact inf_le_right
      exact Bool.or_eq_false_iff.mpr ⟨isNone_eq_false_of_between hlr (r.low_le_high.trans hrh),
        isNone_eq_false_of_between (hlr.trans r.low_le_high) hrh⟩
    · cases h
      exact Bool.eq_false_of_not_eq_true ‹_›

theorem expandLoop_of_all (hlw : typeRange.low = .lowerUnbounded) (hhg : typeRange.high = .upperUnbounded)
    (h : isUnbounded range = true) : expandLoop type typeRange n (range :: ranges) result = .ok .none := by
  have ho : range.overlaps typeRange = true := by
    simp [hlw,hhg,Marker.le_upperUnbounded,Marker.lowerUnbounded_le]
  obtain ⟨s,hs,hl,hh⟩ := intersect_eq_ok ho
  have hrs : s = range := Range.ext (hl.trans (by simp [hlw,Marker.lowerUnbounded_le]))
    (hh.trans (by simp [hhg,Marker.le_upperUnbounded]))
  exact expandLoop_of_unbounded (by rw [restrict,if_pos h,hs,hrs]) h

/-- A range is never expanded, and it is given up on only where its type has no bounds. -/
theorem expands_iff (type : IntegralType) (n : Nat) : s.Expands type n ↔
    s.isNone = true ∨ type.getRange = .none ∧ ∃ r ∈ s.getOrderedRanges.head?, isUnbounded r = true := by
  have hrn : ∀ {t}, type.typeRange = .ok t → s.tryExpandRanges type n = expandLoop type t n s.getOrderedRanges [] := by
    intro t ht
    rw [tryExpandRanges,ht]
    rfl
  cases hs : s.lowIndexedRanges with
  | nil =>
    refine iff_of_true ⟨some [],?_,?_⟩ (.inl (by rw [isNone,hs]; rfl))
    · rw [tryExpandRanges,getOrderedRanges,hs]
      cases type <;> rfl
    · simp [containsValue,includesMarker,hs,LowIndex.floorEntry]
  | cons e index =>
    have hr : s.getOrderedRanges = e.2 :: index.map Prod.snd := by
      rw [getOrderedRanges,hs]
      rfl
    simp only [Expands,isNone,hs,hr,List.isEmpty_cons,Bool.false_eq_true,false_or,List.head?_cons,Option.mem_some_iff,
      exists_eq_left']
    rw [hr] at hrn
    cases hrg : type.getRange with
    | none =>
      obtain ⟨t,ht,hl,hh⟩ := IntegralType.typeRange_of_none hrg
      cases h : isUnbounded e.2 with
      | true => simp [hrn ht,expandLoop_of_all hl hh h]
      | false =>
        have hc : restrict t e.2 = .ok e.2 := by
          rw [restrict,h]
          rfl
        simp [hrn ht,expandLoop_of_bounded hc h]
    | some bounds =>
      obtain ⟨t,ht,hl,hh⟩ := IntegralType.typeRange_of_some hrg
      obtain ⟨message,hth⟩ := expandLoop_throws type n e.2 (index.map Prod.snd) [] hl hh
      simp [hrn ht,hth]

theorem tryExpandRanges_five_to_ten : ∃ s, (Range.range 5 true 10 true >>= fun r => copyOf [r]) = .ok s ∧
    s.tryExpandRanges .bigint 100 = .error "ClassCastException" :=
  ⟨_,rfl,rfl⟩

end SortedRangeSet
end HetuCore.Predicate
