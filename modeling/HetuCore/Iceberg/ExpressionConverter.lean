import HetuCore.Iceberg.Expression
import HetuCore.Predicate.TupleDomainUnion

namespace HetuCore.Iceberg
open Predicate Expression Range

/-- The integral column types: 32 bits for INTEGER and DATE, 64 for BIGINT. -/
inductive IntegralType where
  | integer | bigint | date
  deriving DecidableEq, Repr

def IntegralType.bits : IntegralType → Nat
  | integer => 32
  | bigint => 64
  | date => 32

/-- The values of a type, as the single position of a block holds them. -/
abbrev IntegralType.Value (t : IntegralType) : Type := {i : Int // -2 ^ (t.bits - 1) ≤ i ∧ i < 2 ^ (t.bits - 1)}

/-- Columns with their types and the dotted names, which are unambiguous in a table. -/
structure Schema (T : Type) where
  type : T → IntegralType
  qualifiedName : T → String
  unambiguous : Function.Injective qualifiedName

variable {T : Type}

abbrev Schema.columnType (s : Schema T) (c : T) : ColumnType := .orderable (s.type c).Value

/-- A record whose column fields are NULL or values of the column's type. -/
structure Row (s : Schema T) where
  fields : String → Option Int
  typed : ∀ c, ∀ v ∈ fields (s.qualifiedName c), -2 ^ ((s.type c).bits - 1) ≤ v ∧ v < 2 ^ ((s.type c).bits - 1)

def Row.value {s : Schema T} (row : Row s) (c : T) : Option (s.type c).Value :=
  (row.fields (s.qualifiedName c)).pmap Subtype.mk (row.typed c)

section
variable {t : IntegralType}

def getIcebergLiteralValue (value : t.Value) : Int := value.1

def lowBoundExpression (columnName : String) (range : Range t.Value) : Except String Expression :=
  if range.isLowUnbounded then pure .alwaysTrue
  else do
    let icebergLow ← range.getLowBoundedValue
    if range.isLowInclusive then pure (.greaterThanOrEqual columnName (getIcebergLiteralValue icebergLow))
    else pure (.greaterThan columnName (getIcebergLiteralValue icebergLow))

def highBoundExpression (columnName : String) (range : Range t.Value) : Except String Expression :=
  if range.isHighUnbounded then pure .alwaysTrue
  else do
    let icebergHigh ← range.getHighBoundedValue
    if range.isHighInclusive then pure (.lessThanOrEqual columnName (getIcebergLiteralValue icebergHigh))
    else pure (.lessThan columnName (getIcebergLiteralValue icebergHigh))

def rangeToIcebergExpression (columnName : String) (range : Range t.Value) : Except String Expression :=
  if range.isSingleValue then do
    let value ← range.getSingleValue
    pure (.equal columnName (getIcebergLiteralValue value))
  else do
    let lowBound ← lowBoundExpression columnName range
    let highBound ← highBoundExpression columnName range
    pure (.and lowBound highBound)

/-- Single values go to the in-list, every other range becomes an expression. -/
def addRange (columnName : String) (acc : List Int × List Expression) (range : Range t.Value) :
    Except String (List Int × List Expression) :=
  if range.isSingleValue then do
    let value ← range.getLowBoundedValue
    pure (acc.1 ++ [getIcebergLiteralValue value],acc.2)
  else do
    let expression ← rangeToIcebergExpression columnName range
    pure (acc.1,acc.2 ++ [expression])

def domainToIcebergExpression (columnName : String) (domain : Domain (.orderable t.Value)) :
    Except String Expression :=
  if domain.isAll then pure .alwaysTrue
  else if domain.values.isNone then pure (if domain.nullAllowed then .isNull columnName else .alwaysFalse)
  else if domain.values.isAll then pure (if domain.nullAllowed then .alwaysTrue else .not (.isNull columnName))
  else do
    let (icebergValues,rangeExpressions) ← (SortedRangeSet.getOrderedRanges domain.values).foldlM
      (addRange columnName) ([],[])
    let ranges := orList rangeExpressions
    let values := if icebergValues.isEmpty then .alwaysFalse else .isIn columnName icebergValues
    let nullExpression := if domain.nullAllowed then .isNull columnName else .alwaysFalse
    pure (.or nullExpression (.or values ranges))

end

variable {s : Schema T}

def toIcebergExpression (tupleDomain : TupleDomain s.columnType) : Except String Expression :=
  if tupleDomain.isAll then pure .alwaysTrue
  else match tupleDomain.domains with
    | none => pure .alwaysFalse
    | some domainMap => domainMap.entries.foldlM (fun expression entry => do
        let columnExpression ← domainToIcebergExpression (s.qualifiedName entry.1) entry.2
        pure (Expression.and expression columnExpression)) .alwaysTrue

section
variable {t : IntegralType}

/-- The value lies between the end values of the range, both ends taken as closed. -/
def Reaches (range : Range t.Value) (v : Int) : Prop :=
  (∀ a ∈ range.low.valueBlock, a.1 ≤ v) ∧ ∀ b ∈ range.high.valueBlock, v ≤ b.1

/-- What a converted domain accepts of a field. -/
def Accepts (domain : Domain (.orderable t.Value)) : Option Int → Prop
  | none => domain.nullAllowed = true
  | some v => ∃ r ∈ SortedRangeSet.getOrderedRanges domain.values, Reaches r v

/-- The range has a bounded end that its own end value does not belong to. -/
def HasExclusiveEnd (range : Range t.Value) : Prop :=
  (range.low.valueBlock ≠ none ∧ range.low.bound ≠ .exactly) ∨
    (range.high.valueBlock ≠ none ∧ range.high.bound ≠ .exactly)

variable (columnName : String)

/-- Every bounded lower end, exclusive or not, becomes a non-strict comparison. -/
theorem lowBoundExpression_eq (r : Range t.Value) :
    (r.low = .lowerUnbounded ∧ lowBoundExpression columnName r = .ok .alwaysTrue) ∨
      ∃ a, r.low.valueBlock = some a ∧ lowBoundExpression columnName r = .ok (.greaterThanOrEqual columnName a.1) := by
  unfold lowBoundExpression isLowUnbounded getLowBoundedValue isLowInclusive
  obtain h | ⟨a,h | h⟩ := r.low_shape
  · exact .inl ⟨h,by rw [h]; rfl⟩
  · exact .inr ⟨a,by rw [h]; rfl,by rw [h]; rfl⟩
  · exact .inr ⟨a,by rw [h]; rfl,by rw [h]; rfl⟩

/-- Every bounded upper end, exclusive or not, becomes a non-strict comparison. -/
theorem highBoundExpression_eq (r : Range t.Value) :
    (r.high = .upperUnbounded ∧ highBoundExpression columnName r = .ok .alwaysTrue) ∨
      ∃ b, r.high.valueBlock = some b ∧ highBoundExpression columnName r = .ok (.lessThanOrEqual columnName b.1) := by
  unfold highBoundExpression isHighUnbounded getHighBoundedValue isHighInclusive
  obtain h | ⟨b,h | h⟩ := r.high_shape
  · exact .inl ⟨h,by rw [h]; rfl⟩
  · exact .inr ⟨b,by rw [h]; rfl,by rw [h]; rfl⟩
  · exact .inr ⟨b,by rw [h]; rfl,by rw [h]; rfl⟩

variable {r : Range t.Value}

theorem isSingleValue_spec (h : r.isSingleValue = true) : ∃ a, r.low = .exactly a ∧ r.high = .exactly a := by
  rw [isSingleValue,Bool.and_eq_true,decide_eq_true_eq] at h
  obtain hl | ⟨a,hl | hl⟩ := r.low_shape
  · rw [hl] at h
    cases h.1
  · exact ⟨a,hl,h.2.symm.trans hl⟩
  · rw [hl] at h
    cases h.1

theorem reaches_single {a : t.Value} (hl : r.low = .exactly a) (hh : r.high = .exactly a) (v : Int) :
    Reaches r v ↔ v = a.1 := by
  have hlw : r.low.valueBlock = some a := congrArg Marker.valueBlock hl
  have hhg : r.high.valueBlock = some a := congrArg Marker.valueBlock hh
  simp only [Reaches,hlw,hhg,Option.mem_def,Option.some.injEq,forall_eq']
  omega

/-- A converted range accepts the values its end values enclose, and never NULL. -/
theorem rangeToIcebergExpression_spec (ha : r.isAll = false) : ∃ e, rangeToIcebergExpression columnName r = .ok e ∧
      ∀ fields, e.satisfied fields = true ↔ ∃ v ∈ fields columnName, Reaches r v := by
  unfold rangeToIcebergExpression
  by_cases hs : r.isSingleValue = true
  · obtain ⟨a,hl,hh⟩ := isSingleValue_spec hs
    refine ⟨.equal columnName a.1,?_,fun fields => ?_⟩
    · rw [getSingleValue,hs,hl]
      rfl
    · simp [satisfied,reaches_single hl hh,Option.any_eq_true]
  · rw [if_neg hs]
    obtain ⟨hl,hle⟩ | ⟨a,hl,hle⟩ := lowBoundExpression_eq columnName r
    · obtain ⟨hh,hhe⟩ | ⟨b,hh,hhe⟩ := highBoundExpression_eq columnName r
      · rw [(isAll_iff r).mpr ⟨hl,hh⟩] at ha
        cases ha
      · refine ⟨_,by rw [hle,hhe]; rfl,fun fields => ?_⟩
        simp [satisfied,Reaches,hl,hh,Marker.lowerUnbounded,Option.any_eq_true]
    · obtain ⟨hh,hhe⟩ | ⟨b,hh,hhe⟩ := highBoundExpression_eq columnName r
      · refine ⟨_,by rw [hle,hhe]; rfl,fun fields => ?_⟩
        simp [satisfied,Reaches,hl,hh,Marker.upperUnbounded,Option.any_eq_true]
      · refine ⟨_,by rw [hle,hhe]; rfl,fun fields => ?_⟩
        cases hf : fields columnName <;> simp [satisfied,Reaches,hl,hh,hf]

/-- What the two collections accept of a field so far. -/
def Collected (columnName : String) (fields : String → Option Int) (acc : List Int × List Expression) : Prop :=
  (∃ v ∈ fields columnName, v ∈ acc.1) ∨ ∃ e ∈ acc.2, e.satisfied fields = true

theorem addRange_spec (acc : List Int × List Expression) (ha : r.isAll = false) :
    ∃ out, addRange columnName acc r = .ok out ∧ ∀ fields, Collected columnName fields out ↔
      Collected columnName fields acc ∨ ∃ v ∈ fields columnName, Reaches r v := by
  unfold addRange
  by_cases hs : r.isSingleValue = true
  · obtain ⟨a,hl,hh⟩ := isSingleValue_spec hs
    refine ⟨(acc.1 ++ [a.1],acc.2),?_,fun fields => ?_⟩
    · rw [if_pos hs,getLowBoundedValue,hl]
      rfl
    · simp only [Collected,reaches_single hl hh,List.mem_append,List.mem_singleton,and_or_left,exists_or]
      rw [or_right_comm]
  · obtain ⟨e,he,hst⟩ := rangeToIcebergExpression_spec columnName ha
    refine ⟨(acc.1,acc.2 ++ [e]),?_,fun fields => ?_⟩
    · rw [if_neg hs,he]
      rfl
    · simp only [Collected,List.mem_append,List.mem_singleton,or_and_right,exists_or,exists_eq_left,hst,or_assoc]

theorem foldlM_addRange_spec (ranges : List (Range t.Value)) (ha : ∀ r ∈ ranges, r.isAll = false)
    (acc : List Int × List Expression) :
    ∃ out, ranges.foldlM (addRange columnName) acc = .ok out ∧ ∀ fields, Collected columnName fields out ↔
      Collected columnName fields acc ∨ ∃ r ∈ ranges, ∃ v ∈ fields columnName, Reaches r v := by
  induction ranges generalizing acc with
  | nil => exact ⟨acc,rfl,fun fields => by simp⟩
  | cons r rest ih =>
    obtain ⟨mid,hm,hmc⟩ := addRange_spec columnName acc (ha r List.mem_cons_self)
    obtain ⟨out,ho,hc⟩ := ih (fun q hq => ha q (List.mem_cons_of_mem r hq)) mid
    refine ⟨out,by rw [List.foldlM_cons,hm]; exact ho,fun fields => ?_⟩
    rw [hc,hmc,List.exists_mem_cons_iff,or_assoc]

theorem isAll_of_mem {x : SortedRangeSet t.Value} (hr : r ∈ x.getOrderedRanges) (ha : r.isAll = true) :
    x.isAll = true := by
  obtain ⟨hl,hh⟩ := (isAll_iff r).mp ha
  refine (SortedRangeSet.isAll_iff x).mpr fun m => ⟨r,hr,(includes_iff r m).mpr ?_⟩
  rw [hl,hh]
  exact ⟨Marker.lowerUnbounded_le m,Marker.le_upperUnbounded m⟩

theorem accepts_of_isAll {d : Domain (.orderable t.Value)} (h : SortedRangeSet.isAll d.values = true) (v : Int) :
    Accepts d (some v) := by
  unfold SortedRangeSet.isAll at h
  split at h
  · rename_i r hr
    obtain ⟨hl,hh⟩ := (isAll_iff r).mp h
    refine ⟨r,by rw [hr]; exact List.mem_singleton_self r,?_⟩
    rw [Reaches,hl,hh]
    exact ⟨nofun,nofun⟩
  · cases h

/-- A converted domain accepts NULL as the domain does, and values up to both end
values of each range. -/
theorem domainToIcebergExpression_spec (d : Domain (.orderable t.Value)) :
    ∃ e, domainToIcebergExpression columnName d = .ok e ∧
      ∀ fields, e.satisfied fields = true ↔ Accepts d (fields columnName) := by
  unfold domainToIcebergExpression
  by_cases hda : d.isAll = true
  · obtain ⟨hv,hn⟩ := Bool.and_eq_true_iff.mp hda
    refine ⟨.alwaysTrue,by rw [if_pos hda]; rfl,fun fields => iff_of_true rfl ?_⟩
    cases hf : fields columnName with
    | none => exact hn
    | some v => exact accepts_of_isAll hv v
  by_cases hvn : d.values.isNone = true
  · have hr : SortedRangeSet.getOrderedRanges d.values = [] :=
      congrArg LowIndex.values (List.isEmpty_iff.mp hvn)
    refine ⟨_,by rw [if_neg hda,if_pos hvn]; rfl,fun fields => ?_⟩
    cases hn : d.nullAllowed <;> cases hf : fields columnName <;>
      simp [satisfied,Accepts,hf,hn,hr]
  by_cases hva : d.values.isAll = true
  · refine ⟨_,by rw [if_neg hda,if_neg hvn,if_pos hva]; rfl,fun fields => ?_⟩
    cases hf : fields columnName with
    | none => cases hn : d.nullAllowed <;> simp [satisfied,Accepts,hf,hn]
    | some v =>
      refine iff_of_true ?_ (accepts_of_isAll hva v)
      cases hn : d.nullAllowed <;> simp [satisfied,hf]
  · obtain ⟨⟨values,exprs⟩,ho,hc⟩ := foldlM_addRange_spec columnName (SortedRangeSet.getOrderedRanges d.values)
      (fun r hr => Bool.eq_false_of_not_eq_true fun ha => hva (isAll_of_mem hr ha)) ([],[])
    refine ⟨_,by rw [if_neg hda,if_neg hvn,if_neg hva,ho]; rfl,fun fields => ?_⟩
    have hvl : (if values.isEmpty then Expression.alwaysFalse else .isIn columnName values).satisfied fields = true ↔
        ∃ v ∈ fields columnName, v ∈ values := by
      cases values with
      | nil => simp [satisfied]
      | cons v rest => simp [satisfied,Option.any_eq_true]
    have hcl := hc fields
    simp only [Collected] at hcl
    rw [satisfied,satisfied,Bool.or_eq_true,Bool.or_eq_true,hvl,satisfied_orList,hcl]
    cases hf : fields columnName <;> cases hn : d.nullAllowed <;>
      simp [satisfied,Accepts,hf,hn]

end

private theorem foldlM_and_spec (entries : List (Sigma fun c => Domain (s.columnType c))) (acc : Expression) :
    ∃ e, entries.foldlM (fun expression entry => do
        let columnExpression ← domainToIcebergExpression (s.qualifiedName entry.1) entry.2
        pure (Expression.and expression columnExpression)) acc = .ok e ∧
      ∀ fields, e.satisfied fields = true ↔ acc.satisfied fields = true ∧
        ∀ entry ∈ entries, Accepts entry.2 (fields (s.qualifiedName entry.1)) := by
  induction entries generalizing acc with
  | nil => exact ⟨acc,rfl,fun fields => by simp⟩
  | cons entry rest ih =>
    obtain ⟨c,hc,hcs⟩ := domainToIcebergExpression_spec (s.qualifiedName entry.1) entry.2
    obtain ⟨e,he,hes⟩ := ih (.and acc c)
    refine ⟨e,by rw [List.foldlM_cons,hc]; exact he,fun fields => ?_⟩
    rw [hes,satisfied,Bool.and_eq_true,hcs,List.forall_mem_cons,and_assoc]

/-- The conversion never throws, and its expression accepts a record column by column. -/
theorem toIcebergExpression_spec (a : TupleDomain s.columnType) :
    ∃ e, toIcebergExpression a = .ok e ∧ ∀ fields, e.satisfied fields = true ↔
      ∃ m ∈ a.domains, ∀ entry ∈ m.entries, Accepts entry.2 (fields (s.qualifiedName entry.1)) := by
  unfold toIcebergExpression TupleDomain.isAll
  cases ha : a.domains with
  | none => exact ⟨.alwaysFalse,rfl,fun fields => by simp [satisfied]⟩
  | some m =>
    by_cases he : m.entries.isEmpty = true
    · refine ⟨.alwaysTrue,by simp only [he]; rfl,fun fields => ?_⟩
      simp [satisfied,List.isEmpty_iff.mp he]
    · obtain ⟨e,hok,hs⟩ := foldlM_and_spec m.entries .alwaysTrue
      refine ⟨e,by simp only [he]; exact hok,fun fields => ?_⟩
      rw [hs]
      simp [satisfied]

end HetuCore.Iceberg
