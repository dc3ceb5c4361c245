import HetuCore.HeuristicIndex.BitmapIndex

namespace HetuCore.HeuristicIndex
open Predicate Marker List

namespace BitmapIndex
section
variable {Key : Type} [LinearOrder Key] (positions : AList fun _ : Key => List Nat)

def positionsAt (key : Key) : List Nat := (positions.lookup key).getD []

theorem positionsAt_addPosition (entry : Option Key × Nat) (key : Key) (i : Nat) :
    i ∈ positionsAt (addPosition positions entry) key ↔ i ∈ positionsAt positions key ∨ entry = (some key,i) := by
  obtain ⟨value,j⟩ := entry
  cases value with
  | none => simp [addPosition]
  | some value =>
    rw [addPosition,positionsAt,positionsAt]
    by_cases hk : key = value
    · subst hk
      simp [eq_comm]
    · rw [AList.lookup_insert_ne hk]
      simp [Ne.symm hk]

theorem positionsAt_foldl (entries : List (Option Key × Nat)) (positions : AList fun _ : Key => List Nat) (key : Key) (i : Nat) :
    i ∈ positionsAt (entries.foldl addPosition positions) key ↔ i ∈ positionsAt positions key ∨ (some key,i) ∈ entries := by
  induction entries generalizing positions with
  | nil => simp
  | cons entry entries ih =>
    rw [foldl_cons,ih,positionsAt_addPosition,mem_cons,or_assoc,eq_comm]

theorem mem_btree_addValues (vals : List (Option Key)) (i : Nat) (key : Key) :
    (∃ e ∈ (addValues vals).btree, e.1 = key ∧ i ∈ e.2) ↔ vals[i]? = some (some key) := by
  have hp := positionsAt_foldl vals.zipIdx ∅ key i
  rw [mem_zipIdx_iff_getElem?] at hp
  simp only [positionsAt,AList.lookup_empty,Option.getD_none,not_mem_nil,false_or] at hp
  rw [← hp]
  simp only [addValues,mem_mergeSort,mem_map,exists_exists_and_eq_and,mem_toFinset]
  constructor
  · rintro ⟨⟨k,ps⟩,he,rfl,hi⟩
    rw [AList.mem_lookup_iff.mpr he]
    exact hi
  · intro hi
    cases hl : (vals.zipIdx.foldl addPosition ∅).lookup key with
    | none => simp [hl] at hi
    | some ps =>
      rw [hl] at hi
      exact ⟨⟨key,ps⟩,AList.mem_lookup_iff.mp hl,rfl,hi⟩

theorem mem_foldr_union (bitmaps : List (Finset Nat)) (i : Nat) :
    i ∈ bitmaps.foldr (· ∪ ·) ∅ ↔ ∃ bitmap ∈ bitmaps, i ∈ bitmap := by
  induction bitmaps with
  | nil => simp
  | cons bitmap bitmaps ih => simp [ih]

end

variable {t : IndexedType} (index : BitmapIndex t.Key) (predicate : t.Domain)

/-- Every range of the domain can be looked up. -/
def Supports : Prop :=
  ∀ range ∈ SortedRangeSet.getOrderedRanges predicate.values, ∃ keys, index.rangeKeys range = .ok keys

/-- The value is not NULL and its key lies in the sub-map of one of the ranges. -/
def Finds (value : Option t.Native) : Prop :=
  ∃ v, value = some v ∧ ∃ range ∈ SortedRangeSet.getOrderedRanges predicate.values,
    ∃ keys, index.rangeKeys range = .ok keys ∧ keys (t.actual v) = true

variable {index : BitmapIndex t.Key} {ranges : List (Range t.Native)} {predicate : t.Domain}
  {values : List (Option t.Native)}

theorem mapM_rangeKeys (h : ∀ range ∈ ranges, ∃ keys, index.rangeKeys range = .ok keys) :
    ∃ selections, ranges.mapM index.rangeKeys = .ok selections ∧
      ∀ keys, keys ∈ selections ↔ ∃ range ∈ ranges, index.rangeKeys range = .ok keys := by
  induction ranges with
  | nil => exact ⟨[],rfl,by simp⟩
  | cons range ranges ih =>
    obtain ⟨⟨keys,hk⟩,hr⟩ := forall_mem_cons.mp h
    obtain ⟨selections,hs,hm⟩ := ih hr
    refine ⟨keys :: selections,by rw [mapM_cons,hk,hs]; rfl,fun k => ?_⟩
    rw [mem_cons,hm,exists_mem_cons_iff,hk]
    exact or_congr_left ⟨fun h => congrArg _ h.symm,fun h => (Except.ok.inj h).symm⟩

/-- The look-up of a supported domain finds the positions of its values, in increasing order. -/
theorem lookUp_of_supports (values : List (Option t.Native))
    (h : (addValues (values.map (Option.map t.actual))).Supports predicate) :
    ∃ positions, (addValues (values.map (Option.map t.actual))).lookUp predicate = .ok positions ∧
      positions.Pairwise (· < ·) ∧ ∀ i, i ∈ positions ↔ ∃ value, values[i]? = some value ∧
        (addValues (values.map (Option.map t.actual))).Finds predicate value := by
  set index := addValues (values.map (.map t.actual)) with hin
  obtain ⟨selections,hs,hm⟩ := mapM_rangeKeys h
  refine ⟨_,by rw [lookUp,hs],Finset.sortedLT_sort _ |>.pairwise,fun i => ?_⟩
  have hky : ∀ key, (∃ e ∈ index.btree, e.1 = key ∧ i ∈ e.2) ↔ ∃ v, values[i]? = some (some v) ∧ t.actual v = key := by
    intro key
    rw [mem_btree_addValues]
    simp
  rw [Finset.mem_sort,mem_foldr_union]
  simp only [mem_flatMap,matching,mem_map,mem_filter]
  constructor
  · rintro ⟨bitmap,⟨keys,hks,e,⟨he,hek⟩,rfl⟩,hi⟩
    obtain ⟨v,hv,hve⟩ := (hky e.1).mp ⟨e,he,rfl,hi⟩
    obtain ⟨range,hr,hok⟩ := (hm keys).mp hks
    exact ⟨some v,hv,v,rfl,range,hr,keys,hok,by rw [hve]; exact hek⟩
  · rintro ⟨_,hv,v,rfl,range,hr,keys,hok,hk⟩
    obtain ⟨e,he,hek,hi⟩ := (hky (t.actual v)).mpr ⟨v,hv,rfl⟩
    exact ⟨e.2,⟨keys,(hm keys).mpr ⟨range,hr,hok⟩,e,⟨he,by rw [hek]; exact hk⟩,rfl⟩,hi⟩

theorem supports_of_mapM {selections : List (t.Key → Bool)} (h : ranges.mapM index.rangeKeys = .ok selections) :
    ∀ range ∈ ranges, ∃ keys, index.rangeKeys range = .ok keys := by
  induction ranges generalizing selections with
  | nil => simp
  | cons range ranges ih =>
    rw [mapM_cons] at h
    obtain ⟨keys,hrn,h⟩ := Foundation.bind_ok h
    obtain ⟨rest,hr,-⟩ := Foundation.bind_ok h
    exact forall_mem_cons.mpr ⟨⟨keys,hrn⟩,ih hr⟩

theorem lookUp_of_not_supports (h : ¬ index.Supports predicate) :
    index.lookUp predicate = .error "Unsupported expression type." := by
  rw [lookUp]
  split
  case h_1 selections hok => exact absurd (supports_of_mapM hok) h
  case h_2 => rfl

theorem key_between {vals : List (Option t.Key)} {key : t.Key} (h : some key ∈ vals) :
    (∃ first, (addValues vals).firstKey = .ok first ∧ first ≤ key) ∧
      ∃ last, (addValues vals).lastKey = .ok last ∧ key ≤ last := by
  obtain ⟨i,hi⟩ := mem_iff_getElem?.mp h
  obtain ⟨e,he,rfl,-⟩ := (mem_btree_addValues vals i key).mpr hi
  have hs : (addValues vals).btree.Pairwise fun a b => a.1 ≤ b.1 :=
    (pairwise_mergeSort (fun a b c => by simpa using le_trans) (fun a b => by simpa using le_total a.1 b.1) _).imp
      of_decide_eq_true
  set btree := (addValues vals).btree with hb
  have hne := ne_nil_of_mem he
  constructor
  · obtain ⟨first,rest,hcn⟩ := exists_cons_of_ne_nil hne
    refine ⟨first.1,by rw [firstKey,← hb,hcn]; rfl,?_⟩
    rw [hcn] at he hs
    rcases mem_cons.mp he with rfl | he
    · exact le_rfl
    · exact (pairwise_cons.mp hs).1 e he
  · obtain ⟨rest,last,hc⟩ := (eq_nil_or_concat btree).resolve_left hne
    rw [concat_eq_append] at hc
    refine ⟨last.1,by rw [lastKey,← hb,hc,getLast?_append]; rfl,?_⟩
    rw [hc] at he hs
    rcases mem_append.mp he with he | he
    · exact (pairwise_append.mp hs).2.2 e he last mem_cons_self
    · rw [mem_singleton.mp he]

theorem ordered_includes {low high key : t.Key} {fromInclusive toInclusive : Bool}
    (hl : low < key ∨ fromInclusive = true ∧ low = key) (hh : key < high ∨ toInclusive = true ∧ key = high) :
    (KeyBounds.ordered low fromInclusive high toInclusive).includes key = true := by
  have hle : low ≤ high := (hl.elim le_of_lt fun h => h.2.le).trans (hh.elim le_of_lt fun h => h.2.le)
  rw [KeyBounds.ordered,if_neg (not_lt.mpr hle),KeyBounds.includes]
  simpa [Bool.and_eq_true] using ⟨hl,hh⟩

/-- The lower end of a range below a value of it: none, a value that is not greater, or one excluded. -/
theorem low_end {α : Type} [LinearOrder α] {range : Range α} {v : α} (h : range.includes (.exactly v) = true) :
    range.low = .lowerUnbounded ∨ ∃ a, range.low.isLowerUnbounded = false ∧ range.low.getValue = .ok a ∧
      (a < v ∨ (range.low.bound == .exactly) = true ∧ a = v) := by
  obtain ⟨hlw,-⟩ := (Range.includes_iff _ _).mp h
  obtain hl | ⟨a,hl | hl⟩ := range.low_shape
  · exact .inl hl
  · rw [hl] at hlw ⊢
    exact .inr ⟨a,rfl,rfl,(exactly_le_exactly.mp hlw).lt_or_eq.imp id fun h => ⟨rfl,h⟩⟩
  · rw [hl] at hlw ⊢
    refine .inr ⟨a,rfl,rfl,.inl (lt_of_le_of_ne (value_le rfl rfl hlw) ?_)⟩
    rintro rfl
    exact absurd hlw (some_covBy rfl).lt.not_ge

theorem high_end {α : Type} [LinearOrder α] {range : Range α} {v : α} (h : range.includes (.exactly v) = true) :
    range.high = .upperUnbounded ∨ ∃ b, range.high.isUpperUnbounded = false ∧ range.high.getValue = .ok b ∧
      (v < b ∨ (range.high.bound == .exactly) = true ∧ v = b) := by
  obtain ⟨-,hhg⟩ := (Range.includes_iff _ _).mp h
  obtain hh | ⟨b,hh | hh⟩ := range.high_shape
  · exact .inl hh
  · rw [hh] at hhg ⊢
    exact .inr ⟨b,rfl,rfl,(exactly_le_exactly.mp hhg).lt_or_eq.imp id fun h => ⟨rfl,h⟩⟩
  · rw [hh] at hhg ⊢
    refine .inr ⟨b,rfl,rfl,.inl (lt_of_le_of_ne (value_le rfl rfl hhg) ?_)⟩
    rintro rfl
    exact absurd hhg (some_covBy rfl).lt.not_ge

/-- If the keys are ordered as the values, the key of a stored value lies in the sub-map of every range
that includes the value. -/
theorem keyBounds_includes (hm : StrictMono t.actual) {range : Range t.Native} {bounds : KeyBounds t.Key}
    (h : (addValues (values.map (Option.map t.actual))).keyBounds range = .ok bounds) {v : t.Native}
    (hv : some v ∈ values) (hr : range.includes (.exactly v) = true) : bounds.includes (t.actual v) = true := by
  have hk : some (t.actual v) ∈ values.map (.map t.actual) := mem_map_of_mem hv
  obtain ⟨⟨first,hfr,hf⟩,last,hlt,hls⟩ := key_between hk
  have hle : ∀ {fromInclusive : Bool} {a b : t.Native}, a < b ∨ fromInclusive = true ∧ a = b →
      t.actual a < t.actual b ∨ fromInclusive = true ∧ t.actual a = t.actual b := fun h =>
    h.imp (fun h => hm h) (.imp_right (congrArg _))
  rw [keyBounds] at h
  rcases low_end hr with hl | ⟨a,hl,ha,hav⟩
  · rcases high_end hr with hh | ⟨b,hh,hb,hvb⟩
    · rw [hl,hh] at h
      cases h
    · rw [(isLowerUnbounded_iff _).mpr hl,hh,hfr,hb] at h
      cases h
      exact ordered_includes (hf.lt_or_eq.imp id fun h => ⟨rfl,h⟩) (hle hvb)
  · rcases high_end hr with hh | ⟨b,hh,hb,hvb⟩
    · rw [(isUpperUnbounded_iff _).mpr hh,hl,hlt,ha] at h
      cases h
      exact ordered_includes (hle hav) (hls.lt_or_eq.imp id fun h => ⟨rfl,h⟩)
    · rw [hl,hh,ha,hb] at h
      cases h
      exact ordered_includes ((hle hav).imp id fun h => ⟨rfl,h.2⟩) ((hle hvb).imp id fun h => ⟨rfl,h.2⟩)

/-- If the keys are ordered as the values, only NULL is overlooked. -/
theorem finds_of_strictMono (hm : StrictMono t.actual)
    (h : (addValues (values.map (Option.map t.actual))).Supports predicate) {v : t.Native} (hv : some v ∈ values)
    (ha : predicate.includesNullableValue (some v) = true) :
    (addValues (values.map (Option.map t.actual))).Finds predicate (some v) := by
  obtain ⟨range,hr,hi⟩ := (SortedRangeSet.includesMarker_iff _ _).mp ha
  obtain ⟨keys,hk⟩ := h range hr
  refine ⟨v,rfl,range,hr,keys,hk,?_⟩
  rw [rangeKeys] at hk
  split at hk
  case isTrue => cases hk
  case isFalse =>
    split at hk
    case isTrue hs =>
      obtain ⟨w,hw,hlw,hhg⟩ := Range.getSingleValue_spec hs
      rw [hw] at hk
      cases hk
      obtain ⟨hl,hh⟩ := (Range.includes_iff _ _).mp hi
      rw [hlw,exactly_le_exactly] at hl
      rw [hhg,exactly_le_exactly] at hh
      exact decide_eq_true (congrArg t.actual (le_antisymm hh hl))
    case isFalse =>
      cases hb : (addValues (values.map (.map t.actual))).keyBounds range with
      | error message =>
        rw [hb] at hk
        cases hk
      | ok bounds =>
        rw [hb] at hk
        cases hk
        exact keyBounds_includes hm hb hv hi

end BitmapIndex
end HetuCore.HeuristicIndex
