import HetuCore.DynamicFiltering.OrcPredicate

namespace HetuCore.DynamicFiltering.OrcPredicate
open Foundation DynamicFilter Option Finset
variable {Column Other : Type} [DecidableEq Column] [DecidableEq Other] (H : BloomHash)

variable (df : DynamicFilter Other) (value : Int)

theorem contains_long : df.contains H (some (.long value)) = .ok (containsLong H df value) := by
  have hok : ∃ contained, df.contains H (some (.long value)) = .ok contained := by
    induction df with
    | hashSet filterId valueSet min max => exact ⟨_,rfl⟩
    | filtered filterId valueSet comparison min max => cases comparison <;> exact ⟨_,rfl⟩
    | bloom filterId bloomFilter min max => exact ⟨_,rfl⟩
    | combined filter1 filter2 ih1 ih2 =>
      obtain ⟨first,hf⟩ := ih1
      obtain ⟨second,hs⟩ := ih2
      rw [contains,hf]
      cases first with
      | false => exact ⟨_,rfl⟩
      | true => exact ⟨second,hs⟩
  obtain ⟨contained,hc⟩ := hok
  rw [containsLong,hc]

theorem containsLong_iff :
    containsLong H df value = true ↔ ∀ filter ∈ getFilters df, containsLong H filter value = true := by
  induction df with
  | combined filter1 filter2 ih1 ih2 =>
    rw [getFilters,List.forall_mem_append,← ih1,← ih2]
    have hc : containsLong H (.combined filter1 filter2) value =
        (containsLong H filter1 value && containsLong H filter2 value) := by
      rw [containsLong,contains,contains_long]
      cases containsLong H filter1 value with
      | false => rfl
      | true => exact (Bool.true_and _).symm
    rw [hc,Bool.and_eq_true]
  | _ => simp [getFilters]

variable (df : DynamicFilter Other)

/-- The bounds of the filter meet those of the statistics; without bounds some value between those of the
statistics is contained. -/
def Overlap (min max : Int) : Prop :=
  if hasMinMaxStats df then
    ∀ filter ∈ getFilters df, ∀ bounds ∈ minMax filter, bounds.1 ≤ max ∧ min ≤ bounds.2
  else ∃ value, containsLong H df value = true ∧
    (value = min ∨ value = max ∨ Int.bmod (min + 1) (2 ^ 64) ≤ value ∧ value < max)

theorem rangeMatch_iff (min max : Int) : rangeMatch H min max df = true ↔
      ∃ value, containsLong H df value = true ∧ Int.bmod (min + 1) (2 ^ 64) ≤ value ∧ value < max := by
  rw [rangeMatch,List.any_eq_true]
  constructor
  · rintro ⟨k,hk,hc⟩
    have hlt := List.mem_range.mp hk
    exact ⟨_,hc,by omega,by omega⟩
  · rintro ⟨value,hc,hle,hlt⟩
    refine ⟨(value - Int.bmod (min + 1) (2 ^ 64)).toNat,List.mem_range.mpr (by omega),?_⟩
    rwa [Int.toNat_of_nonneg (by omega),add_sub_cancel]

theorem overlaps_iff (min max : Int) : overlaps H df min max = true ↔ Overlap H df min max := by
  rw [overlaps,Overlap]
  split
  · simp [isRangeOverlaps,all_eq_true]
  · rw [Bool.or_eq_true,Bool.or_eq_true,rangeMatch_iff]
    constructor
    · rintro ((hm | hmx) | ⟨value,hc,hr⟩)
      · exact ⟨min,hm,.inl rfl⟩
      · exact ⟨max,hmx,.inr (.inl rfl)⟩
      · exact ⟨value,hc,.inr (.inr hr)⟩
    · rintro ⟨value,hc,rfl | rfl | hr⟩
      · exact .inl (.inl hc)
      · exact .inl (.inr hc)
      · exact .inr ⟨value,hc,hr⟩

/-- Without bounds of the statistics the flag is kept; with them some filter has to overlap. -/
theorem columnOverlaps_eq_false (stats : Option (Int × Int)) (filterResult : Bool) (dfs : List (DynamicFilter Other)) :
    columnOverlaps H stats filterResult dfs = false ↔
      (filterResult = false ∨ ∃ bounds, stats = some bounds ∧ dfs ≠ []) ∧
        ∀ bounds ∈ stats, ∀ f ∈ dfs, ¬ Overlap H f bounds.1 bounds.2 := by
  induction dfs generalizing filterResult with
  | nil => simp [columnOverlaps]
  | cons f fs ih =>
    cases stats with
    | none =>
      rw [columnOverlaps]
      simpa using ih filterResult
    | some bounds =>
      obtain ⟨min,max⟩ := bounds
      rw [columnOverlaps]
      split
      · rename_i ho
        have hov := (overlaps_iff H f min max).mp ho
        simp [hov]
      · rename_i ho
        rw [overlaps_iff] at ho
        rw [ih]
        simp [ho]

/-- The rows of a section with statistics that bound the values of each column. -/
structure Section (Column Other : Type) where
  rows : List (Row Column Other)
  statistics : Column → Option ColumnStatistics
  bounded : ∀ column s, statistics column = some s → ∀ integer ∈ s.integerStatistics, ∀ row ∈ rows, ∀ value ∈ row column,
    ∃ n, value = .long n ∧ (∀ a ∈ integer.min, a ≤ n) ∧ ∀ b ∈ integer.max, n ≤ b

variable (dfs : List (FilterMap Column Other))

def Accepts (row : Row Column Other) : Prop :=
  ∃ maps ∈ dfs, ∀ column filter, maps.lookup column = some filter →
    filter.contains H (row column) = .ok true

def NonNull (row : Row Column Other) : Prop :=
  ∀ maps ∈ dfs, ∀ column filter, maps.lookup column = some filter → row column ≠ none

variable (typeName : Column → String) (columns : List Column) (part : Section Column Other)

/-- The bounds of a column that count. -/
def basicStats (column : Column) : Option (Int × Int) := do
  getColumnBasicStats (typeName column) part.rows.length (← part.statistics column)

theorem matches_eq_false :
    «matches» H typeName (build columns dfs) part.rows.length part.statistics = false ↔
      ∃ column ∈ columns, colDynamicFilterList dfs column ≠ [] ∧ ∃ bounds, basicStats typeName part column = some bounds ∧
        ∀ f ∈ colDynamicFilterList dfs column, ¬ Overlap H f bounds.1 bounds.2 := by
  rw [«matches»,List.all_eq_false]
  constructor
  · rintro ⟨entry,he,hf⟩
    obtain ⟨he,hne⟩ := List.mem_filter.mp he
    obtain ⟨column,hc,rfl⟩ := List.mem_map.mp he
    split at hf
    · exact absurd rfl hf
    · rename_i columnStatistics hs
      have hbs : basicStats typeName part column =
          getColumnBasicStats (typeName column) part.rows.length columnStatistics := by rw [basicStats,hs]; rfl
      rw [Bool.not_eq_true] at hf
      rcases (columnOverlaps_eq_false H _ _ _).mp hf with ⟨hfl | ⟨bounds,hb,hne⟩,hn⟩
      · cases hfl
      · exact ⟨column,hc,hne,bounds,hbs.trans hb,hn bounds hb⟩
  · rintro ⟨column,hc,hne,bounds,hbs,hn⟩
    refine ⟨_,List.mem_filter.mpr ⟨List.mem_map_of_mem hc,by simpa using hne⟩,?_⟩
    obtain ⟨columnStatistics,hs,hb⟩ := bind_eq_some_iff.mp hbs
    rw [hs,Bool.not_eq_true]
    refine (columnOverlaps_eq_false H _ _ _).mpr ⟨.inr ⟨bounds,hb,hne⟩,fun other ho => ?_⟩
    obtain rfl := some.inj (hb.symm.trans ho)
    exact hn

section
variable (statistics : Column → Option ColumnStatistics)

/-- The bounds of a column in a section that has rows. -/
def statisticsBounds (column : Column) : Option (Int × Int) := do
  getColumnBasicStats (typeName column) 1 (← statistics column)

/-- A value that the statistics of the column allow. -/
def InBounds (column : Column) (value : NativeValue Other) : Prop :=
  ∀ s, statistics column = some s → ∀ integer ∈ s.integerStatistics,
    ∃ n, value = .long n ∧ (∀ a ∈ integer.min, a ≤ n) ∧ ∀ b ∈ integer.max, n ≤ b

/-- Each filter of the map contains a value that the statistics allow. -/
def InReach (maps : FilterMap Column Other) : Prop :=
  ∀ column filter, maps.lookup column = some filter →
    ∃ value, InBounds statistics column value ∧ filter.contains H (some value) = .ok true

/-- The map has no filter on the column, or one that does not overlap. -/
def Misses (maps : FilterMap Column Other) (column : Column) (bounds : Int × Int) : Prop :=
  ∀ filter, maps.lookup column = some filter → ¬ Overlap H filter bounds.1 bounds.2

omit [DecidableEq Column] [DecidableEq Other] in
theorem exists_inBounds (column : Column) : ∃ value : NativeValue Other, InBounds statistics column value := by
  cases hs : statistics column with
  | none => exact ⟨.long 0,by simp [InBounds,hs]⟩
  | some s =>
    cases hi : s.integerStatistics with
    | none => exact ⟨.long 0,by simp [InBounds,hs,hi]⟩
    | some integer =>
      refine ⟨.long (integer.min.getD (integer.max.getD 0)),fun t ht other ho => ⟨_,rfl,?_⟩⟩
      obtain rfl := some.inj (hs.symm.trans ht)
      obtain rfl := some.inj (hi.symm.trans ho)
      have hle := integer.ordered
      cases hm : integer.min <;> cases hx : integer.max <;> simp [hm,hx] at hle ⊢
      exact hle

/-- A map in reach accepts some row of some section with the statistics. -/
theorem exists_section {maps : FilterMap Column Other} (hm : maps ∈ dfs)
    (hr : InReach H statistics maps) : ∃ part : Section Column Other, part.statistics = statistics ∧
      ∃ row ∈ part.rows, NonNull dfs row ∧ Accepts H dfs row := by
  have hv : ∀ column, ∃ value, InBounds statistics column value ∧
      ∀ filter, maps.lookup column = some filter → filter.contains H (some value) = .ok true := by
    intro column
    cases hl : maps.lookup column with
    | none => exact (exists_inBounds statistics column).imp fun _ hb => ⟨hb,fun _ hf => by cases hf⟩
    | some filter =>
      refine (hr column filter hl).imp fun _ h => ⟨h.1,fun other ho => ?_⟩
      obtain rfl := some.inj ho
      exact h.2
  choose value hb hc using hv
  refine ⟨⟨[fun column => some (value column)],statistics,fun column s hs integer hi row hr v hv => ?_⟩,rfl,_,
    List.mem_cons_self,fun _ _ _ _ _ => some_ne_none _,maps,hm,fun column filter hl => hc column filter hl⟩
  obtain rfl := List.mem_singleton.mp hr
  obtain rfl := some.inj hv
  exact hb column s hs integer hi

/-- No section with the statistics that has an accepted row without NULL is left out, exactly if on each column
with bounds that a map in reach misses, some other map has a filter that overlaps or none has a filter. -/
theorem matches_sound_iff :
    (∀ part : Section Column Other, part.statistics = statistics →
      «matches» H typeName (build columns dfs) part.rows.length part.statistics = false →
      ∀ row ∈ part.rows, NonNull dfs row → ¬ Accepts H dfs row) ↔
    ∀ maps ∈ dfs, InReach H statistics maps → ∀ column ∈ columns,
      ∀ bounds ∈ statisticsBounds typeName statistics column, Misses H maps column bounds →
        ∀ other ∈ dfs, other.lookup column ≠ none →
          ∃ third ∈ dfs, ¬ Misses H third column bounds := by
  have hbs : ∀ (part : Section Column Other) (row : Row Column Other), row ∈ part.rows → part.statistics = statistics →
      ∀ column, basicStats typeName part column = statisticsBounds typeName statistics column := by
    rintro part row hr rfl column
    have hn : part.rows.length ≠ 0 := fun h => by simp [List.length_eq_zero_iff.mp h] at hr
    simp only [basicStats,statisticsBounds,getColumnBasicStats,if_neg hn,if_neg Nat.one_ne_zero]
  have hmem : ∀ (column : Column) f, f ∈ colDynamicFilterList dfs column ↔
      ∃ maps ∈ dfs, maps.lookup column = some f := fun _ _ => List.mem_filterMap
  constructor
  · intro h maps hm hr column hc bounds hb _ other ho hl
    obtain ⟨part,hs,row,hrow,hn,ha⟩ := exists_section H dfs statistics hm hr
    by_contra hx
    refine h part hs ((matches_eq_false H dfs typeName columns part).mpr ⟨column,hc,?_,bounds,?_,?_⟩) row hrow hn ha
    · obtain ⟨f,hf⟩ := ne_none_iff_exists'.mp hl
      exact List.ne_nil_of_mem ((hmem column f).mpr ⟨other,ho,hf⟩)
    · rw [hbs part row hrow hs]
      exact hb
    · intro f hf hov
      obtain ⟨third,ht,hf⟩ := (hmem column f).mp hf
      exact hx ⟨third,ht,fun hms => hms f hf hov⟩
  · rintro h part rfl hf row hrow hn ⟨maps,hm,ha⟩
    obtain ⟨column,hc,hne,bounds,hb,hno⟩ := (matches_eq_false H dfs typeName columns part).mp hf
    have hno : ∀ third ∈ dfs, Misses H third column bounds :=
      fun third ht f hf => hno f ((hmem column f).mpr ⟨third,ht,hf⟩)
    obtain ⟨f,hf⟩ := List.exists_mem_of_ne_nil _ hne
    obtain ⟨other,ho,hl⟩ := (hmem column f).mp hf
    obtain ⟨third,ht,hms⟩ := h maps hm (fun c g hg => by
      obtain ⟨value,hv⟩ := ne_none_iff_exists'.mp (hn maps hm c g hg)
      exact ⟨value,fun s hs integer hi => part.bounded c s hs integer hi row hrow value hv,hv ▸ ha c g hg⟩)
      column hc bounds (hbs part row hrow rfl column ▸ hb) (hno maps hm) other ho (by simp [hl])
    exact hms (hno third ht)

end

/-- A filter with bounds contains no `Long` outside of them. -/
def Tight : Prop :=
  ∀ filter ∈ getFilters df, ∀ bounds ∈ minMax filter, ∀ n, containsLong H filter n = true → bounds.1 ≤ n ∧ n ≤ bounds.2

omit [DecidableEq Column] [DecidableEq Other] in
theorem mem_longs {valueSet : Finset (NativeValue Other)} {n : Int} (h : .long n ∈ valueSet) : n ∈ longs valueSet :=
  mem_eraseNone.mpr (mem_image.mpr ⟨_,h,rfl⟩)

omit [DecidableEq Column] in
/-- The bounds that a hash set computes for itself are those of its values. -/
theorem tight_setMinMax (filterId : String) (valueSet : Finset (NativeValue Other)) :
    Tight H (setMinMax (.hashSet filterId valueSet none none)) := by
  rw [setMinMax]
  split
  · intro filter hf bounds hb n hc
    obtain rfl := List.mem_singleton.mp hf
    have hn : n ∈ longs valueSet := mem_longs (by simpa [containsLong,contains] using hc)
    obtain ⟨min,hm,hr⟩ := bind_eq_some_iff.mp hb
    obtain ⟨max,hmx,hp⟩ := bind_eq_some_iff.mp hr
    cases hp
    exact ⟨min_le_of_eq hn hm,le_max_of_eq hn hmx⟩
  · intro filter hf bounds hb
    obtain rfl := List.mem_singleton.mp hf
    cases hb

omit [DecidableEq Column] in
theorem overlap_of_contains {df : DynamicFilter Other} (ht : Tight H df) {min max n : Int}
    (hm : IsLong min) (hmx : IsLong max) (hle : min ≤ n) (hge : n ≤ max) (hc : containsLong H df n = true) :
    Overlap H df min max := by
  rw [Overlap]
  split
  · intro filter hf bounds hb
    have hn := ht filter hf bounds hb n ((containsLong_iff H df n).mp hc filter hf)
    exact ⟨hn.1.trans hge,hle.trans hn.2⟩
  · refine ⟨n,hc,?_⟩
    rcases eq_or_lt_of_le hle with rfl | hlt
    · exact .inl rfl
    · rcases eq_or_lt_of_le hge with rfl | hgt
      · exact .inr (.inl rfl)
      · have hw : Int.bmod (min + 1) (2 ^ 64) = min + 1 := by
          have hb := And.intro hm hmx
          simp only [IsLong] at hb
          exact Int.bmod_eq_of_le (by omega) (by omega)
        exact .inr (.inr ⟨by omega,hgt⟩)

omit [DecidableEq Column] [DecidableEq Other] in
theorem basicStats_eq_some {column : Column} {bounds : Int × Int} (h : basicStats typeName part column = some bounds) :
    ∃ s integer, part.statistics column = some s ∧ s.integerStatistics = some integer ∧ integer.min = some bounds.1 ∧
      integer.max = some bounds.2 := by
  obtain ⟨s,hs,h⟩ := bind_eq_some_iff.mp h
  rw [getColumnBasicStats] at h
  split at h
  · cases h
  · split at h
    · cases h
    · split at h
      · obtain ⟨integer,hi,h⟩ := bind_eq_some_iff.mp h
        obtain ⟨min,hm,h⟩ := bind_eq_some_iff.mp h
        obtain ⟨max,hmx,h⟩ := bind_eq_some_iff.mp h
        cases h
        exact ⟨s,integer,hs,hi,hm,hmx⟩
      · cases h

/-- If every map has a filter for each column with filters and bounds, and no filter contains a `Long` outside
of its own bounds, then no accepted row is left out. -/
theorem matches_sound_of_tight
    (ht : ∀ maps ∈ dfs, ∀ column filter, maps.lookup column = some filter → Tight H filter)
    (hal : ∀ column ∈ columns, colDynamicFilterList dfs column ≠ [] → basicStats typeName part column ≠ none →
      ∀ maps ∈ dfs, maps.lookup column ≠ none)
    (hmt : «matches» H typeName (build columns dfs) part.rows.length part.statistics = false) :
    ∀ row ∈ part.rows, NonNull dfs row → ¬ Accepts H dfs row := by
  obtain ⟨column,hcl,hne,bounds,hb,hno⟩ := (matches_eq_false H dfs typeName columns part).mp hmt
  rintro row hr hn ⟨maps,hm,ha⟩
  obtain ⟨filter,hf⟩ := ne_none_iff_exists'.mp (hal column hcl hne (by simp [hb]) maps hm)
  obtain ⟨value,hv⟩ := ne_none_iff_exists'.mp (hn maps hm column filter hf)
  obtain ⟨s,integer,hs,hi,hmn,hmx⟩ := basicStats_eq_some typeName part hb
  obtain ⟨n,rfl,hle,hge⟩ := part.bounded column s hs integer hi row hr value hv
  have hc : containsLong H filter n = true := by
    have hok := ha column filter hf
    rw [hv,contains_long] at hok
    exact Except.ok.inj hok
  refine hno filter (List.mem_filterMap.mpr ⟨maps,hm,hf⟩) ?_
  exact overlap_of_contains H (ht maps hm column filter hf) (integer.minLong _ hmn) (integer.maxLong _ hmx)
    (hle _ hmn) (hge _ hmx) hc

namespace OtherColumn

def hash : BloomHash := ⟨fun _ => 0,fun _ => 0⟩

def exactly (hlong : IsLong value) : ColumnStatistics :=
  ⟨some 1,some ⟨some value,some value,by simpa using hlong,by simpa using hlong,by simp⟩⟩

def row : Row Bool Empty := fun column => some (.long (if column then 5 else 2))

/-- A single row with `a = 5` and `b = 2`; `a` is the column `true`. -/
def rowGroup : Section Bool Empty where
  rows := [row]
  statistics column := some (if column then exactly 5 (by simp [IsLong]) else exactly 2 (by simp [IsLong]))
  bounded := by
    rintro column s ⟨⟩ integer hinteger other hother value hvalue
    obtain rfl := List.mem_singleton.mp hother
    obtain rfl := some.inj hvalue
    cases column with
    | true =>
      cases hinteger
      exact ⟨5,rfl,by simp,by simp⟩
    | false =>
      cases hinteger
      exact ⟨2,rfl,by simp,by simp⟩

def oneOf (column : Bool) (value : Int) : FilterMap Bool Empty :=
  AList.singleton column (hashSet "f" {.long value} none none)

def filters : List (FilterMap Bool Empty) := [oneOf true 1,oneOf false 2]

/-- The bounds of `a` exclude the filter of the first map, and the row that the second accepts is lost. -/
theorem matches_loses :
    «matches» hash (fun _ => "bigint") (build [true,false] filters) rowGroup.rows.length rowGroup.statistics = false ∧
      ∃ row ∈ rowGroup.rows, NonNull filters row ∧ Accepts hash filters row := by
  constructor
  · rfl
  · refine ⟨row,List.mem_cons_self,fun _ _ column _ _ => some_ne_none _,oneOf false 2,by simp [filters],?_⟩
    intro column filter hl
    cases column with
    | true => cases hl
    | false =>
      cases hl
      rfl

def oneOrTwo : DynamicFilter Empty := setMinMax (.hashSet "f" {.long 1,.long 2} none none)

/-- The section has a single row, with 5, and is left out. -/
theorem matches_sound_of_tight_five : ¬ Accepts hash [AList.singleton true oneOrTwo] row := by
  refine matches_sound_of_tight hash _ (fun _ => "bigint") [true] rowGroup ?_ (by simp [AList.lookup]) (by decide) row List.mem_cons_self ?_
  · intro maps hm column filter hl
    obtain rfl := List.mem_singleton.mp hm
    cases column <;> cases hl
    exact tight_setMinMax hash _ _
  · exact fun _ _ _ _ _ => some_ne_none _

end OtherColumn
end HetuCore.DynamicFiltering.OrcPredicate
