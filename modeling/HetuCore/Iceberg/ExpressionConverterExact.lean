import HetuCore.Iceberg.ExpressionConverter

namespace HetuCore.Iceberg
open Predicate SortedRangeSet Marker List Function

section
variable {t : IntegralType}

variable {r : Range t.Value}

private theorem endValues_le {a b : t.Value} (ha : r.low.valueBlock = some a) (hb : r.high.valueBlock = some b) :
    a ≤ b :=
  value_le ha hb r.low_le_high

theorem reaches_low {a : t.Value} (ha : r.low.valueBlock = some a) : Reaches r a.1 := by
  constructor
  · intro x hx
    obtain rfl := Option.some.inj (ha.symm.trans hx)
    exact le_rfl
  · intro b hb
    exact endValues_le ha hb

theorem reaches_high {b : t.Value} (hb : r.high.valueBlock = some b) : Reaches r b.1 := by
  constructor
  · intro a ha
    exact endValues_le ha hb
  · intro x hx
    obtain rfl := Option.some.inj (hb.symm.trans hx)
    exact le_rfl

theorem includes_iff_reaches (h : ¬ HasExclusiveEnd r) (v : t.Value) :
    r.includes (.exactly v) = true ↔ Reaches r v.1 := by
  simp only [HasExclusiveEnd,not_or] at h
  rw [Range.includes_iff]
  refine and_congr ?_ ?_
  · obtain hl | ⟨a,hl | hl⟩ := r.low_shape
    · rw [hl]
      refine iff_of_true (lowerUnbounded_le _) fun a ha => ?_
      cases ha
    · rw [hl,exactly_le_exactly]
      simp [exactly]
    · rw [hl] at h
      cases h.1 (by simp [above])
  · obtain hh | ⟨b,hh | hh⟩ := r.high_shape
    · rw [hh]
      refine iff_of_true (le_upperUnbounded _) fun b hb => ?_
      cases hb
    · rw [hh,exactly_le_exactly]
      simp [exactly]
    · rw [hh] at h
      cases h.2 (by simp [below])

/-- The value at an exclusive end is reached and belongs to no range of the set. -/
theorem exists_excluded {x : SortedRangeSet t.Value} (hr : r ∈ x.getOrderedRanges) (h : HasExclusiveEnd r) :
    ∃ v, Reaches r v.1 ∧ x.containsValue v = false := by
  have hm : r.ends ∈ x.getOrderedRanges.map Range.ends := mem_map_of_mem hr
  have ho : ∀ v, ¬ Foundation.Covers (x.getOrderedRanges.map Range.ends) (.exactly v) → x.containsValue v = false := by
    intro v hv
    apply Bool.eq_false_of_not_eq_true
    rw [containsValue,includesMarker_iff,contains_iff_covers]
    exact hv
  obtain ⟨hb,he⟩ | ⟨hb,he⟩ := h
  · obtain hl | ⟨a,hl | hl⟩ := r.low_shape
    · rw [hl] at hb
      exact absurd rfl hb
    · rw [hl] at he
      exact absurd rfl he
    · refine ⟨a,reaches_low (congrArg valueBlock hl),ho a ?_⟩
      apply x.separated.not_covers_of_covBy_low hm
      rw [Range.ends_fst,hl]
      exact some_covBy rfl
  · obtain hh | ⟨b,hh | hh⟩ := r.high_shape
    · rw [hh] at hb
      exact absurd rfl hb
    · rw [hh] at he
      exact absurd rfl he
    · refine ⟨b,reaches_high (congrArg valueBlock hh),ho b ?_⟩
      apply x.separated.not_covers_of_covBy_high hm
      rw [Range.ends_snd,hh]
      exact some_covBy rfl

theorem exists_accepts {d : Domain (.orderable t.Value)} (h : d.isNone = false) :
    ∃ x : Option t.Value, Accepts d (x.map Subtype.val) := by
  rw [Domain.isNone,Bool.and_eq_false_iff,Bool.not_eq_false'] at h
  obtain hv | hn := h
  · have hne : getOrderedRanges d.values ≠ [] := by
      intro hnl
      have hi : isNone d.values = true := by
        rw [isNone,index_eq,hnl]
        rfl
      cases hi.symm.trans hv
    obtain ⟨r,hr⟩ := exists_mem_of_ne_nil _ hne
    cases ha : r.low.valueBlock with
    | some a => exact ⟨some a,r,hr,reaches_low ha⟩
    | none =>
      cases hb : r.high.valueBlock with
      | some b => exact ⟨some b,r,hr,reaches_high hb⟩
      | none =>
        have hz : -2 ^ (t.bits - 1) ≤ (0 : Int) ∧ (0 : Int) < 2 ^ (t.bits - 1) := by
          cases t <;> decide
        exact ⟨some ⟨0,hz⟩,r,hr,by simp [ha],by simp [hb]⟩
  · exact ⟨none,hn⟩

end

variable {T : Type} {s : Schema T}

theorem fields_eq_value (row : Row s) (c : T) : row.fields (s.qualifiedName c) = (row.value c).map Subtype.val := by
  unfold Row.value
  rw [Option.map_pmap]
  simp

/-- A row with any chosen value in every column exists because names are unambiguous. -/
theorem exists_row (x : (c : T) → Option (s.type c).Value) : ∃ row : Row s, ∀ c, row.value c = x c := by
  classical
  let fields : String → Option Int := fun n =>
    if h : ∃ c, s.qualifiedName c = n then (x h.choose).map Subtype.val else none
  have hf : ∀ c, fields (s.qualifiedName c) = (x c).map Subtype.val := by
    intro c
    have hex : ∃ k, s.qualifiedName k = s.qualifiedName c := ⟨c,rfl⟩
    have hc : hex.choose = c := s.unambiguous hex.choose_spec
    simp only [fields,dif_pos hex]
    rw [hc]
  refine ⟨⟨fields,fun c v hv => ?_⟩,fun c => ?_⟩
  · rw [hf,Option.mem_def,Option.map_eq_some_iff] at hv
    obtain ⟨w,_,rfl⟩ := hv
    exact w.2
  · exact Option.map_injective Subtype.val_injective ((fields_eq_value _ c).symm.trans (hf c))

/-- The expression accepts every row of the tuple domain, so that no file with such a row is left out. -/
theorem toIcebergExpression_keeps (a : TupleDomain s.columnType) : ∃ e, toIcebergExpression a = .ok e ∧
    ∀ row : Row s, a.includesRow row.value = true → e.satisfied row.fields = true := by
  obtain ⟨e,he,hs⟩ := toIcebergExpression_spec a
  refine ⟨e,he,fun row hr => (hs row.fields).mpr ?_⟩
  rw [TupleDomain.includesRow] at hr
  cases ha : a.domains with
  | none => simp [ha] at hr
  | some m =>
    rw [ha] at hr
    refine ⟨m,rfl,fun entry hen => ?_⟩
    have hd := all_eq_true.mp hr entry hen
    rw [fields_eq_value]
    cases hv : row.value entry.1 with
    | none => rwa [hv] at hd
    | some v =>
      rw [hv] at hd
      obtain ⟨r,hm,hi⟩ := (includesMarker_iff _ _).mp hd
      obtain ⟨hl,hh⟩ := (Range.includes_iff _ _).mp hi
      exact ⟨r,hm,fun a h => show a ≤ v from value_le h rfl hl,fun b h => show v ≤ b from value_le rfl h hh⟩

variable [DecidableEq T]

/-- The conversion of a tuple domain always succeeds; its expression accepts exactly
the rows of the tuple domain precisely when no stored range has an exclusive end. -/
theorem toIcebergExpression_exact_iff (a : TupleDomain s.columnType) : ∃ e, toIcebergExpression a = .ok e ∧
      ((∀ row : Row s, e.satisfied row.fields = true ↔ a.includesRow row.value = true) ↔
        ∀ m ∈ a.domains, ∀ entry ∈ m.entries, ∀ r ∈ getOrderedRanges entry.2.values, ¬ HasExclusiveEnd r) := by
  obtain ⟨e,he,hs⟩ := toIcebergExpression_spec a
  refine ⟨e,he,?_⟩
  simp only [hs]
  constructor
  · intro hex m hm entry hen r hr hec
    obtain ⟨v,hv,ho⟩ := exists_excluded hr hec
    have hco : ∀ c, ∃ x : Option (s.type c).Value, ∀ d ∈ m.lookup c, Accepts d (x.map Subtype.val) := by
      intro c
      cases hc : m.lookup c with
      | none => exact ⟨none,by simp⟩
      | some d =>
        obtain ⟨x,hx⟩ := exists_accepts (a.normalized m hm ⟨c,d⟩ (AList.mem_lookup_iff.mp hc)).1
        exact ⟨x,by simpa using hx⟩
    choose x hx using hco
    obtain ⟨row,hrw⟩ := exists_row (update x entry.1 (some v))
    have hin := (hex row).mp ⟨m,hm,fun k hk => ?_⟩
    · rw [TupleDomain.includesRow,show a.domains = some m from hm,all_eq_true] at hin
      have hb := hin entry hen
      rw [hrw,update_self] at hb
      exact absurd hb (by rw [Domain.includesNullableValue]; exact ne_true_of_eq_false ho)
    · rw [fields_eq_value,hrw]
      by_cases hke : k.1 = entry.1
      · have hkd : k = entry := List.NodupKeys.eq_of_fst_eq m.nodupKeys hk hen hke
        rw [hkd,update_self]
        exact ⟨r,hr,hv⟩
      · rw [update_of_ne hke]
        exact hx k.1 k.2 (AList.mem_lookup_iff.mpr hk)
  · intro hcl row
    rw [TupleDomain.includesRow]
    cases ha : a.domains with
    | none => simp
    | some m =>
      simp only [Option.mem_def,Option.some.injEq,exists_eq_left',all_eq_true]
      refine forall₂_congr fun entry hen => ?_
      rw [fields_eq_value]
      cases row.value entry.1 with
      | none => exact .rfl
      | some v =>
        refine .trans ?_ (includesMarker_iff _ _).symm
        refine exists_congr fun r => and_congr_right fun hr => ?_
        exact (includes_iff_reaches (hcl m ha entry hen r hr) v).symm

def oneColumn : Schema Unit := ⟨fun _ => .integer,fun _ => "x",fun _ _ _ => rfl⟩

def fiveRow : Row oneColumn := ⟨fun _ => some 5,by rintro ⟨⟩ v ⟨⟩; decide⟩

/-- The filter for `x > 5` is `x >= 5` and keeps the row with five. -/
theorem greaterThan_five_accepts_five :
    ∃ r x, Range.greaterThan (⟨5,by decide⟩ : IntegralType.integer.Value) = .ok r ∧ copyOf [r] = .ok x ∧
      ∃ e, toIcebergExpression (TupleDomain.withColumnDomains (AList.singleton () ⟨x,false⟩) :
          TupleDomain oneColumn.columnType) = .ok e ∧ e.satisfied fiveRow.fields = true ∧
        (TupleDomain.withColumnDomains (AList.singleton () ⟨x,false⟩) :
          TupleDomain oneColumn.columnType).includesRow fiveRow.value = false := by
  refine ⟨_,_,rfl,rfl,_,rfl,?_,?_⟩
  · change Expression.satisfied fiveRow.fields (.and .alwaysTrue (.or .alwaysFalse (.or .alwaysFalse
      (.orList [.and (.greaterThanOrEqual "x" 5) .alwaysTrue])))) = true
    rw [Expression.orList]
    decide
  · decide

end HetuCore.Iceberg
