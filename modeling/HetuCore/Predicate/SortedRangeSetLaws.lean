import HetuCore.Predicate.SortedRangeSet

namespace HetuCore.Predicate
open Foundation Marker Range Builder List
variable {α : Type} [LinearOrder α]

/-- The builder succeeds on every list and keeps exactly the union of its ranges. -/
theorem Builder.build_spec (ranges : List (Range α)) : ∃ s : SortedRangeSet α, build ranges = .ok s ∧
      ∀ m, s.Contains m ↔ ∃ r ∈ ranges, r.includes m = true := by
  obtain ⟨out,ho,hs,hc⟩ := buildLoop_spec ranges
  refine ⟨⟨out.map entry,buildLoop_canonical ho⟩,?_,fun m => ?_⟩
  · unfold build
    split
    · rename_i index h
      obtain rfl := Except.ok.inj (h.symm.trans ho)
      rfl
    · rename_i message h
      cases h.symm.trans ho
  · have hv : (LowIndex.values (out.map entry)) = out := by
      simp [LowIndex.values,entry,Function.comp_def]
    rw [SortedRangeSet.contains_iff_covers,SortedRangeSet.getOrderedRanges,hv,hc]
    simp only [Covers,mem_map,exists_exists_and_eq_and,includes_iff,ends_fst,ends_snd]

namespace SortedRangeSet

private theorem addIntersection_spec (r1 r2 : Range α) : ∃ out, addIntersection r1 r2 = .ok out ∧
      out.map ends = if r1.low ≤ r2.high ∧ r2.low ≤ r1.high then [meet r1.ends r2.ends] else [] := by
  by_cases h : r1.overlaps r2 = true
  · obtain ⟨r,hr,hl,hh⟩ := intersect_eq_ok h
    refine ⟨[r],by rw [addIntersection,if_pos h,hr]; rfl,?_⟩
    rw [if_pos ((overlaps_iff _ _).mp h)]
    exact congrArg (fun e => [e]) (Prod.ext hl hh)
  · refine ⟨[],by rw [addIntersection,if_neg h]; rfl,?_⟩
    rw [if_neg (fun ho => h ((overlaps_iff _ _).mpr ho)),map_nil]

variable (l1 l2 : List (Range α)) (s o : SortedRangeSet α)

/-- The intersection loop never throws and visits the pairs of the two-cursor pass. -/
theorem intersectLoop_meets : ∃ out, intersectLoop l1 l2 = .ok out ∧
      out.map ends = meets (l1.map ends) (l2.map ends) := by
  induction l1, l2 using intersectLoop.induct with
  | case1 l2 | case2 r1 rest1 => exact ⟨[],by rw [intersectLoop],by simp [meets]⟩
  | case3 r1 rest1 r2 rest2 ih1 ih2 =>
    obtain ⟨out1,ho1,he1⟩ := ih1
    obtain ⟨out2,ho2,he2⟩ := ih2
    obtain ⟨added,ha,he⟩ := addIntersection_spec r1 r2
    rw [intersectLoop,map_cons,map_cons,meets,ha,ho1,ho2]
    rw [compareTo_isLE]
    by_cases hle : r1.high ≤ r2.high
    · refine ⟨added ++ out1,?_,?_⟩
      · simp only [hle]
        rfl
      · rw [map_append,he,he1]
        exact congrArg _ (if_pos hle).symm
    · refine ⟨added ++ out2,?_,?_⟩
      · simp only [hle]
        rfl
      · rw [map_append,he,he2]
        exact congrArg _ (if_neg hle).symm

theorem intersect_spec : ∃ x, s.intersect o = .ok x ∧ ∀ m, x.Contains m ↔ s.Contains m ∧ o.Contains m := by
  obtain ⟨out,ho,he⟩ := intersectLoop_meets s.getOrderedRanges o.getOrderedRanges
  obtain ⟨x,hx,hc⟩ := build_spec out
  refine ⟨x,by rw [intersect,ho]; exact hx,fun m => ?_⟩
  have hcv : (∃ r ∈ out, r.includes m = true) ↔ Covers (out.map ends) m := by
    simp only [Covers,mem_map,exists_exists_and_eq_and,includes_iff,ends_fst,ends_snd]
  rw [hc,hcv,he,meets_covers s.separated o.separated,contains_iff_covers,contains_iff_covers]

private theorem overlapsLoop_iff : overlapsLoop l1 l2 = true ↔ meets (l1.map ends) (l2.map ends) ≠ [] := by
  induction l1, l2 using overlapsLoop.induct with
  | case1 l2 | case2 r1 rest1 => simp [overlapsLoop,meets]
  | case3 r1 rest1 r2 rest2 h =>
    have hm := (overlaps_iff r1 r2).mp h
    simp [overlapsLoop,meets,hm.1,hm.2]
  | case4 r1 rest1 r2 rest2 h hle ih =>
    have hm : ¬ (r1.ends.1 ≤ r2.ends.2 ∧ r2.ends.1 ≤ r1.ends.2) := fun ho =>
      h ((overlaps_iff r1 r2).mpr ho)
    rw [overlapsLoop,if_neg h,if_pos hle,ih,map_cons,map_cons,meets,if_neg hm]
    rw [compareTo_isLE,decide_eq_true_eq] at hle
    rw [if_pos (show r1.ends.2 ≤ r2.ends.2 from hle),nil_append]
  | case5 r1 rest1 r2 rest2 h hle ih =>
    have hm : ¬ (r1.ends.1 ≤ r2.ends.2 ∧ r2.ends.1 ≤ r1.ends.2) := fun ho =>
      h ((overlaps_iff r1 r2).mpr ho)
    rw [overlapsLoop,if_neg h,if_neg hle,ih,map_cons,map_cons,meets,if_neg hm]
    rw [compareTo_isLE,decide_eq_true_eq] at hle
    rw [if_neg (show ¬ r1.ends.2 ≤ r2.ends.2 from hle),nil_append]

theorem overlaps_iff : s.overlaps o = true ↔ ∃ m, s.Contains m ∧ o.Contains m := by
  obtain ⟨out,_,he⟩ := intersectLoop_meets s.getOrderedRanges o.getOrderedRanges
  have hc := fun m => meets_covers s.separated o.separated m
  rw [overlaps,overlapsLoop_iff]
  simp only [contains_iff_covers,← hc,← he]
  constructor
  · intro hne
    obtain ⟨r,hr⟩ := exists_mem_of_ne_nil _ hne
    obtain ⟨q,_,rfl⟩ := mem_map.mp hr
    exact ⟨q.low,q.ends,hr,le_rfl,q.low_le_high⟩
  · rintro ⟨m,r,hr,_⟩
    exact ne_nil_of_mem hr

theorem union_spec : ∃ x, s.union o = .ok x ∧ ∀ m, x.Contains m ↔ s.Contains m ∨ o.Contains m := by
  obtain ⟨x,hx,hc⟩ := build_spec (s.getOrderedRanges ++ o.getOrderedRanges)
  refine ⟨x,hx,fun m => ?_⟩
  rw [hc]
  simp only [mem_append,or_and_right,exists_or,Contains]

theorem unionAll_spec (s : SortedRangeSet α) (valueSets : List (SortedRangeSet α)) :
    ∃ x, s.unionAll valueSets = .ok x ∧ ∀ m, x.Contains m ↔ s.Contains m ∨ ∃ o ∈ valueSets, o.Contains m := by
  obtain ⟨x,hx,hc⟩ := build_spec (s.getOrderedRanges ++ valueSets.flatMap getOrderedRanges)
  refine ⟨x,hx,fun m => ?_⟩
  rw [hc]
  simp only [mem_append,or_and_right,exists_or,mem_flatMap]
  refine or_congr .rfl ⟨?_,?_⟩
  · rintro ⟨r,⟨o,ho,hr⟩,hm⟩
    exact ⟨o,ho,r,hr,hm⟩
  · rintro ⟨o,ho,r,hr,hm⟩
    exact ⟨r,⟨o,ho,hr⟩,hm⟩

private theorem between_covBy {b lo hi a m : Marker α} (hb : b ⋖ lo) (ha : hi ⋖ a) :
    (lo ≤ m ∧ m ≤ hi) ↔ b < m ∧ m < a :=
  ⟨fun h => ⟨hb.1.trans_le h.1,h.2.trans_lt ha.1⟩,fun h => ⟨hb.ge_of_gt h.1,ha.le_of_lt h.2⟩⟩

/-- After a range, the loop adds exactly the markers above it that no later range has. -/
theorem complementLoop_spec (previous : Range α) (rest : List (Range α))
    (hs : Separated ((previous :: rest).map ends)) : ∃ out, complementLoop previous rest = .ok out ∧
      ∀ m, (∃ r ∈ out, r.includes m = true) ↔ previous.high < m ∧ ¬ Covers (rest.map ends) m := by
  induction rest generalizing previous with
  | nil =>
    by_cases hu : previous.high.isUpperUnbounded = true
    · refine ⟨[],by rw [complementLoop,if_pos hu]; rfl,fun m => ?_⟩
      rw [(isUpperUnbounded_iff _).mp hu]
      simp [le_upperUnbounded]
    · have hne := fun h => hu ((isUpperUnbounded_iff _).mpr h)
      obtain ⟨low,hl,hcv,hlb⟩ := greaterAdjacent_spec previous.high_bound hne
      have hnw := new_eq_ok hlb (show (upperUnbounded : Marker α).bound ≠ .above from nofun) (le_upperUnbounded low)
      refine ⟨_,by rw [complementLoop,if_neg hu,hl]; exact congrArg (· >>= fun r => pure [r]) hnw,fun m => ?_⟩
      simp only [mem_singleton,exists_eq_left,includes_iff,le_upperUnbounded,and_true,
        map_nil,covers_nil,not_false_eq_true]
      exact ⟨hcv.1.trans_le,hcv.ge_of_gt⟩
  | cons current rest ih =>
    obtain ⟨x,hx,hx'⟩ := (pairwise_cons.mp hs.apart).1 current.ends mem_cons_self
    have hne : previous.high ≠ .upperUnbounded := fun h =>
      absurd hx (not_lt.mpr ((le_upperUnbounded x).trans h.ge))
    have hn' : current.low ≠ .lowerUnbounded := fun h =>
      absurd hx' (not_lt.mpr (h.le.trans (lowerUnbounded_le x)))
    obtain ⟨low,hl,hlc,hlb⟩ := greaterAdjacent_spec previous.high_bound hne
    obtain ⟨high,hhg,hh,hhb⟩ := lesserAdjacent_spec current.low_bound hn'
    have hnw := new_eq_ok hlb hhb ((hlc.ge_of_gt hx).trans (hh.le_of_lt hx'))
    obtain ⟨out,hot,hc⟩ := ih current hs.tail
    refine ⟨_ :: out,by rw [complementLoop,hl,hhg,hot]; exact congrArg (· >>= fun r => pure (r :: out)) hnw,
      fun m => ?_⟩
    have hg := @between_covBy _ _ _ _ _ _ m hlc hh
    have ht : Covers (rest.map ends) m → current.high < m := hs.tail.head_lt
    simp only [mem_cons,exists_eq_or_imp,hc]
    simp only [includes_iff,hg,map_cons,covers_cons,ends_fst,ends_snd,not_or,not_and,not_le]
    have ho := current.low_le_high
    have hpr : previous.high < current.low := hx.trans hx'
    constructor
    · rintro (⟨hp,hlt⟩ | ⟨hp,hn⟩)
      · exact ⟨hp,fun hle => absurd hlt (not_lt.mpr hle),fun hcv =>
          absurd (ht hcv) (not_lt.mpr (hlt.le.trans ho))⟩
      · exact ⟨hpr.trans (ho.trans_lt hp),fun _ => hp,hn⟩
    · rintro ⟨hp,hi,hn⟩
      rcases lt_or_ge m current.low with hlt | hge
      · exact .inl ⟨hp,hlt⟩
      · exact .inr ⟨hi hge,hn⟩

/-- Complement succeeds, whatever the bounds of the first and last range are. -/
theorem complement_spec (s : SortedRangeSet α) : ∃ x, s.complement = .ok x ∧ ∀ m, x.Contains m ↔ ¬ s.Contains m := by
  have hs := s.separated
  have hcs := s.contains_iff_covers
  unfold complement
  generalize s.getOrderedRanges = ranges at hs hcs
  cases ranges with
  | nil =>
    have ha := new_eq_ok (show (lowerUnbounded : Marker α).bound ≠ .below from nofun)
      (show (upperUnbounded : Marker α).bound ≠ .above from nofun) (lowerUnbounded_le _)
    obtain ⟨x,hx,hc⟩ := build_spec [(⟨_,_,_,_,compareTo_ne_gt.mpr (lowerUnbounded_le _)⟩ : Range α)]
    refine ⟨x,?_,fun m => ?_⟩
    · exact (congrArg (· >>= fun r => build [r]) ha).trans hx
    · rw [hc,hcs]
      simp [lowerUnbounded_le,le_upperUnbounded]
  | cons first rest =>
    obtain ⟨out,ho,hcl⟩ := complementLoop_spec first rest hs
    have hor := first.low_le_high
    have ht : ∀ m, Covers (rest.map ends) m → first.high < m := fun m => hs.head_lt
    by_cases hl : first.low.isLowerUnbounded = true
    · obtain ⟨x,hx,hc⟩ := build_spec ([] ++ out)
      refine ⟨x,?_,fun m => ?_⟩
      · simp only [hl,ho]
        exact hx
      · have hlw : first.low ≤ m := by
          rw [(isLowerUnbounded_iff _).mp hl]
          exact lowerUnbounded_le m
        rw [hc,nil_append,hcl,hcs]
        simp [hlw]
    · have hne := fun h => hl ((isLowerUnbounded_iff _).mpr h)
      obtain ⟨high,hh,hcv,hhb⟩ := lesserAdjacent_spec first.low_bound hne
      have hnw := new_eq_ok (show (lowerUnbounded : Marker α).bound ≠ .below from nofun) hhb (lowerUnbounded_le high)
      obtain ⟨x,hx,hc⟩ := build_spec
        ([(⟨.lowerUnbounded,high,nofun,hhb,compareTo_ne_gt.mpr (lowerUnbounded_le high)⟩ : Range α)] ++ out)
      refine ⟨x,?_,fun m => ?_⟩
      · simp only [hl,hh,ho]
        change ((new .lowerUnbounded high >>= fun r => pure [r]) >>= fun start =>
          build (start ++ out)) = _
        rw [hnw]
        exact hx
      · have hle : m ≤ high ↔ m < first.low := ⟨fun h => h.trans_lt hcv.1,hcv.le_of_lt⟩
        rw [hc,hcs,singleton_append]
        simp only [mem_cons,exists_eq_or_imp,hcl]
        simp only [includes_iff,lowerUnbounded_le,true_and,hle,map_cons,covers_cons,
          ends_fst,ends_snd,not_or,not_and,not_le]
        constructor
        · rintro (hlt | ⟨hp,hn⟩)
          · exact ⟨fun h => absurd hlt (not_lt.mpr h),fun h => absurd (ht m h) (not_lt.mpr (hlt.le.trans hor))⟩
          · exact ⟨fun _ => hp,hn⟩
        · rintro ⟨hi,hn⟩
          rcases lt_or_ge m first.low with hlt | hge
          · exact .inl hlt
          · exact .inr ⟨hi hge,hn⟩

theorem equals_iff : s.equals o = true ↔ ∀ m, s.Contains m ↔ o.Contains m := by
  rw [equals,decide_eq_true_eq]
  constructor
  · intro h m
    obtain rfl := SortedRangeSet.ext h
    rfl
  · intro h
    rw [ext_contains h]

/-- The single unbounded range is the only canonical form of the whole marker line. -/
theorem isAll_iff (s : SortedRangeSet α) : s.isAll = true ↔ ∀ m, s.Contains m := by
  constructor
  · intro h m
    unfold isAll at h
    split at h
    · rename_i r hr
      obtain ⟨hl,hh⟩ := (Range.isAll_iff r).mp h
      refine ⟨r,by simp [hr],(includes_iff r m).mpr ?_⟩
      rw [hl,hh]
      exact ⟨lowerUnbounded_le m,le_upperUnbounded m⟩
    · cases h
  · intro h
    have hs : Separated [((.lowerUnbounded : Marker α),(.upperUnbounded : Marker α))] :=
      ⟨by simp [le_upperUnbounded],pairwise_singleton _ _⟩
    have hen := s.separated.ext hs (fun m => by
      rw [← contains_iff_covers]
      simp [h m,lowerUnbounded_le,le_upperUnbounded])
    obtain ⟨r,hr,he⟩ := map_eq_singleton_iff.mp hen
    rw [isAll,hr]
    exact (Range.isAll_iff r).mpr (Prod.ext_iff.mp he)

/-- The builder yields a canonical index over the union of its input, and every
operation on built sets succeeds, is canonical again and is the set operation on
markers; equality is equality of the marker sets. -/
theorem build_and_operations : (∀ ranges : List (Range α), ∃ s : SortedRangeSet α, build ranges = .ok s ∧
      s.lowIndexedRanges.Canonical ∧
      ∀ m, (∃ r ∈ s.getOrderedRanges, r.includes m = true) ↔ ∃ r ∈ ranges, r.includes m = true) ∧
    ∀ x y : SortedRangeSet α, (∀ m, x.includesMarker m = true ↔ ∃ r ∈ x.getOrderedRanges, r.includes m = true) ∧
      (∃ z, x.intersect y = .ok z ∧ z.lowIndexedRanges.Canonical ∧
        (∀ m, z.includesMarker m = true ↔ x.includesMarker m = true ∧ y.includesMarker m = true) ∧
        (x.overlaps y = true ↔ z.isNone = false)) ∧ (∃ z, x.union y = .ok z ∧ z.lowIndexedRanges.Canonical ∧
        ∀ m, z.includesMarker m = true ↔ x.includesMarker m = true ∨ y.includesMarker m = true) ∧
      (∀ collection : List (SortedRangeSet α), ∃ z, x.unionAll collection = .ok z ∧ z.lowIndexedRanges.Canonical ∧
        ∀ m, z.includesMarker m = true ↔ x.includesMarker m = true ∨ ∃ o ∈ collection, o.includesMarker m = true) ∧
      (∃ z, x.complement = .ok z ∧ z.lowIndexedRanges.Canonical ∧
        ∀ m, z.includesMarker m = true ↔ ¬ x.includesMarker m = true) ∧
      (x.equals y = true ↔ ∀ m, x.includesMarker m = true ↔ y.includesMarker m = true) := by
  constructor
  · intro ranges
    obtain ⟨s,hs,hc⟩ := build_spec ranges
    exact ⟨s,hs,s.canonical,hc⟩
  · intro x y
    simp only [includesMarker_iff]
    refine ⟨fun m => .rfl,?_,?_,?_,?_,equals_iff x y⟩
    · obtain ⟨z,hz,hc⟩ := x.intersect_spec y
      refine ⟨z,hz,z.canonical,hc,?_⟩
      rw [overlaps_iff,← Bool.not_eq_true,isNone_iff]
      simp only [hc,not_forall,not_not]
    · obtain ⟨z,hz,hc⟩ := x.union_spec y
      exact ⟨z,hz,z.canonical,hc⟩
    · intro collection
      obtain ⟨z,hz,hc⟩ := x.unionAll_spec collection
      exact ⟨z,hz,z.canonical,hc⟩
    · obtain ⟨z,hz,hc⟩ := x.complement_spec
      exact ⟨z,hz,z.canonical,hc⟩

end SortedRangeSet
end HetuCore.Predicate
