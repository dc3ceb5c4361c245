import HetuCore.Predicate.SortedRangeSetLaws
import Mathlib.Data.List.TakeWhile

/-! Separated ranges with single points taken out of them, gone through from left to right: each range
takes the points at the front of the list that lie in it. -/
namespace HetuCore.Predicate
open Foundation Range
variable {α : Type} [LinearOrder α]

theorem Range.includes_of_contains {q p : Range α} {m : Marker α} (hq : q.contains p = true) (hp : p.includes m = true) :
    q.includes m = true := by
  rw [contains_iff] at hq
  rw [includes_iff] at hp ⊢
  exact ⟨hq.1.trans hp.1,hp.2.trans hq.2⟩

theorem Range.includes_single {r : Range α} {v : α} (hl : r.low = .exactly v) (hh : r.high = .exactly v) (m : Marker α) :
    r.includes m = true ↔ m = .exactly v := by
  rw [includes_iff,hl,hh,← le_antisymm_iff,eq_comm]

theorem mapM_getSingleValue {ranges : List (Range α)} (h : ∀ r ∈ ranges, r.isSingleValue = true) :
    ∃ values, ranges.mapM getSingleValue = .ok values ∧ (values = [] ↔ ranges = []) ∧
      ∀ m, (∀ v ∈ values, m ≠ .exactly v) ↔ ∀ r ∈ ranges, ¬ r.includes m = true := by
  induction ranges with
  | nil => exact ⟨[],rfl,by simp,by simp⟩
  | cons r ranges ih =>
    obtain ⟨hr,hrn⟩ := List.forall_mem_cons.mp h
    obtain ⟨values,hvl,-,hm⟩ := ih hrn
    obtain ⟨v,hv,hl,hh⟩ := getSingleValue_spec hr
    refine ⟨v :: values,by rw [List.mapM_cons,hv,hvl]; rfl,by simp,fun m => ?_⟩
    rw [List.forall_mem_cons,List.forall_mem_cons,hm,includes_single hl hh]

/-- The points, from left to right, each lie in a range that is more than a single value. -/
structure Excludes (ranges points : List (Range α)) : Prop where
  separated : Separated (ranges.map ends)
  sorted : points.Pairwise (fun p q => p.high < q.low)
  single : ∀ p ∈ points, p.isSingleValue = true
  inside : ∀ p ∈ points, ∃ r ∈ ranges, r.isSingleValue = false ∧ r.contains p = true
  proper : ∀ r ∈ ranges, r.isAll = true → points ≠ []

/-- The marker lies in a range and is not excluded. -/
def Remains (ranges points : List (Range α)) (m : Marker α) : Prop :=
  (∃ r ∈ ranges, r.includes m = true) ∧ ∀ p ∈ points, ¬ p.includes m = true

namespace Excludes
variable {r : Range α} {ranges points : List (Range α)}

section
variable (h : Excludes (r :: ranges) points)
include h

theorem high_lt {q : Range α} (hq : q ∈ ranges) {m : Marker α} (hm : q.includes m = true) : r.high < m :=
  h.separated.head_lt ⟨q.ends,List.mem_map_of_mem hq,(includes_iff q m).mp hm⟩

/-- A point that does not lie in the first range lies behind it, in a later one. -/
theorem behind {p : Range α} (hp : p ∈ points) (hn : ¬ r.contains p = true) :
    r.high < p.low ∧ ∃ q ∈ ranges, q.isSingleValue = false ∧ q.contains p = true := by
  obtain ⟨q,hq,hqs,hqc⟩ := h.inside p hp
  rcases List.mem_cons.mp hq with rfl | hq
  · exact absurd hqc hn
  · have hl : p.includes p.low = true := (includes_iff p _).mpr ⟨le_rfl,p.low_le_high⟩
    exact ⟨h.high_lt hq (includes_of_contains hqc hl),q,hq,hqs,hqc⟩

theorem dropWhile_behind : ∀ p ∈ points.dropWhile r.contains, ¬ r.contains p = true := by
  have hd : ∀ left : List (Range α), left.Pairwise (fun p q => p.high < q.low) →
      (∀ p ∈ left, ¬ r.contains p = true → r.high < p.low) → ∀ p ∈ left.dropWhile r.contains, ¬ r.contains p = true := by
    intro left hs hb
    induction left with
    | nil => simp
    | cons p left ih =>
      obtain ⟨hf,hr⟩ := List.pairwise_cons.mp hs
      by_cases hp : r.contains p = true
      · rw [List.dropWhile_cons_of_pos hp]
        exact ih hr fun q hq => hb q (List.mem_cons_of_mem _ hq)
      · rw [List.dropWhile_cons_of_neg hp]
        refine List.forall_mem_cons.mpr ⟨hp,fun q hq hqc => ?_⟩
        have hup := ((hb p List.mem_cons_self hp).trans_le p.low_le_high).trans (hf q hq)
        exact absurd (q.low_le_high.trans ((contains_iff r q).mp hqc).2) (not_le.mpr hup)
  exact hd points h.sorted fun p hp hn => (h.behind hp hn).1

end

theorem mem_iff (p : Range α) : p ∈ points ↔ p ∈ points.takeWhile r.contains ∨ p ∈ points.dropWhile r.contains := by
  rw [← List.mem_append,List.takeWhile_append_dropWhile]

section
variable (h : Excludes (r :: ranges) points)
include h

theorem tail_of_single (hr : r.isSingleValue = true) : Excludes ranges points where
  separated := h.separated.tail
  sorted := h.sorted
  single := h.single
  inside := by
    intro p hp
    obtain ⟨q,hq,hqs,hqc⟩ := h.inside p hp
    rcases List.mem_cons.mp hq with rfl | hq
    · exact absurd (hqs.symm.trans hr) Bool.false_ne_true
    · exact ⟨q,hq,hqs,hqc⟩
  proper := fun q hq => h.proper q (List.mem_cons_of_mem _ hq)

theorem tail : Excludes ranges (points.dropWhile r.contains) where
  separated := h.separated.tail
  sorted := h.sorted.sublist (List.dropWhile_sublist _)
  single := fun p hp => h.single p ((mem_iff p).mpr (.inr hp))
  inside := fun p hp => (h.behind ((mem_iff p).mpr (.inr hp)) (h.dropWhile_behind p hp)).2
  proper := fun q hq ha => absurd (h.high_lt hq ((includes_iff q q.low).mpr ⟨le_rfl,q.low_le_high⟩))
    (by rw [((isAll_iff q).mp ha).1]; exact not_lt.mpr (Marker.lowerUnbounded_le _))

theorem takeWhile_ne_nil (ha : r.isAll = true) : points.takeWhile r.contains ≠ [] := by
  intro hn
  obtain ⟨p,hp⟩ := List.exists_mem_of_ne_nil _ (h.proper r List.mem_cons_self ha)
  rcases (mem_iff p).mp hp with hp | hp
  · exact List.ne_nil_of_mem hp hn
  · have hb := (h.behind ((mem_iff p).mpr (.inr hp)) (h.dropWhile_behind p hp)).1
    rw [((isAll_iff r).mp ha).2] at hb
    exact absurd hb (not_lt.mpr (Marker.le_upperUnbounded _))

theorem remains_cons_single (hr : r.isSingleValue = true) (m : Marker α) :
    Remains (r :: ranges) points m ↔ r.includes m = true ∨ Remains ranges points m := by
  constructor
  · rintro ⟨⟨q,hq,hqm⟩,hn⟩
    rcases List.mem_cons.mp hq with rfl | hq
    · exact .inl hqm
    · exact .inr ⟨⟨q,hq,hqm⟩,hn⟩
  · rintro (hrm | ⟨⟨q,hq,hqm⟩,hn⟩)
    · refine ⟨⟨r,List.mem_cons_self,hrm⟩,fun p hp hpm => ?_⟩
      obtain ⟨q,hq,-,hqc⟩ := (h.tail_of_single hr).inside p hp
      exact absurd (h.high_lt hq (includes_of_contains hqc hpm)) (not_lt.mpr ((includes_iff r m).mp hrm).2)
    · exact ⟨⟨q,List.mem_cons_of_mem _ hq,hqm⟩,hn⟩

theorem remains_cons (m : Marker α) :
    Remains (r :: ranges) points m ↔ (r.includes m = true ∧ ∀ p ∈ points.takeWhile r.contains, ¬ p.includes m = true) ∨
      Remains ranges (points.dropWhile r.contains) m := by
  constructor
  · rintro ⟨⟨q,hq,hqm⟩,hn⟩
    rcases List.mem_cons.mp hq with rfl | hq
    · exact .inl ⟨hqm,fun p hp => hn p ((mem_iff p).mpr (.inl hp))⟩
    · exact .inr ⟨⟨q,hq,hqm⟩,fun p hp => hn p ((mem_iff p).mpr (.inr hp))⟩
  · rintro (⟨hrm,hn⟩ | ⟨⟨q,hq,hqm⟩,hn⟩)
    · refine ⟨⟨r,List.mem_cons_self,hrm⟩,fun p hp hpm => ?_⟩
      rcases (mem_iff p).mp hp with hp | hp
      · exact hn p hp hpm
      · have hl := (h.behind ((mem_iff p).mpr (.inr hp)) (h.dropWhile_behind p hp)).1
        exact absurd ((includes_iff r m).mp hrm).2 (not_le.mpr (hl.trans_le ((includes_iff p m).mp hpm).1))
    · refine ⟨⟨q,List.mem_cons_of_mem _ hq,hqm⟩,fun p hp hpm => ?_⟩
      rcases (mem_iff p).mp hp with hp | hp
      · have hrm := (includes_iff r m).mp (includes_of_contains (List.mem_takeWhile_imp hp) hpm)
        exact absurd hrm.2 (not_le.mpr (h.high_lt hq hqm))
      · exact hn p hp hpm

end

/-- The single points of the complement are excluded from the union of the set with them. -/
theorem of_complement {s complement union : SortedRangeSet α} (hs : s.isAll = false)
    (hc : ∀ m, complement.Contains m ↔ ¬ s.Contains m)
    (hu : ∀ m, union.Contains m ↔ (∃ p ∈ complement.getOrderedRanges.filter isSingleValue, p.includes m = true) ∨
      s.Contains m) : Excludes union.getOrderedRanges (complement.getOrderedRanges.filter isSingleValue) where
  separated := union.separated
  sorted := (List.pairwise_map.mp complement.separated.apart).filter _ |>.imp fun hg => hg.lt
  single := fun p hp => (List.mem_filter.mp hp).2
  inside := by
    intro p hp
    obtain ⟨hpc,hps⟩ := List.mem_filter.mp hp
    obtain ⟨v,-,hlw,hhg⟩ := getSingleValue_spec hps
    have hcv : (Marker.below v) ⋖ Marker.exactly v := Marker.some_covBy rfl
    -- the marker just below the point is in the set, and so in the same range of the union
    have hb : union.Contains (.below v) := by
      refine (hu _).mpr (.inr (not_not.mp ((hc _).not.mp ?_)))
      rw [complement.contains_iff_covers]
      refine complement.separated.not_covers_of_covBy_low (List.mem_map_of_mem hpc) ?_
      rw [ends_fst,hlw]
      exact hcv
    obtain ⟨r,hr,hrv⟩ := (hu (.exactly v)).mpr (.inl ⟨p,hp,(includes_single hlw hhg _).mpr rfl⟩)
    obtain ⟨hrl,hrh⟩ := (includes_iff r _).mp hrv
    have hlt : r.low < .exactly v := by
      refine lt_of_le_of_ne hrl fun heq => ?_
      refine union.separated.not_covers_of_covBy_low (List.mem_map_of_mem hr) (m := .below v) ?_
        ((union.contains_iff_covers _).mp hb)
      rw [ends_fst,heq]
      exact hcv
    refine ⟨r,hr,Bool.eq_false_iff.mpr fun hsn => ?_,?_⟩
    · obtain ⟨w,-,hwl,hwh⟩ := getSingleValue_spec hsn
      exact absurd (hlt.trans_le hrh) (by rw [hwl,hwh]; exact lt_irrefl _)
    · rw [contains_iff,hlw,hhg]
      exact ⟨hrl,hrh⟩
  proper := by
    intro r hr ha hn
    refine Bool.false_ne_true (hs.symm.trans ((SortedRangeSet.isAll_iff s).mpr fun m => ?_))
    obtain ⟨hl,hh⟩ := (isAll_iff r).mp ha
    have hm : union.Contains m := ⟨r,hr,(includes_iff r m).mpr
      (by rw [hl,hh]; exact ⟨Marker.lowerUnbounded_le m,Marker.le_upperUnbounded m⟩)⟩
    rw [hu,hn] at hm
    simpa using hm

end Excludes
end HetuCore.Predicate
