import Mathlib.Algebra.Order.Ring.Int

namespace HetuCore.HeuristicIndex.RangeSearch
open List

/-- The places that are left between `start` and `stop`; `none` if a range starts where the target does. -/
def narrow (ranges : List (Int × Int)) (target : Int × Int) (start stop : Nat) : Except String (Option Nat) :=
  if start + 1 < stop then
    match ranges[(start + stop) / 2]? with
    | none => .error "IndexOutOfBoundsException"
    | some range =>
      if range.1 = target.1 then .ok none
      else if range.1 < target.1 then narrow ranges target ((start + stop) / 2) stop
      else narrow ranges target start ((start + stop) / 2)
  else .ok (some start)
termination_by stop - start
decreasing_by all_goals omega

variable (ranges : List (Int × Int))

/-- The last tests, at the place found and next to it. -/
def overlapsAt (target : Int × Int) (start : Nat) : Except String Bool :=
  match ranges[start]? with
  | none => .error "IndexOutOfBoundsException"
  | some range =>
    if target.1 < range.1 then
      .ok (decide (target.2 ≥ range.1) ||
        decide (start > 0) && (ranges[start - 1]?).any fun before => decide (target.1 ≤ before.2))
    else
      .ok (decide (target.1 ≤ range.2) ||
        (ranges[start + 1]?).any fun next => decide (next.1 ≤ target.2) && decide (next.2 ≥ target.1))

def rangeSearch (target : Int × Int) : Except String Bool := do
  match ← narrow ranges target 0 (ranges.length - 1) with
  | none => pure true
  | some start => overlapsAt ranges target start

/-- Both ends included, the ranges have a place in common. -/
def Overlap (range target : Int × Int) : Prop := range.1 ≤ target.2 ∧ target.1 ≤ range.2

/-- The ranges follow one another. -/
structure Separate (ranges : List (Int × Int)) : Prop where
  nonempty : ∀ range ∈ ranges, range.1 ≤ range.2
  pairwise : ranges.Pairwise fun a b => a.2 ≤ b.1

/-- The ranges before `start` begin before the target, those from `stop` on behind its start. -/
structure Between (ranges : List (Int × Int)) (target : Int × Int) (start stop : Nat) : Prop where
  bound : start < ranges.length
  low : start = 0 ∨ ∃ range, ranges[start]? = some range ∧ range.1 < target.1
  high : ranges.length ≤ stop + 1 ∨ ∃ range, ranges[stop]? = some range ∧ target.1 < range.1

variable {ranges : List (Int × Int)} {target : Int × Int}

theorem narrow_spec {start stop : Nat} (hs : stop < ranges.length) (h : Between ranges target start stop) :
    (narrow ranges target start stop = .ok none ∧ ∃ range ∈ ranges, range.1 = target.1) ∨
    ∃ s e, narrow ranges target start stop = .ok (some s) ∧ e ≤ s + 1 ∧ Between ranges target s e := by
  induction hn : stop - start using Nat.strong_induction_on generalizing start stop with
  | _ n ih =>
    rw [narrow]
    split
    · have hm : (start + stop) / 2 < ranges.length := by omega
      rw [getElem?_eq_getElem hm]
      dsimp only
      split
      · rename_i he
        exact .inl ⟨rfl,_,getElem_mem hm,he⟩
      split
      · rename_i hl
        exact ih _ (by omega) hs ⟨hm,.inr ⟨_,getElem?_eq_getElem hm,hl⟩,h.high⟩ rfl
      · refine ih _ (by omega) hm ⟨h.bound,h.low,.inr ⟨_,getElem?_eq_getElem hm,?_⟩⟩ rfl
        omega
    · exact .inr ⟨start,stop,rfl,by omega,h⟩

theorem Separate.le (h : Separate ranges) {i j : Nat} {a b : Int × Int} (ha : ranges[i]? = some a)
    (hb : ranges[j]? = some b) (hij : i < j) : a.2 ≤ b.1 := by
  obtain ⟨hi,rfl⟩ := List.getElem?_eq_some_iff.mp ha
  obtain ⟨hj,rfl⟩ := List.getElem?_eq_some_iff.mp hb
  exact pairwise_iff_getElem.mp h.pairwise i j hi hj hij

theorem overlapsAt_spec (hr : Separate ranges) (ht : target.1 ≤ target.2) {s e : Nat} (hc : e ≤ s + 1)
    (h : Between ranges target s e) :
    ∃ b, overlapsAt ranges target s = .ok b ∧ (b = true ↔ ∃ range ∈ ranges, Overlap range target) := by
  obtain ⟨range,hg⟩ : ∃ range, ranges[s]? = some range := ⟨_,getElem?_eq_getElem h.bound⟩
  have hrn := hr.nonempty range (mem_of_getElem? hg)
  rw [overlapsAt,hg]
  dsimp only
  split
  · -- only the first range can start behind the target
    obtain rfl : s = 0 := h.low.resolve_right fun ⟨other,ho,hlt⟩ => by
      obtain rfl := Option.some.inj (hg.symm.trans ho)
      omega
    refine ⟨_,rfl,?_⟩
    simp only [Nat.lt_irrefl,decide_false,Bool.false_and,Bool.or_false,decide_eq_true_eq]
    constructor
    · exact fun hge => ⟨range,mem_of_getElem? hg,hge,by omega⟩
    · rintro ⟨other,ho,hov,-⟩
      obtain ⟨j,hj⟩ := getElem?_of_mem ho
      cases j with
      | zero =>
        obtain rfl := Option.some.inj (hg.symm.trans hj)
        exact hov
      | succ j =>
        have := hr.le hg hj (Nat.succ_pos j)
        omega
  · refine ⟨_,rfl,?_⟩
    rw [Bool.or_eq_true,Option.any_eq_true]
    simp only [Bool.and_eq_true,decide_eq_true_eq]
    constructor
    · rintro (hle | ⟨next,hn,hl,hh⟩)
      · exact ⟨range,mem_of_getElem? hg,by omega,hle⟩
      · exact ⟨next,mem_of_getElem? hn,hl,hh⟩
    · rintro ⟨other,ho,hl,hh⟩
      obtain ⟨j,hj⟩ := getElem?_of_mem ho
      rcases lt_trichotomy j s with hjs | rfl | hsj
      · have := hr.le hj hg hjs
        exact .inl (by omega)
      · obtain rfl := Option.some.inj (hg.symm.trans hj)
        exact .inl hh
      · have hlt : s + 1 < ranges.length := by
          have := (List.getElem?_eq_some_iff.mp hj).1
          omega
        have hn := getElem?_eq_getElem hlt
        refine .inr ⟨_,hn,?_⟩
        rcases Nat.lt_or_eq_of_le (Nat.succ_le_of_lt hsj) with hf | hnr
        · -- the next range starts behind the target's start and before the one found
          have hlr := hr.le hn hj hf
          have hnn := hr.nonempty _ (getElem_mem hlt)
          have hj' := (List.getElem?_eq_some_iff.mp hj).1
          obtain ⟨stop,hs,hb⟩ := h.high.resolve_left (by omega)
          have he : e = s + 1 := by
            by_contra hne
            rcases Nat.lt_or_eq_of_le (show e ≤ s by omega) with hes | rfl
            · have := hr.le hs hg hes
              have := hr.nonempty stop (mem_of_getElem? hs)
              omega
            · obtain rfl := Option.some.inj (hg.symm.trans hs)
              omega
          subst he
          rw [Option.some.inj (hn.symm.trans hs)] at hlr hnn ⊢
          omega
        · subst hnr
          obtain rfl := Option.some.inj (hn.symm.trans hj)
          exact ⟨hl,hh⟩

theorem rangeSearch_spec (hne : ranges ≠ []) (hr : Separate ranges) (ht : target.1 ≤ target.2) :
    ∃ b, rangeSearch ranges target = .ok b ∧ (b = true ↔ ∃ range ∈ ranges, Overlap range target) := by
  have hp := length_pos_iff.mpr hne
  have hi : Between ranges target 0 (ranges.length - 1) := ⟨hp,.inl rfl,.inl (by omega)⟩
  rw [rangeSearch]
  rcases narrow_spec (by omega) hi with ⟨hn,range,hrn,he⟩ | ⟨s,e,hn,hc,hb⟩
  · rw [hn]
    refine ⟨true,rfl,iff_of_true rfl ⟨range,hrn,by omega,?_⟩⟩
    have := hr.nonempty range hrn
    omega
  · rw [hn]
    exact overlapsAt_spec hr ht hc hb

end HetuCore.HeuristicIndex.RangeSearch
