import HetuCore.Predicate.RangeBuilder

namespace HetuCore.Predicate
open Foundation Range List

/-- A set whose index came out of the builder and is therefore canonical. -/
@[ext] structure SortedRangeSet (α : Type) [LinearOrder α] where
  lowIndexedRanges : LowIndex α
  canonical : lowIndexedRanges.Canonical

variable {α : Type} [LinearOrder α]

theorem Builder.buildLoop_canonical {ranges : List (Range α)} {index : LowIndex α}
    (h : buildLoop none [] (sort ranges) = .ok index) : index.Canonical := by
  obtain ⟨out,ho,hs,_⟩ := buildLoop_spec ranges
  obtain rfl := Except.ok.inj (h.symm.trans ho)
  exact canonical_entries hs

variable (ranges : List (Range α))

/-- Sort, merge and wrap the index. -/
def Builder.build : Except String (SortedRangeSet α) :=
  match h : buildLoop none [] (sort ranges) with
  | .ok index => .ok ⟨index,buildLoop_canonical h⟩
  | .error message => .error message

namespace SortedRangeSet

variable (s : SortedRangeSet α)

def getOrderedRanges : List (Range α) := s.lowIndexedRanges.values
def isNone : Bool := s.lowIndexedRanges.isEmpty

def isAll (s : SortedRangeSet α) : Bool :=
  match s.getOrderedRanges with
  | [r] => r.isAll
  | _ => false

def copyOf : Except String (SortedRangeSet α) := Builder.build ranges
def none : Except String (SortedRangeSet α) := copyOf []

def all : Except String (SortedRangeSet α) := do
  let r ← Range.all
  copyOf [r]

def includesMarker (marker : Marker α) : Bool :=
  match s.lowIndexedRanges.floorEntry marker with
  | some e => e.2.includes marker
  | .none => false

def containsValue (value : α) : Bool := s.includesMarker (.exactly value)

/-- What one pair of cursors adds to the builder. -/
def addIntersection (range1 range2 : Range α) : Except String (List (Range α)) :=
  if range1.overlaps range2 then do
    let r ← range1.intersect range2
    pure [r]
  else pure []

/-- The two cursors of the intersection; the ranges handed to the builder in order. -/
def intersectLoop : List (Range α) → List (Range α) → Except String (List (Range α))
  | [], _ => .ok []
  | _ :: _, [] => .ok []
  | range1 :: rest1, range2 :: rest2 => do
    let added ← addIntersection range1 range2
    let rest ← if (range1.high.compareTo range2.high).isLE then intersectLoop rest1 (range2 :: rest2)
      else intersectLoop (range1 :: rest1) rest2
    pure (added ++ rest)
termination_by l1 l2 => l1.length + l2.length

variable (o : SortedRangeSet α)

def intersect : Except String (SortedRangeSet α) := do
  let ranges ← intersectLoop s.getOrderedRanges o.getOrderedRanges
  Builder.build ranges

/-- The two cursors of the overlap test, left at the first overlapping pair. -/
def overlapsLoop : List (Range α) → List (Range α) → Bool
  | [], _ => false
  | _ :: _, [] => false
  | range1 :: rest1, range2 :: rest2 =>
    if range1.overlaps range2 then true
    else if (range1.high.compareTo range2.high).isLE then overlapsLoop rest1 (range2 :: rest2)
    else overlapsLoop (range1 :: rest1) rest2
termination_by l1 l2 => l1.length + l2.length

def overlaps : Bool := overlapsLoop s.getOrderedRanges o.getOrderedRanges

def union : Except String (SortedRangeSet α) :=
  Builder.build (s.getOrderedRanges ++ o.getOrderedRanges)

/-- Union with a whole collection through one builder. -/
def unionAll (valueSets : List (SortedRangeSet α)) : Except String (SortedRangeSet α) :=
  Builder.build (s.getOrderedRanges ++ valueSets.flatMap getOrderedRanges)

/-- The gaps after the previous range, then the open end after the last one. -/
def complementLoop (previous : Range α) : List (Range α) → Except String (List (Range α))
  | [] =>
    if previous.high.isUpperUnbounded then pure []
    else do
      let low ← previous.high.greaterAdjacent
      let r ← new low .upperUnbounded
      pure [r]
  | current :: rest => do
    let low ← previous.high.greaterAdjacent
    let high ← current.low.lesserAdjacent
    let r ← new low high
    let ranges ← complementLoop current rest
    pure (r :: ranges)

def complement : Except String (SortedRangeSet α) :=
  match s.getOrderedRanges with
  | [] => do
    let r ← Range.all
    Builder.build [r]
  | first :: rest => do
    let start ← if first.low.isLowerUnbounded then pure []
      else (do
        let high ← first.low.lesserAdjacent
        let r ← new .lowerUnbounded high
        pure [r])
    let ranges ← complementLoop first rest
    Builder.build (start ++ ranges)

/-- Equality of the maps from low markers to ranges, entry by entry in key order. -/
def equals : Bool := decide (s.lowIndexedRanges = o.lowIndexedRanges)

def Contains (m : Marker α) : Prop := ∃ r ∈ s.getOrderedRanges, r.includes m = true

variable (s : SortedRangeSet α)

theorem contains_iff_covers (m : Marker α) : s.Contains m ↔ Covers (s.getOrderedRanges.map ends) m := by
  simp only [Contains,includes_iff,Covers,mem_map,exists_exists_and_eq_and,ends_fst,ends_snd]

theorem separated : Separated (s.getOrderedRanges.map ends) := by
  constructor
  · intro r hr
    obtain ⟨o,_,rfl⟩ := mem_map.mp hr
    exact o.low_le_high
  · refine pairwise_map.mpr (pairwise_map.mpr ?_)
    refine (s.canonical.sorted.and (s.canonical.disjoint.and s.canonical.nonAdjacent)).imp ?_
    rintro e f ⟨hlt,hd,ha⟩
    rw [← Bool.not_eq_true,overlaps_iff,not_and,not_le] at hd
    exact Marker.exists_between_of_not_isAdjacent e.2.high_bound f.2.low_bound (hd (hlt.le.trans f.2.low_le_high)) ha

theorem index_eq : s.lowIndexedRanges = s.getOrderedRanges.map Builder.entry := by
  rw [getOrderedRanges,LowIndex.values,map_map]
  refine (map_id _).symm.trans (map_congr_left (fun e he => ?_))
  exact Prod.ext (s.canonical.keyed e he) rfl

theorem ext_contains {s o : SortedRangeSet α} (h : ∀ m, s.Contains m ↔ o.Contains m) : s = o := by
  simp only [contains_iff_covers] at h
  have hr := map_injective_iff.mpr ends_injective (s.separated.ext o.separated h)
  exact SortedRangeSet.ext (by rw [index_eq,index_eq,hr])

theorem isNone_iff : s.isNone = true ↔ ∀ m, ¬ s.Contains m := by
  rw [isNone,List.isEmpty_iff]
  constructor
  · rintro h m ⟨r,hr,_⟩
    simp [getOrderedRanges,LowIndex.values,h] at hr
  · intro h
    by_contra hne
    obtain ⟨e,he⟩ := exists_mem_of_ne_nil _ hne
    exact h e.2.low ⟨e.2,mem_map_of_mem he,(includes_iff _ _).mpr ⟨le_rfl,e.2.low_le_high⟩⟩

/-- Looking up the floor entry decides membership in the whole set. -/
theorem includesMarker_iff (m : Marker α) : s.includesMarker m = true ↔ s.Contains m := by
  rw [includesMarker,LowIndex.floorEntry]
  set F := s.lowIndexedRanges.filter (fun e => (e.1.compareTo m).isLE) with hF
  have hsb : F.Sublist s.lowIndexedRanges := filter_sublist
  constructor
  · intro h
    split at h
    · rename_i e he
      exact ⟨e.2,mem_map_of_mem (hsb.subset (mem_of_getLast? he)),h⟩
    · cases h
  · rintro ⟨r,hr,hm⟩
    obtain ⟨e,he,rfl⟩ := mem_map.mp hr
    obtain ⟨hl,hh⟩ := (includes_iff _ _).mp hm
    have heF : e ∈ F := by
      rw [mem_filter]
      refine ⟨he,?_⟩
      rw [Marker.compareTo_isLE,decide_eq_true_eq,s.canonical.keyed e he]
      exact hl
    obtain ⟨ys,f,hs⟩ := (eq_nil_or_concat F).resolve_left (ne_nil_of_mem heF)
    rw [concat_eq_append] at hs
    have hfF : f ∈ F := by simp [hs]
    have hfl : f.2.low ≤ m := by
      have hf := (mem_filter.mp (hF ▸ hfF)).2
      rwa [Marker.compareTo_isLE,decide_eq_true_eq,s.canonical.keyed f (hsb.subset hfF)] at hf
    have hef : e = f := by
      rw [hs] at heF
      rcases mem_append.mp heF with hy | hy
      · have hp := (s.canonical.sorted.and s.canonical.disjoint).sublist hsb
        rw [hs,pairwise_append] at hp
        obtain ⟨hlt,hd⟩ := hp.2.2 e hy f (by simp)
        rw [← Bool.not_eq_true,overlaps_iff] at hd
        exact absurd ⟨hlt.le.trans f.2.low_le_high,hfl.trans hh⟩ hd
      · exact mem_singleton.mp hy
    rw [hs]
    simp [← hef,hm]

end SortedRangeSet
end HetuCore.Predicate
