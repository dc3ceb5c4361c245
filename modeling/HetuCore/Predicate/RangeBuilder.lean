import HetuCore.Foundation.Machine
import HetuCore.Foundation.SeparatedIntervals
import HetuCore.Predicate.Range
import Mathlib.Data.List.Sort

/-! Sets of markers kept as ordered, coalesced ranges. The builder sorts by low
marker and merges overlapping or adjacent neighbours in one pass. -/
namespace HetuCore.Predicate
open Foundation Range Marker List
variable {α : Type} [LinearOrder α]

/-- The entries of the navigable map from low markers to ranges, in key order. -/
abbrev LowIndex (α : Type) [LinearOrder α] := List (Marker α × Range α)

namespace LowIndex

def put (key : Marker α) (range : Range α) : LowIndex α → LowIndex α
  | [] => [(key,range)]
  | e :: rest =>
    match key.compareTo e.1 with
    | .lt => (key,range) :: e :: rest
    | .eq => (e.1,range) :: rest
    | .gt => e :: put key range rest

/-- The entry with the greatest key that is not above the marker. -/
def floorEntry (index : LowIndex α) (marker : Marker α) : Option (Marker α × Range α) :=
  (index.filter (fun e => (e.1.compareTo marker).isLE)).getLast?

def values (index : LowIndex α) : List (Range α) := index.map Prod.snd

/-- Ranges under their own low marker, increasing, pairwise disjoint and not adjacent. -/
structure Canonical (index : LowIndex α) : Prop where
  keyed : ∀ e ∈ index, e.1 = e.2.low
  sorted : index.Pairwise (fun e f => e.2.low < f.2.low)
  disjoint : index.Pairwise (fun e f => e.2.overlaps f.2 = false)
  nonAdjacent : index.Pairwise (fun e f => e.2.high.isAdjacent f.2.low = false)

theorem put_append {index : LowIndex α} {key : Marker α} (range : Range α)
    (h : ∀ e ∈ index, e.1 < key) : put key range index = index ++ [(key,range)] := by
  induction index with
  | nil => rfl
  | cons e rest ih =>
    have he := h e mem_cons_self
    rcases compareTo_cases key e.1 with ⟨_,hk⟩ | ⟨_,hk⟩ | ⟨hc,_⟩
    · exact absurd hk (not_lt.mpr he.le)
    · exact absurd he (hk ▸ lt_irrefl _)
    · rw [put,hc]
      exact congrArg (e :: ·) (ih (fun f hf => h f (mem_cons_of_mem _ hf)))

end LowIndex

namespace Builder

/-- The merge loop over the sorted ranges; the current range is absent at the start. -/
def buildLoop : Option (Range α) → LowIndex α → List (Range α) → Except String (LowIndex α)
  | none, result, [] => .ok result
  | some current, result, [] => .ok (result.put current.low current)
  | none, result, next :: rest => buildLoop (some next) result rest
  | some current, result, next :: rest =>
    if current.overlaps next || current.high.isAdjacent next.low then do
      let spanned ← current.span next
      buildLoop (some spanned) result rest
    else buildLoop (some next) (result.put current.low current) rest

def sort (ranges : List (Range α)) : List (Range α) :=
  ranges.insertionSort (fun r o => (r.low.compareTo o.low).isLE = true)

/-- A range under its own low marker. -/
def entry (r : Range α) : Marker α × Range α := (r.low,r)

private theorem join_iff {current next : Range α} (h : current.low ≤ next.low) :
    (current.overlaps next || current.high.isAdjacent next.low) = true ↔
      next.ends.1 ≤ current.ends.2 ∨ current.ends.2.isAdjacent next.ends.1 = true := by
  rw [Bool.or_eq_true,overlaps_iff]
  have := h.trans next.low_le_high
  tauto

/-- The merge loop never throws and is the coalescing pass on the ends of the ranges. -/
theorem buildLoop_coalesce {current : Range α} {result : LowIndex α} {rest : List (Range α)}
    (hsr : (current :: rest).Pairwise (fun r o => r.low ≤ o.low)) (hr : ∀ e ∈ result, e.1 < current.low) :
    ∃ out : List (Range α), buildLoop (some current) result rest = .ok (result ++ out.map entry) ∧
      out.map ends = coalesce isAdjacent current.ends (rest.map ends) := by
  induction rest generalizing current result with
  | nil => exact ⟨[current],by rw [buildLoop,LowIndex.put_append _ hr]; rfl,rfl⟩
  | cons next rest ih =>
    obtain ⟨hc,hrs⟩ := pairwise_cons.mp hsr
    have hl := hc next mem_cons_self
    rw [map_cons,coalesce]
    by_cases hj : (current.overlaps next || current.high.isAdjacent next.low) = true
    · obtain ⟨s,hs,hsl,hsh⟩ := current.span_eq_ok next
      rw [inf_eq_left.mpr hl] at hsl
      have hs' : (s :: rest).Pairwise (fun r o => r.low ≤ o.low) := by
        refine pairwise_cons.mpr ⟨fun o ho => ?_,(pairwise_cons.mp hrs).2⟩
        rw [hsl]
        exact hc o (mem_cons_of_mem _ ho)
      obtain ⟨out,hot,hen⟩ := ih hs' (by rwa [hsl])
      refine ⟨out,?_,?_⟩
      · rw [buildLoop,if_pos hj,hs]
        exact hot
      · rw [hen,if_pos ((join_iff hl).mp hj)]
        congr 1
        exact Prod.ext hsl hsh
    · have hj' := fun h => hj ((join_iff hl).mpr h)
      have hlt : current.low < next.low :=
        current.low_le_high.trans_lt (not_le.mp (fun h => hj' (.inl h)))
      have hr' : ∀ e ∈ result ++ [entry current], e.1 < next.low :=
        forall_mem_concat.mpr ⟨fun e he => (hr e he).trans hlt,hlt⟩
      obtain ⟨out,hot,hen⟩ := ih hrs hr'
      refine ⟨current :: out,?_,?_⟩
      · rw [buildLoop,if_neg hj,LowIndex.put_append _ hr]
        simpa [entry] using hot
      · rw [if_neg hj',map_cons,hen]

variable (ranges : List (Range α))

/-- Adjacency of markers, seen from the ends of ranges, is exactly the absence of a gap. -/
theorem touching_ends : Touching isAdjacent (ranges.map ends) := by
  constructor
  · intro r hr s hs h
    obtain ⟨r,_,rfl⟩ := mem_map.mp hr
    obtain ⟨s,_,rfl⟩ := mem_map.mp hs
    exact not_gap_of_covBy (isAdjacent_covBy r.high_bound s.low_bound h)
  · intro r hr s hs hlt h
    obtain ⟨r,_,rfl⟩ := mem_map.mp hr
    obtain ⟨s,_,rfl⟩ := mem_map.mp hs
    exact exists_between_of_not_isAdjacent r.high_bound s.low_bound hlt h

/-- Canonical indexes are the separated lists of ends under their own keys. -/
theorem canonical_entries {out : List (Range α)} (h : Separated (out.map ends)) :
    LowIndex.Canonical (out.map entry) := by
  have hgp : out.Pairwise (fun r o => Gap r.high o.low) := pairwise_map.mp h.apart
  refine ⟨?_,?_,?_,?_⟩
  · intro e he
    obtain ⟨r,_,rfl⟩ := mem_map.mp he
    rfl
  · exact pairwise_map.mpr (hgp.imp (fun {r o} hg => r.low_le_high.trans_lt hg.lt))
  · refine pairwise_map.mpr (hgp.imp (fun {r o} hg => ?_))
    rw [← Bool.not_eq_true,overlaps_iff]
    exact fun ho => absurd ho.2 (not_le.mpr hg.lt)
  · refine pairwise_map.mpr (hgp.imp (fun {r o} hg => ?_))
    rw [← Bool.not_eq_true]
    exact fun ha => not_gap_of_covBy (isAdjacent_covBy r.high_bound o.low_bound ha) hg

theorem sort_sorted : (sort ranges).Pairwise (fun r o => r.low ≤ o.low) := by
  have : IsTrans (Range α) (fun r o => (r.low.compareTo o.low).isLE = true) :=
    ⟨fun a b c hab hbc => by
      rw [compareTo_isLE,decide_eq_true_eq] at hab hbc ⊢
      exact hab.trans hbc⟩
  have : Std.Total (fun r o : Range α => (r.low.compareTo o.low).isLE = true) :=
    ⟨fun a b => by
      simp only [compareTo_isLE,decide_eq_true_eq]
      exact le_total _ _⟩
  refine (pairwise_insertionSort _ ranges).imp (fun {r o} h => ?_)
  rwa [compareTo_isLE,decide_eq_true_eq] at h

/-- The builder never throws; its index is canonical and covers the union of its input. -/
theorem buildLoop_spec : ∃ out : List (Range α), buildLoop none [] (sort ranges) = .ok (out.map entry) ∧
      Separated (out.map ends) ∧ ∀ m, Covers (out.map ends) m ↔ Covers (ranges.map ends) m := by
  have hp : (sort ranges).Perm ranges := perm_insertionSort _ ranges
  have hc := fun m => covers_perm (hp.map ends) m
  have hs := sort_sorted ranges
  generalize sort ranges = sorted at hp hc hs
  cases sorted with
  | nil => exact ⟨[],rfl,⟨nofun,.nil⟩,hc⟩
  | cons current rest =>
    obtain ⟨out,ho,he⟩ := @buildLoop_coalesce α _ current [] rest hs nofun
    have hl : ((current :: rest).map ends).Pairwise (fun r s => r.1 ≤ s.1) :=
      pairwise_map.mpr hs
    have hor : ∀ r ∈ (current :: rest).map ends, r.1 ≤ r.2 := by
      intro r hr
      obtain ⟨o,_,rfl⟩ := mem_map.mp hr
      exact o.low_le_high
    have hsp := coalesce_spec hl hor (touching_ends (current :: rest))
    rw [← he] at hsp
    exact ⟨out,ho,hsp.1,fun m => (hsp.2 m).trans (hc m)⟩

end Builder
end HetuCore.Predicate
