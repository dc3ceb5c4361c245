import Mathlib.Data.List.Nodup
import Mathlib.Data.List.Induction

/-! Keys numbered in the order of their first appearance. The list of the keys that have
appeared is `List.eraseDups` of all keys, and the number of a key is its index there. -/
namespace HetuCore.Foundation
open List
variable {K : Type} [BEq K] [LawfulBEq K] {other : K}

omit [BEq K] [LawfulBEq K] in
theorem getElem?_concat_eq_some {keys : List K} {key : K} {i : Nat} :
    (keys ++ [key])[i]? = some other ↔ keys[i]? = some other ∨ i = keys.length ∧ key = other := by
  rcases Nat.lt_trichotomy i keys.length with hlt | rfl | hgt
  · simp [getElem?_append_left hlt,Nat.ne_of_lt hlt]
  · simp
  · rw [getElem?_eq_none (Nat.le_of_lt hgt),getElem?_eq_none (by simp; omega)]
    simp [Nat.ne_of_gt hgt]

def absorb (known : List K) (key : K) : List K := if key ∈ known then known else known ++ [key]

variable {known : List K} {key : K}

theorem absorb_of_mem (h : key ∈ known) : absorb known key = known := if_pos h

theorem absorb_of_notMem (h : key ∉ known) : absorb known key = known ++ [key] := if_neg h

theorem mem_absorb {key : K} : other ∈ absorb known key ↔ other ∈ known ∨ other = key := by
  rw [absorb]
  split
  · exact (or_iff_left_of_imp fun h => h ▸ ‹_›).symm
  · rw [mem_append,mem_singleton]

theorem mem_absorb_self (known : List K) (key : K) : key ∈ absorb known key := mem_absorb.mpr (.inr rfl)

theorem nodup_absorb (h : known.Nodup) (key : K) : (absorb known key).Nodup := by
  rw [absorb]
  split
  · exact h
  · exact nodup_append_comm.mp (h.cons ‹_›)

theorem idxOf_absorb (h : other ∈ known) (key : K) : (absorb known key).idxOf other = known.idxOf other := by
  rw [absorb]
  split
  · rfl
  · exact idxOf_append_of_mem h

theorem idxOf_absorb_self (h : key ∉ known) : (absorb known key).idxOf key = known.length := by
  rw [absorb_of_notMem h,idxOf_append_of_notMem h,idxOf_cons_self,Nat.add_zero]

variable (keys : List K)

theorem eraseDups_concat (key : K) : (keys ++ [key]).eraseDups = absorb keys.eraseDups key := by
  rw [eraseDups_append,removeAll]
  by_cases h : key ∈ keys
  · rw [absorb_of_mem (mem_eraseDups.mpr h)]
    simp [h]
  · rw [absorb_of_notMem fun hin => h (mem_eraseDups.mp hin)]
    simp [h,eraseDups_cons]

theorem nodup_eraseDups : keys.eraseDups.Nodup := by
  induction keys using reverseRecOn with
  | nil => exact nodup_nil
  | append_singleton keys key ih =>
    rw [eraseDups_concat]
    exact nodup_absorb ih key

/-- The numbers of the keys, by first appearance from 0. -/
def numbering (keys : List K) : List Nat := keys.map keys.eraseDups.idxOf

theorem numbering_concat (key : K) :
    numbering (keys ++ [key]) = numbering keys ++ [(absorb keys.eraseDups key).idxOf key] := by
  rw [numbering,map_append,eraseDups_concat]
  refine congrArg (· ++ [_]) (map_congr_left fun other ho => ?_)
  exact idxOf_absorb (mem_eraseDups.mpr ho) key

theorem length_eraseDups_append_le (keys later : List K) : keys.eraseDups.length ≤ (keys ++ later).eraseDups.length := by
  rw [eraseDups_append,length_append]
  exact Nat.le_add_right _ _

theorem idxOf_eraseDups_append {keys : List K} (h : key ∈ keys) (later : List K) :
    (keys ++ later).eraseDups.idxOf key = keys.eraseDups.idxOf key := by
  rw [eraseDups_append,idxOf_append_of_mem (mem_eraseDups.mpr h)]

theorem numbering_append (keys later : List K) :
    numbering (keys ++ later) = numbering keys ++ later.map (keys ++ later).eraseDups.idxOf := by
  rw [numbering,map_append]
  refine congrArg (· ++ _) (map_congr_left fun key hk => ?_)
  exact idxOf_eraseDups_append hk later

theorem eraseDups_append_replicate (key : K) (count : Nat) :
    (keys ++ replicate (count + 1) key).eraseDups = absorb keys.eraseDups key := by
  induction count with
  | zero => exact eraseDups_concat keys key
  | succ count ih =>
    rw [replicate_succ',← append_assoc,eraseDups_concat,ih]
    exact absorb_of_mem (mem_absorb_self _ _)

theorem numbering_append_replicate (key : K) (count : Nat) : numbering (keys ++ replicate (count + 1) key) =
      numbering keys ++ replicate (count + 1) ((absorb keys.eraseDups key).idxOf key) := by
  rw [numbering,eraseDups_append_replicate,map_append,map_replicate]
  refine congrArg (· ++ _) (map_congr_left fun other ho => ?_)
  exact idxOf_absorb (mem_eraseDups.mpr ho) key

theorem numbering_eq_iff {keys : List K} {i j : Nat} {left right : K} (hi : keys[i]? = some left) (hj : keys[j]? = some right) :
    (numbering keys)[i]? = (numbering keys)[j]? ↔ left = right := by
  rw [numbering,getElem?_map,getElem?_map,hi,hj,Option.map_some,Option.map_some,Option.some.injEq]
  exact idxOf_inj (mem_eraseDups.mpr (mem_of_getElem? hi))

end HetuCore.Foundation
