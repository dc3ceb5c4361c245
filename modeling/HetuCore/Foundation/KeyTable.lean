import HetuCore.Foundation.OpenAddressing

namespace HetuCore.Foundation
open OpenAddressing List Function
variable {E K : Type} {n : Nat}

/-- The table holds exactly these entries, and each can be found from the home slot of its key. -/
structure Stores (key : E → K) (home : K → Fin n) (table : Fin n → Option E) (entries : List E) : Prop where
  chained : Chained (fun e => home (key e)) table
  mem_iff : ∀ e, e ∈ entries ↔ ∃ slot, table slot = some e
  injective : ∀ {slot slot' e e'}, table slot = some e → table slot' = some e' → key e = key e' → slot = slot'

namespace Stores
variable {key : E → K} {home : K → Fin n} {table : Fin n → Option E} {entries : List E}

theorem empty : Stores key home (fun _ => none) [] where
  chained := fun _ _ h => nomatch h
  mem_iff := by simp
  injective := fun h => nomatch h

section
variable (h : Stores key home table entries)
include h

theorem mem {slot : Fin n} {e : E} (hs : table slot = some e) : e ∈ entries :=
  (h.mem_iff e).mpr ⟨slot,hs⟩

theorem congr_key {key' : E → K} (hk : ∀ e ∈ entries, key' e = key e) : Stores key' home table entries where
  chained := by
    intro slot e hs
    show Run table (home (key' e)) slot
    rw [hk e (h.mem hs)]
    exact h.chained slot e hs
  mem_iff := h.mem_iff
  injective := by
    intro slot slot' e e' hs hs' heq
    rw [hk e (h.mem hs),hk e' (h.mem hs')] at heq
    exact h.injective hs hs' heq

theorem congr_entries {entries' : List E} (hm : ∀ e, e ∈ entries' ↔ e ∈ entries) : Stores key home table entries' :=
  ⟨h.chained,fun e => (hm e).trans (h.mem_iff e),h.injective⟩

theorem exists_free (hl : entries.length < n) : ∃ slot, table slot = none := by
  classical
  refine OpenAddressing.exists_free entries.idxOf hl (fun slot e hs => idxOf_lt_length_iff.mpr (h.mem hs)) ?_
  intro slot e slot' e' hs hs' hi
  obtain rfl := (idxOf_inj (h.mem hs)).mp hi
  exact h.injective hs hs' rfl

end

variable {wanted : E → Bool}

section
variable (h : Stores key home table entries)
include h

theorem probe_mem (hl : entries.length < n) {e : E} (he : e ∈ entries)
    (hw : ∀ e' ∈ entries, (wanted e' ↔ key e' = key e)) :
    ∃ slot, probe table wanted n (home (key e)) = some slot ∧ table slot = some e := by
  obtain ⟨slot,hs⟩ := (h.mem_iff e).mp he
  refine ⟨slot,?_,hs⟩
  refine h.chained.probe_found (h.exists_free hl) hs ((hw e he).mpr rfl) ?_
  intro other e' ho hh
  exact h.injective ho hs ((hw e' (h.mem ho)).mp hh)

theorem probe_notMem (hl : entries.length < n) (start : Fin n) (hw : ∀ e ∈ entries, ¬ wanted e) :
    ∃ slot, probe table wanted n start = some slot ∧ table slot = none ∧ Run table start slot :=
  probe_absent (h.exists_free hl) (fun _ e hs => hw e (h.mem hs)) start

/-- An entry of a new key goes to the free slot that the walk for its key finds. -/
theorem insert {slot : Fin n} {e : E} (hs : table slot = none) (hrn : Run table (home (key e)) slot)
    (hn : ∀ e' ∈ entries, key e' ≠ key e) : Stores key home (update table slot (some e)) (entries ++ [e]) where
  chained := h.chained.update hrn
  mem_iff := by
    intro e'
    rw [mem_append,mem_singleton,h.mem_iff]
    constructor
    · rintro (⟨slot',hs'⟩ | rfl)
      · have hne : slot' ≠ slot := by
          rintro rfl
          rw [hs] at hs'
          cases hs'
        exact ⟨slot',(update_of_ne hne ..).trans hs'⟩
      · exact ⟨slot,update_self ..⟩
    · rintro ⟨slot',hs'⟩
      by_cases hne : slot' = slot
      · subst hne
        rw [update_self] at hs'
        exact .inr (Option.some.inj hs').symm
      · rw [update_of_ne hne] at hs'
        exact .inl ⟨slot',hs'⟩
  injective := by
    intro left right a b ha hb hab
    by_cases hl : left = slot
    · subst hl
      rw [update_self] at ha
      cases ha
      by_contra hr
      rw [update_of_ne (Ne.symm hr)] at hb
      exact hn b (h.mem hb) hab.symm
    · rw [update_of_ne hl] at ha
      by_cases hr : right = slot
      · subst hr
        rw [update_self] at hb
        cases hb
        exact absurd hab (hn a (h.mem ha))
      · rw [update_of_ne hr] at hb
        exact h.injective ha hb hab

theorem pairwise_slots : ((finRange n).filterMap table).Pairwise fun e e' => key e ≠ key e' := by
  rw [pairwise_filterMap]
  refine (nodup_finRange n).imp fun hne e he e' he' hk => ?_
  exact hne (h.injective he he' hk)

theorem mem_slots (e : E) : e ∈ (finRange n).filterMap table ↔ e ∈ entries := by
  rw [mem_filterMap,h.mem_iff]
  exact exists_congr fun slot => and_iff_right (mem_finRange slot)

end

end Stores
end HetuCore.Foundation
