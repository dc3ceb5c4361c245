import HetuCore.Join.PagesHash

namespace HetuCore.Join
open Foundation Foundation.OpenAddressing List Option

section Single
variable {slots size : Nat} {heads : Fin slots → Option (Fin size)} {matching : Fin size → Bool} {start : Fin slots}

theorem search_eq {slot : Fin slots} (h : probe heads matching slots start = some slot) :
    search heads matching start = .ok (heads slot) := by
  rw [search,h]

theorem exists_search (hf : ∃ slot, heads slot = none) (matching : Fin size → Bool) (start : Fin slots) :
    ∃ found, search heads matching start = .ok found := by
  obtain ⟨slot,hs⟩ := exists_probe matching hf start
  exact ⟨heads slot,search_eq hs⟩

theorem search_of_free (h : heads start = none) : search heads matching start = .ok none := by
  refine Eq.trans (b := .ok (heads start)) (search_eq ?_) (congrArg Except.ok h)
  obtain ⟨n,rfl⟩ := Nat.exists_eq_succ_of_ne_zero start.pos.ne'
  rw [probe,h]

theorem search_of_matching {key : Fin size} (h : heads start = some key) (hk : matching key) :
    search heads matching start = .ok (some key) := by
  refine Eq.trans (b := .ok (heads start)) (search_eq ?_) (congrArg Except.ok h)
  obtain ⟨n,rfl⟩ := Nat.exists_eq_succ_of_ne_zero start.pos.ne'
  rw [probe,h]
  exact if_pos hk

theorem search_succ (hf : ∃ slot, heads slot = none) {key : Fin size} (h : heads start = some key)
    (hk : ¬ matching key) : search heads matching (succ start) = search heads matching start := by
  obtain ⟨slot,hs⟩ := exists_probe matching hf start
  rw [search_eq hs]
  refine search_eq ?_
  obtain ⟨n,rfl⟩ := Nat.exists_eq_succ_of_ne_zero start.pos.ne'
  rw [probe,h] at hs
  exact probe_succ ((if_neg hk).symm.trans hs)

end Single

section Batch
variable {slots size count : Nat} {heads : Fin slots → Option (Fin size)} {hashPositions : Fin count → Fin slots}
  {matching : Fin count → Fin size → Bool}

/-- The key in the first slot of a position is the proper one. -/
def hits (heads : Fin slots → Option (Fin size)) (hashPositions : Fin count → Fin slots)
    (matching : Fin count → Fin size → Bool) (index : Fin count) : Bool :=
  (heads (hashPositions index)).any (matching index)

theorem verify_eq (result : Fin count → Option (Fin size)) {found : List (Fin count)}
    (hfn : ∀ index ∈ found, (heads (hashPositions index)).isSome) : verify heads hashPositions matching result found =
      (fun index => if index ∈ found ∧ hits heads hashPositions matching index then heads (hashPositions index)
        else result index, found.filter fun index => !hits heads hashPositions matching index) := by
  induction found generalizing result with
  | nil => simp [verify]
  | cons first found ih =>
    obtain ⟨key,hk⟩ := isSome_iff_exists.mp (hfn first mem_cons_self)
    have hr : ∀ index ∈ found, (heads (hashPositions index)).isSome := fun index hi =>
      hfn index (mem_cons_of_mem _ hi)
    have hh : hits heads hashPositions matching first = matching first key := by rw [hits,hk]; rfl
    rw [verify,hk]
    dsimp only
    cases hm : matching first key with
    | true =>
      rw [if_pos rfl,ih _ hr,filter_cons_of_neg (by simp [hh,hm])]
      congr 1
      funext index
      by_cases hf : index = first
      · subst hf
        simp [hh,hm,hk]
      · simp [hf]
    | false =>
      rw [if_neg Bool.false_ne_true,ih _ hr,filter_cons_of_pos (by simp [hh,hm])]
      congr 1
      funext index
      by_cases hf : index = first
      · subst hf
        simp [hh,hm]
      · simp [hf]

variable {lookup : Fin count → Option (Fin size)}

theorem searchRemaining_eq (result : Fin count → Option (Fin size)) {remaining : List (Fin count)}
    (hl : ∀ index ∈ remaining, search heads (matching index) (succ (hashPositions index)) = .ok (lookup index)) :
    searchRemaining heads hashPositions matching result remaining =
      .ok fun index => if index ∈ remaining ∧ (lookup index).isSome then lookup index else result index := by
  induction remaining generalizing result with
  | nil => simp [searchRemaining]
  | cons first remaining ih =>
    have hr := fun index hi => hl index (mem_cons_of_mem _ hi)
    rw [searchRemaining,hl first mem_cons_self]
    cases hf : lookup first
    all_goals
      refine (ih _ hr).trans (congrArg Except.ok (funext fun index => ?_))
      by_cases hi : index = first
      · subst hi
        simp [hf]
      · simp [hi]

/-- The batch form returns the indexes of the single form. -/
theorem searchAll_eq (hfr : ∃ slot, heads slot = none)
    (hl : ∀ index, search heads (matching index) (hashPositions index) = .ok (lookup index)) :
    searchAll heads hashPositions matching = .ok lookup := by
  have hc : ∀ index, (heads (hashPositions index)).isSome → hits heads hashPositions matching index = false →
      search heads (matching index) (succ (hashPositions index)) = .ok (lookup index) := by
    intro index hu hm
    obtain ⟨key,hk⟩ := isSome_iff_exists.mp hu
    rw [hits,hk,any_some] at hm
    rw [search_succ hfr hk (by simp [hm]),hl]
  have hr : ∀ index ∈ filter (fun index => !hits heads hashPositions matching index)
      (filter (fun index => (heads (hashPositions index)).isSome) (finRange count)),
      search heads (matching index) (succ (hashPositions index)) = .ok (lookup index) := by
    intro index hi
    obtain ⟨hf,hm⟩ := mem_filter.mp hi
    exact hc index (mem_filter.mp hf).2 (by simpa using hm)
  rw [searchAll,verify_eq _ fun index hi => (mem_filter.mp hi).2]
  dsimp only
  rw [searchRemaining_eq _ hr]
  refine congrArg Except.ok (funext fun index => ?_)
  have hs := hl index
  cases hsl : heads (hashPositions index) with
  | none =>
    rw [search_of_free hsl] at hs
    simp [← Except.ok.inj hs]
  | some key =>
    cases hmt : matching index key with
    | true =>
      rw [search_of_matching hsl hmt] at hs
      simp [← Except.ok.inj hs,hsl]
    | false =>
      cases hf : lookup index with
      | none | some found => simp [hits,hsl,hmt]

end Batch

section Steps

theorem flatMap_chunks {α : Type} (items : List α) (chunk rounds : Nat) :
    ((range rounds).flatMap fun step => (items.drop (step * chunk)).take chunk) = items.take (rounds * chunk) := by
  induction rounds with
  | zero => simp
  | succ rounds ih => rw [range_succ,flatMap_append,ih,flatMap_singleton,Nat.succ_mul,take_add]

theorem flatMap_stepPositions (size : Nat) : (steps size).flatMap (stepPositions size) = finRange size := by
  have hc : 0 < positionsInStep size := by
    rw [positionsInStep]
    omega
  refine (flatMap_chunks (finRange size) (positionsInStep size) _).trans (take_of_length_le ?_)
  rw [length_finRange,Nat.mul_comm]
  exact (Nat.lt_mul_div_succ size hc).le

end Steps
end HetuCore.Join
