import HetuCore.DynamicFiltering.FiltersCollectorLaws

namespace HetuCore.DynamicFiltering.FiltersCollector
open List
variable {Column Other : Type} [DecidableEq Column] [DecidableEq Other]

theorem foldl_iff {σ α : Type} {f : σ → α → σ} {good reached : σ → Prop} {brings : α → Prop}
    (hg : ∀ s a, good s → good (f s a)) (hst : ∀ s a, good s → (reached (f s a) ↔ reached s ∨ brings a)) (items : List α)
    {s : σ} (hs : good s) : reached (items.foldl f s) ↔ reached s ∨ ∃ a ∈ items, brings a := by
  induction items generalizing s with
  | nil => simp
  | cons a items ih => rw [foldl_cons,ih (hg s a hs),hst s a hs,exists_mem_cons_iff,or_assoc]

variable {cached : AList fun _ : String => DynamicFilter Other}

section
variable (c : Collector Other) (call : Call Column Other) (dj : List Descriptor)

variable (state : (AList fun _ : String => DynamicFilter Other) × FilterMap Column Other)

/-- Only filters with values are cached. -/
def Within : Prop :=
  ∀ id, c.predicates.lookup id = none → state.1.lookup id = none

def Filled : Prop := state.2.entries ≠ []

/-- There are values or a global filter for the id. -/
def Available (id : String) : Prop := c.predicates.lookup id ≠ none ∨ call.globalFilters id ≠ none

omit [DecidableEq Other] in
theorem filled_insert (cached : AList fun _ : String => DynamicFilter Other) (result : FilterMap Column Other) (column : Column)
    (f : DynamicFilter Other) : Filled (cached,result.insert column f) := by
  exact cons_ne_nil _ _

variable {c call dj}

theorem visitId_within (column : Column) (state : (AList fun _ : String => DynamicFilter Other) × FilterMap Column Other) (id : String)
    (h : Within c state) : Within c (visitId c call dj column state id) := by
  rw [visitId]
  split
  · split <;> exact h
  · split
    · exact h
    · rename_i valueSet hv
      intro other ho
      have hne : other ≠ id := by
        rintro rfl
        cases ho.symm.trans hv
      exact (AList.lookup_insert_ne hne).trans (h other ho)

theorem visitId_filled (column : Column) (state : (AList fun _ : String => DynamicFilter Other) × FilterMap Column Other) (id : String)
    (h : Within c state) :
    Filled (visitId c call dj column state id) ↔ Filled state ∨ Available c call id := by
  rw [visitId]
  split
  · rename_i f hf
    have ha : Available c call id := by
      by_contra hn
      obtain ⟨hv,hg⟩ := not_or.mp hn
      rw [cachedFilter,h id (not_not.mp hv)] at hf
      exact hg (by simp [show call.globalFilters id = some f from hf])
    split <;> exact iff_of_true (filled_insert _ _ _ _) (.inr ha)
  · rename_i hn
    split
    · rename_i hv
      refine ⟨.inl,fun hfl => hfl.resolve_right ?_⟩
      rw [cachedFilter,h id hv] at hn
      exact not_or.mpr ⟨not_not.mpr hv,not_not.mpr hn⟩
    · rename_i valueSet hv
      exact iff_of_true (filled_insert _ _ _ _) (.inr (.inl (by simp [hv])))

variable (state : (AList fun _ : String => DynamicFilter Other) × FilterMap Column Other) (entry : String × Column)

theorem visitColumn_within (h : Within c state) :
    Within c (visitColumn c call dj state entry) :=
  foldlRecOn _ _ h fun state hs id _ => visitId_within entry.2 state id hs

theorem visitColumn_filled (h : Within c state) : Filled (visitColumn c call dj state entry) ↔
      Filled state ∨ ∃ d ∈ dj, d.input = entry.1 ∧ Available c call d.id := by
  rw [visitColumn,foldl_iff (visitId_within entry.2) (visitId_filled entry.2) _ h]
  refine or_congr_right ⟨?_,?_⟩
  · rintro ⟨id,hid,ha⟩
    obtain ⟨d,hd,rfl⟩ := mem_map.mp hid
    obtain ⟨hd,hi⟩ := mem_filter.mp hd
    exact ⟨d,hd,of_decide_eq_true hi,ha⟩
  · rintro ⟨d,hd,hi,ha⟩
    exact ⟨d.id,mem_map_of_mem (mem_filter.mpr ⟨hd,decide_eq_true hi⟩),ha⟩

theorem visitDisjunct_filled (h : @Within Column Other c (cached,∅)) :
    (visitDisjunct c call dj cached).2.entries ≠ [] ↔ HasFilter c call dj := by
  refine (foldl_iff visitColumn_within visitColumn_filled call.assignments h).trans ?_
  rw [or_iff_right (by simp [Filled])]
  constructor
  · rintro ⟨entry,he,d,hd,hi,ha⟩
    exact ⟨d,hd,entry.2,by rwa [hi],ha⟩
  · rintro ⟨d,hd,column,hc,ha⟩
    exact ⟨_,hc,d,hd,rfl,ha⟩

end

section
variable {H : BloomHash} {c : Collector Other} {call : Call Column Other} {ds : List (List Descriptor)}

omit [DecidableEq Column] [DecidableEq Other] in
theorem Cached.within (h : Cached ds c.predicates cached)
    (result : FilterMap Column Other) : Within c (cached,result) := by
  intro id hid
  cases hl : cached.lookup id with
  | none => rfl
  | some f => exact absurd hid (h id f hl).1

/-- What the disjuncts give. Every disjunct with a filter has a map that accepts what it accepts, and there are
as many maps as disjuncts only if all have a filter. -/
structure Result (H : BloomHash) (c : Collector Other) (call : Call Column Other) (disjuncts : List (List Descriptor))
    (resultList : List (FilterMap Column Other)) : Prop where
  accepts : ∀ dj ∈ disjuncts, HasFilter c call dj → ∃ result ∈ resultList,
    ∀ row, (∀ d ∈ dj, DescriptorAccepts H c call row d) → Passes H result row
  nil : (∀ dj ∈ disjuncts, ¬ HasFilter c call dj) → resultList = []
  le : resultList.length ≤ disjuncts.length
  all : resultList.length = disjuncts.length → ∀ dj ∈ disjuncts, HasFilter c call dj

theorem visitDisjuncts_spec (H : BloomHash) (call : Call Column Other) (hcn : Consistent ds)
    {disjuncts : List (List Descriptor)} (hd : ∀ dj ∈ disjuncts, dj ∈ ds)
    (hc : Cached ds c.predicates cached) :
    Cached ds c.predicates (visitDisjuncts c call cached disjuncts).1 ∧
      Result H c call disjuncts (visitDisjuncts c call cached disjuncts).2 := by
  induction disjuncts generalizing cached with
  | nil => exact ⟨hc,⟨by simp,fun _ => rfl,le_rfl,by simp⟩⟩
  | cons dj disjuncts ih =>
    obtain ⟨hds,hd⟩ := forall_mem_cons.mp hd
    have hg : ∀ row, Good H c call ds dj row (visitDisjunct c call dj cached) :=
      fun _ => visitDisjunct_good hcn hds hc
    have hfl : (visitDisjunct c call dj cached).2.entries ≠ [] ↔ HasFilter c call dj :=
      visitDisjunct_filled (hc.within ∅)
    obtain ⟨hrs,ha,hnl,hle,hal⟩ := ih hd (hg fun _ => none).1
    refine ⟨hrs,?_⟩
    change Result H c call _ (if (visitDisjunct c call dj cached).2.entries.isEmpty then _ else _)
    by_cases hf : HasFilter c call dj
    · rw [if_neg (by simpa using hfl.mpr hf)]
      refine ⟨forall_mem_cons.mpr ⟨fun _ => ?_,fun other ho hf => ?_⟩,fun hn => ?_,?_,fun hl => ?_⟩
      · exact ⟨_,mem_cons_self,fun row => (hg row).2⟩
      · obtain ⟨result,hr,hp⟩ := ha other ho hf
        exact ⟨result,mem_cons_of_mem _ hr,hp⟩
      · exact absurd hf (hn dj mem_cons_self)
      · exact Nat.succ_le_succ hle
      · exact forall_mem_cons.mpr ⟨hf,hal (Nat.succ.inj hl)⟩
    · rw [if_pos (by simpa using hfl.not.mpr hf)]
      refine ⟨forall_mem_cons.mpr ⟨fun h => absurd h hf,ha⟩,fun hn => ?_,?_,fun hl => ?_⟩
      · exact hnl fun other ho => hn other (mem_cons_of_mem _ ho)
      · exact hle.trans (Nat.le_succ _)
      · exact absurd hl (Nat.ne_of_lt (Nat.lt_succ_of_le hle))

omit [DecidableEq Column] in
theorem intersectDynamicFilter_cached (hc : Cached ds c.predicates c.cachedDynamicFilters)
    (predicate : List (String × Finset (NativeValue Other))) :
    Cached ds (intersectDynamicFilter c predicate).predicates
      (intersectDynamicFilter c predicate).cachedDynamicFilters := by
  refine foldlRecOn (motive := fun predicates => Cached ds predicates c.cachedDynamicFilters) _ _ hc
    fun predicates h entry _ id f hf => ?_
  refine ⟨?_,(h id f hf).2⟩
  have hv := (h id f hf).1
  rw [intersectEntry]
  by_cases hid : id = entry.1
  · subst hid
    split <;> simp
  · split <;> rwa [AList.lookup_insert_ne hid]

variable (c ds) in
theorem getDynamicFilters_eq (call : Call Column Other) {cached : AList fun _ : String => DynamicFilter Other}
    {resultList : List (FilterMap Column Other)}
    (h : visitDisjuncts c call c.cachedDynamicFilters ds = (cached,resultList)) :
    getDynamicFilters ds c call = ({ c with cachedDynamicFilters := cached },
      if call.crossRegion ∨ resultList.length = ds.length then resultList else []) := by
  rw [getDynamicFilters]
  grind

theorem run_cached (hc : Consistent ds) (actions : List (Action Column Other)) :
    Cached ds (run ds actions).predicates (run ds actions).cachedDynamicFilters := by
  refine foldlRecOn (motive := fun c : Collector Other =>
    Cached ds c.predicates c.cachedDynamicFilters) _ _ ?_ fun c hcc action _ => ?_
  · intro id f hf
    cases hf
  cases action with
  | intersect predicate => exact intersectDynamicFilter_cached hcc predicate
  | get call =>
    have hs := (visitDisjuncts_spec ⟨fun _ => 0,fun _ => 0⟩ call hc (fun _ h => h) hcc).1
    rw [step,getDynamicFilters_eq c ds call rfl]
    exact hs

/-- If each filter has one comparison, then after every history a call across no regions, or one for which all
disjuncts or none have a filter, gives a list that accepts every row of the whole disjunction. -/
theorem getDynamicFilters_sound (H : BloomHash) (hconsistent : Consistent ds) (actions : List (Action Column Other))
    (call : Call Column Other)
    (hregion : call.crossRegion = true → (∀ dj ∈ ds, HasFilter (run ds actions) call dj) ∨
      ∀ dj ∈ ds, ¬ HasFilter (run ds actions) call dj)
    (row : Row Column Other) (hfull : FullAccepts H (run ds actions) call ds row) :
    Accepts H (getDynamicFilters ds (run ds actions) call).2 row := by
  obtain ⟨dj,hd,ha⟩ := hfull
  obtain ⟨-,hr⟩ := visitDisjuncts_spec H call hconsistent (fun _ h => h) (run_cached hconsistent actions)
  have hal : (∀ dj ∈ ds, HasFilter (run ds actions) call dj) → Accepts H
      (visitDisjuncts (run ds actions) call (run ds actions).cachedDynamicFilters ds).2 row := by
    intro hf
    obtain ⟨result,hm,hp⟩ := hr.accepts dj hd (hf dj hd)
    exact .inr ⟨result,hm,hp row ha⟩
  rw [getDynamicFilters_eq _ _ call rfl]
  split
  · rename_i hu
    obtain hc | hl := hu
    · rcases hregion hc with hf | hn
      · exact hal hf
      · exact .inl (hr.nil hn)
    · exact hal (hr.all hl)
  · exact .inl rfl

end

namespace CrossRegion

def hash : BloomHash := ⟨fun _ => 0,fun _ => 0⟩

def disjuncts : List (List Descriptor) := [[⟨"f","a",none⟩],[⟨"g","b",none⟩]]

def history : List (Action String Empty) := [.intersect [("f",{.long 1})]]

def scan (crossRegion : Bool) : Call String Empty := ⟨[("a","a"),("b","b")],fun _ => none,crossRegion⟩

def row : Row String Empty := fun _ => some (.long 2)

theorem fullAccepts (crossRegion : Bool) : FullAccepts hash (run disjuncts history) (scan crossRegion) disjuncts row := by
  refine ⟨[⟨"g","b",none⟩],by simp [disjuncts],fun d hd column _ => ?_⟩
  obtain rfl := mem_singleton.mp hd
  refine ⟨fun valueSet hv => ?_,fun f hf => ?_⟩
  · cases hv
  · cases hf

/-- Within a region the missing disjunct turns the filters off. -/
theorem getDynamicFilters_sound_scan : Accepts hash (getDynamicFilters disjuncts (run disjuncts history) (scan false)).2 row :=
  getDynamicFilters_sound hash (by unfold Consistent; decide) history (scan false) (fun hc => by cases hc) row
    (fullAccepts false)

/-- Across regions the missing disjunct is left out, and its rows are lost. -/
theorem getDynamicFilters_loses : FullAccepts hash (run disjuncts history) (scan true) disjuncts row ∧
    ¬ Accepts hash (getDynamicFilters disjuncts (run disjuncts history) (scan true)).2 row := by
  refine ⟨fullAccepts true,?_⟩
  rintro (hn | ⟨result,hr,hp⟩)
  · cases hn
  · obtain rfl := mem_singleton.mp hr
    cases hp "a" _ rfl

end CrossRegion

namespace OneComparison
open CrossRegion (hash)

/-- Values of `a` below one of `f`, or values of `a` above one of `f`. -/
def disjuncts : List (List Descriptor) :=
  [[⟨"f","a",some (.comparison .lessThan true)⟩],[⟨"f","a",some (.comparison .greaterThan true)⟩]]

def history : List (Action String Empty) := [.intersect [("f",{.long 1})]]

def scan : Call String Empty := ⟨[("a","a")],fun _ => none,false⟩

def row : Row String Empty := fun _ => some (.long 2)

/-- The filter of the first disjunct is also used for the second. -/
theorem getDynamicFilters_reuses : FullAccepts hash (run disjuncts history) scan disjuncts row ∧
    ¬ Accepts hash (getDynamicFilters disjuncts (run disjuncts history) scan).2 row := by
  constructor
  · refine ⟨_,mem_cons_of_mem _ mem_cons_self,fun d hd column _ => ?_⟩
    obtain rfl := mem_singleton.mp hd
    refine ⟨fun valueSet hv => ?_,fun f hf => by cases hf⟩
    cases hv
    rfl
  · rintro (hn | ⟨result,hr,hp⟩)
    · cases hn
    · rcases mem_cons.mp hr with rfl | hr
      · cases hp "a" _ rfl
      · obtain rfl := mem_singleton.mp hr
        cases hp "a" _ rfl

end OneComparison
end HetuCore.DynamicFiltering.FiltersCollector
