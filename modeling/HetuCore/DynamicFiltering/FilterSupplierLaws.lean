import HetuCore.DynamicFiltering.FilterSupplier

namespace HetuCore.DynamicFiltering.FilterSupplier
open Foundation List
variable {Column Other : Type} (H : BloomHash)

section
variable [DecidableEq Other]

def Passes (filters : List (Column × DynamicFilter Other)) (row : Row Column Other) : Prop :=
  ∀ entry ∈ filters, entry.2.contains H (row entry.1) = .ok true

/-- The row passes some set; an empty list does not filter. -/
def Accepts (sets : List (List (Column × DynamicFilter Other))) (row : Row Column Other) : Prop :=
  sets = [] ∨ ∃ set ∈ sets, Passes H set row

end

variable (cols : String → Option Column)
  (cache : Option (AList fun _ : String => DynamicFilter Other))

def present (ds : List Descriptor) : List (Column × DynamicFilter Other) :=
  ds.filterMap fun descriptor => do
    let df ← (← cache).lookup descriptor.id
    pure (← cols descriptor.input,df)

/-- The row passes the filters of some disjunct, where a filter that is not there accepts everything. -/
def FullAccepts [DecidableEq Other] (dfs : List (List Descriptor)) (row : Row Column Other) : Prop :=
  ∃ ds ∈ dfs, Passes H (present cols cache ds) row

/-- No filter is twice in a disjunct, and all columns are known. -/
def Valid (dfs : List (List Descriptor)) : Prop :=
  ∀ ds ∈ dfs, (ds.map Descriptor.id).Nodup ∧
    ∀ descriptor ∈ ds, cols descriptor.input ≠ none

variable {cols cache}

variable {ds : List Descriptor} {handles : List (String × Column)} {dfs : List (List Descriptor)}

theorem lookup_mapM (hn : (ds.map Descriptor.id).Nodup)
    (h : (ds.map fun descriptor => (descriptor.id,descriptor.input)).mapM (handleOf cols) = .ok handles) :
    ∀ d ∈ ds, handles.lookup d.id = cols d.input ∧ cols d.input ≠ none := by
  induction ds generalizing handles with
  | nil => simp
  | cons d ds ih =>
    rw [map_cons,mapM_cons] at h
    obtain ⟨first,hf,h⟩ := bind_ok h
    obtain ⟨rest,hr,h⟩ := bind_ok h
    cases h
    obtain ⟨hd,hn⟩ := nodup_cons.mp hn
    rw [handleOf] at hf
    split at hf
    · rename_i column hc
      cases hf
      refine forall_mem_cons.mpr ⟨⟨?_,by simp [hc]⟩,fun other ho => ?_⟩
      · rw [lookup_cons_self,hc]
      · have hne : (other.id == d.id) = false := by
          refine beq_eq_false_iff_ne.mpr fun heq => hd (heq ▸ mem_map_of_mem ho)
        rw [lookup_cons,hne]
        exact ih hn hr other ho
    · cases hf

theorem sourceColumnHandles_ok (h : sourceColumnHandles cols ds = .ok handles) :
    (ds.map Descriptor.id).Nodup ∧
      ∀ d ∈ ds, handles.lookup d.id = cols d.input ∧ cols d.input ≠ none := by
  obtain ⟨symbols,hs,h⟩ := bind_ok h
  rw [extractSourceExpressionSymbols] at hs
  split at hs
  · rename_i hn
    cases hs
    exact ⟨hn,lookup_mapM hn h⟩
  · cases hs

theorem exists_sourceColumnHandles (hn : (ds.map Descriptor.id).Nodup)
    (hc : ∀ descriptor ∈ ds, cols descriptor.input ≠ none) :
    ∃ handles, sourceColumnHandles cols ds = .ok handles := by
  rw [sourceColumnHandles,extractSourceExpressionSymbols,if_pos hn]
  cases h : (ds.map fun descriptor => (descriptor.id,descriptor.input)).mapM (handleOf cols) with
  | ok handles => exact ⟨handles,h⟩
  | error exception =>
    obtain ⟨entry,he,hf⟩ := mapM_error h
    obtain ⟨d,hd,rfl⟩ := mem_map.mp he
    rw [handleOf] at hf
    split at hf
    · cases hf
    · rename_i hnn
      exact absurd hnn (hc d hd)

section
variable (h : sourceColumnHandles cols ds = .ok handles)
include h

theorem availableFilters_eq (cached : AList fun _ : String => DynamicFilter Other) :
    availableFilters handles cached ds = present cols (some cached) ds := by
  refine filterMap_congr fun d hd => ?_
  rw [((sourceColumnHandles_ok h).2 d hd).1]
  rfl

theorem present_eq_nil
    {cached : AList fun _ : String => DynamicFilter Other} (he : (handles.isEmpty || cached.entries.isEmpty) = true) :
    present cols (some cached) ds = [] := by
  refine filterMap_eq_nil_iff.mpr fun d hd => ?_
  obtain ⟨hl,hc⟩ := (sourceColumnHandles_ok h).2 d hd
  rcases Bool.or_eq_true_iff.mp he with he | he
  · rw [isEmpty_iff.mp he] at hl
    exact absurd hl.symm hc
  · have hn : cached.lookup d.id = none := by
      rw [AList.lookup,isEmpty_iff.mp he]
      rfl
    show (cached.lookup d.id).bind _ = none
    rw [hn]
    rfl

end

theorem supply_eq {ha : List (List (String × Column))}
    (h : dfs.mapM (sourceColumnHandles cols) = .ok ha) :
    supply cache (dfs.zip ha) =
      (dfs.map (present cols cache)).filter fun set => !set.isEmpty := by
  induction dfs generalizing ha with
  | nil =>
    rfl
  | cons ds dfs ih =>
    rw [mapM_cons] at h
    obtain ⟨handles,hh,h⟩ := bind_ok h
    obtain ⟨rest,hr,h⟩ := bind_ok h
    cases h
    rw [zip_cons_cons,map_cons,filter_cons,← ih hr]
    cases cache with
    | none =>
      have hn : @present Column Other cols none ds = [] := filterMap_eq_nil_iff.mpr fun _ _ => rfl
      rw [hn]
      rfl
    | some cached =>
      rw [supply]
      split
      · rename_i he
        rw [present_eq_nil hh he]
        rfl
      · rw [availableFilters_eq hh]
        cases hp : present cols (some cached) ds <;> rfl

theorem exists_supplier_iff (dfs : List (List Descriptor)) :
    (∃ supplier, @getDynamicFilterSupplier Column Other dfs cols = .ok supplier) ↔
      Valid cols dfs := by
  rw [getDynamicFilterSupplier]
  constructor
  · rintro ⟨supplier,h⟩ ds hds
    obtain ⟨ha,hh,-⟩ := bind_ok h
    obtain ⟨handles,-,hok⟩ := (mapM_ok hh).1 ds hds
    exact (sourceColumnHandles_ok hok).imp_right fun hal d hd => (hal d hd).2
  · intro hv
    cases h : dfs.mapM (sourceColumnHandles cols) with
    | ok ha => exact ⟨_,rfl⟩
    | error exception =>
      obtain ⟨ds,hds,hf⟩ := mapM_error h
      obtain ⟨handles,hok⟩ := exists_sourceColumnHandles (hv ds hds).1 (hv ds hds).2
      cases hf.symm.trans hok

theorem supplier_eq
    {supplier : Option (AList fun _ : String => DynamicFilter Other) → List (List (Column × DynamicFilter Other))}
    (h : getDynamicFilterSupplier dfs cols = .ok supplier) : supplier cache =
      (dfs.map (present cols cache)).filter fun set => !set.isEmpty := by
  obtain ⟨ha,hh,h⟩ := bind_ok h
  cases h
  exact supply_eq hh

theorem mem_supplied (h : ds ∈ dfs) (hne : present cols cache ds ≠ []) :
    present cols cache ds ∈
      (dfs.map (present cols cache)).filter fun set => !set.isEmpty :=
  mem_filter.mpr ⟨mem_map_of_mem h,by simpa using hne⟩

variable [DecidableEq Other] (cols cache)

/-- The list of a supplier accepts every row of the whole disjunction exactly if, as soon as some disjunct has no
filter that is there while another has one, every row passes the filters of one of the latter. -/
theorem getDynamicFilterSupplier_sound_iff (dfs : List (List Descriptor)) :
    (∀ supplier, getDynamicFilterSupplier dfs cols = .ok supplier → ∀ row,
      FullAccepts H cols cache dfs row → Accepts H (supplier cache) row) ↔
    (Valid cols dfs →
      (∃ ds ∈ dfs, present cols cache ds = []) →
      (∃ ds ∈ dfs, present cols cache ds ≠ []) → ∀ row,
        ∃ ds ∈ dfs, present cols cache ds ≠ [] ∧
          Passes H (present cols cache ds) row) := by
  constructor
  · rintro hsn hv ⟨missing,hm,hn⟩ ⟨some,hsm,hne⟩ row
    obtain ⟨supplier,hs⟩ := (exists_supplier_iff dfs).mpr hv
    have hf : FullAccepts H cols cache dfs row :=
      ⟨missing,hm,by rw [hn]; simp [Passes]⟩
    have ha := hsn supplier hs row hf
    rw [supplier_eq hs] at ha
    rcases ha with he | ⟨set,hst,hp⟩
    · exact absurd (mem_supplied hsm hne) (he ▸ not_mem_nil)
    · obtain ⟨hst,hne⟩ := mem_filter.mp hst
      obtain ⟨ds,hd,rfl⟩ := mem_map.mp hst
      exact ⟨ds,hd,by simpa using hne,hp⟩
  · intro hc supplier hs row hf
    rw [supplier_eq hs]
    obtain ⟨ds,hd,hp⟩ := hf
    by_cases hn : present cols cache ds = []
    · by_cases hsm : ∃ ds ∈ dfs, present cols cache ds ≠ []
      · have hv := (exists_supplier_iff dfs).mp ⟨supplier,hs⟩
        obtain ⟨other,ho,hne,hp⟩ := hc hv ⟨ds,hd,hn⟩ hsm row
        exact .inr ⟨_,mem_supplied ho hne,hp⟩
      · refine .inl (eq_nil_iff_forall_not_mem.mpr fun set hst => hsm ?_)
        obtain ⟨hst,hne⟩ := mem_filter.mp hst
        obtain ⟨other,ho,rfl⟩ := mem_map.mp hst
        exact ⟨other,ho,by simpa using hne⟩
    · exact .inr ⟨_,mem_supplied hd hn,hp⟩

namespace MissingDisjunct

def hash : BloomHash := ⟨fun _ => 0,fun _ => 0⟩

def disjuncts : List (List Descriptor) := [[⟨"f","a",none⟩],[⟨"g","b",none⟩]]

def cached : AList fun _ : String => DynamicFilter Empty := AList.singleton "f" (.hashSet "f" {.long 1} none none)

def supplied : List (List (String × DynamicFilter Empty)) := [[("a",.hashSet "f" {.long 1} none none)]]

def row : Row String Empty := fun _ => some (.long 2)

/-- The supplied list rejects a row that the missing filter could have accepted. -/
theorem getDynamicFilterSupplier_loses :
    (∃ supplier, getDynamicFilterSupplier disjuncts some = .ok supplier ∧ supplier (some cached) = supplied) ∧
      FullAccepts hash some (some cached) disjuncts row ∧ ¬ Accepts hash supplied row := by
  refine ⟨⟨_,rfl,rfl⟩,⟨_,mem_cons_of_mem _ mem_cons_self,?_⟩,?_⟩
  · exact nofun
  · rintro (hn | ⟨set,hs,hp⟩)
    · cases hn
    · obtain rfl := mem_singleton.mp hs
      cases hp _ mem_cons_self

end MissingDisjunct

end HetuCore.DynamicFiltering.FilterSupplier
