import HetuCore.DynamicFiltering.FiltersCollector

namespace HetuCore.DynamicFiltering.FiltersCollector
open Foundation List Option
variable {Column Other : Type} [DecidableEq Column] [DecidableEq Other] (ds : List (List Descriptor))

/-- A filter has one comparison, wherever it stands. -/
def Consistent : Prop :=
  ∀ d₁ ∈ ds.flatten, ∀ d₂ ∈ ds.flatten, d₁.id = d₂.id →
    createDynamicFilterPredicate d₁.filter = createDynamicFilterPredicate d₂.filter

/-- The filter is a hash set with this comparison. -/
def HasPredicate (predicate : Option Comparison) : DynamicFilter Other → Prop
  | .hashSet _ _ _ _ => predicate = none
  | .filtered _ _ filter _ _ => predicate = filter
  | _ => False

theorem create_spec (filterId : String) (valueSet : Finset (NativeValue Other)) (predicate : Option Comparison) :
    HasPredicate predicate (create filterId valueSet predicate) ∧
      share valueSet (create filterId valueSet predicate) = create filterId valueSet predicate := by
  cases predicate with
  | none | some comparison =>
    rw [create,DynamicFilter.setMinMax]
    split <;> exact ⟨rfl,rfl⟩

theorem contains_share (H : BloomHash) {predicate : Option Comparison} {f g : DynamicFilter Other} (hf : HasPredicate predicate f)
    (hg : HasPredicate predicate g) (valueSet : Finset (NativeValue Other)) (value : Option (NativeValue Other)) :
    (share valueSet f).contains H value = (share valueSet g).contains H value := by
  cases f with
  | hashSet id set min max =>
    cases g with
    | hashSet id' set' min' max' => rfl
    | filtered id' set' filter' min' max' =>
      obtain rfl : none = filter' := hf.symm.trans hg
      rfl
    | _ => exact hg.elim
  | filtered id set filter min max =>
    cases g with
    | hashSet id' set' min' max' =>
      obtain rfl : none = filter := hg.symm.trans hf
      rfl
    | filtered id' set' filter' min' max' =>
      obtain rfl : filter = filter' := hf.symm.trans hg
      cases filter <;> rfl
    | _ => exact hg.elim
  | _ => exact hf.elim

theorem getFilter_cases (dj : List Descriptor) (id : String) :
    getFilter dj id = none ∧ (∀ d ∈ dj, d.id = id → d.filter = none) ∨
      ∃ d ∈ dj, d.id = id ∧ getFilter dj id = d.filter := by
  induction dj using reverseRecOn with
  | nil => exact .inl ⟨rfl,by simp⟩
  | append_singleton dj d ih =>
    have hl : getFilter (dj ++ [d]) id =
        if d.id = id ∧ d.filter.isSome then d.filter else getFilter dj id := foldl_concat ..
    rw [hl]
    split
    · rename_i hd
      exact .inr ⟨d,by simp,hd.1,rfl⟩
    · rename_i hd
      rcases ih with ⟨hn,ha⟩ | ⟨d',hd',hid,heq⟩
      · refine .inl ⟨hn,fun other ho hid => ?_⟩
        rcases mem_append.mp ho with ho | ho
        · exact ha other ho hid
        · obtain rfl := mem_singleton.mp ho
          exact not_isSome_iff_eq_none.mp fun hs => hd ⟨hid,hs⟩
      · exact .inr ⟨d',mem_append_left _ hd',hid,heq⟩

variable {d : Descriptor}

/-- The expression of a filter in a disjunct has the comparison of its descriptors. -/
theorem predicate_getFilter {ds : List (List Descriptor)} (h : Consistent ds) {dj : List Descriptor}
    (hdisjunct : dj ∈ ds) (hd : d ∈ dj) :
    createDynamicFilterPredicate (getFilter dj d.id) = createDynamicFilterPredicate d.filter := by
  rcases getFilter_cases dj d.id with ⟨hn,ha⟩ | ⟨d',hd',hid,heq⟩
  · rw [hn,ha d hd rfl]
  · rw [heq]
    exact h d' (mem_flatten.mpr ⟨dj,hdisjunct,hd'⟩) d (mem_flatten.mpr ⟨dj,hdisjunct,hd⟩) hid

/-- Every cached filter has values and the comparison of its descriptors. -/
def Cached (predicates : AList fun _ : String => Finset (NativeValue Other))
    (cached : AList fun _ : String => DynamicFilter Other) : Prop :=
  ∀ id f, cached.lookup id = some f → predicates.lookup id ≠ none ∧
    ∀ d ∈ ds.flatten, d.id = id → HasPredicate (createDynamicFilterPredicate d.filter) f

section
variable (H : BloomHash) (col : Collector Other) (call : Call Column Other)

/-- The row passes the filters that there are for a descriptor: the one made of the values of this task with
the comparison of the descriptor, and the global one. -/
def DescriptorAccepts (row : Row Column Other) (d : Descriptor) : Prop :=
  ∀ column, (d.input,column) ∈ call.assignments → (∀ valueSet, col.predicates.lookup d.id = some valueSet →
      (create d.id valueSet (createDynamicFilterPredicate d.filter)).contains H (row column) = .ok true) ∧
    ∀ f, call.globalFilters d.id = some f → f.contains H (row column) = .ok true

/-- The row passes the filters of some disjunct, where a filter that is not there accepts everything. -/
def FullAccepts (ds : List (List Descriptor)) (row : Row Column Other) : Prop :=
  ∃ dj ∈ ds, ∀ d ∈ dj, DescriptorAccepts H col call row d

def Passes (result : FilterMap Column Other) (row : Row Column Other) : Prop :=
  ∀ column f, result.lookup column = some f → f.contains H (row column) = .ok true

/-- The row passes some map; an empty list does not filter. -/
def Accepts (resultList : List (FilterMap Column Other)) (row : Row Column Other) : Prop :=
  resultList = [] ∨ ∃ result ∈ resultList, Passes H result row

/-- Some filter of the disjunct is there for a column of the scan. -/
def HasFilter (dj : List Descriptor) : Prop :=
  ∃ d ∈ dj, ∃ column, (d.input,column) ∈ call.assignments ∧
    (col.predicates.lookup d.id ≠ none ∨ call.globalFilters d.id ≠ none)

variable {H col call} {ds : List (List Descriptor)} {dj : List Descriptor} {row : Row Column Other}

variable {column : Column} {f : DynamicFilter Other} {cached : AList fun _ : String => DynamicFilter Other}
  {state : (AList fun _ : String => DynamicFilter Other) × FilterMap Column Other}

theorem Passes.insert {result : FilterMap Column Other} (h : Passes H result row)
    (hf : f.contains H (row column) = .ok true) : Passes H (result.insert column f) row := by
  intro other g hg
  by_cases ho : other = column
  · subst ho
    rw [AList.lookup_insert] at hg
    cases hg
    exact hf
  · rw [AList.lookup_insert_ne ho] at hg
    exact h other g hg

omit [DecidableEq Column] in
/-- A cached filter accepts what its descriptors accept. -/
theorem cachedFilter_sound (hcc : Cached ds col.predicates cached)
    (hd : d ∈ ds.flatten) (hc : (d.input,column) ∈ call.assignments)
    (hf : cachedFilter col call cached d.id = some f) (ha : DescriptorAccepts H col call row d) :
    f.contains H (row column) = .ok true := by
  rw [cachedFilter] at hf
  split at hf
  · rename_i filter hl
    obtain ⟨hvl,hp⟩ := hcc d.id filter hl
    obtain ⟨valueSet,hv⟩ := ne_none_iff_exists'.mp hvl
    cases hf
    obtain ⟨hcr,hs⟩ := create_spec d.id valueSet (createDynamicFilterPredicate d.filter)
    rw [hv,getD_some,contains_share H (hp d hd rfl) hcr,hs]
    exact (ha column hc).1 valueSet hv
  · exact (ha column hc).2 f hf

variable (H col call ds dj row)

/-- The cache is right, and the filters of the map accept what the descriptors of the disjunct accept. -/
def Good (state : (AList fun _ : String => DynamicFilter Other) × FilterMap Column Other) : Prop :=
  Cached ds col.predicates state.1 ∧
    ((∀ d ∈ dj, DescriptorAccepts H col call row d) → Passes H state.2 row)

variable {H col call ds dj row} (hcs : Consistent ds)
  (hdisjunct : dj ∈ ds)
include hcs hdisjunct

theorem visitId_good (hd : d ∈ dj) (hcl : (d.input,column) ∈ call.assignments)
    (h : Good H col call ds dj row state) :
    Good H col call ds dj row (visitId col call dj column state d.id) := by
  have hfl : d ∈ ds.flatten := mem_flatten.mpr ⟨dj,hdisjunct,hd⟩
  obtain ⟨hc,hp⟩ := h
  rw [visitId]
  split
  · rename_i cachedDynamicFilter hcf
    have hcn : (∀ d ∈ dj, DescriptorAccepts H col call row d) →
        cachedDynamicFilter.contains H (row column) = .ok true :=
      fun ha => cachedFilter_sound hc hfl hcl hcf (ha d hd)
    split
    · exact ⟨hc,fun ha => (hp ha).insert (hcn ha)⟩
    · rename_i dynamicFilter hl
      refine ⟨hc,fun ha => (hp ha).insert ?_⟩
      rw [DynamicFilter.contains,hp ha column dynamicFilter hl]
      exact hcn ha
  · split
    · exact ⟨hc,hp⟩
    · rename_i valueSet hv
      rw [predicate_getFilter hcs hdisjunct hd]
      refine ⟨fun id f hf => ?_,fun ha => (hp ha).insert ((ha d hd column hcl).1 valueSet hv)⟩
      by_cases hid : id = d.id
      · subst hid
        rw [AList.lookup_insert] at hf
        cases hf
        refine ⟨by simp [hv],fun d' hd' hid => ?_⟩
        rw [hcs d' hd' d hfl hid]
        exact (create_spec _ _ _).1
      · rw [AList.lookup_insert_ne hid] at hf
        exact hc id f hf

theorem visitColumn_good {entry : String × Column} (he : entry ∈ call.assignments)
    (h : Good H col call ds dj row state) :
    Good H col call ds dj row (visitColumn col call dj state entry) := by
  refine foldlRecOn _ _ h fun state hs id hid => ?_
  obtain ⟨d,hd,rfl⟩ := mem_map.mp hid
  obtain ⟨hd,hi⟩ := mem_filter.mp hd
  exact visitId_good hcs hdisjunct hd (by rwa [of_decide_eq_true hi]) hs

theorem visitDisjunct_good (hc : Cached ds col.predicates cached) :
    Good H col call ds dj row (visitDisjunct col call dj cached) := by
  refine foldlRecOn _ _ ⟨hc,fun _ column f hf => ?_⟩ fun state hs entry he => ?_
  · cases hf
  · exact visitColumn_good hcs hdisjunct he hs

end

end HetuCore.DynamicFiltering.FiltersCollector
