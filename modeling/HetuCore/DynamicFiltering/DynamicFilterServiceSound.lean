import HetuCore.DynamicFiltering.DynamicFilterService

namespace HetuCore.DynamicFiltering
open HeuristicIndex (BloomFilter)
open Foundation DynamicFilter List Function

variable {Key Task Other : Type}

variable (H : BloomHash) (setup : FilterSetup Key Task Other)

/-- The objects that a Bloom filter can be asked for. -/
def NativeValue.Hashed : NativeValue Other → Prop
  | .other _ => False
  | _ => True

def PartialFilter.Covers : PartialFilter Other → NativeValue Other → Prop
  | .bloom filter, value => value.Hashed ∧ ∀ position ∈ filter.positions (H.code (setup.entry value)), position ∈ filter.bitSet
  | .values valueSet, value => value ∈ valueSet

/-- The columns of Bloom filters are those whose values they can be asked for. -/
def FilterSetup.Hashes : Prop :=
  ∀ key task, ∀ value ∈ setup.values key task, setup.dataType key = .bloomFilter → value.Hashed

theorem createBloomFilterFromSet_spec (filter : BloomFilter) (values : List (NativeValue Other)) :
    (setup.createBloomFilterFromSet H filter values).positions = filter.positions ∧
    filter.bitSet ⊆ (setup.createBloomFilterFromSet H filter values).bitSet ∧
    ∀ value ∈ values, ∀ position ∈ filter.positions (H.code (setup.entry value)),
      position ∈ (setup.createBloomFilterFromSet H filter values).bitSet := by
  induction values generalizing filter with
  | nil => exact ⟨rfl,subset_refl _,by simp⟩
  | cons value values ih =>
    obtain ⟨hp,hs,hc⟩ := ih (filter.addHash (H.code (setup.entry value)))
    have ha := Finset.union_subset_iff.mp hs
    exact ⟨hp,ha.1,forall_mem_cons.mpr ⟨fun position hps => ha.2 (mem_toFinset.mpr hps),hc⟩⟩

variable {H setup} {key : Key} {value : NativeValue Other} {p : PartialFilter Other}
  {results : List (PartialFilter Other)}

theorem mergeBloomFilters_covers {m : Option BloomFilter} {merged : BloomFilter}
    (h : mergeBloomFilters m results = .ok (some merged)) (hp : p ∈ m.toList.map .bloom ++ results)
    (hc : p.Covers H setup value) : (PartialFilter.bloom merged).Covers H setup value := by
  induction results generalizing m p with
  | nil =>
    obtain rfl : m = some merged := Except.ok.inj h
    obtain rfl : p = .bloom merged := by simpa using hp
    exact hc
  | cons result results ih =>
    cases result with
    | values valueSet => cases h
    | bloom filter =>
      cases m with
      | none => exact ih h hp hc
      | some old =>
        rw [mergeBloomFilters] at h
        split at h
        case isFalse => cases h
        rename_i hs
        obtain rfl | rfl | hp : p = .bloom old ∨ p = .bloom filter ∨ p ∈ results := by simpa using hp
        · exact ih h mem_cons_self ⟨hc.1,fun position hps => Finset.mem_union_left _ (hc.2 position hps)⟩
        · refine ih h mem_cons_self ⟨hc.1,fun position hps => Finset.mem_union_right _ (hc.2 position ?_)⟩
          simpa only [BloomFilter.positions,hs.1,hs.2] using hps
        · exact ih h (mem_cons_of_mem _ hp) hc

variable [DecidableEq Other]

/-- The probe values for which a build value has to be found. -/
def DynamicFilter.joins : DynamicFilter Other → NativeValue Other → NativeValue Other → Bool
  | .filtered _ _ (some filter) _ _, probe, build => filter.test probe build
  | _, probe, build => decide (probe = build)

def DynamicFilter.Accepts (H : BloomHash) (filter : DynamicFilter Other) (build : NativeValue Other) : Prop :=
  ∀ probe, filter.joins probe build = true → filter.contains H (some probe) = .ok true

theorem DynamicFilter.joins_setMinMax (H : BloomHash) (filter : DynamicFilter Other) : filter.setMinMax.joins = filter.joins ∧
    filter.setMinMax.contains H = filter.contains H := by
  cases filter with
  | hashSet =>
    rw [setMinMax]
    split <;> exact ⟨rfl,rfl⟩
  | filtered _ _ filter =>
    rw [setMinMax]
    split <;> cases filter <;> exact ⟨rfl,rfl⟩
  | _ => exact ⟨rfl,rfl⟩

theorem partialFilter_covers (hh : setup.Hashes) {task : Task} (h : value ∈ setup.values key task) :
    (setup.partialFilter H key task).Covers H setup value := by
  rw [FilterSetup.partialFilter]
  split
  · rename_i hb
    obtain ⟨hp,-,hc⟩ := createBloomFilterFromSet_spec H setup (setup.newBloomFilter key) (setup.values key task)
    exact ⟨hh key task value h hb,fun position hps => hc value h position (hp ▸ hps)⟩
  · exact mem_toFinset.mpr h

theorem mergeHashSets_covers {m merged : Finset (NativeValue Other)}
    (h : mergeHashSets m results = .ok merged) (hp : p ∈ .values m :: results) (hc : p.Covers H setup value) :
    value ∈ merged := by
  induction results generalizing m p with
  | nil =>
    cases h
    obtain rfl := mem_singleton.mp hp
    exact hc
  | cons result results ih =>
    cases result with
    | bloom filter => cases h
    | values valueSet =>
      obtain rfl | rfl | hp : p = .values m ∨ p = .values valueSet ∨ p ∈ results := by simpa using hp
      · exact ih h mem_cons_self (Finset.mem_union_left _ hc)
      · exact ih h mem_cons_self (Finset.mem_union_right _ hc)
      · exact ih h (mem_cons_of_mem _ hp) hc

theorem mergePartialFilters_covers {dataType : FilterDataType}
    {merged : PartialFilter Other} (h : mergePartialFilters setup.fppTooHigh results dataType = .ok merged)
    (hp : p ∈ results) (hc : p.Covers H setup value) : merged.Covers H setup value := by
  cases dataType with
  | bloomFilter =>
    rw [mergePartialFilters] at h
    split at h
    case h_3 filter hm =>
      split at h
      · cases h
      · cases h
        exact mergeBloomFilters_covers hm (mem_append_right _ hp) hc
    all_goals cases h
  | hashSet =>
    rw [mergePartialFilters] at h
    cases hm : mergeHashSets ∅ results with
    | error e =>
      rw [hm] at h
      cases h
    | ok valueSet =>
      rw [hm] at h
      cases h
      exact mergeHashSets_covers hm (mem_cons_of_mem _ hp) hc

theorem PartialFilter.Covers.accepts (h : p.Covers H setup value) (key : Key) (filter : Option Comparison) :
    (p.dynamicFilter setup key filter).Accepts H value := by
  intro probe hp
  cases p with
  | bloom merged =>
    have ht : H.test merged (setup.entry value) = true := all_eq_true.mpr fun i hi => decide_eq_true (h.2 i hi)
    obtain rfl := of_decide_eq_true hp
    cases probe with
    | other object => exact h.1.elim
    | _ => exact congrArg Except.ok ht
  | values merged =>
    have hm : value ∈ merged := h
    cases filter with
    | none =>
      rw [dynamicFilter,(joins_setMinMax H _).1] at hp
      rw [dynamicFilter,(joins_setMinMax H _).2,of_decide_eq_true hp]
      exact congrArg Except.ok (decide_eq_true hm)
    | some comparison =>
      rw [dynamicFilter,(joins_setMinMax H _).1] at hp
      rw [dynamicFilter,(joins_setMinMax H _).2]
      exact congrArg Except.ok (decide_eq_true ⟨value,hm,hp⟩)

/-- The registered tasks have been compared with the ids, and the filter is still to be cached. -/
def MergeStage.comparedTasks : MergeStage Other → Bool
  | .complete | .merged _ | .published _ => true
  | _ => false

namespace DynamicFilterService
variable [DecidableEq Key] [DecidableEq Task] (H setup) {s : DynamicFilterService Key Task Other}

/-- A task adds its id after its partial filter. -/
def Publishes (s : DynamicFilterService Key Task Other) : ServiceAction Key Task → Prop
  | .addTask key task => setup.partialFilter H key task ∈ s.partials key
  | _ => True

/-- A filter has been cached or published for the key, or will be by a merge that has seen all ids. -/
def Fixed (s : DynamicFilterService Key Task Other) (key : Key) : Prop :=
  key ∈ s.cachedDynamicFilters.map Prod.fst ∨ key ∈ s.mergedDynamicFilters.map Prod.fst ∨
    s.merging.any (fun m => decide (m.key = key) && m.stage.comparedTasks) = true

/-- A task is registered before it adds its id, and before its filter is fixed. -/
def Timely (s : DynamicFilterService Key Task Other) : ServiceAction Key Task → Prop
  | .registerTasks key taskIds => s.Fixed key → taskIds ⊆ s.dynamicFiltersToTask key
  | .addTask key task => task ∈ s.dynamicFiltersToTask key
  | _ => True

instance (s : DynamicFilterService Key Task Other) : ∀ action, Decidable (Publishes H setup s action)
  | .addTask _ _ => inferInstanceAs (Decidable (_ ∈ _))
  | .registerFilter _ _ | .registerTasks _ _ | .addPartialFilter _ _ | .merge _ | .proceed => .isTrue trivial

instance (s : DynamicFilterService Key Task Other) : ∀ action, Decidable (Timely s action)
  | .registerTasks _ _ => inferInstanceAs (Decidable (_ ∨ _ → _))
  | .addTask _ _ => inferInstanceAs (Decidable (_ ∈ _))
  | .registerFilter _ _ | .addPartialFilter _ _ | .merge _ | .proceed => .isTrue trivial

/-- What a stage is about: the ids that were counted, or a filter that covers the build values of all tasks. -/
def Reached (s : DynamicFilterService Key Task Other) (key : Key) : MergeStage Other → Prop
  | .counted finishedDynamicFilterNumber => ∃ ids ⊆ s.tasks key, ids.card = finishedDynamicFilterNumber
  | .complete => s.dynamicFiltersToTask key ⊆ s.tasks key
  | .merged filter | .published filter => ∀ task ∈ s.dynamicFiltersToTask key, ∀ build ∈ setup.values key task,
      filter.Covers H setup build
  | _ => True

structure Good (s : DynamicFilterService Key Task Other) : Prop where
  published : ∀ key, ∀ task ∈ s.tasks key, setup.partialFilter H key task ∈ s.partials key
  registered : ∀ key, s.tasks key ⊆ s.dynamicFiltersToTask key
  cached : ∀ put ∈ s.cachedDynamicFilters, ∀ task ∈ s.dynamicFiltersToTask put.1, ∀ build ∈ setup.values put.1 task,
    put.2.Accepts H build
  merged : ∀ put ∈ s.mergedDynamicFilters, ∀ task ∈ s.dynamicFiltersToTask put.1, ∀ build ∈ setup.values put.1 task,
    put.2.Covers H setup build
  reached : ∀ m ∈ s.merging, Reached H setup s m.key m.stage

variable {H setup}

theorem Good.registerTasks (h : Good H setup s) {taskIds : Finset Task} (htm : Timely s (.registerTasks key taskIds)) :
    Good H setup (s.registerTasks key taskIds) := by
  have hs : ∀ key', s.Fixed key' →
      update s.dynamicFiltersToTask key (s.dynamicFiltersToTask key ∪ taskIds) key' = s.dynamicFiltersToTask key' := by
    intro key' hk'
    by_cases heq : key' = key
    · subst heq
      rw [update_self,Finset.union_eq_left.mpr (htm hk')]
    · exact update_of_ne heq _ _
  refine ⟨h.published,fun key' task ht => ?_,fun put hp => ?_,fun put hp => ?_,fun m hm => ?_⟩
  · by_cases heq : key' = key
    · subst heq
      simp only [DynamicFilterService.registerTasks,update_self]
      exact Finset.mem_union_left _ (h.registered key' ht)
    · simpa only [DynamicFilterService.registerTasks,update_of_ne heq] using h.registered key' ht
  · simpa only [DynamicFilterService.registerTasks,hs put.1 (.inl (mem_map_of_mem hp))] using h.cached put hp
  · simpa only [DynamicFilterService.registerTasks,hs put.1 (.inr (.inl (mem_map_of_mem hp)))] using h.merged put hp
  · have hr := h.reached m hm
    -- before the comparison the stage says nothing about the registered tasks
    have hf : m.stage.comparedTasks = true → s.Fixed m.key := fun hc => by
      refine .inr (.inr ?_)
      rw [show s.merging = some m from hm]
      simpa using hc
    cases hst : m.stage with
    | complete | merged filter | published filter =>
      rw [hst] at hr hf
      simpa only [Reached,DynamicFilterService.registerTasks,hs m.key (hf rfl)] using hr
    | found | counted n | done =>
      rw [hst] at hr
      exact hr

omit [DecidableEq Task] in
theorem Good.mergeDynamicFilter (hh : setup.Hashes) (h : Good H setup s) {m : FilterMerge Key Other} (hm : m ∈ s.merging) :
    Good H setup (s.mergeDynamicFilter setup m) := by
  obtain ⟨key,registration,info,stage⟩ := m
  have hr := h.reached _ hm
  have hstage : ∀ stage, Reached H setup s key stage →
      Good H setup { s with merging := some ⟨key,registration,info,stage⟩ } := fun stage hs =>
    ⟨h.published,h.registered,h.cached,h.merged,by rintro _ ⟨⟩; exact hs⟩
  cases stage with
  | found => exact hstage _ ⟨_,subset_rfl,rfl⟩
  | counted n =>
    rw [DynamicFilterService.mergeDynamicFilter]
    dsimp only
    split
    · rename_i hc
      -- the ids that were counted are among the registered tasks, and as many
      obtain ⟨ids,hs,rfl⟩ := hr
      have heq := Finset.eq_of_subset_of_card_le (hs.trans (h.registered key)) (of_decide_eq_true hc).2.ge
      exact hstage _ (show s.dynamicFiltersToTask key ⊆ s.tasks key from heq ▸ hs)
    · exact ⟨h.published,h.registered,h.cached,h.merged,by rintro _ ⟨⟩⟩
  | complete =>
    rw [DynamicFilterService.mergeDynamicFilter]
    dsimp only
    split
    · exact hstage _ trivial
    · rename_i filter hok
      refine hstage _ fun task ht build hb => ?_
      exact mergePartialFilters_covers hok (h.published key task (hr ht)) (partialFilter_covers hh hb)
  | merged filter =>
    refine ⟨h.published,h.registered,h.cached,?_,by rintro _ ⟨⟩; exact hr⟩
    rw [DynamicFilterService.mergeDynamicFilter]
    dsimp only
    split
    · exact forall_mem_append.mpr ⟨h.merged,forall_mem_singleton.mpr hr⟩
    · exact h.merged
  | published filter =>
    refine ⟨h.published,h.registered,forall_mem_append.mpr ⟨h.cached,?_⟩,h.merged,by rintro _ ⟨⟩; exact trivial⟩
    exact forall_mem_singleton.mpr fun task ht build hb => (hr task ht build hb).accepts key _
  | done => exact ⟨h.published,h.registered,h.cached,h.merged,by rintro _ ⟨⟩⟩

omit [DecidableEq Key] [DecidableEq Task] in
theorem Good.findFilter (h : Good H setup s) (key : Key) : Good H setup (s.findFilter key) := by
  rw [DynamicFilterService.findFilter]
  split
  · split
    · exact h
    · exact ⟨h.published,h.registered,h.cached,h.merged,by rintro _ ⟨⟩; exact trivial⟩
  · exact h

theorem Good.addTask (h : Good H setup s) {task : Task} (hp : setup.partialFilter H key task ∈ s.partials key)
    (hr : task ∈ s.dynamicFiltersToTask key) : Good H setup (s.step H setup (.addTask key task)) := by
  have ha : ∀ {key' task'}, task' ∈ (s.step H setup (.addTask key task)).tasks key' →
      key' = key ∧ task' = task ∨ task' ∈ s.tasks key' := by
    intro key' task' ht
    by_cases heq : key' = key
    · subst heq
      simpa [DynamicFilterService.step] using ht
    · exact .inr (by simpa only [DynamicFilterService.step,update_of_ne heq] using ht)
  have hs : ∀ key', s.tasks key' ⊆ (s.step H setup (.addTask key task)).tasks key' := by
    intro key' task' ht
    by_cases heq : key' = key
    · subst heq
      simp [DynamicFilterService.step,ht]
    · simpa only [DynamicFilterService.step,update_of_ne heq] using ht
  refine ⟨fun key' task' ht => ?_,fun key' task' ht => ?_,h.cached,h.merged,fun m hm => ?_⟩
  · obtain ⟨rfl,rfl⟩ | ht := ha ht
    · exact hp
    · exact h.published key' task' ht
  · obtain ⟨rfl,rfl⟩ | ht := ha ht
    · exact hr
    · exact h.registered key' ht
  · have hrc := h.reached m hm
    cases hst : m.stage with
    | counted n =>
      rw [hst] at hrc
      obtain ⟨ids,hi,hn⟩ := hrc
      exact ⟨ids,hi.trans (hs m.key),hn⟩
    | complete =>
      rw [hst] at hrc
      exact Finset.Subset.trans hrc (hs m.key)
    | found | merged filter | published filter | done =>
      rw [hst] at hrc
      exact hrc

theorem Good.step (hh : setup.Hashes) (h : Good H setup s) {action : ServiceAction Key Task} (hp : Publishes H setup s action)
    (htm : Timely s action) : Good H setup (s.step H setup action) := by
  cases action with
  | registerFilter key info => exact ⟨h.published,h.registered,h.cached,h.merged,h.reached⟩
  | registerTasks key taskIds => exact h.registerTasks htm
  | merge key => exact h.findFilter key
  | addTask key task => exact h.addTask hp htm
  | addPartialFilter key task =>
    refine ⟨fun key' task' ht => ?_,h.registered,h.cached,h.merged,h.reached⟩
    have hm := h.published key' task' ht
    by_cases heq : key' = key
    · subst heq
      simp only [DynamicFilterService.step,update_self]
      exact mem_append_left _ hm
    · simpa only [DynamicFilterService.step,update_of_ne heq] using hm
  | proceed =>
    rw [DynamicFilterService.step]
    cases hm : s.merging with
    | none => exact h
    | some m => exact h.mergeDynamicFilter hh hm

/-- If the Bloom filters can be asked for their values and all tasks are registered in time, every filter that is
cached or published accepts the build values of all tasks that are ever registered for it. -/
theorem machine_accepts (hh : setup.Hashes) {actions : List (ServiceAction Key Task)}
    (halong : (machine H setup).Along (fun s action => Publishes H setup s action ∧ Timely s action) actions) :
    ∃ s, (machine H setup).run actions = .ok s ∧
      (∀ put ∈ s.cachedDynamicFilters, ∀ task ∈ s.dynamicFiltersToTask put.1, ∀ build ∈ setup.values put.1 task,
        put.2.Accepts H build) ∧
      ∀ put ∈ s.mergedDynamicFilters, ∀ task ∈ s.dynamicFiltersToTask put.1, ∀ build ∈ setup.values put.1 task,
        ∀ filter, (put.2.dynamicFilter setup put.1 filter).Accepts H build := by
  have hn : Good H setup (machine H setup).init := by
    constructor <;> simp [machine,new]
  obtain ⟨s,hs,hg⟩ := Machine.run_along_total hn (fun s action h hc =>
    ⟨_,rfl,h.step hh hc.1 hc.2⟩) halong
  exact ⟨s,hs,hg.cached,fun put hp task ht build hb filter =>
    (hg.merged put hp task ht build hb).accepts put.1 filter⟩

namespace LateTask

/-- Each task has its number as its only value. -/
def numbered (dataType : FilterDataType) : FilterSetup Unit Nat Unit where
  values _ task := [.long task]
  dataType _ := dataType
  newBloomFilter _ := ⟨1,64,∅⟩
  bloomEntry _ := .null
  filterKey _ := "filter"
  fppTooHigh _ := false
  minMax _ := (none,none)

def hash : BloomHash := ⟨fun _ => 0,fun _ => 0⟩

def info (dataType : FilterDataType) : DynamicFilterRegistryInfo := ⟨.global,dataType,none,false⟩

/-- The second task publishes while a first attempt to merge is under way. -/
def timelyRun : List (ServiceAction Unit Nat) :=
  [.registerFilter () (info .bloomFilter),.registerTasks () {1},.addPartialFilter () 1,.merge (),.proceed,
    .registerTasks () {2},.addTask () 1,.addPartialFilter () 2,.proceed,.addTask () 2,.merge (),.proceed,.proceed,.proceed,
    .proceed,.proceed]

theorem machine_accepts_timelyRun : ∃ s, (machine hash (numbered .bloomFilter)).run timelyRun = .ok s ∧
    s.cachedDynamicFilters ≠ [] ∧
    ∀ put ∈ s.cachedDynamicFilters, ∀ task ∈ s.dynamicFiltersToTask put.1, put.2.Accepts hash (.long task) := by
  have ha : (machine hash (numbered .bloomFilter)).Along
      (fun s action => Publishes hash (numbered .bloomFilter) s action ∧ Timely s action) timelyRun := .of_checks (by decide)
  have hh : (numbered .bloomFilter).Hashes := by
    rintro key task value hv -
    obtain rfl := mem_singleton.mp hv
    exact trivial
  obtain ⟨s,hs,hc,-⟩ := machine_accepts hh ha
  refine ⟨s,hs,?_,fun put hp task ht => hc put hp task ht _ mem_cons_self⟩
  cases hs
  exact cons_ne_nil _ _

def lateRun : List (ServiceAction Unit Nat) :=
  [.registerFilter () (info .hashSet),.registerTasks () {1},.addPartialFilter () 1,.addTask () 1,.merge (),.proceed,.proceed,
    .proceed,.proceed,.proceed,.proceed,.registerFilter () (info .hashSet),.registerTasks () {2}]

/-- The filter was merged before the second task was registered. -/
theorem lateRun_rejects : (machine hash (numbered .hashSet)).Along (Publishes hash (numbered .hashSet)) lateRun ∧
    ∃ s, (machine hash (numbered .hashSet)).run lateRun = .ok s ∧ 2 ∈ s.dynamicFiltersToTask () ∧
      .long 2 ∈ (numbered .hashSet).values () 2 ∧
      ∃ filter, ((),filter) ∈ s.cachedDynamicFilters ∧ filter.contains hash (some (.long 2)) = .ok false := by
  refine ⟨.of_checks (by decide),_,rfl,by decide,by decide,_,mem_cons_self,by decide⟩

end LateTask
end DynamicFilterService
end HetuCore.DynamicFiltering
