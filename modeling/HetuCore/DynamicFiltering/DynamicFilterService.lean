import HetuCore.DynamicFiltering.DynamicFilter
import HetuCore.Foundation.Machine

/-! `DynamicFilterService` and the tasks that publish partial filters to the state store: a filter is
merged when as many tasks have published as are registered, while tasks go on to register and to publish. -/
namespace HetuCore.DynamicFiltering
open HeuristicIndex (BloomFilter)
open Foundation

inductive FilterType
  | inTask
  | global
deriving DecidableEq

inductive FilterDataType
  | bloomFilter
  | hashSet
deriving DecidableEq

structure DynamicFilterRegistryInfo where
  type : FilterType
  dataType : FilterDataType
  filter : Option Comparison
  merged : Bool

/-- What a task adds to the state store, and what is published after a merge. -/
inductive PartialFilter (Other : Type)
  | bloom (filter : BloomFilter)
  | values (valueSet : Finset (NativeValue Other))
deriving DecidableEq

/-- The build sides of the tasks, and what is computed outside of the service. -/
structure FilterSetup (Key Task Other : Type) where
  values : Key → Task → List (NativeValue Other)
  dataType : Key → FilterDataType
  newBloomFilter : Key → BloomFilter
  /-- How objects of other classes are added to a Bloom filter. -/
  bloomEntry : Other → BloomEntry
  filterKey : Key → String
  fppTooHigh : BloomFilter → Bool
  minMax : BloomFilter → Option Int × Option Int

variable {Key Task Other : Type} [DecidableEq Key] [DecidableEq Task] [DecidableEq Other]

namespace FilterSetup
variable (H : BloomHash) (setup : FilterSetup Key Task Other)

def entry : NativeValue Other → BloomEntry
  | .long value => .long value
  | .slice bytes => .bytes bytes
  | .string text => .bytes text.toUTF8.toList
  | .other object => setup.bloomEntry object

def createBloomFilterFromSet (filter : BloomFilter) (values : List (NativeValue Other)) : BloomFilter :=
  values.foldl (fun filter value => filter.addHash (H.code (setup.entry value))) filter

def partialFilter (key : Key) (task : Task) : PartialFilter Other :=
  match setup.dataType key with
  | .bloomFilter => .bloom (setup.createBloomFilterFromSet H (setup.newBloomFilter key) (setup.values key task))
  | .hashSet => .values (setup.values key task).toFinset

end FilterSetup

/-- There is no merged filter without partial ones. -/
def mergeBloomFilters (merged : Option BloomFilter) : List (PartialFilter Other) → Except Thrown (Option BloomFilter)
  | [] => .ok merged
  | .values _ :: _ => .error .classCastException
  | .bloom filter :: results =>
    match merged with
    | none => mergeBloomFilters (some filter) results
    | some merged =>
      if merged.numHashFunctions = filter.numHashFunctions ∧ merged.numBits = filter.numBits then
        mergeBloomFilters (some { merged with bitSet := merged.bitSet ∪ filter.bitSet }) results
      else .error (.other "IllegalArgumentException")

def mergeHashSets (merged : Finset (NativeValue Other)) :
    List (PartialFilter Other) → Except Thrown (Finset (NativeValue Other))
  | [] => .ok merged
  | .bloom _ :: _ => .error (.other "IOException")
  | .values valueSet :: results => mergeHashSets (merged ∪ valueSet) results

def mergePartialFilters (fppTooHigh : BloomFilter → Bool) (results : List (PartialFilter Other)) :
    FilterDataType → Except Thrown (PartialFilter Other)
  | .bloomFilter =>
    match mergeBloomFilters none results with
    | .error e => .error e
    | .ok none => .error (.other "NullPointerException")
    | .ok (some merged) => if fppTooHigh merged then .error .prestoException else .ok (.bloom merged)
  | .hashSet => (mergeHashSets ∅ results).map .values

/-- The filter that is cached. -/
def PartialFilter.dynamicFilter (setup : FilterSetup Key Task Other) (key : Key) (filter : Option Comparison) :
    PartialFilter Other → DynamicFilter Other
  | .bloom merged => .bloom (setup.filterKey key) merged (setup.minMax merged).1 (setup.minMax merged).2
  | .values merged =>
    match filter with
    | none => DynamicFilter.setMinMax (.hashSet (setup.filterKey key) merged none none)
    | some comparison => DynamicFilter.setMinMax (.filtered (setup.filterKey key) merged (some comparison) none none)

/-- How far the merge of a filter has come; between two stages the merging thread reads or writes shared data once. -/
inductive MergeStage (Other : Type)
  | found
  | counted (finishedDynamicFilterNumber : Nat)
  | complete
  | merged (filter : PartialFilter Other)
  | published (filter : PartialFilter Other)
  | done

/-- The merge of a filter for the registry entry that was found. -/
structure FilterMerge (Key Other : Type) where
  key : Key
  registration : Nat
  info : DynamicFilterRegistryInfo
  stage : MergeStage Other

/-- The service and the state store. A key is a filter of a query, and its registry entry is an object with a number;
of the two maps of merged filters all puts are kept. One thread merges. -/
structure DynamicFilterService (Key Task Other : Type) where
  dynamicFilters : Key → Option (Nat × DynamicFilterRegistryInfo)
  registrations : Nat
  dynamicFiltersToTask : Key → Finset Task
  tasks : Key → Finset Task
  partials : Key → List (PartialFilter Other)
  cachedDynamicFilters : List (Key × DynamicFilter Other)
  mergedDynamicFilters : List (Key × PartialFilter Other)
  merging : Option (FilterMerge Key Other)

/-- A call of `registerTasks` puts a registry entry and then adds the tasks, for each of its filters; a merge round
takes up one filter after the other and proceeds by stages. -/
inductive ServiceAction (Key Task : Type)
  | registerFilter (key : Key) (info : DynamicFilterRegistryInfo)
  | registerTasks (key : Key) (taskIds : Finset Task)
  | addPartialFilter (key : Key) (task : Task)
  | addTask (key : Key) (task : Task)
  | merge (key : Key)
  | proceed

namespace DynamicFilterService

def new : DynamicFilterService Key Task Other := ⟨fun _ => none,0,fun _ => ∅,fun _ => ∅,fun _ => [],[],[],none⟩

variable (s : DynamicFilterService Key Task Other)

/-- The registry entry is replaced by one that is not merged. -/
def registerFilter (key : Key) (info : DynamicFilterRegistryInfo) : DynamicFilterService Key Task Other :=
  { s with
    dynamicFilters := Function.update s.dynamicFilters key (some (s.registrations,{ info with merged := false }))
    registrations := s.registrations + 1 }

def registerTasks (key : Key) (taskIds : Finset Task) : DynamicFilterService Key Task Other :=
  { s with dynamicFiltersToTask := Function.update s.dynamicFiltersToTask key (s.dynamicFiltersToTask key ∪ taskIds) }

/-- A filter whose entry is merged already is passed over. -/
def findFilter (key : Key) : DynamicFilterService Key Task Other :=
  match s.merging, s.dynamicFilters key with
  | none, some (registration,info) => if info.merged then s else { s with merging := some ⟨key,registration,info,.found⟩ }
  | _, _ => s

def hasMergeCondition (key : Key) (finishedDynamicFilterNumber : Nat) : Bool :=
  decide (0 < finishedDynamicFilterNumber ∧ finishedDynamicFilterNumber = (s.dynamicFiltersToTask key).card)

/-- The entry is marked as merged, unless another one has been put in its place. -/
def setMerged (m : FilterMerge Key Other) : DynamicFilterService Key Task Other :=
  { s with
    dynamicFilters := Function.update s.dynamicFilters m.key ((s.dynamicFilters m.key).map fun entry =>
      if entry.1 = m.registration then (entry.1,{ entry.2 with merged := true }) else entry)
    merging := none }

/-- Each registry entry is merged once, whether or not that succeeds. -/
def mergeDynamicFilter (setup : FilterSetup Key Task Other) (m : FilterMerge Key Other) :
    DynamicFilterService Key Task Other :=
  match m.stage with
  | .found => { s with merging := some { m with stage := .counted (s.tasks m.key).card } }
  | .counted finishedDynamicFilterNumber =>
    if s.hasMergeCondition m.key finishedDynamicFilterNumber then { s with merging := some { m with stage := .complete } }
    else { s with merging := none }
  | .complete =>
    match mergePartialFilters setup.fppTooHigh (s.partials m.key) m.info.dataType with
    | .error _ => { s with merging := some { m with stage := .done } }
    | .ok filter => { s with merging := some { m with stage := .merged filter } }
  | .merged filter =>
    { s with
      mergedDynamicFilters :=
        if m.info.type = .global then s.mergedDynamicFilters ++ [(m.key,filter)] else s.mergedDynamicFilters
      merging := some { m with stage := .published filter } }
  | .published filter =>
    { s with
      cachedDynamicFilters := s.cachedDynamicFilters ++ [(m.key,filter.dynamicFilter setup m.key m.info.filter)]
      merging := some { m with stage := .done } }
  | .done => s.setMerged m

def step (H : BloomHash) (setup : FilterSetup Key Task Other) (s : DynamicFilterService Key Task Other) :
    ServiceAction Key Task → DynamicFilterService Key Task Other
  | .registerFilter key info => s.registerFilter key info
  | .registerTasks key taskIds => s.registerTasks key taskIds
  | .addPartialFilter key task =>
    { s with partials := Function.update s.partials key (s.partials key ++ [setup.partialFilter H key task]) }
  | .addTask key task => { s with tasks := Function.update s.tasks key (insert task (s.tasks key)) }
  | .merge key => s.findFilter key
  | .proceed => s.merging.elim s (s.mergeDynamicFilter setup)

def machine (H : BloomHash) (setup : FilterSetup Key Task Other) :
    Machine (DynamicFilterService Key Task Other) (ServiceAction Key Task) :=
  ⟨new,fun s action => .ok (s.step H setup action)⟩

end DynamicFilterService
end HetuCore.DynamicFiltering
