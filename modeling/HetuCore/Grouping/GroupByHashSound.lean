import HetuCore.Grouping.BigintGroupByHashLaws
import HetuCore.Grouping.BlockRunLaws
import HetuCore.Grouping.GroupByRun
import HetuCore.Grouping.MultiChannelGroupByHashPut

namespace HetuCore.Grouping
open Foundation MultiChannelGroupByHash BigintGroupByHash List
variable {K : Type} [BEq K] [LawfulBEq K]

/-- The ids of some rows, and what a group-by answers about them. -/
structure Answers (keys : List K) (ids : List Nat) (appendValuesTo : Nat → Except String K)
    (contains : K → Except String Bool) : Prop where
  /-- The groups are numbered by first appearance from 0. -/
  numbers : ids = numbering keys
  same : ∀ {i j : Nat} {left right}, keys[i]? = some left → keys[j]? = some right → (ids[i]? = ids[j]? ↔ left = right)
  values : ∀ {i : Nat} {key groupId}, keys[i]? = some key → ids[i]? = some groupId → appendValuesTo groupId = .ok key
  contains : ∀ key, contains key = .ok (decide (key ∈ keys))

/-- The ids that a run has written are those of its first rows, and of all rows once it has ended;
then each page has its ids. -/
def Grouped (keys : List K) (pageSizes : List Nat) (written : List Nat) (results : List (List Nat)) (ended : Prop)
    (appendValuesTo : Nat → Except String K) (contains : K → Except String Bool) : Prop :=
  ∃ seen, seen <+: keys ∧ Answers seen written appendValuesTo contains ∧
    (ended → seen = keys ∧ written = results.flatten ∧ results.map length = pageSizes)

theorem Answers.of_known {keys : List K} {appendValuesTo : Nat → Except String K} {contains : K → Except String Bool}
    (hv : ∀ {groupId : Nat} {key}, keys.eraseDups[groupId]? = some key → appendValuesTo groupId = .ok key)
    (hc : ∀ key, contains key = .ok (decide (key ∈ keys.eraseDups))) :
    Answers keys (numbering keys) appendValuesTo contains where
  numbers := rfl
  same := numbering_eq_iff
  values := by
    intro i key groupId hk hid
    rw [numbering,getElem?_map,hk,Option.map_some,Option.some.injEq] at hid
    subst hid
    have hm : key ∈ keys.eraseDups := mem_eraseDups.mpr (mem_of_getElem? hk)
    exact hv (getElem?_idxOf hm)
  contains := by
    intro key
    rw [hc key]
    exact congrArg Except.ok (decide_eq_decide.mpr mem_eraseDups)

section Answering
variable {V : Type} [DecidableEq V]

def MultiChannelGroupByHash.outputKey (s : MultiChannelGroupByHash V) (groupId : Nat) : Except String (Key V) :=
  (s.appendValuesTo groupId).map StoredRow.key

theorem MultiChannelGroupByHash.Rep.answers {hash : Key V → BitVec 64} {seen : List (Key V)}
    {s : MultiChannelGroupByHash V} (h : Rep hash seen.eraseDups s) :
    Answers seen (numbering seen) s.outputKey (s.contains hash) := by
  refine .of_known (fun {groupId key} hk => ?_) h.contains
  obtain ⟨row,hr,hs⟩ := h.appendValuesTo hk
  rw [outputKey,hr,← hs]
  rfl

theorem BigintGroupByHash.Rep.answers {seen : List (Option (BitVec 64))} {s : BigintGroupByHash}
    (h : Rep seen.eraseDups s) : Answers seen (numbering seen) (fun groupId => .ok (s.appendValuesTo groupId)) s.contains :=
  .of_known (fun {_ _} hk => congrArg Except.ok (h.appendValuesTo hk)) h.contains

end Answering

section Correct
variable {V D : Type} [DecidableEq V] [DecidableEq D] {dictionaries : D → List (Option V)}

/-- Whatever the pages and the answers of the memory callback, after any number of calls the ids
are those of the keys of the rows; a work that is open ends with the next call if the callback
grants what is asked from then on. The only exception is that of a table with a billion slots. -/
theorem getGroupIds_correct (hash : Key V → BitVec 64) (processDictionary precomputedHashChannel : Bool)
    (isFull : List (StoredRow V) → Bool) (bits : Nat) (updateMemory : UpdateMemory) {pages : List (Page dictionaries)}
    (hpages : ∀ page ∈ pages, 0 < page.positionCount) {bigintDictionaries : D → List (Option (BitVec 64))}
    {blocks : List (Block bigintDictionaries)} (hblocks : ∀ block ∈ blocks, 0 < block.toList.length) (calls : Nat) :
    Ends (SizeExceeded (allKeys pages).eraseDups.length) (fun run =>
        Grouped (allKeys pages) (pages.map Page.positionCount) run.written run.results (run.work = none ∧ run.pages = [])
          run.state.groupBy.outputKey (run.state.groupBy.contains hash) ∧
        (run.work.isSome → (∀ call, run.state.groupBy.updateMemory call = true) →
          Ends (SizeExceeded (allKeys pages).eraseDups.length) (fun run' => run'.work = none)
            (run.step processDictionary (groupBy hash precomputedHashChannel isFull))))
      ((machine processDictionary (groupBy hash precomputedHashChannel isFull)
        (create bits updateMemory) pages).run (replicate calls ())) ∧
    Ends (SizeExceeded (allValues blocks).eraseDups.length) (fun run =>
        Grouped (allValues blocks) (blocks.map fun block => block.toList.length) run.written run.results
          (run.work = none ∧ run.blocks = []) (fun groupId => .ok (run.state.appendValuesTo groupId)) run.state.contains ∧
        (run.work.isSome → (∀ call, run.state.updateMemory call = true) →
          Ends (SizeExceeded (allValues blocks).eraseDups.length) (fun run' => run'.work = none) (run.step groupBy)))
      ((blockMachine groupBy (create bits updateMemory) blocks).run (replicate calls ())) := by
  constructor
  · have hn := numbers hash precomputedHashChannel isFull
    have ha : (contract hash).AdmitsAll [] (allKeys pages) :=
      .of_forall (fun _ _ => trivial) _ _
    have hin := rep_create (V := V) hash bits updateMemory
    refine (run_good processDictionary hn hpages ha hin calls).mono ?_
    rintro run ⟨finished,hgd⟩
    obtain ⟨seen,hf,hi,hr,he⟩ := hgd.written
    refine ⟨⟨seen,hf,hi ▸ MultiChannelGroupByHash.Rep.answers hr,he⟩,fun ho hg => ?_⟩
    exact (hgd.step hn hpages ha).mono fun _ h => h.2 ho hg
  · have ha : contract.AdmitsAll [] (allValues blocks) :=
      .of_forall (fun _ _ => trivial) _ _
    refine (blockRun_good numbers hblocks ha (rep_create bits updateMemory) calls).mono ?_
    rintro run ⟨finished,hgd⟩
    obtain ⟨seen,hf,hi,hr,he⟩ := hgd.written
    refine ⟨⟨seen,hf,hi ▸ BigintGroupByHash.Rep.answers hr,he⟩,fun ho hg => ?_⟩
    exact (hgd.step numbers hblocks ha).mono fun _ h => h.2 ho hg

end Correct

namespace DictionaryPage

def dictionaries : Unit → List (Option (BitVec 64)) := fun _ => [some 7,none]

def page : Page dictionaries where
  channels := [.dictionary 0 () [⟨1,by decide⟩,⟨0,by decide⟩,⟨1,by decide⟩]]
  positionCount := 3
  aligned := by decide
  hashBlock := none

/-- A page with a dictionary, and its block alone: the table has one slot at first, and the second
request for memory is refused. -/
theorem getGroupIds_correct_dictionary : 0 < page.positionCount ∧
    Ends (SizeExceeded 2) (fun run => Grouped [[none],[some 7],[none]] [3] run.written run.results
        (run.work = none ∧ run.pages = []) run.state.groupBy.outputKey (run.state.groupBy.contains fun _ => 0))
      ((machine true (groupBy (fun _ => 0) false fun _ => false)
        (create 0 fun call => call != 1) [page]).run (replicate 3 ())) ∧
    Ends (SizeExceeded 2) (fun run => Grouped [none,some 7,none] [3] run.written run.results
        (run.work = none ∧ run.blocks = []) (fun groupId => .ok (run.state.appendValuesTo groupId)) run.state.contains)
      ((blockMachine groupBy (create 0 fun call => call != 1) page.channels).run (replicate 3 ())) := by
  have hp : ∀ page' ∈ [page], 0 < page'.positionCount := by decide
  have hb : ∀ block ∈ page.channels, 0 < block.toList.length := by decide
  have hc := getGroupIds_correct (fun _ => 0) true false (fun _ => false) 0 (fun call => call != 1) hp hb 3
  exact ⟨by decide,hc.1.mono fun _ h => h.1,hc.2.mono fun _ h => h.1⟩

end DictionaryPage
end HetuCore.Grouping
