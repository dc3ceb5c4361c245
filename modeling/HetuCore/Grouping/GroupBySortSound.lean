import HetuCore.Grouping.BigintGroupBySortLaws
import HetuCore.Grouping.BlockRunLaws
import HetuCore.Grouping.GroupByRun
import HetuCore.Grouping.GroupBySortOutput
import HetuCore.Grouping.MultiChannelGroupBySortPut

namespace HetuCore.Grouping
open Foundation BigintGroupBySort

section Groups
variable {K : Type} [BEq K] [LawfulBEq K]

/-- The ids that a run has written are those of its first rows, and of all rows once it has ended;
then each page has its ids. -/
structure SortGrouped (keys : List K) (pageSizes : List Nat) (written : List Nat) (results : List (List Nat))
    (atEnd : Prop) (seen : List K) : Prop where
  first : seen <+: keys
  /-- The groups are numbered consecutively from 0. -/
  numbers : written = numbering seen
  same : ∀ {i j : Nat} {left right}, seen[i]? = some left → seen[j]? = some right → (written[i]? = written[j]? ↔ left = right)
  ended : atEnd → seen = keys ∧ written = results.flatten ∧ results.map List.length = pageSizes

end Groups

namespace MultiChannelGroupBySort

/-- The test is right for each of the rows. -/
def TrustsAll {V : Type} (valueHash : Nat → V → BitVec 64) (hash : Key V → BitVec 64) (keys : List (Key V)) : Prop :=
  ∀ before key after, keys = before ++ key :: after → Trusts valueHash hash before key

end MultiChannelGroupBySort

section Correct
variable {V D : Type} [DecidableEq V] [DecidableEq D] {dictionaries : D → List (Option V)}
open MultiChannelGroupBySort

theorem admitsAll_sorted {valueHash : Nat → V → BitVec 64} {hash : Key V → BitVec 64} {keys : List (Key V)}
    (hs : Adjacent keys) :
    (MultiChannelGroupBySort.contract valueHash hash).AdmitsAll [] keys ↔ TrustsAll valueHash hash keys := by
  rw [Contract.admitsAll_iff]
  exact forall₄_congr fun before key after hsp => and_iff_right (hs before key after hsp)

/-- The ids of rows that come one after the other are right exactly if the test is right for each
row; then pages in any encoding get their ids with one call each, and the keys of the groups are
output exactly if every full page but the first has two rows. `BigintGroupBySort` needs no such
condition; its only exception is that of a billion groups. -/
theorem groupBySort_correct_iff (valueHash : Nat → V → BitVec 64) (hash : Key V → BitVec 64)
    (processDictionary precomputedHashChannel : Bool) (isFull : List (StoredRow V) → Bool)
    {pages : List (Page dictionaries)} (hpages : ∀ page ∈ pages, 0 < page.positionCount)
    (hsorted : Adjacent (allKeys pages)) {bigintDictionaries : D → List (Option (BitVec 64))}
    {blocks : List (Block bigintDictionaries)} (hblocks : ∀ block ∈ blocks, 0 < block.toList.length)
    (hsortedBlocks : Adjacent (allValues blocks)) {expectedSize : Nat} (hsize : 0 < expectedSize) (calls : Nat) :
    ((putAll valueHash hash precomputedHashChannel isFull (allKeys pages) create).1 = numbering (allKeys pages) ↔
      TrustsAll valueHash hash (allKeys pages)) ∧
    (TrustsAll valueHash hash (allKeys pages) → ∃ run, (machine processDictionary
        (groupBy valueHash hash precomputedHashChannel isFull) create pages).run (List.replicate calls ()) = .ok run ∧
      (∃ seen, SortGrouped (allKeys pages) (pages.map Page.positionCount) run.written run.results
          (run.work = none ∧ run.pages = []) seen ∧
        (outputKeys (List.range seen.eraseDups.length) run.state.groupBy = .ok seen.eraseDups ↔
          ∀ page ∈ run.state.groupBy.completedPages.tail, 2 ≤ page.length)) ∧
      (run.work.isSome → ∃ run', run.step processDictionary (groupBy valueHash hash precomputedHashChannel isFull) = .ok run' ∧
        run'.work = none)) ∧ Ends (BigintGroupBySort.ArrayExceeded (allValues blocks).eraseDups.length) (fun run =>
        (∃ seen, SortGrouped (allValues blocks) (blocks.map fun block => block.toList.length) run.written run.results
          (run.work = none ∧ run.blocks = []) seen ∧
          (List.range seen.eraseDups.length).mapM run.state.appendValuesTo = .ok seen.eraseDups) ∧
        (run.work.isSome → Ends (BigintGroupBySort.ArrayExceeded (allValues blocks).eraseDups.length)
          (fun run' => run'.work = none) (run.step groupBy)))
      ((blockMachine groupBy (create expectedSize) blocks).run (List.replicate calls ())) := by
  refine ⟨?_,fun ht => ?_,?_⟩
  · have hc : Rep valueHash hash [] (create : MultiChannelGroupBySort V) := rep_create
    rw [eq_comm]
    exact (hc.putAll_iff hsorted).trans (admitsAll_sorted hsorted)
  · have hn := numbers valueHash hash precomputedHashChannel isFull
    have ha := (admitsAll_sorted hsorted).mpr ht
    obtain ⟨run,hrn,finished,hg⟩ := (run_good processDictionary hn hpages ha rep_create calls).total
    refine ⟨run,hrn,?_,fun ho => ?_⟩
    · obtain ⟨seen,hf,hi,hr,he⟩ := hg.written
      exact ⟨seen,⟨hf,hi.symm,hi ▸ numbering_eq_iff,he⟩,hr.rows.outputKeys_iff⟩
    · obtain ⟨run',hs,-,hw⟩ := (hg.step hn hpages ha).total
      exact ⟨run',hs,hw ho trivial⟩
  · have ha : contract.AdmitsAll [] (allValues blocks) :=
      Contract.admitsAll_iff.mpr hsortedBlocks
    refine (blockRun_good numbers hblocks ha (rep_create hsize) calls).mono ?_
    rintro run ⟨finished,hg⟩
    refine ⟨?_,fun ho => (hg.step numbers hblocks ha).mono fun _ h => h.2 ho trivial⟩
    obtain ⟨seen,hf,hi,hr,he⟩ := hg.written
    exact ⟨seen,⟨hf,hi.symm,hi ▸ numbering_eq_iff,he⟩,hr.output_eq⟩

end Correct

namespace SortedRows
open MultiChannelGroupBySort

def groupIds (hash : Key Nat → BitVec 64) (keys : List (Option Nat)) : List Nat :=
  (putAll (fun _ _ => 0) hash false (fun _ => false) (keys.map fun key => [key]) create).1

/-- With one hash for all keys the rows 0 and 1 are one group, and a row after the NULL is put into
the group of NULL; with the hash -1 equal rows are two groups. If each row fills a page, the key of
the second group is not found. -/
theorem groupBySort_collides : Adjacent [[some 0],[none],[some 1]] ∧ groupIds (fun _ => 0) [some 0,some 1] = [0,0] ∧
    groupIds (fun _ => 0) [some 0,none,some 1] = [0,1,1] ∧ groupIds (fun _ => -1) [some 0,some 0] = [0,1] ∧
    outputKeys [0,1] (putAll (fun _ _ => 0) (fun key => if key = [some 0] then 0 else 1) false (fun _ => true)
      [[some 0],[some 1]] create).2 = .error "position is not valid" :=
  ⟨adjacent_of_nodup (by decide),by decide,by decide,by decide,rfl⟩

def dictionaries : Unit → List (Option (BitVec 64)) := fun _ => []

def page : Page dictionaries where
  channels := [.plain [some 0,none,some 1]]
  positionCount := 3
  aligned := by decide
  hashBlock := none

theorem groupBySort_correct_three : ∃ run, (machine true (groupBy (fun _ value => value)
      (fun key => (key.head?.join.map (· + 1)).getD 0) false fun _ => false) create [page]).run (List.replicate 2 ()) = .ok run ∧
    ∃ seen, SortGrouped [[some (0 : BitVec 64)],[none],[some 1]] [3] run.written run.results (run.work = none ∧ run.pages = []) seen := by
  have hp : ∀ page' ∈ [page], 0 < page'.positionCount := by decide
  have hb : ∀ block ∈ page.channels, 0 < block.toList.length := by decide
  have hsr : Adjacent (allKeys [page]) := adjacent_of_nodup (by decide)
  have hs : Adjacent (allValues page.channels) := adjacent_of_nodup (by decide)
  obtain ⟨hi,hr,-⟩ := groupBySort_correct_iff (fun _ value => value) (fun key => (key.head?.join.map (· + 1)).getD 0)
    true false (fun _ => false) hp hsr hb hs Nat.zero_lt_one 2
  obtain ⟨run,hrn,⟨seen,hsn,-⟩,-⟩ := hr (hi.mp (by decide))
  exact ⟨run,hrn,seen,hsn⟩

end SortedRows
end HetuCore.Grouping
