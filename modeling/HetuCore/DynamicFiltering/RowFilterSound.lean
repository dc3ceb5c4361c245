import HetuCore.DynamicFiltering.RowFilterLaws
import Mathlib.Data.Fin.VecNotation
import Mathlib.Data.List.FinRange

namespace HetuCore.DynamicFiltering.RowFilter
open Foundation List
variable {T Cell Other : Type} [DecidableEq T] [DecidableEq Other]

/-- A hash set, with or without a comparison. -/
def IsHashSet : DynamicFilter Other → Prop
  | .hashSet _ _ _ _ => True
  | .filtered _ _ _ _ _ => True
  | _ => False

section
variable {columnMappings : List (ColumnMapping T Cell)} (page : DataPage columnMappings)

def DataPage.cell? (mapping : ColumnMapping T Cell) (i : Fin page.positionCount) : Option Cell :=
  match mapping.source with
  | .block index => page.blocks[index]?.map fun block => block.cell i
  | .prefilled cell => some cell

variable (H : BloomHash) (M : CellModel T Cell Other) (limit : Int)

/-- The filter is asked for the value that the type reads. -/
def valueTest (type : T) (df : DynamicFilter Other) (cell : Cell) : Except Thrown Bool := do
  df.contains H (← M.readNativeValue type cell)

/-- The filter of a channel does not contain the value that the row has in the column. -/
def Rejects (channel : Fin page.channelCount) (filter : DynamicFilter Other) (i : Fin page.positionCount) : Prop :=
  ∃ cell, page.cell? (page.mapping channel) i = some cell ∧
    valueTest H M (page.mapping channel).hiveColumnHandle.type filter cell = .ok false

/-- An eligible column of the map has a filter with a property that rejects the value of the row. -/
def RejectsBy (p : DynamicFilter Other → Prop) (df : FilterMap (HiveColumnHandle T) Other)
    (i : Fin page.positionCount) : Prop :=
  ∃ column ∈ eligibleColumns page H limit df, ∃ filter,
    df.lookup column.2 = some filter ∧ p filter ∧ Rejects page H M column.1 filter i

variable (dfs : List (FilterMap (HiveColumnHandle T) Other))

/-- The rows that are kept; without an eligible column these are all. -/
def keptRows : Except Thrown (Fin page.positionCount → Bool) :=
  let eligibleColumns := getEligibleColumnsForRowFiltering page H limit dfs
  if dfs.isEmpty || eligibleColumns.isEmpty then .ok fun _ => true
  else filterRows page H M dfs eligibleColumns

/-- Some map has an eligible column, and every map with one fails the row in one of them. -/
def Dropped (i : Fin page.positionCount) : Prop :=
  (∃ df ∈ dfs, eligibleColumns page H limit df ≠ []) ∧
    ∀ df ∈ dfs,
      Failed H M page i (df,eligibleColumns page H limit df)

/-- A page is returned that has some of the rows, unchanged and in their order. A row is missing only if every
map rejects it, and is missing if every map rejects it by a hash set. -/
def Correct : Prop :=
  ∃ result, ∃ rows : List (Fin page.positionCount), filterPage page H M limit dfs = .ok result ∧
    rows.Pairwise (· < ·) ∧ result.positionCount = rows.length ∧
    result.columns = (page.blocks.map fun block => rows.map block.cell) ∧
    (∀ i, i ∉ rows → ∀ df ∈ dfs,
      RejectsBy page H M limit (fun _ => True) df i) ∧
    ∀ i, (∀ df ∈ dfs, RejectsBy page H M limit IsHashSet df i) → i ∉ rows

/-- Each eligible filter is tested on values of its own column: a test that fails is a rejection of the row's own
value, and a hash set that rejects that value fails. -/
def Faithful : Prop :=
  ∀ df ∈ dfs, ∀ column ∈ eligibleColumns page H limit df,
    ∀ filter, df.lookup column.2 = some filter → ∀ i, ∃ passed,
      rowTest H M (page.mapping column.1).hiveColumnHandle.type (page.block column.1) filter i = .ok passed ∧
      (passed = false → Rejects page H M column.1 filter i) ∧
      (IsHashSet filter → Rejects page H M column.1 filter i → passed = false)

variable {page H M limit dfs}

omit [DecidableEq Other] in
theorem getEligibleColumns_isEmpty :
    (dfs.isEmpty || (getEligibleColumnsForRowFiltering page H limit dfs).isEmpty) = true ↔
      ∀ df ∈ dfs, eligibleColumns page H limit df = [] := by
  rw [getEligibleColumnsForRowFiltering]
  cases dfs with
  | nil => simp
  | cons first rest =>
    split
    · rename_i ha
      refine iff_of_false (by simp) fun hal => ?_
      obtain ⟨columns,hc,hne⟩ := any_eq_true.mp ha
      obtain ⟨df,hm,rfl⟩ := mem_map.mp hc
      simp [hal df hm] at hne
    · rename_i ha
      refine iff_of_true rfl fun df hm => ?_
      by_contra hne
      refine ha (any_eq_true.mpr ⟨_,mem_map_of_mem hm,?_⟩)
      simpa using hne

omit [DecidableEq Other] in
theorem zip_eligibleColumns (h : ¬ (dfs.isEmpty || (getEligibleColumnsForRowFiltering page H limit dfs).isEmpty) = true) :
    dfs.zip (getEligibleColumnsForRowFiltering page H limit dfs) =
      dfs.map fun df => (df,eligibleColumns page H limit df) := by
  rw [getEligibleColumnsForRowFiltering] at h ⊢
  split
  · simpa using zip_map' (f := id) (g := eligibleColumns page H limit) (l := dfs)
  · rename_i ha
    exact absurd (by simp [ha]) h

/-- The rows that are dropped are those that some map with an eligible column, and all such maps, fail. -/
theorem keptRows_false {keep : Fin page.positionCount → Bool}
    (h : keptRows page H M limit dfs = .ok keep) (i : Fin page.positionCount) :
    keep i = false ↔ Dropped page H M limit dfs i := by
  rw [keptRows] at h
  split at h
  · rename_i hn
    cases h
    refine iff_of_false (by simp) ?_
    rintro ⟨⟨df,hm,hne⟩,-⟩
    exact hne (getEligibleColumns_isEmpty.mp hn df hm)
  · rename_i hs
    have he : ∃ df ∈ dfs, eligibleColumns page H limit df ≠ [] := by
      by_contra ha
      exact hs (getEligibleColumns_isEmpty.mpr fun df hm => by_contra fun hne => ha ⟨df,hm,hne⟩)
    rw [Dropped,and_iff_right he]
    rw [filterRows,zip_eligibleColumns hs] at h
    rcases filterMaps_ok h i with ⟨hk,hfl | ⟨disjunct,hd,hne,ht⟩⟩ | ⟨hdr,-,hf⟩
    · cases hfl
    · refine iff_of_false (by simp [hk]) fun hf => ?_
      obtain ⟨df,hm,rfl⟩ := mem_map.mp hd
      rcases hf df hm with hnl | ⟨column,hc,hr⟩
      · exact hne hnl
      · cases (ht column hc).symm.trans hr
    · exact iff_of_true hdr fun df hm => hf _ (mem_map_of_mem hm)

omit [DecidableEq T] [DecidableEq Other] in
theorem columns_getPositions (page : Page Cell) (positions : List (Fin page.positionCount)) :
    (page.getPositions positions).columns = page.blocks.map fun block => positions.map block.cell := by
  rw [Page.columns,Page.getPositions]
  exact ext_get (by simp) fun k h₁ h₂ => by simp [Block.getPositions]

omit [DecidableEq T] [DecidableEq Other] in
theorem toPositions_of_length {n : Nat} {keep : Fin n → Bool} (h : (toPositions keep).length = n) :
    toPositions keep = finRange n :=
  filter_sublist.eq_of_length (h.trans (length_finRange).symm)

theorem filterPage_eq : filterPage page H M limit dfs =
    (keptRows page H M limit dfs).map fun keep =>
      if (toPositions keep).length = page.positionCount then page.toPage else page.getPositions (toPositions keep) := by
  rw [filterPage,keptRows]
  split
  · exact congrArg Except.ok (if_pos (by simp [toPositions])).symm
  · rfl

omit [DecidableEq T] [DecidableEq Other] in
theorem mem_toPositions {n : Nat} {keep : Fin n → Bool} {i : Fin n} : i ∈ toPositions keep ↔ keep i = true := by
  simp [toPositions]

theorem filterPage_of_keptRows {keep : Fin page.positionCount → Bool}
    (h : keptRows page H M limit dfs = .ok keep) :
    ∃ result, filterPage page H M limit dfs = .ok result ∧
      (toPositions keep).Pairwise (· < ·) ∧ result.positionCount = (toPositions keep).length ∧
      result.columns = page.blocks.map fun block => (toPositions keep).map block.cell := by
  have hs : (toPositions keep).Pairwise (· < ·) := (pairwise_lt_finRange _).filter _
  rw [filterPage_eq,h]
  refine ⟨_,rfl,hs,?_⟩
  dsimp only
  split
  · rename_i hl
    refine ⟨hl.symm,?_⟩
    rw [toPositions_of_length hl]
    exact map_congr_left fun block _ => ofFn_eq_map
  · exact ⟨rfl,columns_getPositions page.toPage _⟩

omit [DecidableEq Other] in
theorem lookup_of_eligible {df : FilterMap (HiveColumnHandle T) Other}
    {column : Fin page.channelCount × HiveColumnHandle T}
    (h : column ∈ eligibleColumns page H limit df) : df.lookup column.2 ≠ none := by
  obtain ⟨channel,-,hc⟩ := mem_filterMap.mp h
  dsimp only at hc
  split at hc
  · rename_i filter hl
    split at hc
    · cases hc
      simp [hl]
    · cases hc
  · cases hc

section faithful
variable (hf : Faithful page H M limit dfs)
include hf

theorem Faithful.keptRows : ∃ keep, keptRows page H M limit dfs = .ok keep := by
  rw [RowFilter.keptRows]
  split
  · exact ⟨_,rfl⟩
  · rename_i hs
    refine filterMaps_total _ fun disjunct hd column hc => ?_
    rw [zip_eligibleColumns hs] at hd
    obtain ⟨df,hm,rfl⟩ := mem_map.mp hd
    have hl := lookup_of_eligible hc
    refine ⟨hl,fun i => ?_⟩
    obtain ⟨filter,hlf⟩ := Option.ne_none_iff_exists'.mp hl
    rw [columnTest,hlf]
    exact (hf df hm column hc filter hlf i).imp fun _ h => h.1

variable {df : FilterMap (HiveColumnHandle T) Other} (hm : df ∈ dfs)
include hm

/-- A map with an eligible column fails a row exactly if it rejects it. -/
theorem Faithful.failed (i : Fin page.positionCount) :
    (Failed H M page i (df,eligibleColumns page H limit df) →
      eligibleColumns page H limit df = [] ∨
        RejectsBy page H M limit (fun _ => True) df i) ∧
    (RejectsBy page H M limit IsHashSet df i →
      Failed H M page i (df,eligibleColumns page H limit df)) := by
  constructor
  · refine Or.imp_right ?_
    rintro ⟨column,hc,hr⟩
    obtain ⟨filter,hl⟩ := Option.ne_none_iff_exists'.mp (lookup_of_eligible hc)
    obtain ⟨passed,hp,hj,-⟩ := hf df hm column hc filter hl i
    rw [columnTest,hl] at hr
    exact ⟨column,hc,filter,hl,trivial,hj (Except.ok.inj (hp.symm.trans hr))⟩
  · rintro ⟨column,hc,filter,hl,hh,hr⟩
    obtain ⟨passed,hp,-,hj⟩ := hf df hm column hc filter hl i
    refine .inr ⟨column,hc,?_⟩
    rw [columnTest,hl]
    exact hp.trans (congrArg Except.ok (hj hh hr))

end faithful

section identical
variable {i j : Fin page.positionCount} (h : ∀ block ∈ page.blocks, block.cell i = block.cell j)
include h

/-- Rows with the same cells are tested alike. -/
theorem columnTest_congr (df : FilterMap (HiveColumnHandle T) Other)
    (column : Fin page.channelCount × HiveColumnHandle T) :
    columnTest H M page df column i = columnTest H M page df column j := by
  have hc : (page.block column.1).cell i = (page.block column.1).cell j := h _ (get_mem _ _)
  rw [columnTest,columnTest]
  split
  · rfl
  · rename_i filter hl
    cases filter <;> simp only [rowTest,hc]

theorem dropped_congr (hd : Dropped page H M limit dfs i) :
    Dropped page H M limit dfs j :=
  ⟨hd.1,fun df hm => (hd.2 df hm).imp_right fun hr => hr.imp fun column hc =>
    ⟨hc.1,(columnTest_congr h df column).symm.trans hc.2⟩⟩

end identical

/-- A row that is dropped is missing from the returned page. -/
theorem not_mem_of_dropped {keep : Fin page.positionCount → Bool} {rows : List (Fin page.positionCount)}
    (hk : keptRows page H M limit dfs = .ok keep)
    (hl : (toPositions keep).length = rows.length)
    (hc : (page.blocks.map fun block => (toPositions keep).map block.cell) = page.blocks.map fun block => rows.map block.cell)
    {i : Fin page.positionCount} (hd : Dropped page H M limit dfs i) : i ∉ rows := by
  intro hi
  obtain ⟨k,hlt,rfl⟩ := getElem_of_mem hi
  have hb : ∀ block ∈ page.blocks, block.cell rows[k] = block.cell (toPositions keep)[k] := by
    intro block hm
    have he := congrArg (fun cells => cells[k]?) (map_inj_left.mp hc block hm)
    simpa [getElem?_eq_getElem,hlt,hl] using he.symm
  have hkt : keep (toPositions keep)[k] = true := mem_toPositions.mp (getElem_mem _)
  rw [(keptRows_false hk _).mpr (dropped_congr hb hd)] at hkt
  cases hkt

variable (hf : Faithful page H M limit dfs) (hne : dfs ≠ [])
include hf hne

theorem Faithful.correct_iff : Correct page H M limit dfs ↔
      ∀ i, (∀ df ∈ dfs,
          Failed H M page i (df,eligibleColumns page H limit df)) →
        (∀ df ∈ dfs, eligibleColumns page H limit df = []) ∨
        ∀ df ∈ dfs, eligibleColumns page H limit df ≠ [] := by
  obtain ⟨keep,hk⟩ := hf.keptRows
  obtain ⟨result,hr,hs,hl,hc⟩ := filterPage_of_keptRows hk
  constructor
  · rintro ⟨result',rows,hr',-,hl',hc',hdr,-⟩ i hfl
    obtain rfl := Except.ok.inj (hr.symm.trans hr')
    by_cases he : ∃ df ∈ dfs, eligibleColumns page H limit df ≠ []
    · have hi := not_mem_of_dropped hk (hl.symm.trans hl') (hc.symm.trans hc') ⟨he,hfl⟩
      refine .inr fun df hm => ?_
      obtain ⟨column,hcl,-⟩ := hdr i hi df hm
      exact ne_nil_of_mem hcl
    · exact .inl fun df hm => by_contra fun hn => he ⟨df,hm,hn⟩
  · intro h
    refine ⟨result,toPositions keep,hr,hs,hl,hc,fun i hi df hm => ?_,fun i hal hi => ?_⟩
    · have hd := (keptRows_false hk i).mp (Bool.eq_false_iff.mpr (mt mem_toPositions.mpr hi))
      refine ((hf.failed hm i).1 (hd.2 df hm)).resolve_left ?_
      obtain ⟨⟨other,ho,hn⟩,hfl⟩ := hd
      exact (h i hfl).elim (fun hall => absurd (hall other ho) hn) fun hall => hall df hm
    · obtain ⟨first,hfm⟩ := exists_mem_of_ne_nil _ hne
      obtain ⟨column,hcl,-⟩ := hal first hfm
      have hd := (keptRows_false hk i).mpr ⟨⟨first,hfm,ne_nil_of_mem hcl⟩,fun df hm => (hf.failed hm i).2 (hal _ hm)⟩
      rw [mem_toPositions.mp hi] at hd
      cases hd

end

section aligned
variable {columnMappings : List (ColumnMapping T Cell)} {page : DataPage columnMappings} {H : BloomHash}
  {M : CellModel T Cell Other} {limit : Int} {filter : DynamicFilter Other}

omit [DecidableEq T] in
theorem cell_of_source {channel : Fin page.channelCount} (h : (page.mapping channel).source = .block channel)
    (i : Fin page.positionCount) : page.cell? (page.mapping channel) i = some ((page.block channel).cell i) := by
  have hb : page.blocks[channel.val]? = some (page.block channel) := getElem?_eq_getElem channel.isLt
  rw [DataPage.cell?,h]
  simp [hb]

omit [DecidableEq T] in
/-- A Bloom filter that can be asked for the value is tested with the same entry by the block. -/
theorem rowTest_of_valueTest {n : Nat} {type : T} {block : Block n Cell} {i : Fin n} {contained : Bool}
    (h : valueTest H M type filter (block.cell i) = .ok contained) : ∃ passed, rowTest H M type block filter i = .ok passed ∧
      (passed = false → contained = false) ∧ (IsHashSet filter → passed = contained) := by
  cases filter with
  | bloom filterId bloomFilter min max =>
    obtain ⟨value,hv,hc⟩ := bind_ok h
    have he : contained = H.test bloomFilter (M.entry (block.cell i)) := by
      match value,hv,hc with
      | some (.other _),_,hc => cases hc
      | none,hv,hc | some (.long _),hv,hc | some (.slice _),hv,hc | some (.string _),hv,hc =>
        rw [M.entry_eq type _ _ hv _ rfl]
        exact (Except.ok.inj hc).symm
    refine ⟨_,rfl,fun hp => ?_,False.elim⟩
    rw [he]
    exact (Bool.or_eq_false_iff.mp hp).2
  | _ => exact ⟨contained,h,id,fun _ => rfl⟩

variable (page H M limit) in
/-- The block of each eligible column is at the place of the column, and its filter can be asked for the values there. -/
def Aligned (dfs : List (FilterMap (HiveColumnHandle T) Other)) : Prop :=
  ∀ df ∈ dfs, ∀ column ∈ eligibleColumns page H limit df,
    (page.mapping column.1).source = .block column.1 ∧ ∀ filter, df.lookup column.2 = some filter →
      ∀ i, ∃ contained,
        valueTest H M (page.mapping column.1).hiveColumnHandle.type filter ((page.block column.1).cell i) = .ok contained

variable {dfs : List (FilterMap (HiveColumnHandle T) Other)}
  (ha : Aligned page H M limit dfs)
include ha

theorem Aligned.faithful : Faithful page H M limit dfs := by
  intro df hm column hc filter hl i
  obtain ⟨hs,hr⟩ := ha df hm column hc
  obtain ⟨contained,hv⟩ := hr filter hl i
  obtain ⟨passed,hp,hf,hh⟩ := rowTest_of_valueTest hv
  refine ⟨passed,hp,fun hn => ⟨_,cell_of_source hs i,hf hn ▸ hv⟩,fun hi => ?_⟩
  rintro ⟨cell,hce,hn⟩
  obtain rfl := Option.some.inj ((cell_of_source hs i).symm.trans hce)
  exact (hh hi).trans (Except.ok.inj (hv.symm.trans hn))

variable (hne : dfs ≠ [])
include hne

/-- If no map lacks an eligible column while another has one, then the row filtering is correct. -/
theorem correct_of_aligned (hb : ∀ first ∈ dfs, eligibleColumns page H limit first ≠ [] →
      ∀ second ∈ dfs, eligibleColumns page H limit second ≠ []) :
    Correct page H M limit dfs := by
  refine (ha.faithful.correct_iff hne).mpr fun i _ => ?_
  by_cases he : ∃ first ∈ dfs, eligibleColumns page H limit first ≠ []
  · obtain ⟨first,hf,hn⟩ := he
    exact .inr (hb first hf hn)
  · exact .inl fun df hm => by_contra fun hn => he ⟨df,hm,hn⟩

end aligned

namespace LargeFilter

def hash : BloomHash := ⟨fun _ => 0,fun _ => 0⟩

def cells : CellModel Unit Int Empty where
  readNativeValue _ cell := .ok (some (.long cell))
  entry := .long
  entry_eq := by
    rintro _ cell value ⟨⟩ asked ⟨⟩
    rfl

def columnA : HiveColumnHandle Unit := ⟨"a",(),false⟩
def columnB : HiveColumnHandle Unit := ⟨"b",(),false⟩

def mappings : List (ColumnMapping Unit Int) := [⟨columnA,.block 0⟩,⟨columnB,.block 1⟩]

/-- The rows `a = 5, b = 7`, `a = 1, b = 1` and `a = 1, b = 7`. -/
def page : DataPage mappings where
  positionCount := 3
  blocks := [⟨![5,1,1],true⟩,⟨![7,1,7],true⟩]
  channels := rfl

def onA : FilterMap (HiveColumnHandle Unit) Empty := AList.singleton columnA (.hashSet "f" {.long 5} none none)

/-- `b` is one of 1 and 2, which is more than a threshold of one allows. -/
def onB : FilterMap (HiveColumnHandle Unit) Empty := AList.singleton columnB (.hashSet "g" {.long 1,.long 2} none none)

/-- Every filter can be asked for a `Long`. -/
theorem contains_long (filter : DynamicFilter Empty) (n : Int) : ∃ contained, filter.contains hash (some (.long n)) = .ok contained := by
  induction filter with
  | combined first second hf hs =>
    obtain ⟨contained,hc⟩ := hf
    cases contained with
    | false => exact ⟨false,by rw [DynamicFilter.contains,hc]; rfl⟩
    | true =>
      obtain ⟨contained,hd⟩ := hs
      exact ⟨contained,by rw [DynamicFilter.contains,hc]; exact hd⟩
  | filtered _ _ comparison _ _ => cases comparison <;> exact ⟨_,rfl⟩
  | _ => exact ⟨_,rfl⟩

theorem aligned (limit : Int) : Aligned page hash cells limit [onA,onB] := by
  have hs : ∀ channel, (page.mapping channel).source = .block channel := Fin.forall_fin_two.mpr ⟨rfl,rfl⟩
  exact fun _ _ column _ => ⟨hs column.1,fun filter _ _ => contains_long filter _⟩

/-- The first two rows are kept. -/
theorem correct_of_aligned_two : Correct page hash cells 2 [onA,onB] ∧
    (filterPage page hash cells 2 [onA,onB]).map Page.columns = .ok [[5,1],[7,1]] :=
  ⟨correct_of_aligned (aligned 2) (cons_ne_nil _ _) (by decide),by decide⟩

end LargeFilter
end HetuCore.DynamicFiltering.RowFilter
