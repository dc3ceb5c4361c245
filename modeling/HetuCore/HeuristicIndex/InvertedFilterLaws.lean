import HetuCore.HeuristicIndex.InvertedLookUp

namespace HetuCore.HeuristicIndex.InvertedFilter
open HetuCore.Relation Foundation List
open ForwardFilter (TableRow DataStripe DataFile)
variable {S : Signature} {columns : Columns S} {Path Partition : Type} [DecidableEq Path]

structure TableSplit (table : Table columns Path Partition) where
  file : TableFile columns Path Partition
  ofTable : file ∈ table.files
  startIndex : Int
  endIndex : Int
  ordered : startIndex ≤ endIndex

namespace TableSplit
variable {table : Table columns Path Partition} (split : TableSplit table)

def toSplit : Split Path Partition :=
  ⟨split.file.path,split.file.partitionKey,split.file.lastModifiedTime,split.startIndex,split.endIndex⟩

/-- Ends included, the split has a byte of the stripe. -/
def Overlaps (stripe : DataStripe columns) : Prop :=
  RangeSearch.Overlap (stripe.start,stripe.stop) (split.startIndex,split.endIndex)

/-- The split overlaps a stripe with a row that satisfies the predicate. -/
def Satisfied (I : Interpretation S) (expression : RowExpression S .boolean) (split : TableSplit table) : Prop :=
  ∃ stripe ∈ split.file.stripes, split.Overlaps stripe ∧ ∃ row ∈ stripe.rows,
    RowExpression.truth I (TableRow.toRow row) expression = some true

end TableSplit

section
variable {table : Table columns Path Partition} {results : List (LookUpResult Path)}
  {listed : TableFile columns Path Partition → DataStripe columns → Prop} [LinearOrder (LookUpResult Path)]

section
variable (hrs : Lists table listed (some results))
include hrs

variable {file : TableFile columns Path Partition}

theorem mem_stripesOf (hf : file ∈ table.files) (range : Int × Int) :
    range ∈ stripesOf results file.path ↔ ∃ stripe ∈ file.stripes, range = (stripe.start,stripe.stop) ∧ listed file stripe := by
  rw [stripesOf,mem_mergeSort,mem_map]
  constructor
  · rintro ⟨s,hs,rfl⟩
    obtain ⟨hs,hp⟩ := mem_filter.mp hs
    obtain ⟨other,ho,stripe,hst,rfl,hl⟩ := (hrs.2 s).mp hs
    obtain rfl := table.eq_of_path ho hf (of_decide_eq_true hp)
    exact ⟨stripe,hst,rfl,hl⟩
  · rintro ⟨stripe,hst,rfl,hl⟩
    refine ⟨file.symbol stripe,mem_filter.mpr ⟨(hrs.2 _).mpr ⟨file,hf,stripe,hst,rfl,hl⟩,?_⟩,rfl⟩
    exact decide_eq_true rfl

theorem separate_stripesOf (hf : file ∈ table.files) : RangeSearch.Separate (stripesOf results file.path) := by
  have hsr : (stripesOf results file.path).Pairwise fun a b => decide (a.1 ≤ b.1) = true :=
    pairwise_mergeSort (fun a b c => by simpa using le_trans) (fun a b => by simpa using le_total a.1 b.1) _
  have hn : (stripesOf results file.path).Nodup := by
    rw [stripesOf,List.Perm.nodup_iff (mergeSort_perm _ _)]
    refine .map_on ?_ ((hrs.1.imp ne_of_lt).filter _)
    rintro ⟨path,stripe⟩ hs ⟨path',stripe'⟩ hs' rfl
    have hp := of_decide_eq_true (mem_filter.mp hs).2
    have hp' := of_decide_eq_true (mem_filter.mp hs').2
    rw [show path = path' from hp.trans hp'.symm]
  refine ⟨fun range hr => ?_,?_⟩
  · obtain ⟨stripe,-,rfl,-⟩ := (mem_stripesOf hrs hf range).mp hr
    exact stripe.nonempty.le
  · refine (hsr.and hn).imp_of_mem fun {a b} ha hb hab => ?_
    obtain ⟨stripe,hst,rfl,-⟩ := (mem_stripesOf hrs hf a).mp ha
    obtain ⟨stripe',hst',rfl,-⟩ := (mem_stripesOf hrs hf b).mp hb
    obtain ⟨hle,hne⟩ := hab
    have hle := of_decide_eq_true hle
    have := stripe'.nonempty
    rcases file.toDataFile.stripe_cases hst hst' with rfl | hbf | haf
    · exact absurd rfl hne
    · exact hbf
    · omega

/-- A split is kept without a look-up, or for a listed stripe that it overlaps. -/
theorem keepsSplit_spec (time : Option Int) (split : TableSplit table) :
    ∃ kept, keepsSplit results time split.toSplit = .ok kept ∧
      (kept = true ↔ (∀ t, time = some t → t < split.file.lastModifiedTime) ∨
        ∃ stripe ∈ split.file.stripes, split.Overlaps stripe ∧ listed split.file stripe) := by
  cases time with
  | none => exact ⟨true,rfl,iff_of_true rfl (.inl (by simp))⟩
  | some t =>
    rw [keepsSplit]
    split
    · rename_i hn
      exact ⟨true,rfl,iff_of_true rfl (.inl fun _ h => Option.some.inj h ▸ hn)⟩
    rename_i hn
    have hol : ¬ ∀ t', some t = some t' → t' < split.file.lastModifiedTime := fun h => hn (h t rfl)
    rw [or_iff_right hol]
    have hm := mem_stripesOf hrs split.ofTable
    split
    · rename_i hnl
      refine ⟨false,rfl,iff_of_false Bool.false_ne_true ?_⟩
      rintro ⟨stripe,hs,-,hl⟩
      have := (hm (stripe.start,stripe.stop)).mpr ⟨stripe,hs,rfl,hl⟩
      rw [show stripesOf results split.file.path = [] from hnl] at this
      exact not_mem_nil this
    · rename_i hne
      have ht : (split.startIndex,split.endIndex).1 ≤ (split.startIndex,split.endIndex).2 := split.ordered
      obtain ⟨kept,hk,hov⟩ := RangeSearch.rangeSearch_spec hne (separate_stripesOf hrs split.ofTable) ht
      refine ⟨kept,congrArg (Except.mapError Failure.thrown) hk,hov.trans ⟨?_,?_⟩⟩
      · rintro ⟨range,hr,ho⟩
        obtain ⟨stripe,hs,rfl,hl⟩ := (hm range).mp hr
        exact ⟨stripe,hs,ho,hl⟩
      · rintro ⟨stripe,hs,ho,hl⟩
        exact ⟨_,(hm _).mpr ⟨stripe,hs,rfl,hl⟩,ho⟩

end

end

section
variable [DecidableEq Partition] {results : List (LookUpResult Path)}

omit [DecidableEq Partition] in
theorem filterSplits_spec {time : Option Int} {splits : List (Split Path Partition)}
    (h : ∀ split ∈ splits, ∃ kept, keepsSplit results time split = .ok kept) :
    ∃ filtered, filterSplits results time splits = .ok filtered ∧
      ∀ split, split ∈ filtered ↔ split ∈ splits ∧ keepsSplit results time split = .ok true := by
  induction splits with
  | nil => exact ⟨[],rfl,by simp⟩
  | cons split splits ih =>
    obtain ⟨⟨kept,hk⟩,hr⟩ := forall_mem_cons.mp h
    obtain ⟨filtered,hf,hm⟩ := ih hr
    refine ⟨if kept then split :: filtered else filtered,?_,fun other => ?_⟩
    · rw [filterSplits,hk,hf]
      rfl
    · cases kept with
      | true =>
        rw [if_pos rfl,mem_cons,mem_cons,hm,or_and_right]
        refine or_congr_left ⟨?_,And.left⟩
        rintro rfl
        exact ⟨rfl,hk⟩
      | false =>
        rw [if_neg Bool.false_ne_true,mem_cons,hm,or_and_right]
        refine (or_iff_right ?_).symm
        rintro ⟨rfl,ht⟩
        rw [hk] at ht
        cases ht

theorem filterPartitions_spec {updated : AList fun _ : Option Partition => Int} {inputSplits : List (Split Path Partition)}
    (h : ∀ split ∈ inputSplits, ∃ kept,
      keepsSplit results (indexLastModifiedTime updated split.partitionKey) split = .ok kept) (partitions : List (Option Partition)) :
    ∃ filtered, filterPartitions results updated inputSplits partitions = .ok filtered ∧
      ∀ split, split ∈ filtered ↔ split.partitionKey ∈ partitions ∧ split ∈ inputSplits ∧
        keepsSplit results (indexLastModifiedTime updated split.partitionKey) split = .ok true := by
  induction partitions with
  | nil => exact ⟨[],rfl,by simp⟩
  | cons partitionKey partitions ih =>
    obtain ⟨filtered,hf,hmm⟩ := ih
    have hp : ∀ split ∈ inputSplits.filter fun split => decide (split.partitionKey = partitionKey), ∃ kept,
        keepsSplit results (indexLastModifiedTime updated partitionKey) split = .ok kept := fun split hs => by
      obtain ⟨hs,hky⟩ := mem_filter.mp hs
      rw [← of_decide_eq_true hky]
      exact h split hs
    obtain ⟨kept,hk,hm⟩ := filterSplits_spec hp
    refine ⟨kept ++ filtered,?_,fun split => ?_⟩
    · rw [filterPartitions,hk,hf]
      rfl
    · rw [mem_append,hm,hmm,mem_filter,decide_eq_true_iff,mem_cons,or_and_right]
      refine or_congr_left ⟨?_,?_⟩
      · rintro ⟨⟨hs,rfl⟩,ht⟩
        exact ⟨rfl,hs,ht⟩
      · rintro ⟨rfl,hs,ht⟩
        exact ⟨⟨hs,rfl⟩,ht⟩

end

section
variable [DecidableEq Partition]

/-- The times after all indexes of a list are recorded. -/
def recordAll (entries : List (Option Partition × Int)) : AList fun _ : Option Partition => Int :=
  entries.foldl (fun updated e => updated.insert e.1 e.2) ∅

theorem lookup_recordAll (entries : List (Option Partition × Int)) (partitionKey : Option Partition) :
    (recordAll entries).lookup partitionKey = (entries.filter fun e => decide (e.1 = partitionKey)).getLast?.map Prod.snd := by
  induction entries using reverseRecOn with
  | nil => rfl
  | append_singleton entries e ih =>
    rw [recordAll,foldl_append,foldl_cons,foldl_nil,filter_append]
    by_cases hk : e.1 = partitionKey
    · subst hk
      simp [AList.lookup_insert]
    · rw [AList.lookup_insert_ne (Ne.symm hk)]
      simpa [hk,recordAll] using ih

/-- If an index is for the table, then one time is recorded just if all indexes are. -/
theorem length_recordAll_iff {entries : List (Option Partition × Int)} {e : Option Partition × Int} (he : e ∈ entries)
    (hn : e.1 = none) : (recordAll entries).entries.length = 1 ↔ ∀ e ∈ entries, e.1 = none := by
  have hm : ∀ key, key ∈ (recordAll entries).keys ↔ ∃ e ∈ entries, e.1 = key := fun key => by
    rw [← AList.mem_keys,← AList.lookup_isSome,lookup_recordAll]
    simp
  have hk : none ∈ (recordAll entries).keys := (hm none).mpr ⟨e,he,hn⟩
  rw [show (recordAll entries).entries.length = (recordAll entries).keys.length from (length_map _).symm]
  constructor
  · intro hl other ho
    obtain ⟨key,hs⟩ := length_eq_one_iff.mp hl
    have ho := (hm other.1).mpr ⟨other,ho,rfl⟩
    rw [hs,mem_singleton] at hk ho
    exact ho.trans hk.symm
  · intro ha
    have hr : ∀ key ∈ (recordAll entries).keys, key = none := fun key h => by
      obtain ⟨other,ho,rfl⟩ := (hm key).mp h
      exact ha other ho
    have hd := (recordAll entries).keys_nodup
    rw [eq_replicate_of_mem hr,nodup_replicate] at hd
    exact le_antisymm hd (length_pos_of_mem hk)

end

section
variable [DecidableEq Partition] [LinearOrder (LookUpResult Path)] {M : ObjectModel S} {table : Table columns Path Partition}
  (expression : RowExpression S .boolean) (cols : List String)
  (indices : TableIndices M table)

def loaded : Indices M columns Path Partition := fun name => (indices name).map TableIndex.toIndexMetadata

/-- The partitions and times of the indexes of the referenced columns, in the order in which they are recorded. -/
def recorded : List (Option Partition × Int) :=
  cols.flatMap fun name => (indices name).map fun ix => (ix.partitionKey,ix.maxModifiedTime)

/-- The last index of the partition of the file, or the last of all if they are for the table, is not older than the
file. -/
def Covered (file : TableFile columns Path Partition) : Prop :=
  ∃ e, file.lastModifiedTime ≤ e.2 ∧
    (((recorded cols indices).filter fun e => decide (e.1 = file.partitionKey)).getLast? = some e ∨
      (∀ e ∈ recorded cols indices, e.1 = none) ∧ (recorded cols indices).getLast? = some e)

/-- The time of the indexes that counts for the partition of a file. -/
def indexTime (file : TableFile columns Path Partition) : Option Int :=
  indexLastModifiedTime (indexMaxLastUpdated cols (loaded indices)) file.partitionKey

omit [DecidableEq Path] [LinearOrder (LookUpResult Path)] in
theorem indexMaxLastUpdated_loaded :
    indexMaxLastUpdated cols (loaded indices) = recordAll (recorded cols indices) := by
  simp only [indexMaxLastUpdated,recordAll,recorded,loaded,foldl_flatMap,foldl_map]

omit [DecidableEq Path] [LinearOrder (LookUpResult Path)] in
theorem covered_iff (file : TableFile columns Path Partition) : Covered cols indices file ↔
    ∃ time, indexTime cols indices file = some time ∧ file.lastModifiedTime ≤ time := by
  rw [Covered,indexTime,indexMaxLastUpdated_loaded,indexLastModifiedTime,lookup_recordAll,lookup_recordAll]
  set entries := recorded cols indices
  cases hl : (entries.filter fun e => decide (e.1 = file.partitionKey)).getLast? with
  | some e =>
    obtain ⟨he,hk⟩ : e ∈ entries ∧ e.1 = file.partitionKey := by simpa using mem_of_getLast? hl
    refine ⟨?_,fun ⟨time,ht,hle⟩ => ⟨e,Option.some.inj ht ▸ hle,.inl rfl⟩⟩
    rintro ⟨other,hle,ho | ⟨ha,ho⟩⟩
    · exact ⟨_,rfl,Option.some.inj ho ▸ hle⟩
    · have hf : (entries.filter fun e => decide (e.1 = file.partitionKey)) = entries :=
        filter_eq_self.mpr fun other ho => decide_eq_true ((ha other ho).trans ((ha e he).symm.trans hk))
      rw [hf,ho] at hl
      exact ⟨_,rfl,Option.some.inj hl ▸ hle⟩
  | none =>
    simp only [Option.map_none,reduceCtorEq,false_or]
    constructor
    · rintro ⟨e,hle,ha,he⟩
      have hm := mem_of_getLast? he
      have hf : (entries.filter fun e => decide (e.1 = none)) = entries :=
        filter_eq_self.mpr fun e he => decide_eq_true (ha e he)
      exact ⟨e.2,by rw [if_pos ((length_recordAll_iff hm (ha e hm)).mpr ha),hf,he]; rfl,hle⟩
    · rintro ⟨time,ht,hle⟩
      split at ht
      · rename_i h1
        obtain ⟨e,he,rfl⟩ := Option.map_eq_some_iff.mp ht
        obtain ⟨hm,hn⟩ : e ∈ entries ∧ e.1 = none := by simpa using mem_of_getLast? he
        have ha := (length_recordAll_iff hm hn).mp h1
        rw [filter_eq_self.mpr fun e he => decide_eq_true (ha e he)] at he
        exact ⟨e,hle,ha,he⟩
      · cases ht

/-- The look-up has a result that is not the universe. -/
def Decided : Prop := ∃ results, lookUp (btrees cols indices) expression = .ok (some results)

/-- The split is not restricted by the look-up, or overlaps a stripe that is listed. -/
def Keeps (split : TableSplit table) : Prop :=
  (∀ time, indexTime cols indices split.file = some time → time < split.file.lastModifiedTime) ∨
    ∃ stripe ∈ split.file.stripes, split.Overlaps stripe ∧ Listed indices split.file stripe expression

theorem mem_filterUsingInvertedIndex (hd : Decided expression cols indices) (splits : List (TableSplit table))
    {split : TableSplit table} (hsp : split ∈ splits) :
    split.toSplit ∈ filterUsingInvertedIndex expression (splits.map TableSplit.toSplit) cols (loaded indices) ↔
      Keeps expression cols indices split := by
  obtain ⟨results,hrs⟩ := hd
  have hls := lookUp_lists hrs
  have hs := fun split : TableSplit table => keepsSplit_spec hls (indexTime cols indices split.file) split
  have ha : ∀ split ∈ splits.map TableSplit.toSplit, ∃ kept, keepsSplit results
      (indexLastModifiedTime (indexMaxLastUpdated cols (loaded indices)) split.partitionKey) split = .ok kept :=
    forall_mem_map.mpr fun split _ => (hs split).imp fun _ h => h.1
  obtain ⟨filtered,hf,hm⟩ :=
    filterPartitions_spec ha ((splits.map TableSplit.toSplit).map Split.partitionKey).dedup
  have hfl : filterUsingInvertedIndex expression (splits.map TableSplit.toSplit) cols (loaded indices) = filtered := by
    have htr : tryFilter expression (splits.map TableSplit.toSplit) cols (loaded indices) = .ok filtered := by
      have hl : lookUp (fun name => if name ∈ cols then
          some ((loaded indices name).map IndexMetadata.index) else none) expression = .ok (some results) := hrs
      rw [tryFilter,hl]
      exact hf
    rw [filterUsingInvertedIndex,htr]
  have hin : split.toSplit ∈ splits.map TableSplit.toSplit := mem_map_of_mem hsp
  have hky : split.toSplit.partitionKey ∈ ((splits.map TableSplit.toSplit).map Split.partitionKey).dedup :=
    mem_dedup.mpr (mem_map_of_mem hin)
  rw [hfl,hm,and_iff_right hky,and_iff_right hin]
  obtain ⟨kept,hk,hi⟩ := hs split
  rw [Keeps,← hi]
  constructor
  · exact fun ht => Except.ok.inj (hk.symm.trans ht)
  · rintro rfl
    exact hk

/-- A look-up without a result returns all splits. -/
theorem filterUsingInvertedIndex_undecided (hd : ¬ Decided expression cols indices)
    (splits : List (Split Path Partition)) :
    filterUsingInvertedIndex expression splits cols (loaded indices) = splits := by
  rw [filterUsingInvertedIndex]
  split
  · rename_i filtered ht
    obtain ⟨result,hr,ht⟩ := bind_ok ht
    cases result with
    | none => cases ht
    | some results => exact absurd ⟨results,hr⟩ hd
  · rfl

end
end HetuCore.HeuristicIndex.InvertedFilter
