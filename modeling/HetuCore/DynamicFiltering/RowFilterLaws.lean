import HetuCore.DynamicFiltering.RowFilter

namespace HetuCore.DynamicFiltering.RowFilter
open Foundation List
variable {T Cell Other : Type} [DecidableEq T] [DecidableEq Other] (H : BloomHash) (M : CellModel T Cell Other)

/-- The test of one row by the filter of a column, as the page source makes it. -/
def rowTest {n : Nat} (type : T) (block : Block n Cell) (df : DynamicFilter Other) (i : Fin n) : Except Thrown Bool :=
  match df with
  | .bloom _ bloomFilter _ _ => .ok (!block.testsBloom || H.test bloomFilter (M.entry (block.cell i)))
  | df => do
    df.contains H (← M.readNativeValue type (block.cell i))

omit [DecidableEq T] in
theorem filterColumn_ok {n : Nat} {type : T} {block : Block n Cell} {df : DynamicFilter Other}
    {kept updated : Fin n → Bool} (h : filterColumn H M type block df kept = .ok updated) (i : Fin n) :
    kept i = false ∧ updated i = false ∨
      kept i = true ∧ rowTest H M type block df i = .ok (updated i) := by
  cases df with
  | bloom filterId bloomFilter min max =>
    cases h
    cases hi : kept i with
    | false => exact .inl ⟨rfl,by simp [hi]⟩
    | true => exact .inr ⟨rfl,by simp [rowTest,hi]⟩
  | _ =>
    have hi := forEach_ok.mp h i
    cases hr : kept i with
    | false =>
      rw [hr] at hi
      exact .inl ⟨rfl,(Except.ok.inj hi).symm⟩
    | true =>
      rw [hr] at hi
      exact .inr ⟨rfl,hi⟩

omit [DecidableEq T] in
theorem filterColumn_total {n : Nat} {type : T} {block : Block n Cell} {df : DynamicFilter Other}
    (kept : Fin n → Bool) (h : ∀ i, ∃ passed, rowTest H M type block df i = .ok passed) :
    ∃ updated, filterColumn H M type block df kept = .ok updated := by
  cases df with
  | bloom filterId bloomFilter min max => exact ⟨_,rfl⟩
  | _ =>
    choose passed hp using h
    refine ⟨fun i => if kept i then passed i else false,forEach_ok.mpr fun i => ?_⟩
    cases hr : kept i with
    | false => rfl
    | true => exact hp i

section
variable {columnMappings : List (ColumnMapping T Cell)} (page : DataPage columnMappings)

def columnTest (df : FilterMap (HiveColumnHandle T) Other) (column : Fin page.channelCount × HiveColumnHandle T)
    (i : Fin page.positionCount) : Except Thrown Bool :=
  match df.lookup column.2 with
  | none => .error (.other "NullPointerException")
  | some filter => rowTest H M (page.mapping column.1).hiveColumnHandle.type (page.block column.1) filter i

variable {H M} {page} {df : FilterMap (HiveColumnHandle T) Other}

/-- A row fails in the first column that rejects it. -/
theorem filterColumns_ok {columns : List (Fin page.channelCount × HiveColumnHandle T)}
    {kept updated : Fin page.positionCount → Bool}
    (h : filterColumns page H M df kept columns = .ok updated) (i : Fin page.positionCount) :
    updated i = true ∧ kept i = true ∧ (∀ column ∈ columns, columnTest H M page df column i = .ok true) ∨
      updated i = false ∧ (kept i = false ∨ ∃ column ∈ columns, columnTest H M page df column i = .ok false) := by
  induction columns generalizing kept with
  | nil =>
    obtain rfl := Except.ok.inj h
    cases hi : kept i with
    | false => exact .inr ⟨rfl,.inl rfl⟩
    | true => exact .inl ⟨rfl,rfl,by simp⟩
  | cons column columns ih =>
    obtain ⟨columnIndex,columnHandle⟩ := column
    rw [filterColumns] at h
    split at h
    · cases h
    · rename_i filter hl
      obtain ⟨next,hnx,h⟩ := bind_ok h
      have hts : columnTest H M page df (columnIndex,columnHandle) i =
          rowTest H M (page.mapping columnIndex).hiveColumnHandle.type (page.block columnIndex) filter i := by
        rw [columnTest,hl]
      rcases filterColumn_ok H M hnx i with ⟨hi,hn⟩ | ⟨hi,hn⟩
      · rcases ih h with ⟨-,ht,-⟩ | ⟨hu,-⟩
        · rw [hn] at ht
          cases ht
        · exact .inr ⟨hu,.inl hi⟩
      · rw [← hts] at hn
        rcases ih h with ⟨hu,ht,ha⟩ | ⟨hu,hf | ⟨column,hc,hf⟩⟩
        · rw [ht] at hn
          exact .inl ⟨hu,hi,forall_mem_cons.mpr ⟨hn,ha⟩⟩
        · rw [hf] at hn
          exact .inr ⟨hu,.inr ⟨_,mem_cons_self,hn⟩⟩
        · exact .inr ⟨hu,.inr ⟨column,mem_cons_of_mem _ hc,hf⟩⟩

theorem filterColumns_total {columns : List (Fin page.channelCount × HiveColumnHandle T)}
    (kept : Fin page.positionCount → Bool)
    (h : ∀ column ∈ columns, ∀ i, ∃ passed, columnTest H M page df column i = .ok passed)
    (hl : ∀ column ∈ columns, df.lookup column.2 ≠ none) :
    ∃ updated, filterColumns page H M df kept columns = .ok updated := by
  induction columns generalizing kept with
  | nil => exact ⟨_,rfl⟩
  | cons column columns ih =>
    obtain ⟨hc,hcs⟩ := forall_mem_cons.mp h
    obtain ⟨filter,hf⟩ := Option.ne_none_iff_exists'.mp (hl _ mem_cons_self)
    simp only [columnTest,hf] at hc
    obtain ⟨next,hn⟩ := filterColumn_total H M kept hc
    obtain ⟨updated,hu⟩ := ih next hcs fun other ho => hl other (mem_cons_of_mem _ ho)
    refine ⟨updated,?_⟩
    rw [filterColumns]
    simp only [hf,hn]
    exact hu

omit [DecidableEq T] in
theorem union_apply (result kept : Fin page.positionCount → Bool)
    (columns : List (Fin page.channelCount × HiveColumnHandle T)) (i : Fin page.positionCount) :
    union page result kept columns i = (result i || (!columns.isEmpty && kept i)) := by
  induction columns generalizing result with
  | nil => simp [union]
  | cons column columns ih =>
    refine (ih _).trans ?_
    show (result i || kept i || (!columns.isEmpty && kept i)) = (result i || kept i)
    cases kept i <;> simp

/-- The row passes all eligible columns of the map, and there is one. -/
def Passed (H : BloomHash) (M : CellModel T Cell Other) (page : DataPage columnMappings) (i : Fin page.positionCount)
    (disjunct : FilterMap (HiveColumnHandle T) Other × List (Fin page.channelCount × HiveColumnHandle T)) : Prop :=
  disjunct.2 ≠ [] ∧ ∀ column ∈ disjunct.2, columnTest H M page disjunct.1 column i = .ok true

/-- The row fails in an eligible column of the map, or there is none. -/
def Failed (H : BloomHash) (M : CellModel T Cell Other) (page : DataPage columnMappings) (i : Fin page.positionCount)
    (disjunct : FilterMap (HiveColumnHandle T) Other × List (Fin page.channelCount × HiveColumnHandle T)) : Prop :=
  disjunct.2 = [] ∨ ∃ column ∈ disjunct.2, columnTest H M page disjunct.1 column i = .ok false

theorem filterMaps_ok
    {disjuncts : List (FilterMap (HiveColumnHandle T) Other × List (Fin page.channelCount × HiveColumnHandle T))}
    {result updated : Fin page.positionCount → Bool} (h : filterMaps page H M result disjuncts = .ok updated)
    (i : Fin page.positionCount) :
    updated i = true ∧ (result i = true ∨ ∃ disjunct ∈ disjuncts, Passed H M page i disjunct) ∨
      updated i = false ∧ result i = false ∧ ∀ disjunct ∈ disjuncts, Failed H M page i disjunct := by
  induction disjuncts generalizing result with
  | nil =>
    obtain rfl := Except.ok.inj h
    cases hi : result i with
    | false => exact .inr ⟨rfl,rfl,by simp⟩
    | true => exact .inl ⟨rfl,.inl rfl⟩
  | cons disjunct disjuncts ih =>
    obtain ⟨df,columns⟩ := disjunct
    obtain ⟨kept,hfl,h⟩ := bind_ok h
    have hun := union_apply result kept columns i
    rcases ih h with ⟨hu,hr | ⟨disjunct,hd,hp⟩⟩ | ⟨hu,hr,hfd⟩
    · refine .inl ⟨hu,?_⟩
      rw [hun,Bool.or_eq_true] at hr
      refine hr.imp_right fun hp => ⟨_,mem_cons_self,?_⟩
      obtain ⟨hne,ht⟩ := Bool.and_eq_true_iff.mp hp
      rcases filterColumns_ok hfl i with ⟨-,-,ha⟩ | ⟨hf,-⟩
      · exact ⟨by simpa using hne,ha⟩
      · rw [hf] at ht
        cases ht
    · exact .inl ⟨hu,.inr ⟨disjunct,mem_cons_of_mem _ hd,hp⟩⟩
    · rw [hun,Bool.or_eq_false_iff] at hr
      refine .inr ⟨hu,hr.1,forall_mem_cons.mpr ⟨?_,hfd⟩⟩
      rcases filterColumns_ok hfl i with ⟨ht,-,-⟩ | ⟨-,hf | hrj⟩
      · left
        simpa [ht] using hr.2
      · cases hf
      · exact .inr hrj

theorem filterMaps_total
    {disjuncts : List (FilterMap (HiveColumnHandle T) Other × List (Fin page.channelCount × HiveColumnHandle T))}
    (result : Fin page.positionCount → Bool) (h : ∀ disjunct ∈ disjuncts, ∀ column ∈ disjunct.2,
      disjunct.1.lookup column.2 ≠ none ∧ ∀ i, ∃ passed, columnTest H M page disjunct.1 column i = .ok passed) :
    ∃ updated, filterMaps page H M result disjuncts = .ok updated := by
  induction disjuncts generalizing result with
  | nil => exact ⟨_,rfl⟩
  | cons disjunct disjuncts ih =>
    obtain ⟨hd,hds⟩ := forall_mem_cons.mp h
    obtain ⟨kept,hf⟩ := filterColumns_total (fun _ => true) (fun column hc => (hd column hc).2)
      fun column hc => (hd column hc).1
    obtain ⟨updated,hu⟩ := ih (union page result kept disjunct.2) hds
    refine ⟨updated,?_⟩
    rw [filterMaps,hf]
    exact hu

end
end HetuCore.DynamicFiltering.RowFilter
