import HetuCore.HeuristicIndex.ForwardFilterLaws

namespace HetuCore.HeuristicIndex.ForwardFilter
open HetuCore.Relation SplitSearch StripeIndex List
variable {S : Signature} {columns : Columns S}

def StripeIndex.start {file : DataFile columns} (entry : StripeIndex file) : Int := entry.stripe.start

def ofKind {file : DataFile columns} (entries : List (StripeIndex file)) (kind : IndexKind) : List (StripeIndex file) :=
  entries.filter fun entry => decide (entry.kind = kind)

/-- What the ordered insertion and the search leave of the indexes of a column. -/
def survivors (split : IndexedSplit columns) (entries : List (StripeIndex split.file)) : List (StripeIndex split.file) :=
  [IndexKind.minMax,IndexKind.bloom].flatMap fun kind =>
    subArray start (insertAll start (ofKind entries kind)) split.range.startIndex split.range.endIndex

def asked (cols : List String) (split : IndexedSplit columns) : Asked split.file :=
  fun name => if name ∈ cols then survivors split ((split.listed name).getD []) else []

section
variable (config : BloomConfig) (M : ObjectModel S)

theorem getId_metadata {file : DataFile columns} (name : String) (entry : StripeIndex file) :
    (entry.metadata config M name).index.getId = entry.kind := by
  obtain ⟨kind,stripe,hs⟩ := entry
  cases kind <;> rfl

variable (split : IndexedSplit columns) (cols : List String)

theorem indicesOfCol_map (name : String) (entries : List (StripeIndex split.file)) :
    indicesOfCol split.range (entries.map (metadata config M name)) =
      (survivors split entries).map (metadata config M name) := by
  have hk : ∀ kind, (entries.map (metadata config M name)).filter (fun m => decide (m.index.getId = kind)) =
      (ofKind entries kind).map (metadata config M name) := fun kind => by
    rw [filter_map]
    congr 2
    funext entry
    exact congrArg (fun k => decide (k = kind)) (getId_metadata config M name entry)
  simp only [indicesOfCol,survivors,indexGroup,hk,insertAll_map,subArray_map,map_flatMap]
  rfl

theorem survivors_nil : survivors split [] = [] := by
  refine eq_nil_iff_forall_not_mem.mpr fun entry he => ?_
  obtain ⟨kind,-,he⟩ := mem_flatMap.mp he
  exact absurd (mem_of_mem_subArray he) not_mem_nil

theorem holds_allIndices (split : IndexedSplit columns) :
    Holds config M (allIndices cols (split.splitIndices config M) split.range) (asked cols split) := by
  intro name
  rw [allIndices,asked]
  split
  · rw [IndexedSplit.splitIndices]
    cases split.listed name with
    | none => rw [Option.getD_none,survivors_nil]; rfl
    | some entries =>
      cases entries with
      | nil => rw [Option.getD_some,survivors_nil]; rfl
      | cons entry entries => exact indicesOfCol_map config M split name (entry :: entries)
  · rfl

/-- The shortcut for a split without indexes agrees with asking the filter. -/
theorem keepsSplit_decides (split : IndexedSplit columns) (expression : RowExpression S .boolean) :
    Decides (Safe config M (asked cols split) expression) (Possible config M (asked cols split) expression)
      (keepsSplit config cols (split.splitIndices config M) expression split.range) := by
  have hd := matches_decides (holds_allIndices config M cols split) expression
  rw [keepsSplit]
  split
  · rename_i hn
    have hnl : ∀ name, asked cols split name = [] := by
      intro name
      have hnm : allIndices cols (split.splitIndices config M) split.range name = none := by
        by_cases hr : name ∈ cols
        · exact Option.isNone_iff_eq_none.mp (all_eq_true.mp hn name hr)
        · rw [allIndices,if_neg hr]
      have hh := holds_allIndices config M cols split name
      rw [hnm] at hh
      exact map_eq_nil_iff.mp hh.symm
    obtain ⟨hs,hp⟩ := safe_possible_of_nil config M hnl expression
    exact ⟨fun _ => ⟨true,rfl,iff_of_true rfl hp⟩,fun h => absurd hs h⟩
  · exact hd

end

/-- No index of the same kind that comes first in the list starts behind this one. -/
def NotBefore {file : DataFile columns} (entries : List (StripeIndex file)) (entry : StripeIndex file) : Prop :=
  ∀ first, (ofKind entries entry.kind).head? = some first → first.start ≤ entry.start

theorem StripeIndex.eq_of_start {file : DataFile columns} {a b : StripeIndex file} (hk : a.kind = b.kind)
    (hst : a.start = b.start) : a = b := by
  have hs : a.stripe = b.stripe := by
    have ha := a.stripe.nonempty
    have hb := b.stripe.nonempty
    rw [start,start] at hst
    exact (file.stripe_cases a.ofFile b.ofFile).resolve_right (by omega)
  cases b
  cases hk
  cases hs
  rfl

/-- An index of an overlapping stripe is lost just if it starts before the first one of its kind. -/
theorem mem_survivors_iff (split : IndexedSplit columns) {entries : List (StripeIndex split.file)}
    {entry : StripeIndex split.file} (he : entry ∈ entries) (hov : entry.stripe.Overlaps split.range) :
    entry ∈ survivors split entries ↔ NotBefore entries entry := by
  have hm : entry ∈ ofKind entries entry.kind := mem_filter.mpr ⟨he,decide_eq_true rfl⟩
  have hk : ∀ kind, ∀ other ∈ ofKind entries kind, other.kind = kind := fun kind other ho =>
    of_decide_eq_true (mem_filter.mp ho).2
  have hs : entry ∈ survivors split entries ↔ entry ∈ subArray start
      (insertAll start (ofKind entries entry.kind)) split.range.startIndex split.range.endIndex := by
    rw [survivors,mem_flatMap]
    constructor
    · rintro ⟨kind,-,hin⟩
      have hsm := hk kind entry (mem_of_mem_insertAll _ (mem_of_mem_subArray hin))
      rwa [hsm]
    · intro hin
      exact ⟨entry.kind,by cases entry.kind <;> simp,hin⟩
  obtain ⟨first,rest,hg⟩ := exists_cons_of_ne_nil (ne_nil_of_mem hm)
  rw [hs,NotBefore,hg]
  obtain ⟨rest',hal,ha,hm'⟩ := insertAll_spec start first rest
  rw [hal]
  constructor
  · intro hin other ho
    cases ho
    exact ((hm' entry).mp (mem_of_mem_subArray hin)).2
  · intro hnt
    have hkn : ∀ other ∈ first :: rest', other.kind = entry.kind := fun other ho =>
      hk _ other (hg ▸ ((hm' other).mp ho).1)
    rw [DataStripe.Overlaps,max_lt_iff,lt_min_iff,lt_min_iff] at hov
    obtain ⟨⟨-,hst⟩,hsr,-⟩ := hov
    refine mem_subArray ha ((hm' entry).mpr ⟨hg ▸ hm,hnt first rfl⟩) ?_ hst ?_
    · exact fun other ho heq => eq_of_start (hkn other ho) heq
    · -- a stripe that starts later starts behind the end of this one
      intro other ho hl
      have hn := other.stripe.nonempty
      rw [start,start] at hl
      have hnx := (split.file.stripe_cases entry.ofFile other.ofFile).resolve_left fun h => by
        rw [h] at hl
        exact lt_irrefl _ hl
      rw [start]
      omega

section
variable (config : BloomConfig) (M : ObjectModel S) (I : Interpretation S) (cols : List String)
  (expression : RowExpression S .boolean)

/-- Some row of the split satisfies the predicate. -/
def Satisfied (split : IndexedSplit columns) : Prop :=
  ∃ stripe ∈ split.file.stripes, stripe.Overlaps split.range ∧ ∃ row ∈ stripe.rows,
    RowExpression.truth I (TableRow.toRow row) expression = some true

/-- No index whose stripe overlaps the split is lost. -/
def NoneLost (split : IndexedSplit columns) : Prop :=
  ∀ name ∈ cols, ∀ entries, split.listed name = some entries → ∀ entry ∈ entries,
    entry.stripe.Overlaps split.range →
    entry.metadata config M name ∈ indicesOfCol split.range (entries.map (metadata config M name))

/-- No index of an overlapping stripe starts before the first one of its kind. -/
def InOrder (split : IndexedSplit columns) : Prop :=
  ∀ name ∈ cols, ∀ entries, split.listed name = some entries → ∀ entry ∈ entries,
    entry.stripe.Overlaps split.range → NotBefore entries entry

theorem metadata_mem_iff (split : IndexedSplit columns) (name : String) {entries : List (StripeIndex split.file)}
    {entry : StripeIndex split.file} (hen : entry ∈ entries) (ho : entry.stripe.Overlaps split.range) :
    entry.metadata config M name ∈ indicesOfCol split.range (entries.map (metadata config M name)) ↔
      NotBefore entries entry := by
  rw [indicesOfCol_map,← mem_survivors_iff split hen ho]
  constructor
  · intro h
    obtain ⟨other,hot,he⟩ := mem_map.mp h
    have hk := congrArg (fun m => m.index.getId) he
    rw [getId_metadata,getId_metadata] at hk
    rwa [← eq_of_start hk (congrArg IndexMetadata.splitStart he)]
  · exact mem_map_of_mem

theorem noneLost_iff (split : IndexedSplit columns) :
    NoneLost config M cols split ↔ InOrder cols split := by
  refine forall_congr' fun name => forall_congr' fun _ => forall_congr' fun entries => forall_congr' fun _ =>
    forall_congr' fun entry => forall_congr' fun he => forall_congr' fun ho => ?_
  exact metadata_mem_iff config M split name he ho

theorem filterUsingForwardIndex_eq_ok {splits kept : List (IndexedSplit columns)}
    (h : filterUsingForwardIndex config M expression cols splits = .ok kept) : ∀ split ∈ splits, ∃ b,
      keepsSplit config cols (split.splitIndices config M) expression split.range = .ok b := by
  induction splits generalizing kept with
  | nil => simp
  | cons split splits ih =>
    rw [filterUsingForwardIndex] at h
    obtain ⟨b,hb,h⟩ := Foundation.bind_ok h
    obtain ⟨filtered,hf,-⟩ := Foundation.bind_ok h
    exact forall_mem_cons.mpr ⟨⟨b,hb⟩,ih hf⟩

theorem filterUsingForwardIndex_of_ok {splits : List (IndexedSplit columns)} (h : ∀ split ∈ splits, ∃ b,
      keepsSplit config cols (split.splitIndices config M) expression split.range = .ok b) :
    ∃ kept, filterUsingForwardIndex config M expression cols splits = .ok kept ∧
      ∀ split ∈ splits, keepsSplit config cols (split.splitIndices config M) expression split.range = .ok true →
        split ∈ kept := by
  induction splits with
  | nil => exact ⟨[],rfl,by simp⟩
  | cons split splits ih =>
    obtain ⟨⟨b,hb⟩,hr⟩ := forall_mem_cons.mp h
    obtain ⟨kept,hk,hm⟩ := ih hr
    refine ⟨if b then split :: kept else kept,?_,?_⟩
    · rw [filterUsingForwardIndex,hb,hk]
      rfl
    · refine forall_mem_cons.mpr ⟨fun ht => ?_,fun other ho ht => ?_⟩
      · obtain rfl : b = true := Except.ok.inj (hb.symm.trans ht)
        exact mem_cons_self
      · have := hm other ho ht
        split
        · exact mem_cons_of_mem _ this
        · exact this

end
namespace OutOfOrder

abbrev integers : Signature where
  Base := Unit
  base _ := .orderable Int
  Function _ _ := Empty
  displayName := Empty.elim
  deterministic := Empty.elim

def meaning : Interpretation integers where
  call function := function.elim
  special _ _ _ _ _ := none
  cast _ t _ := match t with
    | .boolean => false
    | .other _ => (0 : Int)

/-- Booleans as 0 and 1, integers as themselves. -/
def objects : ObjectModel integers where
  Class := Unit
  classEq := inferInstance
  Object _ := Int
  Rank _ := Int
  rankOrder _ := inferInstance
  rank o := o
  text o := reprStr o
  supported _ := true
  classOf _ := ()
  actual t v := match t, v with
    | .boolean, b => if b then 1 else 0
    | .other _, n => n
  nullFailure _ := none
  parse _ := none
  handle function := function.elim

abbrev table : Columns integers := fun _ => .other ()

def low : DataStripe table := ⟨0,10,by decide,[fun _ => some (1 : Int)]⟩
def high : DataStripe table := ⟨10,20,by decide,[fun _ => some (5 : Int)]⟩
def file : DataFile table := ⟨[low,high],by simp [low,high]⟩

def lowIndex : StripeIndex file := ⟨.minMax,low,mem_cons_self⟩
def highIndex : StripeIndex file := ⟨.minMax,high,mem_cons_of_mem _ mem_cons_self⟩

/-- The index of the second stripe comes first. -/
def split : IndexedSplit table where
  range := ⟨0,10⟩
  file := file
  listed _ := some [highIndex,lowIndex]
  covers := by
    rintro name _ ⟨⟩ - stripe hstripe
    rcases mem_cons.mp hstripe with rfl | hstripe
    · exact ⟨lowIndex,by simp,rfl⟩
    · obtain rfl := mem_singleton.mp hstripe
      exact ⟨highIndex,by simp,rfl⟩

/-- The comparison of `x` with a constant. -/
def compares (operator : ComparisonOperator) (n : Int) : RowExpression integers .boolean :=
  .comparison operator (.other ()) (by cases operator <;> trivial) (.variable _ "x") (.constant _ (some n))

def expression : RowExpression integers .boolean := compares .equal 1

def bloomConfig : BloomConfig := ⟨1,64,fun _ => 0⟩

theorem survivors_split : survivors split [highIndex,lowIndex] = [highIndex] := by
  have hf : floorSearch start [highIndex] 0 0 0 = .ok (-1) := by
    rw [floorSearch.eq_def,floorSearch.eq_def _ _ 0 ((0 + 0) / 2 - 1)]
    rfl
  have hc : ceilSearch start [highIndex] 0 0 10 = .ok 0 := by
    rw [ceilSearch.eq_def]
    rfl
  have hm : subArray start [highIndex] 0 10 = [highIndex] := by
    rw [subArray]
    simp only [length_singleton,Nat.cast_one,sub_self,hf,hc]
    rfl
  have hb : subArray start ([] : List (StripeIndex file)) 0 10 = [] :=
    eq_nil_iff_forall_not_mem.mpr fun _ h => absurd (mem_of_mem_subArray h) not_mem_nil
  exact congrArg₂ (· ++ ·) hm (congrArg (· ++ []) hb)

end OutOfOrder
end HetuCore.HeuristicIndex.ForwardFilter
