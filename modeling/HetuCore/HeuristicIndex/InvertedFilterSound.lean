import HetuCore.HeuristicIndex.InvertedFilterLaws
import HetuCore.HeuristicIndex.ForwardFilterSeen

namespace HetuCore.HeuristicIndex.InvertedFilter
open HetuCore.Relation Foundation BTreeIndex RowExpression ComparisonOperator
open ForwardFilter (TableRow DataStripe DataFile KeepsOrder ByOrder PlainOperand Readable IsTrue toRow_eq_some eq_of_equal
  evaluate_eq_true mem_keys)
variable {S : Signature} {columns : Columns S} {M : ObjectModel S}

/-- AND and OR over comparisons, BETWEEN and IN without a cast of the constant. -/
def Supported : {t : SqlType S.Base} → RowExpression S t → Prop
  | _, .comparison _ _ _ _ right => PlainOperand right
  | _, .between _ _ _ low high => PlainOperand low ∧ PlainOperand high
  | _, .isIn _ _ _ values => ∀ i, PlainOperand (values i)
  | _, .logical _ left right => Supported left ∧ Supported right
  | _, _ => False

variable {t : SqlType S.Base} {operator : ComparisonOperator}

theorem Supported.readable (I : Interpretation S) (hor : ∀ t, KeepsOrder M t) {expression : RowExpression S t}
    (h : Supported expression) : Readable M I expression := by
  induction expression with
  | comparison operator t supported left right => exact ⟨fun _ => hor t,ForwardFilter.PlainOperand.faithful I h⟩
  | between t supported value low high =>
    exact ⟨hor t,ForwardFilter.PlainOperand.faithful I h.1,ForwardFilter.PlainOperand.faithful I h.2⟩
  | isIn t supported target values => exact fun i => ForwardFilter.PlainOperand.faithful I (h i)
  | logical form left right ihl ihr => exact ⟨ihl h.1,ihr h.2⟩
  | _ => exact trivial

theorem rankHolds_of_holds (hor : ByOrder operator → KeepsOrder M t) {w v : S.Value t} (hne : operator ≠ .notEqual)
    (hd : operator ≠ .isDistinctFrom) (h : operator.holds w v = true) :
    RankHolds operator (M.rank (M.actual t w)) (M.rank (M.actual t v)) := by
  cases operator with
  | equal => rw [eq_of_equal h]; rfl
  | lessThan => exact hor trivial w v h
  | lessThanOrEqual => exact (hor trivial).rank_le h
  | greaterThan => exact hor trivial v w ((holds_flip .greaterThan w v).trans h)
  | greaterThanOrEqual => exact (hor trivial).rank_le ((holds_flip .greaterThanOrEqual w v).trans h)
  | notEqual => exact absurd rfl hne
  | isDistinctFrom => exact absurd rfl hd

theorem extracts_plain {e : RowExpression S t} (hp : PlainOperand e) {o : M.Object (M.classOf t)}
    (h : Extracts M (M.classOf t) e o) : M.supported t = true ∧ ∃ v, e = .constant t (some v) ∧ o = M.actual t v := by
  rw [Extracts] at h
  cases e with
  | constant t value =>
    refine ⟨by_contra fun hn => ?_,?_⟩
    · rw [ObjectModel.extractValueFromRowExpression,ObjectModel.getActualValue.eq_def,if_neg hn] at h
      cases h
    · obtain ⟨v,rfl,ho⟩ := M.getActualValue_eq_some h
      exact ⟨v,rfl,eq_of_heq (Sigma.mk.inj ho).2⟩
  | cast s t argument => exact hp.elim
  | call function arguments =>
    rw [ObjectModel.extractValueFromRowExpression] at h
    split at h <;> cases h
  | _ => cases h

theorem lookUp_isDistinctFrom {c : M.Class} {Symbol : Type} [LinearOrder Symbol] (index : BTreeIndex M c Symbol)
    (right : RowExpression S t) :
    ∃ failure, index.lookUp (.call (.comparison .isDistinctFrom) right) = .error failure := by
  cases hl : index.lookUp (.call (.comparison .isDistinctFrom) right) with
  | error failure => exact ⟨failure,rfl⟩
  | ok symbols =>
    obtain ⟨results,hr,-⟩ := bind_ok hl
    obtain ⟨key,-,hc⟩ := bind_ok hr
    cases hc

section
variable (I : Interpretation S) {row : TableRow columns} {right : RowExpression S t}

theorem rankHolds_of_evaluate (hor : ByOrder operator → KeepsOrder M t) (hne : operator ≠ .notEqual)
    (hd : operator ≠ .isDistinctFrom) (hp : PlainOperand right) {w : S.Value t}
    {o : M.Object (M.classOf t)} (ho : Extracts M (M.classOf t) right o)
    (h : operator.evaluate (some w) (eval I (TableRow.toRow row) right) = some true) :
    M.supported t = true ∧ RankHolds operator (M.rank (M.actual t w)) (M.rank o) := by
  obtain ⟨hsp,v,rfl,rfl⟩ := extracts_plain hp ho
  obtain ⟨_,_,⟨⟩,⟨⟩,hh⟩ := evaluate_eq_true hd h
  exact ⟨hsp,rankHolds_of_holds hor hne hd hh⟩

variable {Symbol : Type} [LinearOrder Symbol] {index : BTreeIndex M (M.classOf t) Symbol} {symbols : List Symbol}
  {w : S.Value t}

theorem selects_comparison (hor : ByOrder operator → KeepsOrder M t) (hp : PlainOperand right)
    (hl : index.lookUp (.call (.comparison operator) right) = .ok symbols)
    (h : operator.evaluate (some w) (eval I (TableRow.toRow row) right) = some true) :
    M.supported t = true ∧ (Query.call (.comparison operator) right).Selects M (M.actual t w) := by
  obtain ⟨results,hr,-⟩ := bind_ok hl
  obtain ⟨key,hk,hc⟩ := bind_ok hr
  obtain ⟨o,rfl,-⟩ := lookUpComparison_finds hc
  have hne : operator ≠ .notEqual := by rintro rfl; cases hc
  have hd : operator ≠ .isDistinctFrom := by rintro rfl; cases hc
  obtain ⟨hs,hr⟩ := rankHolds_of_evaluate I hor hne hd hp hk h
  exact ⟨hs,o,hk,hr⟩

theorem selects_between (hor : KeepsOrder M t) {low high : RowExpression S t} (hlw : PlainOperand low) (hh : PlainOperand high)
    (hlu : index.lookUp (.between low high) = .ok symbols)
    (hge : greaterThanOrEqual.evaluate (some w) (eval I (TableRow.toRow row) low) = some true)
    (hle : lessThanOrEqual.evaluate (some w) (eval I (TableRow.toRow row) high) = some true) :
    M.supported t = true ∧ (Query.between low high).Selects M (M.actual t w) := by
  obtain ⟨results,hr,-⟩ := bind_ok hlu
  obtain ⟨left,hl,hr⟩ := bind_ok hr
  obtain ⟨right,hrg,hr⟩ := bind_ok hr
  obtain ⟨a,ha,hr⟩ := bind_ok hr
  obtain ⟨b,hb,-⟩ := bind_ok hr
  obtain rfl := comparable_eq_ok ha
  obtain rfl := comparable_eq_ok hb
  obtain ⟨hs,hlo⟩ := rankHolds_of_evaluate I (fun _ => hor) (by simp) (by simp) hlw hl hge
  exact ⟨hs,a,b,hl,hrg,hlo,(rankHolds_of_evaluate I (fun _ => hor) (by simp) (by simp) hh hrg hle).2⟩

theorem selects_isIn {values : List (RowExpression S t)} {value : RowExpression S t} (hv : value ∈ values)
    (hp : PlainOperand value) (hl : index.lookUp (.isIn values) = .ok symbols)
    (h : equal.evaluate (some w) (eval I (TableRow.toRow row) value) = some true) :
    M.supported t = true ∧ (Query.isIn values).Selects M (M.actual t w) := by
  obtain ⟨results,hr,-⟩ := bind_ok hl
  obtain ⟨found,hfn,-⟩ := bind_ok hr
  obtain ⟨_,-,hf⟩ := (mapM_ok hfn).1 value hv
  obtain ⟨key,hk,hf⟩ := bind_ok hf
  obtain ⟨o,ho,-⟩ := bind_ok hf
  obtain rfl := comparable_eq_ok ho
  obtain ⟨hs,hr⟩ := rankHolds_of_evaluate I False.elim (by simp) (by simp) hp hk h
  exact ⟨hs,value,hv,o,hk,hr⟩

end

theorem supports_equal {t : Predicate.ColumnType} (h : operator.Supports t) : equal.Supports t := by
  cases t with
  | orderable α | comparable α => exact trivial
  | incomparable α => cases operator <;> exact h.elim

section
variable {Path Partition : Type} {table : Table columns Path Partition} (indices : TableIndices M table)

/-- The column has an index, and the index can be asked for a value. -/
def Asked (name : String) : Prop :=
  indices name ≠ [] ∧ M.supported (columns name) = true ∧ equal.Supports (S.columnType (columns name))

/-- The columns that can be asked for their value in a row have an index that has seen the file. -/
def Seen (cols : List String) (file : TableFile columns Path Partition) (row : TableRow columns) : Prop :=
  ∀ name ∈ cols, Asked indices name → row name ≠ none → ∃ ix ∈ indices name, ix.HasSeen file

variable {indices} [LinearOrder (LookUpResult Path)] {cols : List String}
  {file : TableFile columns Path Partition} {stripe : DataStripe columns}
  {row : TableRow columns} (hrow : row ∈ stripe.rows) (hseen : Seen indices cols file row)
include hrow hseen

/-- A row that has a selected key is listed by an index that has seen its file. -/
theorem listedFor_of_selects {name : String} {query : Query S} {result : Option (List (LookUpResult Path))}
    (hl : lookUpAll (btrees cols indices) (.variable t name) query = .ok result) (ht : equal.Supports (S.columnType t))
    {w : S.Value t} (hw : TableRow.toRow row t name = some w)
    (hs : ∀ ix : BTreeIndex M (M.classOf t) (LookUpResult Path), ∀ symbols, ix.lookUp query = .ok symbols →
      M.supported t = true ∧ query.Selects M (M.actual t w)) : ListedFor indices (.variable t name) query file stripe := by
  obtain ⟨rfl,hn⟩ := toRow_eq_some hw
  refine or_iff_not_imp_left.mpr fun ha => ?_
  obtain ⟨hne,ha⟩ := not_or.mp ha
  have hok : ∀ ix ∈ indices name, ∃ symbols, ix.index.lookUp query = .ok symbols := fun ix hix => by
    cases hq : ix.index.lookUp query with
    | error failure => exact absurd ⟨ix,hix,failure,hq⟩ ha
    | ok symbols => exact ⟨symbols,rfl⟩
  have hr : name ∈ cols := by_contra fun hr => by
    rw [lookUpAll,btrees,if_neg hr] at hl
    cases hl
  obtain ⟨ix,hix⟩ := List.exists_mem_of_ne_nil _ hne
  obtain ⟨symbols,hq⟩ := hok ix hix
  obtain ⟨hsp,hsl⟩ := hs ix.index symbols hq
  obtain ⟨ix,hix,hx⟩ := hseen name hr ⟨hne,hsp,ht⟩ (by simp [hn])
  exact ⟨ix,hix,hx,_,mem_keys hrow hn,hsl⟩

theorem listed_of_isTrue (I : Interpretation S) {expression : RowExpression S t} (hs : Supported expression)
    (hr : Readable M I expression) {result : Option (List (LookUpResult Path))}
    (hl : lookUp (btrees cols indices) expression = .ok result)
    (h : IsTrue (eval I (TableRow.toRow row) expression)) : Listed indices file stripe expression := by
  induction expression generalizing result with
  | comparison operator t supported left right =>
    cases left with
    | «variable» t name =>
      by_cases hd : operator = .isDistinctFrom
      · subst hd
        refine .inl (or_iff_not_imp_left.mpr fun hne => ?_)
        obtain ⟨ix,hix⟩ := List.exists_mem_of_ne_nil _ hne
        exact ⟨ix,hix,lookUp_isDistinctFrom ix.index right⟩
      obtain ⟨w,-,hw,-⟩ := evaluate_eq_true hd h
      refine listedFor_of_selects hrow hseen hl (supports_equal supported) hw fun ix symbols hlu => ?_
      exact selects_comparison I hr.1 hs hlu (by rwa [← hw])
    | _ => exact trivial
  | between t supported value low high =>
    obtain ⟨hlw,hh⟩ := (inf_eq_top_iff (α := Kleene)).mp h
    cases value with
    | «variable» t name =>
      obtain ⟨w,-,hw,-⟩ := evaluate_eq_true (by simp) hlw
      refine listedFor_of_selects hrow hseen hl (supports_equal supported) hw fun ix symbols hlu => ?_
      exact selects_between I hr.1 hs.1 hs.2 hlu (by rwa [← hw]) (by rwa [← hw])
    | _ => exact trivial
  | isIn t supported target values =>
    obtain ⟨x,hx,ht⟩ := (Kleene.combine_or_eq_top _).mp h
    obtain ⟨i,rfl⟩ := List.mem_ofFn.mp hx
    cases target with
    | «variable» t name =>
      obtain ⟨w,-,hw,-⟩ := evaluate_eq_true (by simp) ht
      refine listedFor_of_selects hrow hseen hl supported hw fun ix symbols hlu => ?_
      exact selects_isIn I (List.mem_ofFn.mpr ⟨i,rfl⟩) (hs i) hlu (by rwa [← hw])
    | _ => exact trivial
  | logical form left right ihl ihr =>
    cases form with
    | and =>
      obtain ⟨a,ha,hl⟩ := bind_ok hl
      obtain ⟨b,hb,-⟩ := bind_ok hl
      obtain ⟨hle,hri⟩ := (inf_eq_top_iff (α := Kleene)).mp h
      exact ⟨ihl hs.1 hr.1 ha hle,ihr hs.2 hr.2 hb hri⟩
    | or =>
      obtain ⟨a,ha,hl⟩ := bind_ok hl
      obtain ⟨b,hb,-⟩ := bind_ok hl
      exact ((max_eq_top (α := Kleene)).mp h).imp (ihl hs.1 hr.1 ha) (ihr hs.2 hr.2 hb)
  | _ => exact hs.elim

end

section
variable {Path Partition : Type} [DecidableEq Partition] [LinearOrder (LookUpResult Path)]
  {table : Table columns Path Partition} (I : Interpretation S)
  (indices : TableIndices M table) (cols : List String)

/-- If an index counts for the file, then the columns that can be asked for a value in the split have an index that has
seen the file. -/
def UpToDate (split : TableSplit table) : Prop :=
  Covered cols indices split.file → ∀ stripe ∈ split.file.stripes, split.Overlaps stripe →
    ∀ row ∈ stripe.rows, Seen indices cols split.file row

variable [DecidableEq Path]

theorem returned_of_seen {expression : RowExpression S .boolean} (hs : Supported expression) (hr : Readable M I expression)
    {splits : List (TableSplit table)} {split : TableSplit table} (hsp : split ∈ splits)
    (hu : UpToDate indices cols split) (h : split.Satisfied I expression) : split.toSplit ∈
      filterUsingInvertedIndex expression (splits.map TableSplit.toSplit) cols (loaded indices) := by
  by_cases hd : Decided expression cols indices
  · rw [mem_filterUsingInvertedIndex expression cols indices hd splits hsp]
    refine or_iff_not_imp_left.mpr fun hc => ?_
    push Not at hc
    obtain ⟨stripe,hst,ho,row,hrow,ht⟩ := h
    obtain ⟨results,hl⟩ := hd
    have hseen := hu ((covered_iff cols indices _).mpr hc) stripe hst ho row hrow
    exact ⟨stripe,hst,ho,listed_of_isTrue hrow hseen I hs hr hl ht⟩
  · rw [filterUsingInvertedIndex_undecided expression cols indices hd]
    exact List.mem_map_of_mem hsp

theorem evaluate_equal_self {t : Predicate.ColumnType} (h : equal.Supports t) (v : t.Value) :
    equal.evaluate (some v) (some v) = some true := by
  cases t with
  | orderable α | comparable α => exact congrArg some (decide_eq_true rfl)
  | incomparable α => exact h.elim

/-- The column is asked for the value. -/
def equals (name : String) (h : equal.Supports (S.columnType (columns name))) (v : S.Value (columns name)) :
    RowExpression S .boolean :=
  .comparison .equal (columns name) h (.variable _ name) (.constant _ (some v))

omit [DecidableEq Partition] [DecidableEq Path] in
theorem decided_equals {name : String} (hn : name ∈ cols) (ha : Asked indices name) (v : S.Value (columns name)) :
    Decided (equals name ha.2.2 v) cols indices ∧ ∀ file stripe,
      Listed indices file stripe (equals name ha.2.2 v) → ∃ ix ∈ indices name, ix.HasSeen file := by
  obtain ⟨hne,hsp,hq⟩ := ha
  have hok : ∀ index : BTreeIndex M (M.classOf (columns name)) (LookUpResult Path), ∀ failure,
      index.lookUp (.call (.comparison .equal) (.constant (columns name) (some v))) ≠ .error failure := by
    intro index failure h
    have he : M.extractValueFromRowExpression (.constant (columns name) (some v)) =
        .ok (some ⟨_,M.actual (columns name) v⟩) := if_pos hsp
    have hc : comparable (M.classOf (columns name)) (some ⟨_,M.actual (columns name) v⟩) = .ok (M.actual (columns name) v) :=
      dif_pos rfl
    simp only [BTreeIndex.lookUp,lookUpResults,he,lookUpCall,lookUpComparison,hc,bind,Except.bind] at h
    cases h
  constructor
  · rw [Decided,equals,lookUp,lookUpAll,btrees,if_pos hn]
    split
    · rename_i h
      cases h
    · rename_i h
      exact absurd (by simpa using h) hne
    · split
      · exact ⟨_,rfl⟩
      · rename_i hm
        obtain ⟨index,-,hf⟩ := mapM_error hm
        exact absurd hf (hok index _)
  · rintro file stripe ((hnl | ⟨ix,-,failure,hf⟩) | ⟨ix,hix,hx,-⟩)
    · exact absurd hnl hne
    · exact absurd hf (hok ix.index failure)
    · exact ⟨ix,hix,hx⟩

end

namespace StaleIndex
open ForwardFilter.OutOfOrder (integers meaning objects objects_keepsOrder)

abbrev columnTypes : Columns integers := fun _ => .other ()

def ones : TableRow columnTypes := fun _ => some (1 : Int)

theorem zero_lt_ten : (0 : Int) < 10 := by decide

def stripe : DataStripe columnTypes := ⟨0,10,zero_lt_ten,[ones,fun _ => some (2 : Int)]⟩

def file : TableFile columnTypes Unit Unit where
  stripes := [stripe]
  disjoint := by simp
  path := ()
  partitionKey := none
  lastModifiedTime := 5

def table : Table columnTypes Unit Unit := ⟨[file],by simp⟩

instance : LinearOrder (LookUpResult Unit) :=
  LinearOrder.lift' (fun result => toLex result.stripe) fun ⟨_,_⟩ ⟨_,_⟩ h => congrArg (LookUpResult.mk ()) h

def stale : IndexMetadata objects () Unit Unit := ⟨none,3,⟨[],List.Pairwise.nil⟩⟩

def fresh : IndexMetadata objects () Unit Unit :=
  ⟨none,5,⟨[((1 : Int),[file.symbol stripe]),((2 : Int),[file.symbol stripe])],
    List.pairwise_pair.mpr (show (1 : Int) < 2 by decide)⟩⟩

def staleIndex (name : String) : TableIndex objects table name where
  toIndexMetadata := stale
  exact key s := by
    refine iff_of_false ?_ ?_
    · rintro ⟨entry,hentry,-⟩
      cases hentry
    · rintro ⟨file',hfile,⟨-,htime⟩,-⟩
      obtain rfl := List.mem_singleton.mp hfile
      exact absurd htime (show ¬ (5 : Int) ≤ 3 by decide)

def freshIndex (name : String) : TableIndex objects table name where
  toIndexMetadata := fresh
  exact key s := by
    constructor
    · rintro ⟨entry,hentry,hs,hrank⟩
      have hfile : ∀ k ∈ stripe.keys objects name, ∃ file' ∈ table.files, fresh.HasSeen file' ∧ ∃ stripe' ∈ file'.stripes,
          file.symbol stripe = file'.symbol stripe' ∧ ∃ k' ∈ stripe'.keys objects name, objects.rank k' = objects.rank k :=
        fun k hk => ⟨file,List.mem_cons_self,⟨.inl rfl,le_rfl⟩,stripe,List.mem_cons_self,rfl,k,hk,rfl⟩
      rcases List.mem_pair.mp hentry with rfl | rfl <;> obtain rfl := List.mem_singleton.mp hs
      · exact hrank ▸ hfile (1 : Int) List.mem_cons_self
      · exact hrank ▸ hfile (2 : Int) (List.mem_cons_of_mem _ List.mem_cons_self)
    · rintro ⟨file',hfile,-,stripe',hstripe,rfl,k,hk,hrank⟩
      obtain rfl := List.mem_singleton.mp hfile
      obtain rfl := List.mem_singleton.mp hstripe
      rcases List.mem_pair.mp hk with rfl | rfl
      · exact ⟨_,List.mem_cons_self,List.mem_cons_self,hrank⟩
      · exact ⟨_,List.mem_cons_of_mem _ List.mem_cons_self,List.mem_cons_self,hrank⟩

/-- Only the index on `a` is out of date. -/
def indices : TableIndices objects table := fun name => if name = "a" then [staleIndex name] else [freshIndex name]

def isOne (name : String) : RowExpression integers .boolean :=
  .comparison .equal (.other ()) trivial (.variable _ name) (.constant _ (some (1 : Int)))

def expression : RowExpression integers .boolean := .logical .and (isOne "a") (isOne "b")

def split : TableSplit table := ⟨file,List.mem_cons_self,0,10,by decide⟩

end StaleIndex
end HetuCore.HeuristicIndex.InvertedFilter
