import HetuCore.HeuristicIndex.ForwardFilterSound

namespace HetuCore.HeuristicIndex.ForwardFilter
open HetuCore.Relation Foundation TableRow ComparisonOperator
variable {S : Signature} {columns : Columns S}

/-- The objects of a type are in the order of its values. -/
def KeepsOrder (M : ObjectModel S) (t : SqlType S.Base) : Prop :=
  ∀ v w : S.Value t, lessThan.holds v w = true → M.rank (M.actual t v) < M.rank (M.actual t w)

def PlainOperand : {t : SqlType S.Base} → RowExpression S t → Prop
  | _, .cast _ _ _ => False
  | _, _ => True

/-- No comparison is with a cast. -/
def Plain : {t : SqlType S.Base} → RowExpression S t → Prop
  | _, .comparison _ _ _ _ right => PlainOperand right
  | _, .between _ _ _ low high => PlainOperand low ∧ PlainOperand high
  | _, .isIn _ _ _ values => ∀ i, PlainOperand (values i)
  | _, .logical _ left right => Plain left ∧ Plain right
  | _, _ => True

/-- The operators that ask for the order of the values. -/
def ByOrder : ComparisonOperator → Prop
  | .equal | .notEqual | .isDistinctFrom => False
  | _ => True

/-- What is taken from the operand stands for its value. -/
def Faithful (M : ObjectModel S) (I : Interpretation S) {t : SqlType S.Base} (operand : RowExpression S t) : Prop :=
  ∀ row object v, M.extractValueFromRowExpression operand = .ok (some object) →
    RowExpression.eval I row operand = some v → object = ⟨M.classOf t,M.actual t v⟩

/-- Where values are compared by their order their objects are ordered alike, and what is taken from an operand stands
for its value. -/
def Readable (M : ObjectModel S) (I : Interpretation S) : {t : SqlType S.Base} → RowExpression S t → Prop
  | _, .comparison operator t _ _ right => (ByOrder operator → KeepsOrder M t) ∧ Faithful M I right
  | _, .between t _ _ low high => KeepsOrder M t ∧ Faithful M I low ∧ Faithful M I high
  | _, .isIn _ _ _ values => ∀ i, Faithful M I (values i)
  | _, .logical _ left right => Readable M I left ∧ Readable M I right
  | _, _ => True

variable {t : Predicate.ColumnType} {operator : ComparisonOperator}

theorem lessThan_or_eq {v w : t.Value} (h : lessThanOrEqual.holds v w = true) :
    lessThan.holds v w = true ∨ v = w := by
  cases t with
  | orderable α => exact (lt_or_eq_of_le (of_decide_eq_true h)).imp_left decide_eq_true
  | comparable α | incomparable α => cases h

theorem eq_of_equal {v w : t.Value} (h : equal.holds v w = true) : v = w := by
  cases t with
  | orderable α | comparable α => exact of_decide_eq_true h
  | incomparable α => cases h

variable {M : ObjectModel S}

theorem KeepsOrder.rank_le {t : SqlType S.Base} (h : KeepsOrder M t) {v w : S.Value t}
    (hle : lessThanOrEqual.holds v w = true) : M.rank (M.actual t v) ≤ M.rank (M.actual t w) := by
  rcases lessThan_or_eq hle with hlt | rfl
  · exact (h v w hlt).le
  · exact le_rfl

theorem PlainOperand.faithful (I : Interpretation S) {t : SqlType S.Base} {operand : RowExpression S t} (hp : PlainOperand operand) :
    Faithful M I operand := by
  intro row object v he hv
  cases operand with
  | constant t constant =>
    obtain ⟨w,rfl,rfl⟩ := M.getActualValue_eq_some he
    cases hv
    rfl
  | cast s t argument => exact hp.elim
  | call function arguments =>
    rw [ObjectModel.extractValueFromRowExpression] at he
    split at he <;> cases he
  | _ => cases he

theorem Plain.readable (I : Interpretation S) (ho : ∀ t, KeepsOrder M t) {t : SqlType S.Base} {e : RowExpression S t}
    (hp : Plain e) : Readable M I e := by
  induction e with
  | comparison operator t supported left right => exact ⟨fun _ => ho t,PlainOperand.faithful I hp⟩
  | between t supported value low high => exact ⟨ho t,PlainOperand.faithful I hp.1,PlainOperand.faithful I hp.2⟩
  | isIn t supported target values => exact fun i => PlainOperand.faithful I (hp i)
  | logical form left right ihl ihr => exact ⟨ihl hp.1,ihr hp.2⟩
  | _ => exact trivial

theorem admits_of_holds (config : BloomConfig) {t : SqlType S.Base} (h : ByOrder operator → KeepsOrder M t) (kind : IndexKind)
    {keys : List (M.Object (M.classOf t))} {w v : S.Value t} (hk : M.actual t w ∈ keys)
    (hh : operator.holds w v = true) : Admits config kind keys operator ⟨M.classOf t,M.actual t v⟩ := by
  cases kind with
  | bloom =>
    cases operator with
    | equal => exact fun position hp => ⟨_,hk,eq_of_equal hh ▸ hp⟩
    | _ => exact trivial
  | minMax =>
    cases operator with
    | equal =>
      obtain rfl := eq_of_equal hh
      exact ⟨_,rfl,⟨_,hk,le_rfl⟩,_,hk,le_rfl⟩
    | lessThan => exact ⟨_,rfl,_,hk,h trivial w v hh⟩
    | lessThanOrEqual => exact ⟨_,rfl,_,hk,(h trivial).rank_le hh⟩
    | greaterThan => exact ⟨_,rfl,_,hk,h trivial v w ((holds_flip .greaterThan w v).trans hh)⟩
    | greaterThanOrEqual => exact ⟨_,rfl,_,hk,(h trivial).rank_le ((holds_flip .greaterThanOrEqual w v).trans hh)⟩
    | notEqual | isDistinctFrom => exact trivial

theorem toRow_eq_some {row : TableRow columns} {t : SqlType S.Base} {name : String} {w : S.Value t}
    (h : toRow row t name = some w) : ∃ ht : columns name = t, ht ▸ row name = some w := by
  rw [toRow] at h
  split at h
  · rename_i ht
    exact ⟨ht,h⟩
  · cases h

theorem evaluate_eq_true {left right : Option t.Value} (hd : operator ≠ .isDistinctFrom)
    (h : operator.evaluate left right = some true) :
    ∃ w v, left = some w ∧ right = some v ∧ operator.holds w v = true := by
  cases left with
  | none => cases operator <;> first | exact absurd rfl hd | cases right <;> cases h
  | some w =>
    cases right with
    | none => cases operator <;> first | exact absurd rfl hd | cases h
    | some v => exact ⟨w,v,rfl,rfl,by cases operator <;> exact Option.some.inj h⟩

theorem mem_keys {stripe : DataStripe columns} {row : TableRow columns} (hr : row ∈ stripe.rows) {name : String}
    {w : S.Value (columns name)} (hn : row name = some w) : M.actual (columns name) w ∈ stripe.keys M name := by
  rw [DataStripe.keys,DataStripe.values,List.filterMap_map]
  exact List.mem_filterMap.mpr ⟨row,hr,by simp [hn]⟩

section
variable (config : BloomConfig) (I : Interpretation S) {file : DataFile columns} {row : TableRow columns}

theorem not_misses {entry : StripeIndex file} (hrw : row ∈ entry.stripe.rows) {t : SqlType S.Base}
    (ho : ByOrder operator → KeepsOrder M t) {name : String} {right : RowExpression S t} (hp : Faithful M I right)
    (h : operator.evaluate (toRow row t name) (RowExpression.eval I (toRow row) right) = some true) :
    ¬ entry.Misses config M name (.comparison operator) right := by
  rintro ⟨_,value,⟨⟩,hr,he,-,ha⟩
  have hd : operator ≠ .isDistinctFrom := by
    rintro rfl
    cases hk : entry.kind <;> rw [hk] at hr <;> exact hr
  obtain ⟨w,v,hw,hv,hh⟩ := evaluate_eq_true hd h
  obtain ⟨rfl,hn⟩ := toRow_eq_some hw
  rw [hp _ _ _ he hv] at ha
  exact ha (admits_of_holds config ho entry.kind (mem_keys hrw hn) hh)

variable {stripe : DataStripe columns} {asked : Asked file}

section
variable (has : ∀ name, asked name = [] ∨ ∃ entry ∈ asked name, entry.stripe = stripe)
include has

theorem possibleCall_of_row (hr : row ∈ stripe.rows) {t : SqlType S.Base} (ho : ByOrder operator → KeepsOrder M t)
    (varRef : RowExpression S t) {right : RowExpression S t} (hp : Faithful M I right)
    (h : operator.evaluate (RowExpression.eval I (toRow row) varRef)
      (RowExpression.eval I (toRow row) right) = some true) :
    PossibleCall config M asked varRef (.comparison operator) right := by
  cases varRef with
  | «variable» t name =>
    refine (has name).imp_right ?_
    rintro ⟨entry,he,rfl⟩
    exact ⟨entry,he,not_misses config I hr ho hp h⟩
  | _ => exact trivial

/-- No index excludes a call that is not a comparison. -/
theorem possibleCall_other
    {s t : SqlType S.Base} (varRef : RowExpression S s) (handle : FunctionHandle) (right : RowExpression S t) :
    PossibleCall config M asked varRef (.other handle) right := by
  cases varRef with
  | «variable» t name =>
    refine (has name).imp_right ?_
    rintro ⟨entry,he,-⟩
    exact ⟨entry,he,fun ⟨_,_,hc,_⟩ => Callee.noConfusion hc⟩
  | _ => exact trivial

end

def IsTrue : {t : SqlType S.Base} → Option (S.Value t) → Prop
  | .boolean, value => value = some true
  | .other _, _ => False

theorem possible_of_isTrue (has : ∀ name, asked name = [] ∨ ∃ entry ∈ asked name, entry.stripe = stripe)
    (hrw : row ∈ stripe.rows) {t : SqlType S.Base} {e : RowExpression S t}
    (hp : Readable M I e) (h : IsTrue (RowExpression.eval I (toRow row) e)) :
    Possible config M asked e := by
  induction e with
  | comparison operator t supported left right => exact possibleCall_of_row config I has hrw hp.1 left hp.2 h
  | call function arguments =>
    rw [Possible]
    split
    · exact possibleCall_other config has _ _ _
    · exact trivial
  | between t supported value low high =>
    obtain ⟨hlw,hh⟩ := (inf_eq_top_iff (α := Kleene)).mp h
    exact ⟨possibleCall_of_row config I has hrw (fun _ => hp.1) value hp.2.1 hlw,
      possibleCall_of_row config I has hrw (fun _ => hp.1) value hp.2.2 hh⟩
  | isIn t supported target values =>
    obtain ⟨x,hx,ht⟩ := (Kleene.combine_or_eq_top _).mp h
    obtain ⟨i,rfl⟩ := List.mem_ofFn.mp hx
    exact ⟨i,possibleCall_of_row config I has hrw False.elim target (hp i) ht⟩
  | logical form left right ihl ihr =>
    cases form with
    | and =>
      obtain ⟨hl,hr⟩ := (inf_eq_top_iff (α := Kleene)).mp h
      exact ⟨ihl hp.1 hl,ihr hp.2 hr⟩
    | or => exact ((max_eq_top (α := Kleene)).mp h).imp (ihl hp.1) (ihr hp.2)
  | _ => exact trivial

section
variable (cols : List String) {e : RowExpression S .boolean} (hp : Readable M I e)
include hp

/-- A satisfying row is seen as soon as no index of its stripe is lost. -/
theorem seen_of_readable (split : IndexedSplit columns) (hls : InOrder cols split)
    (h : Satisfied I e split) : Possible config M (ForwardFilter.asked cols split) e := by
  obtain ⟨stripe,hs,ho,row,hr,ht⟩ := h
  refine possible_of_isTrue config I (fun name => ?_) hr hp ht
  rw [ForwardFilter.asked]
  split
  · rename_i hn
    cases hl : split.listed name with
    | none => exact .inl (survivors_nil split)
    | some entries =>
      by_cases he : entries = []
      · exact .inl (by rw [he]; exact survivors_nil split)
      obtain ⟨entry,hen,rfl⟩ := split.covers name entries hl he stripe hs
      have hnt := hls name hn entries hl entry hen ho
      exact .inr ⟨entry,(mem_survivors_iff split hen ho).mpr hnt,rfl⟩
  · exact .inl rfl

theorem keeps_iff_safe {splits : List (IndexedSplit columns)} (hls : ∀ split ∈ splits, InOrder cols split) :
    (∃ kept, filterUsingForwardIndex config M e cols splits = .ok kept ∧
      ∀ split ∈ splits, Satisfied I e split → split ∈ kept) ↔
    ∀ split ∈ splits, Safe config M (ForwardFilter.asked cols split) e := by
  have hd := fun split : IndexedSplit columns => keepsSplit_decides config M cols split e
  constructor
  · rintro ⟨kept,hk,-⟩ split hs
    by_contra hsf
    obtain ⟨b,hb⟩ := filterUsingForwardIndex_eq_ok config M cols e hk split hs
    obtain ⟨exception,ht⟩ := (hd split).2 hsf
    cases ht.symm.trans hb
  · intro hsf
    obtain ⟨kept,hk,hm⟩ := filterUsingForwardIndex_of_ok config M cols e
      fun split hs => ((hd split).1 (hsf split hs)).imp fun _ h => h.1
    refine ⟨kept,hk,fun split hs hr => hm split hs ?_⟩
    obtain ⟨b,hb,hps⟩ := (hd split).1 (hsf split hs)
    rw [hb,hps.mpr (seen_of_readable config I cols hp split (hls split hs) hr)]

end

/-- If the objects are in the order of the values and no comparison is with a cast, then the filter returns exactly if
no index throws, and keeps every split with a satisfying row. -/
theorem filterUsingForwardIndex_keeps_seen (cols : List String) (hor : ∀ t, KeepsOrder M t)
    (e : RowExpression S .boolean) (hp : Plain e) {splits : List (IndexedSplit columns)}
    (hls : ∀ split ∈ splits, InOrder cols split) :
    (∃ kept, filterUsingForwardIndex config M e cols splits = .ok kept ∧
      ∀ split ∈ splits, Satisfied I e split → split ∈ kept) ↔
    ∀ split ∈ splits, Safe config M (ForwardFilter.asked cols split) e :=
  keeps_iff_safe config I cols (hp.readable I hor) hls

end

namespace OutOfOrder

theorem objects_keepsOrder (t : SqlType integers.Base) : KeepsOrder objects t := by
  intro v w h
  cases t with
  | boolean => revert v w; decide
  | other _ => exact of_decide_eq_true h

/-- The split of the second stripe, whose index comes first. -/
def second : IndexedSplit table := { split with range := ⟨10,20⟩ }

theorem inOrder_second : InOrder ["x"] second := by
  intro name hn entries hl entry he ho first hf
  cases hl
  rcases List.mem_pair.mp he with rfl | rfl
  · cases hf
    exact le_rfl
  · exact absurd ho (show ¬ max (0 : Int) 10 < min 10 20 by decide)

/-- No stripe has only NULLs, so no index throws. -/
theorem safeOn_compares (operator : ComparisonOperator) (n : Int) (entries : List (StripeIndex file)) :
    SafeOn bloomConfig objects "x" (.comparison operator) (.constant (.other ()) (some n)) entries := by
  induction entries with
  | nil => exact trivial
  | cons entry entries ih =>
    refine ⟨?_,fun _ => ih⟩
    rintro (⟨-,_,h⟩ | ⟨_,-,-,h | ⟨_,-,-,hk | hc⟩⟩)
    · cases h
    · cases h
    · obtain ⟨kind,stripe,hs⟩ := entry
      rcases List.mem_pair.mp hs with rfl | rfl <;> cases hk
    · exact hc rfl

def fiveBelowSeven : RowExpression integers .boolean := .logical .and (compares .equal 5) (compares .lessThan 7)

theorem safe_second : Safe bloomConfig objects (asked ["x"] second) fiveBelowSeven :=
  ⟨safeOn_compares _ 5 _,fun _ => safeOn_compares _ 7 _⟩

theorem satisfied_second : Satisfied meaning fiveBelowSeven second := by
  refine ⟨high,List.mem_cons_of_mem _ List.mem_cons_self,show max (10 : Int) 10 < min 20 20 by decide,_,List.mem_cons_self,?_⟩
  have hr : toRow (fun _ => some (5 : Int) : TableRow table) (.other ()) "x" = some (5 : Int) := dif_pos rfl
  refine (inf_eq_top_iff (α := Kleene)).mpr ⟨?_,?_⟩
  · exact congrArg (fun v => equal.evaluate (t := .orderable Int) v (some (5 : Int))) hr
  · exact congrArg (fun v => lessThan.evaluate (t := .orderable Int) v (some (7 : Int))) hr

theorem filterUsingForwardIndex_keeps_second : ∃ kept,
    filterUsingForwardIndex bloomConfig objects fiveBelowSeven ["x"] [second] = .ok kept ∧ second ∈ kept := by
  obtain ⟨kept,hk,hm⟩ := (filterUsingForwardIndex_keeps_seen bloomConfig meaning ["x"] objects_keepsOrder fiveBelowSeven
    ⟨trivial,trivial⟩ (List.forall_mem_singleton.mpr inOrder_second)).mpr (List.forall_mem_singleton.mpr safe_second)
  exact ⟨kept,hk,hm _ List.mem_cons_self satisfied_second⟩

end OutOfOrder
end HetuCore.HeuristicIndex.ForwardFilter
