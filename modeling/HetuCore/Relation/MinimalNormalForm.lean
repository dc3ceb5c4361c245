import HetuCore.Relation.NormalFormLaws

namespace HetuCore.Relation.LogicalRowExpressions
open Foundation RowExpression
variable {S : Signature}

/-- Every expression of the form that is reached through operands of the form has two operands. -/
def Binary (form : Form) : {t : SqlType S.Base} → RowExpression S t → Prop
  | _, .logical own left right => form = .logical own → Binary form left ∧ Binary form right
  | _, .isIn _ _ target (n := n) values => form = .isIn → n = 0 ∧ Binary form target ∧ Binary form (values ⟨0,n.succ_pos⟩)
  | _, .isNull _ _ => form ≠ .isNull
  | _, .between _ _ _ _ _ => form ≠ .between
  | _, .special own (n := n) arguments => form = .other own →
      ∃ h : n = 2, Binary form (arguments ⟨0,zero_lt_of_two h⟩) ∧ Binary form (arguments ⟨1,one_lt_of_two h⟩)
  | _, _ => True

private theorem append_ok_iff {α : Type} (x y : Except String (List α)) :
    (∃ all, (do let lefts ← x; let rights ← y; pure (lefts ++ rights)) = Except.ok all) ↔
      (∃ lefts, x = .ok lefts) ∧ ∃ rights, y = .ok rights := by
  cases x with
  | error message => simp [bind,Except.bind]
  | ok lefts =>
    cases y with
    | error message => simp [bind,Except.bind]
    | ok rights => simp [bind,Except.bind,pure,Except.pure]

/-- Operands are extracted without an exception exactly from a binary expression. -/
theorem extractOperands_ok_iff (form : Form) {t : SqlType S.Base} (ex : RowExpression S t) :
    (∃ operands, extractOperands form ex = .ok operands) ↔ Binary form ex := by
  induction ex with
  | logical own left right ihl ihr =>
    rw [extractOperands,Binary,← ihl,← ihr]
    split
    case isTrue hf => simp only [hf,append_ok_iff,forall_const]
    case isFalse hf => simp [hf,pure,Except.pure]
  | isIn t supported target values iht ihv =>
    rename_i n
    rw [extractOperands,Binary,Fin.zero_eta,← iht,← ihv 0]
    split
    case isTrue hf =>
      split
      case isTrue hn =>
        have hz : n = 0 := by omega
        simp only [hf,append_ok_iff,forall_const,hz,true_and]
      case isFalse hn =>
        have hne : n ≠ 0 := by omega
        simp [hf,hne]
    case isFalse hf => simp [hf,pure,Except.pure]
  | isNull t value ih | between t supported value low high _ _ _ =>
    rw [extractOperands,Binary]
    split
    case isTrue hf => simp [hf]
    case isFalse hf => simp [hf,pure,Except.pure]
  | special own arguments ih =>
    rw [extractOperands,Binary]
    split
    case isTrue hf =>
      split
      case isTrue hn =>
        subst hf
        simp only [append_ok_iff,ih,forall_const,hn,exists_true_left]
      case isFalse hn => simp [hf,hn]
    case isFalse hf => simp [hf,pure,Except.pure]
  | _ => simp [extractOperands,Binary,pure,Except.pure]

variable (ex : RowExpression S .boolean)

/-- A special form, if the expression is one, is binary. -/
def Countable : Prop :=
  ∀ form, getForm ex = some form → Binary form ex

theorem numOfClauses_ok_iff : (∃ clauses, numOfClauses ex = .ok clauses) ↔ Countable ex := by
  rw [numOfClauses,Countable]
  split
  case h_1 form hf =>
    simp only [hf,Option.some.injEq,forall_eq',← extractOperands_ok_iff]
    cases extractOperands form ex with
    | error message => simp [bind,Except.bind]
    | ok operands => simp [bind,Except.bind,pure,Except.pure]
  case h_2 hf => simp [hf,pure,Except.pure]

/-- The rewriting returns an expression with the input's value on every row. -/
def Preserved (result : Except String (RowExpression S .boolean)) : Prop :=
  ∃ rewritten, result = .ok rewritten ∧ ∀ I row, truth I row rewritten = truth I row ex

/-- A predicate that is not made with AND, OR or NOT. -/
def IsLeaf : RowExpression S .boolean → Prop
  | .not _ => False
  | .logical _ _ _ => False
  | _ => True

/-- A predicate that AND, OR and NOT make of the leaves. -/
inductive Over (leaves : Set (RowExpression S .boolean)) : RowExpression S .boolean → Prop
  | leaf {e} (h : e ∈ leaves) (hl : IsLeaf e) : Over leaves e
  | not {e} (h : Over leaves e) : Over leaves (.not e)
  | logical (form) {left right} (hl : Over leaves left) (hr : Over leaves right) : Over leaves (.logical form left right)

theorem Over.mono {leaves others : Set (RowExpression S .boolean)} (hs : leaves ⊆ others) {e : RowExpression S .boolean}
    (h : Over leaves e) : Over others e := by
  induction h with
  | leaf h hl => exact .leaf (hs h) hl
  | not _ ih => exact .not ih
  | logical form _ _ ihl ihr => exact .logical form ihl ihr

theorem binary_logical (form : Joiner) {t : SqlType S.Base} (e : RowExpression S t) : Binary (.logical form) e := by
  induction e with
  | logical own left right ihl ihr => exact fun _ => ⟨ihl,ihr⟩
  | isIn | special => rintro ⟨⟩
  | isNull | between => exact Form.noConfusion
  | _ => trivial

theorem countable_of_not_isLeaf {e : RowExpression S .boolean} (h : ¬ IsLeaf e) : Countable e := by
  cases e with
  | not => rintro form ⟨⟩
  | logical own =>
    rintro form ⟨⟩
    exact binary_logical own _
  | _ => exact absurd trivial h

/-- A predicate over leaves whose clauses can be counted. -/
abbrev OverCountable : RowExpression S .boolean → Prop := Over { leaf | Countable leaf }

namespace OverCountable
variable {ex}

theorem countable (h : OverCountable ex) : Countable ex := by
  cases h with
  | leaf h => exact h
  | not | logical => exact countable_of_not_isLeaf id

theorem logical_iff (form : Joiner) (left right : RowExpression S .boolean) :
    OverCountable (.logical form left right) ↔ OverCountable left ∧ OverCountable right := by
  refine ⟨fun h => ?_,fun h => .logical form h.1 h.2⟩
  cases h with
  | leaf _ hl => exact hl.elim
  | logical _ hl hr => exact ⟨hl,hr⟩

theorem comparison (operator : ComparisonOperator) (t : SqlType S.Base) (supported) (left right : RowExpression S t) :
    OverCountable (.comparison operator t supported left right) :=
  .leaf (fun _ h => nomatch h) trivial

theorem flip (h : OverCountable ex) : OverCountable (flipOperatorFunctionWithOneVarOneConstant ex) := by
  fun_cases flipOperatorFunctionWithOneVarOneConstant ex with
  | case1 operator t supported value name => exact comparison ..
  | case2 => exact h

theorem emptyConstant (form : Joiner) : OverCountable (LogicalRowExpressions.emptyConstant form : RowExpression S .boolean) := by
  cases form <;> exact .leaf (fun _ h => nomatch h) trivial

/-- Negations end at leaves, which stay as they are, or at comparisons. -/
theorem pushNegation (h : OverCountable ex) :
    OverCountable (LogicalRowExpressions.pushNegation ex) ∧ OverCountable (pushNegationOfNot ex) := by
  induction h with
  | @leaf e hc hl =>
    have he : OverCountable e := .leaf hc hl
    cases e with
    | not | logical => exact hl.elim
    | comparison operator t supported left right =>
      rw [LogicalRowExpressions.pushNegation,pushNegationOfNot]
      · refine ⟨he,?_⟩
        split
        · exact he.not
        · exact comparison ..
      all_goals simp
    | _ => simpa only [LogicalRowExpressions.pushNegation,pushNegationOfNot] using ⟨he,he.not⟩
  | not _ ih => simpa only [LogicalRowExpressions.pushNegation,pushNegationOfNot] using ih.symm
  | logical form _ _ ihl ihr =>
    rw [LogicalRowExpressions.pushNegation,pushNegationOfNot]
    exact ⟨.logical form ihl.1 ihr.1,.logical form.flip ihl.2 ihr.2⟩

end OverCountable

section
variable [DecidableEq (RowExpression S .boolean)]

theorem combinePredicates_countable (form : Joiner) {expressions : List (RowExpression S .boolean)}
    (h : ∀ e ∈ expressions, OverCountable e) : OverCountable (combinePredicates form expressions) := by
  have hf : ∀ e : RowExpression S .boolean, OverCountable e → OverCountable (flipOperatorFunctionWithOneVarOneConstant e) :=
    fun _ => OverCountable.flip
  have hz := OverCountable.emptyConstant (S := S)
  cases form with
  | and => exact combineWithDefault_closed (OverCountable.logical_iff .and) hf (hz .or) h (hz .and)
  | or => exact combineWithDefault_closed (OverCountable.logical_iff .or) hf (hz .and) h (hz .or)

section groups
variable {groups : List (List (RowExpression S .boolean))} (hg : ∀ group ∈ groups, ∀ e ∈ group, OverCountable e)
include hg

theorem combineGroupedClauses_countable (joiner : Joiner) : OverCountable (combineGroupedClauses joiner groups) := by
  refine combinePredicates_countable joiner fun e he => ?_
  obtain ⟨group,hm,rfl⟩ := List.mem_map.mp he
  exact combinePredicates_countable joiner.flip (hg group hm)

theorem eliminateCommonPredicates_countable : ∀ group ∈ eliminateCommonPredicates groups, ∀ e ∈ group, OverCountable e := by
  rw [eliminateCommonPredicates]
  split
  · exact hg
  · intro group hm e he
    obtain ⟨j,-,rfl⟩ := List.mem_map.mp hm
    by_cases hj : j < groups.length
    · rw [List.getD_eq_getElem _ _ hj] at he
      exact hg _ (List.getElem_mem hj) e he
    · rw [List.getD_eq_default _ _ (not_lt.mp hj)] at he
      cases he

theorem extractCommonPredicates_countable {form : Joiner} {flipped : List (List (RowExpression S .boolean))}
    (h : extractCommonPredicates form groups = some flipped) : ∀ group ∈ flipped, ∀ e ∈ group, OverCountable e := by
  simp only [extractCommonPredicates] at h
  split at h
  · cases h
  · rename_i hne
    cases h
    refine List.forall_mem_append.mpr ⟨fun group hm e he => ?_,List.forall_mem_singleton.mpr fun e he => ?_⟩
    · obtain ⟨common,hc,rfl⟩ := List.mem_map.mp hm
      obtain rfl := List.mem_singleton.mp he
      cases groups with
      | nil => exact absurd rfl hne
      | cons first rest => exact hg first List.mem_cons_self _ (commonPredicates_subset List.mem_cons_self hc)
    · obtain ⟨group,hm,rfl⟩ := List.mem_map.mp he
      exact combinePredicates_countable _ fun e he => hg group hm e (List.mem_of_mem_filter he)

omit [DecidableEq (RowExpression S .boolean)] in
theorem crossProduct_countable :
    Ends (fun _ => True) (fun product => ∀ group ∈ product, ∀ e ∈ group, OverCountable e) (crossProduct groups) := by
  cases groups with
  | nil => exact trivial
  | cons first rest =>
    obtain ⟨hf,hr⟩ := List.forall_mem_cons.mp hg
    refine List.foldlRecOn (motive := fun product => ∀ group ∈ product, ∀ e ∈ group, OverCountable e) rest crossProductStep ?_ ?_
    · simpa using hf
    · intro previous hp clauses hc group hm e he
      obtain ⟨before,hb,hm⟩ := List.mem_flatMap.mp hm
      obtain ⟨clause,hcl,rfl⟩ := List.mem_map.mp hm
      rcases List.mem_append.mp he with he | he
      · exact hp before hb e he
      · obtain rfl := List.mem_singleton.mp he
        exact hr clauses hc _ hcl

theorem distribute_countable (expected : Joiner) (depth : Nat) (joiner : Joiner) :
    Ends (fun _ => True) OverCountable (distribute expected depth joiner groups) := by
  rw [distribute]
  split
  · exact combineGroupedClauses_countable hg joiner
  · split
    · exact combineGroupedClauses_countable hg joiner
    · split
      · exact combineGroupedClauses_countable hg joiner
      · exact (crossProduct_countable hg).bind fun product hp => combineGroupedClauses_countable hp expected

end groups

omit [DecidableEq (RowExpression S .boolean)] in
theorem extractOwnPredicates_countable {e : RowExpression S .boolean} (h : OverCountable e) :
    ∀ own ∈ extractOwnPredicates e, OverCountable own := by
  fun_cases extractOwnPredicates e with
  | case1 form left right => exact extractPredicates_closed (fun _ _ => (OverCountable.logical_iff form _ _).mp) h
  | case2 => exact List.forall_mem_singleton.mpr h

section convert
variable (expected : Joiner) {rewritten ex : RowExpression S .boolean}

theorem normalizeCombined_countable (depth : Nat) (h : OverCountable rewritten) :
    Ends (fun _ => True) OverCountable (normalizeCombined expected depth rewritten) := by
  have hg : ∀ form, ∀ group ∈ eliminateCommonPredicates ((extractPredicates form rewritten).map extractOwnPredicates),
      ∀ e ∈ group, OverCountable e := by
    refine fun form => eliminateCommonPredicates_countable fun group hm => ?_
    obtain ⟨e,he,rfl⟩ := List.mem_map.mp hm
    exact extractOwnPredicates_countable
      (extractPredicates_closed (fun _ _ => (OverCountable.logical_iff form _ _).mp) h e he)
  fun_cases normalizeCombined expected depth rewritten with
  | case1 form left right grouped hs => exact h
  | case2 form left right grouped hs groups flipped hf =>
    exact distribute_countable (extractCommonPredicates_countable (hg form) hf) expected depth form.flip
  | case3 form left right grouped hs groups hn => exact distribute_countable (hg form) expected depth form
  | case4 rewritten hne => exact h

theorem convertOperands_countable (form : Joiner) (depth : Nat) (h : OverCountable ex) :
    Ends (fun _ => True) (fun operands => ∀ e ∈ operands, OverCountable e) (convertOperands expected ex form depth) := by
  fun_induction convertOperands expected ex form depth with
  | case1 left right form depth ihl ihr =>
    obtain ⟨hl,hr⟩ := (OverCountable.logical_iff form left right).mp h
    exact (ihl hl).bind fun lefts hls => (ihr hr).bind fun rights hrs => List.forall_mem_append.mpr ⟨hls,hrs⟩
  | case2 own left right form depth hne ihl ihr =>
    obtain ⟨hl,hr⟩ := (OverCountable.logical_iff own left right).mp h
    refine (ihl hl).bind fun lefts hls => (ihr hr).bind fun rights hrs => ?_
    have hc := combinePredicates_countable own (List.forall_mem_append.mpr ⟨hls,hrs⟩)
    exact (normalizeCombined_countable expected depth hc).bind fun converted hn => List.forall_mem_singleton.mpr hn
  | case3 form depth ex hne => exact List.forall_mem_singleton.mpr h

theorem convertToNormalForm_countable (h : OverCountable ex) :
    Ends (fun _ => True) OverCountable (convertToNormalForm ex expected) := by
  have hp : OverCountable (pushNegationToLeaves ex) := h.pushNegation.1
  rw [convertToNormalForm]
  generalize pushNegationToLeaves ex = pushed at hp
  fun_cases convert expected 0 pushed with
  | case1 form left right =>
    refine (convertOperands_countable expected form 1 hp).bind fun operands ho => ?_
    exact normalizeCombined_countable expected 0 (combinePredicates_countable form ho)
  | case2 ex hne => exact hp

theorem convertToNormalForm_leaf (h : IsLeaf ex) : convertToNormalForm ex expected = .ok ex := by
  cases ex with
  | not | logical => exact h.elim
  | _ => simp only [convertToNormalForm,pushNegationToLeaves,pushNegation,convert]; rfl

end convert
end

section
variable [DecidableEq (RowExpression S .boolean)]

theorem minimalNormalForm_iff {ex conjunctive disjunctive : RowExpression S .boolean}
    (hc : convertToConjunctiveNormalForm ex = .ok conjunctive)
    (hd : convertToDisjunctiveNormalForm ex = .ok disjunctive) :
    Preserved ex (minimalNormalForm ex) ↔ Countable conjunctive ∧ Countable disjunctive := by
  have hch : minimalNormalForm ex = (do
      let conjunctiveClauses ← numOfClauses conjunctive
      let disjunctiveClauses ← numOfClauses disjunctive
      pure (if conjunctiveClauses > disjunctiveClauses then disjunctive else conjunctive)) := by
    rw [minimalNormalForm,hc,hd]
    rfl
  rw [hch,← numOfClauses_ok_iff,← numOfClauses_ok_iff]
  cases numOfClauses conjunctive with
  | error message => simp [Preserved,bind,Except.bind]
  | ok conjunctiveClauses =>
    cases numOfClauses disjunctive with
    | error message => simp [Preserved,bind,Except.bind]
    | ok disjunctiveClauses =>
      refine iff_of_true ⟨_,rfl,fun I row => ?_⟩ ⟨⟨_,rfl⟩,_,rfl⟩
      split
      case isTrue => exact (convertToNormalForm_keeps ex .or).ok hd I row
      case isFalse => exact (convertToNormalForm_keeps ex .and).ok hc I row

/-- The four rewritings return an expression with the input's value. -/
def AllPreserved : Prop :=
  Preserved ex (.ok (pushNegationToLeaves ex)) ∧
    Preserved ex (convertToConjunctiveNormalForm ex) ∧
    Preserved ex (convertToDisjunctiveNormalForm ex) ∧ Preserved ex (minimalNormalForm ex)

end

def booleanSignature : Signature where
  Base := Empty
  base := Empty.elim
  Function := fun _ _ => Empty
  displayName := Empty.elim
  deterministic := Empty.elim

end HetuCore.Relation.LogicalRowExpressions
