import HetuCore.Relation.LogicalRowExpressionsLaws
import HetuCore.Relation.NormalForm
import Mathlib.Data.List.GetD

namespace HetuCore.Relation.LogicalRowExpressions
open Foundation RowExpression Joiner List Function
variable {S : Signature} [DecidableEq (RowExpression S .boolean)] (I : Interpretation S)

def values (row : Row S) (groups : List (List (RowExpression S .boolean))) : List (List Kleene) :=
  groups.map (map (truth I row))

variable {groups : List (List (RowExpression S .boolean))}

theorem reduceStep_spec {i reduceTo j : Nat} (hj : j < groups.length)
    (h : reduceTo < groups.length ∧ groups.getD reduceTo [] ⊆ groups.getD i []) :
    reduceStep groups reduceTo j < groups.length ∧ groups.getD (reduceStep groups reduceTo j) [] ⊆ groups.getD i [] := by
  rw [reduceStep]
  split
  case isTrue hs =>
    rw [isSuperSet,Bool.and_eq_true,decide_eq_true_eq,decide_eq_true_eq] at hs
    exact ⟨hj,List.Subset.trans hs.2 h.2⟩
  case isFalse =>
    split
    case isTrue hsm =>
      rw [isSameSet,Bool.and_eq_true,Bool.and_eq_true,decide_eq_true_eq,decide_eq_true_eq] at hsm
      rcases min_choice reduceTo j with hm | hm
      · rw [hm]; exact h
      · rw [hm]; exact ⟨hj,List.Subset.trans hsm.1.2 h.2⟩
    case isFalse => exact h

theorem reduceGroup_spec (groups : List (List (RowExpression S .boolean))) {i : Nat} (hi : i < groups.length) :
    reduceGroup groups i < groups.length ∧ groups.getD (reduceGroup groups i) [] ⊆ groups.getD i [] := by
  rw [reduceGroup]
  split
  case isFalse => exact ⟨hi,.refl _⟩
  case isTrue =>
    refine foldlRecOn (range groups.length) (reduceStep groups)
      (motive := fun r => r < groups.length ∧ groups.getD r [] ⊆ groups.getD i []) ⟨hi,.refl _⟩ ?_
    intro r hr j hj
    exact reduceStep_spec (mem_range.mp hj) hr

variable (I : Interpretation S) (expected : Joiner) (row : Row S)

theorem grouped_eliminateCommonPredicates (form : Joiner) (groups : List (List (RowExpression S .boolean))) :
    form.grouped (values I row (eliminateCommonPredicates groups)) = form.grouped (values I row groups) := by
  rw [eliminateCommonPredicates]
  split
  case isTrue => rfl
  case isFalse =>
    apply grouped_absorb
    · refine map_subset _ fun group hg => ?_
      obtain ⟨j,hj,rfl⟩ := mem_map.mp hg
      obtain ⟨i,hi,rfl⟩ := mem_map.mp (mem_eraseDups.mp hj)
      have hlt := (reduceGroup_spec groups (mem_range.mp hi)).1
      rw [getD_eq_getElem _ _ hlt]
      exact getElem_mem hlt
    · intro part hp
      obtain ⟨group,hg,rfl⟩ := mem_map.mp hp
      obtain ⟨i,hi,rfl⟩ := getElem_of_mem hg
      refine ⟨_,mem_map_of_mem (mem_map_of_mem (mem_eraseDups.mpr
        (mem_map_of_mem (mem_range.mpr hi)))),map_subset _ ?_⟩
      have hs := (reduceGroup_spec groups hi).2
      rwa [getD_eq_getElem _ _ hi] at hs

theorem eliminateCommonPredicates_ne_nil (h : groups ≠ []) : eliminateCommonPredicates groups ≠ [] := by
  rw [eliminateCommonPredicates]
  split
  case isTrue => exact h
  case isFalse =>
    have hz : reduceGroup groups 0 ∈ ((range groups.length).map (reduceGroup groups)).eraseDups :=
      mem_eraseDups.mpr (mem_map_of_mem (mem_range.mpr (length_pos_iff.mpr h)))
    exact ne_nil_of_mem (mem_map_of_mem hz)

private theorem mem_retained {e : RowExpression S .boolean} (rest : List (List (RowExpression S .boolean))) :
    ∀ common : List (RowExpression S .boolean),
    e ∈ rest.foldl (fun common group => common.filter (fun e => decide (e ∈ group))) common →
      e ∈ common ∧ ∀ group ∈ rest, e ∈ group := by
  induction rest with
  | nil => exact fun common h => ⟨h,nofun⟩
  | cons group rest ih =>
    intro common h
    obtain ⟨hm,hr⟩ := ih _ h
    rw [mem_filter,decide_eq_true_eq] at hm
    exact ⟨hm.1,forall_mem_cons.mpr ⟨hm.2,hr⟩⟩

theorem commonPredicates_subset {group : List (RowExpression S .boolean)} (hg : group ∈ groups) :
    commonPredicates groups ⊆ group := by
  intro e he
  cases groups with
  | nil => exact absurd hg not_mem_nil
  | cons first rest =>
    obtain ⟨hf,hr⟩ := mem_retained rest _ he
    rcases mem_cons.mp hg with rfl | hm
    · exact mem_eraseDups.mp hf
    · exact hr group hm

theorem extractCommonPredicates_ne_nil {form : Joiner} {groups flipped : List (List (RowExpression S .boolean))}
    (h : extractCommonPredicates form groups = some flipped) : flipped ≠ [] := by
  simp only [extractCommonPredicates] at h
  split at h
  case isTrue => exact absurd h (Option.some_ne_none _).symm
  case isFalse =>
    cases h
    exact append_ne_nil_of_right_ne_nil _ (cons_ne_nil _ _)

theorem grouped_extractCommonPredicates {form : Joiner}
    {groups flipped : List (List (RowExpression S .boolean))} (h : extractCommonPredicates form groups = some flipped) :
    form.flip.grouped (values I row flipped) = form.grouped (values I row groups) := by
  simp only [extractCommonPredicates] at h
  split at h
  case isTrue => exact absurd h (Option.some_ne_none _).symm
  case isFalse =>
    cases h
    have hs : ∀ group ∈ groups, form.flip.combine (group.map (truth I row)) =
        form.flip.join (form.flip.combine ((commonPredicates groups).map (truth I row)))
          (form.flip.combine ((group.filter (fun e => decide (e ∉ commonPredicates groups))).map (truth I row))) := by
      intro group hg
      rw [← combine_append,← map_append]
      apply combine_congr
      · refine fun x hx => .inr (map_subset _ ?_ hx)
        exact append_subset.mpr ⟨commonPredicates_subset hg,filter_subset_self _⟩
      · refine fun x hx => .inr (map_subset _ ?_ hx)
        intro e he
        by_cases hc : e ∈ commonPredicates groups
        · exact mem_append_left _ hc
        · exact mem_append_right _ (mem_filter.mpr ⟨he,decide_eq_true hc⟩)
    rw [values,values,grouped_common form ((commonPredicates groups).map (truth I row)) groups _ _ hs]
    rw [grouped,Joiner.flip_flip,map_append,map_append,combine_append]
    simp only [map_map,comp_def,combine_singleton,truth_combinePredicates,map_cons,map_nil]

theorem truth_combineGroupedClauses (joiner : Joiner) (nested : List (List (RowExpression S .boolean))) :
    truth I row (combineGroupedClauses joiner nested) = joiner.grouped (values I row nested) := by
  rw [combineGroupedClauses,truth_combinePredicates,values,grouped,map_map,map_map]
  simp only [comp_def,truth_combinePredicates]

omit [DecidableEq (RowExpression S .boolean)] in
private theorem combine_foldl_crossProductStep (row : Row S) (joiner : Joiner)
    (rest : List (List (RowExpression S .boolean))) : ∀ previous : List (List (RowExpression S .boolean)),
    joiner.flip.combine ((values I row (rest.foldl crossProductStep previous)).map joiner.combine) =
      joiner.join (joiner.flip.combine ((values I row previous).map joiner.combine))
        (joiner.grouped (values I row rest)) := by
  induction rest with
  | nil => exact fun previous => (join_unit joiner _).symm
  | cons group rest ih =>
    intro previous
    have hs : values I row (crossProductStep previous group) =
        (values I row previous).flatMap fun clauses => (group.map (truth I row)).map fun clause => clauses ++ [clause] := by
      simp only [values,crossProductStep,map_flatMap,flatMap_map,map_map,comp_def,map_append,map_cons,map_nil]
    rw [foldl_cons,ih,hs,combine_product,join_assoc]
    rfl

omit [DecidableEq (RowExpression S .boolean)] in
/-- The distributive law over all groups. -/
theorem grouped_crossProduct (joiner : Joiner) (first : List (RowExpression S .boolean))
    (rest : List (List (RowExpression S .boolean))) :
    joiner.flip.grouped (values I row (rest.foldl crossProductStep (first.map fun clause => [clause]))) =
      joiner.grouped (values I row (first :: rest)) := by
  rw [grouped,Joiner.flip_flip,combine_foldl_crossProductStep]
  simp only [values,map_map,comp_def,map_cons,map_nil,combine_singleton]
  rfl

/-- The result of a rewriting step: some expression with the given value on every row. -/
abbrev Keeps (value : Interpretation S → Row S → Kleene) : Except String (RowExpression S .boolean) → Prop :=
  Ends (fun _ => False) fun ex => ∀ I row, truth I row ex = value I row

variable (depth : Nat)

theorem distribute_keeps (joiner : Joiner) (hne : groups ≠ []) :
    Keeps (fun I row => joiner.grouped (values I row groups)) (distribute expected depth joiner groups) := by
  have hk : Keeps (fun I row => joiner.grouped (values I row groups)) (pure (combineGroupedClauses joiner groups)) :=
    fun I row => truth_combineGroupedClauses I row joiner groups
  rw [distribute]
  split
  case h_1 => exact hk
  case h_2 =>
    split
    case isTrue => exact hk
    case isFalse =>
      split
      case isTrue => exact hk
      case isFalse hj =>
        have hf : expected = joiner.flip := by
          cases expected <;> cases joiner <;> first | rfl | exact absurd (.inl rfl) hj
        cases groups with
        | nil => exact absurd rfl hne
        | cons first rest =>
          intro I row
          rw [hf,truth_combineGroupedClauses]
          exact grouped_crossProduct I row joiner first rest

omit [DecidableEq (RowExpression S .boolean)] in
theorem extractPredicates_ne_nil (form : Joiner) (ex : RowExpression S .boolean) :
    extractPredicates form ex ≠ [] := by
  fun_induction extractPredicates form ex with
  | case1 left right ihl ihr => exact append_ne_nil_of_left_ne_nil ihl _
  | case2 own left right hne | case3 ex hne => exact cons_ne_nil _ _

/-- The groups of a logical expression after absorption: not empty, and with its value. -/
private theorem eliminated_spec (form : Joiner) (ex : RowExpression S .boolean) :
    eliminateCommonPredicates ((extractPredicates form ex).map extractOwnPredicates) ≠ [] ∧
    ∀ I row, form.grouped (values I row (eliminateCommonPredicates
      ((extractPredicates form ex).map extractOwnPredicates))) = truth I row ex := by
  refine ⟨eliminateCommonPredicates_ne_nil ?_,fun I row => ?_⟩
  · exact fun h => extractPredicates_ne_nil form ex (map_eq_nil_iff.mp h)
  · rw [grouped_eliminateCommonPredicates,values,map_map]
    exact grouped_extractPredicates I row form ex

theorem normalizeCombined_keeps (rewritten : RowExpression S .boolean) :
    Keeps (fun I row => truth I row rewritten) (normalizeCombined expected depth rewritten) := by
  fun_cases normalizeCombined expected depth rewritten with
  | case1 form left right grouped hs => exact fun I row => rfl
  | case2 form left right grouped hs groups flipped hf =>
    have hg := eliminated_spec form (.logical form left right)
    refine (distribute_keeps expected depth form.flip (extractCommonPredicates_ne_nil hf)).mono ?_
    intro result hr I row
    calc truth I row result = form.flip.grouped (values I row flipped) := hr I row
      _ = form.grouped (values I row groups) := grouped_extractCommonPredicates I row hf
      _ = truth I row (.logical form left right) := hg.2 I row
  | case3 form left right grouped hs groups hn =>
    have hg := eliminated_spec form (.logical form left right)
    refine (distribute_keeps expected depth form hg.1).mono ?_
    exact fun result hr I row => (hr I row).trans (hg.2 I row)
  | case4 rewritten hne => exact fun I row => rfl

variable (ex : RowExpression S .boolean)

/-- The visited operands of a tree, joined in a row, have the value of the tree. -/
theorem convertOperands_keeps (form : Joiner) (depth : Nat) :
    Ends (fun _ => False) (fun operands => ∀ I row, form.combine (operands.map (truth I row)) = truth I row ex)
      (convertOperands expected ex form depth) := by
  fun_induction convertOperands expected ex form depth with
  | case1 form left right depth ihl ihr =>
    refine ihl.bind fun lefts hl => ihr.bind fun rights hr I row => ?_
    rw [map_append,combine_append,hl,hr,truth_logical]
  | case2 own left right form depth hne ihl ihr =>
    refine ihl.bind fun lefts hl => ihr.bind fun rights hr => ?_
    refine (normalizeCombined_keeps expected depth _).bind fun converted hc I row => ?_
    have hv : truth I row converted = truth I row (combinePredicates own (lefts ++ rights)) := hc I row
    rw [map_singleton,combine_singleton,hv,truth_combinePredicates,map_append,combine_append,hl,hr,truth_logical]
  | case3 form depth ex hne =>
    exact fun I row => combine_singleton _ _

theorem convert_keeps (ex : RowExpression S .boolean) :
    Keeps (fun I row => truth I row ex) (convert expected depth ex) := by
  fun_cases convert expected depth ex with
  | case1 form left right =>
    refine (convertOperands_keeps expected (.logical form left right) form (depth + 1)).bind fun operands ho => ?_
    refine (normalizeCombined_keeps expected depth _).mono fun result hr I row => ?_
    have hv : truth I row result = truth I row (combinePredicates form operands) := hr I row
    rw [hv,truth_combinePredicates,ho]
  | case2 ex hne => exact fun I row => rfl

/-- Pushing negations to the leaves and either normal form keep the value on every row. -/
theorem convertToNormalForm_keeps (clauseJoiner : Joiner) :
    Keeps (fun I row => truth I row ex) (convertToNormalForm ex clauseJoiner) :=
  (convert_keeps clauseJoiner 0 (pushNegationToLeaves ex)).mono fun _ hr I row =>
    (hr I row).trans (eval_pushNegation I row ex)

end HetuCore.Relation.LogicalRowExpressions
