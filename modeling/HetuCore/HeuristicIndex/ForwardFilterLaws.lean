import HetuCore.HeuristicIndex.ForwardFilter

namespace HetuCore.HeuristicIndex.ForwardFilter
open HetuCore.Relation HeuristicIndexFilter List
variable {S : Signature}

/-- A computation that throws unless it is safe, and otherwise finds out whether something is possible. -/
def Decides (safe possible : Prop) (x : Except Failure Bool) : Prop :=
  (safe → ∃ b, x = .ok b ∧ (b = true ↔ possible)) ∧ (¬ safe → ∃ exception, x = .error (.thrown exception))

namespace Decides
variable {safe safe' possible possible' : Prop} {x y : Except Failure Bool}

theorem always {b : Bool} (h : b = true ↔ possible) : Decides True possible (.ok b) :=
  ⟨fun _ => ⟨b,rfl,h⟩,fun hs => absurd trivial hs⟩

theorem congr (h : Decides safe possible x) (hs : safe' ↔ safe) (hp : possible' ↔ possible) :
    Decides safe' possible' x := by
  rwa [hs,hp]

/-- The second operand is asked only if the first is possible. -/
theorem and (hx : Decides safe possible x) (hy : Decides safe' possible' y) :
    Decides (safe ∧ (possible → safe')) (possible ∧ possible') (do if ← x then y else pure false) := by
  by_cases hs : safe
  · obtain ⟨b,rfl,hb⟩ := hx.1 hs
    cases b with
    | false =>
      have hno : ¬ possible := fun h => absurd (hb.mpr h) Bool.false_ne_true
      exact ⟨fun _ => ⟨false,rfl,by simp [hno]⟩,fun h => absurd ⟨hs,fun h => absurd h hno⟩ h⟩
    | true =>
      have hys := hb.mp rfl
      exact congr (x := y) hy ⟨fun h => h.2 hys,fun h => ⟨hs,fun _ => h⟩⟩ (and_iff_right hys)
  · obtain ⟨exception,rfl⟩ := hx.2 hs
    exact ⟨fun h => absurd h.1 hs,fun _ => ⟨exception,rfl⟩⟩

/-- The second operand is asked only if the first is not possible. -/
theorem or (hx : Decides safe possible x) (hy : Decides safe' possible' y) :
    Decides (safe ∧ (¬ possible → safe')) (possible ∨ possible') (do if ← x then pure true else y) := by
  by_cases hs : safe
  · obtain ⟨b,rfl,hb⟩ := hx.1 hs
    cases b with
    | false =>
      have hno : ¬ possible := fun h => absurd (hb.mpr h) Bool.false_ne_true
      exact congr (x := y) hy ⟨fun h => h.2 hno,fun h => ⟨hs,fun _ => h⟩⟩ (or_iff_right hno)
    | true =>
      have hys := hb.mp rfl
      exact ⟨fun _ => ⟨true,rfl,by simp [hys]⟩,fun h => absurd ⟨hs,fun h => absurd hys h⟩ h⟩
  · obtain ⟨exception,rfl⟩ := hx.2 hs
    exact ⟨fun h => absurd h.1 hs,fun _ => ⟨exception,rfl⟩⟩

end Decides

variable (config : BloomConfig) (M : ObjectModel S) {columns : Columns S} {file : DataFile columns}

def StripeIndex.Misses (name : String) (entry : StripeIndex file) (callee : Callee) {t : SqlType S.Base}
    (right : RowExpression S t) : Prop :=
  HeuristicIndex.Misses config entry.kind (entry.stripe.keys M name) callee right

/-- No index throws before one of them keeps the split. -/
def SafeOn (name : String) (callee : Callee) {t : SqlType S.Base} (right : RowExpression S t) : List (StripeIndex file) → Prop
  | [] => True
  | entry :: entries => ¬ Throws entry.kind (entry.stripe.keys M name) callee right ∧
      (entry.Misses config M name callee right → SafeOn name callee right entries)

/-- The indexes of each column that are asked. -/
abbrev Asked (file : DataFile columns) := String → List (StripeIndex file)

section
variable (asked : Asked file)

def SafeCall {s t : SqlType S.Base} (varRef : RowExpression S s) (callee : Callee) (right : RowExpression S t) : Prop :=
  match varRef with
  | .variable _ name => SafeOn config M name callee right (asked name)
  | _ => True

/-- The column is not indexed, or not all of its indexes exclude the call. -/
def PossibleCall {s t : SqlType S.Base} (varRef : RowExpression S s) (callee : Callee) (right : RowExpression S t) : Prop :=
  match varRef with
  | .variable _ name => asked name = [] ∨ ∃ entry ∈ asked name, ¬ entry.Misses config M name callee right
  | _ => True

/-- The predicate is possible if its comparisons are. -/
def Possible : {t : SqlType S.Base} → RowExpression S t → Prop
  | _, .comparison operator _ _ left right => PossibleCall config M asked left (.comparison operator) right
  | _, @RowExpression.call _ n _ _ function arguments =>
    if h : n = 2 then
      PossibleCall config M asked (arguments ⟨0,zero_lt_of_two h⟩) (.other (M.handle function))
        (arguments ⟨1,one_lt_of_two h⟩)
    else True
  | _, .between _ _ value low high => PossibleCall config M asked value (.comparison .greaterThanOrEqual) low ∧
      PossibleCall config M asked value (.comparison .lessThanOrEqual) high
  | _, .isIn _ _ target values => ∃ i, PossibleCall config M asked target (.comparison .equal) (values i)
  | _, .logical .and left right => Possible left ∧ Possible right
  | _, .logical .or left right => Possible left ∨ Possible right
  | _, _ => True

/-- No index throws, as far as the operands are asked one after the other. -/
def Safe : {t : SqlType S.Base} → RowExpression S t → Prop
  | _, .comparison operator _ _ left right => SafeCall config M asked left (.comparison operator) right
  | _, @RowExpression.call _ n _ _ function arguments =>
    if h : n = 2 then
      SafeCall config M asked (arguments ⟨0,zero_lt_of_two h⟩) (.other (M.handle function))
        (arguments ⟨1,one_lt_of_two h⟩)
    else True
  | _, .between _ _ value low high => SafeCall config M asked value (.comparison .greaterThanOrEqual) low ∧
      (PossibleCall config M asked value (.comparison .greaterThanOrEqual) low →
        SafeCall config M asked value (.comparison .lessThanOrEqual) high)
  | _, .isIn _ _ target values => ∀ i, (∀ j < i, ¬ PossibleCall config M asked target (.comparison .equal) (values j)) →
      SafeCall config M asked target (.comparison .equal) (values i)
  | _, .logical .and left right => Safe left ∧ (Possible config M asked left → Safe right)
  | _, .logical .or left right => Safe left ∧ (¬ Possible config M asked left → Safe right)
  | _, _ => True

end

variable {t : SqlType S.Base}

theorem safe_possible_of_nil {asked : Asked file} (h : ∀ name, asked name = [])
    (expression : RowExpression S t) : Safe config M asked expression ∧ Possible config M asked expression := by
  have hs : ∀ {s t : SqlType S.Base} (varRef : RowExpression S s) callee (right : RowExpression S t),
      SafeCall config M asked varRef callee right := by
    intro s t varRef callee right
    cases varRef with
    | «variable» _ name => rw [SafeCall,h name]; exact trivial
    | _ => exact trivial
  have hp : ∀ {s t : SqlType S.Base} (varRef : RowExpression S s) callee (right : RowExpression S t),
      PossibleCall config M asked varRef callee right := by
    intro s t varRef callee right
    cases varRef with
    | «variable» _ name => exact .inl (h name)
    | _ => exact trivial
  induction expression with
  | comparison operator t supported left right => exact ⟨hs left _ right,hp left _ right⟩
  | call function arguments =>
    rw [Safe,Possible]
    split
    · exact ⟨hs _ _ _,hp _ _ _⟩
    · exact ⟨trivial,trivial⟩
  | between t supported value low high =>
    exact ⟨⟨hs value _ low,fun _ => hs value _ high⟩,hp value _ low,hp value _ high⟩
  | isIn t supported target values => exact ⟨fun i _ => hs target _ (values i),0,hp target _ (values 0)⟩
  | logical form left right ihl ihr =>
    cases form with
    | and => exact ⟨⟨ihl.1,fun _ => ihr.1⟩,ihl.2,ihr.2⟩
    | or => exact ⟨⟨ihl.1,fun _ => ihr.1⟩,.inl ihl.2⟩
  | _ => exact ⟨trivial,trivial⟩

theorem matchLoop_decides (name : String) (callee : Callee) (right : RowExpression S t)
    (entries : List (StripeIndex file)) :
    Decides (SafeOn config M name callee right entries) (∃ entry ∈ entries, ¬ entry.Misses config M name callee right)
      (matchLoop config callee right (entries.map (StripeIndex.metadata config M name))) := by
  induction entries with
  | nil => exact .always (by simp)
  | cons entry entries ih =>
    have hv : Verdict (Throws entry.kind (entry.stripe.keys M name) callee right)
        (entry.Misses config M name callee right) ((entry.metadata config M name).index.matches config callee right) :=
      ForwardIndex.matches_build config entry.kind (entry.stripe.values M name) callee right
    rw [map_cons,matchLoop]
    simp only [exists_mem_cons_iff]
    cases hm : (entry.metadata config M name).index.matches config callee right with
    | error failure =>
      rw [hm] at hv
      cases failure with
      | thrown exception => exact ⟨fun h => absurd hv h.1,fun _ => ⟨exception,rfl⟩⟩
      | unsupported =>
        obtain ⟨hs,hk⟩ := hv
        exact ⟨fun _ => ⟨true,rfl,iff_of_true rfl (.inl hk)⟩,fun h => absurd ⟨hs,fun h => absurd h hk⟩ h⟩
    | ok matched =>
      rw [hm] at hv
      cases matched with
      | true =>
        obtain ⟨hs,hk⟩ := hv
        exact ⟨fun _ => ⟨true,rfl,iff_of_true rfl (.inl hk)⟩,fun h => absurd ⟨hs,fun h => absurd h hk⟩ h⟩
      | false =>
        obtain ⟨hs,hms⟩ := hv
        exact ih.congr ⟨fun h => h.2 hms,fun h => ⟨hs,fun _ => h⟩⟩ (or_iff_right (not_not.mpr hms))

/-- The filter holds the indexes that are asked. -/
def Holds (indices : Indices M columns) (asked : Asked file) : Prop :=
  ∀ name, (indices name).getD [] = (asked name).map (StripeIndex.metadata config M name)

section
variable {config M} {asked : Asked file} {indices : Indices M columns} (h : Holds config M indices asked)
include h

variable {s : SqlType S.Base} (varRef : RowExpression S s)

theorem matchAny_decides (callee : Callee) (right : RowExpression S t) :
    Decides (SafeCall config M asked varRef callee right) (PossibleCall config M asked varRef callee right)
      (matchAny config indices varRef callee right) := by
  cases varRef with
  | «variable» _ name =>
    have hn := h name
    have hl := matchLoop_decides config M name callee right (asked name)
    rw [SafeCall,PossibleCall,matchAny]
    cases he : asked name with
    | nil =>
      rw [he] at hn
      cases hi : indices name with
      | none => exact .always (iff_of_true rfl (.inl rfl))
      | some selected =>
        obtain rfl : selected = [] := by simpa [hi] using hn
        exact .always (iff_of_true rfl (.inl rfl))
    | cons entry entries =>
      rw [he] at hn hl
      cases hi : indices name with
      | none => simp [hi] at hn
      | some selected =>
        obtain rfl : selected = _ := by simpa only [hi,Option.getD_some] using hn
        exact hl.congr .rfl (or_iff_right (cons_ne_nil _ _))
  | _ => exact .always (iff_of_true rfl trivial)

theorem matchIn_decides {n : Nat} (values : Fin n → RowExpression S t) :
    Decides (∀ i, (∀ j < i, ¬ PossibleCall config M asked varRef (.comparison .equal) (values j)) →
        SafeCall config M asked varRef (.comparison .equal) (values i))
      (∃ i, PossibleCall config M asked varRef (.comparison .equal) (values i))
      (matchIn config indices varRef (ofFn values)) := by
  induction n with
  | zero => exact ⟨fun _ => ⟨false,rfl,by simp⟩,fun h => absurd (fun i => i.elim0) h⟩
  | succ n ih =>
    rw [ofFn_succ]
    refine ((matchAny_decides h varRef (.comparison .equal) (values 0)).or (ih fun i => values i.succ)).congr ?_ ?_
    · simp only [Fin.forall_fin_succ,Fin.succ_lt_succ_iff,Fin.succ_pos,true_imp_iff,and_imp,Fin.not_lt_zero,false_imp_iff,
        implies_true]
      exact and_congr_right fun _ => forall_comm
    · exact Fin.exists_fin_succ

theorem matches_decides (expression : RowExpression S t) :
    Decides (Safe config M asked expression) (Possible config M asked expression)
      (HeuristicIndexFilter.matches config indices expression) := by
  induction expression with
  | comparison operator t supported left right => exact matchAny_decides h left _ right
  | call function arguments =>
    rw [Safe,Possible,HeuristicIndexFilter.matches]
    split
    · exact matchAny_decides h _ _ _
    · exact .always (iff_of_true rfl trivial)
  | between t supported value low high => exact (matchAny_decides h value _ low).and (matchAny_decides h value _ high)
  | isIn t supported target values => exact matchIn_decides h target values
  | logical form left right ihl ihr =>
    cases form with
    | and => exact ihl.and ihr
    | or => exact ihl.or ihr
  | _ => exact .always (iff_of_true rfl trivial)

end
end HetuCore.HeuristicIndex.ForwardFilter
