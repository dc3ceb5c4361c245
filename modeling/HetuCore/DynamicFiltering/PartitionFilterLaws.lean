import HetuCore.DynamicFiltering.PartitionFilter
import HetuCore.Foundation.Machine

namespace HetuCore.DynamicFiltering.PartitionFilter
open Foundation List
variable {T Other : Type} [DecidableEq Other] (H : BloomHash)
  (read : T → String → Except Thrown (NativeValue Other)) (ps : String → Option String)

variable (dynamicFilters : List (ColumnFilter T Other))

/-- No test throws. -/
def Passes : Prop :=
  ∀ f ∈ dynamicFilters, ∀ value, askedValue ps f = some value → ∃ contained, containsValue H read f value = .ok contained

def Sets (f : ColumnFilter T Other) : Prop :=
  f.filter.isEmpty = true ∨ ∃ value, askedValue ps f = some value ∧ containsValue H read f value = .ok false

/-- Some filter sets the flag, and no filter before it is tested. -/
def Leads : Prop :=
  ∃ before f after, dynamicFilters = before ++ f :: after ∧ Sets H read ps f ∧
    ∀ g ∈ before, askedValue ps g = none

variable {H read ps} {f : ColumnFilter T Other} {fs : List (ColumnFilter T Other)} {result : Bool}

theorem passes_cons : Passes H read ps (f :: fs) ↔
    Passes H read ps [f] ∧ Passes H read ps fs := by
  simp only [Passes,mem_cons,forall_eq_or_imp,not_mem_nil,false_imp_iff,implies_true,and_true]

theorem leads_cons : Leads H read ps (f :: fs) ↔
    Sets H read ps f ∨ askedValue ps f = none ∧ Leads H read ps fs := by
  constructor
  · rintro ⟨before,g,after,heq,hs,hn⟩
    cases before with
    | nil =>
      obtain ⟨rfl,-⟩ := cons.inj heq
      exact .inl hs
    | cons first before =>
      cases heq
      exact .inr ⟨hn _ mem_cons_self,before,g,after,rfl,hs,fun g hg => hn g (mem_cons_of_mem _ hg)⟩
  · rintro (hs | ⟨hf,before,g,after,rfl,hs,hn⟩)
    · exact ⟨[],f,fs,rfl,hs,by simp⟩
    · exact ⟨f :: before,g,after,rfl,hs,forall_mem_cons.mpr ⟨hf,hn⟩⟩

theorem leads_append {gs : List (ColumnFilter T Other)} : Leads H read ps (fs ++ gs) ↔
    Leads H read ps fs ∨
      (∀ f ∈ fs, askedValue ps f = none) ∧ Leads H read ps gs := by
  induction fs with
  | nil => simp [Leads]
  | cons f fs ih =>
    rw [cons_append,leads_cons,leads_cons,ih,forall_mem_cons]
    tauto

variable (H read ps) in
theorem checkFilter_spec (f : ColumnFilter T Other) (result : Bool) :
    (∃ exception, checkFilter H read ps result f = .error exception) ∧
      ¬ Passes H read ps [f] ∨
    checkFilter H read ps result f = .ok (.returns false) ∧
      (Passes H read ps [f] → result = false ∧ ¬ Sets H read ps f ∧
        askedValue ps f ≠ none) ∨
    checkFilter H read ps result f = .ok (.continues false) ∧ Passes H read ps [f] ∧
      result = false ∧ ¬ Sets H read ps f ∧ askedValue ps f = none ∨
    checkFilter H read ps result f = .ok (.continues true) ∧ Passes H read ps [f] ∧
      (result = true ∨ Sets H read ps f) := by
  rw [checkFilter]
  cases ha : askedValue ps f with
  | none =>
    have hp : Passes H read ps [f] := by simp [Passes,ha]
    have hs : Sets H read ps f ↔ f.filter.isEmpty = true := by simp [Sets,ha]
    cases hf : result || f.filter.isEmpty with
    | false => exact .inr (.inr (.inl ⟨rfl,hp,by simpa [hs] using hf⟩))
    | true => exact .inr (.inr (.inr ⟨rfl,hp,by simpa [hs] using hf⟩))
  | some value =>
    dsimp only
    cases hc : containsValue H read f value with
    | error exception =>
      have hp : ¬ Passes H read ps [f] := by simp [Passes,ha,hc]
      cases exception with
      | prestoException | classCastException => exact .inr (.inl ⟨rfl,fun h => absurd h hp⟩)
      | other name => exact .inl ⟨⟨_,rfl⟩,hp⟩
    | ok contained =>
      have hp : Passes H read ps [f] := by simp [Passes,ha,hc]
      have hs : Sets H read ps f ↔ f.filter.isEmpty = true ∨ contained = false := by
        simp [Sets,ha,hc]
      dsimp only
      split
      · rename_i hf
        refine .inr (.inr (.inr ⟨congrArg (fun flag => Except.ok (Flow.continues flag)) hf,hp,?_⟩))
        simpa [hs,or_assoc] using hf
      · rename_i hf
        refine .inr (.inl ⟨rfl,fun _ => ?_⟩)
        simpa [hs,and_assoc] using hf

theorem checkSet_true : checkSet H read ps result fs = .ok (.continues true) ↔
    Passes H read ps fs ∧ (result = true ∨ Leads H read ps fs) := by
  induction fs generalizing result with
  | nil => simp [checkSet,Passes,Leads]
  | cons f fs ih =>
    rw [checkSet,passes_cons,leads_cons]
    rcases checkFilter_spec H read ps f result with
      ⟨⟨exception,h⟩,hfl⟩ | ⟨h,hsp⟩ | ⟨h,hp,hr,hs,ha⟩ | ⟨h,hp,hst⟩
    · rw [h]
      exact iff_of_false (fun he => by cases he) fun hrn => hfl hrn.1.1
    · rw [h]
      refine iff_of_false (fun hrt => by cases hrt) ?_
      rintro ⟨⟨hp,-⟩,hf⟩
      obtain ⟨hr,hs,ha⟩ := hsp hp
      rcases hf with hf | hf | hf
      · rw [hr] at hf
        cases hf
      · exact hs hf
      · exact ha hf.1
    · rw [h]
      refine ih.trans ?_
      simp [hp,hr,hs,ha]
    · rw [h]
      refine ih.trans ?_
      rcases hst with hst | hst <;> simp [hp,hst]

theorem checkSet_returns {value : Bool} (h : checkSet H read ps result fs = .ok (.returns value)) :
    value = false := by
  induction fs generalizing result with
  | nil => cases h
  | cons f fs ih =>
    rw [checkSet] at h
    rcases checkFilter_spec H read ps f result with
      ⟨⟨exception,hf⟩,-⟩ | ⟨hf,-⟩ | ⟨hf,-⟩ | ⟨hf,-⟩ <;> rw [hf] at h
    · cases h
    · cases h
      rfl
    · exact ih h
    · exact ih h

theorem checkSet_append (first second : List (ColumnFilter T Other)) :
    checkSet H read ps result (first ++ second) = (do
      match ← checkSet H read ps result first with
      | .returns value => pure (.returns value)
      | .continues result => checkSet H read ps result second) := by
  induction first generalizing result with
  | nil => rfl
  | cons f fs ih =>
    rw [cons_append,checkSet,checkSet]
    cases checkFilter H read ps result f with
    | error exception => rfl
    | ok flow =>
      cases flow with
      | returns value => rfl
      | continues result => exact ih

/-- The two loops are one loop over all filters. -/
theorem checkSets_true (sets : List (List (ColumnFilter T Other))) :
    checkSets H read ps result sets = .ok true ↔
      checkSet H read ps result sets.flatten = .ok (.continues true) := by
  induction sets generalizing result with
  | nil => simp [checkSets,checkSet]
  | cons set sets ih =>
    rw [checkSets,flatten_cons,checkSet_append]
    cases h : checkSet H read ps result set with
    | error exception => exact iff_of_false (fun he => by cases he) fun he => by cases he
    | ok flow =>
      cases flow with
      | returns value =>
        obtain rfl := checkSet_returns h
        exact iff_of_false (fun hf => by cases hf) fun hr => by cases hr
      | continues result => exact ih

section
variable (H read) (keys : List (String × String)) (sets : List (List (ColumnFilter T Other)))

/-- The name of a partition column is given once. -/
def Distinct : Prop := (keys.map Prod.fst).Nodup

def valueOf (name : String) : Option String := keys.lookup name

/-- The partition is left out exactly if no test throws and a filter sets the flag before any is tested. -/
theorem isPartitionFiltered_true :
    isPartitionFiltered H read (some keys) (some sets) = .ok true ↔ Distinct keys ∧
      Passes H read (valueOf keys) sets.flatten ∧
      Leads H read (valueOf keys) sets.flatten := by
  cases sets with
  | nil => simp [isPartitionFiltered,Leads]
  | cons set sets =>
    rw [isPartitionFiltered,Distinct]
    split
    · rename_i hd
      rw [and_iff_right hd,checkSets_true,checkSet_true]
      refine and_congr_right fun _ => or_iff_right ?_
      decide
    · rename_i hd
      exact iff_of_false (fun he => by cases he) fun h => hd h.1

/-- No set that accepts the partition is passed with a flag of another set: the sets before it do not set the
flag, and those after it only if a filter up to it has been tested. -/
def NotCarried : Prop :=
  ∀ before set after, sets = before ++ set :: after → (∀ f ∈ set, ¬ Hit H read (valueOf keys) f) →
    ¬ Leads H read (valueOf keys) before.flatten ∧
      ((∀ f ∈ before.flatten ++ set, askedValue (valueOf keys) f = none) →
        ¬ Leads H read (valueOf keys) after.flatten)

theorem Sets.hit {f : ColumnFilter T Other} (h : Sets H read (valueOf keys) f) :
    Hit H read (valueOf keys) f := by
  refine h.imp_right ?_
  rintro ⟨value,ha,hc⟩
  rw [askedValue] at ha
  split at ha
  · rename_i hk
    obtain ⟨hv,hd⟩ := Option.filter_eq_some_iff.mp ha
    exact ⟨hk,value,hv,by rwa [if_neg (of_decide_eq_true hd)]⟩
  · cases ha

/-- A set without a hit does not lead, so the flag comes from the sets around it. -/
theorem leads_around {before after : List (List (ColumnFilter T Other))} {set : List (ColumnFilter T Other)}
    (hn : ∀ f ∈ set, ¬ Hit H read (valueOf keys) f) :
    Leads H read (valueOf keys) (before ++ set :: after).flatten ↔
      Leads H read (valueOf keys) before.flatten ∨
        (∀ f ∈ before.flatten ++ set, askedValue (valueOf keys) f = none) ∧
          Leads H read (valueOf keys) after.flatten := by
  have hs : ¬ Leads H read (valueOf keys) set := by
    rintro ⟨first,f,rest,rfl,hs,-⟩
    exact hn f (by simp) (hs.hit ..)
  rw [flatten_append,flatten_cons,leads_append,leads_append,forall_mem_append]
  tauto

variable {H read keys}

end

namespace TwoDisjuncts

def hash : BloomHash := ⟨fun _ => 0,fun _ => 0⟩

def asOne : Unit → String → Except Thrown (NativeValue Empty) := fun _ _ => .ok (.long 1)

def oneOf (value : Int) : ColumnFilter Unit Empty := ⟨⟨"p",(),true⟩,.hashSet "f" {.long value} none none⟩

end TwoDisjuncts
end HetuCore.DynamicFiltering.PartitionFilter
