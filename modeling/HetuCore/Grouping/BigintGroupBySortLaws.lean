import HetuCore.Grouping.GroupBySort
import HetuCore.Grouping.GroupByWorkLaws
import HetuCore.Grouping.SortedKeys

namespace HetuCore.Grouping
open Foundation List

namespace BigintGroupBySort
variable {done : List (Option (BitVec 64))} {key : Option (BitVec 64)} {s : BigintGroupBySort}

/-- The state after these rows. -/
structure Rep (done : List (Option (BitVec 64))) (s : BigintGroupBySort) : Prop where
  latest : Latest done
  count : s.nextGroupId = done.eraseDups.length
  capacity : s.nextGroupId < s.maxFill
  length : s.sortedValuesByGroupId.length = done.eraseDups.length
  values : ∀ {groupId : Nat} {value}, done.eraseDups[groupId]? = some (some value) →
    s.sortedValuesByGroupId[groupId]? = some value
  nulls : ∀ groupId, s.nullGroupId = some groupId ↔ done.eraseDups[groupId]? = some none
  previous : ∀ value, (s.addNewGroup = false ∧ s.prevValue = value) ↔ done.getLast? = some (some value)

/-- A run throws only with a billion groups. -/
def ArrayExceeded (keys : Nat) (message : String) : Prop := message = arrayExceeded ∧ 1073741824 ≤ keys

theorem addGroup_ends (hc : s.nextGroupId < s.maxFill) (value : BitVec 64) :
    Ends (ArrayExceeded (s.nextGroupId + 1)) (fun out => out.1 = s.nextGroupId ∧ ∃ maxFill, s.nextGroupId + 1 < maxFill ∧
      out.2 = { s with
        maxFill := maxFill
        sortedValuesByGroupId := s.sortedValuesByGroupId ++ [value]
        nextGroupId := s.nextGroupId + 1 }) (s.addGroup value) := by
  simp only [addGroup,needMoreCapacity,tryToIncreaseCapacity]
  by_cases hn : s.maxFill ≤ s.nextGroupId + 1
  · rw [if_pos (decide_eq_true hn)]
    by_cases hl : s.maxFill * 2 > 2147483647
    · rw [if_pos hl]
      exact ⟨rfl,by omega⟩
    · rw [if_neg hl]
      exact ⟨rfl,s.maxFill * 2,by omega,rfl⟩
  · rw [if_neg (decide_eq_false hn ▸ Bool.false_ne_true)]
    exact ⟨rfl,s.maxFill,by omega,rfl⟩

variable {s' : BigintGroupBySort}

theorem Rep.addKey (h : Rep done s) (hky : key ∉ done)
    (hcn : s'.nextGroupId = s.nextGroupId + 1) (hc : s'.nextGroupId < s'.maxFill)
    (hv : s'.sortedValuesByGroupId = s.sortedValuesByGroupId ++ [key.getD (-1)])
    (hnl : s'.nullGroupId = if key = none then some s.nextGroupId else s.nullGroupId)
    (hp : ∀ value, (s'.addNewGroup = false ∧ s'.prevValue = value) ↔ key = some value) : Rep (done ++ [key]) s' := by
  have hk : (done ++ [key]).eraseDups = done.eraseDups ++ [key] := by
    rw [eraseDups_concat,absorb_of_notMem fun hm => hky (mem_eraseDups.mp hm)]
  refine ⟨h.latest.concat fun hm => absurd hm hky,?_,hc,?_,?_,?_,?_⟩
  · rw [hcn,h.count,hk,length_append,length_singleton]
  · rw [hv,hk,length_append,length_append,h.length,length_singleton,length_singleton]
  · intro groupId value hg
    rw [hk,getElem?_concat_eq_some] at hg
    rw [hv,getElem?_concat_eq_some,h.length]
    refine hg.imp h.values fun hn => ⟨hn.1,?_⟩
    rw [hn.2]
    rfl
  · intro groupId
    rw [hnl,hk,getElem?_concat_eq_some,h.count]
    cases key with
    | none =>
      rw [if_pos rfl,Option.some.injEq,or_iff_right fun hg => hky (mem_eraseDups.mp (mem_of_getElem? hg))]
      exact eq_comm.trans (and_iff_left rfl).symm
    | some value =>
      rw [if_neg (by simp),h.nulls]
      exact (or_iff_left fun hn => absurd hn.2 (by simp)).symm
  · intro value
    rw [hp,getLast?_concat,Option.some.injEq]

theorem Rep.repeatKey (h : Rep done s) (hl : done.getLast? = some key)
    (hc : s'.nextGroupId = s.nextGroupId) (hcp : s'.maxFill = s.maxFill)
    (hv : s'.sortedValuesByGroupId = s.sortedValuesByGroupId) (hn : s'.nullGroupId = s.nullGroupId)
    (hp : ∀ value, (s'.addNewGroup = false ∧ s'.prevValue = value) ↔ key = some value) : Rep (done ++ [key]) s' := by
  have hk : (done ++ [key]).eraseDups = done.eraseDups := by
    rw [eraseDups_concat,absorb_of_mem (mem_eraseDups.mpr (mem_of_getLast? hl))]
  refine ⟨h.latest.concat fun _ => hl,?_,?_,?_,?_,?_,?_⟩
  · rw [hc,hk,h.count]
  · rw [hc,hcp]
    exact h.capacity
  · rw [hv,hk,h.length]
  · intro groupId value hg
    rw [hk] at hg
    rw [hv]
    exact h.values hg
  · intro groupId
    rw [hn,hk,h.nulls]
  · intro value
    rw [hp,getLast?_concat,Option.some.injEq]

theorem Rep.put (h : Rep done s) (hf : Follows done key) :
    Ends (ArrayExceeded (done ++ [key]).eraseDups.length) (fun out => out.1 = (done ++ [key]).eraseDups.idxOf key ∧
      Rep (done ++ [key]) out.2) (s.putIfAbsent key) := by
  have hnw : key ∉ done → (done ++ [key]).eraseDups.idxOf key = s.nextGroupId ∧
      (done ++ [key]).eraseDups.length = s.nextGroupId + 1 := by
    intro hk
    have hkn : key ∉ done.eraseDups := fun hm => hk (mem_eraseDups.mp hm)
    rw [eraseDups_concat,idxOf_absorb_self hkn,absorb_of_notMem hkn,length_append,h.count]
    exact ⟨rfl,rfl⟩
  cases key with
  | none =>
    rw [putIfAbsent]
    cases hn : s.nullGroupId with
    | some nullGroupId =>
      have hg := (h.nulls nullGroupId).mp hn
      have hm : none ∈ done := mem_eraseDups.mp (mem_of_getElem? hg)
      refine ⟨?_,h.repeatKey (hf hm) rfl rfl rfl hn.symm fun value => by simp⟩
      obtain ⟨hlt,hv⟩ := List.getElem?_eq_some_iff.mp hg
      rw [idxOf_eraseDups_append hm,← hv,(nodup_eraseDups done).idxOf_getElem _ hlt]
    | none =>
      have hk : none ∉ done := by
        intro hm
        obtain ⟨groupId,hg⟩ := mem_iff_getElem?.mp (mem_eraseDups.mpr hm)
        rw [(h.nulls groupId).mpr hg] at hn
        cases hn
      rw [(hnw hk).1,(hnw hk).2]
      refine .bind (addGroup_ends h.capacity (-1)) ?_
      rintro ⟨groupId,s'⟩ ⟨rfl,maxFill,hr,rfl⟩
      exact ⟨rfl,h.addKey hk rfl hr rfl rfl fun value => by simp⟩
  | some value =>
    rw [putIfAbsent]
    by_cases hs : s.addNewGroup = false ∧ s.prevValue = value
    · rw [if_pos hs]
      have hl := (h.previous value).mp hs
      refine ⟨?_,h.repeatKey hl rfl rfl rfl rfl fun other => ?_⟩
      · rw [idxOf_eraseDups_append (mem_of_getLast? hl),h.latest.idxOf_eq hl,h.count]
      · rw [h.previous,hl,Option.some.injEq]
    · rw [if_neg hs]
      have hk : some value ∉ done := hf.notMem fun hl => hs ((h.previous value).mpr hl)
      rw [(hnw hk).1,(hnw hk).2]
      refine (addGroup_ends (s := { s with addNewGroup := false, prevValue := value }) h.capacity value).mono ?_
      rintro ⟨groupId,s'⟩ ⟨rfl,maxFill,hr,rfl⟩
      exact ⟨rfl,h.addKey hk rfl hr rfl (if_neg (by simp)).symm fun other => by simp⟩

/-- Sorted rows may come, and the number of groups is the only limit. -/
def contract : Contract BigintGroupBySort (Option (BitVec 64)) where
  Rep := Rep
  Admits := Follows
  Granted := fun _ => True
  Permitted := ArrayExceeded

theorem Rep.needMoreCapacity (h : Rep done s) : s.needMoreCapacity = false := decide_eq_false h.capacity.not_ge

theorem numbers : Numbers groupBy id contract where
  increase := by
    intro done s h hn
    rw [show groupBy.needMoreCapacity s = false from Rep.needMoreCapacity h] at hn
    cases hn
  put := fun key h hf _ =>
    (h.put hf).mono fun _ ho => ⟨ho.1,ho.2,fun _ => ⟨trivial,ho.2.needMoreCapacity⟩⟩
  again := by
    intro done s key h hf hmm
    refine h.repeatKey (hf hmm) rfl rfl rfl rfl fun value => ?_
    rw [h.previous,hf hmm,Option.some.injEq]
  mono := fun hle hm => ⟨hm.1,hm.2.trans hle⟩

theorem rep_create {expectedSize : Nat} (h : 0 < expectedSize) : Rep [] (create expectedSize) :=
  ⟨latest_nil,rfl,h,rfl,nofun,fun groupId => by simp [create],fun value => by simp [create]⟩

theorem Rep.appendValuesTo (h : Rep done s) {groupId : Nat} (hk : done.eraseDups[groupId]? = some key) :
    s.appendValuesTo groupId = .ok key := by
  rw [BigintGroupBySort.appendValuesTo]
  cases key with
  | none => rw [if_pos ((h.nulls groupId).mpr hk).symm]
  | some value =>
    have hn : ¬ some groupId = s.nullGroupId := by
      intro hn
      rw [(h.nulls groupId).mp hn.symm] at hk
      cases hk
    rw [if_neg hn,h.values hk]

theorem Rep.output_eq (h : Rep done s) :
    (range done.eraseDups.length).mapM s.appendValuesTo = .ok done.eraseDups := by
  have hk : (range done.eraseDups.length).map (done.eraseDups.getD · none) = done.eraseDups := by
    refine ext_getElem (by simp) fun i _ hi => ?_
    simp [getElem?_eq_getElem hi]
  rw [← congrArg Except.ok hk]
  refine mapM_of_ok fun groupId hg => h.appendValuesTo ?_
  rw [mem_range] at hg
  rw [getD_eq_getElem?_getD,getElem?_eq_getElem hg]
  rfl

end BigintGroupBySort
end HetuCore.Grouping
