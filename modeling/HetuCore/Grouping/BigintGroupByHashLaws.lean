import HetuCore.Grouping.GroupByHashLaws
import HetuCore.Grouping.GroupByWorkLaws

namespace HetuCore.Grouping
open Foundation Foundation.OpenAddressing Hash BigintSlot List Option

namespace BigintGroupByHash
variable {known : List (Option (BitVec 64))} {s : BigintGroupByHash}

/-- The slots of the values. NULL has none. -/
def entries (known : List (Option (BitVec 64))) : List BigintSlot :=
  known.zipIdx.filterMap fun key => key.1.map fun value => ⟨value,key.2⟩

theorem mem_entries {slot : BigintSlot} : slot ∈ entries known ↔ known[slot.groupId]? = some (some slot.value) := by
  rw [entries,mem_filterMap]
  constructor
  · rintro ⟨⟨key,groupId⟩,hk,hs⟩
    obtain ⟨value,rfl,rfl⟩ := map_eq_some_iff.mp hs
    exact mem_zipIdx_iff_getElem?.mp hk
  · intro hs
    exact ⟨(some slot.value,slot.groupId),mem_zipIdx_iff_getElem?.mpr hs,rfl⟩

theorem value_mem {slot : BigintSlot} (h : slot ∈ entries known) : some slot.value ∈ known :=
  mem_of_getElem? (mem_entries.mp h)

theorem length_entries_le (known : List (Option (BitVec 64))) : (entries known).length ≤ known.length :=
  (length_filterMap_le _ _).trans_eq length_zipIdx

theorem entries_concat_none (known : List (Option (BitVec 64))) : entries (known ++ [none]) = entries known := by
  simp [entries,zipIdx_append]

theorem entries_concat_some (known : List (Option (BitVec 64))) (value : BitVec 64) :
    entries (known ++ [some value]) = entries known ++ [⟨value,known.length⟩] := by
  simp [entries,zipIdx_append]

/-- The table, the array of values and the group of NULL hold the known keys. -/
structure Rep (known : List (Option (BitVec 64))) (s : BigintGroupByHash) : Prop where
  nodup : known.Nodup
  count : s.nextGroupId = known.length
  capacity : s.nextGroupId ≤ calculateMaxFill (2 ^ s.bits)
  values : s.valuesByGroupId = known
  nulls : ∀ groupId, s.nullGroupId = some groupId ↔ known[groupId]? = some none
  stores : Stores value (getHashPosition s.bits) s.slots (entries known)

theorem Rep.length_lt (h : Rep known s) : known.length < 2 ^ s.bits :=
  (h.count ▸ h.capacity).trans_lt (calculateMaxFill_lt (Nat.two_pow_pos _))

theorem Rep.entries_lt (h : Rep known s) : (entries known).length < 2 ^ s.bits :=
  (length_entries_le known).trans_lt h.length_lt

section Increase

theorem Rep.rehashGroup (h : Rep known s) {groupId : Nat} (hg : groupId < known.length)
    {table : Fin (2 ^ (s.bits + 1)) → Option BigintSlot}
    (hs : Stores value (getHashPosition (s.bits + 1)) table (entries (known.take groupId))) :
    ∃ table', s.rehashGroup table groupId = .ok table' ∧
      Stores value (getHashPosition (s.bits + 1)) table' (entries (known.take (groupId + 1))) := by
  have hgt : known[groupId]? = some known[groupId] := getElem?_eq_getElem hg
  have ht : known.take (groupId + 1) = known.take groupId ++ [known[groupId]] :=
    (take_append_getElem hg).symm
  rw [ht,BigintGroupByHash.rehashGroup]
  cases hk : known[groupId] with
  | none =>
    rw [hk] at hgt
    rw [if_pos ((h.nulls groupId).mpr hgt).symm,entries_concat_none]
    exact ⟨table,rfl,hs⟩
  | some value =>
    rw [hk] at hgt ht
    have hn : ¬ some groupId = s.nullGroupId := by
      intro hn
      rw [(h.nulls groupId).mp hn.symm] at hgt
      cases hgt
    have hl : (known.take groupId).length = groupId := length_take_of_le hg.le
    have hnd : (known.take groupId ++ [some value]).Nodup := ht ▸ h.nodup.sublist (take_sublist _ _)
    have hr : (entries (known.take groupId)).length < 2 ^ (s.bits + 1) := by
      have hle := length_entries_le (known.take groupId)
      have hlt := h.length_lt
      omega
    rw [if_neg hn,h.values,hgt,entries_concat_some,hl]
    refine rehashEntry_stores hs hr fun slot hsl (heq : slot.value = value) => ?_
    have hm : some value ∈ known.take groupId := heq ▸ value_mem hsl
    exact (disjoint_of_nodup_append hnd) hm (mem_singleton_self _)

theorem Rep.rehash (h : Rep known s) : ∃ slots, (range s.nextGroupId).foldlM s.rehashGroup (fun _ => none) = .ok slots ∧
    Stores value (getHashPosition (s.bits + 1)) slots (entries known) := by
  have hr : ∀ done groupId rest (table : Fin (2 ^ (s.bits + 1)) → Option BigintSlot),
      range s.nextGroupId = done ++ groupId :: rest →
      Stores value (getHashPosition (s.bits + 1)) table (entries (known.take done.length)) →
      ∃ table', s.rehashGroup table groupId = .ok table' ∧ Stores value (getHashPosition (s.bits + 1)) table'
        (entries (known.take (done ++ [groupId]).length)) := by
    intro done groupId rest table hsp hs
    have hgt : (range s.nextGroupId)[done.length]? = some groupId := by
      rw [hsp]
      simp
    obtain ⟨hlt,hg⟩ := List.getElem?_eq_some_iff.mp hgt
    rw [getElem_range] at hg
    rw [length_range,h.count] at hlt
    subst hg
    rw [length_append]
    exact h.rehashGroup hlt hs
  obtain ⟨slots,hsl,hs⟩ := foldlM_total _ .empty hr
  rw [length_range,h.count,take_length] at hs
  exact ⟨slots,hsl,hs⟩

theorem Rep.increase (h : Rep known s) (hn : s.needMoreCapacity = true) :
    Ends (SizeExceeded known.length) (fun out => Rep known out.2 ∧ (out.1 = true → out.2.needMoreCapacity = false) ∧
      ((∀ call, s.updateMemory call = true) → out.1 = true ∧ ∀ call, out.2.updateMemory call = true))
      s.tryToIncreaseCapacity := by
  have hfl : calculateMaxFill (2 ^ s.bits) ≤ known.length := h.count ▸ of_decide_eq_true hn
  refine .bind (reserveMemory_ends hfl) ?_
  rintro ⟨granted,updateMemory⟩ ho
  cases ho
  cases hg : s.updateMemory 0 with
  | false =>
    refine .pure ⟨⟨h.nodup,h.count,h.capacity,h.values,h.nulls,h.stores⟩,fun hf => ?_,fun ha => ?_⟩
    · cases hf
    · rw [ha 0] at hg
      cases hg
  | true =>
    obtain ⟨slots,hsl,hs⟩ := h.rehash
    have hd : s.nextGroupId < calculateMaxFill (2 ^ (s.bits + 1)) :=
      h.capacity.trans_lt (calculateMaxFill_double (Nat.two_pow_pos _))
    dsimp only
    rw [hsl]
    refine .pure ⟨⟨h.nodup,h.count,hd.le,h.values,h.nulls,hs⟩,fun _ => ?_,fun ha => ⟨rfl,fun call => ha _⟩⟩
    exact decide_eq_false hd.not_ge

theorem Rep.returnGroupId (h : Rep known s) (groupId : Nat) :
    Ends (SizeExceeded known.length) (fun out => out.1 = groupId ∧ Rep known out.2 ∧
      ((∀ call, s.updateMemory call = true) →
        (∀ call, out.2.updateMemory call = true) ∧ out.2.needMoreCapacity = false)) (s.returnGroupId groupId) := by
  rw [BigintGroupByHash.returnGroupId]
  cases hn : s.needMoreCapacity with
  | false => exact ⟨rfl,h,fun ha => ⟨ha,hn⟩⟩
  | true =>
    refine .bind (h.increase hn) ?_
    rintro ⟨granted,s'⟩ ⟨hr,hc,hg⟩
    refine .pure ⟨rfl,hr,fun ha => ?_⟩
    obtain ⟨hgr,ha'⟩ := hg ha
    exact ⟨ha',hc hgr⟩

end Increase

section Put

variable {key : Option (BitVec 64)} {value : BitVec 64}

section
variable (h : Rep known s)
include h

theorem Rep.idxOf_eq {groupId : Nat} (hk : known[groupId]? = some key) : known.idxOf key = groupId := by
  obtain ⟨hg,rfl⟩ := List.getElem?_eq_some_iff.mp hk
  exact h.nodup.idxOf_getElem groupId hg

theorem Rep.probe_known (hv : some value ∈ known) :
    ∃ pos slot, probe s.slots (fun slot => value == slot.value) (2 ^ s.bits) (getHashPosition s.bits value) = some pos ∧
      s.slots pos = some slot ∧ slot.groupId = known.idxOf (some value) := by
  obtain ⟨groupId,hg⟩ := mem_iff_getElem?.mp hv
  have hs : (⟨value,groupId⟩ : BigintSlot) ∈ entries known := mem_entries.mpr hg
  obtain ⟨pos,hp,hps⟩ := h.stores.probe_mem h.entries_lt hs fun slot _ => beq_iff_eq.trans eq_comm
  exact ⟨pos,_,hp,hps,(h.idxOf_eq hg).symm⟩

theorem Rep.probe_new (hv : some value ∉ known) :
    ∃ pos, probe s.slots (fun slot => value == slot.value) (2 ^ s.bits) (getHashPosition s.bits value) = some pos ∧
      s.slots pos = none ∧ OpenAddressing.Run s.slots (getHashPosition s.bits value) pos := by
  refine h.stores.probe_notMem h.entries_lt _ fun slot hs ht => hv ?_
  rw [beq_iff_eq.mp ht]
  exact value_mem hs

theorem Rep.nullGroupId_eq_none_iff : s.nullGroupId = none ↔ none ∉ known := by
  rw [eq_none_iff_forall_ne_some,mem_iff_getElem?,not_exists]
  exact forall_congr' fun groupId => (h.nulls groupId).not

theorem Rep.addNull (hn : none ∉ known) (hnd : s.needMoreCapacity = false) :
    Rep (known ++ [none]) { s with
      nullGroupId := some s.nextGroupId
      valuesByGroupId := s.valuesByGroupId ++ [none]
      nextGroupId := s.nextGroupId + 1 } where
  nodup := nodup_append_comm.mp (h.nodup.cons hn)
  count := by simp [h.count]
  capacity := Nat.lt_of_not_le (of_decide_eq_false hnd)
  values := congrArg (· ++ [none]) h.values
  nulls := by
    intro groupId
    rw [h.count,some.injEq,getElem?_concat_eq_some,or_iff_right fun hg => hn (mem_of_getElem? hg)]
    exact eq_comm.trans (and_iff_left rfl).symm
  stores := by
    rw [entries_concat_none]
    exact h.stores

theorem Rep.addValue (hv : some value ∉ known) (hn : s.needMoreCapacity = false) {pos : Fin (2 ^ s.bits)}
    (hp : s.slots pos = none) (hr : OpenAddressing.Run s.slots (getHashPosition s.bits value) pos) :
    Rep (known ++ [some value]) { s with
      slots := Function.update s.slots pos (some ⟨value,s.nextGroupId⟩)
      valuesByGroupId := s.valuesByGroupId ++ [some value]
      nextGroupId := s.nextGroupId + 1 } where
  nodup := nodup_append_comm.mp (h.nodup.cons hv)
  count := by simp [h.count]
  capacity := Nat.lt_of_not_le (of_decide_eq_false hn)
  values := congrArg (· ++ [some value]) h.values
  nulls := by
    intro groupId
    rw [h.nulls groupId,getElem?_concat_eq_some]
    exact (or_iff_left fun hnw => absurd hnw.2 (by simp)).symm
  stores := by
    rw [entries_concat_some,h.count]
    refine h.stores.insert hp hr fun slot hs (heq : slot.value = value) => hv ?_
    exact heq ▸ value_mem hs

theorem Rep.put (key : Option (BitVec 64)) (hn : s.needMoreCapacity = false) :
    Ends (SizeExceeded (absorb known key).length) (fun out => out.1 = (absorb known key).idxOf key ∧
      Rep (absorb known key) out.2 ∧ ((∀ call, s.updateMemory call = true) →
        (∀ call, out.2.updateMemory call = true) ∧ out.2.needMoreCapacity = false)) (s.putIfAbsent key) := by
  by_cases hk : key ∈ known
  · rw [absorb_of_mem hk]
    cases key with
    | none =>
      obtain ⟨groupId,hg⟩ := mem_iff_getElem?.mp hk
      simp only [putIfAbsent,(h.nulls groupId).mpr hg,h.idxOf_eq hg]
      exact h.returnGroupId groupId
    | some value =>
      obtain ⟨pos,slot,hp,hs,hg⟩ := h.probe_known hk
      simp only [putIfAbsent,hp,hs]
      exact ⟨hg,h,fun ha => ⟨ha,hn⟩⟩
  · rw [idxOf_absorb_self hk,absorb_of_notMem hk,← h.count]
    cases key with
    | none =>
      simp only [putIfAbsent,h.nullGroupId_eq_none_iff.mpr hk]
      exact (h.addNull hk hn).returnGroupId s.nextGroupId
    | some value =>
      obtain ⟨pos,hp,hps,hr⟩ := h.probe_new hk
      simp only [putIfAbsent,hp,hps]
      exact (h.addValue hk hn hps hr).returnGroupId s.nextGroupId

end

/-- Any rows may come, and the size of the table is the only limit. -/
def contract : Contract BigintGroupByHash (Option (BitVec 64)) where
  Rep := fun done s => Rep done.eraseDups s
  Admits := fun _ _ => True
  Granted := fun s => ∀ call, s.updateMemory call = true
  Permitted := SizeExceeded

/-- `BigintGroupByHash` numbers its keys by first appearance. -/
theorem numbers : Numbers groupBy id contract where
  increase := fun h hn => h.increase hn
  put := by
    intro done s key h _ hn
    rw [eraseDups_concat]
    refine (h.put key hn).mono fun out ho => ⟨ho.1,?_,ho.2.2⟩
    show Rep (done ++ [key]).eraseDups out.2
    rw [eraseDups_concat]
    exact ho.2.1
  again := by
    intro done s key h _ hk
    show Rep (done ++ [key]).eraseDups s
    rw [eraseDups_concat,absorb_of_mem (mem_eraseDups.mpr hk)]
    exact h
  mono := SizeExceeded.mono

theorem rep_create (bits : Nat) (updateMemory : UpdateMemory) : Rep [] (create bits updateMemory) where
  nodup := nodup_nil
  count := rfl
  capacity := Nat.zero_le _
  values := rfl
  nulls := fun groupId => by simp [create]
  stores := Stores.empty

theorem Rep.contains (h : Rep known s) (key : Option (BitVec 64)) : s.contains key = .ok (decide (key ∈ known)) := by
  cases key with
  | none =>
    rw [BigintGroupByHash.contains]
    congr 1
    rw [Bool.eq_iff_iff,decide_eq_true_iff,isSome_iff_ne_none,Ne,h.nullGroupId_eq_none_iff,not_not]
  | some value =>
    rw [BigintGroupByHash.contains]
    by_cases hk : some value ∈ known
    · obtain ⟨pos,slot,hp,hs,-⟩ := h.probe_known hk
      simp [hp,hs,hk]
    · obtain ⟨pos,hp,hps,-⟩ := h.probe_new hk
      simp [hp,hps,hk]

theorem Rep.appendValuesTo (h : Rep known s) {groupId : Nat} (hk : known[groupId]? = some key) :
    s.appendValuesTo groupId = key := by
  rw [BigintGroupByHash.appendValuesTo]
  cases key with
  | none => rw [if_pos ((h.nulls groupId).mpr hk).symm]
  | some value =>
    have hn : ¬ some groupId = s.nullGroupId := by
      intro hn
      rw [(h.nulls groupId).mp hn.symm] at hk
      cases hk
    rw [if_neg hn,h.values,hk]
    rfl

end Put
end BigintGroupByHash
end HetuCore.Grouping
