import HetuCore.Grouping.MultiChannelGroupByHashLaws

namespace HetuCore.Grouping
open Foundation Foundation.OpenAddressing Hash List Option

namespace MultiChannelGroupByHash
variable {V : Type} {hash : Key V → BitVec 64} {known : List (Key V)} {s : MultiChannelGroupByHash V} {key : Key V}

section Put
variable [DecidableEq V] {pre : Bool} {isFull : List (StoredRow V) → Bool}

theorem Rep.notDistinct_iff (h : Rep hash known s) (key : Key V) {slot : Slot}
    (hs : slot ∈ entries hash known s.groupAddressByGroupId) :
    s.positionNotDistinctFromCurrentRow key (hash key) slot = true ↔ keyOf known slot = key := by
  obtain ⟨hg,he⟩ := mem_entries.mp hs
  obtain ⟨row,hr,hk,-⟩ := h.rows slot.groupId hg
  have ha : slot.address = s.groupAddressByGroupId.getD slot.groupId ⟨0,0⟩ := congrArg Slot.address he
  have htg : slot.rawHash = tag (hash (keyOf known slot)) := congrArg Slot.rawHash he
  have hrw : row.key = keyOf known slot := hk
  rw [positionNotDistinctFromCurrentRow,ha,hr,htg,any_some,hrw]
  constructor
  · intro ht
    exact beq_iff_eq.mp (Bool.and_eq_true_iff.mp ht).2
  · rintro rfl
    simp

theorem Rep.probe_known (h : Rep hash known s) (hky : key ∈ known) :
    ∃ pos slot, probe s.slots (s.positionNotDistinctFromCurrentRow key (hash key)) (2 ^ s.bits)
      (getHashPosition s.bits (hash key)) = some pos ∧ s.slots pos = some slot ∧ slot.groupId = known.idxOf key := by
  have hi : known.idxOf key < known.length := idxOf_lt_length_iff.mpr hky
  have hk : keyOf known (entryOf hash known s.groupAddressByGroupId (known.idxOf key)) = key := by
    rw [keyOf,entryOf,getD_eq_getElem _ _ hi]
    exact getElem_idxOf hi
  have hm : entryOf hash known s.groupAddressByGroupId (known.idxOf key) ∈
      entries hash known s.groupAddressByGroupId := mem_entries.mpr ⟨hi,rfl⟩
  obtain ⟨pos,hp,hs⟩ := h.stores.probe_mem h.entries_lt hm fun slot hs => by
    rw [hk]
    exact h.notDistinct_iff key hs
  rw [hk] at hp
  exact ⟨pos,_,hp,hs,rfl⟩

theorem Rep.probe_new (h : Rep hash known s) (hk : key ∉ known) :
    ∃ pos, probe s.slots (s.positionNotDistinctFromCurrentRow key (hash key)) (2 ^ s.bits)
      (getHashPosition s.bits (hash key)) = some pos ∧ s.slots pos = none ∧
      OpenAddressing.Run s.slots (getHashPosition s.bits (hash key)) pos := by
  refine h.stores.probe_notMem h.entries_lt _ fun slot hs ht => hk ?_
  rw [← (h.notDistinct_iff key hs).mp ht]
  exact keyOf_mem hs

end Put

section AddRow

theorem read_mono {α : Type} {pages pages' : List (List α)}
    (h : ∀ (i : Nat) page, pages[i]? = some page → ∃ more, pages'[i]? = some (page ++ more)) {i position : Nat} {row : α}
    (hrd : pages[i]?.bind (·[position]?) = some row) : pages'[i]?.bind (·[position]?) = some row := by
  obtain ⟨page,hpg,hr⟩ := bind_eq_some_iff.mp hrd
  obtain ⟨more,hm⟩ := h i page hpg
  obtain ⟨hp,-⟩ := List.getElem?_eq_some_iff.mp hr
  rw [hm,bind_some,List.getElem?_append_left hp,hr]

variable {pre : Bool} (pos : Fin (2 ^ s.bits))

theorem read_addRow (key : Key V) (rawHash : BitVec 64) {address : Address} {row : StoredRow V}
    (hr : s.read address = some row) : (s.addRow pre pos key rawHash).read address = some row := by
  refine read_mono (fun i page hp => ?_) hr
  rw [channelBuilders] at hp
  simp only [channelBuilders,addRow]
  rcases lt_trichotomy i s.completedPages.length with hlt | rfl | hgt
  · rw [List.getElem?_append_left hlt] at hp ⊢
    exact ⟨[],by simpa using hp⟩
  · rw [getElem?_concat_length] at hp ⊢
    cases hp
    exact ⟨_,rfl⟩
  · rw [getElem?_eq_none (by simp; omega)] at hp
    cases hp

theorem read_addRow_self (key : Key V) (rawHash : BitVec 64) :
    (s.addRow pre pos key rawHash).read ⟨s.completedPages.length,s.currentPage.length⟩ =
      some ⟨key,if pre then some rawHash else none⟩ := by
  simp [read,channelBuilders,addRow]

theorem read_startNewPage {address : Address} {row : StoredRow V} (hr : s.read address = some row) :
    s.startNewPage.read address = some row := by
  refine read_mono (fun i page hp => ⟨[],?_⟩) hr
  rw [channelBuilders] at hp
  obtain ⟨hi,-⟩ := List.getElem?_eq_some_iff.mp hp
  rw [channelBuilders,startNewPage,List.getElem?_append_left hi,hp,append_nil]

theorem Rep.startNewPage (h : Rep hash known s) : Rep hash known s.startNewPage where
  nodup := h.nodup
  count := h.count
  capacity := h.capacity
  addresses := h.addresses
  rows := fun groupId hg => (h.rows groupId hg).imp fun _ hr => ⟨read_startNewPage hr.1,hr.2⟩
  stores := h.stores

theorem Rep.addRow (h : Rep hash known s) (hky : key ∉ known) (hn : s.needMoreCapacity = false)
    {pos : Fin (2 ^ s.bits)} (hp : s.slots pos = none)
    (hrn : OpenAddressing.Run s.slots (getHashPosition s.bits (hash key)) pos) :
    Rep hash (known ++ [key]) (s.addRow pre pos key (hash key)) where
  nodup := nodup_append_comm.mp (h.nodup.cons hky)
  count := by simp [MultiChannelGroupByHash.addRow,h.count]
  capacity := Nat.lt_of_not_le (of_decide_eq_false hn)
  addresses := by simp [MultiChannelGroupByHash.addRow,h.addresses]
  rows := by
    intro groupId hg
    rw [length_append,length_singleton,Nat.lt_succ_iff_lt_or_eq] at hg
    rcases hg with hg | rfl
    · obtain ⟨row,hr,hrw⟩ := h.rows groupId hg
      have ha : (s.addRow pre pos key (hash key)).groupAddressByGroupId.getD groupId ⟨0,0⟩ =
          s.groupAddressByGroupId.getD groupId ⟨0,0⟩ := by
        simp [MultiChannelGroupByHash.addRow,List.getElem?_append_left (h.addresses.symm ▸ hg)]
      have hk : (known ++ [key]).getD groupId [] = known.getD groupId [] := by
        simp [List.getElem?_append_left hg]
      rw [ha,hk]
      exact ⟨row,read_addRow pos key _ hr,hrw⟩
    · have ha : (s.addRow pre pos key (hash key)).groupAddressByGroupId.getD known.length ⟨0,0⟩ =
          ⟨s.completedPages.length,s.currentPage.length⟩ := by
        simp [MultiChannelGroupByHash.addRow,← h.addresses]
      have hk : (known ++ [key]).getD known.length [] = key := by simp
      rw [ha,hk]
      refine ⟨_,read_addRow_self pos key _,rfl,?_⟩
      cases pre with
      | false | true => rfl
  stores := by
    have hko : ∀ slot ∈ entries hash known s.groupAddressByGroupId, keyOf (known ++ [key]) slot = keyOf known slot := by
      intro slot hs
      simp [keyOf,List.getElem?_append_left (mem_entries.mp hs).1]
    have hsl : keyOf (known ++ [key]) ⟨⟨s.completedPages.length,s.currentPage.length⟩,tag (hash key),known.length⟩ = key := by
      simp [keyOf]
    have hst := h.stores.congr_key hko
    simp only [MultiChannelGroupByHash.addRow]
    rw [entries_concat h.addresses,h.count]
    refine hst.insert hp (by rw [hsl]; exact hrn) fun slot hs => ?_
    rw [hsl,hko slot hs]
    exact fun heq => hky (heq ▸ keyOf_mem hs)

end AddRow

section Main
variable [DecidableEq V] {pre : Bool} {isFull : List (StoredRow V) → Bool}

omit [DecidableEq V] in
theorem Rep.addNewGroup (h : Rep hash known s) (hk : key ∉ known) (hn : s.needMoreCapacity = false)
    {pos : Fin (2 ^ s.bits)} (hp : s.slots pos = none)
    (hrn : OpenAddressing.Run s.slots (getHashPosition s.bits (hash key)) pos) :
    Ends (SizeExceeded (known ++ [key]).length) (fun out => out.1 = known.length ∧ Rep hash (known ++ [key]) out.2 ∧
      ((∀ call, s.updateMemory call = true) →
        (∀ call, out.2.updateMemory call = true) ∧ out.2.needMoreCapacity = false))
      (s.addNewGroup hash pre isFull pos key (hash key)) := by
  have hr : Rep hash (known ++ [key]) (s.addRow pre pos key (hash key)) :=
    h.addRow hk hn hp hrn
  rw [MultiChannelGroupByHash.addNewGroup]
  -- the page may be full: the addresses stay
  obtain ⟨s',hs',hrp,hm⟩ : ∃ s', (if isFull (s.addRow pre pos key (hash key)).currentPage then
      (s.addRow pre pos key (hash key)).startNewPage
      else s.addRow pre pos key (hash key)) = s' ∧ Rep hash (known ++ [key]) s' ∧
      s'.updateMemory = s.updateMemory := by
    split
    · exact ⟨_,rfl,hr.startNewPage,rfl⟩
    · exact ⟨_,rfl,hr,rfl⟩
  rw [hs']
  cases hn' : s'.needMoreCapacity with
  | false =>
    exact .pure ⟨h.count,hrp,fun ha => ⟨hm ▸ ha,hn'⟩⟩
  | true =>
    refine .bind (hrp.increase hn') ?_
    rintro ⟨granted,s''⟩ ⟨hr',hc,hg⟩
    refine .pure ⟨h.count,hr',fun ha => ?_⟩
    obtain ⟨hgr,ha'⟩ := hg (hm ▸ ha)
    exact ⟨ha',hc hgr⟩

theorem Rep.put (h : Rep hash known s) (key : Key V) (hn : s.needMoreCapacity = false) :
    Ends (SizeExceeded (absorb known key).length) (fun out => out.1 = (absorb known key).idxOf key ∧
      Rep hash (absorb known key) out.2 ∧ ((∀ call, s.updateMemory call = true) →
        (∀ call, out.2.updateMemory call = true) ∧ out.2.needMoreCapacity = false))
      (s.putIfAbsent hash pre isFull key) := by
  by_cases hk : key ∈ known
  · obtain ⟨pos,slot,hp,hs,hg⟩ := h.probe_known hk
    have hpt : s.putIfAbsent hash pre isFull key = .ok (slot.groupId,s) := by
      rw [putIfAbsent,putIfAbsentOfHash,hp]
      dsimp only
      rw [hs]
    rw [absorb_of_mem hk]
    exact .of_ok hpt ⟨hg,h,fun ha => ⟨ha,hn⟩⟩
  · obtain ⟨pos,hp,hps,hr⟩ := h.probe_new hk
    have hpt : s.putIfAbsent hash pre isFull key =
        s.addNewGroup hash pre isFull pos key (hash key) := by
      rw [putIfAbsent,putIfAbsentOfHash,hp]
      dsimp only
      rw [hps]
    rw [hpt,idxOf_absorb_self hk,absorb_of_notMem hk]
    exact h.addNewGroup hk hn hps hr

/-- Any rows may come, and the size of the table is the only limit. -/
def contract (hash : Key V → BitVec 64) : Contract (MultiChannelGroupByHash V) (Key V) where
  Rep := fun done s => Rep hash done.eraseDups s
  Admits := fun _ _ => True
  Granted := fun s => ∀ call, s.updateMemory call = true
  Permitted := SizeExceeded

/-- `MultiChannelGroupByHash` numbers its keys by first appearance. -/
theorem numbers (hash : Key V → BitVec 64) (pre : Bool) (isFull : List (StoredRow V) → Bool) :
    Numbers (groupBy hash pre isFull) id (contract hash) where
  increase := fun h hn => h.increase hn
  put := by
    intro done s key h _ hn
    rw [eraseDups_concat]
    refine (h.put key hn).mono fun out ho => ⟨ho.1,?_,ho.2.2⟩
    show Rep hash (done ++ [key]).eraseDups out.2
    rw [eraseDups_concat]
    exact ho.2.1
  again := by
    intro done s key h _ hk
    show Rep hash (done ++ [key]).eraseDups s
    rw [eraseDups_concat,absorb_of_mem (mem_eraseDups.mpr hk)]
    exact h
  mono := SizeExceeded.mono

omit [DecidableEq V] in
theorem rep_create (hash : Key V → BitVec 64) (bits : Nat) (updateMemory : UpdateMemory) :
    Rep hash [] (create bits updateMemory : MultiChannelGroupByHash V) where
  nodup := nodup_nil
  count := rfl
  capacity := Nat.zero_le _
  addresses := rfl
  rows := fun _ h => absurd h (Nat.not_lt_zero _)
  stores := Stores.empty

theorem Rep.contains (h : Rep hash known s) (key : Key V) : s.contains hash key = .ok (decide (key ∈ known)) := by
  rw [MultiChannelGroupByHash.contains,containsOfHash]
  by_cases hk : key ∈ known
  · obtain ⟨pos,slot,hp,hs,-⟩ := h.probe_known hk
    rw [hp]
    simp [hs,hk]
  · obtain ⟨pos,hp,hps,-⟩ := h.probe_new hk
    rw [hp]
    simp [hps,hk]

omit [DecidableEq V] in
theorem Rep.appendValuesTo (h : Rep hash known s) {groupId : Nat} (hk : known[groupId]? = some key) :
    ∃ row, s.appendValuesTo groupId = .ok row ∧ row.key = key := by
  obtain ⟨hg,-⟩ := List.getElem?_eq_some_iff.mp hk
  obtain ⟨row,hr,hrw,-⟩ := h.rows groupId hg
  refine ⟨row,?_,hrw.trans (by rw [getD_eq_getElem?_getD,hk]; rfl)⟩
  have ha : groupId < s.groupAddressByGroupId.length := h.addresses.symm ▸ hg
  rw [getD_eq_getElem _ _ ha] at hr
  rw [MultiChannelGroupByHash.appendValuesTo,getElem?_eq_getElem ha]
  dsimp only
  rw [hr]

end Main
end MultiChannelGroupByHash
end HetuCore.Grouping
