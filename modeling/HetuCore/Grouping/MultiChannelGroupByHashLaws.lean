import HetuCore.Grouping.GroupByHashLaws
import HetuCore.Grouping.GroupByWorkLaws
import Mathlib.Data.List.GetD

namespace HetuCore.Grouping
open Foundation Hash List

namespace MultiChannelGroupByHash
variable {V : Type} {hash : Key V → BitVec 64} {known : List (Key V)} {s : MultiChannelGroupByHash V}

def entryOf (hash : Key V → BitVec 64) (known : List (Key V)) (addresses : List Address) (groupId : Nat) : Slot :=
  ⟨addresses.getD groupId ⟨0,0⟩,tag (hash (known.getD groupId [])),groupId⟩

def entries (hash : Key V → BitVec 64) (known : List (Key V)) (addresses : List Address) : List Slot :=
  (range known.length).map (entryOf hash known addresses)

def keyOf (known : List (Key V)) (slot : Slot) : Key V := known.getD slot.groupId []

/-- A stored row has the key, and the hash of the key if it has a channel for it. -/
def Stored (hash : Key V → BitVec 64) (s : MultiChannelGroupByHash V) (address : Address) (key : Key V) : Prop :=
  ∃ row, s.read address = some row ∧ row.key = key ∧ row.rawHash.getD (hash key) = hash key

/-- The table, the stored rows and their addresses hold the known keys. -/
structure Rep (hash : Key V → BitVec 64) (known : List (Key V)) (s : MultiChannelGroupByHash V) : Prop where
  nodup : known.Nodup
  count : s.nextGroupId = known.length
  capacity : s.nextGroupId ≤ calculateMaxFill (2 ^ s.bits)
  addresses : s.groupAddressByGroupId.length = known.length
  rows : ∀ groupId < known.length, Stored hash s (s.groupAddressByGroupId.getD groupId ⟨0,0⟩) (known.getD groupId [])
  stores : Stores (keyOf known) (fun key => getHashPosition s.bits (hash key)) s.slots
    (entries hash known s.groupAddressByGroupId)

variable {addresses : List Address}

theorem mem_entries {slot : Slot} :
    slot ∈ entries hash known addresses ↔ slot.groupId < known.length ∧ slot = entryOf hash known addresses slot.groupId := by
  rw [entries,mem_map]
  constructor
  · rintro ⟨groupId,hg,rfl⟩
    exact ⟨mem_range.mp hg,rfl⟩
  · rintro ⟨hg,hs⟩
    exact ⟨slot.groupId,mem_range.mpr hg,hs.symm⟩

theorem keyOf_mem {slot : Slot} (h : slot ∈ entries hash known addresses) : keyOf known slot ∈ known := by
  rw [keyOf,getD_eq_getElem _ _ (mem_entries.mp h).1]
  exact getElem_mem _

theorem length_entries (addresses : List Address) : (entries hash known addresses).length = known.length := by
  simp [entries]

theorem nodup_entries (addresses : List Address) : (entries hash known addresses).Nodup := by
  refine .of_map Slot.groupId ?_
  have hi : (entries hash known addresses).map Slot.groupId = range known.length := by
    rw [entries,map_map]
    exact map_id _
  rw [hi]
  exact nodup_range

theorem entries_concat (ha : addresses.length = known.length) (key : Key V) (address : Address) :
    entries hash (known ++ [key]) (addresses ++ [address]) =
      entries hash known addresses ++ [⟨address,tag (hash key),known.length⟩] := by
  rw [entries,length_append,length_singleton,range_succ,map_append]
  congr 1
  · refine map_congr_left fun groupId hg => ?_
    rw [mem_range] at hg
    simp [entryOf,getElem?_append_left hg,getElem?_append_left (ha.symm ▸ hg)]
  · simp [entryOf,ha]

theorem Rep.length_lt (h : Rep hash known s) : known.length < 2 ^ s.bits :=
  (h.count ▸ h.capacity).trans_lt (calculateMaxFill_lt (Nat.two_pow_pos _))

theorem Rep.entries_lt (h : Rep hash known s) : (entries hash known s.groupAddressByGroupId).length < 2 ^ s.bits := by
  rw [length_entries]
  exact h.length_lt

section Increase

section
variable (h : Rep hash known s)
include h

theorem Rep.usedSlots_perm : s.usedSlots.Perm (entries hash known s.groupAddressByGroupId) := by
  have hn : s.usedSlots.Nodup := h.stores.pairwise_slots.imp fun hne heq => hne (congrArg (keyOf known) heq)
  exact (perm_ext_iff_of_nodup hn (nodup_entries _)).mpr h.stores.mem_slots

theorem Rep.rehashSlot_eq {bits : Nat} {slot : Slot} (hs : slot ∈ s.usedSlots)
    (table : Fin (2 ^ bits) → Option Slot) : s.rehashSlot hash table slot =
      rehashEntry (fun slot => getHashPosition bits (hash (keyOf known slot))) table slot := by
  obtain ⟨hg,he⟩ := mem_entries.mp ((h.stores.mem_slots slot).mp hs)
  obtain ⟨row,hrd,hk,hr⟩ := h.rows slot.groupId hg
  have ha : slot.address = s.groupAddressByGroupId.getD slot.groupId ⟨0,0⟩ := congrArg Slot.address he
  have ht : slot.rawHash = tag (hash (keyOf known slot)) := congrArg Slot.rawHash he
  have hh : s.hashPosition hash slot.address = .ok (hash (keyOf known slot)) := by
    rw [hashPosition,ha,hrd]
    dsimp only
    cases hrw : row.rawHash with
    | none => rw [hk]; rfl
    | some rawHash =>
      rw [hrw] at hr
      exact congrArg Except.ok hr
  have hsm : { slot with rawHash := tag (hash (keyOf known slot)) } = slot := by rw [← ht]
  simp only [rehashSlot,hh,bind,Except.bind,hsm,rehashEntry]

theorem Rep.rehash :
    ∃ slots, (s.usedSlots.take s.nextGroupId).foldlM (s.rehashSlot hash) (fun _ => none) = .ok slots ∧
      Stores (keyOf known) (fun key => getHashPosition (s.bits + 1) (hash key)) slots
        (entries hash known s.groupAddressByGroupId) := by
  have hpr := h.usedSlots_perm
  have hl : s.usedSlots.length = known.length := hpr.length_eq.trans (length_entries _)
  have hp : s.usedSlots.Pairwise fun slot slot' => keyOf known slot ≠ keyOf known slot' := h.stores.pairwise_slots
  rw [take_of_length_le (hl.trans h.count.symm).le]
  have hr : ∀ done slot rest table, s.usedSlots = done ++ slot :: rest →
      Stores (keyOf known) (fun key => getHashPosition (s.bits + 1) (hash key)) table done →
      ∃ table', s.rehashSlot hash table slot = .ok table' ∧
        Stores (keyOf known) (fun key => getHashPosition (s.bits + 1) (hash key)) table' (done ++ [slot]) := by
    intro done slot rest table hsp hs
    rw [h.rehashSlot_eq (by rw [hsp]; simp)]
    have hd : done.length < 2 ^ (s.bits + 1) := by
      have hc := congrArg length hsp
      rw [length_append] at hc
      have hb := h.length_lt
      omega
    refine rehashEntry_stores hs hd fun slot' hs' => ?_
    rw [hsp] at hp
    exact (pairwise_append.mp hp).2.2 slot' hs' slot mem_cons_self
  obtain ⟨slots,hsl,hs⟩ := foldlM_total _ .empty hr
  exact ⟨slots,hsl,hs.congr_entries fun slot => hpr.mem_iff.symm⟩

theorem Rep.increase (hn : s.needMoreCapacity = true) :
    Ends (SizeExceeded known.length) (fun out => Rep hash known out.2 ∧
      (out.1 = true → out.2.needMoreCapacity = false) ∧
      ((∀ call, s.updateMemory call = true) → out.1 = true ∧ ∀ call, out.2.updateMemory call = true))
      (s.tryToIncreaseCapacity hash) := by
  have hfl : calculateMaxFill (2 ^ s.bits) ≤ known.length := h.count ▸ of_decide_eq_true hn
  refine .bind (reserveMemory_ends hfl) ?_
  rintro ⟨granted,updateMemory⟩ ho
  cases ho
  cases hg : s.updateMemory 0 with
  | false =>
    refine .pure ⟨⟨h.nodup,h.count,h.capacity,h.addresses,h.rows,h.stores⟩,fun hf => ?_,fun ha => ?_⟩
    · cases hf
    · rw [ha 0] at hg
      cases hg
  | true =>
    obtain ⟨slots,hsl,hs⟩ := h.rehash
    have hu : ¬ s.usedSlots.length < s.nextGroupId := by
      rw [h.usedSlots_perm.length_eq,length_entries,h.count]
      exact Nat.lt_irrefl _
    have hd : s.nextGroupId < calculateMaxFill (2 ^ (s.bits + 1)) :=
      h.capacity.trans_lt (calculateMaxFill_double (Nat.two_pow_pos _))
    dsimp only
    rw [if_neg hu,hsl]
    refine .pure ⟨⟨h.nodup,h.count,hd.le,h.addresses,h.rows,hs⟩,fun _ => ?_,fun ha => ⟨rfl,fun call => ha _⟩⟩
    exact decide_eq_false hd.not_ge

end

end Increase

end MultiChannelGroupByHash
end HetuCore.Grouping
