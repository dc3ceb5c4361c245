import HetuCore.Grouping.GroupByWorkLaws
import HetuCore.Grouping.MultiChannelGroupBySortLaws
import HetuCore.Grouping.SortedKeys

namespace HetuCore.Grouping
open Foundation List

namespace MultiChannelGroupBySort
variable {V : Type} [DecidableEq V] {vh : Nat → V → BitVec 64} {hash : Key V → BitVec 64}
  {pre : Bool} {isFull : List (StoredRow V) → Bool} {s : MultiChannelGroupBySort V}

/-- The state after these rows. -/
structure Rep (vh : Nat → V → BitVec 64) (hash : Key V → BitVec 64) (done : List (Key V))
    (s : MultiChannelGroupBySort V) : Prop where
  latest : Latest done
  rows : Rows done.eraseDups s
  remembered : Remembered vh hash done s

section Put
variable {done : List (Key V)} {key : Key V}

section
variable (h : Rep vh hash done s)
include h

theorem Rep.addNewGroup_id (key : Key V) :
    ((remember vh hash key s).addNewGroup pre isFull key (hash key)).1 = done.eraseDups.length :=
  ((h.rows.remember key).addRow isFull _).1

theorem Rep.addKey (hk : key ∉ done) : Rep vh hash (done ++ [key])
    ((remember vh hash key s).addNewGroup pre isFull key (hash key)).2 where
  latest := h.latest.concat fun hm => absurd hm hk
  rows := by
    rw [eraseDups_concat,absorb_of_notMem fun hm => hk (mem_eraseDups.mp hm)]
    exact ((h.rows.remember key).addRow isFull ⟨key,if pre then some (hash key) else none⟩).2
  remembered := (h.remembered.remember key).addRow _

theorem Rep.repeatKey (hl : done.getLast? = some key) (hs : samePrevious vh hash key key = true) :
    Rep vh hash (done ++ [key]) s where
  latest := h.latest.concat fun _ => hl
  rows := by
    rw [eraseDups_concat,absorb_of_mem (mem_eraseDups.mpr (mem_of_getLast? hl))]
    exact h.rows
  remembered := h.remembered.again (lastWith_of_getLast? hl) hs

/-- A row that follows gets the number of its key exactly if the test is right for it. -/
theorem Rep.put (pre : Bool) (isFull : List (StoredRow V) → Bool) (hf : Follows done key) :
    ((s.putIfAbsent vh hash pre isFull key).1 = (done ++ [key]).eraseDups.idxOf key ↔
      Trusts vh hash done key) ∧ (Trusts vh hash done key →
      Rep vh hash (done ++ [key]) (s.putIfAbsent vh hash pre isFull key).2) := by
  have hls : key ∈ done → lastWith (hasNull key) done = some key := fun hm => lastWith_of_getLast? (hf hm)
  have hn : key ∉ done → (done ++ [key]).eraseDups.idxOf key = done.eraseDups.length := by
    intro hk
    rw [eraseDups_concat,idxOf_absorb_self fun hm => hk (mem_eraseDups.mp hm)]
  have hol : key ∈ done → (done ++ [key]).eraseDups.idxOf key = done.eraseDups.length - 1 := by
    intro hk
    rw [idxOf_eraseDups_append hk,h.latest.idxOf_eq (hf hk)]
  rw [h.remembered.putIfAbsent_eq]
  cases hl : lastWith (hasNull key) done with
  | none =>
    have hk : key ∉ done := fun hm => absurd (hls hm) (by simp [hl])
    have ht : Trusts vh hash done key := fun other ho => absurd ho (by simp [hl])
    rw [Option.any_none,if_neg Bool.false_ne_true,h.addNewGroup_id]
    exact ⟨iff_of_true (hn hk).symm ht,fun _ => h.addKey hk⟩
  | some other =>
    have hp : 0 < done.eraseDups.length :=
      length_pos_of_mem (mem_eraseDups.mpr (mem_of_lastWith hl))
    have hne : other ≠ key → key ∉ done := by
      intro hne hm
      exact hne (Option.some.inj (hl.symm.trans (hls hm)))
    have ht : Trusts vh hash done key ↔ (samePrevious vh hash other key = true ↔ other = key) := by
      refine ⟨fun ht => ht other hl,fun hi other' ho' => ?_⟩
      obtain rfl := Option.some.inj (hl.symm.trans ho')
      exact hi
    rw [Option.any_some,ht]
    cases hs : samePrevious vh hash other key with
    | true =>
      rw [if_pos rfl,h.rows.count]
      refine ⟨⟨fun hid => iff_of_true rfl (by_contra fun ho => ?_),fun hi => ?_⟩,fun hi => ?_⟩
      · -- the row was merged into another group
        rw [hn (hne ho)] at hid
        omega
      · obtain rfl := hi.mp rfl
        exact (hol (mem_of_lastWith hl)).symm
      · obtain rfl := hi.mp rfl
        exact h.repeatKey (hf (mem_of_lastWith hl)) hs
    | false =>
      rw [if_neg Bool.false_ne_true,h.addNewGroup_id]
      have hms : (false = true ↔ other = key) → key ∉ done := fun hi => hne fun heq => Bool.false_ne_true (hi.mpr heq)
      refine ⟨⟨fun hid => iff_of_false Bool.false_ne_true ?_,fun hi => (hn (hms hi)).symm⟩,
        fun hi => h.addKey (hms hi)⟩
      -- a group was split
      rintro rfl
      rw [hol (mem_of_lastWith hl)] at hid
      omega

end

end Put

section Sequence

/-- The rows that may come. Nothing is thrown. -/
def contract (vh : Nat → V → BitVec 64) (hash : Key V → BitVec 64) :
    Contract (MultiChannelGroupBySort V) (Key V) where
  Rep := Rep vh hash
  Admits := fun done key => Follows done key ∧ Trusts vh hash done key
  Granted := fun _ => True
  Permitted := fun _ _ => False

theorem numbers (vh : Nat → V → BitVec 64) (hash : Key V → BitVec 64) (pre : Bool)
    (isFull : List (StoredRow V) → Bool) :
    Numbers (groupBy vh hash pre isFull) id (contract vh hash) where
  increase := nofun
  put := by
    rintro done s key h ⟨hf,ht⟩ -
    obtain ⟨hid,hr⟩ := h.put pre isFull hf
    exact ⟨hid.mpr ht,hr ht,fun _ => ⟨trivial,rfl⟩⟩
  again := by
    rintro done s key h ⟨hf,ht⟩ hm
    exact h.repeatKey (hf hm) ((ht key (lastWith_of_getLast? (hf hm))).mpr rfl)
  mono := fun _ => id

theorem rep_create : Rep vh hash [] (create : MultiChannelGroupBySort V) where
  latest := latest_nil
  rows := ⟨rfl,rfl,rfl,rfl,by simp [create],rfl,rfl,rfl⟩
  remembered := ⟨rfl,rfl,fun _ h => absurd h (by simp [lastWith])⟩

def putAll (vh : Nat → V → BitVec 64) (hash : Key V → BitVec 64) (pre : Bool)
    (isFull : List (StoredRow V) → Bool) : List (Key V) → MultiChannelGroupBySort V → List Nat × MultiChannelGroupBySort V
  | [], s => ([],s)
  | key :: keys, s =>
    let (groupId,s) := s.putIfAbsent vh hash pre isFull key
    let (groupIds,s) := putAll vh hash pre isFull keys s
    (groupId :: groupIds,s)

/-- Sorted rows that are put one after the other get the numbers of their keys exactly if the test
is right for each. -/
theorem Rep.putAll_iff {done keys : List (Key V)} (h : Rep vh hash done s)
    (hf : ∀ before key after, keys = before ++ key :: after → Follows (done ++ before) key) :
    numbering (done ++ keys) = numbering done ++ (putAll vh hash pre isFull keys s).1 ↔
      (contract vh hash).AdmitsAll done keys := by
  induction keys generalizing done s with
  | nil => simp [putAll,Contract.AdmitsAll]
  | cons key keys ih =>
    have hfr : Follows done key := by simpa using hf [] key keys rfl
    have hr : ∀ before other after, keys = before ++ other :: after → Follows (done ++ [key] ++ before) other := by
      rintro before other after rfl
      rw [append_assoc]
      exact hf (key :: before) other after rfl
    obtain ⟨hid,hrp⟩ := h.put pre isFull hfr
    have hs : done ++ key :: keys = done ++ [key] ++ keys := by simp
    by_cases ht : Trusts vh hash done key
    · have hl := ih (hrp ht) hr
      rw [numbering_concat,← eraseDups_concat,← hid.mpr ht,append_assoc (numbering done)] at hl
      rw [hs]
      refine hl.trans ⟨fun ha => ?_,And.right⟩
      exact ⟨⟨hfr,ht⟩,ha⟩
    · refine iff_of_false (fun heq => ht (hid.mp ?_)) fun ha => ht ha.1.2
      rw [hs,numbering_append,numbering_concat,append_assoc,append_cancel_left_eq,← eraseDups_concat] at heq
      exact (cons.inj heq).1.symm

end Sequence
end MultiChannelGroupBySort
end HetuCore.Grouping
