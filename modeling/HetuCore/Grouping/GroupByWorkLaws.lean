import HetuCore.Foundation.FirstAppearance
import HetuCore.Foundation.Outcome
import HetuCore.Grouping.GroupByWork

namespace HetuCore.Grouping
open Foundation List

/-- What a group-by is to keep. -/
structure Contract (S K : Type) where
  /-- The state after the keys of some rows. -/
  Rep : List K → S → Prop
  /-- The row may come after these. -/
  Admits : List K → K → Prop
  /-- All requests for memory will be granted. -/
  Granted : S → Prop
  /-- The exceptions that may end a run with this number of different keys. -/
  Permitted : Nat → String → Prop

namespace Contract
variable {S K : Type} (ct : Contract S K)

/-- Each of the rows may come after those before it. -/
def AdmitsAll : List K → List K → Prop
  | _, [] => True
  | done, key :: keys => ct.Admits done key ∧ AdmitsAll (done ++ [key]) keys

variable {ct}

theorem admitsAll_append {done keys later : List K} :
    ct.AdmitsAll done (keys ++ later) ↔ ct.AdmitsAll done keys ∧ ct.AdmitsAll (done ++ keys) later := by
  induction keys generalizing done with
  | nil => simp [AdmitsAll]
  | cons key keys ih =>
    rw [cons_append,AdmitsAll,AdmitsAll,ih,and_assoc,append_assoc]
    rfl

theorem admitsAll_iff {done keys : List K} : ct.AdmitsAll done keys ↔
    ∀ before key after, keys = before ++ key :: after → ct.Admits (done ++ before) key := by
  constructor
  · rintro h before key after rfl
    exact (admitsAll_append.mp h).2.1
  · intro h
    induction keys generalizing done with
    | nil => trivial
    | cons key keys ih =>
      refine ⟨by simpa using h [] key keys rfl,ih ?_⟩
      rintro before other after rfl
      rw [append_assoc]
      exact h (key :: before) other after rfl

theorem AdmitsAll.of_forall (h : ∀ done key, ct.Admits done key) (done keys : List K) :
    ct.AdmitsAll done keys := by
  induction keys generalizing done with
  | nil => trivial
  | cons key keys ih => exact ⟨h done key,ih _⟩

end Contract

section Rows
variable {S R K : Type} [BEq K] [LawfulBEq K]

/-- The group-by numbers keys by first appearance. If all requests for memory are granted,
capacity never runs out. -/
structure Numbers (groupBy : GroupBy S R) (keyOf : R → K) (ct : Contract S K) : Prop where
  increase : ∀ {done s}, ct.Rep done s → groupBy.needMoreCapacity s = true →
    Ends (ct.Permitted done.eraseDups.length) (fun out => ct.Rep done out.2 ∧
      (out.1 = true → groupBy.needMoreCapacity out.2 = false) ∧
      (ct.Granted s → out.1 = true ∧ ct.Granted out.2)) (groupBy.tryToIncreaseCapacity s)
  put : ∀ {done s} row, ct.Rep done s → ct.Admits done (keyOf row) → groupBy.needMoreCapacity s = false →
    Ends (ct.Permitted (done ++ [keyOf row]).eraseDups.length) (fun out =>
      out.1 = (done ++ [keyOf row]).eraseDups.idxOf (keyOf row) ∧ ct.Rep (done ++ [keyOf row]) out.2 ∧
      (ct.Granted s → ct.Granted out.2 ∧ groupBy.needMoreCapacity out.2 = false)) (groupBy.putIfAbsent s row)
  again : ∀ {done s key}, ct.Rep done s → ct.Admits done key → key ∈ done → ct.Rep (done ++ [key]) s
  mono : ∀ {m n message}, m ≤ n → ct.Permitted m message → ct.Permitted n message

/-- Some of the rows have been put: their ids continue the numbering of the keys before. -/
structure Put (keyOf : R → K) (Rep : List K → S → Prop) (done : List K) (rows : List R) (ids : List Nat) (s : S) :
    Prop where
  length_le : ids.length ≤ rows.length
  numbers : numbering (done ++ (rows.take ids.length).map keyOf) = numbering done ++ ids
  rep : Rep (done ++ (rows.take ids.length).map keyOf) s

variable {groupBy : GroupBy S R} {keyOf : R → K} {Rep : List K → S → Prop} {ct : Contract S K} {done : List K}
  {rows : List R} {s : S}

omit [LawfulBEq K] in
theorem Put.nil (h : Rep done s) (rows : List R) : Put keyOf Rep done rows [] s :=
  ⟨Nat.zero_le _,by simp,by simpa using h⟩

variable {ids : List Nat}

theorem Put.cons {row : R} (h : Put keyOf Rep (done ++ [keyOf row]) rows ids s) :
    Put keyOf Rep done (row :: rows) ((done ++ [keyOf row]).eraseDups.idxOf (keyOf row) :: ids) s where
  length_le := Nat.succ_le_succ h.length_le
  numbers := by
    have hn := h.numbers
    rw [numbering_concat,← eraseDups_concat,append_assoc,append_assoc] at hn
    exact hn
  rep := by
    have hr := h.rep
    rw [append_assoc] at hr
    exact hr

omit [LawfulBEq K] in
theorem Put.append {later : List Nat} {s' : S} (h : Put keyOf Rep done rows ids s)
    (h' : Put keyOf Rep (done ++ (rows.take ids.length).map keyOf) (rows.drop ids.length) later s') :
    Put keyOf Rep done rows (ids ++ later) s' := by
  have ht : done ++ (rows.take (ids ++ later).length).map keyOf =
      done ++ (rows.take ids.length).map keyOf ++ ((rows.drop ids.length).take later.length).map keyOf := by
    rw [length_append,take_add,map_append,append_assoc]
  refine ⟨?_,?_,?_⟩
  · have hln := h.length_le
    have hl := h'.length_le
    rw [length_drop] at hl
    rw [length_append]
    omega
  · rw [ht,h'.numbers,h.numbers,append_assoc]
  · rw [ht]
    exact h'.rep

omit [LawfulBEq K] in
theorem Put.all (h : Put keyOf Rep done rows ids s) (hl : ids.length = rows.length) :
    numbering (done ++ rows.map keyOf) = numbering done ++ ids ∧ Rep (done ++ rows.map keyOf) s := by
  have hn := h.numbers
  have hr := h.rep
  rw [take_of_length_le hl.ge] at hn hr
  exact ⟨hn,hr⟩

namespace Numbers
variable (h : Numbers groupBy keyOf ct)
include h

theorem putRows (hr : ct.Rep done s) (ha : ct.AdmitsAll done (rows.map keyOf)) :
    Ends (ct.Permitted (done ++ rows.map keyOf).eraseDups.length) (fun out =>
      Put keyOf ct.Rep done rows out.1 out.2 ∧
      (ct.Granted s → groupBy.needMoreCapacity s = false → out.1.length = rows.length))
      (groupBy.putRows rows s) := by
  induction rows generalizing done s with
  | nil => exact ⟨.nil hr [],fun _ _ => rfl⟩
  | cons row rows ih =>
    rw [GroupBy.putRows]
    cases hn : groupBy.needMoreCapacity s with
    | true => exact ⟨.nil hr _,nofun⟩
    | false =>
      have hf : done ++ (row :: rows).map keyOf = (done ++ [keyOf row]) ++ rows.map keyOf := by simp
      rw [hf]
      refine .bind ((h.put row hr ha.1 hn).allow fun message hm =>
        h.mono (length_eraseDups_append_le _ _) hm) ?_
      rintro ⟨groupId,s'⟩ ⟨rfl,hr',hg⟩
      refine .bind (ih hr' ha.2) ?_
      rintro ⟨groupIds,s''⟩ ⟨hp,hal⟩
      refine .pure ⟨hp.cons,fun hs _ => ?_⟩
      obtain ⟨hs',hn'⟩ := hg hs
      exact congrArg Nat.succ (hal hs' hn')

omit [LawfulBEq K] in
theorem ensureCapacity (hr : ct.Rep done s) :
    Ends (ct.Permitted done.eraseDups.length) (fun out => ct.Rep done out.2 ∧
      (out.1 = true → groupBy.needMoreCapacity out.2 = false) ∧
      (ct.Granted s → out.1 = true ∧ ct.Granted out.2)) (groupBy.ensureCapacity s) := by
  rw [GroupBy.ensureCapacity]
  cases hn : groupBy.needMoreCapacity s with
  | true => exact h.increase hr hn
  | false => exact ⟨hr,fun _ => hn,fun hs => ⟨rfl,hs⟩⟩

/-- A call of `process` continues the ids that a work has written, and finishes it if all
requests for memory are granted. -/
theorem process {blockBuilder : List Nat}
    (hp : Put keyOf ct.Rep done rows blockBuilder s) (ha : ct.AdmitsAll done (rows.map keyOf))
    (hln : blockBuilder.length < rows.length) :
    Ends (ct.Permitted (done ++ rows.map keyOf).eraseDups.length) (fun out =>
      Put keyOf ct.Rep done rows out.2.1 out.2.2 ∧ (out.1 = true ↔ out.2.1.length = rows.length) ∧
      (ct.Granted s → out.1 = true)) (groupBy.process rows blockBuilder s) := by
  have hrw : rows.map keyOf = (rows.take blockBuilder.length).map keyOf ++ (rows.drop blockBuilder.length).map keyOf := by
    rw [← map_append,take_append_drop]
  rw [hrw] at ha ⊢
  rw [← append_assoc]
  refine .bind ((h.ensureCapacity hp.rep).allow fun message hm =>
    h.mono (length_eraseDups_append_le _ _) hm) ?_
  rintro ⟨granted,s'⟩ ⟨hr,hn,hg⟩
  cases granted with
  | false =>
    refine .pure ⟨⟨hp.length_le,hp.numbers,hr⟩,iff_of_false Bool.false_ne_true hln.ne,fun hs => ?_⟩
    exact absurd (hg hs).1 Bool.false_ne_true
  | true =>
    refine .bind (h.putRows hr (Contract.admitsAll_append.mp ha).2) ?_
    rintro ⟨groupIds,s''⟩ ⟨hp',hal⟩
    refine .pure ⟨hp.append hp',beq_iff_eq,fun hs => ?_⟩
    have hl := hal (hg hs).2 (hn rfl)
    rw [length_drop] at hl
    rw [beq_iff_eq,length_append,hl]
    omega

omit [LawfulBEq K] in
theorem again_replicate {key : K} {count : Nat} (hr : ct.Rep (done ++ [key]) s)
    (ha : ct.AdmitsAll done (replicate (count + 1) key)) :
    ct.Rep (done ++ replicate (count + 1) key) s := by
  induction count with
  | zero => exact hr
  | succ count ih =>
    rw [replicate_succ',Contract.admitsAll_append] at ha
    rw [replicate_succ',← append_assoc]
    refine h.again (ih ha.1) ha.2.1 (mem_append_right _ ?_)
    exact mem_replicate.mpr ⟨Nat.succ_ne_zero count,rfl⟩

end Numbers
end Rows

section LookBack
variable {S R K : Type} [BEq K] [LawfulBEq K] {groupBy : GroupBy S R} {keyOf : R → K} {ct : Contract S K} {n : Nat}

/-- The ids that are remembered for the positions of a dictionary are the numbers of their keys. -/
def Remembers (key : Fin n → K) (done : List K) (processed : Nat → Option Nat) : Prop :=
  ∀ position groupId, processed (position : Fin n) = some groupId →
    key position ∈ done ∧ groupId = done.eraseDups.idxOf (key position)

variable {key : Fin n → K} {processed : Nat → Option Nat} {done : List K}

theorem Remembers.append
    (h : Remembers key done processed) (later : List K) : Remembers key (done ++ later) processed := by
  intro position groupId hp
  obtain ⟨hm,hid⟩ := h position groupId hp
  exact ⟨mem_append_left _ hm,hid.trans (idxOf_eraseDups_append hm later).symm⟩

omit [LawfulBEq K] in
theorem Remembers.update (h : Remembers key done processed) {position : Fin n} (hm : key position ∈ done) :
    Remembers key done (Function.update processed position (some (done.eraseDups.idxOf (key position)))) := by
  intro other groupId hp
  by_cases ho : other = position
  · subst ho
    rw [Function.update_self] at hp
    exact ⟨hm,(Option.some.inj hp).symm⟩
  · rw [Function.update_of_ne fun hv => ho (Fin.ext hv)] at hp
    exact h other groupId hp

/-- The contract of a group-by with a look-back. -/
def Contract.lookBack (ct : Contract S K) (key : Fin n → K) : Contract (S × (Nat → Option Nat)) K where
  Rep := fun done s => ct.Rep done s.1 ∧ Remembers key done s.2
  Admits := ct.Admits
  Granted := fun s => ct.Granted s.1
  Permitted := ct.Permitted

omit [LawfulBEq K] in
theorem Contract.admitsAll_lookBack {keys : List K} :
    (ct.lookBack key).AdmitsAll done keys ↔ ct.AdmitsAll done keys := by
  induction keys generalizing done with
  | nil => exact .rfl
  | cons first keys ih => exact and_congr_right fun _ => ih

theorem Numbers.lookBack (h : Numbers groupBy keyOf ct) (row : Fin n → R) :
    Numbers (groupBy.lookBack row) (fun position => keyOf (row position))
      (ct.lookBack fun position => keyOf (row position)) where
  increase := by
    rintro done s ⟨hrp,hr⟩ hn
    refine .bind (h.increase hrp hn) ?_
    rintro ⟨granted,s'⟩ ⟨hr',hc,hg⟩
    exact .pure ⟨⟨hr',hr⟩,hc,hg⟩
  put := by
    rintro done ⟨s,processed⟩ position ⟨hrp,hr⟩ ha hn
    simp only [GroupBy.lookBack]
    cases hp : processed position with
    | some groupId =>
      obtain ⟨hm,rfl⟩ := hr position groupId hp
      exact ⟨(idxOf_eraseDups_append hm _).symm,⟨h.again hrp ha hm,hr.append _⟩,fun hs => ⟨hs,hn⟩⟩
    | none =>
      refine .bind (h.put (row position) hrp ha hn) ?_
      rintro ⟨groupId,s'⟩ ⟨rfl,hr',hg⟩
      refine .pure ⟨rfl,⟨hr',(hr.append _).update ?_⟩,hg⟩
      exact mem_concat_self
  again := fun hrp ha hm => ⟨h.again hrp.1 ha hm,hrp.2.append _⟩
  mono := h.mono

end LookBack
end HetuCore.Grouping
