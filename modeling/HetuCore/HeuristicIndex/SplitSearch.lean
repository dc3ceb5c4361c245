import HetuCore.Foundation.Machine

namespace HetuCore.HeuristicIndex.SplitSearch
open Foundation List
variable {α : Type} (getSplitStart : α → Int)

/-- The backward walk of `insert`: `i` elements are left to try. An element that starts before all of the
list finds no place. -/
def insertLoop (list : List α) (obj : α) : Nat → List α
  | 0 => list
  | i + 1 =>
    match list[i]? with
    | some element =>
      if getSplitStart element ≤ getSplitStart obj then list.take (i + 1) ++ obj :: list.drop (i + 1)
      else insertLoop list obj i
    | none => list

variable (list : List α)

def insert (obj : α) : List α :=
  if list.length = 0 then [obj] else insertLoop getSplitStart list obj list.length

/-- The indexes of one kind, inserted in the order of the list. -/
def insertAll (indices : List α) : List α := indices.foldl (insert getSplitStart) []

variable (arr : List α)

def getOrder (i : Int) : Except String Int :=
  match i with
  | .ofNat n =>
    match arr[n]? with
    | some element => .ok (getSplitStart element)
    | none => .error "IndexOutOfBoundsException"
  | .negSucc _ => .error "IndexOutOfBoundsException"

/-- Some place that starts at `x` or before, or `-1`. -/
def floorSearch (arr : List α) (low high x : Int) : Except String Int :=
  if _h : low > high then .ok (-1)
  else
    getOrder getSplitStart arr high >>= fun last =>
    if x ≥ last then .ok high
    else
      getOrder getSplitStart arr ((low + high) / 2) >>= fun middle =>
      if middle = x then .ok ((low + high) / 2)
      else if (low + high) / 2 > 0 then
        getOrder getSplitStart arr ((low + high) / 2 - 1) >>= fun before =>
        if before ≤ x ∧ x < middle then .ok ((low + high) / 2 - 1)
        else if x < middle then floorSearch arr low ((low + high) / 2 - 1) x
        else floorSearch arr ((low + high) / 2 + 1) high x
      else if x < middle then floorSearch arr low ((low + high) / 2 - 1) x
      else floorSearch arr ((low + high) / 2 + 1) high x
termination_by (high + 1 - low).toNat
decreasing_by all_goals omega

/-- Some place that starts at `x` or after, or `-1`; only the empty list is searched from behind its end. -/
def ceilSearch (arr : List α) (low high x : Int) : Except String Int :=
  if _h : low > high then .error "IndexOutOfBoundsException"
  else
    getOrder getSplitStart arr low >>= fun first =>
    if x ≤ first then .ok low
    else
      getOrder getSplitStart arr high >>= fun last =>
      if x > last then .ok (-1)
      else
        getOrder getSplitStart arr ((low + high) / 2) >>= fun middle =>
        if middle = x then .ok ((low + high) / 2)
        else if middle < x then
          if (low + high) / 2 + 1 ≤ high then
            getOrder getSplitStart arr ((low + high) / 2 + 1) >>= fun after =>
            if x ≤ after then .ok ((low + high) / 2 + 1)
            else ceilSearch arr ((low + high) / 2 + 1) high x
          else ceilSearch arr ((low + high) / 2 + 1) high x
        else if (low + high) / 2 - 1 ≥ low then
          getOrder getSplitStart arr ((low + high) / 2 - 1) >>= fun before =>
          if x > before then .ok ((low + high) / 2)
          else ceilSearch arr low ((low + high) / 2 - 1) x
        else ceilSearch arr low ((low + high) / 2 - 1) x
termination_by (high + 1 - low).toNat
decreasing_by all_goals omega

/-- `arr.subList(first, last + 1)`. -/
def subList (first last : Int) : Except String (List α) :=
  if first > last + 1 then .error "IllegalArgumentException"
  else .ok ((arr.drop first.toNat).take (last + 1 - first).toNat)

/-- The part of the list from `start` to `end`, or all of it if a search fails. -/
def subArray (start stop : Int) : List α :=
  let part := do
    let first ← floorSearch getSplitStart arr 0 (arr.length - 1) start
    let last ← ceilSearch getSplitStart arr 0 (arr.length - 1) stop
    if first = -1 then pure arr
    else subList arr first (if last = -1 then arr.length - 1 else last)
  match part with
  | .ok part => part
  | .error _ => arr

theorem insertLoop_spec (obj : α) {i : Nat} (hi : i ≤ list.length)
    (ha : ∀ element ∈ list.drop i, getSplitStart obj < getSplitStart element) :
    ∃ before after, list = before ++ after ∧ (∀ element ∈ after, getSplitStart obj < getSplitStart element) ∧
      (before = [] ∧ insertLoop getSplitStart list obj i = list ∨
        (∃ element, before.getLast? = some element ∧ getSplitStart element ≤ getSplitStart obj) ∧
          insertLoop getSplitStart list obj i = before ++ obj :: after) := by
  induction i with
  | zero => exact ⟨[],list,rfl,ha,.inl ⟨rfl,rfl⟩⟩
  | succ i ih =>
    have hg := getElem?_eq_getElem hi
    rw [insertLoop,hg]
    dsimp only
    split
    · rename_i hle
      refine ⟨list.take (i + 1),list.drop (i + 1),(take_append_drop ..).symm,ha,.inr ⟨⟨list[i],?_,hle⟩,rfl⟩⟩
      rw [getLast?_take]
      simp [hg]
    · rename_i hlt
      refine ih (by omega) fun element he => ?_
      rw [drop_eq_getElem_cons hi] at he
      rcases mem_cons.mp he with rfl | hr
      · exact lt_of_not_ge hlt
      · exact ha element hr

/-- In ascending order of their starts. -/
abbrev Ascending : Prop := list.Pairwise fun a b => getSplitStart a ≤ getSplitStart b

variable {getSplitStart} in
theorem Ascending.le_getLast {list : List α} (h : Ascending getSplitStart list) {last : α} (hl : list.getLast? = some last)
    {element : α} (he : element ∈ list) : getSplitStart element ≤ getSplitStart last := by
  obtain ⟨init,rfl⟩ := getLast?_eq_some_iff.mp hl
  rcases mem_append.mp he with hi | hl
  · exact (pairwise_append.mp h).2.2 element hi last mem_cons_self
  · rw [mem_singleton.mp hl]

/-- The first element stays; what starts before it is lost. -/
theorem insert_spec {first : α} {rest : List α} (h : Ascending getSplitStart (first :: rest)) (obj : α) :
    ∃ rest', insert getSplitStart (first :: rest) obj = first :: rest' ∧ Ascending getSplitStart (first :: rest') ∧
      ∀ m, m ∈ first :: rest' ↔ m ∈ first :: rest ∨ m = obj ∧ getSplitStart first ≤ getSplitStart obj := by
  obtain ⟨before,after,hl,haf,⟨rfl,hr⟩ | ⟨⟨last,hls,hle⟩,hr⟩⟩ :=
    insertLoop_spec getSplitStart (first :: rest) obj le_rfl (by simp)
  · rw [nil_append] at hl
    have hlt : ¬ getSplitStart first ≤ getSplitStart obj := not_le.mpr (haf first (hl ▸ mem_cons_self))
    exact ⟨rest,hr,h,fun m => by simp [hlt]⟩
  · cases before with
    | nil => cases hls
    | cons head before =>
      obtain ⟨rfl,rfl⟩ := cons.inj (hl.trans (cons_append ..))
      rw [← cons_append] at h
      obtain ⟨hbf,hrs,hc⟩ := pairwise_append.mp h
      have ho : ∀ a ∈ first :: before, getSplitStart a ≤ getSplitStart obj := fun a ha =>
        (Ascending.le_getLast hbf hls ha).trans hle
      refine ⟨before ++ obj :: after,hr,?_,fun m => ?_⟩
      · refine pairwise_append.mpr ⟨hbf,pairwise_cons.mpr ⟨fun b hb => (haf b hb).le,hrs⟩,?_⟩
        intro a ha b hb
        rcases mem_cons.mp hb with rfl | hb
        · exact ho a ha
        · exact hc a ha b hb
      · have hf := ho first mem_cons_self
        simp only [mem_cons,mem_append]
        tauto

theorem foldl_insert_spec {first : α} {rest : List α} (h : Ascending getSplitStart (first :: rest)) (indices : List α) :
    ∃ rest', indices.foldl (insert getSplitStart) (first :: rest) = first :: rest' ∧
      Ascending getSplitStart (first :: rest') ∧
      ∀ m, m ∈ first :: rest' ↔ m ∈ first :: rest ∨ m ∈ indices ∧ getSplitStart first ≤ getSplitStart m := by
  induction indices generalizing rest with
  | nil => exact ⟨rest,rfl,h,fun m => by simp⟩
  | cons index indices ih =>
    obtain ⟨rest₁,hi,h₁,hm₁⟩ := insert_spec getSplitStart h index
    obtain ⟨rest₂,hf,h₂,hm₂⟩ := ih h₁
    refine ⟨rest₂,by rw [foldl_cons,hi,hf],h₂,fun m => ?_⟩
    rw [hm₂,hm₁,mem_cons (a := m) (b := index)]
    constructor
    · rintro ((hm | ⟨rfl,hle⟩) | ⟨hm,hle⟩)
      · exact .inl hm
      · exact .inr ⟨.inl rfl,hle⟩
      · exact .inr ⟨.inr hm,hle⟩
    · rintro (hm | ⟨rfl | hm,hle⟩)
      · exact .inl (.inl hm)
      · exact .inl (.inr ⟨rfl,hle⟩)
      · exact .inr ⟨hm,hle⟩

/-- The group is in order and misses just the indexes that start before the first one given. -/
theorem insertAll_spec (first : α) (indices : List α) :
    ∃ rest, insertAll getSplitStart (first :: indices) = first :: rest ∧ Ascending getSplitStart (first :: rest) ∧
      ∀ m, m ∈ first :: rest ↔ m ∈ first :: indices ∧ getSplitStart first ≤ getSplitStart m := by
  obtain ⟨rest,hf,h,hmm⟩ := foldl_insert_spec getSplitStart (pairwise_singleton _ first) indices
  refine ⟨rest,hf,h,fun m => (hmm m).trans ?_⟩
  rw [mem_singleton,mem_cons]
  constructor
  · rintro (rfl | ⟨hm,hle⟩)
    · exact ⟨.inl rfl,le_rfl⟩
    · exact ⟨.inr hm,hle⟩
  · rintro ⟨rfl | hm,hle⟩
    · exact .inl rfl
    · exact .inr ⟨hm,hle⟩

theorem mem_of_mem_insertAll {indices : List α} {m : α} (hm : m ∈ insertAll getSplitStart indices) : m ∈ indices := by
  cases indices with
  | nil => exact hm
  | cons first indices =>
    obtain ⟨rest,ha,-,hmm⟩ := insertAll_spec getSplitStart first indices
    rw [ha] at hm
    exact ((hmm m).mp hm).1

end HetuCore.HeuristicIndex.SplitSearch
