import HetuCore.Grouping.GroupBySort

namespace HetuCore.Grouping
open List

section Previous
variable {V : Type}

def hasNull (key : Key V) : Bool := key.any Option.isNone

/-- The last row that has a NULL, or the last that has none. -/
def lastWith (null : Bool) (done : List (Key V)) : Option (Key V) := (done.filter fun key => hasNull key == null).getLast?

theorem lastWith_concat (null : Bool) (done : List (Key V)) (key : Key V) :
    lastWith null (done ++ [key]) = if hasNull key = null then some key else lastWith null done := by
  rw [lastWith,filter_append,filter_singleton]
  by_cases h : hasNull key = null
  · rw [if_pos h,beq_iff_eq.mpr h,cond_true,getLast?_concat]
  · rw [if_neg h,beq_eq_false_iff_ne.mpr h,cond_false,append_nil,lastWith]

variable {done : List (Key V)}

theorem mem_of_lastWith {null : Bool} {other : Key V} (h : lastWith null done = some other) :
    other ∈ done := (mem_filter.mp (mem_of_getLast? h)).1

theorem lastWith_of_getLast? {key : Key V} (h : done.getLast? = some key) :
    lastWith (hasNull key) done = some key := by
  obtain ⟨before,rfl⟩ := getLast?_eq_some_iff.mp h
  rw [lastWith_concat,if_pos rfl]

end Previous

namespace MultiChannelGroupBySort
variable {V : Type} {valueHash : Nat → V → BitVec 64} {hash : Key V → BitVec 64} {precomputedHashChannel : Bool}
  {isFull : List (StoredRow V) → Bool} {s : MultiChannelGroupBySort V}

/-- The test of a row against the last row of its kind. -/
def samePrevious (valueHash : Nat → V → BitVec 64) (hash : Key V → BitVec 64) (other key : Key V) : Bool :=
  if hasNull key then nullHash valueHash other == nullHash valueHash key
  else hash other != -1 && hash other == hash key

/-- The test is right for this row. -/
def Trusts (valueHash : Nat → V → BitVec 64) (hash : Key V → BitVec 64) (done : List (Key V)) (key : Key V) : Prop :=
  ∀ other, lastWith (hasNull key) done = some other → (samePrevious valueHash hash other key = true ↔ other = key)

/-- The hashes are those of the last rows of both kinds. -/
structure Remembered (valueHash : Nat → V → BitVec 64) (hash : Key V → BitVec 64) (done : List (Key V))
    (s : MultiChannelGroupBySort V) : Prop where
  rawHash : s.rawPrevHash = ((lastWith false done).map hash).getD (-1)
  bitSet : s.rawPrevNullBitSet = if (lastWith true done).isSome then .localNullBitset else .empty
  nullHash : ∀ other, lastWith true done = some other → s.rawPrevNullHash = nullHash valueHash other

/-- The last ids of the pages, the first of which starts with this id. -/
def lastIds {α : Type} (start : Nat) : List (List α) → List Nat
  | [] => []
  | page :: pages => (start + page.length - 1) :: lastIds (start + page.length) pages

theorem lastIds_concat {α : Type} (start : Nat) (pages : List (List α)) (page : List α) :
    lastIds start (pages ++ [page]) = lastIds start pages ++ [start + pages.flatten.length + page.length - 1] := by
  induction pages generalizing start with
  | nil => simp [lastIds]
  | cons first pages ih =>
    rw [cons_append,lastIds,ih,lastIds]
    simp [Nat.add_assoc]

/-- The rows of the groups, and where the pages end. Nothing has been output. -/
structure Rows (known : List (Key V)) (s : MultiChannelGroupBySort V) : Prop where
  count : s.nextSortBasedGroupId = known.length
  rows : s.channelBuilders.flatten.map StoredRow.key = known
  nextRange : s.nextGroupIdStartingRange = (lastIds 0 s.completedPages).head?
  maxGroupId : s.maxGroupId = (lastIds 0 s.completedPages).tail
  nonempty : ∀ page ∈ s.completedPages, page ≠ []
  currentRange : s.currentGroupIdStartingRange = none
  newGroupId : s.newGroupId = 0
  sliceIndex : s.sliceIndex = 0

section AddNewGroup

theorem addRow_rawPrevHash (s : MultiChannelGroupBySort V) (row : StoredRow V) (rawPrevHash : BitVec 64) :
    addRow isFull { s with rawPrevHash := rawPrevHash } row =
      ((s.addRow isFull row).1,{ (s.addRow isFull row).2 with rawPrevHash := rawPrevHash }) := by
  simp only [addRow]
  split <;> rfl

theorem Remembered.addRow {done : List (Key V)} (h : Remembered valueHash hash done s) (row : StoredRow V) :
    Remembered valueHash hash done (s.addRow isFull row).2 := by
  simp only [MultiChannelGroupBySort.addRow]
  split <;> exact ⟨h.rawHash,h.bitSet,h.nullHash⟩

theorem head?_tail_concat (ids : List Nat) (id : Nat) : some (ids.head?.getD id) = (ids ++ [id]).head? ∧
    (if ids.head?.isNone then ids.tail else ids.tail ++ [id]) = (ids ++ [id]).tail := by
  cases ids with
  | nil | cons first ids => exact ⟨rfl,rfl⟩

theorem Rows.addRow {known : List (Key V)} (h : Rows known s) (isFull : List (StoredRow V) → Bool) (row : StoredRow V) :
    (s.addRow isFull row).1 = known.length ∧ Rows (known ++ [row.key]) (s.addRow isFull row).2 := by
  have hr := h.rows
  simp only [channelBuilders,flatten_append,flatten_singleton,map_append] at hr
  simp only [MultiChannelGroupBySort.addRow]
  split
  · have hl : s.nextSortBasedGroupId = 0 + s.completedPages.flatten.length + (s.currentPage.length + 1) - 1 := by
      have hln := congrArg length hr
      rw [length_append,length_map,length_map,← h.count] at hln
      omega
    obtain ⟨hn,hm⟩ := head?_tail_concat (lastIds 0 s.completedPages) s.nextSortBasedGroupId
    refine ⟨h.count,?_,?_,?_,?_,?_,h.currentRange,h.newGroupId,h.sliceIndex⟩
    · simp [startNewPage,h.count]
    · simp [startNewPage,channelBuilders,← hr]
    · rw [startNewPage,h.nextRange,hn,lastIds_concat,length_append,length_singleton,← hl]
    · rw [startNewPage,h.nextRange,h.maxGroupId,hm,lastIds_concat,length_append,length_singleton,← hl]
    · intro page hp
      rw [startNewPage,mem_append,mem_singleton] at hp
      rcases hp with hp | rfl
      · exact h.nonempty page hp
      · simp
  · refine ⟨h.count,?_,?_,h.nextRange,h.maxGroupId,h.nonempty,h.currentRange,h.newGroupId,h.sliceIndex⟩
    · simp [h.count]
    · simp [channelBuilders,← hr]

end AddNewGroup

section Put

/-- The state after the hash of a row is remembered. -/
def remember (valueHash : Nat → V → BitVec 64) (hash : Key V → BitVec 64) (key : Key V) (s : MultiChannelGroupBySort V) :
    MultiChannelGroupBySort V :=
  if hasNull key then { s with rawPrevNullHash := nullHash valueHash key, rawPrevNullBitSet := .localNullBitset }
  else { s with rawPrevHash := hash key }

variable (key : Key V)

theorem getNullPosition_any : (getNullPosition key).any id = hasNull key := by
  rw [getNullPosition,any_map]
  rfl

theorem intersects_self {bits : List Bool} (h : bits.any id = true) : intersects bits bits = true := by
  rw [intersects,any_eq_true]
  obtain ⟨bit,hb,ht⟩ := any_eq_true.mp h
  obtain ⟨i,hi⟩ := mem_iff_getElem?.mp hb
  have hz : (bits.zip bits)[i]? = some (bit,bit) := getElem?_zip_eq_some.mpr ⟨hi,hi⟩
  exact ⟨(bit,bit),mem_of_getElem? hz,by simpa using ht⟩

variable {done : List (Key V)}

section
variable (h : Remembered valueHash hash done s)
include h

/-- A row that matches the last row of its kind gets the last id, any other row a new one. -/
theorem Remembered.putIfAbsent_eq : s.putIfAbsent valueHash hash precomputedHashChannel isFull key =
      if (lastWith (hasNull key) done).any fun other => samePrevious valueHash hash other key then
        (s.nextSortBasedGroupId - 1,s)
      else (remember valueHash hash key s).addNewGroup precomputedHashChannel isFull key (hash key) := by
  cases hn : hasNull key with
  | true =>
    have ha : (getNullPosition key).any id = true := (getNullPosition_any key).trans hn
    simp only [putIfAbsent,ha,if_true,remember,hn,samePrevious]
    cases hl : lastWith true done with
    | none =>
      have hb : s.rawPrevNullBitSet = .empty := by rw [h.bitSet,hl]; rfl
      simp [hb,NullBitSet.bits,intersects]
    | some other =>
      have hb : s.rawPrevNullBitSet = .localNullBitset := by rw [h.bitSet,hl]; rfl
      simp only [hb,NullBitSet.bits,intersects_self ha,h.nullHash other hl,Bool.and_true,Option.any_some]
  | false =>
    have ha : (getNullPosition key).any id = false := (getNullPosition_any key).trans hn
    simp only [putIfAbsent,ha,Bool.false_eq_true,if_false,remember,hn,samePrevious,addNewGroup]
    cases hl : lastWith false done with
    | none =>
      have hh : s.rawPrevHash = -1 := by rw [h.rawHash,hl]; rfl
      rw [hh,if_pos (beq_self_eq_true _),Option.any_none,if_neg Bool.false_ne_true,addRow_rawPrevHash s _ (hash key)]
    | some other =>
      have hh : s.rawPrevHash = hash other := by rw [h.rawHash,hl]; rfl
      rw [hh,Option.any_some]
      cases hs : hash other == -1 with
      | true => simp only [bne,hs,if_true,Bool.not_true,Bool.false_and,Bool.false_eq_true,if_false,
          addRow_rawPrevHash s _ (hash key)]
      | false => simp only [bne,hs,Bool.not_false,Bool.true_and,Bool.false_eq_true,if_false]

theorem Remembered.remember : Remembered valueHash hash (done ++ [key]) (remember valueHash hash key s) := by
  rw [MultiChannelGroupBySort.remember]
  cases hn : hasNull key with
  | true => exact ⟨by simp [lastWith_concat,hn,h.rawHash],by simp [lastWith_concat,hn],by simp [lastWith_concat,hn]⟩
  | false =>
    refine ⟨by simp [lastWith_concat,hn],by simp [lastWith_concat,hn,h.bitSet],fun other ho => ?_⟩
    rw [lastWith_concat,hn] at ho
    exact h.nullHash other ho

theorem Remembered.again {key other : Key V}
    (hl : lastWith (hasNull key) done = some other) (hs : samePrevious valueHash hash other key = true) :
    Remembered valueHash hash (done ++ [key]) s := by
  have hr := h.remember key
  rw [MultiChannelGroupBySort.remember] at hr
  cases hn : hasNull key with
  | true =>
    rw [hn] at hl
    rw [samePrevious,hn,if_pos rfl,beq_iff_eq,← h.nullHash other hl] at hs
    have hb : s.rawPrevNullBitSet = .localNullBitset := by rw [h.bitSet,hl]; rfl
    rw [hn,← hs,← hb] at hr
    exact hr
  | false =>
    rw [hn] at hl
    have hh : s.rawPrevHash = hash other := by rw [h.rawHash,hl]; rfl
    rw [samePrevious,hn,if_neg Bool.false_ne_true,Bool.and_eq_true,beq_iff_eq,← hh] at hs
    rw [hn,← hs.2] at hr
    exact hr

end

theorem Rows.remember {known : List (Key V)} (h : Rows known s) (key : Key V) :
    Rows known (remember valueHash hash key s) := by
  rw [MultiChannelGroupBySort.remember]
  split <;> exact ⟨h.count,h.rows,h.nextRange,h.maxGroupId,h.nonempty,h.currentRange,h.newGroupId,h.sliceIndex⟩

end Put
end MultiChannelGroupBySort
end HetuCore.Grouping
