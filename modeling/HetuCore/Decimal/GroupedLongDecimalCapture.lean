import HetuCore.Decimal.GroupedLongDecimalState

namespace HetuCore.Decimal
open HetuCore.Array BigArray List Function

/-- The single states of all groups after a row. -/
def GroupRow.apply (states : Nat → LongDecimalWithOverflowState) (r : GroupRow) :
    Nat → LongDecimalWithOverflowState :=
  update states r.groupId (r.action.apply (states r.groupId))

/-- The single state of a group that sees the rows of the group only. -/
def groupState (rows : List GroupRow) (groupId : Nat) : LongDecimalWithOverflowState :=
  ((rows.filter (·.groupId = groupId)).map GroupRow.action).foldl GroupAction.apply .createSingleState

def overflowed (states : Nat → LongDecimalWithOverflowState) : List GroupRow → Bool
  | [] => false
  | r :: rows => r.action.addedOverflow (states r.groupId) ≠ 0 || overflowed (r.apply states) rows

variable (pages : List GroupedPage)

def rowsOf : List GroupRow := pages.flatMap GroupedPage.rows

variable (rows : List GroupRow) (states : Nat → LongDecimalWithOverflowState)

theorem foldl_apply (groupId : Nat) : rows.foldl (fun st r => r.apply st) states groupId =
      ((rows.filter (·.groupId = groupId)).map GroupRow.action).foldl GroupAction.apply (states groupId) := by
  induction rows generalizing states with
  | nil => rfl
  | cons r rows ih =>
    rw [foldl_cons,ih]
    by_cases hg : r.groupId = groupId
    · subst hg
      simp [GroupRow.apply]
    · simp [GroupRow.apply,hg,update_of_ne (Ne.symm hg)]

theorem overflowed_append (rows more : List GroupRow) : overflowed states (rows ++ more) =
      (overflowed states rows || overflowed (rows.foldl (fun st r => r.apply st) states) more) := by
  induction rows generalizing states with
  | nil => rfl
  | cons r rows ih => rw [cons_append,overflowed,ih,overflowed,Bool.or_assoc,foldl_cons]

namespace GroupedLongDecimalWithOverflowState

/-- The single state that the arrays hold for a group. -/
def view (s : GroupedLongDecimalWithOverflowState) (groupId : Nat) : LongDecimalWithOverflowState :=
  ⟨s.isNotNull.content groupId,
    ⟨s.unscaledDecimals.content (groupId * 2),s.unscaledDecimals.content (groupId * 2 + 1)⟩,
    (s.overflows.map (·.content groupId)).getD 0⟩

/-- Every array has room for the groups below the count. -/
structure Room (s : GroupedLongDecimalWithOverflowState) (groupCount : Nat) : Prop where
  isNotNull : groupCount < s.isNotNull.capacity
  unscaledDecimals : groupCount * 2 < s.unscaledDecimals.capacity
  overflows : ∀ o ∈ s.overflows, groupCount < o.capacity

variable {s : GroupedLongDecimalWithOverflowState} {groupCount : Nat}

theorem Room.setGroupId (h : Room s groupCount) (groupId : Nat) : Room (s.setGroupId groupId) groupCount :=
  ⟨h.isNotNull,h.unscaledDecimals,h.overflows⟩

theorem view_createGroupedState (groupId : Nat) : createGroupedState.view groupId = .createSingleState := by
  simp [view,createGroupedState,content_new,LongDecimalWithOverflowState.createSingleState,Unscaled.zero]

theorem ensureCapacity_spec (s : GroupedLongDecimalWithOverflowState) (size : Nat) :
    (s.ensureCapacity size).view = s.view ∧ Room (s.ensureCapacity size) size := by
  have hn := s.isNotNull.ensureCapacity_spec size
  have hd := s.unscaledDecimals.ensureCapacity_spec (size * 2)
  constructor
  · funext groupId
    rw [view,view,ensureCapacity]
    simp only [hn.1,hd.1]
    cases s.overflows with
    | none => rfl
    | some o => simp [(o.ensureCapacity_spec size).1]
  · refine ⟨hn.2.1,hd.2.1,fun o ho => ?_⟩
    obtain ⟨p,-,rfl⟩ := Option.mem_map.mp ho
    exact (p.ensureCapacity_spec size).2.1

section access
variable (hrm : Room s groupCount) (hgr : s.groupId < groupCount)
include hrm hgr

theorem getIsNotNull_eq : s.getIsNotNull = .ok (s.view s.groupId).isNotNull :=
  get_eq (hgr.trans hrm.isNotNull)

theorem getDecimal_eq : s.getDecimal = .ok (s.view s.groupId).unscaledDecimal := by
  have h := hrm.unscaledDecimals
  rw [getDecimal,get_eq (by omega),get_eq (by omega)]
  rfl

theorem getOverflow_eq : s.getOverflow = .ok (s.view s.groupId).overflow := by
  cases ho : s.overflows with
  | none => simp [getOverflow,view,ho,pure,Except.pure]
  | some o =>
    have hc := hgr.trans (hrm.overflows o ho)
    simp [getOverflow,view,ho,get_eq hc]

theorem setNotNull_spec : ∃ s', s.setNotNull = .ok s' ∧ Room s' groupCount ∧ s'.groupId = s.groupId ∧
    s'.overflows = s.overflows ∧
    s'.view = update s.view s.groupId { s.view s.groupId with isNotNull := true } := by
  obtain ⟨c,hc,hcn,hcp⟩ := set_spec (hgr.trans hrm.isNotNull) true
  refine ⟨{ s with isNotNull := c },by rw [setNotNull,hc]; rfl,⟨by rw [hcp]; exact hrm.isNotNull,hrm.unscaledDecimals,
    hrm.overflows⟩,rfl,rfl,?_⟩
  funext g
  by_cases hg : g = s.groupId
  · subst hg
    simp [view,hcn]
  · simp [view,hcn,hg]

theorem setDecimal_spec (decimal : Unscaled) : ∃ s', s.setDecimal decimal = .ok s' ∧ Room s' groupCount ∧
    s'.groupId = s.groupId ∧ s'.overflows = s.overflows ∧
    s'.view = update s.view s.groupId { s.view s.groupId with unscaledDecimal := decimal } := by
  have hr := hrm.unscaledDecimals
  obtain ⟨c,hc,hcn,hcp⟩ := @set_spec _ _ s.unscaledDecimals (s.groupId * 2) (by omega) decimal.rawLow
  obtain ⟨d,hd,hc',hcp'⟩ := @set_spec _ _ c (s.groupId * 2 + 1) (by omega) decimal.rawHigh
  refine ⟨{ s with unscaledDecimals := d },by rw [setDecimal,hc]; simp only [bind,Except.bind,hd]; rfl,
    ⟨hrm.isNotNull,by rw [hcp',hcp]; exact hr,hrm.overflows⟩,rfl,rfl,?_⟩
  funext g
  by_cases hg : g = s.groupId
  · subst hg
    simp [view,hc',hcn]
  · have h0 : g * 2 ≠ s.groupId * 2 + 1 := by omega
    have h2 : g * 2 + 1 ≠ s.groupId * 2 := by omega
    simp [view,hc',hcn,hg,h0,h2]

/-- The counter of the group moves; the array is created by the first nonzero overflow. -/
theorem addOverflow_spec (overflow : Word) : ∃ s', s.addOverflow overflow = .ok s' ∧ Room s' groupCount ∧
    (s'.overflows.isSome ↔ s.overflows.isSome ∨ overflow ≠ 0) ∧
    s'.view = update s.view s.groupId { s.view s.groupId with overflow := (s.view s.groupId).overflow + overflow } := by
  by_cases hz : overflow = 0
  · subst hz
    refine ⟨s,if_neg (by simp),hrm,by simp,?_⟩
    simp
  · have hs : ∃ o : BigArray (0 : Word), s.overflows.getD (new.ensureCapacity s.isNotNull.capacity) = o ∧
        groupCount < o.capacity ∧ ∀ g, o.content g = (s.view g).overflow := by
      cases ho : s.overflows with
      | none =>
        obtain ⟨hcn,hcp,-⟩ := (@new _ (0 : Word)).ensureCapacity_spec s.isNotNull.capacity
        exact ⟨_,Option.getD_none,hrm.isNotNull.trans hcp,fun g => by rw [hcn,content_new,view,ho]; rfl⟩
      | some o => exact ⟨o,Option.getD_some,hrm.overflows o ho,fun g => by rw [view,ho]; rfl⟩
    obtain ⟨o,ho,hcp,hv⟩ := hs
    obtain ⟨c,hc,hcn,hcc⟩ := set_spec (hgr.trans hcp) ((s.view s.groupId).overflow + overflow)
    refine ⟨{ s with overflows := some c },?_,⟨hrm.isNotNull,hrm.unscaledDecimals,?_⟩,iff_of_true rfl (.inr hz),?_⟩
    · rw [addOverflow,if_pos hz]
      simp only [ho,get_eq (hgr.trans hcp),hv,bind,Except.bind,hc]
      rfl
    · intro p hp
      rw [← Option.mem_some_iff.mp hp,hcc]
      exact hcp
    · funext g
      by_cases hg : g = s.groupId
      · subst hg
        simp [view,hcn]
      · rw [update_of_ne hg,LongDecimalWithOverflowState.ext_iff]
        rw [← hv g]
        simp [view,hcn,hg]

theorem input_spec (x : EncodedDecimal) : ∃ s', s.input x = .ok s' ∧ Room s' groupCount ∧
    (s'.overflows.isSome ↔ s.overflows.isSome ∨ (GroupAction.input x).addedOverflow (s.view s.groupId) ≠ 0) ∧
    s'.view = update s.view s.groupId ((s.view s.groupId).addDecimal x.words) := by
  obtain ⟨a,ha,hra,hga,hoa,hva⟩ := setNotNull_spec hrm hgr
  rw [← hga] at hgr
  obtain ⟨b,hb,hrb,hgb,hob,hvb⟩ := setDecimal_spec hra hgr ((a.view a.groupId).unscaledDecimal.addWithOverflow x.words).1
  have hl := getDecimal_eq hra hgr
  rw [← hgb] at hgr
  obtain ⟨c,hc,hrc,hoc,hvc⟩ := addOverflow_spec hrb hgr ((a.view a.groupId).unscaledDecimal.addWithOverflow x.words).2
  refine ⟨c,?_,hrc,?_,?_⟩
  · simp only [input,ha,bind,Except.bind,hl,hb,hc]
  · rw [hoc,hob,hoa,hva,hga,update_self]
    rfl
  · rw [hvc,hgb,hvb,hva,hga]
    simp [LongDecimalWithOverflowState.addDecimal]

theorem combine_spec (otherState : LongDecimalWithOverflowState) : ∃ s', s.combine otherState = .ok s' ∧
    Room s' groupCount ∧
    (s'.overflows.isSome ↔ s.overflows.isSome ∨ (GroupAction.combine otherState).addedOverflow (s.view s.groupId) ≠ 0) ∧
    s'.view = update s.view s.groupId ((s.view s.groupId).combine otherState) := by
  have hf := getIsNotNull_eq hrm hgr
  by_cases hn : (s.view s.groupId).isNotNull = true
  · obtain ⟨b,hb,hrb,hgb,hob,hvb⟩ := setDecimal_spec hrm hgr
      ((s.view s.groupId).unscaledDecimal.addWithOverflow otherState.unscaledDecimal).1
    have hl := getDecimal_eq hrm hgr
    rw [← hgb] at hgr
    obtain ⟨c,hc,hrc,hoc,hvc⟩ := addOverflow_spec hrb hgr
      (otherState.overflow + ((s.view s.groupId).unscaledDecimal.addWithOverflow otherState.unscaledDecimal).2)
    refine ⟨c,?_,hrc,?_,?_⟩
    · simp only [combine,hf,hn,bind,Except.bind,hl,hb,hc,if_true]
    · rw [hoc,hob,GroupAction.addedOverflow,if_pos hn]
    · rw [hvc,hgb,hvb,LongDecimalWithOverflowState.combine,if_pos hn]
      simp
  · obtain ⟨a,ha,hra,hga,hoa,hva⟩ := setNotNull_spec hrm hgr
    rw [← hga] at hgr
    obtain ⟨b,hb,hrb,hgb,hob,hvb⟩ := setDecimal_spec hra hgr otherState.unscaledDecimal
    rw [← hgb] at hgr
    obtain ⟨c,hc,hrc,hoc,hvc⟩ := addOverflow_spec hrb hgr otherState.overflow
    refine ⟨c,?_,hrc,?_,?_⟩
    · simp only [combine,hf,hn,bind,Except.bind,ha,hb,hc,Bool.false_eq_true,if_false]
    · rw [hoc,hob,hoa,GroupAction.addedOverflow,if_neg hn]
    · rw [hvc,hgb,hvb,hva,hga,LongDecimalWithOverflowState.combine,if_neg hn]
      simp

end access

theorem addRow_spec (hrm : Room s groupCount) (r : GroupRow) (hgr : r.groupId < groupCount) :
    ∃ s', s.addRow r = .ok s' ∧ Room s' groupCount ∧
      (s'.overflows.isSome ↔ s.overflows.isSome ∨ r.action.addedOverflow (s.view r.groupId) ≠ 0) ∧
      s'.view = r.apply s.view := by
  obtain ⟨groupId,action⟩ := r
  cases action with
  | input x => exact input_spec (hrm.setGroupId groupId) hgr x
  | combine otherState => exact combine_spec (hrm.setGroupId groupId) hgr otherState

theorem foldlM_addRow_spec (hrm : Room s groupCount) (hr : ∀ r ∈ rows, r.groupId < groupCount) :
    ∃ s', rows.foldlM addRow s = .ok s' ∧ Room s' groupCount ∧
      (s'.overflows.isSome ↔ s.overflows.isSome ∨ overflowed s.view rows) ∧
      s'.view = rows.foldl (fun st r => r.apply st) s.view := by
  induction rows generalizing s with
  | nil => exact ⟨s,rfl,hrm,by simp [overflowed],rfl⟩
  | cons r rows ih =>
    obtain ⟨a,ha,hra,hoa,hva⟩ := addRow_spec hrm r (hr r (mem_cons_self ..))
    obtain ⟨b,hb,hrb,hob,hvb⟩ := ih hra fun q hq => hr q (mem_cons_of_mem _ hq)
    refine ⟨b,?_,hrb,?_,?_⟩
    · rw [foldlM_cons,ha]
      exact hb
    · rw [hob,hoa,hva,overflowed,Bool.or_eq_true,decide_eq_true_eq,or_assoc]
    · rw [hvb,hva,foldl_cons]

theorem addPage_spec (s : GroupedLongDecimalWithOverflowState) (page : GroupedPage) :
    ∃ s', s.addPage page = .ok s' ∧ Room s' page.groupCount ∧
      (s'.overflows.isSome ↔ s.overflows.isSome ∨ overflowed s.view page.rows) ∧
      s'.view = page.rows.foldl (fun st r => r.apply st) s.view := by
  obtain ⟨hv,hrm⟩ := ensureCapacity_spec s page.groupCount
  obtain ⟨a,ha,hra,hoa,hva⟩ := foldlM_addRow_spec page.rows hrm page.inRange
  refine ⟨a,ha,hra,?_,by rw [hva,hv]⟩
  rw [hoa,hv,ensureCapacity,Option.isSome_map]

variable (pages : List GroupedPage)

theorem foldlM_addPage_spec (s : GroupedLongDecimalWithOverflowState) :
    ∃ s', pages.foldlM addPage s = .ok s' ∧ s'.view = (rowsOf pages).foldl (fun st r => r.apply st) s.view ∧
      (s'.overflows.isSome ↔ s.overflows.isSome ∨ overflowed s.view (rowsOf pages)) ∧
      ∀ page ∈ pages.getLast?, Room s' page.groupCount := by
  induction pages generalizing s with
  | nil => exact ⟨s,rfl,rfl,by simp [rowsOf,overflowed],by simp⟩
  | cons page pages ih =>
    obtain ⟨a,ha,hra,hoa,hva⟩ := addPage_spec s page
    obtain ⟨b,hb,hvb,hob,hrb⟩ := ih a
    refine ⟨b,?_,?_,?_,?_⟩
    · rw [foldlM_cons,ha]
      exact hb
    · rw [hvb,hva,rowsOf,rowsOf,flatMap_cons,foldl_append]
    · rw [hob,hoa,hva,rowsOf,rowsOf,flatMap_cons,overflowed_append,Bool.or_eq_true,or_assoc]
    · cases pages with
      | nil =>
        simp only [foldlM_nil,pure,Except.pure,Except.ok.injEq] at hb
        subst hb
        simpa using hra
      | cons p ps => simpa using hrb

/-- Every run succeeds and keeps in each group the single state of the rows of the group;
the overflow array exists exactly after an overflow. -/
theorem run_spec : ∃ s, run pages = .ok s ∧ s.view = groupState (rowsOf pages) ∧
      (s.overflows.isSome ↔ overflowed (fun _ => .createSingleState) (rowsOf pages)) ∧
      ∀ page ∈ pages.getLast?, Room s page.groupCount := by
  have hn : createGroupedState.view = fun _ => .createSingleState := funext view_createGroupedState
  obtain ⟨s,hs,hv,ho,hrm⟩ := foldlM_addPage_spec pages createGroupedState
  rw [hn] at hv ho
  refine ⟨s,hs,?_,by simpa [createGroupedState] using ho,hrm⟩
  funext groupId
  rw [hv,foldl_apply]
  rfl

theorem observe_eq (hrm : Room s groupCount) {groupId : Nat} (h : groupId < groupCount) :
    s.observe groupId = .ok (s.view groupId) := by
  have hr := hrm.setGroupId groupId
  simp only [observe,getIsNotNull_eq hr h,getDecimal_eq hr h,getOverflow_eq hr h]
  rfl

/-- Capture succeeds and a freshly created state restores the captured object to the same
accessor results for every group. -/
def RestoresExactly (s : GroupedLongDecimalWithOverflowState) : Prop :=
  ∃ captured restored, s.capture = .ok captured ∧ createGroupedState.restore captured = .ok restored ∧
    ∀ groupId, restored.observe groupId = s.observe groupId

theorem capture_error_iff (s : GroupedLongDecimalWithOverflowState) :
    s.capture = .error "NullPointerException" ↔ ¬ s.overflows.isSome := by
  unfold capture
  cases s.overflows with
  | none => simp
  | some o => simp [pure,Except.pure]

/-- After every run each group holds the single state of its rows. Capture throws exactly
when no row has overflowed, and a freshly created state can restore no captured object:
no run is restored exactly. -/
theorem run_not_restoresExactly : ∃ s, run pages = .ok s ∧ (∀ page ∈ pages.getLast?, ∀ groupId < page.groupCount,
        s.observe groupId = .ok (groupState (rowsOf pages) groupId)) ∧
      (s.capture = .error "NullPointerException" ↔ overflowed (fun _ => .createSingleState) (rowsOf pages) = false) ∧
      (∀ captured, createGroupedState.restore captured = .error "NullPointerException") ∧ ¬ s.RestoresExactly := by
  obtain ⟨s,hs,hv,ho,hrm⟩ := run_spec pages
  have hrs : ∀ captured, createGroupedState.restore captured = .error "NullPointerException" := fun _ => rfl
  refine ⟨s,hs,?_,?_,hrs,?_⟩
  · intro page hp groupId hg
    rw [observe_eq (hrm page hp) hg,hv]
  · rw [capture_error_iff,ho,Bool.not_eq_true]
  · rintro ⟨captured,restored,-,hr,-⟩
    cases hr

/-- One group with the single input 1: the overflow array does not exist and capture throws. -/
theorem capture_throws_without_overflow :
    ∃ s, run [⟨1,[⟨0,.input (.short 1)⟩],by decide⟩] = .ok s ∧ s.capture = .error "NullPointerException" ∧
      ¬ s.RestoresExactly := by
  obtain ⟨s,hs,-,ho,-⟩ := run_spec [⟨1,[⟨0,.input (.short 1)⟩],by decide⟩]
  have hcp : s.capture = .error "NullPointerException" := by
    rw [capture_error_iff,ho]
    decide +kernel
  refine ⟨s,hs,hcp,?_⟩
  rintro ⟨captured,restored,hc,-,-⟩
  rw [hcp] at hc
  cases hc

end GroupedLongDecimalWithOverflowState
end HetuCore.Decimal
