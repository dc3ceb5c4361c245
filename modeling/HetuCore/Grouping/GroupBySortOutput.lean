import HetuCore.Grouping.MultiChannelGroupBySortLaws

namespace HetuCore.Grouping.MultiChannelGroupBySort
open MultiChannelGroupBySort List Option
variable {V : Type} {s : MultiChannelGroupBySort V}

def outputKeys : List Nat → MultiChannelGroupBySort V → Except String (List (Key V))
  | [], _ => .ok []
  | groupId :: groupIds, s => do
    let (row,s) ← s.appendValuesTo groupId
    let keys ← outputKeys groupIds s
    pure (row.key :: keys)

variable {row : StoredRow V}

theorem outputKeys_cons {groupId : Nat} {s' : MultiChannelGroupBySort V}
    (h : s.appendValuesTo groupId = .ok (row,s')) (groupIds : List Nat) :
    outputKeys (groupId :: groupIds) s = (outputKeys groupIds s').map (row.key :: ·) := by
  rw [outputKeys,h]
  show (outputKeys groupIds s' >>= _) = _
  cases outputKeys groupIds s' with
  | error message | ok keys => rfl

/-- The pages `done` have been output, and `pos` rows of the next one. -/
structure Cursor (done rest : List (List (StoredRow V))) (pos : Nat) (s : MultiChannelGroupBySort V) : Prop where
  pages : s.completedPages = done ++ rest
  sliceIndex : s.sliceIndex = done.length
  newGroupId : s.newGroupId = if done = [] then 0 else pos
  currentRange : s.currentGroupIdStartingRange = if done = [] then none else some (done.flatten.length - 1)
  nextRange : s.nextGroupIdStartingRange = (lastIds done.flatten.length rest).head?
  maxGroupId : s.maxGroupId = (lastIds done.flatten.length rest).tail
  nonempty : ∀ page ∈ s.completedPages, page ≠ []

namespace Cursor
variable {done rest : List (List (StoredRow V))} {page : List (StoredRow V)} {pos : Nat}

section
variable (h : Cursor done rest pos s)
include h

theorem read_eq (i : Nat) : s.read s.sliceIndex i = ((rest ++ [s.currentPage]).head?).bind (·[i]?) := by
  rw [read,channelBuilders,h.pages,h.sliceIndex,append_assoc,
    getElem?_append_right le_rfl,Nat.sub_self,head?_eq_getElem?]

theorem length_pos (hd : done ≠ []) : 0 < done.flatten.length := by
  obtain ⟨page,hp⟩ := exists_mem_of_ne_nil done hd
  have hne : page ≠ [] := h.nonempty page (by rw [h.pages]; exact mem_append_left _ hp)
  obtain ⟨row,hr⟩ := exists_mem_of_ne_nil page hne
  exact length_pos_of_mem (mem_flatten_of_mem hp hr)

theorem appendValuesTo_inside (hn : some (done.flatten.length + pos) ≠ (lastIds done.flatten.length rest).head?)
    (hrd : s.read s.sliceIndex pos = some row) :
    ∃ s', s.appendValuesTo (done.flatten.length + pos) = .ok (row,s') ∧ Cursor done rest (pos + 1) s' ∧
      s'.currentPage = s.currentPage := by
  rw [← h.nextRange] at hn
  rw [appendValuesTo,if_neg hn]
  by_cases hd : done = []
  · subst hd
    have hr : s.currentGroupIdStartingRange = none := h.currentRange
    have hz : ([] : List (List (StoredRow V))).flatten.length + pos = pos := Nat.zero_add pos
    rw [hr,any_none,if_neg Bool.false_ne_true,hz,appendTo,hrd]
    exact ⟨s,rfl,⟨h.pages,h.sliceIndex,h.newGroupId,h.currentRange,h.nextRange,h.maxGroupId,h.nonempty⟩,rfl⟩
  · have hnw : s.newGroupId = pos := h.newGroupId.trans (if_neg hd)
    have hr : (s.currentGroupIdStartingRange.any fun range => range < done.flatten.length + pos) = true := by
      have hp := h.length_pos hd
      rw [h.currentRange,if_neg hd,any_some,decide_eq_true_iff]
      omega
    rw [if_pos hr,hnw,appendTo,hrd]
    refine ⟨_,rfl,⟨h.pages,h.sliceIndex,?_,h.currentRange,h.nextRange,h.maxGroupId,h.nonempty⟩,rfl⟩
    exact (if_neg hd).symm

end

theorem appendValuesTo_last (h : Cursor done (page :: rest) pos s) (hl : pos + 1 = page.length)
    (hpg : done = [] ∨ 2 ≤ page.length) (hr : page[pos]? = some row) :
    ∃ s', s.appendValuesTo (done.flatten.length + pos) = .ok (row,s') ∧ Cursor (done ++ [page]) rest 0 s' ∧
      s'.currentPage = s.currentPage := by
  have hn : some (done.flatten.length + pos) = s.nextGroupIdStartingRange := by
    rw [h.nextRange,lastIds,← hl]
    rfl
  have hp : (if s.newGroupId = 0 then done.flatten.length + pos else s.newGroupId) = pos := by
    rw [h.newGroupId]
    by_cases hd : done = []
    · simp [hd]
    · rcases hpg with hnl | ht
      · exact absurd hnl hd
      · rw [if_neg hd,if_neg (by omega)]
  rw [appendValuesTo,if_pos hn,hp,appendTo,h.read_eq]
  simp only [cons_append,head?_cons,bind_some,hr]
  refine ⟨_,rfl,⟨?_,?_,?_,?_,?_,?_,h.nonempty⟩,rfl⟩
  · rw [h.pages]
    simp
  · simp [h.sliceIndex]
  · simp
  · rw [← hn]
    simp
    omega
  · rw [h.maxGroupId]
    simp [lastIds]
  · rw [h.maxGroupId]
    simp [lastIds]

/-- A page of one row that is not the first: its row is looked for at a position that it has not. -/
theorem appendValuesTo_single (h : Cursor done (page :: rest) 0 s) (hd : done ≠ []) (hp : page.length = 1) :
    s.appendValuesTo done.flatten.length = .error "position is not valid" := by
  have hn : some done.flatten.length = s.nextGroupIdStartingRange := by
    rw [h.nextRange,lastIds,hp]
    rfl
  have hz : s.newGroupId = 0 := by rw [h.newGroupId,if_neg hd]
  have hnn : page[done.flatten.length]? = none := by
    have hps := h.length_pos hd
    exact getElem?_eq_none (by omega)
  rw [appendValuesTo,if_pos hn,hz,if_pos rfl,appendTo,h.read_eq]
  simp only [cons_append,head?_cons,bind_some,hnn]
  rfl

theorem outputKeys_page (left : Nat) (h : Cursor done (page :: rest) pos s) (hl : pos + left + 1 = page.length)
    (hpg : done = [] ∨ 2 ≤ page.length) : ∃ s', Cursor (done ++ [page]) rest 0 s' ∧ s'.currentPage = s.currentPage ∧
      ∀ ids, outputKeys (List.range' (done.flatten.length + pos) (left + 1) ++ ids) s =
        (outputKeys ids s').map ((page.drop pos).map StoredRow.key ++ ·) := by
  have hp : pos < page.length := by omega
  have hr : page[pos]? = some page[pos] := getElem?_eq_getElem hp
  induction left generalizing pos s with
  | zero =>
    obtain ⟨s',ha,hcr,hc⟩ := h.appendValuesTo_last hl hpg hr
    refine ⟨s',hcr,hc,fun ids => ?_⟩
    have hd : page.drop pos = [page[pos]] := by
      rw [drop_eq_getElem_cons hp,drop_eq_nil_of_le hl.ge]
    rw [hd]
    exact outputKeys_cons ha ids
  | succ left ih =>
    have hnx : some (done.flatten.length + pos) ≠ (lastIds done.flatten.length (page :: rest)).head? := by
      rw [lastIds,head?_cons,Ne,some.injEq]
      omega
    have hrd : s.read s.sliceIndex pos = some page[pos] := by
      rw [h.read_eq]
      exact hr
    obtain ⟨s₁,ha,hcr₁,hc₁⟩ := h.appendValuesTo_inside hnx hrd
    have hn : pos + 1 < page.length := by omega
    obtain ⟨s',hcr,hc,ho⟩ := ih hcr₁ (by omega) hn (getElem?_eq_getElem hn)
    refine ⟨s',hcr,hc.trans hc₁,fun ids => ?_⟩
    rw [range'_succ,cons_append,outputKeys_cons ha,Nat.add_assoc,ho,drop_eq_getElem_cons hp]
    cases outputKeys ids s' with
    | error message | ok keys => rfl

theorem outputKeys_open (left : Nat) (h : Cursor done [] pos s) (hl : pos + left = s.currentPage.length) :
    outputKeys (List.range' (done.flatten.length + pos) left) s =
      .ok ((s.currentPage.drop pos).map StoredRow.key) := by
  induction left generalizing pos s with
  | zero =>
    have hle : s.currentPage.length ≤ pos := hl.ge
    rw [drop_eq_nil_of_le hle]
    rfl
  | succ left ih =>
    have hp : pos < s.currentPage.length := by omega
    have hr : s.read s.sliceIndex pos = some s.currentPage[pos] := by
      rw [h.read_eq]
      exact getElem?_eq_getElem hp
    have hn : some (done.flatten.length + pos) ≠
        (lastIds done.flatten.length ([] : List (List (StoredRow V)))).head? := by simp [lastIds]
    obtain ⟨s',ha,hcr,hc⟩ := h.appendValuesTo_inside hn hr
    have ho := ih hcr (by rw [hc]; omega)
    rw [range'_succ,outputKeys_cons ha,Nat.add_assoc,ho,hc,drop_eq_getElem_cons hp]
    rfl

theorem range'_page (start left later : Nat) (done : List (List (StoredRow V))) (hs : start = done.flatten.length)
    (hl : page.length = left + 1) : List.range' start (page.length + later) =
      List.range' start (left + 1) ++ List.range' (done ++ [page]).flatten.length later := by
  have hn : (done ++ [page]).flatten.length = start + (left + 1) := by
    rw [flatten_append,length_append,flatten_singleton,hl,hs]
  rw [hl,hn,range'_append_1]

theorem map_append_eq_ok {front keys : List (Key V)} {x : Except String (List (Key V))} :
    x.map (front ++ ·) = .ok (front ++ keys) ↔ x = .ok keys := by
  cases x with
  | error message => exact iff_of_false (fun h => by cases h) fun h => by cases h
  | ok found => simp [Except.map]

/-- After the first page, the rows that are left are output exactly if each full page has two. -/
theorem outputKeys_iff (h : Cursor done rest 0 s) (hd : done ≠ []) :
    outputKeys (List.range' done.flatten.length (rest.flatten.length + s.currentPage.length)) s =
        .ok ((rest.flatten ++ s.currentPage).map StoredRow.key) ↔ ∀ page ∈ rest, 2 ≤ page.length := by
  induction rest generalizing done s with
  | nil =>
    have ho := h.outputKeys_open s.currentPage.length (Nat.zero_add _)
    simpa using ho
  | cons page rest ih =>
    have hne : page ≠ [] := h.nonempty page (by rw [h.pages]; simp)
    obtain ⟨left,hl⟩ := Nat.exists_eq_succ_of_ne_zero fun hz => hne (eq_nil_of_length_eq_zero hz)
    rw [flatten_cons,length_append,Nat.add_assoc,range'_page _ left _ done rfl hl,append_assoc,
      map_append,forall_mem_cons]
    by_cases hp : 2 ≤ page.length
    · obtain ⟨s',hcr,hc,ho⟩ := h.outputKeys_page left (by omega) (.inr hp)
      have hr := ih hcr (by simp)
      rw [Nat.add_zero] at ho
      rw [ho,drop_zero,map_append_eq_ok,← hc,hr]
      exact (and_iff_right hp).symm
    · refine iff_of_false (fun ho => ?_) fun ha => hp ha.1
      have he := h.appendValuesTo_single hd (by omega)
      rw [range'_succ,cons_append,outputKeys,he] at ho
      cases ho

end Cursor

variable {known : List (Key V)}

theorem Rows.cursor (h : Rows known s) : Cursor [] s.completedPages 0 s :=
  ⟨rfl,h.sliceIndex,h.newGroupId,h.currentRange,h.nextRange,h.maxGroupId,h.nonempty⟩

/-- The keys of all groups are output in their order exactly if every full page but the first has
two rows. -/
theorem Rows.outputKeys_iff (h : Rows known s) :
    outputKeys (range known.length) s = .ok known ↔ ∀ page ∈ s.completedPages.tail, 2 ≤ page.length := by
  have hr := h.rows
  have hc := h.cursor
  rw [channelBuilders,flatten_append,flatten_singleton] at hr
  rw [← hr,length_map,length_append,range_eq_range']
  cases hp : s.completedPages with
  | nil =>
    rw [hp] at hc
    have ho := hc.outputKeys_open s.currentPage.length (Nat.zero_add _)
    simpa using ho
  | cons page rest =>
    rw [hp] at hc
    have hne : page ≠ [] := h.nonempty page (by rw [hp]; exact mem_cons_self)
    obtain ⟨left,hl⟩ := Nat.exists_eq_succ_of_ne_zero fun hz => hne (eq_nil_of_length_eq_zero hz)
    obtain ⟨s',hc',hcr,ho⟩ := hc.outputKeys_page left (by omega) (.inl rfl)
    have hrs := hc'.outputKeys_iff (by simp)
    rw [flatten_cons,length_append,Nat.add_assoc,Cursor.range'_page 0 left _ [] rfl hl,append_assoc,
      map_append,tail_cons]
    rw [flatten_nil,length_nil] at ho
    rw [ho,drop_zero,Cursor.map_append_eq_ok,← hcr,hrs]

end HetuCore.Grouping.MultiChannelGroupBySort
