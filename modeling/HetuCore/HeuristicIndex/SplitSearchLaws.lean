import HetuCore.HeuristicIndex.SplitSearch

namespace HetuCore.HeuristicIndex.SplitSearch
open Foundation List
variable {α : Type} (pos : α → Int)

def At (arr : List α) (i : Int) (element : α) : Prop := ∃ n : Nat, i = n ∧ arr[n]? = some element

variable {pos} {arr : List α}

theorem getOrder_eq_ok {i order : Int} (h : getOrder pos arr i = .ok order) :
    ∃ element, At arr i element ∧ pos element = order := by
  cases i with
  | negSucc n => cases h
  | ofNat n =>
    rw [getOrder] at h
    split at h
    · rename_i element he
      exact ⟨element,⟨n,rfl,he⟩,Except.ok.inj h⟩
    · cases h

theorem at_of_getOrder (good : Int → Prop) {i order r : Int} (hgt : getOrder pos arr i = .ok order)
    (hg : good order) (h : (.ok i : Except String Int) = .ok r) :
    r = -1 ∨ ∃ element, At arr r element ∧ good (pos element) := by
  obtain ⟨element,hat,rfl⟩ := getOrder_eq_ok hgt
  cases h
  exact .inr ⟨element,hat,hg⟩

theorem floorSearch_spec {low high x r : Int} (h : floorSearch pos arr low high x = .ok r) :
    r = -1 ∨ ∃ element, At arr r element ∧ pos element ≤ x := by
  induction hn : (high + 1 - low).toNat using Nat.strong_induction_on generalizing low high with
  | _ n ih =>
    rw [floorSearch] at h
    split at h
    · exact .inl (Except.ok.inj h).symm
    obtain ⟨last,hls,h⟩ := bind_ok h
    split at h
    · rename_i hx
      exact at_of_getOrder (· ≤ x) hls hx h
    obtain ⟨middle,hm,h⟩ := bind_ok h
    split at h
    · rename_i hx
      exact at_of_getOrder (· ≤ x) hm hx.le h
    have hl : floorSearch pos arr low ((low + high) / 2 - 1) x = .ok r → _ := fun h => ih _ (by omega) h rfl
    have hr : floorSearch pos arr ((low + high) / 2 + 1) high x = .ok r → _ := fun h => ih _ (by omega) h rfl
    split at h
    · obtain ⟨before,hb,h⟩ := bind_ok h
      split at h
      · rename_i hx
        exact at_of_getOrder (· ≤ x) hb hx.1 h
      split at h
      · exact hl h
      · exact hr h
    · split at h
      · exact hl h
      · exact hr h

theorem ceilSearch_spec {low high x r : Int} (h : ceilSearch pos arr low high x = .ok r) :
    r = -1 ∨ ∃ element, At arr r element ∧ x ≤ pos element := by
  induction hn : (high + 1 - low).toNat using Nat.strong_induction_on generalizing low high with
  | _ n ih =>
    rw [ceilSearch] at h
    split at h
    · cases h
    obtain ⟨first,hf,h⟩ := bind_ok h
    split at h
    · rename_i hx
      exact at_of_getOrder (x ≤ ·) hf hx h
    obtain ⟨last,hls,h⟩ := bind_ok h
    split at h
    · exact .inl (Except.ok.inj h).symm
    obtain ⟨middle,hm,h⟩ := bind_ok h
    have hl : ceilSearch pos arr low ((low + high) / 2 - 1) x = .ok r → _ := fun h => ih _ (by omega) h rfl
    have hr : ceilSearch pos arr ((low + high) / 2 + 1) high x = .ok r → _ := fun h => ih _ (by omega) h rfl
    split at h
    · rename_i hx
      exact at_of_getOrder (x ≤ ·) hm hx.ge h
    split at h
    · split at h
      · obtain ⟨after,ha,h⟩ := bind_ok h
        split at h
        · rename_i hx
          exact at_of_getOrder (x ≤ ·) ha hx h
        · exact hr h
      · exact hr h
    · rename_i hx
      split at h
      · obtain ⟨before,-,h⟩ := bind_ok h
        split at h
        · exact at_of_getOrder (x ≤ ·) hm (not_lt.mp hx) h
        · exact hl h
      · exact hl h

/-- The list as it is, or its part from a place that starts at `start` or before up to one that starts at
`stop` or after or up to its end. -/
theorem subArray_cases (arr : List α) (start stop : Int) : subArray pos arr start stop = arr ∨
    ∃ first last : Nat, first ≤ last ∧ subArray pos arr start stop = (arr.drop first).take (last - first) ∧
      (∃ element, arr[first]? = some element ∧ pos element ≤ start) ∧
      (arr.length ≤ last ∨ ∃ n element, last = n + 1 ∧ arr[n]? = some element ∧ stop ≤ pos element) := by
  rw [subArray]
  split
  · rename_i part hp
    obtain ⟨first,hf,hp⟩ := bind_ok hp
    obtain ⟨last,hl,hp⟩ := bind_ok hp
    rcases floorSearch_spec hf with rfl | ⟨element,⟨n,rfl,hfn⟩,hle⟩
    · exact .inl (Except.ok.inj hp).symm
    have hf : ¬ (n : Int) = -1 := by omega
    rw [if_neg hf,subList] at hp
    have hn := (List.getElem?_eq_some_iff.mp hfn).1
    rcases ceilSearch_spec hl with rfl | ⟨element',⟨n',rfl,hn'⟩,hge⟩
    · rw [if_pos rfl] at hp
      split at hp
      · cases hp
      rw [← Except.ok.inj hp]
      refine .inr ⟨n,arr.length,hn.le,?_,⟨element,hfn,hle⟩,.inl le_rfl⟩
      congr
      omega
    · have hl : ¬ (n' : Int) = -1 := by omega
      rw [if_neg hl] at hp
      split at hp
      · cases hp
      rw [← Except.ok.inj hp]
      refine .inr ⟨n,n' + 1,by omega,?_,⟨element,hfn,hle⟩,.inr ⟨n',element',rfl,hn',hge⟩⟩
      congr
      omega
  · exact .inl rfl

/-- Nothing is lost that starts before `stop` and after which the next index starts behind `start`. -/
theorem mem_subArray (h : Ascending pos arr) {start stop : Int} {m : α} (hm : m ∈ arr)
    (hsm : ∀ other ∈ arr, pos other = pos m → other = m) (hst : pos m < stop)
    (hs : ∀ other ∈ arr, pos m < pos other → start < pos other) :
    m ∈ subArray pos arr start stop := by
  rcases subArray_cases arr start stop with hal | ⟨first,last,hle,hpr,⟨element,hf,hlw⟩,hl⟩
  · rw [hal]
    exact hm
  have hp : ∀ n, arr[n]? = some m → first ≤ n → n < last → m ∈ (arr.drop first).take (last - first) := by
    intro n hn hfr hto
    refine mem_of_getElem? (i := n - first) ?_
    rw [getElem?_take_of_lt (by omega),getElem?_drop,Nat.add_sub_cancel' hfr]
    exact hn
  -- an element that starts before `stop` stands before the end of the part
  have hb : ∀ n, arr[n]? = some m → n < last := by
    intro n hn
    obtain ⟨hlt,hg⟩ := List.getElem?_eq_some_iff.mp hn
    rcases hl with hen | ⟨n',element',rfl,hn',hge⟩
    · omega
    · by_contra hnt
      obtain ⟨hl',hg'⟩ := List.getElem?_eq_some_iff.mp hn'
      have := pairwise_iff_getElem.mp h n' n hl' hlt (by omega)
      rw [hg,hg'] at this
      omega
  rw [hpr]
  obtain ⟨n,hn⟩ := getElem?_of_mem hm
  by_cases hfr : first ≤ n
  · exact hp n hn hfr (hb n hn)
  · obtain ⟨hlt,hg⟩ := List.getElem?_eq_some_iff.mp hn
    obtain ⟨hl',hg'⟩ := List.getElem?_eq_some_iff.mp hf
    have ha := pairwise_iff_getElem.mp h n first hlt hl' (by omega)
    rw [hg,hg'] at ha
    have he := mem_of_getElem? hf
    have heq : pos element = pos m := by
      by_contra hne
      have := hs element he (lt_of_le_of_ne ha (.symm hne))
      omega
    rw [hsm element he heq] at hf
    exact hp first hf le_rfl (hb first hf)

theorem mem_of_mem_subArray {start stop : Int} {m : α} (hm : m ∈ subArray pos arr start stop) : m ∈ arr := by
  rcases subArray_cases arr start stop with ha | ⟨first,last,-,hp,-,-⟩
  · rwa [ha] at hm
  · rw [hp] at hm
    exact mem_of_mem_drop (mem_of_mem_take hm)

section
variable {β : Type} (g : β → α)

theorem insertAll_map (indices : List β) :
    insertAll pos (indices.map g) = (insertAll (pos ∘ g) indices).map g := by
  have hl : ∀ (list : List β) (obj : β) (i : Nat), insertLoop pos (list.map g) (g obj) i =
      (insertLoop (pos ∘ g) list obj i).map g := by
    intro list obj i
    induction i with
    | zero => rfl
    | succ i ih =>
      rw [insertLoop,insertLoop,getElem?_map]
      cases list[i]? with
      | none => rfl
      | some element =>
        simp only [apply_ite (map g),ih]
        simp
  have hi : ∀ (list : List β) (obj : β), insert pos (list.map g) (g obj) =
      (insert (pos ∘ g) list obj).map g := by
    intro list obj
    simp only [insert,length_map,apply_ite (map g),hl]
    rfl
  rw [insertAll,insertAll,foldl_map,show ([] : List α) = map g [] from rfl]
  generalize ([] : List β) = list
  induction indices generalizing list with
  | nil => rfl
  | cons index indices ih => rw [foldl_cons,foldl_cons,hi,ih]

variable (arr : List β)

theorem getOrder_map (i : Int) : getOrder pos (arr.map g) i = getOrder (pos ∘ g) arr i := by
  cases i with
  | negSucc n => rfl
  | ofNat n =>
    rw [getOrder,getOrder,getElem?_map]
    cases arr[n]? <;> rfl

theorem floorSearch_map (low high x : Int) :
    floorSearch pos (arr.map g) low high x = floorSearch (pos ∘ g) arr low high x := by
  induction hn : (high + 1 - low).toNat using Nat.strong_induction_on generalizing low high with
  | _ n ih =>
    rw [floorSearch.eq_def pos (arr.map g) low,floorSearch.eq_def (pos ∘ g) arr low]
    by_cases hl : low > high
    · rw [dif_pos hl,dif_pos hl]
    · have hlf := ih _ (by omega) low ((low + high) / 2 - 1) rfl
      have hr := ih _ (by omega) ((low + high) / 2 + 1) high rfl
      simp only [getOrder_map,hlf,hr]

theorem ceilSearch_map (low high x : Int) :
    ceilSearch pos (arr.map g) low high x = ceilSearch (pos ∘ g) arr low high x := by
  induction hn : (high + 1 - low).toNat using Nat.strong_induction_on generalizing low high with
  | _ n ih =>
    rw [ceilSearch.eq_def pos (arr.map g) low,ceilSearch.eq_def (pos ∘ g) arr low]
    by_cases hl : low > high
    · rw [dif_pos hl,dif_pos hl]
    · have hlf := ih _ (by omega) low ((low + high) / 2 - 1) rfl
      have hr := ih _ (by omega) ((low + high) / 2 + 1) high rfl
      simp only [getOrder_map,hlf,hr]

theorem subArray_map (start stop : Int) :
    subArray pos (arr.map g) start stop = (subArray (pos ∘ g) arr start stop).map g := by
  rw [subArray,subArray,floorSearch_map,ceilSearch_map,length_map]
  cases floorSearch (pos ∘ g) arr 0 (arr.length - 1) start with
  | error message => rfl
  | ok first =>
    cases ceilSearch (pos ∘ g) arr 0 (arr.length - 1) stop with
    | error message => rfl
    | ok last =>
      simp only [bind,Except.bind,subList]
      split_ifs <;> simp [pure,Except.pure]

end
end HetuCore.HeuristicIndex.SplitSearch
