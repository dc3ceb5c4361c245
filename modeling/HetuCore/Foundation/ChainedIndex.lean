import HetuCore.Foundation.OpenAddressing

/-! An index of numbered items by key: an open addressing table holds one item of each key,
and links lead from it to the other items of that key. -/
namespace HetuCore.Foundation.ChainedIndex
open OpenAddressing List Function
variable {slots size : Nat}

structure Index (slots size : Nat) where
  heads : Fin slots → Option (Fin size)
  links : Fin size → Option (Fin size)

/-- Puts an item into a slot, in front of the item that is there. -/
def Index.put (s : Index slots size) (slot : Fin slots) (item : Fin size) : Index slots size where
  heads := update s.heads slot (some item)
  links := match s.heads slot with
    | none => s.links
    | some head => update s.links item (some head)

/-- Following the links from an item visits these items, one after the other, and then ends. -/
inductive Visits (links : Fin size → Option (Fin size)) : Option (Fin size) → List (Fin size) → Prop
  | done : Visits links none []
  | visit {item : Fin size} {items : List (Fin size)} : Visits links (links item) items →
      Visits links (some item) (item :: items)

/-- Items of one key have one home slot. An item need not have the key that it has itself
(the key of a NaN is no key). -/
structure Keyed (same : Fin size → Fin size → Prop) (home : Fin size → Fin slots) : Prop where
  symm : ∀ {a b}, same a b → same b a
  trans : ∀ {a b c}, same a b → same b c → same a c
  home_eq : ∀ {a b}, same a b → home a = home b

/-- The items are found under their keys: each key has one slot, and the links from it visit
the items of the key. -/
structure Indexed (same : Fin size → Fin size → Prop) (home : Fin size → Fin slots) (items : Set (Fin size))
    (s : Index slots size) : Prop where
  chained : Chained home s.heads
  distinct : ∀ {slot head slot' head'}, s.heads slot = some head → s.heads slot' = some head' →
    head' = head ∨ same head head' → slot' = slot
  complete : ∀ item ∈ items, ∃ slot head, s.heads slot = some head ∧ (item = head ∨ same head item)
  visits : ∀ slot head, s.heads slot = some head → ∃ visited, Visits s.links (some head) visited ∧ visited.Nodup ∧
    ∀ item, item ∈ visited ↔ item ∈ items ∧ (item = head ∨ same head item)
  unlinked : ∀ item, item ∉ items → s.links item = none

/-- The slot is the one of the key of the item: the used slots with an item of that key are
this slot or none. -/
def Owns (same : Fin size → Fin size → Prop) (s : Index slots size) (slot : Fin slots) (item : Fin size) : Prop :=
  ∀ slot' head, s.heads slot' = some head → (slot' = slot ↔ same head item)

variable {links : Fin size → Option (Fin size)} {visited : List (Fin size)} {start : Option (Fin size)}

theorem Visits.update {item : Fin size} (h : Visits links start visited)
    (hitem : item ∉ visited) (target : Option (Fin size)) : Visits (update links item target) start visited := by
  induction h with
  | done => exact .done
  | @visit first rest _ ih =>
    rw [mem_cons,not_or] at hitem
    refine .visit ?_
    rw [update_of_ne (Ne.symm hitem.1)]
    exact ih hitem.2

variable {head : Fin size}

theorem Visits.head_mem (h : Visits links (some head) visited) : head ∈ visited := by
  cases h
  exact mem_cons_self

section Put
variable {s : Index slots size} {slot : Fin slots} {item : Fin size}

theorem put_heads_self : (s.put slot item).heads slot = some item := update_self ..

theorem put_heads_of_ne {slot' : Fin slots} (h : slot' ≠ slot) : (s.put slot item).heads slot' = s.heads slot' :=
  update_of_ne h ..

theorem put_links_self (hu : s.links item = none) : (s.put slot item).links item = s.heads slot := by
  cases hs : s.heads slot with
  | none => simp [Index.put,hs,hu]
  | some head => simp [Index.put,hs]

theorem put_links_of_ne {other : Fin size} (h : other ≠ item) : (s.put slot item).links other = s.links other := by
  cases hs : s.heads slot with
  | none => simp [Index.put,hs]
  | some head => simp [Index.put,hs,h]

theorem Visits.put {visited : List (Fin size)} (h : Visits s.links start visited)
    (hitem : item ∉ visited) : Visits (s.put slot item).links start visited := by
  cases hs : s.heads slot with
  | none => simpa [Index.put,hs] using h
  | some head => simpa [Index.put,hs] using h.update hitem (some head)

end Put

namespace Indexed
variable {same : Fin size → Fin size → Prop} {home : Fin size → Fin slots} {items : Set (Fin size)}
  {s : Index slots size}

theorem empty : Indexed same home ∅ (⟨fun _ => none,fun _ => none⟩ : Index slots size) where
  chained := fun _ _ h => nomatch h
  distinct := fun h => nomatch h
  complete := fun _ h => h.elim
  visits := fun _ _ h => nomatch h
  unlinked := fun _ _ => rfl

theorem head_mem (h : Indexed same home items s) {slot : Fin slots}
    (hs : s.heads slot = some head) : head ∈ items := by
  obtain ⟨visited,hv,_,hm⟩ := h.visits slot head hs
  exact ((hm head).mp hv.head_mem).1

theorem exists_free (h : Indexed same home items s) (hs : size < slots) : ∃ slot, s.heads slot = none :=
  OpenAddressing.exists_free Fin.val hs (fun _ head _ => head.isLt)
    fun _ _ _ _ hsl hs' hl => h.distinct hs' hsl (.inl (Fin.ext hl))

variable {item : Fin size} {slot : Fin slots} (hky : Keyed same home) (h : Indexed same home items s)
  (hitem : item ∉ items) (howns : Owns same s slot item)
include hky h hitem howns

theorem put_distinct {left right : Fin slots} {a b : Fin size} (ha : (s.put slot item).heads left = some a)
    (hb : (s.put slot item).heads right = some b) (hab : b = a ∨ same a b) : right = left := by
  by_cases hl : left = slot
  · subst hl
    obtain rfl := Option.some.inj (put_heads_self.symm.trans ha)
    by_contra hr
    rw [put_heads_of_ne hr] at hb
    rcases hab with rfl | hab
    · exact hitem (h.head_mem hb)
    · exact hr ((howns right b hb).mpr (hky.symm hab))
  · rw [put_heads_of_ne hl] at ha
    by_cases hr : right = slot
    · subst hr
      obtain rfl := Option.some.inj (put_heads_self.symm.trans hb)
      rcases hab with rfl | hab
      · exact absurd (h.head_mem ha) hitem
      · exact absurd ((howns left a ha).mpr hab) hl
    · rw [put_heads_of_ne hr] at hb
      exact h.distinct ha hb hab

theorem put_complete {other : Fin size} (ho : other ∈ insert item items) :
    ∃ slot' head, (s.put slot item).heads slot' = some head ∧ (other = head ∨ same head other) := by
  rcases ho with rfl | ho
  · exact ⟨slot,other,put_heads_self,.inl rfl⟩
  obtain ⟨slot',head,hs',hk⟩ := h.complete other ho
  by_cases hp : slot' = slot
  · have hs := hky.symm ((howns slot' head hs').mp hp)
    refine ⟨slot,item,put_heads_self,.inr ?_⟩
    rcases hk with rfl | hk
    · exact hs
    · exact hky.trans hs hk
  · exact ⟨slot',head,(put_heads_of_ne hp).trans hs',hk⟩

theorem put_visits_self : ∃ visited, Visits (s.put slot item).links (some item) visited ∧ visited.Nodup ∧
    ∀ other, other ∈ visited ↔ other ∈ insert item items ∧ (other = item ∨ same item other) := by
  obtain ⟨behind,hv,hn,hm⟩ : ∃ behind, Visits s.links (s.heads slot) behind ∧ behind.Nodup ∧
      ∀ other, other ∈ behind ↔ other ∈ items ∧ same item other := by
    cases hsl : s.heads slot with
    | none =>
      refine ⟨[],.done,nodup_nil,fun other => iff_of_false not_mem_nil ?_⟩
      rintro ⟨ho,hs⟩
      obtain ⟨slot',head,hs',hk⟩ := h.complete other ho
      have hh : same head item := by
        rcases hk with rfl | hk
        · exact hky.symm hs
        · exact hky.trans hk (hky.symm hs)
      obtain rfl := (howns slot' head hs').mpr hh
      rw [hsl] at hs'
      cases hs'
    | some head =>
      obtain ⟨behind,hv,hn,hm⟩ := h.visits slot head hsl
      have hs : same head item := (howns slot head hsl).mp rfl
      refine ⟨behind,hv,hn,fun other => (hm other).trans (and_congr_right fun _ => ?_)⟩
      constructor
      · rintro (rfl | ho)
        · exact hky.symm hs
        · exact hky.trans (hky.symm hs) ho
      · exact fun ho => .inr (hky.trans hs ho)
  have hnw : item ∉ behind := fun hin => hitem ((hm item).mp hin).1
  refine ⟨item :: behind,.visit ?_,hn.cons hnw,fun other => ?_⟩
  · rw [put_links_self (h.unlinked item hitem)]
    exact hv.put hnw
  · rw [mem_cons,hm]
    by_cases ho : other = item
    · simp [ho]
    · simp [ho]

theorem put_visits {slot' : Fin slots} (hs' : (s.put slot item).heads slot' = some head) :
    ∃ visited, Visits (s.put slot item).links (some head) visited ∧ visited.Nodup ∧
      ∀ other, other ∈ visited ↔ other ∈ insert item items ∧ (other = head ∨ same head other) := by
  by_cases hp : slot' = slot
  · subst hp
    obtain rfl := Option.some.inj (put_heads_self.symm.trans hs')
    exact put_visits_self hky h hitem howns
  · rw [put_heads_of_ne hp] at hs'
    obtain ⟨visited,hv,hn,hm⟩ := h.visits slot' head hs'
    refine ⟨visited,hv.put fun hin => hitem ((hm item).mp hin).1,hn,fun other => ?_⟩
    rw [hm]
    refine and_congr_left fun ho => ⟨.inr,fun hin => hin.resolve_left ?_⟩
    -- the new item has the key of its own slot, not of this one
    rintro rfl
    rcases ho with rfl | ho
    · exact hitem (h.head_mem hs')
    · exact hp ((howns slot' head hs').mpr ho)

theorem put (hr : Run s.heads (home item) slot) : Indexed same home (insert item items) (s.put slot item) where
  chained := h.chained.update hr
  distinct := put_distinct hky h hitem howns
  complete := fun _ => put_complete hky h hitem howns
  visits := fun _ _ => put_visits hky h hitem howns
  unlinked := by
    intro other ho
    rw [Set.mem_insert_iff,not_or] at ho
    rw [put_links_of_ne ho.1]
    exact h.unlinked other ho.2

omit howns

variable {wanted : Fin size → Bool}

/-- A walk for the key of a new item ends, and the item may be put where it ends. -/
theorem exists_put (hsz : size < slots)
    (hw : ∀ slot head, s.heads slot = some head → (wanted head ↔ same head item)) :
    ∃ slot, probe s.heads wanted slots (home item) = some slot ∧
      Indexed same home (insert item items) (s.put slot item) := by
  have hfr := h.exists_free hsz
  by_cases hf : ∃ slot head, s.heads slot = some head ∧ same head item
  · obtain ⟨slot,head,hs,hsm⟩ := hf
    have hu : ∀ other he', s.heads other = some he' → same he' item → other = slot := fun _ _ ho hsm' =>
      h.distinct hs ho (.inr (hky.trans hsm (hky.symm hsm')))
    have hh := hky.home_eq hsm
    refine ⟨slot,?_,h.put hky hitem (fun slot' he' hs' => ⟨?_,hu slot' he' hs'⟩) (hh ▸ h.chained slot head hs)⟩
    · rw [← hh]
      exact h.chained.probe_found hfr hs ((hw slot head hs).mpr hsm)
        fun other he' ho hht => hu other he' ho ((hw other he' ho).mp hht)
    · rintro rfl
      obtain rfl := Option.some.inj (hs.symm.trans hs')
      exact hsm
  · have ha : ∀ slot head, s.heads slot = some head → ¬ same head item := fun slot head hs hsm =>
      hf ⟨slot,head,hs,hsm⟩
    obtain ⟨slot,hp,hs,hr⟩ := probe_absent hfr
      (fun slot head hs => (hw slot head hs).not.mpr (ha slot head hs)) (home item)
    refine ⟨slot,hp,h.put hky hitem (fun slot' head hs' => iff_of_false ?_ (ha slot' head hs')) hr⟩
    rintro rfl
    rw [hs] at hs'
    cases hs'

omit hitem

theorem lookup {hit : Fin size → Prop} {start : Fin slots} (hsz : size < slots)
    (hsm : ∀ {a b}, hit a → (hit b ↔ same a b)) (hhm : ∀ {a}, hit a → home a = start)
    (hw : ∀ slot head, s.heads slot = some head → (wanted head ↔ hit head)) :
    ∃ slot visited, probe s.heads wanted slots start = some slot ∧ Visits s.links (s.heads slot) visited ∧
      visited.Nodup ∧ ∀ item, item ∈ visited ↔ item ∈ items ∧ hit item := by
  have hfr := h.exists_free hsz
  by_cases hf : ∃ slot head, s.heads slot = some head ∧ hit head
  · obtain ⟨slot,head,hs,hh⟩ := hf
    obtain ⟨visited,hv,hn,hm⟩ := h.visits slot head hs
    refine ⟨slot,visited,?_,hs ▸ hv,hn,fun item => (hm item).trans (and_congr_right fun _ => ?_)⟩
    · rw [← hhm hh]
      refine h.chained.probe_found hfr hs ((hw slot head hs).mpr hh) fun other he' ho hh' => ?_
      exact h.distinct hs ho (.inr ((hsm hh).mp ((hw other he' ho).mp hh')))
    · rw [hsm hh]
      refine or_iff_right_of_imp ?_
      rintro rfl
      exact (hsm hh).mp hh
  · have ha : ∀ slot head, s.heads slot = some head → ¬ hit head := fun slot head hs hh =>
      hf ⟨slot,head,hs,hh⟩
    obtain ⟨slot,hp,hs,-⟩ := probe_absent hfr (fun slot head hs => (hw slot head hs).not.mpr (ha slot head hs)) start
    refine ⟨slot,[],hp,hs ▸ .done,nodup_nil,fun item => iff_of_false not_mem_nil ?_⟩
    rintro ⟨hitem,hh⟩
    obtain ⟨slot',head,hs',hk⟩ := h.complete item hitem
    refine ha slot' head hs' ?_
    rcases hk with rfl | hk
    · exact hh
    · exact (hsm hh).mpr (hky.symm hk)

end Indexed
end HetuCore.Foundation.ChainedIndex
