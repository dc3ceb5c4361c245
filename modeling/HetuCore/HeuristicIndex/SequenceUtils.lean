import Mathlib.Order.Lattice
import Mathlib.Algebra.GroupWithZero.Nat
import Mathlib.Algebra.BigOperators.Group.List.Basic

/-! `SequenceUtils.intersect`: the common elements of increasing iterators. An iterator is the list of
what it still hands out. -/
namespace HetuCore.HeuristicIndex.SequenceUtils
open List Option

/-- A head taken from an iterator, and what is left of the iterator. -/
abbrev Cursor (T : Type) := T × List T

section
variable {T : Type} (cursors : List (Cursor T))

def heads : List T := cursors.map Prod.fst
def rests : List (List T) := cursors.map Prod.snd
def whole : List (List T) := cursors.map fun c => c.1 :: c.2

/-- How many elements the iterators still hand out. -/
def remaining (iterators : List (List T)) : Nat := (iterators.map length).sum

/-- The first heads; an exhausted iterator ends the search. -/
def takeHeads : List (List T) → Option (List (Cursor T))
  | [] => some []
  | [] :: _ => none
  | (head :: rest) :: iterators => (takeHeads iterators).map ((head,rest) :: ·)

variable {cursors : List (Cursor T)}

theorem remaining_set {i : Nat} {c d : Cursor T} (h : cursors[i]? = some c)
    (hlt : d.2.length < c.2.length) : remaining (rests (cursors.set i d)) < remaining (rests cursors) := by
  induction cursors generalizing i with
  | nil => cases h
  | cons e cursors ih =>
    cases i with
    | zero =>
      cases h
      simpa [remaining,rests] using hlt
    | succ i => simpa [remaining,rests] using ih h

variable {iterators : List (List T)}

theorem takeHeads_eq_some (h : takeHeads iterators = some cursors) : iterators = whole cursors := by
  induction iterators generalizing cursors with
  | nil =>
    cases h
    rfl
  | cons iterator iterators ih =>
    cases iterator with
    | nil => cases h
    | cons head rest =>
      obtain ⟨cursors,hc,rfl⟩ := map_eq_some_iff.mp h
      rw [ih hc]
      rfl

theorem takeHeads_eq_none (h : takeHeads iterators = none) : [] ∈ iterators := by
  induction iterators with
  | nil => cases h
  | cons iterator iterators ih =>
    cases iterator with
    | nil => exact mem_cons_self
    | cons head rest => exact mem_cons_of_mem _ (ih (map_eq_none_iff.mp h))

theorem remaining_whole (cursors : List (Cursor T)) : remaining (whole cursors) = remaining (rests cursors) + cursors.length := by
  induction cursors with
  | nil => rfl
  | cons c cursors ih =>
    simp only [remaining,whole,rests,map_cons,sum_cons,length_cons] at ih ⊢
    omega

end

variable {T : Type} [LinearOrder T]

def allEquals : List T → Option T
  | [] => none
  | current :: rest => if rest.all (fun value => decide (value = current)) then some current else none

/-- The scan over the heads for a smaller one. -/
def scanMin : List (T × Nat) → T × Nat → T × Nat
  | [], min => min
  | head :: heads, min => scanMin heads (if head.1 < min.1 then head else min)

/-- The loop of `search` on the heads taken so far: the least one is advanced until all are equal. -/
def searchLoop (cursors : List (Cursor T)) (minIn : Nat) : Option (T × List (List T)) :=
  match allEquals (heads cursors) with
  | some value => some (value,rests cursors)
  | none =>
    match _h : cursors[minIn]? with
    | some (_,head :: rest) =>
      searchLoop (cursors.set minIn (head,rest)) (scanMin (heads (cursors.set minIn (head,rest))).zipIdx (head,minIn)).2
    | _ => none
termination_by remaining (rests cursors)
decreasing_by exact remaining_set _h (by simp)

variable (iterators : List (List T))

/-- The next common element and what is left of the iterators. -/
def search : Option (T × List (List T)) :=
  match takeHeads iterators with
  | none => none
  | some [] => none
  | some (first :: cursors) =>
    searchLoop (first :: cursors) (scanMin (heads (first :: cursors)).zipIdx (first.1,0)).2

variable {cursors : List (Cursor T)} {left : List (List T)}

theorem remaining_searchLoop {minIn : Nat} {value : T}
    (h : searchLoop cursors minIn = some (value,left)) : remaining left ≤ remaining (rests cursors) := by
  induction cursors, minIn using searchLoop.induct with
  | case1 cursors minIn v hv =>
    rw [searchLoop,hv] at h
    obtain ⟨-,rfl⟩ := Prod.mk.inj (some.inj h)
    exact Nat.le_refl _
  | case2 cursors minIn hn a head rest hc ih =>
    rw [searchLoop,hn] at h
    rw [hc] at h
    exact Nat.le_trans (ih h) (Nat.le_of_lt (remaining_set (d := (head,rest)) hc (by simp)))
  | case3 cursors minIn hn hc =>
    rw [searchLoop,hn] at h
    dsimp only at h
    split at h
    · exact absurd ‹_› (hc _ _ _)
    · cases h

theorem remaining_search {iterators : List (List T)} {value : T}
    (h : search iterators = some (value,left)) : remaining left < remaining iterators := by
  rw [search] at h
  split at h
  · cases h
  · cases h
  · rename_i first cursors ht
    rw [takeHeads_eq_some ht,remaining_whole,length_cons]
    have := remaining_searchLoop h
    omega

/-- The elements that the iterators have in common, in order. -/
def intersect (iterators : List (List T)) : List T :=
  match _h : search iterators with
  | none => []
  | some (value,left) => value :: intersect left
termination_by remaining iterators
decreasing_by exact remaining_search _h

theorem scanMin_spec (heads : List (T × Nat)) (min : T × Nat) :
    scanMin heads min ∈ min :: heads ∧ ∀ head ∈ min :: heads, (scanMin heads min).1 ≤ head.1 := by
  induction heads generalizing min with
  | nil => simp [scanMin]
  | cons head heads ih =>
    rw [scanMin]
    by_cases hlt : head.1 < min.1
    · rw [if_pos hlt]
      obtain ⟨hm,hle⟩ := ih head
      refine ⟨mem_cons_of_mem _ hm,forall_mem_cons.mpr ⟨?_,hle⟩⟩
      exact (hle head mem_cons_self).trans hlt.le
    · rw [if_neg hlt]
      obtain ⟨hm,hle⟩ := ih min
      obtain ⟨hmn,hr⟩ := forall_mem_cons.mp hle
      refine ⟨?_,forall_mem_cons.mpr ⟨hmn,forall_mem_cons.mpr ⟨hmn.trans (not_lt.mp hlt),hr⟩⟩⟩
      rcases mem_cons.mp hm with h | h
      · rw [h]
        exact mem_cons_self
      · exact mem_cons_of_mem _ (mem_cons_of_mem _ h)

/-- The scan over the heads of the cursors finds a cursor with the least head. -/
theorem scanMin_heads {i : Nat} {c : Cursor T} (h : cursors[i]? = some c) :
    ∃ least, cursors[(scanMin (heads cursors).zipIdx (c.1,i)).2]? = some least ∧ ∀ d ∈ cursors, least.1 ≤ d.1 := by
  obtain ⟨hm,hle⟩ := scanMin_spec (heads cursors).zipIdx (c.1,i)
  have hat : ∀ p ∈ (c.1,i) :: (heads cursors).zipIdx, (heads cursors)[p.2]? = some p.1 := by
    refine forall_mem_cons.mpr ⟨by simp [heads,h],fun p hp => ?_⟩
    exact mem_zipIdx_iff_getElem?.mp hp
  have hf := hat _ hm
  rw [heads,getElem?_map] at hf
  obtain ⟨least,hl,hfs⟩ := map_eq_some_iff.mp hf
  refine ⟨least,hl,fun d hd => ?_⟩
  obtain ⟨j,hj⟩ := mem_iff_getElem?.mp hd
  rw [hfs]
  exact hle (d.1,j) (mem_cons_of_mem _ (mem_zipIdx_iff_getElem?.mpr (by simp [heads,hj])))

theorem allEquals_eq_some {values : List T} {v : T} (h : allEquals values = some v) : ∀ w ∈ values, w = v := by
  cases values with
  | nil => cases h
  | cons current rest =>
    rw [allEquals] at h
    split at h
    case isTrue ha =>
      cases h
      refine forall_mem_cons.mpr ⟨rfl,fun w hw => ?_⟩
      exact of_decide_eq_true (all_eq_true.mp ha w hw)
    case isFalse => cases h

theorem allEquals_eq_none {values : List T} (h : allEquals values = none) (hne : values ≠ []) (v : T) : ∃ w ∈ values, w ≠ v := by
  by_contra ha
  push Not at ha
  cases values with
  | nil => exact hne rfl
  | cons current rest =>
    rw [allEquals,if_pos] at h
    · cases h
    · refine all_eq_true.mpr fun w hw => decide_eq_true ?_
      exact (ha w (mem_cons_of_mem _ hw)).trans (ha current mem_cons_self).symm

/-- What the search answers on increasing iterators: the least common element and iterators that go on
behind it, or nothing if there is none. -/
def Finds : Option (T × List (List T)) → Prop
  | none => ∀ x, ¬ ∀ l ∈ iterators, x ∈ l
  | some (value,left) => left ≠ [] ∧ (∀ l ∈ left, (value :: l).Pairwise (· < ·)) ∧
      ∀ x, (∀ l ∈ iterators, x ∈ l) ↔ x = value ∨ ∀ l ∈ left, x ∈ l

/-- Advancing a least head that not all heads equal loses no common element. -/
theorem common_set {i : Nat} {c : Cursor T} (hc : cursors[i]? = some c)
    (hs : ∀ l ∈ whole cursors, l.Pairwise (· < ·)) (hm : ∀ d ∈ cursors, c.1 ≤ d.1) (hne : ∃ d ∈ cursors, d.1 ≠ c.1)
    (x : T) : (∀ l ∈ whole cursors, x ∈ l) ↔ ∀ l ∈ (whole cursors).set i c.2, x ∈ l := by
  have hat : (whole cursors)[i]? = some (c.1 :: c.2) := by simp [whole,hc]
  constructor
  · intro h l hl
    rcases mem_or_eq_of_mem_set hl with hl | rfl
    · exact h l hl
    · rcases mem_cons.mp (h _ (mem_of_getElem? hat)) with rfl | hx
      · obtain ⟨d,hd,hdc⟩ := hne
        have hw : d.1 :: d.2 ∈ whole cursors := mem_map_of_mem hd
        have hlt := lt_of_le_of_ne (hm d hd) hdc.symm
        rcases mem_cons.mp (h _ hw) with hx | hx
        · exact absurd hx.symm hdc
        · exact absurd (hlt.trans ((pairwise_cons.mp (hs _ hw)).1 _ hx)) (lt_irrefl _)
      · exact hx
  · intro h l hl
    obtain ⟨j,hj⟩ := mem_iff_getElem?.mp hl
    by_cases hij : i = j
    · subst hij
      have hi : i < (whole cursors).length := (List.getElem?_eq_some_iff.mp hj).1
      rw [← some.inj (hat.symm.trans hj)]
      exact mem_cons_of_mem _ (h c.2 (mem_of_getElem? (i := i) (by simp [List.getElem?_set_self hi])))
    · exact h l (mem_of_getElem? (i := j) (by rw [getElem?_set_ne hij,hj]))

theorem Finds.congr {a b : List (List T)} {answer : Option (T × List (List T))} (h : Finds a answer)
    (hi : ∀ x, (∀ l ∈ b, x ∈ l) ↔ ∀ l ∈ a, x ∈ l) : Finds b answer := by
  cases answer with
  | none => exact fun x hx => h x ((hi x).mp hx)
  | some found => exact ⟨h.1,h.2.1,fun x => (hi x).trans (h.2.2 x)⟩

theorem searchLoop_finds (cursors : List (Cursor T)) (minIn : Nat) (hne : cursors ≠ [])
    (hs : ∀ l ∈ whole cursors, l.Pairwise (· < ·)) (hm : ∃ c, cursors[minIn]? = some c ∧ ∀ d ∈ cursors, c.1 ≤ d.1) :
    Finds (whole cursors) (searchLoop cursors minIn) := by
  induction cursors, minIn using searchLoop.induct with
  | case1 cursors minIn v hv =>
    rw [searchLoop,hv]
    have hh : ∀ c ∈ cursors, c.1 = v := fun c hc => allEquals_eq_some hv _ (mem_map_of_mem hc)
    refine ⟨by simpa [rests] using hne,?_,fun x => ?_⟩
    · intro l hl
      obtain ⟨c,hc,rfl⟩ := mem_map.mp hl
      rw [← hh c hc]
      exact hs _ (mem_map_of_mem hc)
    · constructor
      · intro h
        refine or_iff_not_imp_left.mpr fun hxv l hl => ?_
        obtain ⟨c,hc,rfl⟩ := mem_map.mp hl
        refine (mem_cons.mp (h _ (mem_map_of_mem hc))).resolve_left fun hx => hxv ?_
        rw [hx,hh c hc]
      · intro h l hl
        obtain ⟨c,hc,rfl⟩ := mem_map.mp hl
        rcases h with rfl | h
        · rw [hh c hc]
          exact mem_cons_self
        · exact mem_cons_of_mem _ (h _ (mem_map_of_mem hc))
  | case2 cursors minIn hn a head rest hc ih =>
    obtain ⟨least,hls,hle⟩ := hm
    obtain rfl := some.inj (hls.symm.trans hc)
    have hwh : whole (cursors.set minIn (head,rest)) = (whole cursors).set minIn (head :: rest) := map_set
    have hln : (a :: head :: rest).Pairwise (· < ·) := hs _ (mem_map_of_mem (mem_of_getElem? hc))
    have hat : (cursors.set minIn (head,rest))[minIn]? = some (head,rest) :=
      List.getElem?_set_self (List.getElem?_eq_some_iff.mp hc).1
    rw [searchLoop,hn]
    rw [hc]
    refine (ih (ne_nil_of_mem (mem_of_getElem? hat)) ?_ (scanMin_heads hat)).congr fun x => ?_
    · intro l hl
      rw [hwh] at hl
      rcases mem_or_eq_of_mem_set hl with hl | rfl
      · exact hs l hl
      · exact (pairwise_cons.mp hln).2
    · rw [hwh]
      obtain ⟨w,hw,hwa⟩ := allEquals_eq_none hn (by simpa [heads] using hne) a
      obtain ⟨d,hd,rfl⟩ := mem_map.mp hw
      exact common_set hc hs hle ⟨d,hd,hwa⟩ x
  | case3 cursors minIn hn hc =>
    obtain ⟨⟨a,left⟩,hls,hle⟩ := hm
    obtain ⟨w,hw,hwa⟩ := allEquals_eq_none hn (by simpa [heads] using hne) a
    obtain ⟨d,hd,rfl⟩ := mem_map.mp hw
    cases left with
    | cons head rest => exact absurd hls (hc a head rest)
    | nil =>
      rw [searchLoop,hn]
      rw [hls]
      intro x hx
      have hi : minIn < (whole cursors).length := by
        rw [whole,length_map]
        exact (List.getElem?_eq_some_iff.mp hls).1
      exact absurd ((common_set hls hs hle ⟨d,hd,hwa⟩ x).mp hx []
        (mem_of_getElem? (List.getElem?_set_self hi))) not_mem_nil

theorem search_finds {iterators : List (List T)} (hne : iterators ≠ []) (hs : ∀ l ∈ iterators, l.Pairwise (· < ·)) :
    Finds iterators (search iterators) := by
  rw [search]
  split
  case h_1 ht => exact fun x hx => absurd (hx [] (takeHeads_eq_none ht)) not_mem_nil
  case h_2 ht => exact absurd (takeHeads_eq_some ht) hne
  case h_3 first cursors ht =>
    have hw := takeHeads_eq_some ht
    rw [hw] at hs ⊢
    exact searchLoop_finds _ _ (cons_ne_nil _ _) hs (scanMin_heads (i := 0) rfl)

/-- The intersection of increasing iterators is increasing and holds the common elements. -/
theorem intersect_spec (hne : iterators ≠ []) (hsr : ∀ l ∈ iterators, l.Pairwise (· < ·)) :
    (intersect iterators).Pairwise (· < ·) ∧ ∀ x, x ∈ intersect iterators ↔ ∀ l ∈ iterators, x ∈ l := by
  induction iterators using intersect.induct with
  | case1 iterators hn =>
    have hf := search_finds hne hsr
    rw [hn] at hf
    rw [intersect]
    split
    case h_1 => exact ⟨.nil,fun x => iff_of_false not_mem_nil (hf x)⟩
    case h_2 value left hs => rw [hn] at hs; cases hs
  | case2 iterators value left hs ih =>
    have hf := search_finds hne hsr
    rw [hs] at hf
    obtain ⟨hlf,hb,hc⟩ := hf
    obtain ⟨hp,hm⟩ := ih hlf fun l hl => (pairwise_cons.mp (hb l hl)).2
    rw [intersect]
    split
    case h_1 hn => rw [hn] at hs; cases hs
    case h_2 v l h =>
      obtain ⟨rfl,rfl⟩ := Prod.mk.inj (some.inj (h.symm.trans hs))
      refine ⟨pairwise_cons.mpr ⟨fun x hx => ?_,hp⟩,fun x => ?_⟩
      · obtain ⟨l,hl⟩ := exists_mem_of_ne_nil _ hlf
        exact (pairwise_cons.mp (hb l hl)).1 x ((hm x).mp hx l hl)
      · rw [mem_cons,hm,hc]

end HetuCore.HeuristicIndex.SequenceUtils
