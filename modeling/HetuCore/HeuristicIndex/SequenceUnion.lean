import HetuCore.HeuristicIndex.SequenceUtils
import Mathlib.Data.List.Induction

namespace HetuCore.HeuristicIndex.SequenceUtils
open List
variable {T : Type} [LinearOrder T]

/-- The iterator with the least next element leaves the queue. -/
def poll : List (Cursor T) → Option (Cursor T × List (Cursor T))
  | [] => none
  | c :: pq =>
    match poll pq with
    | none => some (c,[])
    | some (least,rest) => if least.1 < c.1 then some (least,c :: rest) else some (c,least :: rest)

variable (iterator : List T)

/-- An iterator goes back to the queue if it has a next element. -/
def add (pq : List (Cursor T)) : List (Cursor T) :=
  match iterator with
  | [] => pq
  | head :: rest => (head,rest) :: pq

variable {pq : List (Cursor T)}

theorem poll_eq_none (h : poll pq = none) : pq = [] := by
  cases pq with
  | nil => rfl
  | cons c pq =>
    rw [poll] at h
    split at h
    · cases h
    · split at h <;> cases h

variable {pq rest : List (Cursor T)} {c : Cursor T}

theorem poll_spec (h : poll pq = some (c,rest)) : (c :: rest).Perm pq ∧ ∀ d ∈ rest, c.1 ≤ d.1 := by
  induction pq generalizing c rest with
  | nil => cases h
  | cons d pq ih =>
    rw [poll] at h
    split at h
    · rename_i hn
      obtain ⟨rfl,rfl⟩ := Prod.mk.inj (Option.some.inj h)
      rw [poll_eq_none hn]
      exact ⟨.refl _,by simp⟩
    · rename_i least others hs
      obtain ⟨hp,hl⟩ := ih hs
      split at h
      · rename_i hlt
        obtain ⟨rfl,rfl⟩ := Prod.mk.inj (Option.some.inj h)
        exact ⟨(List.Perm.swap _ _ _).trans (hp.cons d),forall_mem_cons.mpr ⟨hlt.le,hl⟩⟩
      · rename_i hlt
        obtain ⟨rfl,rfl⟩ := Prod.mk.inj (Option.some.inj h)
        refine ⟨hp.cons d,forall_mem_cons.mpr ⟨not_lt.mp hlt,fun e he => ?_⟩⟩
        exact (not_lt.mp hlt).trans (hl e he)

omit [LinearOrder T] in
theorem remaining_add (pq : List (Cursor T)) :
    remaining (whole (add iterator pq)) = iterator.length + remaining (whole pq) := by
  cases iterator with
  | nil => simp [add]
  | cons head rest => simp [add,remaining,whole]

theorem remaining_poll (h : poll pq = some (c,rest)) :
    remaining (whole pq) = c.2.length + 1 + remaining (whole rest) := by
  have hp := (((poll_spec h).1.map fun c => c.1 :: c.2).map length).sum_eq
  rw [remaining,whole,← hp]
  simp [remaining,whole]

/-- Further copies of an element are passed over. -/
def skipEqual (next : T) (pq : List (Cursor T)) : List (Cursor T) :=
  match _h : poll pq with
  | none => []
  | some (it,rest) => if it.1 = next then skipEqual next (add it.2 rest) else it :: rest
termination_by remaining (whole pq)
decreasing_by
  rw [remaining_poll _h,remaining_add]
  omega

variable (next : T)

theorem skipEqual_empty (h : poll pq = none) : skipEqual next pq = [] := by
  rw [skipEqual]
  split
  · rfl
  · rename_i hs
    rw [h] at hs
    cases hs

theorem skipEqual_poll {it : Cursor T} (h : poll pq = some (it,rest)) :
    skipEqual next pq = if it.1 = next then skipEqual next (add it.2 rest) else it :: rest := by
  rw [skipEqual]
  split
  · rename_i hn
    rw [h] at hn
    cases hn
  · rename_i hs
    obtain ⟨rfl,rfl⟩ := Prod.mk.inj (Option.some.inj (h.symm.trans hs))
    rfl

theorem remaining_skipEqual (pq : List (Cursor T)) : remaining (whole (skipEqual next pq)) ≤ remaining (whole pq) := by
  induction pq using skipEqual.induct next with
  | case1 pq hn =>
    rw [skipEqual_empty next hn]
    exact Nat.zero_le _
  | case2 pq it rest hs he ih =>
    rw [skipEqual_poll next hs,if_pos he]
    rw [remaining_add] at ih
    rw [remaining_poll hs]
    omega
  | case3 pq it rest hs he =>
    rw [skipEqual_poll next hs,if_neg he,remaining_poll hs]
    simp [remaining,whole]

/-- The merged elements of the queue without repetition. -/
def mergeLoop (pq : List (Cursor T)) : List T :=
  match _h : poll pq with
  | none => []
  | some (curr,rest) => curr.1 :: mergeLoop (skipEqual curr.1 (add curr.2 rest))
termination_by remaining (whole pq)
decreasing_by
  have := remaining_skipEqual curr.1 (add curr.2 rest)
  rw [remaining_add] at this
  rw [remaining_poll _h]
  omega

variable (iterators : List (List T))

/-- Only iterators with a next element are queued. -/
def union : List T := mergeLoop (iterators.foldl (fun pq itr => add itr pq) [])

/-- The element is still to come in the queue. -/
def Pending (pq : List (Cursor T)) (x : T) : Prop := ∃ l ∈ whole pq, x ∈ l

def Increasing (pq : List (Cursor T)) : Prop := ∀ l ∈ whole pq, l.Pairwise (· < ·)

omit [LinearOrder T] in
theorem pending_add (pq : List (Cursor T)) (x : T) : Pending (add iterator pq) x ↔ x ∈ iterator ∨ Pending pq x := by
  cases iterator with
  | nil => simp [add]
  | cons head rest => simp [Pending,add,whole]

theorem increasing_add {iterator : List T} (hi : iterator.Pairwise (· < ·)) (h : Increasing pq) :
    Increasing (add iterator pq) := by
  cases iterator with
  | nil => exact h
  | cons head rest => exact forall_mem_cons.mpr ⟨hi,h⟩

theorem pending_poll (h : poll pq = some (c,rest)) (x : T) : Pending pq x ↔ x = c.1 ∨ Pending (add c.2 rest) x := by
  have hp : (whole (c :: rest)).Perm (whole pq) := (poll_spec h).1.map _
  rw [pending_add,Pending]
  simp only [← hp.mem_iff]
  simp [Pending,whole,or_assoc]

theorem increasing_poll (h : poll pq = some (c,rest)) (hpq : Increasing pq) :
    Increasing (add c.2 rest) ∧ ∀ x, Pending (add c.2 rest) x → c.1 ≤ x := by
  obtain ⟨hp,hls⟩ := poll_spec h
  have ha : Increasing (c :: rest) := fun l hl => hpq l ((hp.map _).mem_iff.mp hl)
  obtain ⟨hc,hr⟩ := forall_mem_cons.mp ha
  obtain ⟨hb,ht⟩ := pairwise_cons.mp hc
  refine ⟨increasing_add ht hr,fun x hx => ?_⟩
  rcases (pending_add c.2 rest x).mp hx with hx | ⟨l,hl,hx⟩
  · exact (hb x hx).le
  · obtain ⟨d,hd,rfl⟩ := mem_map.mp hl
    refine (hls d hd).trans ?_
    rcases mem_cons.mp hx with rfl | hx
    · exact le_rfl
    · exact ((pairwise_cons.mp (hr _ hl)).1 x hx).le

theorem skipEqual_spec (hpq : Increasing pq) (hn : ∀ x, Pending pq x → next ≤ x) :
    Increasing (skipEqual next pq) ∧ ∀ x, Pending (skipEqual next pq) x ↔ Pending pq x ∧ next < x := by
  induction pq using skipEqual.induct next with
  | case1 pq hnn =>
    rw [skipEqual_empty next hnn,poll_eq_none hnn]
    exact ⟨by simp [Increasing,whole],by simp [Pending,whole]⟩
  | case2 pq it rest hs he ih =>
    obtain ⟨hi,hb⟩ := increasing_poll hs hpq
    obtain ⟨hr,hm⟩ := ih hi fun x hx => hn x ((pending_poll hs x).mpr (.inr hx))
    rw [skipEqual_poll next hs,if_pos he]
    refine ⟨hr,fun x => (hm x).trans ?_⟩
    rw [pending_poll hs x]
    constructor
    · rintro ⟨hx,hlt⟩
      exact ⟨.inr hx,hlt⟩
    · rintro ⟨rfl | hx,hlt⟩
      · exact absurd he hlt.ne'
      · exact ⟨hx,hlt⟩
  | case3 pq it rest hs he =>
    have hpr : (whole (it :: rest)).Perm (whole pq) := (poll_spec hs).1.map _
    rw [skipEqual_poll next hs,if_neg he]
    refine ⟨fun l hl => hpq l (hpr.mem_iff.mp hl),fun x => ?_⟩
    have hp : Pending (it :: rest) x ↔ Pending pq x := by simp only [Pending,hpr.mem_iff]
    rw [hp,iff_self_and]
    -- the least element that is left is not `next`, so all are behind it
    intro hx
    have hit : next < it.1 := lt_of_le_of_ne (hn it.1 ((pending_poll hs _).mpr (.inl rfl))) (.symm he)
    rcases (pending_poll hs x).mp hx with rfl | hx
    · exact hit
    · exact hit.trans_le ((increasing_poll hs hpq).2 x hx)

/-- The merged queue is increasing and holds the elements of all its iterators. -/
theorem mergeLoop_spec (hpq : Increasing pq) :
    (mergeLoop pq).Pairwise (· < ·) ∧ ∀ x, x ∈ mergeLoop pq ↔ Pending pq x := by
  induction pq using mergeLoop.induct with
  | case1 pq hn =>
    have hm : mergeLoop pq = [] := by
      rw [poll_eq_none hn,mergeLoop]
      rfl
    rw [hm,poll_eq_none hn]
    exact ⟨.nil,by simp [Pending,whole]⟩
  | case2 pq curr rest hs ih =>
    obtain ⟨hi,hl⟩ := increasing_poll hs hpq
    obtain ⟨hsk,hb⟩ := skipEqual_spec curr.1 hi hl
    obtain ⟨hp,hmm⟩ := ih hsk
    have hm : mergeLoop pq = curr.1 :: mergeLoop (skipEqual curr.1 (add curr.2 rest)) := by
      rw [mergeLoop]
      split
      · rename_i hn
        rw [hs] at hn
        cases hn
      · rename_i h
        obtain ⟨rfl,rfl⟩ := Prod.mk.inj (Option.some.inj (hs.symm.trans h))
        rfl
    rw [hm]
    refine ⟨pairwise_cons.mpr ⟨fun x hx => ((hb x).mp ((hmm x).mp hx)).2,hp⟩,fun x => ?_⟩
    rw [mem_cons,hmm,hb,pending_poll hs]
    constructor
    · exact .imp_right And.left
    · rintro (rfl | hx)
      · exact .inl rfl
      · exact (eq_or_lt_of_le (hl x hx)).imp Eq.symm fun hlt => ⟨hx,hlt⟩

/-- The union of increasing iterators is increasing and holds the elements of all of them. -/
theorem union_spec (hs : ∀ l ∈ iterators, l.Pairwise (· < ·)) :
    (union iterators).Pairwise (· < ·) ∧ ∀ x, x ∈ union iterators ↔ ∃ l ∈ iterators, x ∈ l := by
  have hq : Increasing (iterators.foldl (fun pq itr => add itr pq) []) ∧
      ∀ x, Pending (iterators.foldl (fun pq itr => add itr pq) []) x ↔ ∃ l ∈ iterators, x ∈ l := by
    induction iterators using reverseRecOn with
    | nil => exact ⟨by simp [Increasing,whole],by simp [Pending,whole]⟩
    | append_singleton iterators iterator ih =>
      obtain ⟨hi,hm⟩ := ih fun l hl => hs l (mem_append_left _ hl)
      rw [foldl_append]
      refine ⟨increasing_add (hs iterator (by simp)) hi,fun x => (pending_add iterator _ x).trans ?_⟩
      rw [hm]
      simp only [mem_append,mem_singleton,or_and_right,exists_or,exists_eq_left,or_comm]
  obtain ⟨hp,hm⟩ := mergeLoop_spec hq.1
  exact ⟨hp,fun x => (hm x).trans (hq.2 x)⟩

end HetuCore.HeuristicIndex.SequenceUtils
