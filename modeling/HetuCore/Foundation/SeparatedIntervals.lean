import Mathlib.Order.Cover
import Mathlib.Data.List.Pairwise

/-! Finite unions of closed intervals of a linear order, listed from left to right.
A list whose neighbours leave a gap is determined by the points it covers. -/
namespace HetuCore.Foundation
open List
variable {M : Type} [LinearOrder M]

/-- The point lies in one of the listed closed intervals. -/
def Covers (L : List (M × M)) (m : M) : Prop := ∃ r ∈ L, r.1 ≤ m ∧ m ≤ r.2

/-- Some point lies strictly between an upper end and the next lower end. -/
def Gap (b a : M) : Prop := ∃ m, b < m ∧ m < a

/-- Nonempty intervals from left to right with a gap between any two of them. -/
structure Separated (L : List (M × M)) : Prop where
  ordered : ∀ r ∈ L, r.1 ≤ r.2
  apart : L.Pairwise (fun r s => Gap r.2 s.1)

theorem Gap.lt {b a : M} (h : Gap b a) : b < a := by
  obtain ⟨m,hb,ha⟩ := h
  exact hb.trans ha

theorem not_gap_of_covBy {b a : M} (h : b ⋖ a) : ¬ Gap b a := by
  rintro ⟨m,hb,ha⟩
  exact h.2 hb ha

@[simp] theorem covers_nil (m : M) : ¬ Covers [] m := by simp [Covers]

@[simp] theorem covers_cons (r : M × M) (L : List (M × M)) (m : M) :
    Covers (r :: L) m ↔ (r.1 ≤ m ∧ m ≤ r.2) ∨ Covers L m := by simp [Covers]

@[simp] theorem covers_append (L K : List (M × M)) (m : M) : Covers (L ++ K) m ↔ Covers L m ∨ Covers K m := by
  simp only [Covers, mem_append, or_and_right, exists_or]

theorem covers_perm {L K : List (M × M)} (h : L.Perm K) (m : M) : Covers L m ↔ Covers K m := by
  simp only [Covers, h.mem_iff]

variable {r : M × M} {L : List (M × M)} {cur next : M × M} {rest : List (M × M)} {touch : M → M → Bool}

section
variable (h : Separated (r :: L))
include h

theorem Separated.tail : Separated L :=
  ⟨fun s hs => h.ordered s (mem_cons_of_mem _ hs), (pairwise_cons.mp h.apart).2⟩

theorem Separated.head_lt {m : M} (hm : Covers L m) : r.2 < m := by
  obtain ⟨s,hs,hl,_⟩ := hm
  exact ((pairwise_cons.mp h.apart).1 s hs).lt.trans_le hl

theorem Separated.head_le {m : M} (hm : Covers (r :: L) m) : r.1 ≤ m := by
  rcases (covers_cons r L m).mp hm with hm | hm
  · exact hm.1
  · exact (h.ordered r (mem_cons_self)).trans (h.head_lt hm).le

/-- No interval from the first lower end is covered beyond the first upper end. -/
theorem Separated.head_reach {b : M} (hb : r.1 ≤ b) (hc : ∀ m, r.1 ≤ m → m ≤ b → Covers (r :: L) m) : b ≤ r.2 := by
  by_contra hlt
  rw [not_le] at hlt
  obtain ⟨s,hs,hsl,hsh⟩ : Covers L b := by
    rcases (covers_cons r L b).mp (hc b hb le_rfl) with hin | hin
    · exact absurd hin.2 (not_le.mpr hlt)
    · exact hin
  cases L with
  | nil => cases hs
  | cons t K =>
    obtain ⟨m,hm,hmt⟩ := (pairwise_cons.mp h.apart).1 t (mem_cons_self)
    have hts : t.1 ≤ s.1 := h.tail.head_le ⟨s,hs,le_rfl,h.tail.ordered s hs⟩
    have hl := (h.ordered r (mem_cons_self)).trans hm.le
    rcases (covers_cons r (t :: K) m).mp (hc m hl ((hmt.le.trans hts).trans hsl)) with hin | hin
    · exact absurd hin.2 (not_le.mpr hm)
    · exact absurd (h.tail.head_le hin) (not_le.mpr hmt)

end

theorem Separated.gap_of_ne (h : Separated L) {r s : M × M} (hr : r ∈ L) (hs : s ∈ L) (hne : r ≠ s) :
    Gap r.2 s.1 ∨ Gap s.2 r.1 := by
  have hsy : Std.Symm (fun r s : M × M => Gap r.2 s.1 ∨ Gap s.2 r.1) := ⟨fun _ _ => .symm⟩
  have hp : L.Pairwise (fun r s => Gap r.2 s.1 ∨ Gap s.2 r.1) := h.apart.imp .inl
  exact hp.forall hr hs hne

theorem Separated.not_covers_of_covBy_low (h : Separated L) (hr : r ∈ L) {m : M} (hm : m ⋖ r.1) : ¬ Covers L m := by
  intro hc
  obtain ⟨s,hs,hl,hh⟩ := hc
  have hne : r ≠ s := fun he => absurd hm.1 (not_lt.mpr (he ▸ hl))
  obtain hg | hg := h.gap_of_ne hr hs hne
  · exact absurd (hm.1.trans_le (h.ordered r hr)) (not_lt.mpr (hl.trans' hg.lt.le))
  · obtain ⟨x,hx,hx'⟩ := hg
    exact hm.2 (hh.trans_lt hx) hx'

theorem Separated.not_covers_of_covBy_high (h : Separated L) (hr : r ∈ L) {m : M} (hm : r.2 ⋖ m) : ¬ Covers L m := by
  intro hc
  obtain ⟨s,hs,hl,hh⟩ := hc
  have hne : r ≠ s := fun he => absurd hm.1 (not_lt.mpr (he ▸ hh))
  obtain hg | hg := h.gap_of_ne hr hs hne
  · obtain ⟨x,hx,hx'⟩ := hg
    exact hm.2 hx (hx'.trans_le hl)
  · exact absurd (hm.1.trans_le' (h.ordered r hr)) (not_lt.mpr (hh.trans hg.lt.le))

private theorem head_eq {r s : M × M} {L K : List (M × M)} (hr : Separated (r :: L))
    (hs : Separated (s :: K)) (h : ∀ m, Covers (r :: L) m ↔ Covers (s :: K) m) : r = s := by
  have hro := hr.ordered r (mem_cons_self)
  have hso := hs.ordered s (mem_cons_self)
  have hl : r.1 = s.1 := by
    apply le_antisymm
    · exact hr.head_le ((h _).mpr ((covers_cons _ _ _).mpr (.inl ⟨le_rfl,hso⟩)))
    · exact hs.head_le ((h _).mp ((covers_cons _ _ _).mpr (.inl ⟨le_rfl,hro⟩)))
  have hh : r.2 = s.2 := by
    apply le_antisymm
    · refine hs.head_reach (hl ▸ hro) (fun m hm hb => (h m).mp ?_)
      exact (covers_cons _ _ _).mpr (.inl ⟨hl ▸ hm,hb⟩)
    · refine hr.head_reach (hl ▸ hso) (fun m hm hb => (h m).mpr ?_)
      exact (covers_cons _ _ _).mpr (.inl ⟨hl ▸ hm,hb⟩)
  exact Prod.ext hl hh

/-- Separated lists are canonical: equal unions come from equal lists. -/
theorem Separated.ext {L K : List (M × M)} (hL : Separated L) (hK : Separated K)
    (h : ∀ m, Covers L m ↔ Covers K m) : L = K := by
  induction L generalizing K with
  | nil =>
    cases K with
    | nil => rfl
    | cons s K => exact absurd ((h s.1).mpr ⟨s,mem_cons_self,le_rfl,hK.ordered s mem_cons_self⟩) (covers_nil _)
  | cons r L ih =>
    cases K with
    | nil => exact absurd ((h r.1).mp ⟨r,mem_cons_self,le_rfl,hL.ordered r mem_cons_self⟩) (covers_nil _)
    | cons s K =>
      obtain rfl := head_eq hL hK h
      have hr : ∀ m, Covers L m ↔ Covers K m := by
        intro m
        have hm := h m
        simp only [covers_cons] at hm
        constructor
        · intro hc
          exact (hm.mp (.inr hc)).resolve_left (fun hin => absurd hin.2 (not_le.mpr (hL.head_lt hc)))
        · intro hc
          exact (hm.mpr (.inr hc)).resolve_left (fun hin => absurd hin.2 (not_le.mpr (hK.head_lt hc)))
      rw [ih hL.tail hK.tail hr]

/-- One left-to-right pass that extends the current interval while the next one
meets it or touches it. -/
def coalesce (touch : M → M → Bool) : M × M → List (M × M) → List (M × M)
  | cur, [] => [cur]
  | cur, next :: rest =>
    if next.1 ≤ cur.2 ∨ touch cur.2 next.1 = true then
      coalesce touch (cur.1, max cur.2 next.2) rest
    else cur :: coalesce touch next rest

/-- Ends that touch leave no gap, and ends that are apart and do not touch leave one. -/
structure Touching (touch : M → M → Bool) (L : List (M × M)) : Prop where
  sound : ∀ r ∈ L, ∀ s ∈ L, touch r.2 s.1 = true → ¬ Gap r.2 s.1
  complete : ∀ r ∈ L, ∀ s ∈ L, r.2 < s.1 → touch r.2 s.1 = false → Gap r.2 s.1

private theorem span_mem_high (P : M → Prop) (h : ∀ r ∈ cur :: next :: rest, P r.2) :
    ∀ r ∈ (cur.1, max cur.2 next.2) :: rest, P r.2 := by
  intro r hr
  rcases mem_cons.mp hr with rfl | hr
  · rcases max_choice cur.2 next.2 with he | he <;> simp only [he]
    · exact h cur mem_cons_self
    · exact h next (by simp)
  · exact h r (by simp [hr])

private theorem span_mem_low (P : M → Prop) (h : ∀ r ∈ cur :: next :: rest, P r.1) :
    ∀ r ∈ (cur.1, max cur.2 next.2) :: rest, P r.1 := by
  intro r hr
  rcases mem_cons.mp hr with rfl | hr
  · exact h cur mem_cons_self
  · exact h r (by simp [hr])

private theorem Touching.span (h : Touching touch (cur :: next :: rest)) :
    Touching touch ((cur.1, max cur.2 next.2) :: rest) := by
  constructor
  · apply span_mem_high (P := fun b => ∀ s ∈ (cur.1, max cur.2 next.2) :: rest, touch b s.1 = true → ¬ Gap b s.1)
    intro r hr
    exact span_mem_low (fun a => touch r.2 a = true → ¬ Gap r.2 a) (h.sound r hr)
  · apply span_mem_high (P := fun b => ∀ s ∈ (cur.1, max cur.2 next.2) :: rest,
      b < s.1 → touch b s.1 = false → Gap b s.1)
    intro r hr
    exact span_mem_low (fun a => r.2 < a → touch r.2 a = false → Gap r.2 a) (h.complete r hr)

variable {cur : M × M}

private theorem Touching.tail (h : Touching touch (cur :: rest)) : Touching touch rest :=
  ⟨fun r hr s hs => h.sound r (by simp [hr]) s (by simp [hs]),
    fun r hr s hs => h.complete r (by simp [hr]) s (by simp [hs])⟩

/-- The span of two intervals that meet or touch adds no point to their union. -/
theorem span_covers (hlw : cur.1 ≤ next.1) (ht : next.1 ≤ cur.2 ∨ ¬ Gap cur.2 next.1) (m : M) :
    (cur.1 ≤ m ∧ m ≤ max cur.2 next.2) ↔ (cur.1 ≤ m ∧ m ≤ cur.2) ∨ (next.1 ≤ m ∧ m ≤ next.2) := by
  constructor
  · rintro ⟨hl,hm⟩
    by_cases hmb : m ≤ cur.2
    · exact .inl ⟨hl,hmb⟩
    · rw [not_le] at hmb
      refine .inr ⟨?_,(le_max_iff.mp hm).resolve_left (not_le.mpr hmb)⟩
      rcases ht with hle | hg
      · exact hle.trans hmb.le
      · by_contra hma
        exact hg ⟨m,hmb,not_le.mp hma⟩
  · rintro (⟨hl,hm⟩ | ⟨hl,hm⟩)
    · exact ⟨hl,hm.trans (le_max_left _ _)⟩
    · exact ⟨hlw.trans hl,hm.trans (le_max_right _ _)⟩

private theorem coalesce_low (hsr : (cur :: rest).Pairwise (fun r s => r.1 ≤ s.1))
    (hr : r ∈ coalesce touch cur rest) : cur.1 ≤ r.1 := by
  induction rest generalizing cur with
  | nil => exact (congrArg Prod.fst (mem_singleton.mp hr)).ge
  | cons next rest ih =>
    obtain ⟨hc,hrs⟩ := pairwise_cons.mp hsr
    rw [coalesce] at hr
    split at hr
    · have hs' : ((cur.1, max cur.2 next.2) :: rest).Pairwise (fun r s => r.1 ≤ s.1) :=
        pairwise_cons.mpr ⟨fun s hs => hc s (mem_cons_of_mem _ hs),(pairwise_cons.mp hrs).2⟩
      exact @ih (cur.1, max cur.2 next.2) hs' hr
    · rcases mem_cons.mp hr with rfl | hr
      · exact le_rfl
      · exact (hc next mem_cons_self).trans (ih hrs hr)

/-- Coalescing intervals sorted by lower end keeps their union and separates them. -/
theorem coalesce_spec (hsr : (cur :: rest).Pairwise (fun r s => r.1 ≤ s.1))
    (ho : ∀ r ∈ cur :: rest, r.1 ≤ r.2) (ht : Touching touch (cur :: rest)) :
    Separated (coalesce touch cur rest) ∧ ∀ m, Covers (coalesce touch cur rest) m ↔ Covers (cur :: rest) m := by
  induction rest generalizing cur with
  | nil => exact ⟨⟨ho,pairwise_singleton _ _⟩,fun m => .rfl⟩
  | cons next rest ih =>
    obtain ⟨hcr,hrs⟩ := pairwise_cons.mp hsr
    have hl := hcr next mem_cons_self
    rw [coalesce]
    split
    · rename_i hm
      have hs' : ((cur.1, max cur.2 next.2) :: rest).Pairwise (fun r s => r.1 ≤ s.1) :=
        pairwise_cons.mpr ⟨fun s hs => hcr s (mem_cons_of_mem _ hs),(pairwise_cons.mp hrs).2⟩
      have ho' : ∀ r ∈ (cur.1, max cur.2 next.2) :: rest, r.1 ≤ r.2 := by
        intro r hr
        rcases mem_cons.mp hr with rfl | hr
        · exact (ho cur mem_cons_self).trans (le_max_left _ _)
        · exact ho r (by simp [hr])
      obtain ⟨hs,hc⟩ := ih hs' ho' ht.span
      refine ⟨hs,fun m => ?_⟩
      have hsp := span_covers hl (hm.imp id (ht.sound cur mem_cons_self next (by simp))) m
      simp only [hc,covers_cons,hsp,or_assoc]
    · rename_i hm
      rw [not_or,not_le,Bool.not_eq_true] at hm
      obtain ⟨hs,hc⟩ := ih hrs (fun r hr => ho r (mem_cons_of_mem _ hr)) ht.tail
      have hg := ht.complete cur mem_cons_self next (by simp) hm.1 hm.2
      refine ⟨⟨?_,pairwise_cons.mpr ⟨?_,hs.apart⟩⟩,fun m => ?_⟩
      · intro r hr
        rcases mem_cons.mp hr with rfl | hr
        · exact ho r mem_cons_self
        · exact hs.ordered r hr
      · intro r hr
        obtain ⟨m,hb,ha⟩ := hg
        exact ⟨m,hb,ha.trans_le (coalesce_low hrs hr)⟩
      · simp only [covers_cons,hc]

def meet (r s : M × M) : M × M := (max r.1 s.1, min r.2 s.2)

/-- Two cursors over two lists: every meeting pair contributes its common part, and
the cursor whose interval ends first advances. -/
def meets : List (M × M) → List (M × M) → List (M × M)
  | [], _ => []
  | _ :: _, [] => []
  | r :: L, s :: K =>
    (if r.1 ≤ s.2 ∧ s.1 ≤ r.2 then [meet r s] else []) ++
      if r.2 ≤ s.2 then meets L (s :: K) else meets (r :: L) K
termination_by L K => L.length + K.length

private theorem meet_iff (r s : M × M) (m : M) : Covers (if r.1 ≤ s.2 ∧ s.1 ≤ r.2 then [meet r s] else []) m ↔
      (r.1 ≤ m ∧ m ≤ r.2) ∧ (s.1 ≤ m ∧ m ≤ s.2) := by
  split
  · simp only [covers_cons,covers_nil,meet,max_le_iff,le_min_iff]
    tauto
  · rename_i h
    simp only [covers_nil,false_iff]
    rintro ⟨⟨hr,hr'⟩,hs,hs'⟩
    exact h ⟨hr.trans hs',hs.trans hr'⟩

theorem meets_covers {L K : List (M × M)} (hL : Separated L) (hK : Separated K) (m : M) :
    Covers (meets L K) m ↔ Covers L m ∧ Covers K m := by
  induction L, K using meets.induct with
  | case1 K | case2 r L => simp [meets]
  | case3 r L s K ihL ihK =>
    rw [meets,covers_append,meet_iff]
    rcases le_or_gt r.2 s.2 with h | h
    · rw [if_pos h,ihL hL.tail hK]
      simp only [covers_cons]
      constructor
      · rintro (⟨hr,hs⟩ | ⟨hl,hk⟩)
        · exact ⟨.inl hr,.inl hs⟩
        · exact ⟨.inr hl,hk⟩
      · rintro ⟨hr | hl,hk⟩
        · rcases hk with hs | hk
          · exact .inl ⟨hr,hs⟩
          · exact absurd (hr.2.trans h) (not_le.mpr (hK.head_lt hk))
        · exact .inr ⟨hl,hk⟩
    · rw [if_neg (not_le.mpr h),ihK hL hK.tail]
      simp only [covers_cons]
      constructor
      · rintro (⟨hr,hs⟩ | ⟨hl,hk⟩)
        · exact ⟨.inl hr,.inl hs⟩
        · exact ⟨hl,.inr hk⟩
      · rintro ⟨hl,hs | hk⟩
        · rcases hl with hr | hl
          · exact .inl ⟨hr,hs⟩
          · exact absurd (hs.2.trans h.le) (not_le.mpr (hL.head_lt hl))
        · exact .inr ⟨hl,hk⟩

end HetuCore.Foundation
