import Mathlib.Order.Cover
import Mathlib.Data.Prod.Lex
import Mathlib.Tactic.Linarith

/-! Points of the continuous value space of an orderable type. A marker is just
below, exactly at, or just above a value, or unbounded at one of the two ends. -/
namespace HetuCore.Predicate

inductive Bound where
  | below | exactly | above
  deriving DecidableEq, Repr

def Bound.rank : Bound → Nat
  | .below => 0 | .exactly => 1 | .above => 2

/-- An absent value with bound ABOVE is lower unbounded, with bound BELOW upper
unbounded. The constructor of the source refuses an absent value with EXACTLY. -/
@[ext] structure Marker (α : Type) where
  valueBlock : Option α
  bound : Bound
  valid : valueBlock = none → bound ≠ .exactly

namespace Marker
variable {α : Type}

/-- The public constructor, with its refusal. -/
def new (valueBlock : Option α) (bound : Bound) : Except String (Marker α) :=
  if h : valueBlock = none → bound ≠ .exactly then .ok ⟨valueBlock,bound,h⟩
  else .error "Can not be equal to unbounded"

def upperUnbounded : Marker α := ⟨none,.below,fun _ => nofun⟩
def lowerUnbounded : Marker α := ⟨none,.above,fun _ => nofun⟩
def above (value : α) : Marker α := ⟨some value,.above,nofun⟩
def exactly (value : α) : Marker α := ⟨some value,.exactly,nofun⟩
def below (value : α) : Marker α := ⟨some value,.below,nofun⟩

def isUpperUnbounded (m : Marker α) : Bool := m.valueBlock.isNone && m.bound == .below
def isLowerUnbounded (m : Marker α) : Bool := m.valueBlock.isNone && m.bound == .above

def getValue (m : Marker α) : Except String α :=
  match m.valueBlock with
  | some value => .ok value
  | none => .error "No value to get"

def greaterAdjacent (m : Marker α) : Except String (Marker α) :=
  if m.valueBlock.isNone then .error "No marker adjacent to unbounded"
  else match m.bound with
    | .below => new m.valueBlock .exactly
    | .exactly => new m.valueBlock .above
    | .above => .error "No greater marker adjacent to an ABOVE bound"

def lesserAdjacent (m : Marker α) : Except String (Marker α) :=
  if m.valueBlock.isNone then .error "No marker adjacent to unbounded"
  else match m.bound with
    | .below => .error "No lesser marker adjacent to a BELOW bound"
    | .exactly => new m.valueBlock .below
    | .above => new m.valueBlock .exactly

section Order
variable [LinearOrder α]

def isAdjacent (m o : Marker α) : Bool :=
  if m.isUpperUnbounded || m.isLowerUnbounded || o.isUpperUnbounded || o.isLowerUnbounded then false
  else match m.valueBlock, o.valueBlock with
    | some v, some w =>
      if compare v w ≠ .eq then false
      else (m.bound == .exactly && o.bound != .exactly) || (m.bound != .exactly && o.bound == .exactly)
    | _, _ => false

/-- The comparison of the source; only the sign of its result is ever used. -/
def compareTo (m o : Marker α) : Ordering :=
  if m.isUpperUnbounded then if o.isUpperUnbounded then .eq else .gt
  else if m.isLowerUnbounded then if o.isLowerUnbounded then .eq else .lt
  else if o.isUpperUnbounded then .lt
  else if o.isLowerUnbounded then .gt
  else match m.valueBlock, o.valueBlock with
    | some v, some w =>
      match compare v w with
      | .eq =>
        if m.bound = o.bound then .eq
        else if m.bound = .below then .lt
        else if m.bound = .above then .gt
        else if o.bound = .below then .gt else .lt
      | c => c
    | _, _ => .eq

def min (m o : Marker α) : Marker α := if (m.compareTo o).isLE then m else o
def max (m o : Marker α) : Marker α := if (m.compareTo o).isGE then m else o

end Order

variable (m : Marker α)

theorem shape : m = lowerUnbounded ∨ m = upperUnbounded ∨ ∃ v b, m = ⟨some v,b,nofun⟩ := by
  obtain ⟨v,b,h⟩ := m
  cases v with
  | none =>
    cases b with
    | below => exact .inr (.inl rfl)
    | exactly => exact absurd rfl (h rfl)
    | above => exact .inl rfl
  | some v => exact .inr (.inr ⟨v,b,rfl⟩)

theorem isLowerUnbounded_iff : m.isLowerUnbounded = true ↔ m = lowerUnbounded := by
  rcases shape m with rfl | rfl | ⟨v,b,rfl⟩ <;>
    simp [isLowerUnbounded,lowerUnbounded,upperUnbounded]

theorem isUpperUnbounded_iff : m.isUpperUnbounded = true ↔ m = upperUnbounded := by
  rcases shape m with rfl | rfl | ⟨v,b,rfl⟩ <;>
    simp [isUpperUnbounded,lowerUnbounded,upperUnbounded]

/-- The position of a marker in the lexicographic order of values and bounds. -/
def key (m : Marker α) : WithBot (WithTop (α ×ₗ Nat)) :=
  match m.valueBlock with
  | none => if m.bound = .above then ⊥ else (⊤ : WithTop (α ×ₗ Nat))
  | some v => ((toLex (v,m.bound.rank) : α ×ₗ Nat) : WithTop (α ×ₗ Nat))

variable (v : α) (b : Bound)

theorem key_some (h) : key ⟨some v,b,h⟩ = (((toLex (v,b.rank) : α ×ₗ Nat) : WithTop (α ×ₗ Nat)) : WithBot _) := rfl

theorem Bound.rank_injective : Function.Injective Bound.rank := by
  intro b c h
  cases b <;> cases c <;> simp_all [Bound.rank]

theorem key_injective : Function.Injective (key : Marker α → _) := by
  intro m o he
  obtain rfl | rfl | ⟨v,b,rfl⟩ := shape m
  · obtain rfl | rfl | ⟨w,c,rfl⟩ := shape o
    · rfl
    · exact absurd he WithBot.bot_ne_coe
    · exact absurd he WithBot.bot_ne_coe
  · obtain rfl | rfl | ⟨w,c,rfl⟩ := shape o
    · exact absurd he WithBot.coe_ne_bot
    · rfl
    · exact absurd (WithBot.coe_injective he) WithTop.top_ne_coe
  · obtain rfl | rfl | ⟨w,c,rfl⟩ := shape o
    · exact absurd he WithBot.coe_ne_bot
    · exact absurd (WithBot.coe_injective he) WithTop.coe_ne_top
    · obtain ⟨hv,hb⟩ := Prod.mk.inj (toLex.injective (WithTop.coe_injective (WithBot.coe_injective he)))
      have hbn : b = c := Bound.rank_injective hb
      subst hv hbn
      rfl

section Order
variable [LinearOrder α]

instance : LinearOrder (Marker α) := LinearOrder.lift' key key_injective

variable (m o : Marker α)

theorem lt_iff_key : m < o ↔ key m < key o := Iff.rfl

theorem lowerUnbounded_le : lowerUnbounded ≤ m := (bot_le : (⊥ : WithBot (WithTop (α ×ₗ Nat))) ≤ key m)

theorem le_upperUnbounded : m ≤ upperUnbounded :=
  (le_top : key m ≤ (⊤ : WithBot (WithTop (α ×ₗ Nat))))

theorem lowerUnbounded_lt_some (h) : lowerUnbounded < (⟨some v,b,h⟩ : Marker α) :=
  WithBot.bot_lt_coe _

theorem some_lt_upperUnbounded (h) : (⟨some v,b,h⟩ : Marker α) < upperUnbounded :=
  WithBot.coe_lt_coe.mpr (WithTop.coe_lt_top _)

theorem lowerUnbounded_lt_upperUnbounded : (lowerUnbounded : Marker α) < upperUnbounded :=
  WithBot.bot_lt_coe _

theorem some_lt_some {v w : α} {b c : Bound} {h k} :
    (⟨some v,b,h⟩ : Marker α) < ⟨some w,c,k⟩ ↔ v < w ∨ v = w ∧ b.rank < c.rank := by
  rw [lt_iff_key,key_some,key_some,WithBot.coe_lt_coe,WithTop.coe_lt_coe,Prod.Lex.toLex_lt_toLex]

theorem exactly_le_exactly {v w : α} : exactly v ≤ exactly w ↔ v ≤ w := by
  rw [← not_lt,← not_lt]
  exact not_congr (some_lt_some.trans (by simp))

theorem value_le {m o : Marker α} {v w : α} (hm : m.valueBlock = some v) (ho : o.valueBlock = some w) (h : m ≤ o) : v ≤ w := by
  obtain ⟨_,b,_⟩ := m
  obtain ⟨_,c,_⟩ := o
  cases hm
  cases ho
  exact not_lt.mp fun hlt => not_lt.mpr h (some_lt_some.mpr (.inl hlt))

private theorem compareTo_some (w : α) (b c : Bound) (h k) :
    compareTo ⟨some v,b,h⟩ ⟨some w,c,k⟩ = (compare v w).then (compare b.rank c.rank) := by
  have he : compareTo ⟨some v,b,h⟩ ⟨some w,c,k⟩ = match compare v w with
      | .eq => if b = c then .eq else if b = .below then .lt else if b = .above then .gt
          else if c = .below then .gt else .lt
      | x => x := rfl
  rw [he]
  cases compare v w <;> cases b <;> cases c <;> rfl

/-- The comparison of the source is the linear order of markers. -/
theorem compareTo_cases :
    (m.compareTo o = .lt ∧ m < o) ∨ (m.compareTo o = .eq ∧ m = o) ∨ (m.compareTo o = .gt ∧ o < m) := by
  rcases shape m with rfl | rfl | ⟨v,b,rfl⟩ <;> rcases shape o with rfl | rfl | ⟨w,c,rfl⟩
  · exact .inr (.inl ⟨rfl,rfl⟩)
  · exact .inl ⟨rfl,lowerUnbounded_lt_upperUnbounded⟩
  · exact .inl ⟨rfl,lowerUnbounded_lt_some w c _⟩
  · exact .inr (.inr ⟨rfl,lowerUnbounded_lt_upperUnbounded⟩)
  · exact .inr (.inl ⟨rfl,rfl⟩)
  · exact .inr (.inr ⟨rfl,some_lt_upperUnbounded w c _⟩)
  · exact .inr (.inr ⟨rfl,lowerUnbounded_lt_some v b _⟩)
  · exact .inl ⟨rfl,some_lt_upperUnbounded v b _⟩
  · simp only [compareTo_some,some_lt_some]
    rcases lt_trichotomy v w with hv | rfl | hv
    · exact .inl ⟨by rw [compare_lt_iff_lt.mpr hv]; rfl,.inl hv⟩
    · cases b <;> cases c <;> simp [Bound.rank] <;> rfl
    · exact .inr (.inr ⟨by rw [compare_gt_iff_gt.mpr hv]; rfl,.inl hv⟩)

@[simp] theorem compareTo_isLE : (m.compareTo o).isLE = decide (m ≤ o) := by
  rcases compareTo_cases m o with ⟨h,hm⟩ | ⟨h,rfl⟩ | ⟨h,hm⟩ <;> rw [h]
  · exact (decide_eq_true hm.le).symm
  · exact (decide_eq_true le_rfl).symm
  · exact (decide_eq_false (not_le.mpr hm)).symm

@[simp] theorem compareTo_isGE : (m.compareTo o).isGE = decide (o ≤ m) := by
  rcases compareTo_cases m o with ⟨h,hm⟩ | ⟨h,rfl⟩ | ⟨h,hm⟩ <;> rw [h]
  · exact (decide_eq_false (not_le.mpr hm)).symm
  · exact (decide_eq_true le_rfl).symm
  · exact (decide_eq_true hm.le).symm

variable {m : Marker α} {o : Marker α}

theorem compareTo_ne_gt : m.compareTo o ≠ .gt ↔ m ≤ o := by
  rcases compareTo_cases m o with ⟨h,hm⟩ | ⟨h,rfl⟩ | ⟨h,hm⟩ <;> simp [h]
  · exact hm.le
  · exact hm

@[simp] theorem min_eq : Marker.min m o = m ⊓ o := by
  simp only [Marker.min,compareTo_isLE,decide_eq_true_eq]
  rfl

@[simp] theorem max_eq : Marker.max m o = m ⊔ o := by
  simp only [Marker.max,compareTo_isGE,decide_eq_true_eq]
  rcases le_total o m with h | h
  · rw [if_pos h,sup_eq_left.mpr h]
  · rw [sup_eq_right.mpr h]
    split
    · exact le_antisymm h ‹_›
    · rfl

/-- Neighbouring bounds at one value have no marker between them. -/
theorem some_covBy {v : α} {b c : Bound} {h k} (hr : c.rank = b.rank + 1) :
    (⟨some v,b,h⟩ : Marker α) ⋖ ⟨some v,c,k⟩ := by
  refine ⟨some_lt_some.mpr (.inr ⟨rfl,by omega⟩),?_⟩
  intro m hb hc
  rcases shape m with rfl | rfl | ⟨w,d,rfl⟩
  · exact absurd hb (not_lt.mpr (lowerUnbounded_le _))
  · exact absurd hc (not_lt.mpr (le_upperUnbounded _))
  · rw [some_lt_some] at hb hc
    rcases hb with hb | ⟨rfl,hb⟩
    · rcases hc with hc | ⟨rfl,hc⟩
      · exact absurd hc (not_lt.mpr hb.le)
      · exact absurd hb (lt_irrefl _)
    · rcases hc with hc | ⟨_,hc⟩
      · exact absurd hc (lt_irrefl _)
      · omega

/-- Adjacent ends of two ranges leave no marker between them. -/
theorem isAdjacent_covBy (hm : m.bound ≠ .above) (ho : o.bound ≠ .below) (h : m.isAdjacent o = true) : m ⋖ o := by
  rcases shape m with rfl | rfl | ⟨v,b,rfl⟩
  · cases h
  · cases h
  rcases shape o with rfl | rfl | ⟨w,c,rfl⟩
  · cases h
  · cases h
  rcases eq_or_ne v w with rfl | hv
  · cases b <;> cases c <;>
      simp_all [isAdjacent]
    · exact some_covBy rfl
    · exact some_covBy rfl
  · simp [isAdjacent,hv] at h

/-- Ends of two ranges that are apart and not adjacent leave a marker between them. -/
theorem exists_between_of_not_isAdjacent (hm : m.bound ≠ .above)
    (ho : o.bound ≠ .below) (hlt : m < o) (h : m.isAdjacent o = false) : ∃ x, m < x ∧ x < o := by
  rcases shape m with rfl | rfl | ⟨v,b,rfl⟩
  · exact absurd rfl hm
  · exact absurd hlt (not_lt.mpr (le_upperUnbounded _))
  rcases shape o with rfl | rfl | ⟨w,c,rfl⟩
  · exact absurd hlt (not_lt.mpr (lowerUnbounded_le _))
  · exact absurd rfl ho
  rcases some_lt_some.mp hlt with hv | ⟨rfl,hr⟩
  · refine ⟨above v,some_lt_some.mpr (.inr ⟨rfl,?_⟩),some_lt_some.mpr (.inl hv)⟩
    cases b <;> simp_all [Bound.rank]
  · cases b <;> cases c <;> simp_all [isAdjacent,isUpperUnbounded,isLowerUnbounded]
    exact ⟨exactly v,some_lt_some.mpr (.inr ⟨rfl,by decide⟩),some_lt_some.mpr (.inr ⟨rfl,by decide⟩)⟩

/-- Above a bounded upper end of a range the source finds the next marker. -/
theorem greaterAdjacent_spec (hm : m.bound ≠ .above) (hu : m ≠ upperUnbounded) :
    ∃ o, m.greaterAdjacent = .ok o ∧ m ⋖ o ∧ o.bound ≠ .below := by
  rcases shape m with rfl | rfl | ⟨v,b,rfl⟩
  · exact absurd rfl hm
  · exact absurd rfl hu
  cases b with
  | below => exact ⟨exactly v,rfl,some_covBy rfl,nofun⟩
  | exactly => exact ⟨above v,rfl,some_covBy rfl,nofun⟩
  | above => exact absurd rfl hm

/-- Below a bounded lower end of a range the source finds the next marker. -/
theorem lesserAdjacent_spec (hm : m.bound ≠ .below) (hl : m ≠ lowerUnbounded) :
    ∃ o, m.lesserAdjacent = .ok o ∧ o ⋖ m ∧ o.bound ≠ .above := by
  rcases shape m with rfl | rfl | ⟨v,b,rfl⟩
  · exact absurd rfl hl
  · exact absurd rfl hm
  cases b with
  | below => exact absurd rfl hm
  | exactly => exact ⟨below v,rfl,some_covBy rfl,nofun⟩
  | above => exact ⟨exactly v,rfl,some_covBy rfl,nofun⟩

end Order
end Marker
end HetuCore.Predicate
