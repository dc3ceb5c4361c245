import HetuCore.Decimal.UnscaledDecimal128
import HetuCore.Foundation.PartialAggregation

namespace HetuCore.Decimal
open Foundation

@[ext] structure LongDecimalWithOverflowState where
  isNotNull : Bool
  unscaledDecimal : Unscaled
  overflow : Word
  deriving DecidableEq, Repr

@[ext] structure LongDecimalWithOverflowAndLongState extends LongDecimalWithOverflowState where
  long : Word
  deriving DecidableEq, Repr

/-- A block position: one long for a short decimal, two for a long one. -/
inductive EncodedDecimal where
  | short (value : Word)
  | long (decimal : Unscaled)
  deriving DecidableEq, Repr

def EncodedDecimal.value : EncodedDecimal → Int
  | short v => v.toInt
  | long decimal => decimal.toBigInteger

/-- The words that are added for a block position. -/
def EncodedDecimal.words : EncodedDecimal → Unscaled
  | short v => Unscaled.ofLong v
  | long decimal => decimal

theorem EncodedDecimal.toBigInteger_words (x : EncodedDecimal) : x.words.toBigInteger = x.value := by
  cases x with
  | short v => exact Unscaled.toBigInteger_ofLong v
  | long decimal => rfl

variable {state : LongDecimalWithOverflowState}

namespace LongDecimalWithOverflowState

def createSingleState : LongDecimalWithOverflowState := ⟨false,.zero,0⟩

def addDecimal (state : LongDecimalWithOverflowState) (right : Unscaled) : LongDecimalWithOverflowState :=
  let (decimal,overflow) := state.unscaledDecimal.addWithOverflow right
  ⟨true,decimal,state.overflow + overflow⟩

/-- Adding another state; an empty one takes over the words. -/
def combine (state otherState : LongDecimalWithOverflowState) : LongDecimalWithOverflowState :=
  if state.isNotNull then
    let (decimal,overflow) := state.unscaledDecimal.addWithOverflow otherState.unscaledDecimal
    ⟨state.isNotNull,decimal,state.overflow + (otherState.overflow + overflow)⟩
  else ⟨true,otherState.unscaledDecimal,state.overflow + otherState.overflow⟩

/-- The longs of the varbinary, trailing zero parts left out; NULL for an empty state. -/
def serialize (state : LongDecimalWithOverflowState) : Option (List Word) :=
  if state.isNotNull then
    let low := state.unscaledDecimal.rawHigh
    let high := state.unscaledDecimal.rawLow
    let decimalsCount := 1 + (if high = 0 then 0 else 1)
    let bufferLength := if state.overflow = 0 then decimalsCount else 3
    some ([low,high,state.overflow].take bufferLength)
  else none

def deserialize (slice : List Word) : Except String LongDecimalWithOverflowState :=
  match slice with
  | [] => .error "IndexOutOfBoundsException"
  | [low,high,overflow] => pure ⟨true,⟨high,low⟩,overflow⟩
  | [low,high] => pure ⟨true,⟨high,low⟩,0⟩
  | low :: _ => pure ⟨true,⟨0,low⟩,0⟩

theorem deserialize_serialize (h : state.isNotNull = true) :
    ∃ slice, state.serialize = some slice ∧ deserialize slice = .ok state := by
  obtain ⟨notNull,⟨rawLow,rawHigh⟩,overflow⟩ := state
  subst h
  refine ⟨_,if_pos rfl,?_⟩
  by_cases ho : overflow = 0
  · subst ho
    by_cases hl : rawLow = 0
    · subst hl
      rfl
    · simp only [if_neg hl]
      rfl
  · simp only [if_neg ho]
    rfl

end LongDecimalWithOverflowState

namespace LongDecimalWithOverflowAndLongState

def createSingleState : LongDecimalWithOverflowAndLongState := ⟨.createSingleState,0⟩

def addDecimal (state : LongDecimalWithOverflowAndLongState) (right : Unscaled) :
    LongDecimalWithOverflowAndLongState :=
  ⟨state.toLongDecimalWithOverflowState.addDecimal right,state.long + 1⟩

def combine (state otherState : LongDecimalWithOverflowAndLongState) : LongDecimalWithOverflowAndLongState :=
  ⟨state.toLongDecimalWithOverflowState.combine otherState.toLongDecimalWithOverflowState,state.long + otherState.long⟩

/-- The count and overflow follow the words; they are left out together for a single row. -/
def serialize (state : LongDecimalWithOverflowAndLongState) : Option (List Word) :=
  if state.isNotNull then
    let high := state.unscaledDecimal.rawLow
    let low := state.unscaledDecimal.rawHigh
    let countOffset := 1 + (if high = 0 then 0 else 1)
    let buffer := ([low,high,0,0].set countOffset state.long).set (countOffset + 1) state.overflow
    let bufferLength := countOffset + (if state.overflow = 0 ∧ state.long = 1 then 0 else 2)
    some (buffer.take bufferLength)
  else none

def deserialize (slice : List Word) : Except String LongDecimalWithOverflowAndLongState :=
  match slice with
  | [] => .error "IndexOutOfBoundsException"
  | [low,high,count,overflow] => pure ⟨⟨true,⟨high,low⟩,overflow⟩,count⟩
  | [low,high] => pure ⟨⟨true,⟨high,low⟩,0⟩,1⟩
  | [low,count,overflow] => pure ⟨⟨true,⟨0,low⟩,overflow⟩,count⟩
  | low :: _ => pure ⟨⟨true,⟨0,low⟩,0⟩,1⟩

theorem deserialize_serialize {state : LongDecimalWithOverflowAndLongState} (h : state.isNotNull = true) :
    ∃ slice, state.serialize = some slice ∧ deserialize slice = .ok state := by
  obtain ⟨⟨notNull,⟨rawLow,rawHigh⟩,overflow⟩,count⟩ := state
  subst h
  refine ⟨_,if_pos rfl,?_⟩
  by_cases hl : rawLow = 0
  · subst hl
    by_cases ho : overflow = 0 ∧ count = 1
    · obtain ⟨rfl,rfl⟩ := ho
      rfl
    · simp only [if_neg ho]
      rfl
  · by_cases ho : overflow = 0 ∧ count = 1
    · obtain ⟨rfl,rfl⟩ := ho
      simp only [if_neg hl]
      rfl
    · simp only [if_neg ho,if_neg hl]
      rfl

end LongDecimalWithOverflowAndLongState

/-- The number of rows and their exact sum, kept as a residue inside ±2^127 and a count
of the windows of 2^127 the running sum has moved by. -/
structure Tally where
  count : Nat
  window : Windowed (2 ^ 127)

namespace Tally

def empty : Tally := ⟨0,.zero (by norm_num)⟩

def ofInput (x : EncodedDecimal) : Windowed (2 ^ 127) :=
  ⟨x.value,0,by rw [← x.toBigInteger_words]; exact x.words.toBigInteger_lt⟩

def add (t : Tally) (x : EncodedDecimal) : Tally := ⟨t.count + 1,t.window.add (ofInput x)⟩
def merge (t p : Tally) : Tally := ⟨t.count + p.count,t.window.add p.window⟩

end Tally

def tally (plan : Plan EncodedDecimal) : Tally := plan.run .empty .add .merge

variable (plan : Plan EncodedDecimal)

theorem tally_total : (tally plan).window.total = (plan.inputs.map EncodedDecimal.value).sum := by
  apply Plan.run_sum (fun t : Tally => t.window.total) EncodedDecimal.value
  · exact Windowed.total_zero (by norm_num)
  · intro t x
    rw [Tally.add,Windowed.total_add]
    simp [Windowed.total,Tally.ofInput]
  · intro t p
    exact Windowed.total_add _ _

theorem tally_count : (tally plan).count = plan.inputs.length := by
  have h := @Plan.run_sum EncodedDecimal Tally Nat _ .empty .add .merge Tally.count (fun _ => 1) rfl
    (fun _ _ => rfl) (fun _ _ => rfl) plan
  exact h.trans (by simp)

/-- The state holds the residue in its words and the windows in its overflow counter. -/
structure Represents (state : LongDecimalWithOverflowState) (t : Tally) : Prop where
  notNull : state.isNotNull = true ↔ 0 < t.count
  residue : state.unscaledDecimal.toBigInteger = t.window.residue
  overflow : state.overflow = BitVec.ofInt 64 t.window.carry
  empty : t.count = 0 → t.window.residue = 0 ∧ t.window.carry = 0

theorem addWithOverflow_windowed {l r : Unscaled} {w x : Windowed (2 ^ 127)} (hl : l.toBigInteger = w.residue)
    (hr : r.toBigInteger = x.residue) : (l.addWithOverflow r).1.toBigInteger = (w.add x).residue ∧
      (l.addWithOverflow r).2 = BitVec.ofInt 64 ((w.add x).carry - w.carry - x.carry) := by
  obtain ⟨k,hk,hs,hkv⟩ := Unscaled.addWithOverflow_spec l r
  rw [hk]
  unfold Windowed.add
  -- the sum leaves the window upwards, downwards or not at all
  split_ifs
  all_goals
    refine ⟨?_,congrArg _ ?_⟩
    all_goals
      simp only
      omega

namespace Represents

theorem createSingleState : Represents .createSingleState .empty :=
  ⟨by simp [LongDecimalWithOverflowState.createSingleState,Tally.empty],rfl,rfl,fun _ => ⟨rfl,rfl⟩⟩

theorem addDecimal {t : Tally} (h : Represents state t) (x : EncodedDecimal) :
    Represents (state.addDecimal x.words) (t.add x) := by
  obtain ⟨hr,hov⟩ := addWithOverflow_windowed (x := Tally.ofInput x) h.residue x.toBigInteger_words
  refine ⟨iff_of_true rfl (Nat.succ_pos _),hr,?_,nofun⟩
  simp only [LongDecimalWithOverflowState.addDecimal,h.overflow,hov,← BitVec.ofInt_add]
  congr 1
  simp only [Tally.add,Tally.ofInput]
  omega

theorem combine {state other : LongDecimalWithOverflowState} {t p : Tally} (h : Represents state t)
    (ho : Represents other p) (hp : 0 < p.count) : Represents (state.combine other) (t.merge p) := by
  unfold LongDecimalWithOverflowState.combine
  by_cases hn : state.isNotNull = true
  · obtain ⟨hr,hov⟩ := addWithOverflow_windowed h.residue ho.residue
    rw [if_pos hn]
    refine ⟨iff_of_true hn (Nat.add_pos_right _ hp),hr,?_,fun hc => ?_⟩
    · simp only [h.overflow,ho.overflow,hov,← BitVec.ofInt_add]
      congr 1
      simp only [Tally.merge]
      omega
    · exact absurd hc (Nat.add_pos_right _ hp).ne'
  · have hc : t.count = 0 := Nat.eq_zero_of_not_pos fun hps => hn (h.notNull.mpr hps)
    obtain ⟨hr0,hc0⟩ := h.empty hc
    have hin := p.window.inside
    have ha : (t.window.add p.window).residue = p.window.residue ∧ (t.window.add p.window).carry = p.window.carry := by
      unfold Windowed.add
      rw [dif_neg (by omega),dif_neg (by omega)]
      simp only [hr0,hc0,zero_add,and_self]
    rw [if_neg hn]
    refine ⟨iff_of_true rfl (Nat.add_pos_right _ hp),ho.residue.trans ha.1.symm,?_,fun hz => ?_⟩
    · simp only [Tally.merge,ha.2,h.overflow,hc0,ho.overflow,← BitVec.ofInt_add,zero_add]
    · exact absurd hz (Nat.add_pos_right _ hp).ne'

theorem merge_empty {t p : Tally} {other : LongDecimalWithOverflowState}
    (h : Represents state t) (ho : Represents other p) (hp : p.count = 0) : Represents state (t.merge p) := by
  obtain ⟨hr0,hc0⟩ := ho.empty hp
  have hin := t.window.inside
  have ha : (t.window.add p.window).residue = t.window.residue ∧ (t.window.add p.window).carry = t.window.carry := by
    unfold Windowed.add
    rw [dif_neg (by omega),dif_neg (by omega)]
    simp only [hr0,hc0,add_zero,and_self]
  refine ⟨?_,h.residue.trans ha.1.symm,h.overflow.trans (congrArg _ ha.2.symm),fun hz => ?_⟩
  · simpa [Tally.merge,hp] using h.notNull
  · rw [Tally.merge,hp] at hz
    rw [Tally.merge,ha.1,ha.2]
    exact h.empty hz

end Represents
end HetuCore.Decimal
