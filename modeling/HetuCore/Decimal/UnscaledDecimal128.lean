import Mathlib.Tactic.Linarith

namespace HetuCore.Decimal

abbrev Word := BitVec 64

def signLongMask : Word := 1#64 <<< 63

def isNegative (rawHigh : Word) : Bool := decide (rawHigh >>> 63 ≠ 0)
def unpackUnsignedLong (value : Word) : Word := value &&& ~~~signLongMask

/-- The unsigned comparison by a signed one of shifted operands. -/
def unsignedIsSmaller (first second : Word) : Bool := (first + signLongMask).slt (second + signLongMask)

@[ext] structure Unscaled where
  rawLow : Word
  rawHigh : Word
  deriving DecidableEq, Repr

namespace Unscaled

def zero : Unscaled := ⟨0,0⟩

def pack (low high : Word) (negative : Bool) : Unscaled :=
  ⟨low,high ||| (if negative then signLongMask else 0)⟩

def addUnsignedReturnOverflow (left right : Unscaled) (resultNegative : Bool) : Unscaled × Word :=
  let leftHigh := unpackUnsignedLong left.rawHigh
  let rightHigh := unpackUnsignedLong right.rawHigh
  let z0 := left.rawLow + right.rawLow
  let overflow : Word := if unsignedIsSmaller z0 left.rawLow then 1 else 0
  let intermediateResult := leftHigh + rightHigh + overflow
  let z1 := intermediateResult &&& ~~~signLongMask
  (pack z0 z1 resultNegative,intermediateResult >>> 63)

def subtractUnsigned (left right : Unscaled) (resultNegative : Bool) : Unscaled :=
  let z0 := left.rawLow - right.rawLow
  let underflow : Word := if unsignedIsSmaller left.rawLow z0 then 1 else 0
  let z1 := unpackUnsignedLong left.rawHigh - unpackUnsignedLong right.rawHigh - underflow
  pack z0 z1 resultNegative

def compareAbsolute (left right : Unscaled) : Ordering :=
  let leftHigh := unpackUnsignedLong left.rawHigh
  let rightHigh := unpackUnsignedLong right.rawHigh
  if leftHigh ≠ rightHigh then compare leftHigh.toNat rightHigh.toNat
  else if left.rawLow ≠ right.rawLow then compare left.rawLow.toNat right.rawLow.toNat
  else .eq

/-- The sum modulo the 127-bit range and the overflow: 0, 1 or -1. -/
def addWithOverflow (left right : Unscaled) : Unscaled × Word :=
  let leftNegative := isNegative left.rawHigh
  let rightNegative := isNegative right.rawHigh
  if leftNegative = rightNegative then
    let (result,overflow) := addUnsignedReturnOverflow left right leftNegative
    (result,if leftNegative then -overflow else overflow)
  else match compareAbsolute left right with
    | .gt => (subtractUnsigned left right leftNegative,0)
    | .lt => (subtractUnsigned right left (!leftNegative),0)
    | .eq => (zero,0)

variable (decimal : Unscaled)

def exceedsOrEqualTenToThirtyEight : Bool :=
  let high := unpackUnsignedLong decimal.rawHigh
  if (0 : Int) ≤ high.toInt ∧ high.toInt < 0x4b3b4ca85a86c47a then false
  else if high ≠ 0x4b3b4ca85a86c47a then true
  else decide (decimal.rawLow.toInt < 0) || decide ((0x098a224000000000 : Int) ≤ decimal.rawLow.toInt)

def throwIfOverflows : Except String Unit :=
  if decimal.exceedsOrEqualTenToThirtyEight then .error "Decimal overflow" else pure ()

def magnitude : Nat := decimal.rawLow.toNat + (unpackUnsignedLong decimal.rawHigh).toNat * 2 ^ 64

def toBigInteger : Int :=
  if isNegative decimal.rawHigh then -(decimal.magnitude : Int) else decimal.magnitude

/-- The words of a long: its magnitude, with the sign mask for a negative one. -/
def ofLong (unscaledValue : Word) : Unscaled :=
  if unscaledValue.slt 0 then ⟨-unscaledValue,signLongMask⟩ else ⟨unscaledValue,0⟩

/-- The words of an integer of at most 127 bits below 10^38 in magnitude. -/
def packBigInteger (unscaledValue : Int) : Except String Unscaled := do
  let bytes := unscaledValue.natAbs
  if 2 ^ 127 ≤ bytes then .error "Decimal overflow"
  else
    let result := pack (BitVec.ofNat 64 bytes) (BitVec.ofNat 64 (bytes / 2 ^ 64)) (decide (unscaledValue < 0))
    result.throwIfOverflows
    pure result

end Unscaled

variable (w : Word)

theorem isNegative_iff : isNegative w = true ↔ 2 ^ 63 ≤ w.toNat := by
  rw [isNegative,decide_eq_true_eq,ne_eq,← BitVec.toNat_inj,BitVec.toNat_ushiftRight,
    Nat.shiftRight_eq_div_pow,show (0 : Word).toNat = 0 from rfl]
  omega

theorem toNat_unpackUnsignedLong : (unpackUnsignedLong w).toNat = w.toNat % 2 ^ 63 := by
  rw [unpackUnsignedLong,BitVec.toNat_and,show (~~~signLongMask).toNat = 2 ^ 63 - 1 from rfl,
    Nat.and_two_pow_sub_one_eq_mod]

theorem toNat_or_mask {w : Word} (hw : w.toNat < 2 ^ 63) (negative : Bool) :
    (w ||| (if negative then signLongMask else 0)).toNat = w.toNat + if negative then 2 ^ 63 else 0 := by
  cases negative with
  | false => simp
  | true =>
    rw [if_pos rfl,if_pos rfl,BitVec.toNat_or,show signLongMask.toNat = 2 ^ 63 * 1 from rfl,Nat.or_comm,
      ← Nat.two_pow_add_eq_or_of_lt hw]
    omega

theorem unsignedIsSmaller_iff (a b : Word) : unsignedIsSmaller a b = true ↔ a.toNat < b.toNat := by
  have hm : signLongMask.toNat = 2 ^ 63 := rfl
  rw [unsignedIsSmaller,BitVec.slt_iff_toInt_lt,BitVec.toInt_eq_toNat_cond,BitVec.toInt_eq_toNat_cond,
    BitVec.toNat_add,BitVec.toNat_add,hm]
  split <;> split <;> omega

theorem toNat_carry (a b : Word) :
    (if unsignedIsSmaller a b then (1 : Word) else 0).toNat = if a.toNat < b.toNat then 1 else 0 := by
  simp only [unsignedIsSmaller_iff]
  split <;> rfl

namespace Unscaled

variable (d : Unscaled) (l r : Unscaled)

theorem magnitude_eq : d.magnitude = d.rawLow.toNat + d.rawHigh.toNat % 2 ^ 63 * 2 ^ 64 := by
  rw [magnitude,toNat_unpackUnsignedLong]

theorem magnitude_lt : d.magnitude < 2 ^ 127 := by
  rw [magnitude_eq]
  omega

theorem pack_spec {low high : Word} (h : high.toNat < 2 ^ 63) (negative : Bool) :
    (pack low high negative).magnitude = low.toNat + high.toNat * 2 ^ 64 ∧
      isNegative (pack low high negative).rawHigh = negative := by
  have hn := toNat_or_mask h negative
  constructor
  · rw [magnitude_eq,pack,hn]
    cases negative <;> simp
    all_goals omega
  · rw [pack,Bool.eq_iff_iff,isNegative_iff,hn]
    cases negative <;> simp
    omega

/-- The carried sum of magnitudes, split at 127 bits. -/
theorem addUnsignedReturnOverflow_spec (negative : Bool) : (addUnsignedReturnOverflow l r negative).1.magnitude +
        (addUnsignedReturnOverflow l r negative).2.toNat * 2 ^ 127 = l.magnitude + r.magnitude ∧
      isNegative (addUnsignedReturnOverflow l r negative).1.rawHigh = negative ∧
      (addUnsignedReturnOverflow l r negative).2.toNat ≤ 1 := by
  unfold addUnsignedReturnOverflow
  set carry : Word := if unsignedIsSmaller (l.rawLow + r.rawLow) l.rawLow then 1 else 0 with hcr
  set high : Word := unpackUnsignedLong l.rawHigh + unpackUnsignedLong r.rawHigh + carry with hhg
  have hc : (l.rawLow + r.rawLow).toNat + carry.toNat * 2 ^ 64 = l.rawLow.toNat + r.rawLow.toNat ∧ carry.toNat ≤ 1 := by
    rw [toNat_carry,BitVec.toNat_add]
    split <;> omega
  have hh : high.toNat = l.rawHigh.toNat % 2 ^ 63 + r.rawHigh.toNat % 2 ^ 63 + carry.toNat := by
    rw [BitVec.toNat_add,BitVec.toNat_add,toNat_unpackUnsignedLong,toNat_unpackUnsignedLong]
    omega
  have hz : (high &&& ~~~signLongMask).toNat = high.toNat % 2 ^ 63 := toNat_unpackUnsignedLong high
  have ho : (high >>> 63).toNat = high.toNat / 2 ^ 63 := by
    rw [BitVec.toNat_ushiftRight,Nat.shiftRight_eq_div_pow]
  obtain ⟨hm,hn⟩ := @pack_spec (l.rawLow + r.rawLow) (high &&& ~~~signLongMask) (by omega) negative
  refine ⟨?_,hn,?_⟩
  · rw [hm,ho,magnitude_eq,magnitude_eq]
    omega
  · rw [ho]
    omega

/-- The borrowed difference of magnitudes, when the left one is not smaller. -/
theorem subtractUnsigned_spec {l r : Unscaled} (hle : r.magnitude ≤ l.magnitude) (negative : Bool) :
    (subtractUnsigned l r negative).magnitude = l.magnitude - r.magnitude ∧
      isNegative (subtractUnsigned l r negative).rawHigh = negative := by
  rw [magnitude_eq l,magnitude_eq r] at hle ⊢
  unfold subtractUnsigned
  set borrow : Word := if unsignedIsSmaller l.rawLow (l.rawLow - r.rawLow) then 1 else 0 with hbr
  set high : Word := unpackUnsignedLong l.rawHigh - unpackUnsignedLong r.rawHigh - borrow with hhg
  have hb : (l.rawLow - r.rawLow).toNat + r.rawLow.toNat = l.rawLow.toNat + borrow.toNat * 2 ^ 64 ∧
      borrow.toNat ≤ 1 := by
    rw [toNat_carry,BitVec.toNat_sub]
    split <;> omega
  have hh : high.toNat = l.rawHigh.toNat % 2 ^ 63 - r.rawHigh.toNat % 2 ^ 63 - borrow.toNat := by
    rw [BitVec.toNat_sub,BitVec.toNat_sub,toNat_unpackUnsignedLong,toNat_unpackUnsignedLong]
    omega
  obtain ⟨hm,hn⟩ := @pack_spec (l.rawLow - r.rawLow) high (by omega) negative
  refine ⟨?_,hn⟩
  rw [hm]
  omega

private theorem compare_congr {a b c d : Nat} (hlt : a < b ↔ c < d) (hgt : b < a ↔ d < c) :
    compare a b = compare c d := by
  simp only [Nat.compare_eq_ite_lt,hlt,hgt]

theorem compareAbsolute_eq : compareAbsolute l r = compare l.magnitude r.magnitude := by
  unfold compareAbsolute magnitude
  simp only [ite_not,← BitVec.toNat_inj]
  split
  · rename_i hab
    split
    · rename_i hl
      rw [hab,hl,eq_comm,compare_eq_iff_eq]
    · exact compare_congr (by omega) (by omega)
  · exact compare_congr (by omega) (by omega)

theorem toBigInteger_lt : -2 ^ 127 < d.toBigInteger ∧ d.toBigInteger < 2 ^ 127 := by
  have hm := d.magnitude_lt
  unfold toBigInteger
  split <;> omega

/-- Addition is exact up to a multiple of 2^127 that it reports: one up when the sum
reaches 2^127, one down when it reaches -2^127, and none inside. -/
theorem addWithOverflow_spec : ∃ k : Int, (addWithOverflow l r).2 = BitVec.ofInt 64 k ∧
      (addWithOverflow l r).1.toBigInteger + k * 2 ^ 127 = l.toBigInteger + r.toBigInteger ∧
      k = if 2 ^ 127 ≤ l.toBigInteger + r.toBigInteger then 1
        else if l.toBigInteger + r.toBigInteger ≤ -2 ^ 127 then -1 else 0 := by
  have hl := l.magnitude_lt
  have hr := r.magnitude_lt
  unfold addWithOverflow
  by_cases hs : isNegative l.rawHigh = isNegative r.rawHigh
  · obtain ⟨hsm,hn,hle⟩ := addUnsignedReturnOverflow_spec l r (isNegative l.rawHigh)
    simp only [if_pos hs]
    generalize addUnsignedReturnOverflow l r (isNegative l.rawHigh) = out at hsm hn hle
    have hm := out.1.magnitude_lt
    have hof : out.2 = BitVec.ofInt 64 out.2.toNat := by
      rw [BitVec.ofInt_natCast,BitVec.ofNat_toNat,BitVec.setWidth_eq]
    unfold toBigInteger
    rw [hn,← hs]
    cases isNegative l.rawHigh with
    | false =>
      refine ⟨out.2.toNat,hof,?_,?_⟩
      · simp only [Bool.false_eq_true,if_false]
        omega
      · simp only [Bool.false_eq_true,if_false]
        split
        · omega
        · omega
    | true =>
      refine ⟨-out.2.toNat,?_,?_,?_⟩
      · rw [if_pos rfl,BitVec.ofInt_neg,← hof]
      · simp only [if_true]
        omega
      · simp only [if_true]
        split <;> omega
  · have hin : ¬ 2 ^ 127 ≤ l.toBigInteger + r.toBigInteger ∧ ¬ l.toBigInteger + r.toBigInteger ≤ -2 ^ 127 := by
      unfold toBigInteger
      cases hln : isNegative l.rawHigh <;> cases hrn : isNegative r.rawHigh <;> simp_all <;> omega
    refine ⟨0,?_,?_,by rw [if_neg hin.1,if_neg hin.2]⟩
    · simp only [if_neg hs]
      split <;> rfl
    · simp only [if_neg hs]
      have hc := compareAbsolute_eq l r
      split
      · rename_i h
        have hgt := compare_gt_iff_gt.mp (hc.symm.trans h)
        obtain ⟨hmg,hn⟩ := subtractUnsigned_spec hgt.le (isNegative l.rawHigh)
        unfold toBigInteger
        cases hln : isNegative l.rawHigh <;> cases hrn : isNegative r.rawHigh <;> simp_all <;> omega
      · rename_i h
        have hlt := compare_lt_iff_lt.mp (hc.symm.trans h)
        obtain ⟨hmg,hn⟩ := subtractUnsigned_spec hlt.le (!isNegative l.rawHigh)
        unfold toBigInteger
        cases hln : isNegative l.rawHigh <;> cases hrn : isNegative r.rawHigh <;> simp_all <;> omega
      · rename_i h
        have heq := compare_eq_iff_eq.mp (hc.symm.trans h)
        have hz : (zero : Unscaled).toBigInteger = 0 := rfl
        rw [hz]
        unfold toBigInteger
        cases hln : isNegative l.rawHigh <;> cases hrn : isNegative r.rawHigh <;> simp_all

theorem exceedsOrEqualTenToThirtyEight_iff : d.exceedsOrEqualTenToThirtyEight = true ↔ 10 ^ 38 ≤ d.magnitude := by
  have hlt : (unpackUnsignedLong d.rawHigh).toNat < 2 ^ 63 := by
    rw [toNat_unpackUnsignedLong]
    omega
  have hi : (unpackUnsignedLong d.rawHigh).toInt = (unpackUnsignedLong d.rawHigh).toNat :=
    BitVec.toInt_eq_toNat_of_lt (by omega)
  have hc : (0x4b3b4ca85a86c47a : Word).toNat = 0x4b3b4ca85a86c47a := rfl
  unfold exceedsOrEqualTenToThirtyEight magnitude
  simp only [hi]
  split
  · simp only [Bool.false_eq_true,false_iff]
    omega
  · split
    · rename_i hne
      rw [ne_eq,← BitVec.toNat_inj] at hne
      simp only [true_iff]
      omega
    · rename_i hne
      rw [not_not,← BitVec.toNat_inj] at hne
      rw [Bool.or_eq_true,decide_eq_true_eq,decide_eq_true_eq,BitVec.toInt_eq_toNat_cond]
      split <;> omega

/-- The range check throws exactly from 10^38 on, whatever the sign. -/
theorem throwIfOverflows_eq :
    d.throwIfOverflows = if 10 ^ 38 ≤ d.toBigInteger.natAbs then .error "Decimal overflow" else .ok () := by
  have hm : d.toBigInteger.natAbs = d.magnitude := by
    unfold toBigInteger
    split <;> omega
  rw [hm]
  exact if_congr (exceedsOrEqualTenToThirtyEight_iff d) rfl rfl

theorem toBigInteger_ofLong : (ofLong w).toBigInteger = w.toInt := by
  have hc := BitVec.toInt_eq_toNat_cond w
  unfold ofLong
  by_cases hs : w.slt 0 = true
  · rw [if_pos hs]
    rw [BitVec.slt_iff_toInt_lt,show (0 : Word).toInt = 0 from rfl] at hs
    have hn : (-w).toNat = 2 ^ 64 - w.toNat := by
      rw [BitVec.toNat_neg]
      split at hc <;> omega
    have hm : (Unscaled.mk (-w) signLongMask).magnitude = 2 ^ 64 - w.toNat := by
      rw [magnitude_eq]
      simp only [show signLongMask.toNat = 2 ^ 63 from rfl]
      omega
    rw [toBigInteger,show isNegative signLongMask = true from rfl,if_pos rfl]
    split at hc <;> omega
  · rw [if_neg hs]
    rw [BitVec.slt_iff_toInt_lt,show (0 : Word).toInt = 0 from rfl] at hs
    have hm : (Unscaled.mk w 0).magnitude = w.toNat := by
      rw [magnitude_eq]
      simp
    rw [toBigInteger,show isNegative 0 = false from rfl]
    simp only [Bool.false_eq_true,if_false]
    split at hc <;> omega

/-- Packing an integer throws exactly from 10^38 on and keeps its value below. -/
theorem packBigInteger_spec (v : Int) : (v.natAbs < 10 ^ 38 → ∃ d, packBigInteger v = .ok d ∧ d.toBigInteger = v) ∧
      (10 ^ 38 ≤ v.natAbs → packBigInteger v = .error "Decimal overflow") := by
  by_cases hb : 2 ^ 127 ≤ v.natAbs
  · exact ⟨fun h => by omega,fun _ => if_pos hb⟩
  · have hh : (BitVec.ofNat 64 (v.natAbs / 2 ^ 64)).toNat = v.natAbs / 2 ^ 64 := by
      rw [BitVec.toNat_ofNat]
      omega
    obtain ⟨hm,hn⟩ := @pack_spec (BitVec.ofNat 64 v.natAbs) (BitVec.ofNat 64 (v.natAbs / 2 ^ 64))
      (by omega) (decide (v < 0))
    set d := pack (BitVec.ofNat 64 v.natAbs) (BitVec.ofNat 64 (v.natAbs / 2 ^ 64)) (decide (v < 0))
    have hr : packBigInteger v = (do d.throwIfOverflows; pure d) := if_neg hb
    have hvl : d.toBigInteger = v := by
      rw [toBigInteger,hn,hm,BitVec.toNat_ofNat]
      by_cases hv : v < 0
      · rw [if_pos (decide_eq_true hv)]
        omega
      · rw [if_neg (by simpa using hv)]
        omega
    rw [hr,throwIfOverflows_eq,hvl]
    refine ⟨fun h => ⟨d,?_,hvl⟩,fun h => ?_⟩
    · rw [if_neg (by omega)]
      rfl
    · rw [if_pos h]
      rfl

end Unscaled
end HetuCore.Decimal
