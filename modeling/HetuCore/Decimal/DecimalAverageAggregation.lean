import HetuCore.Decimal.LongDecimalState
import HetuCore.Foundation.RoundHalfUp

namespace HetuCore.Decimal.DecimalAverageAggregation
open Foundation EncodedDecimal List
open LongDecimalWithOverflowAndLongState (createSingleState addDecimal combine serialize deserialize)

structure DecimalType where
  precision : Nat
  scale : Nat
  precision_le : precision ≤ 38
  scale_le : scale ≤ precision

def DecimalType.isShort (type : DecimalType) : Bool := decide (type.precision ≤ 18)

structure BigDecimal where
  unscaledValue : Int
  scale : Nat

namespace BigDecimal

/-- Addition at the larger of the two scales. -/
def add (a b : BigDecimal) : BigDecimal :=
  let scale := max a.scale b.scale
  ⟨a.unscaledValue * 10 ^ (scale - a.scale) + b.unscaledValue * 10 ^ (scale - b.scale),scale⟩

/-- Division to a given scale by a divisor that is not zero, ties away from zero. -/
def divide (a divisor : BigDecimal) (scale : Nat) : BigDecimal :=
  let dividend := a.unscaledValue * 10 ^ (scale + divisor.scale)
  let divisor := divisor.unscaledValue * 10 ^ a.scale
  ⟨dividend.sign * divisor.sign * ((2 * dividend.natAbs + divisor.natAbs) / (2 * divisor.natAbs) : Nat),scale⟩

end BigDecimal

variable (state : LongDecimalWithOverflowAndLongState)

def inputShortDecimal (value : Word) : LongDecimalWithOverflowAndLongState :=
  addDecimal state (Unscaled.ofLong value)

def inputLongDecimal (decimal : Unscaled) : LongDecimalWithOverflowAndLongState :=
  addDecimal state decimal

def input : EncodedDecimal → LongDecimalWithOverflowAndLongState
  | .short value => inputShortDecimal state value
  | .long decimal => inputLongDecimal state decimal

def addIntermediate (serialized : Option (List Word)) : Except String LongDecimalWithOverflowAndLongState :=
  match serialized with
  | none => pure state
  | some slice => do
    let scratchState ← deserialize slice
    pure (combine state scratchState)

def average (type : DecimalType) : BigDecimal :=
  let sum : BigDecimal := ⟨state.unscaledDecimal.toBigInteger,type.scale⟩
  let count : BigDecimal := ⟨state.long.toInt,0⟩
  let sum := if state.overflow ≠ 0 then
      let overflowMultiplier : Int := 2 * 2 ^ (16 * 8 - 2)
      sum.add ⟨overflowMultiplier * state.overflow.toInt,0⟩
    else sum
  sum.divide count type.scale

def outputShortDecimal (type : DecimalType) (state : LongDecimalWithOverflowAndLongState) :
    Except String (Option EncodedDecimal) :=
  if state.long = 0 then pure none
  else
    let value := (average state type).unscaledValue
    if -2 ^ 63 ≤ value ∧ value < 2 ^ 63 then pure (some (.short (BitVec.ofInt 64 value)))
    else .error "BigInteger out of long range"

def outputLongDecimal (type : DecimalType) (state : LongDecimalWithOverflowAndLongState) :
    Except String (Option EncodedDecimal) :=
  if state.long = 0 then pure none
  else do
    let decimal ← Unscaled.packBigInteger (average state type).unscaledValue
    pure (some (.long decimal))

def output (type : DecimalType) (state : LongDecimalWithOverflowAndLongState) :
    Except String (Option EncodedDecimal) :=
  if type.isShort then outputShortDecimal type state else outputLongDecimal type state

variable (plan : Plan EncodedDecimal)

def aggregate : Except String LongDecimalWithOverflowAndLongState :=
  plan.runM createSingleState input (fun state part => addIntermediate state (serialize part))

/-- NULL without inputs, else the rational average rounded half up at the scale of the inputs. -/
def OutputsExactAverage (inputs : List EncodedDecimal) (output : Except String (Option EncodedDecimal)) : Prop :=
  if inputs = [] then output = .ok none
  else ∃ d, output = .ok (some d) ∧
    d.value = roundHalfUp (((inputs.map value).sum : ℚ) / inputs.length)

/-- The decimal part represents the tally and the long counts its rows. -/
structure RepresentsRows (state : LongDecimalWithOverflowAndLongState) (t : Tally) : Prop where
  decimal : Represents state.toLongDecimalWithOverflowState t
  rows : state.long = BitVec.ofNat 64 t.count

variable {state : LongDecimalWithOverflowAndLongState} {t : Tally}

theorem addIntermediate_spec {part : LongDecimalWithOverflowAndLongState} {p : Tally}
    (h : RepresentsRows state t) (hp : RepresentsRows part p) :
    ∃ out, addIntermediate state (serialize part) = .ok out ∧ RepresentsRows out (t.merge p) := by
  by_cases hn : part.isNotNull = true
  · obtain ⟨slice,hs,hd⟩ := LongDecimalWithOverflowAndLongState.deserialize_serialize hn
    refine ⟨combine state part,?_,h.decimal.combine hp.decimal (hp.decimal.notNull.mp hn),?_⟩
    · rw [hs,addIntermediate,hd]
      rfl
    · exact (congrArg₂ (· + ·) h.rows hp.rows).trans (BitVec.ofNat_add _ _).symm
  · have hc : p.count = 0 := Nat.eq_zero_of_not_pos fun hc => hn (hp.decimal.notNull.mpr hc)
    refine ⟨state,?_,h.decimal.merge_empty hp.decimal hc,?_⟩
    · rw [serialize,if_neg hn]
      rfl
    · rw [h.rows,Tally.merge,hc,add_zero]

theorem aggregate_spec : ∃ state, aggregate plan = .ok state ∧ RepresentsRows state (tally plan) := by
  have ha : ∀ s t x, RepresentsRows s t → RepresentsRows (addDecimal s x.words) (t.add x) := by
    intro s t x h
    refine ⟨h.decimal.addDecimal x,?_⟩
    exact (congrArg (· + 1) h.rows).trans (BitVec.ofNat_add _ _).symm
  apply Plan.runM_rel
  · exact ⟨.createSingleState,rfl⟩
  · intro s t x h
    cases x with
    | short value => exact ha s t (.short value) h
    | long decimal => exact ha s t (.long decimal) h
  · intro s t p q h hq
    exact addIntermediate_spec h hq

/-- Division by a positive integer to the scale of the dividend rounds the rational quotient. -/
theorem divide_eq (a n : Int) (scale : Nat) (hn : 0 < n) :
    (BigDecimal.divide ⟨a,scale⟩ ⟨n,0⟩ scale).unscaledValue = roundHalfUp (a / n) := by
  have hp : (0 : Int) < 10 ^ scale := by positivity
  have hq : ((a * 10 ^ scale : Int) : ℚ) / ((n * 10 ^ scale : Int) : ℚ) = (a : ℚ) / n := by
    push_cast
    rw [mul_div_mul_right]
    positivity
  rw [← hq,roundHalfUp_div _ (Int.mul_pos hn hp)]
  simp only [BigDecimal.divide]
  generalize hb : n * 10 ^ scale = b
  have hbp : 0 < b := hb ▸ Int.mul_pos hn hp
  generalize a * 10 ^ scale = x
  rw [Int.sign_eq_one_of_pos hbp,mul_one]
  push_cast
  rw [abs_of_pos hbp]
  by_cases hx : 0 ≤ x
  · rw [if_pos hx,abs_of_nonneg hx]
    rcases hx.eq_or_lt with rfl | hps
    · have hz : (2 * 0 + b) / (2 * b) = 0 := Int.ediv_eq_zero_of_lt (by omega) (by omega)
      rw [hz]
      simp
    · rw [Int.sign_eq_one_of_pos hps,one_mul]
  · rw [abs_of_neg (not_le.mp hx),Int.sign_eq_neg_one_of_neg (not_le.mp hx)]
    omega

/-- The numerator of the average counts each window at ten to the scale times its size. -/
theorem average_eq (h : RepresentsRows state t) (type : DecimalType) (hp : 0 < t.count) (hcn : t.count < 2 ^ 63)
    (hcr : -2 ^ 63 ≤ t.window.carry ∧ t.window.carry < 2 ^ 63) : (average state type).unscaledValue =
      roundHalfUp (((t.window.residue + t.window.carry * 2 ^ 127 * 10 ^ type.scale : Int) : ℚ) / t.count) := by
  have hl : state.long.toInt = t.count := by
    rw [h.rows,BitVec.toInt_eq_toNat_of_lt] <;> rw [BitVec.toNat_ofNat] <;> omega
  have hov : state.overflow.toInt = t.window.carry := by
    rw [h.decimal.overflow]
    exact BitVec.toInt_ofInt_eq_self (by norm_num) hcr.1 hcr.2
  have hs : (if state.overflow ≠ 0 then
      (BigDecimal.mk state.unscaledDecimal.toBigInteger type.scale).add ⟨2 * 2 ^ (16 * 8 - 2) * state.overflow.toInt,0⟩
      else ⟨state.unscaledDecimal.toBigInteger,type.scale⟩) =
      ⟨t.window.residue + t.window.carry * 2 ^ 127 * 10 ^ type.scale,type.scale⟩ := by
    by_cases hz : state.overflow = 0
    · have hc : t.window.carry = 0 := by
        rw [← hov,hz]
        rfl
      rw [if_neg (not_not.mpr hz),h.decimal.residue,hc]
      simp
    · rw [if_pos hz,BigDecimal.add,hov,h.decimal.residue]
      simp only [max_eq_left (Nat.zero_le type.scale),Nat.sub_self,pow_zero,mul_one,Nat.sub_zero]
      congr 2
      ring
  unfold average
  simp only [hs,hl]
  rw [divide_eq _ _ _ (by omega)]
  push_cast
  rfl

/-- With rows, the output is the computed average when the output type can hold it. -/
theorem output_eq (h : RepresentsRows state t) (type : DecimalType) (hps : 0 < t.count) (hc : t.count < 2 ^ 63) :
    ((average state type).unscaledValue.natAbs < 10 ^ type.precision →
        ∃ d, output type state = .ok (some d) ∧ d.value = (average state type).unscaledValue) ∧
      ∀ d, output type state = .ok (some d) → d.value = (average state type).unscaledValue := by
  have hl : state.long ≠ 0 := by
    rw [h.rows,ne_eq,← BitVec.toNat_inj,BitVec.toNat_ofNat,show (0 : Word).toNat = 0 from rfl]
    omega
  unfold output outputShortDecimal outputLongDecimal
  rw [if_neg hl,if_neg hl]
  generalize (average state type).unscaledValue = v
  by_cases hs : type.isShort = true
  · rw [if_pos hs]
    have hf : v.natAbs < 10 ^ type.precision → -2 ^ 63 ≤ v ∧ v < 2 ^ 63 := by
      intro hv
      have hp : 10 ^ type.precision ≤ 10 ^ 18 := Nat.pow_le_pow_right (by norm_num) (of_decide_eq_true hs)
      omega
    have hvl : -2 ^ 63 ≤ v ∧ v < 2 ^ 63 → (short (BitVec.ofInt 64 v)).value = v :=
      fun hv => BitVec.toInt_ofInt_eq_self (by norm_num) hv.1 hv.2
    refine ⟨fun hv => ⟨_,if_pos (hf hv),hvl (hf hv)⟩,fun d hd => ?_⟩
    simp only at hd
    split at hd
    · rename_i hv
      obtain rfl := Option.some.inj (Except.ok.inj hd)
      exact hvl hv
    · cases hd
  · rw [if_neg hs]
    obtain ⟨hok,her⟩ := Unscaled.packBigInteger_spec v
    constructor
    · intro hv
      have hp : 10 ^ type.precision ≤ 10 ^ 38 := Nat.pow_le_pow_right (by norm_num) type.precision_le
      obtain ⟨d,hd,hdv⟩ := hok (by omega)
      exact ⟨.long d,by rw [hd]; rfl,hdv⟩
    · intro d hd
      by_cases hv : v.natAbs < 10 ^ 38
      · obtain ⟨e,he,hev⟩ := hok hv
        rw [he] at hd
        obtain rfl := Option.some.inj (Except.ok.inj hd)
        exact hev
      · rw [her (by omega)] at hd
        cases hd

theorem natAbs_sum_le {values : List Int} {m : Nat} (h : ∀ v ∈ values, v.natAbs ≤ m) :
    values.sum.natAbs ≤ values.length * m := by
  induction values with
  | nil => simp
  | cons v rest ih =>
    have hv := h v mem_cons_self
    have hr := ih fun w hw => h w (mem_cons_of_mem v hw)
    rw [sum_cons,length_cons,Nat.add_mul]
    omega

theorem carry_bounds {plan : Plan EncodedDecimal} (hin : ∀ x ∈ plan.inputs, x.value.natAbs ≤ 10 ^ 38)
    (hr : plan.inputs.length < 2 ^ 63) :
    -2 ^ 63 ≤ (tally plan).window.carry ∧ (tally plan).window.carry < 2 ^ 63 := by
  have hs := @natAbs_sum_le (plan.inputs.map value) (10 ^ 38) (by simpa using hin)
  rw [length_map,← tally_total] at hs
  have hb := (tally plan).window.carry_bound
  rw [Int.abs_eq_natAbs (tally plan).window.total,abs_lt] at hb
  omega

/-- Two quotients by a positive count that round to the same integer have numerators no
further apart than the count. -/
theorem abs_sub_le_of_roundHalfUp_eq {a b : Int} {n : Nat} (hn : 0 < n)
    (h : roundHalfUp ((a : ℚ) / n) = roundHalfUp ((b : ℚ) / n)) : |a - b| ≤ n := by
  have hnq : (0 : ℚ) < n := by exact_mod_cast hn
  have ha := abs_le.mp (abs_roundHalfUp_sub_le ((a : ℚ) / n))
  have hb := abs_le.mp (abs_roundHalfUp_sub_le ((b : ℚ) / n))
  rw [h] at ha
  have hd : |((a - b : Int) : ℚ) / n| ≤ 1 := by
    push_cast
    rw [sub_div,abs_le]
    constructor <;> linarith
  rw [abs_div,abs_of_pos hnq,div_le_one hnq] at hd
  exact_mod_cast hd

/-- For every plan of fewer than 2^63 decimal(p,s) inputs the aggregation yields a state.
Its output is the exact average precisely when the scale is zero or the running sum, kept
in a window of 2^127, ends in the home window. -/
theorem average_exact_iff (type : DecimalType) (plan : Plan EncodedDecimal)
    (hin : ∀ x ∈ plan.inputs, x.value.natAbs < 10 ^ type.precision) (hrows : plan.inputs.length < 2 ^ 63) :
    ∃ state, aggregate plan = .ok state ∧
      (OutputsExactAverage plan.inputs (output type state) ↔ type.scale = 0 ∨ (tally plan).window.carry = 0) := by
  obtain ⟨state,hs,hr⟩ := aggregate_spec plan
  refine ⟨state,hs,?_⟩
  have hc := tally_count plan
  have ht := tally_total plan
  unfold OutputsExactAverage
  by_cases hn : plan.inputs = []
  · have hz : (tally plan).count = 0 := by rw [hc,hn]; rfl
    have hl : state.long = 0 := by rw [hr.rows,hz]; rfl
    rw [if_pos hn]
    refine iff_of_true ?_ (.inr (hr.decimal.empty hz).2)
    rw [output,outputShortDecimal,outputLongDecimal,if_pos hl,if_pos hl,ite_self]
    rfl
  · have hp : 0 < (tally plan).count := by
      rw [hc]
      exact length_pos_iff.mpr hn
    have hp38 : 10 ^ type.precision ≤ 10 ^ 38 := Nat.pow_le_pow_right (by norm_num) type.precision_le
    have hcr := carry_bounds (fun x hx => ((hin x hx).trans_le hp38).le) hrows
    have ha := average_eq hr type hp (by omega) hcr
    obtain ⟨ho,hv⟩ := output_eq hr type hp (by omega)
    rw [if_neg hn,← ht,← hc]
    constructor
    · intro hex
      obtain ⟨d,hd,hdv⟩ := hex
      by_contra hbt
      rw [not_or] at hbt
      have hf := abs_sub_le_of_roundHalfUp_eq hp (ha.symm.trans ((hv d hd).symm.trans hdv))
      have htn : (10 : Int) ≤ 10 ^ type.scale := le_self_pow₀ (by norm_num) hbt.1
      have he : (tally plan).window.residue + (tally plan).window.carry * 2 ^ 127 * 10 ^ type.scale -
          (tally plan).window.total = (tally plan).window.carry * (2 ^ 127 * (10 ^ type.scale - 1)) := by
        rw [Windowed.total]
        ring
      rw [he,abs_mul,abs_of_nonneg (by omega : (0 : Int) ≤ 2 ^ 127 * (10 ^ type.scale - 1))] at hf
      have hon : 1 ≤ |(tally plan).window.carry| := Int.one_le_abs hbt.2
      have hm := Int.mul_le_mul_of_nonneg_right hon (by omega : (0 : Int) ≤ 2 ^ 127 * (10 ^ type.scale - 1))
      omega
    · intro hcn
      have hnm : (tally plan).window.residue + (tally plan).window.carry * 2 ^ 127 * 10 ^ type.scale =
          (tally plan).window.total := by
        rw [Windowed.total]
        obtain h | h := hcn
        · rw [h]
          ring
        · rw [h]
          ring
      rw [hnm] at ha
      obtain ⟨d,hd,hdv⟩ := ho (by
        have hsm := @natAbs_sum_le (plan.inputs.map value) (10 ^ type.precision - 1)
          (by simpa using fun x hx => Nat.le_sub_one_of_lt (hin x hx))
        rw [length_map,← ht,← hc] at hsm
        have hpw : 0 < 10 ^ type.precision := by positivity
        have hq : |((tally plan).window.total : ℚ) / (tally plan).count| ≤ ((10 ^ type.precision - 1 : Nat) : Int) := by
          have hcq : (0 : ℚ) < (tally plan).count := by exact_mod_cast hp
          rw [abs_div,abs_of_pos hcq,div_le_iff₀ hcq,← Int.cast_abs,Int.abs_eq_natAbs]
          rw [Nat.mul_comm] at hsm
          exact_mod_cast hsm
        have hb := abs_roundHalfUp_le hq
        rw [Int.abs_eq_natAbs] at hb
        omega)
      exact ⟨d,hd,hdv.trans ha⟩

def nines (sign : Bool) : EncodedDecimal :=
  .long ⟨BitVec.ofNat 64 (9 * 10 ^ 37),BitVec.ofNat 64 (9 * 10 ^ 37 / 2 ^ 64) ||| if sign then 1#64 <<< 63 else 0⟩

/-- Two rows of 9·10^37 and eighteen zeros, unscaled, added one after the other. -/
def overflowingRows : List EncodedDecimal := replicate 2 (nines false) ++ replicate 18 (.long ⟨0,0⟩)

/-- Both partial sums leave the window, in opposite directions; the average is one half. -/
def mergedPlan : Plan EncodedDecimal :=
  .combine (.input (.input .fresh (nines false)) (nines false))
    (.combine (.input (.input .fresh (nines true)) (nines true)) (.input (.input .fresh (.long ⟨3,0⟩)) (.long ⟨0,0⟩)))

theorem average_exact_iff_merged :
    (∃ state, aggregate mergedPlan = .ok state ∧
      OutputsExactAverage mergedPlan.inputs (output ⟨38,1,by decide,by decide⟩ state)) ∧
    ∃ state, aggregate (overflowingRows.foldl .input .fresh) = .ok state ∧
      ¬ OutputsExactAverage (overflowingRows.foldl Plan.input .fresh).inputs (output ⟨38,1,by decide,by decide⟩ state) := by
  constructor
  · obtain ⟨state,hs,hi⟩ := average_exact_iff ⟨38,1,by decide,by decide⟩ mergedPlan (by decide +kernel) (by decide)
    exact ⟨state,hs,hi.mpr (.inr (by decide +kernel))⟩
  · obtain ⟨state,hs,hi⟩ := average_exact_iff ⟨38,1,by decide,by decide⟩ (overflowingRows.foldl .input .fresh)
      (by decide +kernel) (by decide +kernel)
    exact ⟨state,hs,fun he => absurd (hi.mp he) (by decide +kernel)⟩

/-- At scale one the average of these rows is 9·10^36; the output is off by the nine
extra windows that the overflow term adds. -/
theorem average_wrong_after_overflow :
    (do let state ← aggregate (overflowingRows.foldl .input .fresh)
        output ⟨38,1,by decide,by decide⟩ state) =
      .ok (some (.long ⟨BitVec.ofNat 64 85563532557211154279259286672147847578,
        BitVec.ofNat 64 (85563532557211154279259286672147847578 / 2 ^ 64)⟩)) ∧
    (long ⟨BitVec.ofNat 64 85563532557211154279259286672147847578,
        BitVec.ofNat 64 (85563532557211154279259286672147847578 / 2 ^ 64)⟩).value =
      85563532557211154279259286672147847578 ∧
    roundHalfUp (((overflowingRows.map value).sum : ℚ) / overflowingRows.length) = 9 * 10 ^ 36 := by
  refine ⟨by decide +kernel,by decide +kernel,?_⟩
  have hs : (overflowingRows.map value).sum = 18 * 10 ^ 37 := by decide +kernel
  have hl : overflowingRows.length = 20 := by decide +kernel
  rw [hs,hl]
  norm_num [roundHalfUp]

end HetuCore.Decimal.DecimalAverageAggregation
