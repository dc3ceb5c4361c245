import HetuCore.Decimal.LongDecimalState

namespace HetuCore.Decimal.DecimalSumAggregation
open Foundation EncodedDecimal
open LongDecimalWithOverflowState (createSingleState combine serialize deserialize)

variable (state : LongDecimalWithOverflowState)

def inputShortDecimal (value : Word) : LongDecimalWithOverflowState :=
  state.addDecimal (Unscaled.ofLong value)

def inputLongDecimal (decimal : Unscaled) : LongDecimalWithOverflowState :=
  state.addDecimal decimal

def input : EncodedDecimal → LongDecimalWithOverflowState
  | .short value => inputShortDecimal state value
  | .long decimal => inputLongDecimal state decimal

/-- A serialised partial state is combined through a scratch state; NULL is skipped. -/
def addIntermediate (serialized : Option (List Word)) : Except String LongDecimalWithOverflowState :=
  match serialized with
  | none => pure state
  | some slice => do
    let scratchState ← deserialize slice
    pure (combine state scratchState)

def outputLongDecimal : Except String (Option Unscaled) :=
  if state.isNotNull then
    if state.overflow ≠ 0 then .error "Decimal overflow"
    else do
      state.unscaledDecimal.throwIfOverflows
      pure (some state.unscaledDecimal)
  else pure none

variable (plan : Plan EncodedDecimal)

def aggregate : Except String LongDecimalWithOverflowState :=
  plan.runM createSingleState input (fun state part => addIntermediate state (serialize part))

/-- NULL without inputs, else the exact sum below 10^38 and a decimal overflow from there on. -/
def OutputsExactSum (inputs : List EncodedDecimal) (output : Except String (Option Unscaled)) : Prop :=
  if inputs = [] then output = .ok none
  else if (inputs.map value).sum.natAbs < 10 ^ 38 then
    ∃ d, output = .ok (some d) ∧ d.toBigInteger = (inputs.map value).sum
  else output = .error "Decimal overflow"

variable {state : LongDecimalWithOverflowState} {t : Tally}

theorem addIntermediate_spec {part : LongDecimalWithOverflowState} {p : Tally} (h : Represents state t)
    (hp : Represents part p) :
    ∃ out, addIntermediate state (serialize part) = .ok out ∧ Represents out (t.merge p) := by
  by_cases hn : part.isNotNull = true
  · obtain ⟨slice,hs,hd⟩ := LongDecimalWithOverflowState.deserialize_serialize hn
    refine ⟨combine state part,?_,h.combine hp (hp.notNull.mp hn)⟩
    rw [hs,addIntermediate,hd]
    rfl
  · refine ⟨state,?_,h.merge_empty hp (Nat.eq_zero_of_not_pos fun hc => hn (hp.notNull.mpr hc))⟩
    rw [serialize,if_neg hn]
    rfl

theorem aggregate_spec : ∃ state, aggregate plan = .ok state ∧ Represents state (tally plan) := by
  apply Plan.runM_rel
  · exact .createSingleState
  · intro s t x h
    cases x with
    | short value => exact h.addDecimal (.short value)
    | long decimal => exact h.addDecimal (.long decimal)
  · intro s t p q h hq
    exact addIntermediate_spec h hq

theorem overflow_eq_zero_iff (h : Represents state t) : state.overflow = 0 ↔ (2 ^ 64 : Int) ∣ t.window.carry := by
  rw [h.overflow,← BitVec.toNat_inj,BitVec.toNat_ofInt,show (0 : Word).toNat = 0 from rfl]
  omega

/-- On a state with inputs the output is the residue, unless the counter or the range check throws. -/
theorem outputLongDecimal_spec (h : Represents state t) (hc : 0 < t.count) :
    ((2 ^ 64 : Int) ∣ t.window.carry ∧ t.window.residue.natAbs < 10 ^ 38 ∧
        ∃ d, outputLongDecimal state = .ok (some d) ∧ d.toBigInteger = t.window.residue) ∨
      (¬ ((2 ^ 64 : Int) ∣ t.window.carry ∧ t.window.residue.natAbs < 10 ^ 38) ∧
        outputLongDecimal state = .error "Decimal overflow") := by
  unfold outputLongDecimal
  rw [if_pos (h.notNull.mpr hc)]
  by_cases ho : state.overflow = 0
  · have hd := (overflow_eq_zero_iff h).mp ho
    rw [if_neg (not_not.mpr ho),Unscaled.throwIfOverflows_eq,h.residue]
    by_cases hr : 10 ^ 38 ≤ t.window.residue.natAbs
    · refine .inr ⟨fun hn => absurd hn.2 (not_lt.mpr hr),?_⟩
      rw [if_pos hr]
      rfl
    · refine .inl ⟨hd,not_le.mp hr,state.unscaledDecimal,?_,h.residue⟩
      rw [if_neg hr]
      rfl
  · refine .inr ⟨fun hn => ho ((overflow_eq_zero_iff h).mpr hn.1),if_pos ho⟩

/-- For every plan of partial states the aggregation yields a state. Its output is NULL,
the exact sum or a decimal overflow as it should be exactly when the running sum, kept in
a window of 2^127, ends in the home window if the sum is below 10^38, and otherwise does
not end a multiple of 2^64 windows away from a residue below 10^38. -/
theorem output_exact_iff : ∃ state, aggregate plan = .ok state ∧
      (OutputsExactSum plan.inputs (outputLongDecimal state) ↔
        ((plan.inputs.map value).sum.natAbs < 10 ^ 38 → (tally plan).window.carry = 0) ∧
        (10 ^ 38 ≤ (plan.inputs.map value).sum.natAbs → ¬ ((2 ^ 64 : Int) ∣ (tally plan).window.carry ∧
            ((plan.inputs.map value).sum - (tally plan).window.carry * 2 ^ 127).natAbs < 10 ^ 38))) := by
  obtain ⟨state,hs,hr⟩ := aggregate_spec plan
  refine ⟨state,hs,?_⟩
  have hcn := tally_count plan
  have ht := tally_total plan
  rw [Windowed.total] at ht
  unfold OutputsExactSum
  by_cases hnl : plan.inputs = []
  · have hz : (tally plan).count = 0 := by rw [hcn,hnl]; rfl
    have hnu : ¬ state.isNotNull = true := fun hn => absurd (hr.notNull.mp hn) (by omega)
    rw [outputLongDecimal,if_neg hnu,hnl]
    refine iff_of_true rfl ⟨fun _ => (hr.empty hz).2,fun h => ?_⟩
    simp at h
  · have hp : 0 < (tally plan).count := by
      rw [hcn]
      exact List.length_pos_iff.mpr hnl
    rw [if_neg hnl]
    generalize (plan.inputs.map value).sum = total at *
    have hrs : total - (tally plan).window.carry * 2 ^ 127 = (tally plan).window.residue := by omega
    obtain ⟨hd,hlt,d,hok,hdv⟩ | ⟨hno,he⟩ := outputLongDecimal_spec hr hp
    · rw [hok,hrs]
      by_cases hsm : total.natAbs < 10 ^ 38
      · rw [if_pos hsm]
        constructor
        · intro hex
          exact ⟨fun _ => by omega,fun h => by omega⟩
        · intro hc
          exact ⟨d,rfl,by omega⟩
      · rw [if_neg hsm]
        refine iff_of_false (fun hex => ?_) fun hc => hc.2 (by omega) ⟨hd,hlt⟩
        cases hex
    · rw [he,hrs]
      by_cases hsm : total.natAbs < 10 ^ 38
      · rw [if_pos hsm]
        refine iff_of_false (fun hex => ?_) fun hc => hno ?_
        · obtain ⟨d',hd',_⟩ := hex
          cases hd'
        · have hz := hc.1 hsm
          rw [hz]
          exact ⟨dvd_zero _,by omega⟩
      · rw [if_neg hsm]
        exact iff_of_true rfl ⟨fun h => absurd h hsm,fun _ => hno⟩

/-- Two inputs of 9·10^37 leave the window; adding the opposite of one comes back to a
sum below 10^38 but not to the home window, and the output throws. -/
theorem output_overflows_on_representable_sum :
    ∃ x y state, Unscaled.packBigInteger (9 * 10 ^ 37) = .ok x ∧ Unscaled.packBigInteger (-9 * 10 ^ 37) = .ok y ∧
      aggregate (.input (.input (.input .fresh (.long x)) (.long x)) (.long y)) = .ok state ∧
      outputLongDecimal state = .error "Decimal overflow" ∧
      ([long x,.long x,.long y].map value).sum = 9 * 10 ^ 37 := by
  refine ⟨_,_,_,rfl,rfl,rfl,?_,?_⟩
  · decide +kernel
  · decide +kernel

end HetuCore.Decimal.DecimalSumAggregation
