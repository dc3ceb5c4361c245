import Mathlib.Data.Rat.Floor

namespace HetuCore.Foundation

def roundHalfUp (q : ℚ) : ℤ := if 0 ≤ q then ⌊q + 1 / 2⌋ else -⌊-q + 1 / 2⌋

theorem abs_roundHalfUp_sub_le (q : ℚ) : |(roundHalfUp q : ℚ) - q| ≤ 1 / 2 := by
  rw [abs_le]
  unfold roundHalfUp
  split
  · have hl := Int.floor_le (q + 1 / 2)
    have hu := Int.lt_floor_add_one (q + 1 / 2)
    constructor <;> linarith
  · have hl := Int.floor_le (-q + 1 / 2)
    have hu := Int.lt_floor_add_one (-q + 1 / 2)
    push_cast
    constructor <;> linarith

theorem abs_roundHalfUp_le {q : ℚ} {m : ℤ} (h : |q| ≤ m) : |roundHalfUp q| ≤ m := by
  obtain ⟨hl,hu⟩ := abs_le.mp h
  have hm : (0 : ℚ) ≤ m := (abs_nonneg q).trans h
  have hm' : 0 ≤ m := by exact_mod_cast hm
  rw [abs_le]
  unfold roundHalfUp
  split
  · refine ⟨?_,?_⟩
    · have hz : 0 ≤ ⌊q + 1 / 2⌋ := Int.floor_nonneg.mpr (by linarith)
      omega
    · exact Int.lt_add_one_iff.mp (Int.floor_lt.mpr (by push_cast; linarith))
  · have hz : 0 ≤ ⌊-q + 1 / 2⌋ := Int.floor_nonneg.mpr (by linarith)
    have hb : ⌊-q + 1 / 2⌋ < m + 1 := Int.floor_lt.mpr (by push_cast; linarith)
    omega

/-- The integer computation: double, add the divisor and divide, on magnitudes. -/
theorem roundHalfUp_div (a : ℤ) {b : ℤ} (hb : 0 < b) :
    roundHalfUp (a / b) = if 0 ≤ a then (2 * a + b) / (2 * b) else -((2 * (-a) + b) / (2 * b)) := by
  have hbq : (0 : ℚ) < b := by exact_mod_cast hb
  have hf : ∀ x : ℤ, ⌊(x / b : ℚ) + 1 / 2⌋ = (2 * x + b) / (2 * b) := by
    intro x
    have heq : (x / b : ℚ) + 1 / 2 = ((2 * x + b : ℤ) : ℚ) / ((2 * b).toNat : ℕ) := by
      have hc : (((2 * b).toNat : ℕ) : ℚ) = 2 * b := by
        have hn : (((2 * b).toNat : ℕ) : ℤ) = 2 * b := Int.toNat_of_nonneg (by omega)
        exact_mod_cast hn
      rw [hc]
      push_cast
      field_simp
    rw [heq,Rat.floor_intCast_div_natCast,Int.toNat_of_nonneg (by omega)]
  unfold roundHalfUp
  by_cases ha : 0 ≤ a
  · rw [if_pos ha,if_pos (div_nonneg (by exact_mod_cast ha) hbq.le),hf]
  · have hng : ¬ 0 ≤ (a / b : ℚ) := by
      rw [not_le]
      exact div_neg_of_neg_of_pos (by exact_mod_cast not_le.mp ha) hbq
    rw [if_neg ha,if_neg hng,← hf (-a)]
    push_cast
    rw [neg_div]

end HetuCore.Foundation
