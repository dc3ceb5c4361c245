import HetuCore.Foundation.ByteParser
import Mathlib.Tactic.Ring

/-! Numbers as groups of seven bits, the least significant group first; the high bit of a byte
says that another group follows. -/
namespace HetuCore.Foundation

/-- The bytes stand for the number. -/
inductive Leb128 : List Byte → Nat → Prop where
  | last (b : Byte) (h : b.toNat < 128) : Leb128 [b] b.toNat
  | more (b : Byte) (bytes : List Byte) (n : Nat) (h : 128 ≤ b.toNat) (rest : Leb128 bytes n) :
      Leb128 (b :: bytes) (b.toNat - 128 + 128 * n)

namespace Leb128

/-- A group may be put into a word at its place: it has room there, or is zero. -/
theorem room {group n offset width : Nat} (hf : (group + 128 * n) * 2 ^ offset < 2 ^ width) :
    group * 2 ^ offset < 2 ^ width ∧ n * 2 ^ (offset + 7) < 2 ^ width ∧ (offset + 7 < width ∨ n = 0) := by
  have hs : (group + 128 * n) * 2 ^ offset = group * 2 ^ offset + n * 2 ^ (offset + 7) := by
    ring
  refine ⟨by omega,by omega,?_⟩
  by_cases hn : n = 0
  · exact .inr hn
  · by_contra hge
    have hp : 2 ^ width ≤ 2 ^ (offset + 7) := Nat.pow_le_pow_right (by decide) (by omega)
    have ho : 1 * 2 ^ (offset + 7) ≤ n * 2 ^ (offset + 7) := Nat.mul_le_mul_right _ (by omega)
    omega

end Leb128
end HetuCore.Foundation
