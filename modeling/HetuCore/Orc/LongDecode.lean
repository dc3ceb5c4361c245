import HetuCore.Foundation.Leb128

namespace HetuCore.Orc
open Foundation BitVec

abbrev Long := BitVec 64

namespace LongDecode

variable (value : Long)

def zigzagEncode : Long := (value <<< 1) ^^^ (value.sshiftRight 63)

def zigzagDecode : Long := (value >>> 1) ^^^ -(value &&& 1)

/-- Each round writes seven bits, so ten are enough. -/
def writeVLongUnsigned : Nat → Long → List Byte
  | 0,_ => []
  | rounds + 1,value =>
    if value &&& ~~~0x7f = 0 then [value.setWidth 8]
    else (0x80 ||| (value &&& 0x7f)).setWidth 8 :: writeVLongUnsigned rounds (value >>> 7)

variable (signed : Bool)

def writeVLong : List Byte :=
  writeVLongUnsigned 10 (if signed then zigzagEncode value else value)

/-- The distance of a shift is taken modulo the width. -/
def readUnsignedVIntFrom (result : Long) (offset : Nat) : Parser Long
  | [] => .error "EOF while reading unsigned vint"
  | b :: rest =>
    let result := result ||| ((b.setWidth 64 &&& 0x7f) <<< (offset % 64))
    if b &&& 0x80 ≠ 0 then readUnsignedVIntFrom result (offset + 7) rest else .ok (result,rest)

def readUnsignedVInt : Parser Long := readUnsignedVIntFrom 0 0

def readSignedVInt : Parser Long := do
  let result ← readUnsignedVInt
  pure (zigzagDecode result)

def readVInt : Parser Long := if signed then readSignedVInt else readUnsignedVInt

section zigzag

variable (value : Long)

theorem sshiftRight_sign : value.sshiftRight 63 = if value.toNat < 2 ^ 63 then 0#64 else allOnes 64 := by
  apply eq_of_toInt_eq
  have hd := toInt_eq_toNat_cond value
  rw [toInt_sshiftRight,Int.shiftRight_eq_div_pow]
  split
  · rw [toInt_zero]
    omega
  · norm_num
    omega

theorem toNat_zigzagEncode :
    (zigzagEncode value).toNat = if value.toNat < 2 ^ 63 then 2 * value.toNat else 2 * (2 ^ 64 - value.toNat) - 1 := by
  have hs : (value <<< 1).toNat = 2 * value.toNat % 2 ^ 64 := by
    rw [toNat_shiftLeft,Nat.shiftLeft_eq,Nat.mul_comm]
  rw [zigzagEncode,sshiftRight_sign]
  split
  · rw [xor_zero]
    omega
  · rw [xor_allOnes,toNat_not]
    omega

theorem toNat_zigzagDecode :
    (zigzagDecode value).toNat = if value.toNat % 2 = 0 then value.toNat / 2 else 2 ^ 64 - 1 - value.toNat / 2 := by
  have hl : (value &&& 1).toNat = value.toNat % 2 := by
    exact Nat.and_two_pow_sub_one_eq_mod value.toNat 1
  have hs : (value >>> 1).toNat = value.toNat / 2 := by
    rw [toNat_ushiftRight,Nat.shiftRight_eq_div_pow]
  rw [zigzagDecode]
  split
  · rename_i he
    have hz : value &&& 1 = 0#64 := eq_of_toNat_eq (hl.trans he)
    rw [hz,neg_zero,xor_zero,hs]
  · rename_i ho
    have hon : value &&& 1 = 1#64 := eq_of_toNat_eq (hl.trans (Nat.mod_two_ne_zero.mp ho))
    have hn : -(1#64) = allOnes 64 := by decide
    rw [hon,hn,xor_allOnes,toNat_not,hs]

theorem zigzagDecode_zigzagEncode : zigzagDecode (zigzagEncode value) = value := by
  apply eq_of_toNat_eq
  rw [toNat_zigzagDecode,toNat_zigzagEncode]
  split
  · split
    · omega
    · omega
  · split
    · omega
    · omega

end zigzag

section varint

theorem low_eq : (value &&& 0x7f).toNat = value.toNat % 128 := by
  exact Nat.and_two_pow_sub_one_eq_mod value.toNat 7

theorem high_eq_zero {mask : Long} (hm : ∀ i : Fin 64, mask.getLsbD i = decide (i.val < 7)) (value : Long) :
    value &&& ~~~mask = 0 ↔ value.toNat < 128 := by
  have hs : value &&& ~~~mask = (value >>> 7) <<< 7 := by
    apply eq_of_getLsbD_eq
    intro i hi
    rw [getLsbD_and,getLsbD_not,hm ⟨i,hi⟩]
    by_cases h : i < 7
    · simp [h]
    · simp [h,hi,show 7 + (i - 7) = i by omega]
  have hn : ((value >>> 7) <<< 7).toNat = value.toNat / 128 * 128 := by
    rw [toNat_shiftLeft,toNat_ushiftRight]
    omega
  rw [hs,← toNat_inj]
  change _ = 0 ↔ _
  omega

/-- A group with the bit that says another follows. -/
theorem toNat_group : ((0x80 ||| (value &&& 0x7f)).setWidth 8 : Byte).toNat = 128 + value.toNat % 128 := by
  have hl := low_eq value
  have hor : (0x80 ||| (value &&& 0x7f)).toNat = 128 + value.toNat % 128 := by
    rw [toNat_or,hl]
    exact (Nat.two_pow_add_eq_or_of_lt (i := 7) (by omega) 1).symm
  rw [toNat_setWidth]
  omega

theorem leb128_writeVLongUnsigned {rounds : Nat} {value : Long} (h : value.toNat < 128 ^ (rounds + 1)) :
    Leb128 (writeVLongUnsigned (rounds + 1) value) value.toNat := by
  induction rounds generalizing value with
  | zero =>
    have hs : value.toNat < 128 := by simpa using h
    have hb : (value.setWidth 8 : Byte).toNat = value.toNat := by
      rw [toNat_setWidth]
      omega
    rw [writeVLongUnsigned,if_pos ((high_eq_zero (by decide) value).mpr hs)]
    conv => rw [← hb]
    exact .last _ (by omega)
  | succ rounds ih =>
    rw [writeVLongUnsigned]
    split
    · rename_i hz
      have hs := (high_eq_zero (by decide) value).mp hz
      have hb : (value.setWidth 8 : Byte).toNat = value.toNat := by
        rw [toNat_setWidth]
        omega
      conv => rw [← hb]
      exact .last _ (by omega)
    · have hsh : (value >>> 7).toNat = value.toNat / 128 := by
        rw [toNat_ushiftRight,Nat.shiftRight_eq_div_pow]
      have hsm : (value >>> 7).toNat < 128 ^ (rounds + 1) := by
        omega
      have hr := ih hsm
      have hg := toNat_group value
      have hm := Leb128.more ((0x80 ||| (value &&& 0x7f)).setWidth 8) _ _ (by omega) hr
      have hv : ((0x80 ||| (value &&& 0x7f)).setWidth 8 : Byte).toNat - 128 + 128 * (value >>> 7).toNat = value.toNat := by
        omega
      rw [hv] at hm
      exact hm

theorem more_iff : ∀ b : Byte, b &&& 0x80 ≠ 0 ↔ 128 ≤ b.toNat := by
  decide +kernel

theorem toNat_or_group (b : Byte) {result : Long} {offset : Nat} (hr : result.toNat < 2 ^ offset)
    (hf : b.toNat % 128 * 2 ^ offset < 2 ^ 64) (ho : offset < 64 ∨ b.toNat % 128 = 0) :
    (result ||| ((b.setWidth 64 &&& 0x7f) <<< (offset % 64))).toNat = result.toNat + b.toNat % 128 * 2 ^ offset := by
  have hg : (b.setWidth 64 &&& 0x7f : Long).toNat = b.toNat % 128 := by
    rw [low_eq,toNat_setWidth]
    omega
  rw [toNat_or,toNat_shiftLeft,hg,Nat.shiftLeft_eq]
  by_cases hl : offset < 64
  · rw [Nat.mod_eq_of_lt hl,Nat.mod_eq_of_lt hf,Nat.or_comm,Nat.add_comm,Nat.mul_comm]
    exact (Nat.two_pow_add_eq_or_of_lt hr _).symm
  · have hz : b.toNat % 128 = 0 := ho.resolve_left hl
    rw [hz]
    simp

theorem readUnsignedVIntFrom_eq {bytes : List Byte} {n : Nat} (h : Leb128 bytes n) (rest : List Byte) {result : Long}
    {offset : Nat} (hr : result.toNat < 2 ^ offset) (hf : n * 2 ^ offset < 2 ^ 64) (ho : offset < 64 ∨ n = 0) :
    ∃ value, readUnsignedVIntFrom result offset (bytes ++ rest) = .ok (value,rest) ∧
      value.toNat = result.toNat + n * 2 ^ offset := by
  induction h generalizing result offset with
  | last b hb =>
    have hm : b.toNat % 128 = b.toNat := Nat.mod_eq_of_lt hb
    have hv := toNat_or_group b hr (by rw [hm]; exact hf) (by rw [hm]; exact ho)
    rw [hm] at hv
    refine ⟨_,?_,hv⟩
    exact if_neg (by rw [more_iff]; omega)
  | more b bytes n hb hby ih =>
    have hm : b.toNat % 128 = b.toNat - 128 := by omega
    obtain ⟨hg,hrs,hn⟩ := Leb128.room hf
    have hv := toNat_or_group b hr (by rw [hm]; exact hg) (by rw [hm]; omega)
    rw [hm] at hv
    have hp : 2 ^ (offset + 7) = 2 ^ offset * 128 := Nat.pow_add 2 offset 7
    have hbn : result.toNat + (b.toNat - 128) * 2 ^ offset < 2 ^ (offset + 7) := by
      have hle : (b.toNat - 128) * 2 ^ offset ≤ 127 * 2 ^ offset := Nat.mul_le_mul_right _ (by omega)
      omega
    obtain ⟨value,hrd,ht⟩ := ih (hv ▸ hbn) hrs hn
    refine ⟨value,?_,?_⟩
    · exact (if_pos ((more_iff b).mpr hb)).trans hrd
    · rw [ht,hv]
      ring

end varint

theorem parses_readUnsignedVInt : Parser.Parses readUnsignedVInt (writeVLongUnsigned 10 value) value := by
  intro rest
  have hl : Leb128 (writeVLongUnsigned 10 value) value.toNat := leb128_writeVLongUnsigned (by omega)
  obtain ⟨read,hr,hv⟩ := readUnsignedVIntFrom_eq hl rest (by decide : (0 : Long).toNat < 2 ^ 0) (by omega)
    (.inl (by decide))
  have hs : read = value := by
    apply eq_of_toNat_eq
    simpa using hv
  rw [readUnsignedVInt,hr,hs]

theorem parses_readVInt : Parser.Parses (readVInt signed) (writeVLong value signed) value := by
  cases signed with
  | false => exact parses_readUnsignedVInt value
  | true =>
    intro rest
    change (readUnsignedVInt (writeVLongUnsigned 10 (zigzagEncode value) ++ rest) >>= _) = _
    rw [parses_readUnsignedVInt]
    exact congrArg (fun value => Except.ok (value,rest)) (zigzagDecode_zigzagEncode value)

end LongDecode
end HetuCore.Orc
