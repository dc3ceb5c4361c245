import HetuCore.Orc.BooleanReader
import Mathlib.Data.Bool.Count

namespace HetuCore.Orc
open Foundation ByteInputStream BlockFormat List

namespace BooleanInputStream
variable {γ : Type}

/-- The elements are those of the bits, and so is the count. -/
structure Sets (setter : BitSetter γ) (weight : Bool → Nat) (element : Bool → γ) : Prop where
  part : ∀ count ≤ 7, ∀ data, setter.part count data = tally weight element ((bitsOf data).take count)
  whole : ∀ byte, setter.whole byte = tally weight element (bitsOf byte)

variable {setter : BitSetter γ} {weight : Bool → Nat} {element : Bool → γ} {segments : List (Segment format)}
  {s : BooleanInputStream} {n : Nat}

section
variable (hst : Sets setter weight element)
include hst

theorem Holds.getBytes (h : Holds segments s n) (he : s.bitsInData = 0) {rounds items : Nat} (hrn : items ≤ rounds) :
    Agree (fun s n => Holds segments s n ∧ s.bitsInData = 0) (getBytes setter rounds items s)
      (gather (tally weight element) (bitsOfBytes (valuesOf segments)) (8 * (items / 8)) n) := by
  induction rounds generalizing items s n with
  | zero =>
    obtain rfl : items = 0 := by omega
    exact ⟨rfl,h,he⟩
  | succ rounds ih =>
    rw [BooleanInputStream.getBytes]
    by_cases hm : items > 7
    · have hw : 8 * (items / 8) = 8 + 8 * ((items - 8) / 8) := by omega
      rw [if_pos hm,hw]
      obtain ⟨byte,byteStream,hr,hh⟩ | ⟨hr,rfl⟩ := h.nextByte he
      · have ht := hh.top (Nat.le_refl 8)
        rw [take_of_length_le (Nat.le_of_eq (length_bitsOf _))] at ht
        rw [gather_tally ht,← hst.whole,hr]
        exact (ih (hh.skipData he) he (show items - 8 ≤ rounds by omega)).bind fun c s' n' h' => ⟨rfl,h'⟩
      · rw [hr,gather_end (by omega)]
        rfl
    · obtain hz : items / 8 = 0 := by omega
      rw [if_neg hm,hz]
      exact ⟨rfl,h,he⟩

theorem Holds.getTail (h : Holds segments s n) (he : s.bitsInData = 0) {items : Nat} (hi : items ≤ 7) :
    Agree (Stands segments) (getTail setter items s)
      (gather (tally weight element) (bitsOfBytes (valuesOf segments)) items n) := by
  rw [BooleanInputStream.getTail]
  by_cases hp : items > 0
  · rw [if_pos hp]
    obtain ⟨byte,byteStream,hr,hh⟩ | ⟨hr,rfl⟩ := h.nextByte he
    · have hle : items ≤ 8 := by omega
      rw [hr,gather,hh.top hle]
      exact ⟨hst.part items hi byte,.of_shift (hh.shift hle) hp⟩
    · rw [hr,gather_end hp]
      rfl
  · obtain rfl : items = 0 := by omega
    exact ⟨rfl,h,by omega⟩

theorem Holds.getUnbuffered (h : Holds segments s n) (he : s.bitsInData = 0) (items : Nat) :
    Agree (Stands segments) (getUnbuffered setter items s)
      (gather (tally weight element) (bitsOfBytes (valuesOf segments)) items n) := by
  have hb := h.getBytes hst he (Nat.le_refl items)
  have hs : items = 8 * (items / 8) + items % 8 := (Nat.div_add_mod items 8).symm
  rw [BooleanInputStream.getUnbuffered]
  conv => arg 3; rw [hs]
  cases ht : takeBits (bitsOfBytes (valuesOf segments)) (8 * (items / 8)) n with
  | error message =>
    rw [gather,ht] at hb
    rw [hb.of_error,gather,takeBits_add,ht]
    rfl
  | ok c =>
    obtain ⟨front,n'⟩ := c
    rw [gather,ht] at hb
    obtain ⟨s',hr,hh,hz⟩ := hb.of_ok
    have hl : items - (tally weight element front).2.length = items % 8 := by
      rw [tally,length_map,length_takeBits ht]
      omega
    rw [hr,gather_tally ht]
    change Agree _ (BooleanInputStream.getTail setter (items - (tally weight element front).2.length) s' >>= _) _
    rw [hl]
    exact (hh.getTail hst hz (Nat.le_of_lt_succ (Nat.mod_lt items (by decide)))).bind fun c s'' n'' h'' => ⟨rfl,h''⟩

theorem Stands.getBits (h : Stands segments s n) (batchSize : Nat) :
    Agree (Stands segments) (getBits setter batchSize s)
      (gather (tally weight element) (bitsOfBytes (valuesOf segments)) batchSize n) := by
  have hr := h.room
  rw [BooleanInputStream.getBits]
  generalize hc : min batchSize s.bitsInData = count
  by_cases hz : count = 0
  · rw [if_neg fun hne => hne hz]
    by_cases he : s.bitsInData = 0
    · exact h.getUnbuffered hst he batchSize
    · obtain rfl : batchSize = 0 := by omega
      exact ⟨rfl,h⟩
  · have hle : count ≤ s.bitsInData := by omega
    have ht := h.top hle
    have hs := h.shift hle
    rw [if_pos hz,hst.part count (by omega)]
    by_cases ha : count = batchSize
    · rw [if_pos ha,← ha,gather,ht]
      refine ⟨rfl,hs,?_⟩
      change s.bitsInData - count < 8
      omega
    · have he : (s.shift count).bitsInData = 0 := by
        change s.bitsInData - count = 0
        omega
      have hl : batchSize - (tally weight element ((bitsOf s.data).take count)).2.length = batchSize - count := by
        rw [tally,length_map,length_takeBits ht]
      have hsm : batchSize = count + (batchSize - count) := by omega
      rw [if_neg ha,hl]
      conv => arg 3; rw [hsm,gather_tally ht]
      exact (hs.getUnbuffered hst he (batchSize - count)).bind fun c s' n' h' => ⟨rfl,h'⟩

end

theorem signExtend_and_mask (data : Byte) : data.signExtend 32 &&& 0xff = data.setWidth 32 := by
  apply BitVec.eq_of_getLsbD_eq
  intro i hi
  have hm : BitVec.getLsbD (0xff : BitVec 32) i = decide (i < 8) := by
    revert i
    decide
  rw [BitVec.getLsbD_and,hm,BitVec.getLsbD_signExtend]
  by_cases hl : i < 8
  · simp [hl]
  · simp [hl,BitVec.getLsbD_of_ge data i (by omega)]

variable {count : Nat} {i : Nat} {data : Byte}

theorem getLsbD_value (hc : count ≤ 8) (hi : i < count) :
    (data.signExtend 32 >>> (8 - count)).getLsbD i = data.getLsbD (8 - count + i) := by
  have hl : 8 - count + i < 8 := by omega
  have hh : 8 - count + i < 32 := by omega
  rw [BitVec.getLsbD_ushiftRight,BitVec.getLsbD_signExtend]
  simp [hl,hh]

theorem getLsbD_maskedValue (hc : count ≤ 8) (hi : i < count) :
    ((data.signExtend 32 &&& 0xff) >>> (8 - count)).getLsbD i = data.getLsbD (8 - count + i) := by
  have hh : 8 - count + i < 32 := by omega
  rw [signExtend_and_mask]
  simp [hh]

theorem map_reverse_range {f : Bool → γ} {g : Nat → γ} (hc : count ≤ 8)
    (hg : ∀ i < count, g i = f (data.getLsbD (8 - count + i))) :
    (range count).reverse.map g = ((bitsOf data).take count).map f := by
  apply ext_getElem
  · simp [hc]
  · intro j hj hj'
    have hlt : j < count := by simpa using hj
    have hb : data.getMsbD j = data.getLsbD (8 - count + (count - 1 - j)) := by
      rw [BitVec.getMsbD_eq_getLsbD,decide_eq_true (by omega),Bool.true_and]
      congr 1
      omega
    simp only [getElem_map,getElem_reverse,getElem_range,length_range,getElem_take,getElem_bitsOf]
    rw [hg _ (by omega),hb]

variable (value : BitVec 32)

theorem and_single (i : Nat) :
    value &&& ((1 : BitVec 32) <<< i) = if value.getLsbD i then BitVec.twoPow 32 i else 0 :=
  BitVec.and_twoPow value i

theorem setBit_eq (hi : i < 8) :
    ((value &&& ((1 : BitVec 32) <<< i)) >>> i).setWidth 8 = if value.getLsbD i then (1 : Byte) else 0 := by
  have ho : (BitVec.twoPow 32 i >>> i).setWidth 8 = (1 : Byte) := by
    revert i
    decide
  rw [and_single]
  split
  · exact ho
  · simp

theorem unsetBit_eq (hi : i < 8) : decide (value &&& ((1 : BitVec 32) <<< i) = 0) = !value.getLsbD i := by
  have ho : BitVec.twoPow 32 i ≠ 0 := by
    revert i
    decide
  rw [and_single]
  cases value.getLsbD i with
  | true => exact decide_eq_false ho
  | false => rfl

theorem bitCount_value (data : Byte) (hc : count ≤ 8) :
    bitCount ((data.signExtend 32 &&& 0xff) >>> (8 - count)) = ((bitsOf data).take count).count true := by
  have hb : bitsOf ((data.signExtend 32 &&& 0xff) >>> (8 - count)) =
      replicate (32 - count) false ++ (bitsOf data).take count := by
    rw [signExtend_and_mask]
    apply ext_getElem
    · simp
      omega
    · intro j hj hj'
      have hlt : j < 32 := by simpa using hj
      rw [getElem_bitsOf,BitVec.getMsbD_eq_getLsbD,decide_eq_true hlt,Bool.true_and,BitVec.getLsbD_ushiftRight,
        BitVec.getLsbD_setWidth]
      by_cases hl : j < 32 - count
      · rw [getElem_append_left (by simpa using hl),getElem_replicate,BitVec.getLsbD_of_ge data _ (by omega),Bool.and_false]
      · rw [getElem_append_right (by simpa using Nat.le_of_not_lt hl),getElem_take,getElem_bitsOf,
          BitVec.getMsbD_eq_getLsbD,length_replicate,decide_eq_true (by omega),decide_eq_true (by omega),Bool.true_and,
          Bool.true_and]
        congr 1
        omega
  rw [bitCount,hb,count_append,count_replicate]
  exact Nat.zero_add _

theorem sum_weights (taken : List Bool) : (taken.map fun bit => if bit then 0 else 1).sum = taken.count false := by
  induction taken with
  | nil => rfl
  | cons bit taken ih =>
    rw [map_cons,sum_cons,ih,count_cons,Nat.add_comm]
    cases bit <;> rfl

theorem count_false (taken : List Bool) : taken.length - taken.count true = taken.count false := by
  have hs := count_not_add_count taken true
  change taken.count false + _ = _ at hs
  omega

theorem take_whole (byte : Byte) : (bitsOf byte).take 8 = bitsOf byte := take_of_length_le (Nat.le_of_eq (length_bitsOf _))

theorem tally_zero (element : Bool → γ) (taken : List Bool) : tally (fun _ => 0) element taken = (0,taken.map element) := by
  simp [tally]

theorem sets_setBits : Sets setBits (fun _ => 0) (fun bit => if bit then 1 else 0) := by
  refine ⟨?_,?_⟩
  · intro count hc data
    rw [tally_zero]
    refine congrArg (Prod.mk 0) ((if_pos hc).trans (map_reverse_range (by omega) ?_))
    intro i hi
    rw [setBit_eq _ (by omega),getLsbD_value (by omega) hi]
  · intro byte
    refine congrArg (Prod.mk 0) (map_reverse_range (Nat.le_refl 8) ?_)
    intro i hi
    rw [setBit_eq _ hi,← getLsbD_value (Nat.le_refl 8) hi]
    rfl

theorem sets_unsetBits : Sets unsetBits (fun bit => if bit then 0 else 1) not := by
  refine ⟨?_,?_⟩
  · intro count hc data
    have hl : ((bitsOf data).take count).length = count := by
      rw [length_take,length_bitsOf]
      omega
    have hn := count_false ((bitsOf data).take count)
    rw [hl,← bitCount_value data (by omega)] at hn
    rw [tally,sum_weights,← hn]
    refine congrArg (Prod.mk _) ((if_pos hc).trans (map_reverse_range (by omega) ?_))
    intro i hi
    rw [unsetBit_eq _ (by omega),getLsbD_maskedValue (by omega) hi]
  · intro byte
    have hn := count_false ((bitsOf byte).take 8)
    rw [← bitCount_value byte (Nat.le_refl 8),take_whole] at hn
    rw [tally,sum_weights,← hn]
    refine congrArg (Prod.mk _) (map_reverse_range (Nat.le_refl 8) ?_)
    intro i hi
    rw [unsetBit_eq _ hi,← getLsbD_value (Nat.le_refl 8) hi]
    rfl

end BooleanInputStream
end HetuCore.Orc
