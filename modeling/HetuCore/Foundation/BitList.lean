import HetuCore.Foundation.ByteParser

namespace HetuCore.Foundation
open List
variable {w : Nat}

def bitsOf (x : BitVec w) : List Bool := (range w).map x.getMsbD

variable (x : BitVec w)

@[simp] theorem length_bitsOf : (bitsOf x).length = w := by simp [bitsOf]

@[simp] theorem getElem_bitsOf {i : Nat} (hi : i < (bitsOf x).length) : (bitsOf x)[i] = x.getMsbD i := by
  simp [bitsOf]

theorem bitsOf_or (y : BitVec w) : bitsOf (x ||| y) = zipWith (· || ·) (bitsOf x) (bitsOf y) := by
  apply ext_getElem
  · simp
  · simp

theorem bitsOf_shiftLeft {k : Nat} (hk : k ≤ w) : bitsOf (x <<< k) = (bitsOf x).drop k ++ replicate k false := by
  apply ext_getElem
  · rw [length_bitsOf,length_append,length_drop,length_bitsOf,length_replicate,Nat.sub_add_cancel hk]
  · intro i hi hi'
    rw [getElem_bitsOf,BitVec.getMsbD_shiftLeft]
    by_cases hl : i < w - k
    · rw [getElem_append_left (by simpa using hl),getElem_drop,getElem_bitsOf,Nat.add_comm]
    · rw [getElem_append_right (by simpa using Nat.le_of_not_lt hl),getElem_replicate]
      exact BitVec.getMsbD_of_ge _ _ (by omega)

def bitsOfBytes (bytes : List Byte) : List Bool := bytes.flatMap bitsOf

theorem bitsOfBytes_cons (byte : Byte) (bytes : List Byte) : bitsOfBytes (byte :: bytes) = bitsOf byte ++ bitsOfBytes bytes :=
  flatMap_cons ..

variable (bytes : List Byte)

theorem bitsOfBytes_append (more : List Byte) : bitsOfBytes (bytes ++ more) = bitsOfBytes bytes ++ bitsOfBytes more :=
  flatMap_append

@[simp] theorem length_bitsOfBytes : (bitsOfBytes bytes).length = 8 * bytes.length := by
  induction bytes with
  | nil => rfl
  | cons byte bytes ih =>
    rw [bitsOfBytes_cons,length_append,length_bitsOf,length_cons]
    omega

theorem drop_bitsOfBytes (m : Nat) : (bitsOfBytes bytes).drop (8 * m) = bitsOfBytes (bytes.drop m) := by
  induction m generalizing bytes with
  | zero => rfl
  | succ m ih =>
    cases bytes with
    | nil => rfl
    | cons byte bytes =>
      have hn : 8 * (m + 1) = (bitsOf byte).length + 8 * m := by
        rw [length_bitsOf]
        omega
      rw [bitsOfBytes_cons,hn,drop_append,drop_of_length_le (Nat.le_add_right ..),Nat.add_sub_cancel_left,ih]
      rfl

end HetuCore.Foundation
