import Mathlib.Data.BitVec

namespace HetuCore.Hash

/-- The finalisation step of MurmurHash3, which avalanches the bits of a `long`. -/
def murmurHash3 (x : BitVec 64) : BitVec 64 :=
  let x := x ^^^ (x >>> 33)
  let x := x * 0xff51afd7ed558ccd#64
  let x := x ^^^ (x >>> 33)
  let x := x * 0xc4ceb9fe1a85ec53#64
  x ^^^ (x >>> 33)

/-- `murmurHash3(rawHash) & mask` for the mask of a table of `2 ^ bits` slots. -/
def getHashPosition (bits : Nat) (rawHash : BitVec 64) : Fin (2 ^ bits) :=
  ⟨(murmurHash3 rawHash).toNat % 2 ^ bits,Nat.mod_lt _ (Nat.two_pow_pos bits)⟩

/-- `(byte) rawHash`, the tag that a table keeps of a hash. -/
def tag (rawHash : BitVec 64) : BitVec 8 := rawHash.setWidth 8

end HetuCore.Hash
