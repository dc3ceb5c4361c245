import Mathlib.Data.Finset.Basic

namespace HetuCore.HeuristicIndex

/-- `BloomFilter` for a hash of its entries. -/
structure BloomFilter where
  numHashFunctions : Nat
  numBits : Nat
  bitSet : Finset Nat
deriving DecidableEq

namespace BloomFilter

variable (filter : BloomFilter) (hash64 : BitVec 64)

/-- The bits of a hash code. A combined code that is negative as an `int` is flipped. -/
def positions : List Nat :=
  (List.range filter.numHashFunctions).map fun i =>
    let hash1 := hash64.setWidth 32
    let hash2 := (hash64 >>> 32).setWidth 32
    let combinedHash : BitVec 32 := hash1 + BitVec.ofNat 32 (i + 1) * hash2
    (if combinedHash.msb then ~~~combinedHash else combinedHash).toNat % filter.numBits

def addHash : BloomFilter :=
  { filter with bitSet := filter.bitSet ∪ (filter.positions hash64).toFinset }

def testHash : Bool :=
  (filter.positions hash64).all fun position => decide (position ∈ filter.bitSet)

end BloomFilter

end HetuCore.HeuristicIndex
