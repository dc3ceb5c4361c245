import HetuCore.HeuristicIndex.BloomFilter
import Mathlib.Data.Finset.Max
import Mathlib.Data.Finset.Option
import Mathlib.Data.List.AList

namespace HetuCore.DynamicFiltering
open HeuristicIndex (BloomFilter)

/-- The objects that stand for values: `Long`, `Slice`, `String` and objects of other classes. -/
inductive NativeValue (Other : Type)
  | long (value : Int)
  | slice (bytes : List UInt8)
  | string (text : String)
  | other (object : Other)
deriving DecidableEq

/-- The exceptions that reach a caller. -/
inductive Thrown
  | prestoException
  | classCastException
  | other (name : String)
deriving DecidableEq

/-- What a Bloom filter hashes: null, a `long` or bytes. -/
inductive BloomEntry
  | null
  | long (value : Int)
  | bytes (bytes : List UInt8)

def getLongHash (inputKey : BitVec 64) : BitVec 64 :=
  let key := ~~~inputKey + (inputKey <<< 21)
  let key := key ^^^ key.sshiftRight 24
  let key := (key + (key <<< 3)) + (key <<< 8)
  let key := key ^^^ key.sshiftRight 14
  let key := (key + (key <<< 2)) + (key <<< 4)
  let key := key ^^^ key.sshiftRight 28
  key + (key <<< 31)

/-- The hash of bytes and the estimate of the number of entries. -/
structure BloomHash where
  hash64 : List UInt8 → BitVec 64
  approximateElementCount : BloomFilter → Int

def BloomHash.code (H : BloomHash) : BloomEntry → BitVec 64
  | .null => 2862933555777941757#64
  | .long value => getLongHash (BitVec.ofInt 64 value)
  | .bytes bytes => H.hash64 bytes

def BloomHash.test (H : BloomHash) (filter : BloomFilter) (entry : BloomEntry) : Bool := filter.testHash (H.code entry)

/-- The comparisons that `createDynamicFilterPredicate` knows. -/
inductive Comparison
  | lessThan
  | lessThanOrEqual
  | greaterThan
  | greaterThanOrEqual
deriving DecidableEq

def Comparison.holds : Comparison → Int → Int → Bool
  | .lessThan, probe, build => decide (probe < build)
  | .lessThanOrEqual, probe, build => decide (probe ≤ build)
  | .greaterThan, probe, build => decide (build < probe)
  | .greaterThanOrEqual, probe, build => decide (build ≤ probe)

/-- Values that are not both `Long` pass. -/
def Comparison.test {Other : Type} (comparison : Comparison) : NativeValue Other → NativeValue Other → Bool
  | .long probe, .long build => comparison.holds probe build
  | _, _ => true

/-- The filters without their column; `min` and `max` are null until they are set. -/
inductive DynamicFilter (Other : Type)
  | hashSet (filterId : String) (valueSet : Finset (NativeValue Other)) (min max : Option Int)
  | filtered (filterId : String) (valueSet : Finset (NativeValue Other)) (filter : Option Comparison) (min max : Option Int)
  | bloom (filterId : String) (bloomFilter : BloomFilter) (min max : Option Int)
  | combined (filter1 filter2 : DynamicFilter Other)

namespace DynamicFilter
variable {Other : Type} [DecidableEq Other] (H : BloomHash)

/-- A Bloom filter takes what is not null, `Long` or `Slice` for a `String`. -/
def contains : DynamicFilter Other → Option (NativeValue Other) → Except Thrown Bool
  | .hashSet _ valueSet _ _, value => .ok (value.any fun value => decide (value ∈ valueSet))
  | .filtered _ valueSet none _ _, value => .ok (value.any fun value => decide (value ∈ valueSet))
  | .filtered _ valueSet (some filter) _ _, value =>
    .ok (value.any fun value => decide (∃ dynamicFilterValue ∈ valueSet, filter.test value dynamicFilterValue = true))
  | .bloom _ bloomFilter _ _, none => .ok (H.test bloomFilter .null)
  | .bloom _ bloomFilter _ _, some (.long value) => .ok (H.test bloomFilter (.long value))
  | .bloom _ bloomFilter _ _, some (.slice bytes) => .ok (H.test bloomFilter (.bytes bytes))
  | .bloom _ bloomFilter _ _, some (.string text) => .ok (H.test bloomFilter (.bytes text.toUTF8.toList))
  | .bloom _ _ _ _, some (.other _) => .error .classCastException
  | .combined filter1 filter2, value => do
    if ← filter1.contains value then filter2.contains value else pure false

def getSize : DynamicFilter Other → Int
  | .hashSet _ valueSet _ _ => valueSet.card
  | .filtered _ valueSet _ _ _ => valueSet.card
  | .bloom _ bloomFilter _ _ => H.approximateElementCount bloomFilter
  | .combined filter1 filter2 => filter1.getSize + filter2.getSize

def isEmpty : DynamicFilter Other → Bool
  | .hashSet _ valueSet _ _ => decide (valueSet.card = 0)
  | .filtered _ valueSet _ _ _ => decide (valueSet.card = 0)
  | .bloom _ bloomFilter _ _ => decide (bloomFilter.bitSet.card = 0)
  | .combined filter1 filter2 => filter1.isEmpty && filter2.isEmpty

def longs (valueSet : Finset (NativeValue Other)) : Finset Int :=
  (valueSet.image fun value => match value with
    | .long n => some n
    | _ => none).eraseNone

/-- The bounds of a set of `Long` values; a set of other values has none. -/
def setMinMax : DynamicFilter Other → DynamicFilter Other
  | .hashSet filterId valueSet min max =>
    if valueSet = (longs valueSet).image .long ∧ valueSet.Nonempty then
      .hashSet filterId valueSet (longs valueSet).min (longs valueSet).max
    else .hashSet filterId valueSet min max
  | .filtered filterId valueSet filter min max =>
    if valueSet = (longs valueSet).image .long ∧ valueSet.Nonempty then
      .filtered filterId valueSet filter (longs valueSet).min (longs valueSet).max
    else .filtered filterId valueSet filter min max
  | filter => filter

end DynamicFilter

/-- The filters of one disjunct by their columns. -/
abbrev FilterMap (Column Other : Type) := AList fun _ : Column => DynamicFilter Other

/-- A row gives a value, or NULL, to each column. -/
abbrev Row (Column Other : Type) := Column → Option (NativeValue Other)

end HetuCore.DynamicFiltering
