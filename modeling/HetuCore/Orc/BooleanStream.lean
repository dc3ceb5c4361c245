import HetuCore.Foundation.BitList
import HetuCore.Orc.ByteStream

namespace HetuCore.Orc
open Foundation ByteInputStream

structure BooleanCheckpoint where
  offset : Nat
  byteStreamCheckpoint : BlockCheckpoint

structure BooleanOutputStream where
  byteOutputStream : ByteOutputStream
  checkpointBitOffsets : List Nat
  bitsInData : Nat
  data : BitVec 32
  closed : Bool

namespace BooleanOutputStream

def new : BooleanOutputStream := ⟨.new,[],0,0,false⟩

def getLowBitMask (bits : Nat) : BitVec 32 := ((0x1 : BitVec 32) <<< bits) - 1

variable (s : BooleanOutputStream)

def flushData : Except String BooleanOutputStream := do
  let byteOutputStream ← s.byteOutputStream.writeByte (s.data.setWidth 8)
  pure { s with byteOutputStream := byteOutputStream, data := 0, bitsInData := 0 }

def flushIfFull : Except String BooleanOutputStream :=
  if s.bitsInData = 8 then s.flushData else pure s

def writeBoolean (value : Bool) : Except String BooleanOutputStream :=
  if s.closed then .error "IllegalStateException"
  else
    let data := if value then s.data ||| ((0x1 : BitVec 32) <<< (7 - s.bitsInData)) else s.data
    { s with data := data, bitsInData := s.bitsInData + 1 }.flushIfFull

/-- The bits go on in the data that is there. -/
def fill (bitsToWrite : Nat) (value : Bool) : BooleanOutputStream :=
  let data := if value then s.data ||| (getLowBitMask bitsToWrite <<< (8 - s.bitsInData - bitsToWrite)) else s.data
  { s with data := data, bitsInData := s.bitsInData + bitsToWrite }

def bufferRemaining (count : Nat) (value : Bool) : BooleanOutputStream :=
  if count > 0 then
    { s with data := if value then getLowBitMask count <<< (8 - count) else s.data, bitsInData := count }
  else s

/-- Eight bits at a time, and the rest is buffered. -/
def writeWhole (count : Nat) (value : Bool) : Except String BooleanOutputStream :=
  if s.bitsInData ≠ 0 then .error "VerifyException"
  else do
    let byte : Byte := if value then 0xff else 0x00
    let byteOutputStream ← (List.replicate (count / 8) byte).foldlM ByteOutputStream.writeByte s.byteOutputStream
    pure ({ s with byteOutputStream := byteOutputStream }.bufferRemaining (count % 8) value)

def writeBooleans (inputCount : Int) (value : Bool) : Except String BooleanOutputStream :=
  let count := inputCount.toNat
  if inputCount < 0 then .error "count is negative"
  else if count = 0 then pure s
  else if s.bitsInData ≠ 0 then
    let bitsToWrite := min count (8 - s.bitsInData)
    let s := s.fill bitsToWrite value
    if s.bitsInData = 8 then s.flushData >>= fun s => s.writeWhole (count - bitsToWrite) value
    else if count - bitsToWrite = 0 then pure s
    else .error "VerifyException"
  else s.writeWhole count value

def recordCheckpoint (s : BooleanOutputStream) : Except String BooleanOutputStream :=
  if s.closed then .error "IllegalStateException"
  else do
    let byteOutputStream ← s.byteOutputStream.recordCheckpoint
    pure { s with byteOutputStream := byteOutputStream, checkpointBitOffsets := s.checkpointBitOffsets ++ [s.bitsInData] }

def flushPartial : Except String BooleanOutputStream :=
  if s.bitsInData > 0 then s.flushData else pure s

def close (s : BooleanOutputStream) : Except String BooleanOutputStream := do
  let s ← { s with closed := true }.flushPartial
  pure { s with byteOutputStream := s.byteOutputStream.close }

/-- The bit offsets with the checkpoints of the bytes. -/
def pairCheckpoints : List Nat → List BlockCheckpoint → Except String (List BooleanCheckpoint)
  | [],_ => pure []
  | _ :: _,[] => .error "IndexOutOfBoundsException"
  | offset :: offsets,checkpoint :: checkpoints => do
    let rest ← pairCheckpoints offsets checkpoints
    pure (⟨offset,checkpoint⟩ :: rest)

def getCheckpoints : Except String (List BooleanCheckpoint) :=
  if !s.closed then .error "IllegalStateException"
  else pairCheckpoints s.checkpointBitOffsets s.byteOutputStream.checkpoints

end BooleanOutputStream

structure BooleanInputStream where
  byteStream : BlockReader ByteBlock
  data : Byte
  bitsInData : Nat

def bitCount {w : Nat} (value : BitVec w) : Nat := (bitsOf value).count true

namespace BooleanInputStream

def new (input : ByteSource) : BooleanInputStream := ⟨BlockFormat.new input,0,0⟩

variable (s : BooleanInputStream)

def readByte : Except String BooleanInputStream :=
  if s.bitsInData ≠ 0 then .error "IllegalStateException"
  else do
    let (data,byteStream) ← next s.byteStream
    pure ⟨byteStream,data,8⟩

def readIfEmpty : Except String BooleanInputStream :=
  if s.bitsInData = 0 then s.readByte else pure s

def shift (items : Nat) : BooleanInputStream :=
  { s with data := s.data <<< items, bitsInData := s.bitsInData - items }

def nextBit : Except String (Bool × BooleanInputStream) := do
  let s ← s.readIfEmpty
  pure (decide (s.data &&& 0x80 ≠ 0),s.shift 1)

def skipBits (items : Nat) : Except String BooleanInputStream :=
  if items ≠ 0 then do
    let s ← s.readByte
    pure (s.shift items)
  else pure s

def skip (items : Nat) (s : BooleanInputStream) : Except String BooleanInputStream :=
  if s.bitsInData ≥ items then pure (s.shift items)
  else do
    let items := items - s.bitsInData
    let byteStream ← ByteInputStream.skip (items / 8) s.byteStream
    { s with byteStream := byteStream, bitsInData := 0 }.skipBits (items % 8)

def seekToCheckpoint (checkpoint : BooleanCheckpoint) (s : BooleanInputStream) : Except String BooleanInputStream := do
  let byteStream ← ByteInputStream.seekToCheckpoint checkpoint.byteStreamCheckpoint s.byteStream
  skip checkpoint.offset { s with byteStream := byteStream, bitsInData := 0 }

/-- The whole bytes; each round takes eight bits, so there are no more rounds than bits. -/
def countBytes : Nat → Nat → BooleanInputStream → Except String (Nat × Nat × BooleanInputStream)
  | 0,items,s => pure (0,items,s)
  | rounds + 1,items,s =>
    if items > 8 then do
      let (byte,byteStream) ← next s.byteStream
      let (count,rest) ← countBytes rounds (items - 8) { s with byteStream := byteStream }
      pure (bitCount byte + count,rest)
    else pure (0,items,s)

def countRemaining : Nat → BooleanInputStream → Except String (Nat × BooleanInputStream)
  | 0,s => pure (0,s)
  | items + 1,s => do
    let (bit,s) ← s.nextBit
    let (count,s) ← countRemaining items s
    pure ((if bit then 1 else 0) + count,s)

/-- After the buffered bits. -/
def countUnbuffered (items : Nat) (s : BooleanInputStream) : Except String (Nat × BooleanInputStream) := do
  let (count,items,s) ← countBytes items items s
  let (more,s) ← countRemaining items s
  pure (count + more,s)

def countBitsSet (items : Nat) (s : BooleanInputStream) : Except String (Nat × BooleanInputStream) :=
  if items > s.bitsInData ∧ s.bitsInData > 0 then do
    let (more,s') ← countUnbuffered (items - s.bitsInData) { s with bitsInData := 0 }
    pure (bitCount s.data + more,s')
  else countUnbuffered items s

/-- How a batch reader sets the elements for a number of bits, and what it counts: from a part
of a byte, and from a whole byte. -/
structure BitSetter (γ : Type) where
  part : Nat → Byte → Nat × List γ
  whole : Byte → Nat × List γ

/-- The switch falls through from the highest bit; it has no case for eight bits. -/
def switchOn {γ : Type} (element : Nat → γ) (count : Nat) : List γ :=
  if count ≤ 7 then (List.range count).reverse.map element else []

variable {γ : Type} (setter : BitSetter γ)

def getBytes : Nat → Nat → BooleanInputStream → Except String ((Nat × List γ) × BooleanInputStream)
  | 0,_,s => pure ((0,[]),s)
  | rounds + 1,items,s =>
    if items > 7 then do
      let (byte,byteStream) ← next s.byteStream
      let ((count,more),s) ← getBytes rounds (items - 8) { s with byteStream := byteStream }
      pure (((setter.whole byte).1 + count,(setter.whole byte).2 ++ more),s)
    else pure ((0,[]),s)

def getTail (remaining : Nat) (s : BooleanInputStream) : Except String ((Nat × List γ) × BooleanInputStream) :=
  if remaining > 0 then do
    let (localData,byteStream) ← next s.byteStream
    pure (setter.part remaining localData,⟨byteStream,localData <<< remaining,8 - remaining⟩)
  else pure ((0,[]),s)

/-- The middle part and the tail. -/
def getUnbuffered (items : Nat) (s : BooleanInputStream) : Except String ((Nat × List γ) × BooleanInputStream) := do
  let ((count,vector),s) ← getBytes setter items items s
  let ((count',vector'),s) ← getTail setter (items - vector.length) s
  pure ((count + count',vector ++ vector'),s)

variable (batchSize : Nat)

/-- The head, and then the rest. -/
def getBits (s : BooleanInputStream) : Except String ((Nat × List γ) × BooleanInputStream) :=
  let count := min batchSize s.bitsInData
  if count ≠ 0 then
    let head := setter.part count s.data
    if count = batchSize then pure (head,s.shift count)
    else do
      let ((more,vector),s) ← getUnbuffered setter (batchSize - head.2.length) (s.shift count)
      pure ((head.1 + more,head.2 ++ vector),s)
  else getUnbuffered setter batchSize s

/-- The elements one for each bit that is set; nothing is counted. -/
def setBits : BitSetter Byte where
  part count data :=
    let value := data.signExtend 32 >>> (8 - count)
    (0,switchOn (fun i => ((value &&& ((1 : BitVec 32) <<< i)) >>> i).setWidth 8) count)
  whole byte := (0,(List.range 8).reverse.map fun i => ((byte.signExtend 32 &&& ((1 : BitVec 32) <<< i)) >>> i).setWidth 8)

/-- The elements true for each bit that is not set, and their number. -/
def unsetBits : BitSetter Bool where
  part count data :=
    let value := (data.signExtend 32 &&& 0xff) >>> (8 - count)
    (count - bitCount value,switchOn (fun i => decide (value &&& ((1 : BitVec 32) <<< i) = 0)) count)
  whole byte :=
    (8 - bitCount (byte.signExtend 32 &&& 0xff),(List.range 8).reverse.map fun i => decide (byte.signExtend 32 &&& ((1 : BitVec 32) <<< i) = 0))

def getSetBits (s : BooleanInputStream) : Except String (List Byte × BooleanInputStream) := do
  let ((_,vector),s) ← getBits setBits batchSize s
  pure (vector,s)

def getUnsetBits (s : BooleanInputStream) : Except String ((Nat × List Bool) × BooleanInputStream) :=
  getBits unsetBits batchSize s

end BooleanInputStream

inductive BooleanReadAction where
  | nextBit
  | skip (items : Nat)
  | countBitsSet (items : Nat)
  | getSetBits (batchSize : Nat)
  | getUnsetBits (batchSize : Nat)
  | seekToCheckpoint (index : Nat)

inductive BooleanReadResult where
  | nothing
  | bit (value : Bool)
  | count (number : Nat)
  | setBits (vector : List Byte)
  | unsetBits (number : Nat) (vector : List Bool)
  deriving DecidableEq

namespace BooleanInputStream

def read (checkpoints : List BooleanCheckpoint) (s : BooleanInputStream) :
    BooleanReadAction → Except String (BooleanReadResult × BooleanInputStream)
  | .nextBit => do
    let (value,s) ← s.nextBit
    pure (.bit value,s)
  | .skip items => do
    let s ← skip items s
    pure (.nothing,s)
  | .countBitsSet items => do
    let (number,s) ← countBitsSet items s
    pure (.count number,s)
  | .getSetBits batchSize => do
    let (vector,s) ← getSetBits batchSize s
    pure (.setBits vector,s)
  | .getUnsetBits batchSize => do
    let ((number,vector),s) ← getUnsetBits batchSize s
    pure (.unsetBits number vector,s)
  | .seekToCheckpoint index => do
    let s ← elementAt checkpoints index >>= fun c => seekToCheckpoint c s
    pure (.nothing,s)

end BooleanInputStream
end HetuCore.Orc
