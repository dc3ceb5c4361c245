import HetuCore.Foundation.BlockLog

namespace HetuCore.Orc
open Foundation

/-- The writer; the size is the length of the sequence buffer, and no last value is the one
that matches no byte. -/
structure ByteOutputStream where
  buffer : List Byte
  checkpoints : List BlockCheckpoint
  sequenceBuffer : List Byte
  runCount : Nat
  lastValue : Option Byte
  closed : Bool

namespace ByteOutputStream

def minRepeatSize : Nat := 3

def new : ByteOutputStream := ⟨[],[],[],0,none,false⟩

variable (s : ByteOutputStream)

def size : Nat := s.sequenceBuffer.length

/-- The bytes of the sequence: a run, or literals. -/
def sequenceBytes : List Byte :=
  if s.runCount ≥ minRepeatSize then [BitVec.ofNat 8 (s.runCount - minRepeatSize),s.lastValue.getD 0xff]
  else BitVec.ofInt 8 (-s.size) :: s.sequenceBuffer

def flushSequence : ByteOutputStream :=
  if s.size = 0 then s
  else { s with buffer := s.buffer ++ s.sequenceBytes, sequenceBuffer := [], runCount := 0, lastValue := none }

def flushIfFull : ByteOutputStream := if s.size = 128 then s.flushSequence else s

/-- A run that has ended is flushed. -/
def countRun (value : Byte) : ByteOutputStream :=
  if s.lastValue = some value then { s with runCount := s.runCount + 1 }
  else
    let s := if s.runCount ≥ minRepeatSize then s.flushSequence else s
    { s with runCount := 1 }

/-- With the third value of a run the literals before it are flushed. -/
def startRun : ByteOutputStream :=
  if s.runCount = minRepeatSize ∧ s.size > minRepeatSize then
    let flushed := { s with sequenceBuffer := s.sequenceBuffer.take (s.size - minRepeatSize), runCount := 0 }.flushSequence
    { flushed with runCount := minRepeatSize, sequenceBuffer := s.sequenceBuffer.take minRepeatSize }
  else s

def writeByte (value : Byte) : Except String ByteOutputStream :=
  if s.closed then .error "IllegalStateException"
  else
    let s := s.flushIfFull.countRun value
    let s := { s with sequenceBuffer := s.sequenceBuffer ++ [value] }.startRun
    pure { s with lastValue := some value }

def recordCheckpoint : Except String ByteOutputStream :=
  if s.closed then .error "IllegalStateException"
  else pure { s with checkpoints := s.checkpoints ++ [⟨s.size,s.buffer.length⟩] }

def close : ByteOutputStream := { s with closed := true }.flushSequence

end ByteOutputStream

/-- The bytes that the reader has in its buffer; there is at least one. -/
structure ByteBlock where
  first : Byte
  rest : List Byte

namespace ByteInputStream

def minRepeatSize : Nat := 3

/-- A byte that has to be there. -/
def readFully : Parser Byte := do
  match ← Parser.read with
  | none => throw "Unexpected end of stream"
  | some value => pure value

def readRun (length : Nat) : Parser ByteBlock := do
  match ← Parser.read with
  | none => throw "Reading RLE byte got EOF"
  | some value => pure ⟨value,List.replicate (length - 1) value⟩

def readLiterals (length : Nat) : Parser ByteBlock := do
  let first ← readFully
  let rest ← Parser.times readFully (length - 1)
  pure ⟨first,rest⟩

def readNextBlock : Parser ByteBlock := do
  match ← Parser.read with
  | none => throw "Read past end of buffer RLE byte"
  | some control =>
    if control &&& 0x80 = 0 then readRun (control.toNat + minRepeatSize) else readLiterals (0x100 - control.toNat)

def format : BlockFormat ByteBlock Byte where
  readBlock := readNextBlock
  size b := b.rest.length + 1
  value b i := (b.first :: b.rest)[i]?.getD 0
  size_pos _ := Nat.succ_pos _

def next (s : BlockReader ByteBlock) : Except String (Byte × BlockReader ByteBlock) := format.next s

def skip (items : Nat) (s : BlockReader ByteBlock) : Except String (BlockReader ByteBlock) := format.skip items s

def seekToCheckpoint (checkpoint : BlockCheckpoint) (s : BlockReader ByteBlock) : Except String (BlockReader ByteBlock) :=
  format.seek checkpoint s

/-- The loop of the batch reader, which checks that a block is not empty. -/
def nextChunks : Nat → Nat → BlockReader ByteBlock → Except String (List Byte × BlockReader ByteBlock)
  | 0,_,s => pure ([],s)
  | _ + 1,0,s => pure ([],s)
  | rounds + 1,items + 1,s => do
    let (block,offset,s) ← format.refill s
    if format.size block = 0 then .error "Unexpected end of stream"
    else
      let chunkSize := min (items + 1) (format.size block - offset)
      let (more,s) ← nextChunks rounds (items + 1 - chunkSize) { s with current := some (block,offset + chunkSize) }
      pure ((List.range chunkSize).map (fun i => format.value block (offset + i)) ++ more,s)

def nextBytes (items : Nat) (s : BlockReader ByteBlock) : Except String (List Byte × BlockReader ByteBlock) :=
  nextChunks items items s

end ByteInputStream

inductive ByteReadAction where
  | next
  | nextBytes (items : Nat)
  | skip (items : Nat)
  | seekToCheckpoint (index : Nat)

namespace ByteInputStream

def read (checkpoints : List BlockCheckpoint) (s : BlockReader ByteBlock) :
    ByteReadAction → Except String (List Byte × BlockReader ByteBlock)
  | .next => do
    let (value,s) ← next s
    pure ([value],s)
  | .nextBytes items => nextBytes items s
  | .skip items => do
    let s ← skip items s
    pure ([],s)
  | .seekToCheckpoint index => do
    let s ← elementAt checkpoints index >>= fun c => seekToCheckpoint c s
    pure ([],s)

end ByteInputStream
end HetuCore.Orc
