import HetuCore.Orc.LongInputStream

namespace HetuCore.Orc
open Foundation

def minRepeatSize : Nat := 3

def unmatchableDeltaValue : Long := BitVec.intMax 64

/-- The writer; the size is the length of the sequence buffer. While a run goes on, the buffer
only counts. -/
structure LongOutputStreamV1 where
  signed : Bool
  buffer : List Byte
  checkpoints : List BlockCheckpoint
  sequenceBuffer : List Long
  runCount : Nat
  lastValue : Long
  lastDelta : Long
  closed : Bool

namespace LongOutputStreamV1

def new (signed : Bool) : LongOutputStreamV1 := ⟨signed,[],[],[],0,0,unmatchableDeltaValue,false⟩

variable (s : LongOutputStreamV1)

def size : Nat := s.sequenceBuffer.length

def isValidDelta (delta : Long) : Prop := -128 ≤ delta.toInt ∧ delta.toInt ≤ 127

instance (delta : Long) : Decidable (isValidDelta delta) := inferInstanceAs (Decidable (_ ∧ _))

def write (bytes : List Byte) : LongOutputStreamV1 := { s with buffer := s.buffer ++ bytes }

def flushLiteralSequence (literalCount : Nat) : Except String LongOutputStreamV1 :=
  if literalCount = 0 then .error "VerifyException"
  else pure (s.write (BitVec.ofInt 8 (-literalCount) ::
    (s.sequenceBuffer.take literalCount).flatMap fun value => LongDecode.writeVLong value s.signed))

def flushRleSequence (runCount : Nat) : Except String LongOutputStreamV1 :=
  if runCount = 0 then .error "VerifyException"
  else
    let totalDeltaSize := s.lastDelta * BitVec.ofNat 64 (s.runCount - 1)
    let sequenceStartValue := s.lastValue - totalDeltaSize
    pure (s.write (BitVec.ofNat 8 (runCount - minRepeatSize) :: s.lastDelta.setWidth 8 ::
      LongDecode.writeVLong sequenceStartValue s.signed))

def flushRunOrLiterals : Except String LongOutputStreamV1 :=
  if s.runCount ≥ minRepeatSize then s.flushRleSequence s.runCount else s.flushLiteralSequence s.size

def flushSequence : Except String LongOutputStreamV1 :=
  if s.size = 0 then pure s
  else do
    let s ← s.flushRunOrLiterals
    pure { s with sequenceBuffer := [], runCount := 0, lastValue := 0, lastDelta := unmatchableDeltaValue }

/-- The difference is the last one: the run is extended. With the third value of a run the
literals before it are flushed. -/
def extendRun : Except String LongOutputStreamV1 :=
  let s := { s with runCount := s.runCount + 1 }
  if s.runCount = minRepeatSize ∧ s.size > minRepeatSize then do
    let s ← s.flushLiteralSequence (s.size - minRepeatSize)
    pure { s with sequenceBuffer := s.sequenceBuffer.take minRepeatSize }
  else pure s

variable (value : Long)

/-- A run that has ended is flushed; the value is the first literal after it. -/
def flushEndedRun : Except String LongOutputStreamV1 :=
  if s.runCount ≥ minRepeatSize then do
    let s ← s.flushRleSequence s.runCount
    pure { s with sequenceBuffer := [value] }
  else pure s

/-- Another difference: a new run may start with the last two values. -/
def endRun (delta : Long) : Except String LongOutputStreamV1 := do
  let s ← s.flushEndedRun value
  if s.size = 1 ∨ ¬ isValidDelta delta then pure { s with runCount := 1, lastDelta := unmatchableDeltaValue }
  else pure { s with runCount := 2, lastDelta := delta }

def updateRun : Except String LongOutputStreamV1 :=
  let delta := value - s.lastValue
  if delta = s.lastDelta then s.extendRun else s.endRun value delta

def flushIfFull : Except String LongOutputStreamV1 :=
  if s.size = 128 then s.flushSequence else pure s

def writeLong : Except String LongOutputStreamV1 :=
  if s.closed then .error "IllegalStateException"
  else do
    let s ← s.flushIfFull
    let s ← { s with sequenceBuffer := s.sequenceBuffer ++ [value] }.updateRun value
    pure { s with lastValue := value }

def recordCheckpoint : Except String LongOutputStreamV1 :=
  if s.closed then .error "IllegalStateException"
  else pure { s with checkpoints := s.checkpoints ++ [⟨s.size,s.buffer.length⟩] }

def close : Except String LongOutputStreamV1 := { s with closed := true }.flushSequence

end LongOutputStreamV1

/-- What the reader has read: a run with its control byte, or at least one literal. -/
inductive LongBlockV1 where
  | run (control : Nat) (delta : Byte) (first : Long)
  | literals (first : Long) (rest : List Long)

namespace LongInputStreamV1

variable (signed : Bool)

def readRun (control : Nat) : Parser LongBlockV1 := do
  match ← Parser.read with
  | none => throw "End of stream in RLE Integer"
  | some delta =>
    let first ← LongDecode.readVInt signed
    pure (.run control delta first)

def readLiterals (numLiterals : Nat) : Parser LongBlockV1 := do
  let first ← LongDecode.readVInt signed
  let rest ← Parser.times (LongDecode.readVInt signed) (numLiterals - 1)
  pure (.literals first rest)

def readValues : Parser LongBlockV1 := do
  match ← Parser.read with
  | none => throw "Read past end of RLE integer"
  | some control =>
    if control.toNat < 0x80 then readRun signed control.toNat else readLiterals signed (0x100 - control.toNat)

def numLiterals : LongBlockV1 → Nat
  | .run control _ _ => control + minRepeatSize
  | .literals _ rest => rest.length + 1

def literal : LongBlockV1 → Nat → Long
  | .run _ delta first,used => first + BitVec.ofInt 64 (used * delta.toInt)
  | .literals first rest,used => (first :: rest)[used]?.getD 0

def format : BlockFormat LongBlockV1 Long where
  readBlock := readValues signed
  size := numLiterals
  value := literal
  size_pos b := by
    cases b with
    | run control delta first => exact Nat.succ_pos _
    | literals first rest => exact Nat.succ_pos _

def next (signed : Bool) (s : BlockReader LongBlockV1) : Except String (Long × BlockReader LongBlockV1) :=
  (format signed).next s

variable (items : Nat)

def nextLongs (s : BlockReader LongBlockV1) : Except String (List Long × BlockReader LongBlockV1) :=
  (format signed).nextBatch pure items s

def nextInts (s : BlockReader LongBlockV1) : Except String (List (BitVec 32) × BlockReader LongBlockV1) :=
  (format signed).nextBatch narrowInt items s

def nextShorts (s : BlockReader LongBlockV1) : Except String (List (BitVec 16) × BlockReader LongBlockV1) :=
  (format signed).nextBatch narrowShort items s

def skip (signed : Bool) (items : Nat) (s : BlockReader LongBlockV1) : Except String (BlockReader LongBlockV1) :=
  (format signed).skip items s

def seekToCheckpoint (checkpoint : BlockCheckpoint) (s : BlockReader LongBlockV1) :
    Except String (BlockReader LongBlockV1) :=
  (format signed).seek checkpoint s

variable (checkpoints : List BlockCheckpoint)

def read (s : BlockReader LongBlockV1) : ReadAction → Except String (ReadResult × BlockReader LongBlockV1)
  | .next => do
    let (value,s) ← next signed s
    pure (.longs [value],s)
  | .nextLongs items => do
    let (values,s) ← nextLongs signed items s
    pure (.longs values,s)
  | .nextInts items => do
    let (values,s) ← nextInts signed items s
    pure (.ints values,s)
  | .nextShorts items => do
    let (values,s) ← nextShorts signed items s
    pure (.shorts values,s)
  | .skip items => do
    let s ← skip signed items s
    pure (.longs [],s)
  | .seekToCheckpoint index => do
    let s ← elementAt checkpoints index >>= fun c => seekToCheckpoint signed c s
    pure (.longs [],s)

theorem read_eq : read signed checkpoints = LongInputStream.readStream (format signed) checkpoints := by
  funext s action
  cases action with
  | next | nextLongs items | nextInts items | nextShorts items | skip items | seekToCheckpoint index => rfl

end LongInputStreamV1
end HetuCore.Orc
