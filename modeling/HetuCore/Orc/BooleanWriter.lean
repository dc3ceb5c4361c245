import HetuCore.Orc.BooleanStream
import HetuCore.Orc.ByteStreamRoundTrip

namespace HetuCore.Orc
open Foundation WriteAction ByteOutputStream List

inductive BooleanWriteAction where
  | writeBoolean (value : Bool)
  | writeBooleans (count : Nat) (value : Bool)
  | recordCheckpoint

namespace BooleanWriteAction

/-- The same with one boolean at a time. -/
def single : BooleanWriteAction → List (WriteAction Bool)
  | .writeBoolean value => [.write value]
  | .writeBooleans count value => (replicate count value).map .write
  | .recordCheckpoint => [.recordCheckpoint]

def singles (actions : List BooleanWriteAction) : List (WriteAction Bool) := actions.flatMap single

def written (actions : List BooleanWriteAction) : List Bool := WriteAction.written (singles actions)

/-- For each checkpoint, the number of booleans written before it. -/
def marks (actions : List BooleanWriteAction) : List Nat := WriteAction.marks (singles actions)

end BooleanWriteAction

namespace BooleanOutputStream

def step (s : BooleanOutputStream) : BooleanWriteAction → Except String BooleanOutputStream
  | .writeBoolean value => s.writeBoolean value
  | .writeBooleans count value => s.writeBooleans count value
  | .recordCheckpoint => s.recordCheckpoint

def writer : Machine BooleanOutputStream BooleanWriteAction := ⟨new,step⟩

variable (actions : List BooleanWriteAction)

/-- The stream of a writer that was closed after the actions. -/
def stream : Except String BooleanOutputStream := do
  let s ← writer.run actions
  s.close

/-- The writer of bytes, and the bits that are pending. -/
structure Buffered (s : BooleanOutputStream) (history : List (WriteAction Bool)) (byteActions : List (WriteAction Byte))
    (pending : List Bool) : Prop where
  run : ByteOutputStream.writer.run byteActions = .ok s.byteOutputStream
  bits : bitsOfBytes (WriteAction.written byteActions) ++ pending = WriteAction.written history
  size : s.bitsInData = pending.length
  room : pending.length ≤ 8
  data : bitsOf (s.data.setWidth 8) = pending ++ replicate (8 - pending.length) false
  offsets : s.checkpointBitOffsets.length = (WriteAction.marks byteActions).length
  marks : WriteAction.marks history = zipWith (fun mark offset => 8 * mark + offset) (WriteAction.marks byteActions) s.checkpointBitOffsets

variable {s : BooleanOutputStream} {history : List (WriteAction Bool)} {byteActions : List (WriteAction Byte)}
  {pending : List Bool}

theorem buffered_new : Buffered new [] [] [] := ⟨rfl,rfl,rfl,Nat.zero_le _,rfl,rfl,rfl⟩

theorem bitsOf_mask : ∀ used < 9, ∀ bits < 9, used + bits ≤ 8 →
    bitsOf ((getLowBitMask bits <<< (8 - used - bits)).setWidth 8) =
      replicate used false ++ (replicate bits true ++ replicate (8 - used - bits) false) := by
  decide +kernel

variable (bits : List Bool)

theorem zipWith_or_false {n : Nat} (hn : bits.length = n) :
    zipWith (· || ·) bits (replicate n false) = bits := by
  subst hn
  induction bits with
  | nil => rfl
  | cons bit bits ih =>
    rw [length_cons,replicate_succ,zipWith_cons_cons,Bool.or_false,ih]

theorem zipWith_false_or {n : Nat} (hn : bits.length = n) :
    zipWith (· || ·) (replicate n false) bits = bits := by
  subst hn
  induction bits with
  | nil => rfl
  | cons bit bits ih =>
    rw [length_cons,replicate_succ,zipWith_cons_cons,Bool.false_or,ih]

theorem bitsOf_fill {data : BitVec 32} {bits : Nat} (hd : bitsOf (data.setWidth 8) = pending ++ replicate (8 - pending.length) false)
    (hr : pending.length + bits ≤ 8) :
    bitsOf ((data ||| (getLowBitMask bits <<< (8 - pending.length - bits))).setWidth 8) =
      (pending ++ replicate bits true) ++ replicate (8 - (pending ++ replicate bits true).length) false := by
  rw [BitVec.setWidth_or,bitsOf_or,hd,bitsOf_mask _ (by omega) _ (by omega) hr,
    zipWith_append (by rw [length_replicate]),zipWith_or_false pending rfl,zipWith_false_or _ (by simp; omega),
    append_assoc,length_append,length_replicate,Nat.sub_add_eq]

section
variable (h : Buffered s history byteActions pending)
include h

theorem Buffered.fill (bits : Nat) (hr : pending.length + bits ≤ 8) (value : Bool) :
    Buffered (s.fill bits value) (history ++ (replicate bits value).map .write) byteActions
      (pending ++ replicate bits value) := by
  have hl : (pending ++ replicate bits value).length = pending.length + bits := by
    rw [length_append,length_replicate]
  refine ⟨h.run,?_,?_,by omega,?_,h.offsets,?_⟩
  · rw [written_append,written_map_write,← h.bits,append_assoc]
  · rw [hl,← h.size]
    rfl
  · cases value with
    | true =>
      have hf := bitsOf_fill h.data hr
      rw [← h.size] at hf
      exact hf
    | false =>
      have hs : 8 - pending.length = bits + (8 - (pending.length + bits)) := by omega
      rw [hl,append_assoc,← replicate_add,← hs]
      exact h.data
  · rw [marks_map_write]
    exact h.marks

theorem Buffered.flushData :
    ∃ byteOutputStream, s.flushData = .ok { s with byteOutputStream := byteOutputStream, data := 0, bitsInData := 0 } ∧
      ByteOutputStream.writer.run (byteActions ++ [.write (s.data.setWidth 8)]) = .ok byteOutputStream := by
  obtain ⟨b,hr,-⟩ := run_open (byteActions ++ [.write (s.data.setWidth 8)])
  refine ⟨b,?_,hr⟩
  rw [Machine.run_concat,h.run] at hr
  change s.byteOutputStream.writeByte (s.data.setWidth 8) = .ok b at hr
  rw [BooleanOutputStream.flushData,hr]
  rfl

theorem Buffered.flushFull (hfl : s.bitsInData = 8) :
    ∃ s' byteActions', s.flushData = .ok s' ∧ Buffered s' history byteActions' [] ∧ s'.closed = s.closed := by
  obtain ⟨b,hf,hr⟩ := h.flushData
  have hp : bitsOf (s.data.setWidth 8) = pending := by
    rw [h.data,← h.size,hfl]
    exact append_nil _
  have he : bitsOf (BitVec.setWidth 8 (0 : BitVec 32)) = replicate 8 false := by decide
  refine ⟨_,byteActions ++ [.write (s.data.setWidth 8)],hf,⟨hr,?_,rfl,Nat.zero_le _,he,?_,?_⟩,rfl⟩
  · rw [written_append,bitsOfBytes_append,append_nil,← h.bits,← hp]
    exact congrArg _ (append_nil _)
  · rw [marks_write]
    exact h.offsets
  · rw [marks_write]
    exact h.marks

theorem Buffered.writeBoolean (ho : s.closed = false) (hr : pending.length < 8) (value : Bool) :
    ∃ s' byteActions' pending', s.writeBoolean value = .ok s' ∧
      Buffered s' (history ++ [.write value]) byteActions' pending' ∧ pending'.length < 8 ∧ s'.closed = s.closed := by
  have hsm : s.writeBoolean value = (s.fill 1 value).flushIfFull := by
    have hs : 7 - s.bitsInData = 8 - s.bitsInData - 1 := by omega
    rw [BooleanOutputStream.writeBoolean,if_neg (by simp [ho]),hs]
    rfl
  have hfl := h.fill 1 hr value
  rw [hsm,flushIfFull]
  by_cases hf : (s.fill 1 value).bitsInData = 8
  · obtain ⟨s',byteActions',hfs,hb,hc⟩ := hfl.flushFull hf
    rw [if_pos hf]
    exact ⟨s',byteActions',[],hfs,hb,by decide,hc⟩
  · rw [if_neg hf]
    refine ⟨_,byteActions,_,rfl,hfl,?_,rfl⟩
    rw [hfl.size] at hf
    exact Nat.lt_of_le_of_ne hfl.room hf

theorem Buffered.recordCheckpoint (ho : s.closed = false) :
    ∃ s' byteActions', s.recordCheckpoint = .ok s' ∧ Buffered s' (history ++ [.recordCheckpoint]) byteActions' pending ∧
      s'.closed = s.closed := by
  obtain ⟨b,hrn,-⟩ := run_open (byteActions ++ [.recordCheckpoint])
  have hr := hrn
  rw [Machine.run_concat,h.run] at hr
  change s.byteOutputStream.recordCheckpoint = .ok b at hr
  let s' : BooleanOutputStream :=
    { s with byteOutputStream := b, checkpointBitOffsets := s.checkpointBitOffsets ++ [s.bitsInData] }
  have hs : s.recordCheckpoint = .ok s' := by
    rw [BooleanOutputStream.recordCheckpoint,if_neg (by simp [ho]),hr]
    rfl
  have hw : (WriteAction.written history).length = 8 * (WriteAction.written byteActions).length + s.bitsInData := by
    rw [← h.bits,length_append,length_bitsOfBytes,h.size]
  refine ⟨s',byteActions ++ [.recordCheckpoint],hs,⟨hrn,?_,h.size,h.room,h.data,?_,?_⟩,rfl⟩
  · rw [written_append,written_append]
    change bitsOfBytes (_ ++ []) ++ _ = _ ++ []
    rw [append_nil,append_nil]
    exact h.bits
  · rw [marks_recordCheckpoint,length_append,length_append,h.offsets]
    rfl
  · rw [marks_recordCheckpoint,marks_recordCheckpoint,zipWith_append h.offsets.symm,h.marks,hw]
    rfl

end

theorem bitsOf_whole : ∀ value : Bool, bitsOf (if value then 0xff else 0x00 : Byte) = replicate 8 value := by
  decide

section
variable (h : Buffered s history byteActions [])
include h

theorem Buffered.writeBytes (value : Bool) (rounds : Nat) : ∃ byteOutputStream byteActions',
      (replicate rounds (if value then 0xff else 0x00 : Byte)).foldlM writeByte s.byteOutputStream =
        .ok byteOutputStream ∧
      Buffered { s with byteOutputStream := byteOutputStream } (history ++ (replicate (8 * rounds) value).map .write)
        byteActions' [] := by
  induction rounds with
  | zero =>
    refine ⟨s.byteOutputStream,byteActions,rfl,?_⟩
    rw [Nat.mul_zero]
    change Buffered s (history ++ []) byteActions []
    rw [append_nil]
    exact h
  | succ rounds ih =>
    let byte : Byte := if value then 0xff else 0x00
    obtain ⟨b,byteActions',hf,hb⟩ := ih
    obtain ⟨b',hr,-⟩ := run_open (byteActions' ++ [.write byte])
    have hw := hr
    rw [Machine.run_concat,hb.run] at hw
    change b.writeByte byte = .ok b' at hw
    refine ⟨b',byteActions' ++ [.write byte],?_,hr,?_,hb.size,hb.room,hb.data,?_,?_⟩
    · rw [replicate_succ',foldlM_append,hf]
      change (b.writeByte byte >>= pure) = _
      rw [hw]
      rfl
    · have hbt := hb.bits
      rw [written_append,written_map_write,append_nil] at hbt
      rw [written_append,written_append,written_map_write,bitsOfBytes_append,hbt,
        Nat.mul_succ,replicate_add,append_nil,append_assoc,← bitsOf_whole]
      exact congrArg _ (congrArg _ (append_nil _))
    · rw [marks_write]
      exact hb.offsets
    · rw [marks_write,marks_map_write,hb.marks.symm,marks_map_write]

theorem Buffered.bufferRemaining {count : Nat} (hc : count < 8) (value : Bool) :
    Buffered (s.bufferRemaining count value) (history ++ (replicate count value).map .write) byteActions
      (replicate count value) := by
  have hf := h.fill count (by rw [length_nil]; omega) value
  rw [nil_append] at hf
  rw [BooleanOutputStream.bufferRemaining]
  by_cases hp : count > 0
  · rw [if_pos hp]
    refine ⟨hf.run,hf.bits,length_replicate.symm,hf.room,?_,hf.offsets,hf.marks⟩
    cases value with
    | true =>
      have hm := bitsOf_mask 0 (by decide) count (by omega) (by omega)
      rw [length_replicate]
      exact hm
    | false => exact hf.data
  · obtain rfl : count = 0 := by omega
    rw [if_neg hp]
    change Buffered s (history ++ []) byteActions []
    rw [append_nil]
    exact h

theorem Buffered.writeWhole (count : Nat) (value : Bool) :
    ∃ s' byteActions' pending', s.writeWhole count value = .ok s' ∧
      Buffered s' (history ++ (replicate count value).map .write) byteActions' pending' ∧ pending'.length < 8 ∧
      s'.closed = s.closed := by
  obtain ⟨b,byteActions',hf,hb⟩ := h.writeBytes value (count / 8)
  have hr := hb.bufferRemaining (Nat.mod_lt count (by decide)) value
  rw [append_assoc,← map_append,← replicate_add,Nat.div_add_mod] at hr
  refine ⟨_,byteActions',_,?_,hr,?_,?_⟩
  · rw [BooleanOutputStream.writeWhole,if_neg (by rw [h.size]; exact fun hne => hne rfl)]
    dsimp only
    rw [hf]
    rfl
  · rw [length_replicate]
    exact Nat.mod_lt count (by decide)
  · rw [BooleanOutputStream.bufferRemaining]
    split <;> rfl

end

theorem Buffered.writeBooleans (h : Buffered s history byteActions pending) (hr : pending.length < 8) (count : Nat) (value : Bool) :
    ∃ s' byteActions' pending', s.writeBooleans count value = .ok s' ∧
      Buffered s' (history ++ (replicate count value).map .write) byteActions' pending' ∧ pending'.length < 8 ∧
      s'.closed = s.closed := by
  rw [BooleanOutputStream.writeBooleans,Int.toNat_natCast,if_neg (Int.not_lt.mpr (Int.natCast_nonneg count))]
  by_cases hz : count = 0
  · subst hz
    rw [if_pos rfl,replicate_zero,map_nil,append_nil]
    exact ⟨s,byteActions,pending,rfl,h,hr,rfl⟩
  rw [if_neg hz]
  by_cases hp : s.bitsInData ≠ 0
  · rw [if_pos hp]
    have hs := h.size
    generalize hwr : min count (8 - s.bitsInData) = bitsToWrite
    have hfl := h.fill bitsToWrite (by omega) value
    have hbt : (s.fill bitsToWrite value).bitsInData = s.bitsInData + bitsToWrite := rfl
    by_cases hf : (s.fill bitsToWrite value).bitsInData = 8
    · obtain ⟨s₁,byteActions₁,hfs,hb,hcl⟩ := hfl.flushFull hf
      obtain ⟨s₂,byteActions₂,pending₂,hw,hb₂,hr₂,hc₂⟩ := hb.writeWhole (count - bitsToWrite) value
      have hc : bitsToWrite + (count - bitsToWrite) = count := by omega
      rw [append_assoc,← map_append,← replicate_add,hc] at hb₂
      dsimp only
      rw [if_pos hf,hfs]
      exact ⟨s₂,byteActions₂,pending₂,hw,hb₂,hr₂,hc₂.trans hcl⟩
    · have hc : count = bitsToWrite := by omega
      subst hc
      dsimp only
      rw [if_neg hf,if_pos (Nat.sub_self count)]
      refine ⟨_,byteActions,_,rfl,hfl,?_,rfl⟩
      rw [hfl.size] at hf
      exact Nat.lt_of_le_of_ne hfl.room hf
  · rw [if_neg hp]
    have he : pending = [] := by
      have hs := h.size
      exact length_eq_zero_iff.mp (by omega)
    subst he
    exact h.writeWhole count value

/-- The writer between two calls. -/
def Open (s : BooleanOutputStream) : Prop :=
  s.closed = false ∧ ∃ byteActions pending, Buffered s (BooleanWriteAction.singles actions) byteActions pending ∧ pending.length < 8

theorem run_open : ∃ s, writer.run actions = .ok s ∧ Open actions s := by
  have hst (actions : List BooleanWriteAction) (s : BooleanOutputStream) (action : BooleanWriteAction) :
      Open actions s → ∃ s', writer.step s action = .ok s' ∧ Open (actions ++ [action]) s' := by
    intro ⟨ho,byteActions,pending,h,hr⟩
    have hs : BooleanWriteAction.singles (actions ++ [action]) = BooleanWriteAction.singles actions ++ action.single := by
      rw [BooleanWriteAction.singles,flatMap_append,flatMap_singleton]
      rfl
    simp only [Open,hs]
    cases action with
    | writeBoolean value =>
      obtain ⟨s',byteActions',pending',hs',h',hr',hc⟩ := h.writeBoolean ho hr value
      exact ⟨s',hs',hc.trans ho,byteActions',pending',h',hr'⟩
    | writeBooleans count value =>
      obtain ⟨s',byteActions',pending',hs',h',hr',hc⟩ := h.writeBooleans hr count value
      exact ⟨s',hs',hc.trans ho,byteActions',pending',h',hr'⟩
    | recordCheckpoint =>
      obtain ⟨s',byteActions',hs',h',hc⟩ := h.recordCheckpoint ho
      exact ⟨s',hs',hc.trans ho,byteActions',pending,h',hr⟩
  exact Machine.run_total ⟨rfl,[],[],buffered_new,by decide⟩ hst actions

def padded : List Bool := bits ++ replicate ((8 - bits.length % 8) % 8) false

/-- The bytes of a closed stream hold the booleans, and each of its checkpoints has the number
of bits after the bytes before it. -/
theorem Open.close {actions : List BooleanWriteAction} (h : Open actions s) :
    ∃ s' byteActions, s.close = .ok s' ∧ s'.closed = true ∧ ByteOutputStream.stream byteActions = .ok s'.byteOutputStream ∧
      bitsOfBytes (WriteAction.written byteActions) = padded (BooleanWriteAction.written actions) ∧
      s'.checkpointBitOffsets.length = (WriteAction.marks byteActions).length ∧ BooleanWriteAction.marks actions =
        zipWith (fun mark offset => 8 * mark + offset) (WriteAction.marks byteActions) s'.checkpointBitOffsets := by
  obtain ⟨-,byteActions,pending,h,hrm⟩ := h
  have hl : (BooleanWriteAction.written actions).length % 8 = pending.length := by
    rw [BooleanWriteAction.written,← h.bits,length_append,length_bitsOfBytes]
    omega
  have hc : Buffered { s with closed := true } (BooleanWriteAction.singles actions) byteActions pending :=
    ⟨h.run,h.bits,h.size,h.room,h.data,h.offsets,h.marks⟩
  rw [BooleanOutputStream.close,flushPartial,padded,hl,BooleanWriteAction.written,← h.bits]
  by_cases hp : s.bitsInData > 0
  · obtain ⟨b,hf,hr⟩ := hc.flushData
    have hs := h.size
    have hpd : (8 - pending.length) % 8 = 8 - pending.length := Nat.mod_eq_of_lt (by omega)
    refine ⟨⟨b.close,s.checkpointBitOffsets,0,0,true⟩,byteActions ++ [.write (s.data.setWidth 8)],?_,rfl,?_,?_,?_,?_⟩
    · rw [if_pos hp,hf]
      rfl
    · rw [ByteOutputStream.stream,hr]
      rfl
    · rw [written_append,bitsOfBytes_append,hpd,append_assoc,← h.data]
      exact congrArg _ (append_nil _)
    · rw [marks_write]
      exact h.offsets
    · rw [marks_write]
      exact h.marks
  · have he : pending = [] := by
      have hs := h.size
      exact length_eq_zero_iff.mp (by omega)
    subst he
    refine ⟨⟨s.byteOutputStream.close,s.checkpointBitOffsets,s.bitsInData,s.data,true⟩,byteActions,?_,rfl,?_,?_,h.offsets,h.marks⟩
    · rw [if_neg hp]
      rfl
    · rw [ByteOutputStream.stream,h.run]
      rfl
    · rw [append_nil]
      exact (append_nil _).symm

end BooleanOutputStream
end HetuCore.Orc
