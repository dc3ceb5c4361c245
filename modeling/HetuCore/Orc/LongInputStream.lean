import HetuCore.Foundation.BlockLayout
import HetuCore.Orc.LongDecode

namespace HetuCore.Orc
open Foundation BlockFormat

inductive ReadAction where
  | next
  | nextLongs (items : Nat)
  | nextInts (items : Nat)
  | nextShorts (items : Nat)
  | skip (items : Nat)
  | seekToCheckpoint (index : Nat)

inductive ReadResult where
  | longs (values : List Long)
  | ints (values : List (BitVec 32))
  | shorts (values : List (BitVec 16))
  deriving DecidableEq

/-- A cast to a smaller width that has to keep the value. -/
def narrow (width : Nat) (message : String) (literal : Long) : Except String (BitVec width) :=
  if (literal.setWidth width).signExtend 64 ≠ literal then .error message else pure (literal.setWidth width)

def narrowInt : Long → Except String (BitVec 32) := narrow 32 "Decoded value out of range for a 32bit number"

def narrowShort : Long → Except String (BitVec 16) := narrow 16 "Decoded value out of range for a 16bit number"

/-- The operations of a reader that has these ways to read on. -/
def readResult {σ : Type} (next : σ → Except String (Long × σ))
    (batch : {δ : Type} → (Long → Except String δ) → Nat → σ → Except String (List δ × σ))
    (skip : Nat → σ → Except String σ) (seek : Nat → σ → Except String σ) (s : σ) :
    ReadAction → Except String (ReadResult × σ)
  | .next => do
    let (value,s) ← next s
    pure (.longs [value],s)
  | .nextLongs items => do
    let (values,s) ← batch pure items s
    pure (.longs values,s)
  | .nextInts items => do
    let (values,s) ← batch narrowInt items s
    pure (.ints values,s)
  | .nextShorts items => do
    let (values,s) ← batch narrowShort items s
    pure (.shorts values,s)
  | .skip items => do
    let s ← skip items s
    pure (.longs [],s)
  | .seekToCheckpoint index => do
    let s ← seek index s
    pure (.longs [],s)

/-- The operations on the list of the values, one at a time. -/
def readList (message : String) (values : List Long) (marks : List Nat) : Nat → ReadAction → Except String (ReadResult × Nat) :=
  readResult (cursorNext values message) (fun convert => cursorRepeated values message convert)
    (cursorSkip values message) (fun index _ => elementAt marks index)

theorem readList_nextLongs (message : String) (values : List Long) (marks : List Nat) :
    performAll (readList message values marks) [.nextLongs values.length] 0 = .ok [.longs values] := by
  have hr := cursorRepeated_pure (n := 0) message (Nat.le_of_eq (Nat.zero_add values.length))
  change ((cursorRepeated values message pure values.length 0 >>= fun c => pure (ReadResult.longs c.1,c.2)) >>= _) = _
  rw [hr,List.drop_zero,List.take_length]
  rfl

namespace LongInputStream
variable {β : Type} (F : BlockFormat β Long)

def readStream (checkpoints : List BlockCheckpoint) : BlockReader β → ReadAction → Except String (ReadResult × BlockReader β) :=
  readResult F.next F.nextBatch F.skip (F.seekAt checkpoints)

variable {F} {segments : List (Segment F)} {r : BlockReader β} {n : Nat} {message : String}
  {checkpoints : List BlockCheckpoint} {marks : List Nat} {action : ReadAction}

theorem readStream_agree (h : Reads segments r n) (he : F.readBlock [] = .error message)
    (hm : List.Forall₂ (Marks segments) checkpoints marks)
    (hf : ∀ index, action = .seekToCheckpoint index → ∀ c ∈ checkpoints[index]?, Fresh r c) :
    Agree (Reads segments) (readStream F checkpoints r action)
      (readList message (valuesOf segments) marks n action) := by
  cases action with
  | next => exact (h.next he).bind fun value r' n' h' => ⟨rfl,h'⟩
  | nextLongs items => exact (h.nextBatch he pure items).bind fun values r' n' h' => ⟨rfl,h'⟩
  | nextInts items => exact (h.nextBatch he narrowInt items).bind fun values r' n' h' => ⟨rfl,h'⟩
  | nextShorts items => exact (h.nextBatch he narrowShort items).bind fun values r' n' h' => ⟨rfl,h'⟩
  | skip items => exact (h.skip_follow he items).bind fun r' n' h' => ⟨rfl,h'⟩
  | seekToCheckpoint index => exact (h.seekAt_follow he hm (hf index rfl)).bind fun r' n' h' => ⟨rfl,h'⟩

theorem rests_of_readStream {origin : Nat} {result : ReadResult} {r' : BlockReader β}
    (hv : F.Valid r) (hr : Rests origin r) (hz : ∀ c ∈ checkpoints, c.offset = 0 → c.position = origin)
    (h : readStream F checkpoints r action = .ok (result,r')) : Rests origin r' := by
  have hb {δ : Type} {convert : Long → Except String δ} {items : Nat} {c : List δ × BlockReader β}
      (h : F.nextBatch convert items r = .ok c) : Rests origin c.2 := by
    rw [nextBatch_eq hv] at h
    exact rests_of_repeated (fun _ => hr) h
  cases action with
  | next =>
    obtain ⟨c,hn,h⟩ := bind_ok h
    cases h
    exact rests_of_next hn
  | nextLongs items | nextInts items | nextShorts items =>
    obtain ⟨c,hrd,h⟩ := bind_ok h
    cases h
    exact hb hrd
  | skip items =>
    obtain ⟨r₁,hs,h⟩ := bind_ok h
    cases h
    exact rests_of_skip hv (fun _ => hr) hs
  | seekToCheckpoint index =>
    obtain ⟨r₁,hsk,h⟩ := bind_ok h
    cases h
    exact rests_of_seekAt hr hz hsk

/-- Where checkpoints at the start of a block are all at the origin, every sequence of
operations gives what it gives on the list of the values. -/
theorem performAll_readStream (he : F.readBlock [] = .error message) {origin : Nat}
    (hm : List.Forall₂ (Marks segments) checkpoints marks)
    (hz : ∀ c ∈ checkpoints, c.offset = 0 → c.position = origin) (actions : List ReadAction)
    (h : Reads segments r n) (hr : Rests origin r) : performAll (readStream F checkpoints) actions r =
      performAll (readList message (valuesOf segments) marks) actions n := by
  refine performAll_eq (R := fun r n => Reads segments r n ∧ Rests origin r) ?_ actions ⟨h,hr⟩
  intro r n action ⟨h,hr⟩
  refine (readStream_agree h he hm fun index _ => hr.fresh hz).mono ?_
  intro result r' n' hrd h'
  exact ⟨h',rests_of_readStream h.valid hr hz hrd⟩

end LongInputStream
end HetuCore.Orc
