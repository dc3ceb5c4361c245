import HetuCore.Snapshot.MarkerAnnouncer
import Mathlib.Data.Finset.Card

/-! Split sources that replay their splits after a resume and send snapshot markers between
them, together with the announcer that they share. -/
namespace HetuCore.Snapshot
open Foundation

inductive Split (σ : Type) where
  | data (split : σ)
  | marker (snapshotId : Int) (resuming : Bool)
deriving DecidableEq, Repr

structure SplitBatch (σ : Type) where
  splits : List (Split σ)
  lastBatch : Bool
deriving DecidableEq, Repr

/-- The splits seen so far, the next one to send, and where the markers stand. -/
structure SplitReplay (σ : Type) where
  sourceExhausted : Bool
  splitBuffer : List σ
  bufferPosition : Nat
  snapshotBufferPositions : LinkedMap Int Nat
  firstSnapshot : Option Int

structure MarkerSplitSource (σ : Type) where
  replay : SplitReplay σ
  allDependencies : Finset Nat
  remainingDependencies : Finset Nat
  unionSources : Finset Nat
  remainingUnionSources : Finset Nat
  lastMarkerForUnion : Option (Option Int)
  resumingSnapshotId : Option Int
  sentInitialMarker : Bool
  sentFinalMarker : Bool

namespace SplitReplay
variable {σ : Type}

def new : SplitReplay σ := ⟨false,[],0,LinkedMap.empty.put 0 0,none⟩

variable (r : SplitReplay σ)

def drained : Bool := r.sourceExhausted && r.bufferPosition == r.splitBuffer.length

/-- The wrapped source answers with nothing, or with its next splits, how many it likes; the
last batch is one after which it has no more. -/
def fetchSplits (sequence : List σ) (r : SplitReplay σ) (existing : List σ) :
    Option (Nat × Bool) → Except String (Option (List σ × Bool) × SplitReplay σ)
  | none => pure (if existing.isEmpty then none else some (existing,false),r)
  | some (count,last) =>
    let splits := (sequence.drop r.splitBuffer.length).take count
    let splitBuffer := r.splitBuffer ++ splits
    let bufferPosition := r.bufferPosition + splits.length
    if bufferPosition ≠ splitBuffer.length then throw "IllegalStateException"
    else
      let lastBatch := last && splitBuffer.length == sequence.length
      pure (some (existing ++ splits,lastBatch),
        { r with
          splitBuffer := splitBuffer, bufferPosition := bufferPosition,
          sourceExhausted := r.sourceExhausted || lastBatch })

def prepareNextBatch (sequence : List σ) (r : SplitReplay σ) (maxSize : Nat) (reply : Option (Nat × Bool)) :
    Except String (Option (List σ × Bool) × SplitReplay σ) :=
  let remaining := r.splitBuffer.length - r.bufferPosition
  if maxSize ≤ remaining ∨ r.sourceExhausted then
    let including := min remaining maxSize
    pure (some ((r.splitBuffer.drop r.bufferPosition).take including,r.sourceExhausted && including == remaining),
      { r with bufferPosition := r.bufferPosition + including })
  else
    let existing := (r.splitBuffer.drop r.bufferPosition).take remaining
    fetchSplits sequence { r with bufferPosition := r.bufferPosition + remaining } existing reply

def record (snapshotId : Int) : SplitReplay σ :=
  { r with
    firstSnapshot := r.firstSnapshot.or (some snapshotId)
    snapshotBufferPositions := r.snapshotBufferPositions.put snapshotId r.bufferPosition }

def rewind (snapshotId : Int) : Except String (SplitReplay σ) :=
  match r.snapshotBufferPositions.get snapshotId with
  | some position => pure { r with bufferPosition := position }
  | none =>
    match r.firstSnapshot with
    | none => pure { r with bufferPosition := 0 }
    | some firstSnapshot =>
      if snapshotId < firstSnapshot then pure { r with bufferPosition := 0, firstSnapshot := none }
      else if r.drained then pure r
      else throw "IllegalStateException"

end SplitReplay

namespace MarkerSplitSource
variable {σ : Type}

def new (dependencies unions : Finset Nat) : MarkerSplitSource σ :=
  ⟨.new,dependencies,dependencies,unions,unions,none,none,false,false⟩

variable (b : MarkerSplitSource σ)

def finishDependency (dependency : Nat) : MarkerSplitSource σ :=
  { b with remainingDependencies := b.remainingDependencies.erase dependency }

def finishUnionSource (unionSource : Nat) (lastMarker : Option Int) : MarkerSplitSource σ :=
  { b with
    remainingUnionSources := b.remainingUnionSources.erase unionSource, lastMarkerForUnion := some lastMarker }

def resumeSnapshot (snapshotId : Int) : Except String (MarkerSplitSource σ) := do
  let replay ← b.replay.rewind snapshotId
  pure { b with
    replay := replay
    resumingSnapshotId := if snapshotId = 0 then none else some snapshotId
    sentInitialMarker := false, sentFinalMarker := false
    remainingDependencies := b.remainingDependencies ∪ b.allDependencies
    remainingUnionSources := b.remainingUnionSources ∪ b.unionSources }

end MarkerSplitSource

/-- The split sources of a query, by number, and their announcer. -/
structure SplitSystem (σ : Type) where
  announcer : MarkerAnnouncer
  sources : Nat → MarkerSplitSource σ

namespace SplitSystem
variable {σ : Type} (s : SplitSystem σ)

def modify (i : Nat) (f : MarkerSplitSource σ → MarkerSplitSource σ) : SplitSystem σ :=
  { s with sources := Function.update s.sources i (f (s.sources i)) }

def captureDisabled (s : SplitSystem σ) : Bool := s.announcer.interval = .captureDisabled

variable (now : Int)

def deactivate (i : Nat) : SplitSystem σ where
  announcer := s.announcer.deactivateSplitSource now i
  sources j :=
    if i ∈ s.announcer.activeSplitSources ∧ j ∈ s.announcer.activeSplitSources.erase i then (s.sources j).finishDependency i
    else s.sources j

def finish (i : Nat) : SplitSystem σ :=
  (s.modify i fun b => { b with sentFinalMarker := true }).deactivate now i

def finishUnionSources (i : Nat) (lastMarker : Option Int) : SplitSystem σ :=
  { s with
    sources := fun j =>
      if j ∈ (s.sources i).unionSources then (s.sources j).finishUnionSource i lastMarker else s.sources j }

def updateUnionsources (i : Nat) (snapshotId : Int) (lastBatch : Bool) : Bool × SplitSystem σ :=
  let b := s.sources i
  if lastBatch ∧ b.unionSources ≠ ∅ then
    let s :=
      if i ∈ b.remainingUnionSources then
        s.finishUnionSources i (if b.remainingUnionSources.card = 1 then some snapshotId else none)
      else s
    (decide ((s.sources i).remainingUnionSources = ∅),s)
  else (lastBatch,s)

def recordSnapshot (i : Nat) (resuming : Bool) (snapshotId : Int) (lastBatch : Bool) : SplitBatch σ × SplitSystem σ :=
  let (localLastBatch,s) := s.updateUnionsources i snapshotId lastBatch
  let s := if resuming then s else s.modify i fun b => { b with replay := b.replay.record snapshotId }
  (⟨[.marker snapshotId resuming],localLastBatch⟩,if localLastBatch then s.finish now i else s)

def forceMarker (i : Nat) : Except String (Option (SplitBatch σ) × SplitSystem σ) :=
  let announcement := s.announcer.forceGenerateMarker now i
  match announcement.snapshotId with
  | some snapshotId =>
    let (batch,s) := recordSnapshot { s with announcer := announcement.announcer } now i false snapshotId true
    pure (some batch,s)
  | none => throw "NoSuchElementException"

/-- All sources of the union have to send the same markers. -/
def unionBatch (i : Nat) : Except String (Option (SplitBatch σ) × SplitSystem σ) :=
  let b := s.sources i
  let lastBatch : Bool := b.remainingUnionSources = ∅
  let announcement := s.announcer.shouldGenerateMarker now i
  let s := { s with announcer := announcement.announcer }
  let wait := (some ⟨[],lastBatch⟩,if lastBatch then s.finish now i else s)
  match announcement.snapshotId,b.lastMarkerForUnion with
  | none,_ => pure wait
  | some _,none => throw "NullPointerException"
  | some snapshotId,some lastMarker =>
    if lastMarker.all fun last => snapshotId ≤ last then
      let (batch,s) := s.recordSnapshot now i false snapshotId lastBatch
      pure (some batch,s)
    else pure wait

variable (sequence : List σ)

def dataBatch (s : SplitSystem σ) (now : Int) (i maxSize : Nat) (reply : Option (Nat × Bool)) :
    Except String (Option (SplitBatch σ) × SplitSystem σ) := do
  let (result,replay) ← (s.sources i).replay.prepareNextBatch sequence maxSize reply
  let s := s.modify i fun b => { b with replay := replay }
  match result with
  | none => pure (none,s)
  | some (splits,lastBatch) =>
    let s := { s with announcer := s.announcer.incrementSplitCount splits.length }
    if lastBatch then
      if splits.isEmpty ∧ !s.captureDisabled then s.forceMarker now i
      else
        pure (some ⟨splits.map .data,s.captureDisabled⟩,if s.captureDisabled then s.finish now i else s)
    else pure (some ⟨splits.map .data,false⟩,s)

def nextSplits (s : SplitSystem σ) (now : Int) (i maxSize : Nat) (reply : Option (Nat × Bool)) :
    Except String (Option (SplitBatch σ) × SplitSystem σ) :=
  let announcement := s.announcer.shouldGenerateMarker now i
  let s := { s with announcer := announcement.announcer }
  match announcement.snapshotId with
  | some snapshotId =>
    let (batch,s) := s.recordSnapshot now i false snapshotId false
    pure (some batch,s)
  | none =>
    if (s.sources i).remainingDependencies ≠ ∅ then pure (some ⟨[],false⟩,s)
    else s.dataBatch sequence now i maxSize reply

def getNextBatch (s : SplitSystem σ) (now : Int) (i maxSize : Nat) (reply : Option (Nat × Bool)) :
    Except String (Option (SplitBatch σ) × SplitSystem σ) :=
  let b := s.sources i
  if maxSize = 0 then throw "Cannot fetch a batch of zero size"
  else match b.resumingSnapshotId with
    | some snapshotId =>
      let s := s.modify i fun b => { b with sentInitialMarker := true }
      let (batch,s) := s.recordSnapshot now i true snapshotId b.replay.drained
      pure (some batch,s.modify i fun b => { b with resumingSnapshotId := none })
    | none =>
      if !b.sentInitialMarker then
        pure (some ⟨[.marker 0 false],false⟩,s.modify i fun b => { b with sentInitialMarker := true })
      else if b.replay.drained then
        if b.unionSources ≠ ∅ ∧ i ∉ b.remainingUnionSources then s.unionBatch now i
        else if !s.captureDisabled then s.forceMarker now i
        else s.nextSplits sequence now i maxSize reply
      else s.nextSplits sequence now i maxSize reply

end SplitSystem
end HetuCore.Snapshot
