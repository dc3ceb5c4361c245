import HetuCore.Foundation.Outcome

/-! `WindowPartition` with an `AggregateWindowFunction`: the frame of each row, and an accumulator
that is kept while the frame only grows at its end. -/
namespace HetuCore.Window
open Foundation

inductive WindowFrameType where
  | range
  | rows
  deriving DecidableEq, Repr

inductive FrameBoundType where
  | unboundedPreceding
  | preceding
  | currentRow
  | following
  | unboundedFollowing
  deriving DecidableEq, Repr

/-- A bound of a frame with the channel of its offset. -/
structure FrameBound (Row : Type) where
  type : FrameBoundType
  channel : Row → Option Int

structure FrameInfo (Row : Type) where
  type : WindowFrameType
  first : FrameBound Row
  last : FrameBound Row

/-- An aggregate that is a fold over rows. -/
structure Aggregate (Row Acc Out : Type) where
  createAccumulator : Acc
  addInput : Acc → Row → Acc
  evaluateFinal : Acc → Out

variable {Row Acc Out κ : Type} {agg : Aggregate Row Acc Out}

def Aggregate.addAll (agg : Aggregate Row Acc Out) (windowIndex : Nat → Row) (positions : List Nat) (accumulator : Acc) : Acc :=
  positions.foldl (fun accumulator position => agg.addInput accumulator (windowIndex position)) accumulator

/-- There is no accumulator before the first partition, and a new one while there is no frame. -/
structure AggregateWindowFunction (agg : Aggregate Row Acc Out) where
  accumulator : Option Acc
  currentStart : Int
  currentEnd : Int
  fresh : currentStart < 0 → accumulator = some agg.createAccumulator

def positions (start last : Int) : List Nat := List.range' start.toNat (last + 1 - start).toNat

namespace AggregateWindowFunction

def new : AggregateWindowFunction agg := ⟨none,0,0,fun h => absurd h (Int.lt_irrefl 0)⟩

def resetAccumulator (f : AggregateWindowFunction agg) : AggregateWindowFunction agg :=
  if f.currentStart ≥ 0 then ⟨some agg.createAccumulator,-1,-1,fun _ => rfl⟩ else f

def accumulate (f : AggregateWindowFunction agg) (windowIndex : Nat → Row) (start last : Int) : Option Acc :=
  f.accumulator.map (agg.addAll windowIndex (positions start last))

def processRow (f : AggregateWindowFunction agg) (windowIndex : Nat → Row) (frameStart frameEnd : Int) :
    AggregateWindowFunction agg :=
  if h : frameStart < 0 then f.resetAccumulator
  else if frameStart = f.currentStart ∧ frameEnd ≥ f.currentEnd then
    ⟨f.accumulate windowIndex (f.currentEnd + 1) frameEnd,frameStart,frameEnd,fun hneg => absurd hneg h⟩
  else ⟨f.resetAccumulator.accumulate windowIndex frameStart frameEnd,frameStart,frameEnd,fun hneg => absurd hneg h⟩

end AggregateWindowFunction

structure WindowPartition (agg : Aggregate Row Acc Out) where
  pagesIndex : Nat → Row
  partitionStart : Nat
  partitionEnd : Nat
  function : AggregateWindowFunction agg
  peerGroupStart : Nat
  peerGroupEnd : Nat
  currentPosition : Nat

def toIntExact (value : Int) : Except String Int :=
  if -2147483648 ≤ value ∧ value ≤ 2147483647 then .ok value else .error "integer overflow"

def preceding (rowPosition : Nat) (value : Int) : Except String Int :=
  if value > rowPosition then .ok 0 else toIntExact (rowPosition - value)

def following (rowPosition endPosition : Nat) (value : Int) : Except String Int :=
  if value > endPosition - rowPosition then .ok endPosition else toIntExact (rowPosition + value)

namespace WindowPartition
variable [DecidableEq κ] (key : Row → κ) (frameInfo : FrameInfo Row) (p : WindowPartition agg)

/-- The loop that looks for the end of the peers; `left` positions remain. -/
def findPeerGroupEnd (same : Nat → Bool) : (left : Nat) → Nat → Nat
  | 0, peerGroupEnd => peerGroupEnd
  | left + 1, peerGroupEnd => if same peerGroupEnd then findPeerGroupEnd same left (peerGroupEnd + 1) else peerGroupEnd

def updatePeerGroup : WindowPartition agg :=
  { p with
    peerGroupStart := p.currentPosition
    peerGroupEnd := findPeerGroupEnd (fun position => key (p.pagesIndex p.currentPosition) = key (p.pagesIndex position))
      (p.partitionEnd - (p.currentPosition + 1)) (p.currentPosition + 1) }

def new (pagesIndex : Nat → Row) (partitionStart partitionEnd : Nat) (function : AggregateWindowFunction agg) :
    WindowPartition agg :=
  updatePeerGroup key
    ⟨pagesIndex,partitionStart,partitionEnd,function.resetAccumulator,partitionStart,partitionStart,partitionStart⟩

def getFrameValue (channel : Row → Option Int) (type : String) : Except String Int :=
  match channel (p.pagesIndex p.currentPosition) with
  | none => .error ("Window frame " ++ type ++ " offset must not be null")
  | some value =>
    if value ≥ 0 then .ok value else .error ("Window frame " ++ toString value ++ " offset must not be negative")

def getStartValue : Except String Int := p.getFrameValue frameInfo.first.channel "starting"

def getEndValue : Except String Int := p.getFrameValue frameInfo.last.channel "ending"

def rowPosition : Nat := p.currentPosition - p.partitionStart

def endPosition : Nat := p.partitionEnd - p.partitionStart - 1

def emptyFrame : Except String Bool :=
  if frameInfo.first.type = .unboundedPreceding ∧ frameInfo.last.type = .preceding then do
    let last ← p.getEndValue frameInfo
    pure (last > p.rowPosition)
  else if frameInfo.first.type = .following ∧ frameInfo.last.type = .unboundedFollowing then do
    let start ← p.getStartValue frameInfo
    pure (start > p.endPosition - p.rowPosition)
  else if frameInfo.first.type ≠ frameInfo.last.type then pure false
  else if frameInfo.first.type ≠ .preceding ∧ frameInfo.first.type ≠ .following then pure false
  else do
    let start ← p.getStartValue frameInfo
    let last ← p.getEndValue frameInfo
    if frameInfo.first.type = .preceding then pure (start < last ∨ (start > p.rowPosition ∧ last > p.rowPosition))
    else pure (start > last ∨ start > p.endPosition - p.rowPosition)

/-- The position of a bound: the edge of the partition if it is unbounded, or that of a peer. -/
def framePosition (bound unbounded : FrameBoundType) (edge peer : Int) (value : Except String Int) : Except String Int :=
  if bound = unbounded then .ok edge
  else match bound with
    | .preceding => value >>= preceding p.rowPosition
    | .following => value >>= following p.rowPosition p.endPosition
    | _ => .ok (if frameInfo.type = .range then peer else p.rowPosition)

def frameStart : Except String Int :=
  p.framePosition frameInfo frameInfo.first.type .unboundedPreceding 0 (p.peerGroupStart - p.partitionStart)
    (p.getStartValue frameInfo)

def frameEnd : Except String Int :=
  p.framePosition frameInfo frameInfo.last.type .unboundedFollowing p.endPosition (p.peerGroupEnd - p.partitionStart - 1)
    (p.getEndValue frameInfo)

def getFrameRange : Except String (Int × Int) := do
  if ← p.emptyFrame frameInfo then pure (-1,-1)
  else
    let start ← p.frameStart frameInfo
    let last ← p.frameEnd frameInfo
    pure (start,last)

def processNextRow : Except String (Out × WindowPartition agg) :=
  if ¬ p.currentPosition < p.partitionEnd then .error "No more rows in partition"
  else do
    let p := if p.currentPosition = p.peerGroupEnd then p.updatePeerGroup key else p
    let (start,last) ← p.getFrameRange frameInfo
    let function := p.function.processRow (fun position => p.pagesIndex (p.partitionStart + position)) start last
    match function.accumulator with
    | none => .error "NullPointerException"
    | some accumulator =>
      pure (agg.evaluateFinal accumulator,{ p with function := function, currentPosition := p.currentPosition + 1 })

def processRows : Nat → WindowPartition agg → Except String (List Out × WindowPartition agg)
  | 0, p => pure ([],p)
  | rows + 1, p => do
    let (value,p) ← p.processNextRow key frameInfo
    let (values,p) ← processRows rows p
    pure (value :: values,p)

end WindowPartition
end HetuCore.Window
