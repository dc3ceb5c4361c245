import HetuCore.Window.WindowFunctions

/-! `WindowOperator` interrupted between two rows: the partition and the functions are captured, and a new partition
with new functions goes on from there. -/
namespace HetuCore.Window
open Foundation

structure WindowIndex (Row : Type) where
  size : Nat
  row : Nat → Row

/-- What a function writes; a double is the quotient of two numbers. -/
inductive OutputValue (V : Type) where
  | bigint (value : Nat)
  | double (dividend divisor : Int)
  | cell (value : Option V)

/-- A class of window functions: its fields besides the window index, and what `capture` stores of them. What is
captured and then restored into a function that was reset is the function. -/
structure FunctionClass (Row V : Type) where
  State : Type
  Captured : Type
  new : State
  reset : WindowIndex Row → State → State
  processRow : WindowIndex Row → State → (peerGroupStart peerGroupEnd frameStart frameEnd : Int) →
    Except String (OutputValue V × State)
  capture : State → Captured
  restore : Captured → State → State
  restored : ∀ s w, restore (capture s) (reset w new) = s

variable {Row V σ Out Acc C : Type}

/-- An accumulator whose capture and restore are faithful. -/
structure RestorableAggregate (Row Acc C V : Type) extends Aggregate Row Acc (Option V) where
  capture : Acc → C
  restore : C → Acc → Acc
  restored : ∀ a b, restore (capture a) b = a

structure AggregateWindowFunctionState (agg : RestorableAggregate Row Acc C V) where
  accumulator : Option C
  currentStart : Int
  currentEnd : Int
  fresh : currentStart < 0 → accumulator = some (agg.capture agg.createAccumulator)

structure RankingWindowFunctionState where
  currentPeerGroupStart : Int
  currentPosition : Nat

def RankingWindowFunction.capture (s : RankingState σ) : RankingWindowFunctionState :=
  ⟨s.currentPeerGroupStart,s.currentPosition⟩

def RankingWindowFunction.restore (state : RankingWindowFunctionState) (s : RankingState σ) : RankingState σ :=
  { s with currentPeerGroupStart := state.currentPeerGroupStart, currentPosition := state.currentPosition }

structure RankFunctionState where
  rank : Nat
  count : Nat
  baseState : RankingWindowFunctionState

def RankFunction.capture (s : RankingState (Nat × Nat)) : RankFunctionState :=
  ⟨s.function.1,s.function.2,RankingWindowFunction.capture s⟩

def RankFunction.restore (state : RankFunctionState) (s : RankingState (Nat × Nat)) : RankingState (Nat × Nat) :=
  RankingWindowFunction.restore state.baseState { s with function := (state.rank,state.count) }

structure DenseRankFunctionState where
  rank : Nat
  baseState : RankingWindowFunctionState

def DenseRankFunction.capture (s : RankingState Nat) : DenseRankFunctionState := ⟨s.function,RankingWindowFunction.capture s⟩

def DenseRankFunction.restore (state : DenseRankFunctionState) (s : RankingState Nat) : RankingState Nat :=
  RankingWindowFunction.restore state.baseState { s with function := state.rank }

structure PercentRankFunctionState where
  totalCount : Nat
  rank : Nat
  count : Nat
  baseState : RankingWindowFunctionState

def PercentRankFunction.capture (s : RankingState (Nat × Nat × Nat)) : PercentRankFunctionState :=
  ⟨s.function.1,s.function.2.1,s.function.2.2,RankingWindowFunction.capture s⟩

def PercentRankFunction.restore (state : PercentRankFunctionState) (s : RankingState (Nat × Nat × Nat)) :
    RankingState (Nat × Nat × Nat) :=
  RankingWindowFunction.restore state.baseState { s with function := (state.totalCount,state.rank,state.count) }

structure CumulativeDistributionFunctionState where
  totalCount : Nat
  count : Int
  baseState : RankingWindowFunctionState

def CumulativeDistributionFunction.capture (s : RankingState (Nat × Int)) : CumulativeDistributionFunctionState :=
  ⟨s.function.1,s.function.2,RankingWindowFunction.capture s⟩

def CumulativeDistributionFunction.restore (state : CumulativeDistributionFunctionState) (s : RankingState (Nat × Int)) :
    RankingState (Nat × Int) :=
  RankingWindowFunction.restore state.baseState { s with function := (state.totalCount,state.count) }

structure NTileFunctionState where
  rowCount : Nat
  baseState : RankingWindowFunctionState

def NTileFunction.capture (s : RankingState Nat) : NTileFunctionState := ⟨s.function,RankingWindowFunction.capture s⟩

def NTileFunction.restore (state : NTileFunctionState) (s : RankingState Nat) : RankingState Nat :=
  RankingWindowFunction.restore state.baseState { s with function := state.rowCount }

def ValueWindowFunction.capture (currentPosition : Nat) : Nat := currentPosition

def ValueWindowFunction.restore (state _currentPosition : Nat) : Nat := state

namespace FunctionClass

def aggregate (agg : RestorableAggregate Row Acc C V) : FunctionClass Row V where
  State := AggregateWindowFunction agg.toAggregate
  Captured := AggregateWindowFunctionState agg
  new := .new
  reset _ f := f.resetAccumulator
  processRow w f _ _ frameStart frameEnd :=
    let f := f.processRow w.row frameStart frameEnd
    match f.accumulator with
    | none => .error "NullPointerException"
    | some accumulator => .ok (.cell (agg.evaluateFinal accumulator),f)
  capture f := ⟨f.accumulator.map agg.capture,f.currentStart,f.currentEnd,fun h => by rw [f.fresh h]; rfl⟩
  restore s f :=
    ⟨s.accumulator.map fun a => agg.restore a (f.accumulator.getD agg.createAccumulator),s.currentStart,s.currentEnd,
      fun h => by rw [s.fresh h]; exact congrArg some (agg.restored _ _)⟩
  restored f w := by
    obtain ⟨accumulator,currentStart,currentEnd,hf⟩ := f
    simp [Function.comp_def,agg.restored]

/-- A subclass of `RankingWindowFunction`, with its own `capture` and `restore`. -/
def ranking [Inhabited σ] (f : WindowIndex Row → (peerGroupCount : Int) → WindowFunction (RankingState σ) Out)
    (write : Out → OutputValue V) (capture : RankingState σ → C) (restore : C → RankingState σ → RankingState σ)
    (restored : ∀ s t, restore (capture s) t = s) : FunctionClass Row V where
  State := RankingState σ
  Captured := C
  new := ⟨0,0,default⟩
  reset w _ := (f w 0).reset
  processRow w s peerGroupStart peerGroupEnd frameStart frameEnd := do
    let (value,s) ← (f w (peerGroupEnd - peerGroupStart + 1)).processRow s peerGroupStart frameStart frameEnd
    pure (write value,s)
  capture := capture
  restore := restore
  restored s _ := restored s _

/-- The subclasses of `ValueWindowFunction` have no fields of their own that change, and no own `capture`. -/
def value (f : WindowIndex Row → WindowFunction Nat (Option V)) : FunctionClass Row V where
  State := Nat
  Captured := Nat
  new := 0
  reset w _ := (f w).reset
  processRow w s peerGroupStart _ frameStart frameEnd := do
    let (value,s) ← (f w).processRow s peerGroupStart frameStart frameEnd
    pure (.cell value,s)
  capture := ValueWindowFunction.capture
  restore := ValueWindowFunction.restore
  restored _ _ := rfl

end FunctionClass

/-- A window function with the channels of its arguments. -/
inductive FunctionDefinition (Row V : Type) where
  | aggregate {Acc C : Type} (agg : RestorableAggregate Row Acc C V)
  | rank
  | denseRank
  | rowNumber
  | percentRank
  | cumeDist
  | ntile (valueChannel : Row → Option Int)
  | firstValue (argumentChannel : Row → Option V)
  | lastValue (argumentChannel : Row → Option V)
  | nthValue (valueChannel : Row → Option V) (offsetChannel : Row → Option Int)
  | lag (valueChannel : Row → Option V) (offsetChannel : Option (Row → Option Int)) (defaultChannel : Option (Row → Option V))
  | lead (valueChannel : Row → Option V) (offsetChannel : Option (Row → Option Int)) (defaultChannel : Option (Row → Option V))

def DenseRankFunction : WindowFunction (RankingState Nat) Nat :=
  RankingWindowFunction 0 fun rank newPeerGroup _ =>
    let rank := if newPeerGroup then rank + 1 else rank
    .ok (rank,rank)

def RowNumberFunction : WindowFunction (RankingState Unit) Nat :=
  RankingWindowFunction () fun _ _ currentPosition => .ok (currentPosition + 1,())

def PercentRankFunction (size : Nat) : WindowFunction (RankingState (Nat × Nat × Nat)) (OutputValue V) :=
  RankingWindowFunction (size,0,1) fun (totalCount,rank,count) newPeerGroup _ =>
    if totalCount = 1 then .ok (.double 0 1,(totalCount,rank,count))
    else
      let (rank,count) := if newPeerGroup then (rank + count,1) else (rank,count + 1)
      .ok (.double (rank - 1) (totalCount - 1),(totalCount,rank,count))

def CumulativeDistributionFunction (size : Nat) (peerGroupCount : Int) :
    WindowFunction (RankingState (Nat × Int)) (OutputValue V) :=
  RankingWindowFunction (size,0) fun (totalCount,count) newPeerGroup _ =>
    let count := if newPeerGroup then count + peerGroupCount else count
    .ok (.double count totalCount,(totalCount,count))

/-- The function of `first_value` and `last_value`; they differ in the end of the frame. -/
def edgeFunction (size : Nat) (argumentChannel : Nat → Option V) (edge : Int → Int → Int) : WindowFunction Nat (Option V) :=
  ValueWindowFunction fun frameStart frameEnd _ =>
    if frameStart < 0 then .ok none else appendTo size argumentChannel (edge frameStart frameEnd)

def FunctionDefinition.functionClass : FunctionDefinition Row V → FunctionClass Row V
  | aggregate agg => .aggregate agg
  | rank => .ranking (fun _ _ => RankFunction) .bigint RankFunction.capture RankFunction.restore fun _ _ => rfl
  | denseRank => .ranking (fun _ _ => DenseRankFunction) .bigint DenseRankFunction.capture DenseRankFunction.restore fun _ _ => rfl
  -- `row_number` has no fields of its own
  | rowNumber => .ranking (fun _ _ => RowNumberFunction) .bigint RankingWindowFunction.capture RankingWindowFunction.restore
    fun _ _ => rfl
  | percentRank => .ranking (fun w _ => PercentRankFunction w.size) id PercentRankFunction.capture PercentRankFunction.restore
    fun _ _ => rfl
  | cumeDist => .ranking (fun w peerGroupCount => CumulativeDistributionFunction w.size peerGroupCount) id
    CumulativeDistributionFunction.capture CumulativeDistributionFunction.restore fun _ _ => rfl
  | ntile valueChannel => .ranking (fun w _ => NTileFunction w.size fun i => valueChannel (w.row i)) (·.elim (.cell none) .bigint)
    NTileFunction.capture NTileFunction.restore fun _ _ => rfl
  | firstValue channel => .value fun w => edgeFunction w.size (fun i => channel (w.row i)) fun frameStart _ => frameStart
  | lastValue channel => .value fun w => edgeFunction w.size (fun i => channel (w.row i)) fun _ frameEnd => frameEnd
  | nthValue valueChannel offsetChannel =>
    .value fun w => NthValueFunction w.size (fun i => valueChannel (w.row i)) fun i => offsetChannel (w.row i)
  | lag valueChannel offsetChannel defaultChannel => .value fun w => LagFunction w.size (fun i => valueChannel (w.row i))
    (offsetChannel.map fun channel i => channel (w.row i)) (defaultChannel.map fun channel i => channel (w.row i))
  | lead valueChannel offsetChannel defaultChannel => .value fun w => LeadFunction w.size (fun i => valueChannel (w.row i))
    (offsetChannel.map fun channel i => channel (w.row i)) (defaultChannel.map fun channel i => channel (w.row i))

structure FramedWindowFunction (Row V : Type) where
  function : FunctionDefinition Row V
  frame : FrameInfo Row

/-- The fields of a function; it has a window index once it was reset. -/
structure FunctionObject (f : FramedWindowFunction Row V) where
  windowIndex : Option (WindowIndex Row)
  state : f.function.functionClass.State

/-- The positions of a partition; its functions are kept beside it. -/
abbrev Cursor (Row : Type) := WindowPartition (⟨(),fun _ _ => (),id⟩ : Aggregate Row Unit Unit)

/-- For a new peer group the partition looks for its end. -/
def Cursor.currentPeers {κ : Type} [DecidableEq κ] (key : Row → κ) (p : Cursor Row) : Cursor Row :=
  if p.currentPosition = p.peerGroupEnd then p.updatePeerGroup key else p

theorem Cursor.currentPeers_eq {κ : Type} [DecidableEq κ] (key : Row → κ) (p : Cursor Row) :
    ∃ start last, p.currentPeers key = { p with peerGroupStart := start, peerGroupEnd := last } := by
  rw [currentPeers]
  split <;> exact ⟨_,_,rfl⟩

/-- What `capture` of a partition stores. -/
structure WindowPartitionState where
  partitionStart : Nat
  partitionEnd : Nat
  peerGroupStart : Nat
  peerGroupEnd : Nat
  currentPosition : Nat

variable {n : Nat} {κ : Type} [DecidableEq κ] (key : Row → κ) (pagesIndex : Nat → Row)

def forEachFunction : {n : Nat} → {γ : Fin n → Type} → (∀ i, Except String (γ i)) → Except String (∀ i, γ i)
  | 0, _, _ => .ok fun i => i.elim0
  | _ + 1, _, f => do
    let first ← f 0
    let rest ← forEachFunction fun i => f i.succ
    pure (Fin.cons first rest)

theorem forEachFunction_ok {γ : Fin n → Type} {f : ∀ i, Except String (γ i)} {g : ∀ i, γ i}
    (h : forEachFunction f = .ok g) (i : Fin n) : f i = .ok (g i) := by
  induction n with
  | zero => exact i.elim0
  | succ n ih =>
    obtain ⟨first,hf,h⟩ := bind_ok h
    obtain ⟨rest,hr,h⟩ := bind_ok h
    cases h
    cases i using Fin.cases with
    | zero => exact hf
    | succ i => exact ih hr i

def windowIndex (bounds : Nat × Nat) : WindowIndex Row := ⟨bounds.2 - bounds.1,fun position => pagesIndex (bounds.1 + position)⟩

/-- The channels of a row and what the functions write for it. -/
abbrev OutputRow (Row V : Type) (n : Nat) := Row × (Fin n → OutputValue V)

/-- The current partition, the functions, and the bounds of the partitions that follow. -/
structure WindowRun (functions : Fin n → FramedWindowFunction Row V) where
  partition : Cursor Row
  objects : ∀ i, FunctionObject (functions i)
  following : List (Nat × Nat)

namespace WindowRun
variable (functions : Fin n → FramedWindowFunction Row V)

def newFunctions : ∀ i, FunctionObject (functions i) := fun i => ⟨none,(functions i).function.functionClass.new⟩

variable {functions}

def newPartition (bounds : Nat × Nat) (objects : ∀ i, FunctionObject (functions i)) (following : List (Nat × Nat)) :
    WindowRun functions :=
  ⟨.new key pagesIndex bounds.1 bounds.2 .new,fun i =>
      let w := windowIndex pagesIndex bounds
      ⟨some w,(functions i).function.functionClass.reset w (objects i).state⟩,
    following⟩

variable (s : WindowRun functions)

def processNextRow : Except String (OutputRow Row V n × WindowRun functions) :=
  if ¬ s.partition.currentPosition < s.partition.partitionEnd then .error "No more rows in partition"
  else do
    let p := s.partition.currentPeers key
    let results ← forEachFunction fun i => do
      let (start,last) ← p.getFrameRange (functions i).frame
      match (s.objects i).windowIndex with
      | none => .error "NullPointerException"
      | some w =>
        let (value,state) ← (functions i).function.functionClass.processRow w (s.objects i).state
          (p.peerGroupStart - p.partitionStart) (p.peerGroupEnd - p.partitionStart - 1) start last
        pure (value,(⟨some w,state⟩ : FunctionObject (functions i)))
    pure ((p.pagesIndex p.currentPosition,fun i => (results i).1),
      ⟨{ p with currentPosition := p.currentPosition + 1 },fun i => (results i).2,s.following⟩)

/-- The next row, of this partition or of the one that follows. -/
def nextRow : Except String (OutputRow Row V n × WindowRun functions) :=
  if s.partition.currentPosition < s.partition.partitionEnd then s.processNextRow key
  else match s.following with
    | [] => .error "No more rows in partition"
    | bounds :: following => (newPartition key pagesIndex bounds s.objects following).processNextRow key

def processRows : Nat → WindowRun functions → Except String (List (OutputRow Row V n) × WindowRun functions)
  | 0, s => pure ([],s)
  | rows + 1, s => do
    let (row,s) ← s.nextRow key pagesIndex
    let (rest,s) ← processRows rows s
    pure (row :: rest,s)

def capture : WindowPartitionState :=
  ⟨s.partition.partitionStart,s.partition.partitionEnd,s.partition.peerGroupStart,s.partition.peerGroupEnd,
    s.partition.currentPosition⟩

def restoreWindowPartition (state : WindowPartitionState) (following : List (Nat × Nat)) : WindowRun functions :=
  let s := newPartition key pagesIndex (state.partitionStart,state.partitionEnd) (newFunctions functions) following
  { s with partition := { s.partition with
      peerGroupStart := state.peerGroupStart
      peerGroupEnd := state.peerGroupEnd
      currentPosition := state.currentPosition } }

/-- A new partition with new functions, into which what was captured is restored: first the partition, then each function. -/
def restore : WindowRun functions :=
  let r := restoreWindowPartition key pagesIndex s.capture s.following
  { r with objects := fun i =>
      let function := (functions i).function.functionClass
      ⟨(r.objects i).windowIndex,function.restore (function.capture (s.objects i).state) (r.objects i).state⟩ }

/-- The functions have the window index of the partition. -/
structure Opened : Prop where
  rows : s.partition.pagesIndex = pagesIndex
  function : s.partition.function = AggregateWindowFunction.new.resetAccumulator
  objects : ∀ i, (s.objects i).windowIndex = some (windowIndex pagesIndex (s.partition.partitionStart,s.partition.partitionEnd))

variable {key pagesIndex s}

theorem opened_newPartition {bounds : Nat × Nat} {objects : ∀ i, FunctionObject (functions i)} {following : List (Nat × Nat)} :
    (newPartition key pagesIndex bounds objects following).Opened pagesIndex :=
  ⟨rfl,rfl,fun _ => rfl⟩

theorem Opened.restore_eq (h : s.Opened pagesIndex) : s.restore key pagesIndex = s := by
  obtain ⟨⟨rows,_,_,function,_,_,_⟩,objects,following⟩ := s
  obtain ⟨hr,hf,ho⟩ := h
  cases hr
  cases hf
  refine congrArg (fun objects => WindowRun.mk _ objects following) (funext fun i => ?_)
  have hs := (functions i).function.functionClass.restored (objects i).state
  exact (congrArg (FunctionObject.mk _) (hs _)).trans (congrArg (FunctionObject.mk · _) (ho i).symm)

theorem Opened.processNextRow {r : OutputRow Row V n × WindowRun functions} (h : s.Opened pagesIndex)
    (hr : s.processNextRow key = .ok r) : r.2.Opened pagesIndex := by
  rw [WindowRun.processNextRow] at hr
  split at hr
  · cases hr
  · obtain ⟨results,hs,hr⟩ := bind_ok hr
    cases hr
    obtain ⟨_,_,hp⟩ := s.partition.currentPeers_eq key
    rw [hp] at hs ⊢
    refine ⟨h.rows,h.function,fun i => ?_⟩
    obtain ⟨range,-,hi⟩ := bind_ok (forEachFunction_ok hs i)
    rw [h.objects i] at hi
    obtain ⟨value,-,hi⟩ := bind_ok hi
    exact congrArg (·.2.windowIndex) (Except.ok.inj hi).symm

theorem Opened.nextRow {r : OutputRow Row V n × WindowRun functions} (h : s.Opened pagesIndex)
    (hr : s.nextRow key pagesIndex = .ok r) : r.2.Opened pagesIndex := by
  rw [WindowRun.nextRow] at hr
  split at hr
  · exact h.processNextRow hr
  · split at hr
    · cases hr
    · exact opened_newPartition.processNextRow hr

theorem Opened.processRows {rows : Nat} {r : List (OutputRow Row V n) × WindowRun functions}
    (h : s.Opened pagesIndex) (hr : WindowRun.processRows key pagesIndex rows s = .ok r) : r.2.Opened pagesIndex := by
  induction rows generalizing s r with
  | zero =>
    cases hr
    exact h
  | succ rows ih =>
    obtain ⟨row,hn,hr⟩ := bind_ok hr
    obtain ⟨rest,hl,hr⟩ := bind_ok hr
    cases hr
    exact @ih _ rest (h.nextRow hn) hl

theorem processRows_add (done rest : Nat) (s : WindowRun functions) :
    processRows key pagesIndex (done + rest) s = (do
      let (before,s) ← processRows key pagesIndex done s
      let (after,s) ← processRows key pagesIndex rest s
      pure (before ++ after,s)) := by
  induction done generalizing s with
  | zero => simp [processRows]
  | succ done ih =>
    rw [Nat.succ_add,processRows,processRows]
    simp [ih]

/-- A run that is interrupted after some rows, and goes on with what was restored for some more, writes what the run
without an interruption does. -/
theorem processRows_restore (key : Row → κ) (pagesIndex : Nat → Row) (functions : Fin n → FramedWindowFunction Row V)
    (first : Nat × Nat) (following : List (Nat × Nat)) (done rest : Nat) :
    (do
      let (before,s) ← processRows key pagesIndex done (newPartition key pagesIndex first (newFunctions functions) following)
      let (after,_) ← processRows key pagesIndex rest (s.restore key pagesIndex)
      pure (before ++ after)) =
    Prod.fst <$> processRows key pagesIndex (done + rest)
      (newPartition key pagesIndex first (newFunctions functions) following) := by
  rw [processRows_add]
  cases hr : processRows key pagesIndex done (newPartition key pagesIndex first (newFunctions functions) following) with
  | error message => rfl
  | ok r =>
    have h := opened_newPartition.processRows hr
    simp only [bind,Except.bind,h.restore_eq]
    cases processRows key pagesIndex rest r.2 <;> rfl

/-- The sum of the rows that are not NULL, with an accumulator that is captured as it is. -/
def sum : RestorableAggregate (Option Int) (Option Int) (Option Int) Int where
  createAccumulator := none
  addInput sum row := row.elim sum fun value => some (sum.getD 0 + value)
  evaluateFinal := id
  capture := id
  restore state _ := state
  restored _ _ := rfl

/-- Two partitions with `sum` and `rank` over the rows so far, interrupted at the second row. -/
example : (do
      let functions : Fin 2 → FramedWindowFunction (Option Int) Int := fun i =>
        ⟨if i = 0 then .aggregate sum else .rank,⟨.rows,⟨.unboundedPreceding,fun _ => none⟩,⟨.currentRow,fun _ => none⟩⟩⟩
      let pagesIndex : Nat → Option Int := fun i => [some 5,none,some 7,some 2].getD i none
      let (before,s) ← processRows id pagesIndex 1 (newPartition id pagesIndex (0,3) (newFunctions functions) [(3,4)])
      let (after,_) ← processRows id pagesIndex 3 (s.restore id pagesIndex)
      pure ((before ++ after).map fun row => (row.2 0,row.2 1)) : Except String (List (OutputValue Int × OutputValue Int))) =
    .ok [(.cell (some 5),.bigint 1),(.cell (some 5),.bigint 2),(.cell (some 12),.bigint 3),(.cell (some 2),.bigint 1)] := rfl

end WindowRun
end HetuCore.Window
