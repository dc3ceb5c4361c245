import HetuCore.Buffer.ArbitraryOutputBuffer

/-! The calls of several threads on a buffer with snapshots. A step goes from one access under a lock,
or one atomic access, to the next, so that calls interleave as their locks allow. -/
namespace HetuCore.Buffer
open Foundation Snapshot

/-- The steps of a call that need at most the lock of a client or of the master buffer. -/
inductive ClientStep where
  | acknowledge (id : Nat) (sequenceId : Int)
  | loadPagesIfNecessary (id : Nat)
  /-- The read that waits is answered afterwards, if the caller says so and the load helped. -/
  | load (id maxSize : Nat) (answers : Bool)
  | answer (id : Nat)
  | processRead (id : Nat) (pendingRead : PendingRead)
  | readOrWait (id : Nat) (sequenceId : Int) (maxSize : Nat)
  | completeWithEmpty (pendingRead : Option PendingRead)
  | dereference (pages : List SerializedPageReference)
  | destroy (id : Nat)
  | checkFlushComplete
  | addInputChannel (inputId : String)
  | setNoMoreInputChannels

/-- A call waits for the lock of the buffer, or goes on without it. -/
inductive CallStep where
  | enqueue (pages : List SerializedPage) (origin : Option String) (replies : ManagerReplies (Nat × Nat)) (order : List Nat)
  | getBuffer (id : Nat)
  | setOutputBuffers (newOutputBuffers : OutputBuffers)
  | noMoreBuffers
  | client (step : ClientStep)

/-- Where the call that holds the lock of the buffer is. -/
inductive LockedStep where
  | processPages (pages : List SerializedPage) (origin : Option String) (replies : ManagerReplies (Nat × Nat)) (order : List Nat)
  | addPages (pages : List SerializedPage) (targetClients : Option (Finset Nat)) (order : List Nat)
  /-- The loop over the clients, with what is to be done for the current one. -/
  | loadPending (steps : List ClientStep) (order : List Nat) (references : List SerializedPageReference) (broadcast : Bool)
  | setOutputBuffers (newOutputBuffers : OutputBuffers)
  | getBuffers (ids : List Nat) (declared : Bool)
  | insertMarkers (id : Nat) (ids : List Nat) (declared : Bool)
  | noMoreBuffers

namespace ArbitraryOutputBuffer
variable (s : ArbitraryOutputBuffer)

/-- An operation of the client, if it is there, under its lock. -/
def withClient (id : Nat) (f : ClientBuffer → Except String (ArbitraryOutputBuffer × List ClientStep)) :
    Except String (ArbitraryOutputBuffer × List ClientStep) :=
  (s.findBuffer id).elim (pure (s,[])) f

/-- The pages that the master buffer gives go to the client while its lock is held; the reference
of the master buffer is dropped later. -/
def loadStep (b : ClientBuffer) (answers : Bool) (supplied : List SerializedPageReference × MasterBuffer) :
    Except String (ArbitraryOutputBuffer × List ClientStep) :=
  if b.noMorePages ∨ b.pages ≠ [] then pure (s,[])
  else do
    let (pages,masterBuffer) := supplied
    let references ← s.references.addReferences pages
    let b := b.load pages masterBuffer.mayHaveMorePages
    let handed := s.handed ++ pages.map (b.bufferId,·)
    let dataAddedOrNoMorePages := pages ≠ [] ∨ b.noMorePages
    let next := if answers ∧ dataAddedOrNoMorePages then [ClientStep.answer b.bufferId] else []
    pure ({ s with masterBuffer := masterBuffer, references := references, handed := handed }.setBuffer b,
      .dereference pages :: next)

def clientStep : ClientStep → Except String (ArbitraryOutputBuffer × List ClientStep)
  | .acknowledge id sequenceId => s.withClient id fun b => do
    let (b,removedPages) ← b.acknowledgePages sequenceId
    pure (s.setBuffer b,[.dereference removedPages])
  | .loadPagesIfNecessary id => s.withClient id fun b =>
    pure (s,b.pendingRead.elim [] fun p => [.load id p.maxSize true])
  | .load id maxSize answers => s.withClient id fun b =>
    s.loadStep b answers (s.masterBuffer.getPages s.snapshotState.isSome id maxSize)
  | .answer id => s.withClient id fun b => pure (s,b.pendingRead.elim [] fun p => [.processRead id p])
  | .processRead id p => s.withClient id fun b =>
    if s.isDone p.resultFuture then pure (s,[])
    else do
      let result ← b.processRead p.sequenceId p.maxSize
      pure (s.complete p.resultFuture result,[])
  | .readOrWait id sequenceId maxSize => s.withClient id fun b => do
    let (b,result,oldPendingRead) ← b.readOrWait sequenceId.toNat maxSize s.futures
    let s' := { s with futures := s.futures + 1 }.setBuffer b
    pure (result.elim s' (s'.complete s.futures),[.completeWithEmpty oldPendingRead])
  | .completeWithEmpty pendingRead => pure (s.completeWithEmpty pendingRead,[])
  | .dereference [] => pure (s,[])
  | .dereference (r :: pages) => do
    let references ← s.references.dereferencePage r
    pure ({ s with references := references },[.dereference pages])
  | .destroy id => s.withClient id fun b =>
    let (b,removedPages,pendingRead) := b.destroy
    pure (s.setBuffer b,[.dereference removedPages,.completeWithEmpty pendingRead])
  | .checkFlushComplete => do
    let s ← s.checkFlushComplete
    pure (s,[])
  | .addInputChannel inputId => do
    let s ← s.addInputChannel inputId
    pure (s,[])
  | .setNoMoreInputChannels => do
    let s ← s.setNoMoreInputChannels
    pure (s,[])

/-- What a call does with the lock of the buffer; nothing if it does not take it after all. -/
def enter : CallStep → Option LockedStep
  | .enqueue pages origin replies order =>
    if s.stateMachine.canAddPages then some (.processPages pages origin replies order) else none
  | .getBuffer id => some (.getBuffers [id] false)
  | .setOutputBuffers newOutputBuffers => some (.setOutputBuffers newOutputBuffers)
  | .noMoreBuffers => if s.stateMachine.canAddBuffers then none else some .noMoreBuffers
  | .client _ => none

/-- A step with the lock of the buffer, what is next before the lock is released, and what
the call does after that. -/
def lockedStep : LockedStep → Except String (ArbitraryOutputBuffer × Option LockedStep × List CallStep)
  | .processPages pages origin replies order =>
    match s.snapshotState with
    | none => .error "NullPointerException"
    | some snapshotState => do
      let (finalPages,snapshotState,totals) ←
        snapshotState.processSerializedPages outputBufferRestorable replies origin pages s.totals
      let targetClients :=
        if finalPages.length = 1 ∧ finalPages.all SerializedPage.isMarkerPage then some s.bufferIds.toFinset else none
      pure ({ s with snapshotState := some snapshotState, totals := totals },some (.addPages finalPages targetClients order),[])
  | .addPages pages targetClients order =>
    if ¬ order.Perm s.bufferIds then .error "not an order of the clients"
    else do
      let references := s.references.updateMemoryUsage (pages.map SerializedPage.retainedSizeInBytes).sum
      let totals := { s.totals with
        totalRowsAdded := s.totals.totalRowsAdded + (pages.map SerializedPage.positionCount).sum
        totalPagesAdded := s.totals.totalPagesAdded + pages.length }
      let (serializedPageReferences,references) := references.createAll pages
      let extraTargets := targetClients.elim 0 fun clients => clients.card - 1
      let references ← references.addReferences (serializedPageReferences.flatMap (List.replicate extraTargets))
      let masterBuffer := s.masterBuffer.addPages serializedPageReferences targetClients
      pure ({ s with totals := totals, references := references, masterBuffer := masterBuffer },
        some (.loadPending [] order serializedPageReferences targetClients.isSome),[])
  | .loadPending (step :: steps) order references broadcast => do
    let (s,next) ← s.clientStep step
    pure (s,some (.loadPending (next ++ steps) order references broadcast),[])
  | .loadPending [] (id :: order) references broadcast =>
    if s.masterBuffer.isEmpty then pure (s,some (.loadPending [] [] references broadcast),[])
    else pure (s,some (.loadPending [.loadPagesIfNecessary id] order references broadcast),[])
  | .loadPending [] [] serializedPageReferences broadcast =>
    if broadcast ∧ s.stateMachine.canAddBuffers then do
      let references ← s.references.addReferences serializedPageReferences
      pure ({ s with
        references := references
        markersForNewBuffers := s.markersForNewBuffers ++ serializedPageReferences },none,[])
    else pure (s,none,[])
  | .setOutputBuffers newOutputBuffers =>
    if s.stateMachine.isTerminal ∨ s.outputBuffers.version ≥ newOutputBuffers.version then pure (s,none,[])
    else do
      s.outputBuffers.checkValidTransition newOutputBuffers
      pure ({ s with outputBuffers := newOutputBuffers },some (.getBuffers newOutputBuffers.bufferIds true),[])
  | .getBuffers (id :: ids) declared =>
    pure (s,some (if (s.findBuffer id).isSome then .getBuffers ids declared else .insertMarkers id ids declared),[])
  | .getBuffers [] false => pure (s,none,[])
  | .getBuffers [] true =>
    let stateMachine := (s.stateMachine.compareAndSet .open .noMoreBuffers).compareAndSet .noMorePages .flushing
    let s := if s.outputBuffers.noMoreBufferIds then { s with stateMachine := stateMachine } else s
    pure (s,none,[.noMoreBuffers,.client .checkFlushComplete])
  | .insertMarkers id ids declared => do
    let s ← s.getBuffer id
    pure (s,some (.getBuffers ids declared),[])
  | .noMoreBuffers =>
    let undeclaredCreatedBuffers := s.bufferIds.filter (· ∉ s.outputBuffers.bufferIds)
    if s.outputBuffers.noMoreBufferIds ∧ undeclaredCreatedBuffers ≠ [] then
      .error ("Final output buffers does not contain all created buffer ids: " ++ toString undeclaredCreatedBuffers)
    else pure ({ s with markersForNewBuffers := [] },none,[.client (.dereference s.markersForNewBuffers)])

end ArbitraryOutputBuffer

/-- The steps of a call in their order. -/
def BufferAction.steps : BufferAction → Except String (List CallStep)
  | .enqueue pages origin replies order => pure [.enqueue pages origin replies order]
  | .get id startingSequenceId maxSize =>
    if ¬ maxSize > 0 then .error "maxSize must be at least 1 byte"
    else pure [.getBuffer id,.client (.acknowledge id startingSequenceId),.client (.load id maxSize false),
      .client (.readOrWait id startingSequenceId maxSize)]
  | .acknowledge id sequenceId => pure [.getBuffer id,.client (.acknowledge id sequenceId)]
  | .abort id => pure [.getBuffer id,.client (.destroy id),.client .checkFlushComplete]
  | .setOutputBuffers newOutputBuffers => pure [.setOutputBuffers newOutputBuffers]
  | .addInputChannel inputId => pure [.client (.addInputChannel inputId)]
  | .setNoMoreInputChannels => pure [.client .setNoMoreInputChannels]

/-- The buffer, the call that holds its lock with its place and what it does after the release, and
what the other calls still have to do. -/
structure BufferThreads where
  buffer : ArbitraryOutputBuffer
  held : Option (LockedStep × Nat × List CallStep)
  calls : List (List CallStep)

inductive ThreadStep where
  | call (action : BufferAction)
  /-- The next step of a call without the lock of the buffer. -/
  | proceed (call : Nat)
  /-- The next step of the call with the lock of the buffer. -/
  | proceedLocked
  /-- A load while markers are being inserted may see any state of the master buffer. -/
  | race (call : Nat) (pages : List SerializedPageReference) (entries : List MasterEntry)

namespace BufferThreads
variable (t : BufferThreads)

/-- Remembered markers are being inserted for a new client, without the lock of the master buffer. -/
def inserting : Bool :=
  t.buffer.markersForNewBuffers ≠ [] ∧ t.held.any fun
    | (.insertMarkers _ _ _,_) => true
    | _ => false

/-- A call that waits for the lock of the buffer stays where it is. -/
def step : ThreadStep → Except String BufferThreads
  | .call action => do
    let steps ← action.steps
    pure { t with calls := t.calls ++ [steps] }
  | .proceed call =>
    match t.calls[call]? with
    | none => pure t
    | some [] => pure t
    | some (.client step :: rest) => do
      let (buffer,next) ← t.buffer.clientStep step
      pure { t with buffer := buffer, calls := t.calls.set call (next.map .client ++ rest) }
    | some (entry :: rest) =>
      if t.held.isSome then pure t
      else
        match t.buffer.enter entry with
        | none => pure { t with calls := t.calls.set call rest }
        | some locked => pure { t with held := some (locked,call,rest), calls := t.calls.set call [] }
  | .proceedLocked =>
    match t.held with
    | none => pure t
    | some (locked,call,rest) => do
      let (buffer,next,after) ← t.buffer.lockedStep locked
      match next with
      | none => pure { buffer := buffer, held := none, calls := t.calls.set call (after ++ rest) }
      | some locked => pure { t with buffer := buffer, held := some (locked,call,after ++ rest) }
  | .race call pages entries =>
    match t.calls[call]? with
    | some (.client (.load id _ answers) :: rest) =>
      if t.inserting then do
        let (buffer,next) ← t.buffer.withClient id fun b =>
          t.buffer.loadStep b answers (pages,{ t.buffer.masterBuffer with entries := entries })
        pure { t with buffer := buffer, calls := t.calls.set call (next.map .client ++ rest) }
      else pure t
    | _ => pure t

/-- A buffer with snapshots, before the first call. -/
def machine : Machine BufferThreads ThreadStep := ⟨⟨.new true,none,[]⟩,step⟩

end BufferThreads
end HetuCore.Buffer
