import HetuCore.Buffer.ClientBuffer
import HetuCore.Buffer.MasterBuffer
import HetuCore.Buffer.PageReferences
import HetuCore.Snapshot.MultiInputSnapshotState

namespace HetuCore.Buffer
open Foundation Snapshot

inductive BufferState where
  | open
  | noMoreBuffers
  | noMorePages
  | flushing
  | finished
  | aborted
  | failed
  deriving DecidableEq, Repr

namespace BufferState

def canAddPages : BufferState → Bool
  | .open => true
  | .noMoreBuffers => true
  | _ => false

def canAddBuffers : BufferState → Bool
  | .open => true
  | .noMorePages => true
  | _ => false

def isTerminal : BufferState → Bool
  | .finished => true
  | .aborted => true
  | .failed => true
  | _ => false

def compareAndSet (state expectedState newState : BufferState) : BufferState :=
  if state = expectedState then newState else state

end BufferState

inductive BufferType where
  | partitioned
  | broadcast
  | arbitrary
  | spool
  deriving DecidableEq, Repr

structure OutputBuffers where
  type : BufferType
  version : Nat
  noMoreBufferIds : Bool
  buffers : List (Nat × Nat)
  deriving DecidableEq, Repr

def OutputBuffers.bufferIds (o : OutputBuffers) : List Nat := o.buffers.map Prod.fst

def OutputBuffers.checkValidTransition (o newOutputBuffers : OutputBuffers) : Except String Unit :=
  if o.type ≠ newOutputBuffers.type then .error "newOutputBuffers has a different type"
  else if o.noMoreBufferIds then
    if o = newOutputBuffers then pure () else .error "Expected buffer to not change after no more buffers is set"
  else if o.version > newOutputBuffers.version then .error "newOutputBuffers version is older"
  else if o.version = newOutputBuffers.version ∧ o ≠ newOutputBuffers then
    .error "newOutputBuffers is the same version but contains different information"
  else
    match o.buffers.find? fun entry => newOutputBuffers.buffers.lookup entry.1 ≠ some entry.2 with
    | none => pure ()
    | some entry => .error ("newOutputBuffers has changed the assignment for task " ++ toString entry.1)

/-- The captured fields and the input channels. -/
structure BufferTotals where
  totalPagesAdded : Nat
  totalRowsAdded : Nat
  inputChannels : Finset String
  noMoreInputChannels : Bool

def outputBufferRestorable : MultiInputRestorable BufferTotals (Nat × Nat) where
  capture t := pure (t.totalPagesAdded,t.totalRowsAdded)
  restore t state := pure { t with totalPagesAdded := state.1, totalRowsAdded := state.2 }
  getInputChannels t := if t.noMoreInputChannels then some t.inputChannels else none

structure ArbitraryOutputBuffer where
  snapshotState : Option (MultiInputSnapshotState (Nat × Nat))
  totals : BufferTotals
  outputBuffers : OutputBuffers
  masterBuffer : MasterBuffer
  buffers : List ClientBuffer
  markersForNewBuffers : List SerializedPageReference
  stateMachine : BufferState
  references : PageReferences
  /-- The completed futures of reads. -/
  responses : List (Nat × BufferResult)
  futures : Nat
  /-- Every page handed to a client so far, in order. -/
  handed : List (Nat × SerializedPageReference)

namespace ArbitraryOutputBuffer

def new (snapshots : Bool) : ArbitraryOutputBuffer where
  snapshotState := if snapshots then some .new else none
  totals := ⟨0,0,∅,false⟩
  outputBuffers := ⟨.arbitrary,0,false,[]⟩
  masterBuffer := .new
  buffers := []
  markersForNewBuffers := []
  stateMachine := .open
  references := .new
  responses := []
  futures := 0
  handed := []

variable (s : ArbitraryOutputBuffer)

def bufferIds : List Nat := s.buffers.map ClientBuffer.bufferId

def findBuffer (id : Nat) : Option ClientBuffer := s.buffers.find? (·.bufferId = id)

def setBuffer (b : ClientBuffer) : ArbitraryOutputBuffer :=
  { s with buffers := s.buffers.map fun c => if c.bufferId = b.bufferId then b else c }

def isDone (future : Nat) : Bool := s.responses.any (·.1 = future)

def complete (future : Nat) (r : BufferResult) : ArbitraryOutputBuffer :=
  if s.isDone future then s else { s with responses := s.responses ++ [(future,r)] }

def completeWithEmpty (p : Option PendingRead) : ArbitraryOutputBuffer :=
  p.elim s fun p => s.complete p.resultFuture (emptyResults p.sequenceId false)

/-- Create the buffer of a client on first use, with the remembered markers queued for it. -/
def getBuffer (id : Nat) : Except String ArbitraryOutputBuffer :=
  if (s.findBuffer id).isSome then pure s
  else if ¬ (s.stateMachine.canAddBuffers ∨ ¬ s.outputBuffers.noMoreBufferIds) then .error "No more buffers already set"
  else if s.stateMachine = .failed then pure { s with buffers := s.buffers ++ [.new id] }
  else do
    let references ← s.references.addReferences s.markersForNewBuffers
    let masterBuffer ← s.masterBuffer.insertMarkers s.markersForNewBuffers id
    let references ← references.addReferences s.markersForNewBuffers.reverse
    let buffer := if s.stateMachine = .finished then (ClientBuffer.new id).destroy.1 else .new id
    pure { s with references := references, masterBuffer := masterBuffer, buffers := s.buffers ++ [buffer] }

/-- Load pages from the master buffer into an empty client buffer; true if data was added
or no more will come. The reference of the master buffer goes over to the client. -/
def loadPages (b : ClientBuffer) (maxSize : Nat) : Except String (Bool × ArbitraryOutputBuffer) :=
  if b.noMorePages ∨ b.pages ≠ [] then pure (false,s)
  else do
    let (pages,masterBuffer) := s.masterBuffer.getPages s.snapshotState.isSome b.bufferId maxSize
    let references ← s.references.addReferences pages
    let b := b.load pages masterBuffer.mayHaveMorePages
    let references ← references.dereferencePages pages
    let handed := s.handed ++ pages.map (b.bufferId,·)
    let s := { s with masterBuffer := masterBuffer, references := references, handed := handed }.setBuffer b
    pure (pages ≠ [] ∨ b.noMorePages,s)

/-- Load pages for a client that waits, and answer its read if that helped. -/
def loadPagesIfNecessary (id : Nat) : Except String ArbitraryOutputBuffer :=
  match s.findBuffer id with
  | none => pure s
  | some b =>
    match b.pendingRead with
    | none => pure s
    | some p => do
      let (dataAddedOrNoMorePages,s) ← s.loadPages b p.maxSize
      if dataAddedOrNoMorePages ∧ ¬ s.isDone p.resultFuture then
        match s.findBuffer id with
        | none => pure s
        | some b => do
          let result ← b.processRead p.sequenceId p.maxSize
          pure (s.complete p.resultFuture result)
      else pure s

/-- The loop over the clients stops when the master buffer is empty. -/
def loadPending (order : List Nat) : Except String ArbitraryOutputBuffer :=
  order.foldlM (fun s id => if s.masterBuffer.isEmpty then pure s else s.loadPagesIfNecessary id) s

/-- Queue the pages, for all the target clients if there are any, and serve waiting reads;
a broadcast marker is remembered for clients still to come. -/
def doEnqueue (pages : List SerializedPage) (targetClients : Option (Finset Nat)) (order : List Nat) :
    Except String ArbitraryOutputBuffer := do
  let references := s.references.updateMemoryUsage (pages.map SerializedPage.retainedSizeInBytes).sum
  let totals := { s.totals with
    totalRowsAdded := s.totals.totalRowsAdded + (pages.map SerializedPage.positionCount).sum
    totalPagesAdded := s.totals.totalPagesAdded + pages.length }
  let (serializedPageReferences,references) := references.createAll pages
  let extraTargets := targetClients.elim 0 fun clients => clients.card - 1
  let references ← references.addReferences (serializedPageReferences.flatMap (List.replicate extraTargets))
  let masterBuffer := s.masterBuffer.addPages serializedPageReferences targetClients
  let s ← loadPending { s with totals := totals, references := references, masterBuffer := masterBuffer } order
  if targetClients.isSome ∧ s.stateMachine.canAddBuffers then
    let references ← s.references.addReferences serializedPageReferences
    pure { s with
      references := references
      markersForNewBuffers := s.markersForNewBuffers ++ serializedPageReferences }
  else pure s

/-- A marker is sent to all clients if it is the only page that the snapshot state releases.
The order is the one in which the clients are visited. -/
def enqueue (pages : List SerializedPage) (origin : Option String)
    (replies : ManagerReplies (Nat × Nat)) (order : List Nat) : Except String ArbitraryOutputBuffer :=
  if ¬ order.Perm s.bufferIds then .error "not an order of the clients"
  else if ¬ s.stateMachine.canAddPages then pure s
  else
    match s.snapshotState with
    | none => s.doEnqueue pages none order
    | some snapshotState => do
      let (finalPages,snapshotState,totals) ←
        snapshotState.processSerializedPages outputBufferRestorable replies origin pages s.totals
      let targetClients :=
        if finalPages.length = 1 ∧ finalPages.all SerializedPage.isMarkerPage then some s.bufferIds.toFinset else none
      doEnqueue { s with snapshotState := some snapshotState, totals := totals } finalPages targetClients order

/-- A read: acknowledge, load, then answer or wait. -/
def get (id : Nat) (startingSequenceId : Int) (maxSize : Nat) : Except String ArbitraryOutputBuffer :=
  if ¬ maxSize > 0 then .error "maxSize must be at least 1 byte"
  else do
    let s ← s.getBuffer id
    match s.findBuffer id with
    | none => pure s
    | some b => do
      let (b,removedPages) ← b.acknowledgePages startingSequenceId
      let references ← s.references.dereferencePages removedPages
      let (_,s) ← loadPages ({ s with references := references }.setBuffer b) b maxSize
      match s.findBuffer id with
      | none => pure s
      | some b => do
        let (b,result,oldPendingRead) ← b.readOrWait startingSequenceId.toNat maxSize s.futures
        let resultFuture := s.futures
        let s := { s with futures := resultFuture + 1 }.setBuffer b
        let s := result.elim s (s.complete resultFuture)
        pure (s.completeWithEmpty oldPendingRead)

def acknowledge (id : Nat) (sequenceId : Int) : Except String ArbitraryOutputBuffer := do
  let s ← s.getBuffer id
  match s.findBuffer id with
  | none => pure s
  | some b => do
    let (b,removedPages) ← b.acknowledgePages sequenceId
    let references ← s.references.dereferencePages removedPages
    pure ({ s with references := references }.setBuffer b)

/-- Forget the remembered markers; all created buffers must have been declared. -/
def noMoreBuffers : Except String ArbitraryOutputBuffer := do
  let pages := s.markersForNewBuffers
  let undeclaredCreatedBuffers := s.bufferIds.filter (· ∉ s.outputBuffers.bufferIds)
  if s.outputBuffers.noMoreBufferIds ∧ undeclaredCreatedBuffers ≠ [] then
    .error ("Final output buffers does not contain all created buffer ids: " ++ toString undeclaredCreatedBuffers)
  else
    let references ← s.references.dereferencePages pages
    pure { s with markersForNewBuffers := [], references := references }

def destroyClient (id : Nat) : Except String ArbitraryOutputBuffer :=
  match s.findBuffer id with
  | none => pure s
  | some b => do
    let (b,removedPages,pendingRead) := b.destroy
    let references ← s.references.dereferencePages removedPages
    pure (({ s with references := references }.setBuffer b).completeWithEmpty pendingRead)

/-- The whole buffer is given up; ignored in a terminal state. -/
def destroy : Except String ArbitraryOutputBuffer :=
  if s.stateMachine.isTerminal then pure s
  else do
    let s ← noMoreBuffers { s with stateMachine := .finished }
    let references ← s.references.dereferencePages (s.masterBuffer.entries.map MasterEntry.page)
    let s := { s with masterBuffer := { s.masterBuffer with entries := [] }, references := references }
    let s ← s.bufferIds.foldlM destroyClient s
    pure { s with references := s.references.close }

def checkFlushComplete : Except String ArbitraryOutputBuffer :=
  if s.stateMachine = .flushing ∨ (s.stateMachine = .noMorePages ∧ s.masterBuffer.isEmpty) then
    if s.buffers.all ClientBuffer.destroyed then s.destroy else pure s
  else pure s

def abort (id : Nat) : Except String ArbitraryOutputBuffer := do
  let s ← s.getBuffer id
  let s ← s.destroyClient id
  s.checkFlushComplete

/-- New versions declare buffers; the last one ends the creation of buffers. -/
def setOutputBuffers (newOutputBuffers : OutputBuffers) : Except String ArbitraryOutputBuffer :=
  if s.stateMachine.isTerminal ∨ s.outputBuffers.version ≥ newOutputBuffers.version then pure s
  else do
    s.outputBuffers.checkValidTransition newOutputBuffers
    let s ← newOutputBuffers.bufferIds.foldlM getBuffer { s with outputBuffers := newOutputBuffers }
    let stateMachine := (s.stateMachine.compareAndSet .open .noMoreBuffers).compareAndSet .noMorePages .flushing
    let s := if newOutputBuffers.noMoreBufferIds then { s with stateMachine := stateMachine } else s
    let s ← (if s.stateMachine.canAddBuffers then pure s else s.noMoreBuffers : Except String ArbitraryOutputBuffer)
    s.checkFlushComplete

/-- The end of the pages; waiting reads are served or told. -/
def setNoMorePages (order : List Nat) : Except String ArbitraryOutputBuffer :=
  if ¬ order.Perm s.bufferIds then .error "not an order of the clients"
  else do
    let stateMachine := (s.stateMachine.compareAndSet .open .noMorePages).compareAndSet .noMoreBuffers .flushing
    let s := { s with stateMachine := stateMachine, masterBuffer := { s.masterBuffer with noMorePages := true } }
    let s ← order.foldlM loadPagesIfNecessary s
    s.checkFlushComplete

def addInputChannel (inputId : String) : Except String ArbitraryOutputBuffer :=
  if s.totals.noMoreInputChannels then .error "addInputChannel is called after setNoMoreInputChannels"
  else pure { s with totals := { s.totals with inputChannels := insert inputId s.totals.inputChannels } }

def setNoMoreInputChannels : Except String ArbitraryOutputBuffer :=
  if s.totals.noMoreInputChannels then .error "setNoMoreInputChannels is called multiple times"
  else pure { s with totals := { s.totals with noMoreInputChannels := true } }

variable {s}

theorem mem_of_findBuffer {id : Nat} {b : ClientBuffer} (h : s.findBuffer id = some b) :
    b ∈ s.buffers ∧ b.bufferId = id := by
  have hid := List.find?_some (p := fun c : ClientBuffer => decide (c.bufferId = id)) h
  exact ⟨List.mem_of_find?_eq_some h,of_decide_eq_true hid⟩

theorem mem_setBuffer {b c : ClientBuffer} (h : c ∈ (s.setBuffer b).buffers) : c = b ∨ c ∈ s.buffers := by
  obtain ⟨x,hx,rfl⟩ := List.mem_map.mp h
  split
  · exact .inl rfl
  · exact .inr hx

theorem mem_setBuffer_self {b b' : ClientBuffer} (hb : b ∈ s.buffers) (hid : b'.bufferId = b.bufferId) :
    b' ∈ (s.setBuffer b').buffers :=
  List.mem_map.mpr ⟨b,hb,if_pos hid.symm⟩

theorem loadPages_ok {b : ClientBuffer} {maxSize : Nat} {added : Bool} {s' : ArbitraryOutputBuffer}
    (h : s.loadPages b maxSize = .ok (added,s')) : s' = s ∨ ∃ pages masterBuffer references₁ references,
      s.masterBuffer.getPages s.snapshotState.isSome b.bufferId maxSize = (pages,masterBuffer) ∧
      s.references.addReferences pages = .ok references₁ ∧ references₁.dereferencePages pages = .ok references ∧ b.pages = [] ∧
      s' = { s with
        masterBuffer := masterBuffer
        references := references
        handed := s.handed ++ pages.map (b.bufferId,·) }.setBuffer (b.load pages masterBuffer.mayHaveMorePages) := by
  rw [loadPages] at h
  split at h
  · cases h
    exact .inl rfl
  · rename_i hc
    obtain ⟨references₁,h₁,h⟩ := bind_ok h
    obtain ⟨references,h₂,h⟩ := bind_ok h
    cases h
    exact .inr ⟨_,_,references₁,references,rfl,h₁,h₂,not_not.mp fun hp => hc (.inr hp),rfl⟩

end ArbitraryOutputBuffer

/-- The operations of producers and clients while pages are being exchanged. -/
inductive BufferAction where
  | enqueue (pages : List SerializedPage) (origin : Option String) (replies : ManagerReplies (Nat × Nat)) (order : List Nat)
  | get (bufferId : Nat) (startingSequenceId : Int) (maxSize : Nat)
  | acknowledge (bufferId : Nat) (sequenceId : Int)
  | abort (bufferId : Nat)
  | setOutputBuffers (newOutputBuffers : OutputBuffers)
  | addInputChannel (inputId : String)
  | setNoMoreInputChannels

namespace ArbitraryOutputBuffer

def step (s : ArbitraryOutputBuffer) : BufferAction → Except String ArbitraryOutputBuffer
  | .enqueue pages origin replies order => s.enqueue pages origin replies order
  | .get bufferId startingSequenceId maxSize => s.get bufferId startingSequenceId maxSize
  | .acknowledge bufferId sequenceId => s.acknowledge bufferId sequenceId
  | .abort bufferId => s.abort bufferId
  | .setOutputBuffers newOutputBuffers => s.setOutputBuffers newOutputBuffers
  | .addInputChannel inputId => s.addInputChannel inputId
  | .setNoMoreInputChannels => s.setNoMoreInputChannels

end ArbitraryOutputBuffer
end HetuCore.Buffer
