import HetuCore.Buffer.ClientBuffer
import HetuCore.Foundation.Machine

/-! A client buffer and its client under any interleaving of the locked blocks, with
requests re-sent and responses repeated, delayed or lost. -/
namespace HetuCore.Buffer
open Foundation

/-- The client: what it expects, every token it has expected so far, what it has accepted. -/
structure ExchangeClient where
  expected : Nat
  tokens : List Nat
  accepted : List SerializedPage
  complete : Bool
  deriving DecidableEq, Repr

namespace ExchangeClient

def new : ExchangeClient := ⟨0,[0],[],false⟩

/-- A response is accepted only if its token is the expected one. -/
def receive (c : ExchangeClient) (r : BufferResult) : ExchangeClient :=
  if r.token = c.expected then
    ⟨r.nextToken,r.nextToken :: c.tokens,c.accepted ++ r.serializedPages,c.complete || r.bufferComplete⟩
  else c

end ExchangeClient

/-- What a call still has to do after it has released the lock. -/
inductive ExchangeTask where
  | read (sequenceId maxSize : Nat)
  | completeWithEmpty (read : PendingRead)
  | processRead (read : PendingRead)
  | computeResult (read : PendingRead)
  | setResult (read : PendingRead) (result : BufferResult)
  deriving DecidableEq, Repr

structure Exchange where
  buffer : ClientBuffer
  client : ExchangeClient
  tasks : List ExchangeTask
  /-- The completed futures, which are the responses. -/
  results : List (Nat × BufferResult)
  futures : Nat
  deriving DecidableEq, Repr

inductive ExchangeAction where
  | enqueuePages (pages : List SerializedPageReference)
  | setNoMorePages
  | acknowledgePages (token : Nat)
  | getPages (token maxSize : Nat)
  | resume (task : Nat)
  | deliver (response : Nat)
  deriving DecidableEq, Repr

namespace Exchange

def new (bufferId : Nat) : Exchange := ⟨.new bufferId,.new,[],[],0⟩

variable (s : Exchange)

def isDone (future : Nat) : Bool := s.results.any (·.1 = future)

/-- A future keeps its first result. -/
def complete (future : Nat) (r : BufferResult) : Exchange :=
  if s.isDone future then s else { s with results := s.results ++ [(future,r)] }

def spawn (task : ExchangeTask) : Exchange := { s with tasks := s.tasks ++ [task] }

/-- The next block of a call in flight. -/
def runTask : ExchangeTask → Except String Exchange
  | .read sequenceId maxSize => do
    let (buffer,result,oldPendingRead) ← s.buffer.readOrWait sequenceId maxSize s.futures
    let resultFuture := s.futures
    let s := { s with buffer := buffer, futures := resultFuture + 1 }
    let s := result.elim s (s.complete resultFuture)
    pure (oldPendingRead.elim s fun p => s.spawn (.completeWithEmpty p))
  | .completeWithEmpty p => pure (s.complete p.resultFuture (emptyResults p.sequenceId false))
  | .processRead p => pure (if s.isDone p.resultFuture then s else s.spawn (.computeResult p))
  | .computeResult p => do
    let result ← s.buffer.processRead p.sequenceId p.maxSize
    pure (s.spawn (.setResult p result))
  | .setResult p result => pure (s.complete p.resultFuture result)

/-- The client names a token it has expected by its position; positions outside the
lists do nothing. -/
def step : ExchangeAction → Except String Exchange
  | .enqueuePages pages =>
    let (buffer,pendingRead) := s.buffer.enqueuePages pages
    let s := { s with buffer := buffer }
    pure (pendingRead.elim s fun p => s.spawn (.processRead p))
  | .setNoMorePages =>
    let (buffer,pendingRead) := s.buffer.setNoMorePages
    let s := { s with buffer := buffer }
    pure (pendingRead.elim s fun p => s.spawn (.processRead p))
  | .acknowledgePages i =>
    match s.client.tokens[i]? with
    | none => pure s
    | some token => do
      let (buffer,_) ← s.buffer.acknowledgePages token
      pure { s with buffer := buffer }
  | .getPages i maxSize =>
    match s.client.tokens[i]? with
    | none => pure s
    | some token => do
      let (buffer,_) ← s.buffer.acknowledgePages token
      pure ({ s with buffer := buffer }.spawn (.read token maxSize))
  | .resume i =>
    match s.tasks[i]? with
    | none => pure s
    | some task => { s with tasks := s.tasks.eraseIdx i }.runTask task
  | .deliver i =>
    match s.results[i]? with
    | none => pure s
    | some (_,r) => pure { s with client := s.client.receive r }

end Exchange

def exchangeMachine (bufferId : Nat) : Machine Exchange ExchangeAction := ⟨.new bufferId,Exchange.step⟩

/-- The pages of the enqueue calls that come before the first end of pages. -/
def enqueuedPages : List ExchangeAction → List SerializedPageReference
  | [] => []
  | .enqueuePages pages :: actions => pages ++ enqueuedPages actions
  | .setNoMorePages :: _ => []
  | _ :: actions => enqueuedPages actions

variable (actions : List ExchangeAction)

def noMorePagesSet : Bool := .setNoMorePages ∈ actions

theorem enqueuedPages_concat (a : ExchangeAction) :
    enqueuedPages (actions ++ [a]) = if noMorePagesSet actions then enqueuedPages actions
      else enqueuedPages actions ++ enqueuedPages [a] := by
  induction actions with
  | nil => rfl
  | cons b actions ih =>
    cases b with
    | enqueuePages pages =>
      have hs : noMorePagesSet (.enqueuePages pages :: actions) = noMorePagesSet actions := by simp [noMorePagesSet]
      rw [List.cons_append,enqueuedPages,ih,enqueuedPages,hs]
      split
      · rfl
      · rw [List.append_assoc]
    | setNoMorePages => simp [enqueuedPages,noMorePagesSet]
    | acknowledgePages token | getPages token maxSize | resume task => simpa [enqueuedPages,noMorePagesSet] using ih
    | deliver response => simpa [enqueuedPages,noMorePagesSet] using ih

end HetuCore.Buffer
