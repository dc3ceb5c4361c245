import HetuCore.Buffer.SerializedPage
import HetuCore.Foundation.Outcome

/-! The buffer of one client. Each operation is the body of a block that holds the lock
of the buffer; what runs after the lock is released is returned. -/
namespace HetuCore.Buffer
open Foundation

structure BufferResult where
  token : Nat
  nextToken : Nat
  bufferComplete : Bool
  serializedPages : List SerializedPage
  deriving DecidableEq, Repr

def emptyResults (token : Nat) (bufferComplete : Bool) : BufferResult := ⟨token,token,bufferComplete,[]⟩

/-- A read that waits for data; the future is named by a number. -/
structure PendingRead where
  resultFuture : Nat
  sequenceId : Nat
  maxSize : Nat
  deriving DecidableEq, Repr

structure ClientBuffer where
  bufferId : Nat
  rowsAdded : Nat
  pagesAdded : Nat
  bufferedBytes : Int
  currentSequenceId : Nat
  pages : List SerializedPageReference
  noMorePages : Bool
  destroyed : Bool
  pendingRead : Option PendingRead
  deriving DecidableEq, Repr

namespace ClientBuffer

def new (bufferId : Nat) : ClientBuffer := ⟨bufferId,0,0,0,0,[],false,false,none⟩

variable (b : ClientBuffer) (pages : List SerializedPageReference)

def addPages : ClientBuffer :=
  { b with
    pages := b.pages ++ pages
    rowsAdded := b.rowsAdded + (pages.map SerializedPageReference.positionCount).sum
    pagesAdded := b.pagesAdded + pages.length
    bufferedBytes := b.bufferedBytes + retainedSize pages }

/-- Pages from the supplier are added, and the end noted if it has no more. -/
def load (mayHaveMorePages : Bool) : ClientBuffer :=
  { b.addPages pages with noMorePages := b.noMorePages || !mayHaveMorePages }

/-- Pages after the last one are ignored; a waiting read is handed over for processing. -/
def enqueuePages : ClientBuffer × Option PendingRead :=
  if b.noMorePages then (b,none) else ({ b.addPages pages with pendingRead := none },b.pendingRead)

def setNoMorePages : ClientBuffer × Option PendingRead :=
  if b.noMorePages then (b,none) else ({ b with noMorePages := true, pendingRead := none },b.pendingRead)

/-- The dropped pages are to be dereferenced, a waiting read to be completed with an empty result. -/
def destroy : ClientBuffer × List SerializedPageReference × Option PendingRead :=
  ({ b with pages := [], bufferedBytes := 0, noMorePages := true, destroyed := true, pendingRead := none },
    b.pages,b.pendingRead)

/-- The loop over the pages: the first one is always taken, the others while the limit is kept. -/
def readPages (maxBytes bytes : Nat) (result : List SerializedPage) :
    List SerializedPageReference → List SerializedPage
  | [] => result
  | page :: pages =>
    let bytes := bytes + page.retainedSizeInBytes
    if result ≠ [] ∧ bytes > maxBytes then result
    else readPages maxBytes bytes (result ++ [page.serializedPage]) pages

def processRead (sequenceId maxSize : Nat) : Except String BufferResult :=
  if sequenceId < b.currentSequenceId then pure (emptyResults sequenceId false)
  else if b.pages = [] ∧ b.noMorePages then pure (emptyResults b.currentSequenceId true)
  else if sequenceId ≠ b.currentSequenceId then .error "Invalid sequence id"
  else
    let result := readPages maxSize 0 [] b.pages
    pure ⟨sequenceId,sequenceId + result.length,false,result⟩

/-- The removed pages are to be dereferenced. -/
def acknowledgePages (sequenceId : Int) : Except String (ClientBuffer × List SerializedPageReference) :=
  if sequenceId < 0 then .error "Invalid sequence id"
  else if b.destroyed then pure (b,[])
  else if sequenceId < b.currentSequenceId then pure (b,[])
  else
    let pagesToRemove := (sequenceId - b.currentSequenceId).toNat
    if ¬ pagesToRemove ≤ b.pages.length then .error "Invalid sequence id"
    else
      let removedPages := b.pages.take pagesToRemove
      let bufferedBytes := b.bufferedBytes - retainedSize removedPages
      if bufferedBytes < 0 then .error "VerifyException"
      else pure
        ({ b with
            pages := b.pages.drop pagesToRemove
            currentSequenceId := b.currentSequenceId + pagesToRemove
            bufferedBytes := bufferedBytes },removedPages)

/-- The locked block of a read: a result at once, or a new waiting read; the old waiting
read is to be completed with an empty result. -/
def readOrWait (sequenceId maxSize resultFuture : Nat) :
    Except String (ClientBuffer × Option BufferResult × Option PendingRead) :=
  if b.pages ≠ [] ∨ b.noMorePages ∨ sequenceId ≠ b.currentSequenceId then do
    let result ← { b with pendingRead := none }.processRead sequenceId maxSize
    pure ({ b with pendingRead := none },some result,b.pendingRead)
  else pure ({ b with pendingRead := some ⟨resultFuture,sequenceId,maxSize⟩ },none,b.pendingRead)

/-- The loop returns a prefix of the pages, and at least one page if there is one. -/
theorem readPages_spec (maxBytes bytes : Nat) (result : List SerializedPage) (pages : List SerializedPageReference) :
    ∃ k ≤ pages.length, readPages maxBytes bytes result pages =
      result ++ (pages.take k).map SerializedPageReference.serializedPage ∧ (result = [] → pages ≠ [] → 0 < k) := by
  induction pages generalizing bytes result with
  | nil => exact ⟨0,Nat.le_refl _,by simp [readPages],by simp⟩
  | cons page pages ih =>
    rw [readPages]
    split
    · rename_i h
      exact ⟨0,Nat.zero_le _,by simp,fun hr => absurd hr h.1⟩
    · obtain ⟨k,hk,heq,-⟩ := ih (bytes + page.retainedSizeInBytes) (result ++ [page.serializedPage])
      refine ⟨k + 1,Nat.succ_le_succ hk,?_,fun _ _ => Nat.succ_pos k⟩
      rw [heq,List.append_assoc]
      rfl

variable {b}

theorem processRead_ends {sequenceId maxSize : Nat} :
    Ends (fun _ => True) (fun _ => True) (b.processRead sequenceId maxSize) := by
  rw [processRead]
  split
  · exact .pure trivial
  · split
    · exact .pure trivial
    · split
      · exact .throw trivial
      · exact .pure trivial

/-- Only the waiting read changes; the old one is handed over. -/
theorem readOrWait_ends {sequenceId maxSize resultFuture : Nat} :
    Ends (fun _ => True) (fun x => ∃ waiting, x.1 = { b with pendingRead := waiting } ∧
      (∀ p ∈ waiting, p.resultFuture = resultFuture) ∧ x.2.2 = b.pendingRead)
      (b.readOrWait sequenceId maxSize resultFuture) := by
  rw [readOrWait]
  split
  · apply processRead_ends.bind
    intro result _
    exact Ends.pure ⟨none,rfl,fun p hp => (nomatch hp),rfl⟩
  · refine Ends.pure ⟨_,rfl,fun p hp => ?_,rfl⟩
    cases hp
    rfl

theorem acknowledgePages_ends {sequenceId : Int} :
    Ends (fun _ => True) (fun x => x.1.bufferId = b.bufferId ∧ b.pages = x.2 ++ x.1.pages ∧ x.1.pendingRead = b.pendingRead ∧
      x.1.bufferedBytes = b.bufferedBytes - retainedSize x.2) (b.acknowledgePages sequenceId) := by
  rw [acknowledgePages]
  split
  · exact .throw trivial
  · split
    · exact .pure ⟨rfl,rfl,rfl,(Int.sub_zero _).symm⟩
    · split
      · exact .pure ⟨rfl,rfl,rfl,(Int.sub_zero _).symm⟩
      · simp only
        split
        · exact .throw trivial
        · split
          · exact .throw trivial
          · exact .pure ⟨rfl,(List.take_append_drop _ _).symm,rfl,rfl⟩

end ClientBuffer
end HetuCore.Buffer
