import HetuCore.Foundation.ConsistentCut
import HetuCore.Snapshot.MultiInputSnapshotState

namespace HetuCore.Snapshot
open Buffer Foundation
variable {ρ γ : Type}

/-- The component with a fixed set of input channels; it consumes the pages released to it. -/
structure SnapshotInputs (ρ γ : Type) where
  capture : ρ → Except String γ
  restore : ρ → γ → Except String ρ
  consume : ρ → SerializedPage → ρ
  channels : Finset String

variable (I : SnapshotInputs ρ γ)

def SnapshotInputs.toRestorable : MultiInputRestorable ρ γ :=
  ⟨I.capture,I.restore,fun _ => some I.channels⟩

/-- The component after it has consumed the pages. -/
def SnapshotInputs.consumed (start : ρ) (pages : List SerializedPage) : ρ :=
  pages.foldl I.consume start

/-- A request for the next page or the next marker, and what the supplier has. -/
structure Poll where
  markerOnly : Bool
  supplied : Option (String × SerializedPage)

/-- The state with what came in and went out: the events taken from the channels, the channels
that have sent their resume marker, and the pages released. -/
structure InputHistory (ρ γ : Type) where
  state : MultiInputSnapshotState γ
  restorable : ρ
  received : ChannelLog String SerializedPage
  resumed : Finset String
  released : List SerializedPage

variable (pages : List SerializedPage)

def dataPages : List SerializedPage := pages.filter fun page => !page.isMarkerPage

def SerializedPage.snapshotMarker (page : SerializedPage) : Option Int :=
  match page.toMarker with
  | some ⟨id,false⟩ => some id
  | _ => none

def markerIds : List Int := pages.filterMap SerializedPage.snapshotMarker

namespace InputHistory

def new (restorable : ρ) : InputHistory ρ γ := ⟨.new,restorable,[],∅,[]⟩

def take (h : InputHistory ρ γ) (channel : String) (page : SerializedPage) : InputHistory ρ γ :=
  match page.toMarker with
  | none => { h with received := h.received ++ [(channel,.data page)] }
  | some ⟨id,false⟩ => { h with received := h.received ++ [(channel,.marker id)] }
  | some ⟨_,true⟩ => { h with resumed := insert channel h.resumed }

def release (h : InputHistory ρ γ) (page : SerializedPage) : InputHistory ρ γ :=
  { h with
    released := h.released ++ [page]
    restorable := if page.isMarkerPage then h.restorable else I.consume h.restorable page }

variable (replies : ManagerReplies γ)

def step (h : InputHistory ρ γ) (poll : Poll) : Except String (InputHistory ρ γ) := do
  let (page,taken,state,restorable) ← h.state.processPage I.toRestorable replies poll.markerOnly
    (poll.supplied.map fun input => (some input.1,input.2)) h.restorable
  let h := { h with state := state, restorable := restorable }
  let h := if taken then poll.supplied.elim h fun input => h.take input.1 input.2 else h
  pure (page.elim h (release I h))

def inputs (restorable : ρ) : Machine (InputHistory ρ γ) Poll :=
  ⟨.new restorable,step I replies⟩

/-- What a channel may send next: data pages and markers with increasing ids, in a resumed run
after the resume marker. -/
def Sends (origin : Option Int) (h : InputHistory ρ γ) (channel : String) : Option MarkerPage → Prop
  | none => origin.isSome → channel ∈ h.resumed
  | some ⟨id,false⟩ => (origin.isSome → channel ∈ h.resumed) ∧ ∀ j, (channel,.marker j) ∈ h.received → j < id
  | some ⟨id,true⟩ => origin = some id ∧ channel ∉ h.resumed

/-- The supplied page is the next one of a channel. -/
def Streams (origin : Option Int) (h : InputHistory ρ γ) (poll : Poll) : Prop :=
  ∀ input ∈ poll.supplied, input.1 ∈ I.channels ∧ Sends origin h input.1 input.2.toMarker

instance (origin : Option Int) (h : InputHistory ρ γ) (channel : String) :
    (marker : Option MarkerPage) → Decidable (Sends origin h channel marker)
  | none => inferInstanceAs (Decidable (_ → _))
  | some ⟨_,false⟩ => inferInstanceAs (Decidable (_ ∧ ∀ _, _ → _))
  | some ⟨_,true⟩ => inferInstanceAs (Decidable (_ ∧ _))

instance (I : SnapshotInputs ρ γ) (origin : Option Int) (h : InputHistory ρ γ) (poll : Poll) :
    Decidable (Streams I origin h poll) :=
  inferInstanceAs (Decidable (∀ _ ∈ _, _))

end InputHistory
end HetuCore.Snapshot
