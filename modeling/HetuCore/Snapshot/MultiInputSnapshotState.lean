import HetuCore.Buffer.SerializedPage
import HetuCore.Foundation.Machine
import Mathlib.Data.Finset.Card

/-! Snapshot processing in front of a component with several input channels: pages and
markers come in, pages to be handled come out. -/
namespace HetuCore.Snapshot
open Buffer Foundation

/-- An entry of a stored state: the captured component first, then input pages. -/
inductive StateEntry (γ : Type) where
  | captured (state : γ)
  | input (page : SerializedPage)
  deriving DecidableEq, Repr

structure SnapshotState (γ : Type) where
  snapshotId : Int
  resuming : Bool
  markedChannels : Finset String
  states : List (StateEntry γ)
  deriving DecidableEq

inductive LoadReply (γ : Type) where
  | missing
  | noState
  | failed
  | loaded (storedStates : List (StateEntry γ))

inductive ManagerCall (γ : Type) where
  | storeState (snapshotId : Int) (states : List (StateEntry γ))
  | succeededToCapture (snapshotId : Int)
  | failedToCapture (snapshotId : Int)
  | succeededToRestore (snapshotId : Int)
  | failedToRestore (snapshotId : Int) (fatal : Bool)
  deriving DecidableEq, Repr

/-- How the snapshot manager answers. -/
structure ManagerReplies (γ : Type) where
  loadState : Int → LoadReply γ
  stores : Int → Bool

/-- The component, with its captured states. -/
structure MultiInputRestorable (ρ γ : Type) where
  capture : ρ → Except String γ
  restore : ρ → γ → Except String ρ
  getInputChannels : ρ → Option (Finset String)

structure MultiInputSnapshotState (γ : Type) where
  states : List (SnapshotState γ)
  pendingPages : List (StateEntry γ)
  pendingMarkers : List MarkerPage
  calls : List (ManagerCall γ)

def LoadReply.pendingPages {γ : Type} : LoadReply γ → List (StateEntry γ)
  | .loaded storedStates => storedStates.tail
  | _ => []

namespace MultiInputSnapshotState
variable {ρ γ : Type}

def new : MultiInputSnapshotState γ := ⟨[],[],[],[]⟩

variable (m : MultiInputSnapshotState γ)

def call (c : ManagerCall γ) : MultiInputSnapshotState γ := { m with calls := m.calls ++ [c] }

def isFor (marker : MarkerPage) (snapshot : SnapshotState γ) : Bool :=
  snapshot.snapshotId = marker.snapshotId ∧ snapshot.resuming = marker.isResuming

def snapshotStateById (marker : MarkerPage) : Option (SnapshotState γ) :=
  m.states.find? (isFor marker)

/-- Mark the channel in the state of the marker. -/
def markChannel (marker : MarkerPage) (channel : String) : MultiInputSnapshotState γ :=
  { m with states := m.states.map fun snapshot =>
      if isFor marker snapshot then { snapshot with markedChannels := insert channel snapshot.markedChannels } else snapshot }

variable (R : MultiInputRestorable ρ γ) (replies : ManagerReplies γ)

/-- Load and restore on the first resume marker; whatever goes wrong is reported only. -/
def restoreState (snapshotId : Int)
    (m : MultiInputSnapshotState γ) (restorable : ρ) : MultiInputSnapshotState γ × ρ :=
  match replies.loadState snapshotId with
  | .missing => (m.call (.failedToRestore snapshotId true),restorable)
  | .noState => (m.call (.failedToRestore snapshotId true),restorable)
  | .failed => (m.call (.failedToRestore snapshotId false),restorable)
  | .loaded [] => ({ m with pendingPages := [] }.call (.failedToRestore snapshotId false),restorable)
  | .loaded (.input _ :: rest) => ({ m with pendingPages := rest }.call (.failedToRestore snapshotId false),restorable)
  | .loaded (.captured state :: rest) =>
    match R.restore restorable state with
    | .ok restored => ({ m with pendingPages := rest }.call (.succeededToRestore snapshotId),restored)
    | .error _ => ({ m with pendingPages := rest }.call (.failedToRestore snapshotId false),restorable)

/-- The marked channels of the marker's state, and whether all channels are marked. -/
def allMarked (m : MultiInputSnapshotState γ) (restorable : ρ) (marker : MarkerPage) : Except String Bool :=
  match R.getInputChannels restorable,m.snapshotStateById marker with
  | some inputChannels,some snapshot =>
    if ¬ snapshot.markedChannels ⊆ inputChannels then .error "IllegalStateException"
    else pure (inputChannels.card = snapshot.markedChannels.card)
  | _,_ => pure false

variable (channel : String) (marker : MarkerPage) (m : MultiInputSnapshotState γ) (restorable : ρ)

/-- The first resume marker: what was in progress is dropped and the state is restored. -/
def startResume : MultiInputSnapshotState γ × ρ :=
  let (m,restorable) := restoreState R replies marker.snapshotId { m with states := [] } restorable
  ({ m with
      states := m.states ++ [⟨marker.snapshotId,marker.isResuming,∅,[]⟩]
      pendingMarkers := m.pendingMarkers ++ [marker] },restorable)

/-- With the marker of the last channel the resume is over. -/
def markResumed : Except String (MultiInputSnapshotState γ) := do
  let m := m.markChannel marker channel
  if ← m.allMarked R restorable marker then
    if ¬ m.states.head?.any (isFor marker) then .error "resume state should be the first one"
    else pure { m with states := m.states.tail }
  else pure m

/-- True if the marker is not passed on. -/
def resume : Except String (Bool × MultiInputSnapshotState γ × ρ) := do
  let ret := (m.snapshotStateById marker).isSome
  let (m,restorable) := if ret then (m,restorable) else m.startResume R replies marker restorable
  let m ← m.markResumed R channel marker restorable
  pure (ret,m,restorable)

/-- The state is complete: it is stored, and all earlier ones are given up. -/
def complete : MultiInputSnapshotState γ :=
  let index := m.states.findIdx (isFor marker)
  let states := (m.snapshotStateById marker).elim [] SnapshotState.states
  let stored :=
    if replies.stores marker.snapshotId then
      [ManagerCall.storeState marker.snapshotId states,.succeededToCapture marker.snapshotId]
    else [.failedToCapture marker.snapshotId]
  let failed := (m.states.take index).map fun s =>
    if s.resuming then ManagerCall.failedToRestore s.snapshotId false else .failedToCapture s.snapshotId
  { m with states := m.states.drop (index + 1), calls := m.calls ++ stored ++ failed }

/-- The first marker of a snapshot: the component is captured. -/
def captureState : MultiInputSnapshotState γ :=
  let m := { m with pendingMarkers := m.pendingMarkers ++ [marker] }
  match R.capture restorable with
  | .ok state => { m with states := m.states ++ [⟨marker.snapshotId,marker.isResuming,∅,[.captured state]⟩] }
  | .error _ =>
    { m.call (.failedToCapture marker.snapshotId) with
      states := m.states ++ [⟨marker.snapshotId,marker.isResuming,∅,[]⟩] }

/-- With the marker of the last channel the snapshot is complete. -/
def markCaptured : Except String (MultiInputSnapshotState γ) := do
  let m := m.markChannel marker channel
  if ← m.allMarked R restorable marker then pure (m.complete replies marker) else pure m

/-- A second marker from one channel is dropped. -/
def markOnce (ret : Bool) (m : MultiInputSnapshotState γ) (restorable : ρ) : Except String (Bool × MultiInputSnapshotState γ) :=
  if (m.snapshotStateById marker).any (channel ∈ ·.markedChannels) then pure (true,m)
  else do
    let m ← m.markCaptured R replies channel marker restorable
    pure (ret,m)

/-- True if the marker is not passed on. -/
def processMarker : Except String (Bool × MultiInputSnapshotState γ) :=
  let ret := (m.snapshotStateById marker).isSome
  let m := if ret then m else m.captureState R marker restorable
  m.markOnce R replies channel marker ret restorable

/-- A page before the marker of its channel belongs to the snapshot. -/
def processInput (page : SerializedPage) (m : MultiInputSnapshotState γ) : MultiInputSnapshotState γ :=
  { m with states := m.states.map fun snapshot =>
      if channel ∈ snapshot.markedChannels then snapshot else { snapshot with states := snapshot.states ++ [.input page] } }

/-- True if the page is not passed on. A page without a channel is a marker added directly. -/
def processNewPage (channel : Option String)
    (page : SerializedPage) (m : MultiInputSnapshotState γ) (restorable : ρ) :
    Except String (Bool × MultiInputSnapshotState γ × ρ) :=
  match channel,page.toMarker with
  | none,none => .error "IllegalStateException"
  | none,some _ => pure (false,m,restorable)
  | some channel,some marker =>
    if marker.isResuming then m.resume R replies channel marker restorable
    else do
      let (ret,m) ← m.processMarker R replies channel marker restorable
      pure (ret,m,restorable)
  | some channel,none => pure (false,m.processInput channel page,restorable)

def pollPendingPages : Except String (List SerializedPage × MultiInputSnapshotState γ) := do
  let pages ← m.pendingPages.mapM fun
    | .input page => pure page
    | .captured _ => .error "ClassCastException"
  pure (pages,{ m with pendingPages := [] })

/-- The loop over the new pages: whenever there are pending pages they are returned first. -/
def processSerializedPages (R : MultiInputRestorable ρ γ) (replies : ManagerReplies γ) (origin : Option String) :
    List SerializedPage → MultiInputSnapshotState γ → ρ → Except String (List SerializedPage × MultiInputSnapshotState γ × ρ)
  | [],m,restorable => do
    let (pending,m) ← m.pollPendingPages
    pure (pending,m,restorable)
  | page :: pages,m,restorable => do
    let (pending,m) ← m.pollPendingPages
    let (swallowed,m,restorable) ← m.processNewPage R replies origin page restorable
    let (released,m,restorable) ← processSerializedPages R replies origin pages m restorable
    pure (pending ++ (if swallowed then [] else [page]) ++ released,m,restorable)

def pollPendingPage : Except String (Option SerializedPage × MultiInputSnapshotState γ) :=
  match m.pendingPages with
  | [] => pure (none,m)
  | .input page :: rest => pure (some page,{ m with pendingPages := rest })
  | .captured _ :: _ => .error "ClassCastException"

/-- A new page, which marker-only polling keeps for later unless it is a marker. -/
def takePage (markerOnly : Bool) (channel : Option String)
    (page : SerializedPage) (m : MultiInputSnapshotState γ) (restorable : ρ) :
    Except String (Option SerializedPage × MultiInputSnapshotState γ × ρ) := do
  let (swallowed,m,restorable) ← m.processNewPage R replies channel page restorable
  if swallowed then pure (none,m,restorable)
  else if markerOnly ∧ !page.isMarkerPage then pure (none,{ m with pendingPages := [.input page] },restorable)
  else pure (some page,m,restorable)

/-- The page to be handled next, if any, and whether the supplied page was taken. -/
def processPage (markerOnly : Bool)
    (supplied : Option (Option String × SerializedPage)) (m : MultiInputSnapshotState γ) (restorable : ρ) :
    Except String (Option SerializedPage × Bool × MultiInputSnapshotState γ × ρ) :=
  if markerOnly ∧ !m.pendingPages.isEmpty then pure (none,false,m,restorable)
  else do
    let (pending,m) ← m.pollPendingPage
    match pending,supplied with
    | some page,_ => pure (some page,false,m,restorable)
    | none,none => pure (none,false,m,restorable)
    | none,some (channel,page) => do
      let (released,m,restorable) ← m.takePage R replies markerOnly channel page restorable
      pure (released,true,m,restorable)

section release
variable {R : MultiInputRestorable ρ γ} {replies : ManagerReplies γ} {m m' : MultiInputSnapshotState γ}
  {restorable restorable' : ρ} {channel : String} {marker : MarkerPage} {ret : Bool}

theorem pendingPages_markCaptured (h : m.markCaptured R replies channel marker restorable = .ok m') :
    m'.pendingPages = m.pendingPages := by
  obtain ⟨all,-,h⟩ := bind_ok h
  cases all with
  | false | true =>
    cases h
    rfl

theorem pendingPages_captureState : (m.captureState R marker restorable).pendingPages = m.pendingPages := by
  unfold captureState
  split
  · rfl
  · rfl

theorem pendingPages_markOnce {seen : Bool} (h : m.markOnce R replies channel marker seen restorable = .ok (ret,m')) :
    m'.pendingPages = m.pendingPages := by
  rw [markOnce] at h
  split at h
  · cases h
    rfl
  · obtain ⟨m₁,h₁,h⟩ := bind_ok h
    cases h
    exact pendingPages_markCaptured h₁

theorem pendingPages_processMarker (h : m.processMarker R replies channel marker restorable = .ok (ret,m')) :
    m'.pendingPages = m.pendingPages := by
  refine (pendingPages_markOnce h).trans ?_
  split
  · rfl
  · exact pendingPages_captureState

theorem pendingPages_markResumed (h : m.markResumed R channel marker restorable = .ok m') :
    m'.pendingPages = m.pendingPages := by
  obtain ⟨all,-,h⟩ := bind_ok h
  cases all with
  | false =>
    cases h
    rfl
  | true =>
    simp only [if_true] at h
    split at h
    · cases h
    · cases h
      rfl

section
variable (hp : m.pendingPages = [])
include hp

theorem pendingPages_startResume :
    (m.startResume R replies marker restorable).1.pendingPages = (replies.loadState marker.snapshotId).pendingPages := by
  unfold startResume restoreState LoadReply.pendingPages
  cases replies.loadState marker.snapshotId with
  | missing | noState | failed => exact hp
  | loaded states =>
    match states with
    | [] | .input _ :: rest => rfl
    | .captured state :: rest =>
      simp only
      split
      · rfl
      · rfl

theorem pendingPages_resume (h : m.resume R replies channel marker restorable = .ok (ret,m',restorable')) :
    m'.pendingPages = [] ∨ m'.pendingPages = (replies.loadState marker.snapshotId).pendingPages := by
  rw [resume] at h
  cases hs : (m.snapshotStateById marker).isSome with
  | true =>
    rw [hs] at h
    obtain ⟨m₁,h₁,h⟩ := bind_ok h
    cases h
    exact .inl ((pendingPages_markResumed h₁).trans hp)
  | false =>
    rw [hs] at h
    obtain ⟨m₁,h₁,h⟩ := bind_ok h
    cases h
    exact .inr ((pendingPages_markResumed h₁).trans (pendingPages_startResume hp))

/-- New pages leave pending pages only if one is a resume marker. -/
theorem pendingPages_processNewPage {channel : Option String} {page : SerializedPage}
    (h : m.processNewPage R replies channel page restorable = .ok (ret,m',restorable')) :
    m'.pendingPages = [] ∨ ∃ marker, page.toMarker = some marker ∧ marker.isResuming = true ∧
      m'.pendingPages = (replies.loadState marker.snapshotId).pendingPages := by
  unfold processNewPage at h
  split at h
  · cases h
  · cases h
    exact .inl hp
  · rename_i channel marker hm
    split at h
    · rename_i hr
      exact (pendingPages_resume hp h).imp_right fun hpn => ⟨marker,hm,hr,hpn⟩
    · obtain ⟨⟨ret',m₁⟩,h₁,h⟩ := bind_ok h
      cases h
      exact .inl ((pendingPages_processMarker h₁).trans hp)
  · cases h
    exact .inl hp

theorem pollPendingPages_nil : m.pollPendingPages = .ok ([],m) := by
  obtain ⟨states,pendingPages,pendingMarkers,calls⟩ := m
  simp only at hp
  subst hp
  rfl

end

/-- Only new pages are released, unless a resume marker restores pending pages. -/
theorem released_sublist {origin : Option String} {pages released : List SerializedPage} (hp : m.pendingPages = [])
    (ha : ∀ page ∈ pages, ∀ marker ∈ page.toMarker, marker.isResuming = true →
      (replies.loadState marker.snapshotId).pendingPages = [])
    (h : processSerializedPages R replies origin pages m restorable = .ok (released,m',restorable')) :
    released.Sublist pages ∧ m'.pendingPages = [] := by
  induction pages generalizing m restorable released with
  | nil =>
    rw [processSerializedPages,pollPendingPages_nil hp] at h
    cases h
    exact ⟨.refl _,hp⟩
  | cons page pages ih =>
    rw [processSerializedPages,pollPendingPages_nil hp] at h
    obtain ⟨_,h₁,h⟩ := bind_ok h
    cases h₁
    obtain ⟨⟨swallowed,m₂,r₂⟩,h₂,h⟩ := bind_ok h
    obtain ⟨⟨rest,m₃,r₃⟩,h₃,h⟩ := bind_ok h
    cases h
    have hp₂ : m₂.pendingPages = [] := by
      obtain hp₂ | ⟨marker,hm,hr,hpn⟩ := pendingPages_processNewPage hp h₂
      · exact hp₂
      · exact hpn.trans (ha page (List.mem_cons_self ..) marker hm hr)
    obtain ⟨hs,hp₃⟩ := ih hp₂ (fun x hx => ha x (List.mem_cons_of_mem _ hx)) h₃
    cases swallowed with
    | true => exact ⟨hs.cons page,hp₃⟩
    | false => exact ⟨hs.cons_cons page,hp₃⟩

end release

end MultiInputSnapshotState
end HetuCore.Snapshot
