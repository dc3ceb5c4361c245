import HetuCore.Buffer.SerializedPage
import Mathlib.Data.Finset.Basic

namespace HetuCore.Buffer

/-- A queued page and its target clients; no target set means any one client. -/
structure MasterEntry where
  page : SerializedPageReference
  targetClients : Option (Finset Nat)
  deriving DecidableEq

structure MasterBuffer where
  entries : List MasterEntry
  noMorePages : Bool
  deriving DecidableEq

namespace MasterBuffer

def new : MasterBuffer := ⟨[],false⟩

variable (m : MasterBuffer)

def addPages (pages : List SerializedPageReference) (clients : Option (Finset Nat)) : MasterBuffer :=
  { m with entries := m.entries ++ pages.map fun page => ⟨page,clients⟩ }

/-- The target set of a marker that is still queued. -/
def addTarget (marker : SerializedPageReference) (client : Nat) : List MasterEntry → Except String (List MasterEntry)
  | [] => pure []
  | e :: entries =>
    if e.page = marker then
      match e.targetClients with
      | none => .error "NullPointerException"
      | some clients => pure (⟨e.page,some (insert client clients)⟩ :: entries)
    else do
      let entries ← addTarget marker client entries
      pure (e :: entries)

variable (client : Nat)

/-- A marker that is still queued gets one more target, any other goes to the front. -/
def insertMarker (entries : List MasterEntry) (marker : SerializedPageReference) : Except String (List MasterEntry) :=
  if entries.any (·.page = marker) then addTarget marker client entries
  else pure (⟨marker,some {client}⟩ :: entries)

/-- The markers are processed from the last to the first. -/
def insertMarkers (markers : List SerializedPageReference) (client : Nat) : Except String MasterBuffer := do
  let entries ← markers.reverse.foldlM (insertMarker client) m.entries
  pure { m with entries := entries }

def isEmpty : Bool := m.entries = []

def mayHaveMorePages : Bool := !m.noMorePages || !m.isEmpty

/-- The loop without snapshots: pages are polled until the limit is reached. -/
def pollPages (maxBytes : Nat) (bytesRemoved : Nat) (pages : List SerializedPageReference) :
    List MasterEntry → List SerializedPageReference × List MasterEntry
  | [] => (pages,[])
  | e :: entries =>
    let bytesRemoved := bytesRemoved + e.page.retainedSizeInBytes
    if pages ≠ [] ∧ bytesRemoved > maxBytes then (pages,e :: entries)
    else pollPages maxBytes bytesRemoved (pages ++ [e.page]) entries

/-- What stays of an entry once the client has taken it. -/
def remaining (e : MasterEntry) : Option MasterEntry :=
  e.targetClients.bind fun clients =>
    if clients.erase client = ∅ then none else some ⟨e.page,some (clients.erase client)⟩

/-- The loop with snapshots: pages for other clients are passed over, and an entry goes
when its last target has taken it. -/
def scanPages (client maxBytes : Nat) (bytesRemoved : Nat) (pages : List SerializedPageReference) :
    List MasterEntry → List SerializedPageReference × List MasterEntry
  | [] => (pages,[])
  | e :: entries =>
    if e.targetClients.any (client ∉ ·) then
      let (pages,rest) := scanPages client maxBytes bytesRemoved pages entries
      (pages,e :: rest)
    else
      let bytesRemoved := bytesRemoved + e.page.retainedSizeInBytes
      if pages ≠ [] ∧ bytesRemoved > maxBytes then (pages,e :: entries)
      else
        let (pages,rest) := scanPages client maxBytes bytesRemoved (pages ++ [e.page]) entries
        (pages,(remaining client e).toList ++ rest)

def getPages (snapshots : Bool) (client maxBytes : Nat) : List SerializedPageReference × MasterBuffer :=
  let (pages,entries) :=
    if snapshots then scanPages client maxBytes 0 [] m.entries else pollPages maxBytes 0 [] m.entries
  (pages,{ m with entries := entries })

/-- What scanning does: it passes entries by, takes pages, and stops somewhere. -/
inductive Scanned (client : Nat) : List MasterEntry → List SerializedPageReference → List MasterEntry → Prop
  | stop (entries : List MasterEntry) : Scanned client entries [] entries
  | skip {e : MasterEntry} {entries rest : List MasterEntry} {taken : List SerializedPageReference}
      (hskip : e.targetClients.any (client ∉ ·) = true) (h : Scanned client entries taken rest) :
      Scanned client (e :: entries) taken (e :: rest)
  | take {e : MasterEntry} {entries rest : List MasterEntry} {taken : List SerializedPageReference}
      (htake : ¬ e.targetClients.any (client ∉ ·) = true) (h : Scanned client entries taken rest) :
      Scanned client (e :: entries) (e.page :: taken) ((remaining client e).toList ++ rest)

theorem scanPages_scanned (maxBytes bytes : Nat) (pages : List SerializedPageReference)
    (entries : List MasterEntry) : ∃ taken, (scanPages client maxBytes bytes pages entries).1 = pages ++ taken ∧
      Scanned client entries taken (scanPages client maxBytes bytes pages entries).2 ∧
      (pages = [] → taken = [] → ∀ e ∈ entries, e.targetClients.any (client ∉ ·) = true) := by
  induction entries generalizing bytes pages with
  | nil => exact ⟨[],(List.append_nil _).symm,.stop [],nofun⟩
  | cons e entries ih =>
    rw [scanPages]
    by_cases hsk : e.targetClients.any (client ∉ ·) = true
    · rw [if_pos hsk]
      obtain ⟨taken,hpg,hs,hn⟩ := ih bytes pages
      refine ⟨taken,hpg,.skip hsk hs,fun hp ht x hx => ?_⟩
      obtain rfl | hx := List.mem_cons.mp hx
      · exact hsk
      · exact hn hp ht x hx
    · rw [if_neg hsk]
      by_cases hb : pages ≠ [] ∧ bytes + e.page.retainedSizeInBytes > maxBytes
      · simp only [if_pos hb]
        exact ⟨[],(List.append_nil _).symm,.stop _,fun hp => absurd hp hb.1⟩
      · simp only [if_neg hb]
        obtain ⟨taken,hpg,hs,-⟩ := ih (bytes + e.page.retainedSizeInBytes) (pages ++ [e.page])
        refine ⟨e.page :: taken,?_,.take hsk hs,nofun⟩
        rw [hpg,List.append_assoc]
        rfl

end MasterBuffer
end HetuCore.Buffer
