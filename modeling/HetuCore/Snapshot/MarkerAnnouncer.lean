import HetuCore.Foundation.LinkedMap

namespace HetuCore.Snapshot
open Foundation

/-- When markers are generated: never, every so many milliseconds, or every so many splits. -/
inductive SnapshotInterval where
  | captureDisabled
  | time (timeInterval : Int)
  | splitCount (splitCountInterval : Int)
deriving DecidableEq, Repr

structure MarkerAnnouncer where
  interval : SnapshotInterval
  currentSnapshotId : Int
  querySplitCount : Int
  queryTimeStamp : Int
  allSplitSources : LinkedMap Nat Nat
  activeSplitSources : List Nat
  markerSplitSent : List Nat
  pendingSnapshot : Nat → List Int

/-- The id that a source is to send, if any, and the id that the snapshot manager is told. -/
structure Announcement where
  snapshotId : Option Int
  initiated : Option Int
  announcer : MarkerAnnouncer

namespace MarkerAnnouncer

def new (interval : SnapshotInterval) (now : Int) : MarkerAnnouncer :=
  ⟨interval,if interval = .captureDisabled then 0 else 1,0,now,.empty,[],[],fun _ => []⟩

variable (a : MarkerAnnouncer) (now : Int) (source : Nat)

def createMarkerSplitSource (nodeId : Nat) : MarkerAnnouncer :=
  let a := { a with
    allSplitSources := a.allSplitSources.put nodeId source
    activeSplitSources := a.activeSplitSources ++ [source]
    pendingSnapshot := Function.update a.pendingSnapshot source [] }
  match a.interval with
  | .time _ => { a with queryTimeStamp := now }
  | _ => a

def setupNewSnapshotId : MarkerAnnouncer :=
  if a.interval = .captureDisabled then a
  else { a with
    queryTimeStamp := now, querySplitCount := 0, currentSnapshotId := a.currentSnapshotId + 1, markerSplitSent := [] }

def checkMarkerSplitCompleteness : MarkerAnnouncer :=
  if a.activeSplitSources.length ≤ a.markerSplitSent.length ∧ ∀ source ∈ a.activeSplitSources, source ∈ a.markerSplitSent then
    a.setupNewSnapshotId now
  else a

def deactivateSplitSource : MarkerAnnouncer :=
  if source ∈ a.activeSplitSources then
    let a := { a with activeSplitSources := a.activeSplitSources.erase source }
    if source ∈ a.markerSplitSent then a else a.checkMarkerSplitCompleteness now
  else a

def generateMarker : Announcement :=
  let snapshotId := a.currentSnapshotId
  let a := { a with markerSplitSent := a.markerSplitSent ++ [source] }
  ⟨some snapshotId,some snapshotId,a.checkMarkerSplitCompleteness now⟩

def intervalReached : Bool :=
  match a.interval with
  | .captureDisabled => false
  | .time timeInterval => timeInterval ≤ now - a.queryTimeStamp
  | .splitCount splitCountInterval => splitCountInterval ≤ a.querySplitCount

def shouldGenerateMarker : Announcement :=
  if a.interval = .captureDisabled then ⟨none,none,a⟩
  else match a.pendingSnapshot source with
    | pendingId :: rest =>
      ⟨some pendingId,none,{ a with pendingSnapshot := Function.update a.pendingSnapshot source rest }⟩
    | [] =>
      if a.markerSplitSent ≠ [] then
        if source ∈ a.markerSplitSent then ⟨none,none,a⟩ else a.generateMarker now source
      else if a.intervalReached now then a.generateMarker now source
      else ⟨none,none,a⟩

def recordUncompletedSplitSource : MarkerAnnouncer :=
  (a.activeSplitSources.filter fun source => source ∉ a.markerSplitSent).foldl (fun a source =>
    { a with
      pendingSnapshot := Function.update a.pendingSnapshot source (a.pendingSnapshot source ++ [a.currentSnapshotId]) }) a

def forceGenerateMarker : Announcement :=
  let should := a.shouldGenerateMarker now source
  if should.snapshotId.isSome then should
  else
    let a := should.announcer
    let a := if a.markerSplitSent ≠ [] then a.recordUncompletedSplitSource.setupNewSnapshotId now else a
    a.generateMarker now source

def incrementSplitCount (count : Nat) : MarkerAnnouncer :=
  match a.interval with
  | .splitCount _ => { a with querySplitCount := a.querySplitCount + count }
  | _ => a

/-- Without the forwarding of the request to the split sources. -/
def resumeSnapshot : MarkerAnnouncer :=
  let a := { a with activeSplitSources := a.allSplitSources.entries.map Prod.snd }
  { a.setupNewSnapshotId now with pendingSnapshot := fun _ => [] }

end MarkerAnnouncer
end HetuCore.Snapshot
