import Mathlib.Algebra.Group.Int.Defs
import HetuCore.Foundation.LinkedMap
import HetuCore.Foundation.Outcome

/-! The coordinator's bookkeeping of a query's snapshots: capture and restore results of
the tasks, the snapshot to resume from, and the list of initiated snapshots. -/
namespace HetuCore.Snapshot
open Foundation

inductive SnapshotResult where
  | successful
  | failed
  | inProgress
  | inProgressFailed
  | failedFatal
  | inProgressFailedFatal
  | na
deriving DecidableEq, Repr

def SnapshotResult.isDone : SnapshotResult → Bool
  | .successful | .failed | .failedFatal | .na => true
  | .inProgress | .inProgressFailed | .inProgressFailedFatal => false

inductive ComponentState where
  | successful
  | failed
  | failedFatal
deriving DecidableEq, Repr

def ComponentState.ordinal : ComponentState → Nat
  | .successful => 0
  | .failed => 1
  | .failedFatal => 2

structure SnapshotComponentCounter (τ : Type) where
  componentMap : LinkedMap τ ComponentState
  snapshotResult : SnapshotResult

namespace SnapshotComponentCounter
variable {τ : Type} [DecidableEq τ]

def new : SnapshotComponentCounter τ := ⟨.empty,.inProgress⟩

def doneResult : SnapshotResult → SnapshotResult
  | .inProgress => .successful
  | .inProgressFailed => .failed
  | .inProgressFailedFatal => .failedFatal
  | result => result

def withState (snapshotResult : SnapshotResult) (state : ComponentState) : SnapshotResult :=
  if state = .failedFatal then .inProgressFailedFatal
  else if state = .failed ∧ snapshotResult ≠ .failedFatal ∧ snapshotResult ≠ .inProgressFailedFatal then
    .inProgressFailed
  else snapshotResult

def updateComponent (counter : SnapshotComponentCounter τ) (checkComplete : List τ → Bool)
    (checkFinishedTask : Option (τ → Bool)) (stateId : τ) (state : ComponentState) :
    Bool × SnapshotComponentCounter τ :=
  if (counter.componentMap.get stateId).any fun oldState => state.ordinal ≤ oldState.ordinal then (false,counter)
  else
    let componentMap := counter.componentMap.put stateId state
    let snapshotResult := withState counter.snapshotResult state
    if checkComplete componentMap.keys then (true,⟨componentMap,doneResult snapshotResult⟩)
    else (!checkFinishedTask.any fun finished => finished stateId,⟨componentMap,snapshotResult⟩)

end SnapshotComponentCounter

structure RestoreResult where
  snapshotId : Int
  snapshotResult : SnapshotResult
deriving DecidableEq, Repr

namespace RestoreResult

def new : RestoreResult := ⟨0,.inProgress⟩

/-- Returns whether the id or the result changed. -/
def setSnapshotResult (restoreResult : RestoreResult) (snapshotId : Int) (snapshotResult : SnapshotResult) :
    Bool × RestoreResult :=
  (decide (restoreResult.snapshotId ≠ snapshotId ∨ restoreResult.snapshotResult ≠ snapshotResult),
    ⟨snapshotId,snapshotResult⟩)

end RestoreResult

structure QuerySnapshotManager (τ : Type) where
  unfinishedTasks : List τ
  captureComponentCounters : LinkedMap Int (SnapshotComponentCounter τ)
  captureResults : LinkedMap Int SnapshotResult
  restoreComponentCounters : LinkedMap Int (SnapshotComponentCounter τ)
  restoreResult : RestoreResult
  lastTriedId : Option Int
  initiatedSnapshotId : List Int
  restoreInitiated : Bool

namespace QuerySnapshotManager
variable {τ : Type} [DecidableEq τ]

def new : QuerySnapshotManager τ := ⟨[],.empty,.empty,.empty,.new,none,[0],false⟩

variable (m : QuerySnapshotManager τ)

def addNewTask (taskId : τ) : QuerySnapshotManager τ :=
  { m with unfinishedTasks := m.unfinishedTasks.insert taskId }

def updateSnapshotStatus (snapshotId : Int) (newStatus : SnapshotResult) : QuerySnapshotManager τ :=
  { m with captureResults := m.captureResults.put snapshotId newStatus }

def snapshotInitiated (snapshotId : Int) : QuerySnapshotManager τ :=
  let m := m.updateSnapshotStatus snapshotId .inProgress
  { m with initiatedSnapshotId := m.initiatedSnapshotId ++ [snapshotId] }

def invalidateAllSnapshots : QuerySnapshotManager τ :=
  m.captureResults.keys.foldl (fun m snapshotId => m.updateSnapshotStatus snapshotId .na) m

def longMax : Int := 2 ^ 63 - 1

/-- The loop over the capture results, from the newest to the oldest. -/
def backtrack (beforeThis : Int) : List (Int × SnapshotResult) → QuerySnapshotManager τ →
    Option Int × QuerySnapshotManager τ
  | [],m => (none,m)
  | (snapshotId,snapshotResult) :: older,m =>
    if snapshotId = beforeThis then backtrack beforeThis older (m.updateSnapshotStatus snapshotId .na)
    else if snapshotId < beforeThis then
      if snapshotResult = .successful then (some snapshotId,m)
      else backtrack beforeThis older (m.updateSnapshotStatus snapshotId .na)
    else backtrack beforeThis older m

/-- `saved` is whether the results could be stored. -/
def findResumeSnapshotId (saved : Bool) (beforeThis : Option Int) : Option Int × QuerySnapshotManager τ :=
  if m.captureResults.entries.isEmpty then (none,m)
  else
    let (result,m) := m.backtrack (beforeThis.getD longMax) m.captureResults.entries.reverse
    if saved then (result,m) else (none,m.invalidateAllSnapshots)

def indexOf (ids : List Int) (snapshotId : Int) : Int :=
  if snapshotId ∈ ids then ids.idxOf snapshotId else -1

def getResumeSnapshotId (saved : Bool) : Option Int × QuerySnapshotManager τ :=
  let (lastTriedId,m) := m.findResumeSnapshotId saved m.lastTriedId
  let m := { m with
    lastTriedId := lastTriedId, unfinishedTasks := [], captureComponentCounters := .empty,
    restoreComponentCounters := .empty, restoreInitiated := lastTriedId.isSome }
  match lastTriedId with
  | none => (none,{ m with initiatedSnapshotId := [0] })
  | some snapshotId =>
    (some snapshotId,
      { m with initiatedSnapshotId := m.initiatedSnapshotId.take (indexOf m.initiatedSnapshotId snapshotId + 1).toNat })

def computeSnapshotIndex : Option Int → Int
  | none => 0
  | some snapshotId => indexOf m.initiatedSnapshotId snapshotId

def queryRestoreComplete (recoveryInProgress : Bool) : QuerySnapshotManager τ :=
  if !recoveryInProgress then m
  else if m.restoreResult.snapshotResult = .successful then
    let m := { m with restoreInitiated := false }
    match m.lastTriedId with
    | some snapshotId => { m.updateSnapshotStatus snapshotId .failed with lastTriedId := none }
    | none => m
  else m

def setRestoreStartTime : QuerySnapshotManager τ :=
  if m.restoreInitiated then m else { m with restoreResult := .new }

/-- A snapshot is complete when every unfinished task has reported. -/
def complete (ids : List τ) : Bool := m.unfinishedTasks.all fun task => task ∈ ids

def updateComponentCapture (snapshotId : Int) (taskId : τ)
    (componentState : ComponentState) : QuerySnapshotManager τ :=
  let counter := (m.captureComponentCounters.get snapshotId).getD .new
  let (changed,counter) := counter.updateComponent m.complete (some fun task => task ∉ m.unfinishedTasks) taskId
    componentState
  let m := { m with captureComponentCounters := m.captureComponentCounters.put snapshotId counter }
  if changed ∧ (m.captureResults.get snapshotId).any (· ≠ .na) then
    m.updateSnapshotStatus snapshotId counter.snapshotResult
  else m

def updateTaskCapture (taskId : τ) (snapshotId : Int) : SnapshotResult → QuerySnapshotManager τ
  | .failed => m.updateComponentCapture snapshotId taskId .failed
  | .successful => m.updateComponentCapture snapshotId taskId .successful
  | _ => m

/-- The ids of the counters are never negative, so the loop reports each of them for the tasks. -/
def updateCapturedComponents (capturedTasks : List τ) : QuerySnapshotManager τ :=
  if m.unfinishedTasks.any fun task => task ∈ capturedTasks then
    let m := { m with unfinishedTasks := m.unfinishedTasks.filter fun task => task ∉ capturedTasks }
    m.captureComponentCounters.keys.foldl (fun m snapshotId =>
      capturedTasks.foldl (fun m taskId => m.updateTaskCapture taskId snapshotId .successful) m) m
  else m

def updateQueryCapture (taskId : τ) (captureResult : List (Int × SnapshotResult)) :
    Except String (QuerySnapshotManager τ) :=
  captureResult.foldlM (fun m entry =>
    if entry.1 < 0 then
      if entry.2 = .successful then pure (m.updateCapturedComponents [taskId]) else throw "IllegalArgumentException"
    else pure (m.updateTaskCapture taskId entry.1 entry.2)) m

def updateComponentRestore (recoveryInProgress : Bool) (snapshotId : Int) (taskId : τ)
    (componentState : ComponentState) : QuerySnapshotManager τ :=
  let counter := (m.restoreComponentCounters.get snapshotId).getD .new
  let (changed,counter) := counter.updateComponent m.complete none taskId componentState
  let m := { m with restoreComponentCounters := m.restoreComponentCounters.put snapshotId counter }
  if changed then
    let snapshotResult := counter.snapshotResult
    let (changed,restoreResult) := m.restoreResult.setSnapshotResult snapshotId snapshotResult
    let m := { m with restoreResult := restoreResult }
    if changed then
      if snapshotResult.isDone then m.queryRestoreComplete recoveryInProgress
      else if snapshotResult = .inProgressFailed ∨ snapshotResult = .inProgressFailedFatal then
        m.queryRestoreComplete recoveryInProgress
      else m
    else m
  else m

def updateTaskRestore (recoveryInProgress : Bool) (taskId : τ) (snapshotId : Int) :
    SnapshotResult → QuerySnapshotManager τ
  | .failed => m.updateComponentRestore recoveryInProgress snapshotId taskId .failed
  | .failedFatal => m.updateComponentRestore recoveryInProgress snapshotId taskId .failedFatal
  | .successful => m.updateComponentRestore recoveryInProgress snapshotId taskId .successful
  | _ => m

/-- `recoveryInProgress` answers for the restore of each snapshot id. -/
def updateQueryRestore (recoveryInProgress : Int → Bool) (taskId : τ) :
    Option RestoreResult → Except String (QuerySnapshotManager τ)
  | none => pure m
  | some ⟨snapshotId,result⟩ =>
    if snapshotId < 0 then
      if result = .successful then
        pure (m.restoreComponentCounters.keys.foldl (fun m sid =>
          m.updateComponentRestore (recoveryInProgress sid) sid taskId .successful) m)
      else throw "IllegalArgumentException"
    else pure (m.updateTaskRestore (recoveryInProgress snapshotId) taskId snapshotId result)

end QuerySnapshotManager

/-- What the tasks and the recovery of a query report to the manager. -/
inductive TaskReport (τ : Type) where
  | newTask (taskId : τ)
  | capture (taskId : τ) (captureResult : List (Int × SnapshotResult))
  | restore (recoveryInProgress : Int → Bool) (taskId : τ) (restoreResult : Option RestoreResult)
  | finished (finishedTasks : List τ)
  | invalidateAll
  | restoreStart

def QuerySnapshotManager.report {τ : Type} [DecidableEq τ] (m : QuerySnapshotManager τ) :
    TaskReport τ → Except String (QuerySnapshotManager τ)
  | .newTask taskId => pure (m.addNewTask taskId)
  | .capture taskId captureResult => m.updateQueryCapture taskId captureResult
  | .restore recoveryInProgress taskId restoreResult => m.updateQueryRestore recoveryInProgress taskId restoreResult
  | .finished finishedTasks => pure (m.updateCapturedComponents finishedTasks)
  | .invalidateAll => pure m.invalidateAllSnapshots
  | .restoreStart => pure m.setRestoreStartTime

end HetuCore.Snapshot
