import Mathlib.Algebra.BigOperators.Group.List.Basic
import Mathlib.Algebra.Order.Ring.Int

namespace HetuCore.Buffer

/-- A snapshot marker, or a resume marker, of a snapshot. -/
structure MarkerPage where
  snapshotId : Int
  isResuming : Bool
  deriving DecidableEq, Repr

inductive PageContent where
  | data (slice : List UInt8)
  | marker (marker : MarkerPage)
  deriving DecidableEq, Repr

structure SerializedPage where
  content : PageContent
  positionCount : Nat
  retainedSizeInBytes : Nat
  deriving DecidableEq, Repr

variable (page : SerializedPage)

def SerializedPage.toMarker : Option MarkerPage :=
  match page.content with
  | .data _ => none
  | .marker marker => some marker

def SerializedPage.isMarkerPage : Bool := page.toMarker.isSome

/-- A reference object; its identity stands for the counter it carries. -/
structure SerializedPageReference where
  id : Nat
  serializedPage : SerializedPage
  deriving DecidableEq, Repr

namespace SerializedPageReference

def retainedSizeInBytes (r : SerializedPageReference) : Nat := r.serializedPage.retainedSizeInBytes
def positionCount (r : SerializedPageReference) : Nat := r.serializedPage.positionCount

end SerializedPageReference

def retainedSize (pages : List SerializedPageReference) : Nat :=
  (pages.map SerializedPageReference.retainedSizeInBytes).sum

@[simp] theorem retainedSize_nil : retainedSize [] = 0 := rfl

@[simp] theorem retainedSize_append (pages more : List SerializedPageReference) :
    retainedSize (pages ++ more) = retainedSize pages + retainedSize more := by
  simp [retainedSize]

end HetuCore.Buffer
