import HetuCore.Buffer.SerializedPage
import HetuCore.Foundation.Machine
import Mathlib.Data.List.Count

namespace HetuCore.Buffer
open Foundation List

/-- All reference objects created so far, by number, and the memory manager. -/
structure PageReferences where
  created : List SerializedPageReference
  referenceCount : Nat → Int
  bufferedBytes : Int
  closed : Bool

namespace PageReferences

def new : PageReferences := ⟨[],fun _ => 0,0,false⟩

variable (refs : PageReferences)

/-- Updates after the memory manager is closed are ignored. -/
def updateMemoryUsage (bytesAdded : Int) : PageReferences :=
  if refs.closed then refs else { refs with bufferedBytes := refs.bufferedBytes + bytesAdded }

def close : PageReferences :=
  { refs.updateMemoryUsage (-refs.bufferedBytes) with closed := true }

def create (page : SerializedPage) : SerializedPageReference × PageReferences :=
  let r := ⟨refs.created.length,page⟩
  (r,{ refs with created := refs.created ++ [r], referenceCount := Function.update refs.referenceCount r.id 1 })

def createAll (refs : PageReferences) : List SerializedPage → List SerializedPageReference × PageReferences
  | [] => ([],refs)
  | page :: pages =>
    let (r,refs) := refs.create page
    let (rs,refs) := refs.createAll pages
    (r :: rs,refs)

variable (r : SerializedPageReference)

def addReference : Except String PageReferences :=
  let oldReferences := refs.referenceCount r.id
  if ¬ oldReferences > 0 then .error "Page has already been dereferenced"
  else pure { refs with referenceCount := Function.update refs.referenceCount r.id (oldReferences + 1) }

/-- The memory of the page is given back with the last reference. -/
def dereferencePage : Except String PageReferences :=
  let remainingReferences := refs.referenceCount r.id - 1
  if ¬ remainingReferences ≥ 0 then .error "Page reference count is negative"
  else
    let refs := { refs with referenceCount := Function.update refs.referenceCount r.id remainingReferences }
    pure (if remainingReferences = 0 then refs.updateMemoryUsage (-r.retainedSizeInBytes) else refs)

variable (rs : List SerializedPageReference)

def addReferences : Except String PageReferences :=
  rs.foldlM addReference refs

def dereferencePages : Except String PageReferences :=
  rs.foldlM dereferencePage refs

theorem updateMemoryUsage_created (bytesAdded : Int) :
    (refs.updateMemoryUsage bytesAdded).created = refs.created := by
  unfold updateMemoryUsage
  split
  · rfl
  · rfl

variable {refs refs' : PageReferences} {rs : List SerializedPageReference}

theorem addReferences_created (h : refs.addReferences rs = .ok refs') : refs'.created = refs.created := by
  induction rs generalizing refs with
  | nil =>
    cases h
    rfl
  | cons r rs ih =>
    obtain ⟨refs₁,h₁,h⟩ := bind_ok h
    rw [ih h]
    rw [addReference] at h₁
    split at h₁
    · cases h₁
    · cases h₁
      rfl

theorem dereferencePages_created (h : refs.dereferencePages rs = .ok refs') : refs'.created = refs.created := by
  induction rs generalizing refs with
  | nil =>
    cases h
    rfl
  | cons r rs ih =>
    obtain ⟨refs₁,h₁,h⟩ := bind_ok h
    rw [ih h]
    rw [dereferencePage] at h₁
    split at h₁
    · cases h₁
    · cases h₁
      split
      · exact updateMemoryUsage_created _ _
      · rfl

theorem createAll_spec (refs : PageReferences) (pages : List SerializedPage) :
    (refs.createAll pages).2.created = refs.created ++ (refs.createAll pages).1 ∧
      (refs.createAll pages).1.map SerializedPageReference.serializedPage = pages ∧
      (refs.createAll pages).1.map SerializedPageReference.id = List.range' refs.created.length pages.length := by
  induction pages generalizing refs with
  | nil => exact ⟨(append_nil _).symm,rfl,rfl⟩
  | cons page pages ih =>
    obtain ⟨hc,hp,hi⟩ := ih (refs.create page).2
    refine ⟨?_,?_,?_⟩
    · rw [createAll]
      simp only [hc]
      simp [create]
    · rw [createAll,map_cons,hp]
      rfl
    · rw [createAll,map_cons,hi,length_cons,range'_succ]
      simp [create]

end PageReferences
end HetuCore.Buffer
