import Mathlib.Logic.Function.Basic

namespace HetuCore.Array

def segmentSize : Nat := 1024
def initialSegments : Nat := 1024

def segment (index : Nat) : Nat := index / segmentSize
def offset (index : Nat) : Nat := index % segmentSize

/-- The allocated segments and the length of the base array, whose other slots are null. -/
structure BigArrayState (α : Type) where
  array : List (List α)
  baseLength : Nat
  sized : ∀ s ∈ array, s.length = segmentSize

/-- An array whose new segments are filled with the initial value. -/
structure BigArray {α : Type} (initialValue : α) extends BigArrayState α

namespace BigArray
variable {α : Type} {initialValue : α}

variable (b : BigArray initialValue)

def capacity : Nat := b.array.length * segmentSize

/-- A new array has one segment allocated. -/
def new : BigArray initialValue where
  array := [List.replicate segmentSize initialValue]
  baseLength := initialSegments
  sized := by simp

/-- An access outside the allocated segments. -/
def missing (index : Nat) : String :=
  if segment index < b.baseLength then "NullPointerException" else "ArrayIndexOutOfBoundsException"

def get (index : Nat) : Except String α :=
  match (b.array[segment index]?).bind (fun s => s[offset index]?) with
  | some value => .ok value
  | none => .error (b.missing index)

private theorem sized_modify (b : BigArray initialValue) (index : Nat) (value : α) :
    ∀ s ∈ b.array.modify (segment index) (fun s => s.set (offset index) value), s.length = segmentSize := by
  intro s hs
  obtain ⟨i,hi,rfl⟩ := List.mem_iff_getElem.mp hs
  rw [List.getElem_modify]
  split
  · rw [List.length_set]
    exact b.sized _ (List.getElem_mem _)
  · exact b.sized _ (List.getElem_mem _)

def set (index : Nat) (value : α) : Except String (BigArray initialValue) :=
  if segment index < b.array.length then
    .ok { b with
      array := b.array.modify (segment index) (fun s => s.set (offset index) value)
      sized := sized_modify b index value }
  else .error (b.missing index)

private theorem sized_grow (b : BigArray initialValue) (n : Nat) :
    ∀ s ∈ b.array ++ List.replicate n (List.replicate segmentSize initialValue), s.length = segmentSize := by
  intro s hs
  obtain hs | hs := List.mem_append.mp hs
  · exact b.sized s hs
  · rw [(List.mem_replicate.mp hs).2,List.length_replicate]

/-- Segments are added until the capacity exceeds the length. -/
def ensureCapacity (length : Nat) : BigArray initialValue :=
  if b.capacity > length then b
  else
    let requiredSegments := segment length + 1
    { b with
      array := b.array ++ List.replicate (requiredSegments - b.array.length) (List.replicate segmentSize initialValue)
      baseLength := max b.baseLength requiredSegments
      sized := sized_grow b _ }

def capture : BigArrayState α := b.toBigArrayState

/-- The captured segments replace the own ones. -/
def restore (_ : BigArray initialValue) (state : BigArrayState α) : BigArray initialValue := ⟨state⟩

/-- The entry at an index, the fill value beyond the capacity. -/
def content (index : Nat) : α :=
  ((b.array[segment index]?).bind (fun s => s[offset index]?)).getD initialValue

private theorem offset_lt (index : Nat) : offset index < segmentSize := Nat.mod_lt _ (by decide)

private theorem segment_lt_iff (b : BigArray initialValue) (index : Nat) :
    segment index < b.array.length ↔ index < b.capacity := by
  rw [segment,capacity,Nat.div_lt_iff_lt_mul (by decide)]

variable {b : BigArray initialValue} {index : Nat}

private theorem bind_eq_some (h : index < b.capacity) :
    (b.array[segment index]?).bind (fun s => s[offset index]?) = some (b.content index) := by
  have hs := (segment_lt_iff b index).mpr h
  have hl : offset index < (b.array.get ⟨segment index,hs⟩).length := by
    rw [b.sized _ (List.get_mem _ _)]
    exact offset_lt index
  rw [content,List.getElem?_eq_getElem hs,Option.bind_some]
  rw [List.get_eq_getElem] at hl
  rw [List.getElem?_eq_getElem hl]
  rfl

theorem get_eq (h : index < b.capacity) : b.get index = .ok (b.content index) := by
  rw [get,bind_eq_some h]

private theorem eq_of_segment_offset {i j : Nat} (hs : segment i = segment j) (ho : offset i = offset j) : i = j := by
  rw [← Nat.div_add_mod i segmentSize,← Nat.div_add_mod j segmentSize]
  exact congrArg₂ _ (congrArg _ hs) ho

/-- Writing below the capacity changes the entry at the index and nothing else. -/
theorem set_spec (h : index < b.capacity) (value : α) :
    ∃ c, b.set index value = .ok c ∧ c.content = Function.update b.content index value ∧ c.capacity = b.capacity := by
  have hs := (segment_lt_iff b index).mpr h
  refine ⟨_,if_pos hs,?_,?_⟩
  · funext i
    by_cases hi : i = index
    · subst hi
      have hl : offset i < b.array[segment i].length := by
        rw [b.sized _ (List.getElem_mem _)]
        exact offset_lt i
      simp [content,List.getElem?_eq_getElem hs,hl]
    · rw [Function.update_of_ne hi,content,content,List.getElem?_modify]
      by_cases hsg : segment index = segment i
      · have hof : offset index ≠ offset i := fun ho => hi (eq_of_segment_offset hsg ho).symm
        cases b.array[segment i]? with
        | none => rfl
        | some s => simp [hsg,hof]
      · simp [hsg]
  · simp only [capacity,List.length_modify]

private theorem content_grow (b : BigArray initialValue) (n base : Nat) :
    (⟨⟨_,base,sized_grow b n⟩⟩ : BigArray initialValue).content = b.content := by
  funext i
  by_cases hi : segment i < b.array.length
  · rw [content,content,List.getElem?_append_left hi]
  · have hi' := Nat.not_lt.mp hi
    rw [content,content,List.getElem?_append_right hi',List.getElem?_eq_none hi',List.getElem?_replicate]
    split
    · simp [offset_lt i]
    · rfl

theorem ensureCapacity_spec (b : BigArray initialValue) (length : Nat) :
    (b.ensureCapacity length).content = b.content ∧ length < (b.ensureCapacity length).capacity ∧
      b.capacity ≤ (b.ensureCapacity length).capacity := by
  unfold ensureCapacity
  split
  · rename_i h
    exact ⟨rfl,h,Nat.le_refl _⟩
  · refine ⟨content_grow b _ _,?_,?_⟩
    · rw [← segment_lt_iff]
      simp only [List.length_append,List.length_replicate]
      omega
    · simp only [capacity,List.length_append]
      exact Nat.mul_le_mul_right _ (Nat.le_add_right _ _)

theorem content_new (i : Nat) : (@new α initialValue).content i = initialValue := by
  unfold content new
  cases h : segment i with
  | zero => simp [offset_lt i]
  | succ n => rfl

end BigArray
end HetuCore.Array
