import HetuCore.Foundation.Machine

/-! Postconditions of computations that may throw: what holds of a result, and which
messages an exception may carry. -/
namespace HetuCore.Foundation
open List

/-- The computation ends in a result with the property or throws with a permitted message. -/
def Ends {β : Type} (permitted : String → Prop) (good : β → Prop) : Except String β → Prop
  | .ok b => good b
  | .error message => permitted message

namespace Ends
variable {β γ : Type} {permitted : String → Prop} {good : β → Prop} {x : Except String β}

variable {b : β} {f : β → Except String γ}

theorem pure (h : good b) : Ends permitted good (pure b) := h

theorem throw {message : String} (h : permitted message) : Ends permitted good (.error message) := h

theorem of_ok (hx : x = .ok b) (h : good b) : Ends permitted good x := by
  rw [hx]
  exact h

section
variable (h : Ends permitted good x)
include h

theorem ok (hx : x = .ok b) : good b := by
  rw [hx] at h
  exact h

theorem mono {good' : β → Prop} (hi : ∀ b, good b → good' b) : Ends permitted good' x := by
  cases x with
  | error message => exact h
  | ok b => exact hi b h

theorem allow {permitted' : String → Prop} (hi : ∀ message, permitted message → permitted' message) :
    Ends permitted' good x := by
  cases x with
  | error message => exact hi message h
  | ok b => exact h

end

/-- A computation that may not throw has a result. -/
theorem total (h : Ends (fun _ => False) good x) : ∃ b, x = .ok b ∧ good b := by
  cases x with
  | error message => exact h.elim
  | ok b => exact ⟨b,rfl,h⟩

variable {good' : γ → Prop}

theorem bind (h : Ends permitted good x) (hf : ∀ b, good b → Ends permitted good' (f b)) :
    Ends permitted good' (x >>= f) := by
  cases x with
  | error message => exact h
  | ok b => exact hf b h

theorem after (hx : x = .ok b) (h : Ends permitted good' (f b)) : Ends permitted good' (x >>= f) := by
  rw [hx]
  exact h

theorem foldlM {α : Type} {f : β → α → Except String β} {items : List α} (hb : good b)
    (hf : ∀ b a, a ∈ items → good b → Ends permitted good (f b a)) : Ends permitted good (items.foldlM f b) := by
  induction items generalizing b with
  | nil => exact hb
  | cons a items ih =>
    apply bind (hf b a (mem_cons_self ..) hb)
    intro b' hb'
    exact ih hb' fun b₁ a₁ ha₁ => hf b₁ a₁ (mem_cons_of_mem _ ha₁)

/-- If every step that meets the condition ends well, so does every run of such steps. -/
theorem run {σ α : Type} {m : Machine σ α} {condition : σ → α → Prop} {good : σ → Prop} (hi : good m.init)
    (hs : ∀ s a, good s → condition s a → Ends permitted good (m.step s a)) {actions : List α}
    (ha : m.Along condition actions) : Ends permitted good (m.run actions) := by
  induction actions using reverseRecOn with
  | nil => exact hi
  | append_singleton actions a ih =>
    rw [Machine.run_concat]
    have hb := ih ha.left
    cases hr : m.run actions with
    | error message =>
      rw [hr] at hb
      exact hb
    | ok s => exact hs s a (hb.ok hr) (ha actions a [] s rfl hr)

end Ends

theorem foldlM_ok {α β : Type} {good : β → Prop} {f : β → α → Except String β} {items : List α} {b b' : β} (hb : good b)
    (hf : ∀ b a b', good b → f b a = .ok b' → good b') (h : items.foldlM f b = .ok b') : good b' := by
  have he : Ends (fun _ => True) good (items.foldlM f b) := by
    apply Ends.foldlM hb
    intro b₁ a _ hb₁
    cases hx : f b₁ a with
    | error message => exact trivial
    | ok b₂ => exact hf b₁ a b₂ hb₁ hx
  exact he.ok h

end HetuCore.Foundation
