import Mathlib.Data.List.Induction
import Mathlib.Data.Fin.Tuple.Basic

/-! Machines whose steps may throw: runs, what holds after every run, and what holds
after the runs whose steps all meet a condition. -/
namespace HetuCore.Foundation
open List

variable {β : Type}

/-- A computation that succeeds has succeeded in each of its parts. -/
theorem bind_ok {ε γ : Type} {x : Except ε β} {f : β → Except ε γ} {c : γ} (h : x >>= f = .ok c) :
    ∃ b, x = .ok b ∧ f b = .ok c := by
  cases x with
  | error message => cases h
  | ok b => exact ⟨b,rfl,h⟩

variable {items : List β}

theorem forall_mem_concat {p : β → Prop} {last : β} : (∀ x ∈ items ++ [last], p x) ↔ (∀ x ∈ items, p x) ∧ p last := by
  rw [forall_mem_append,forall_mem_singleton]

/-- The results of a loop that succeeds are those of its items. -/
theorem mapM_ok {ε γ : Type} {f : β → Except ε γ} {results : List γ} (h : items.mapM f = .ok results) :
    (∀ item ∈ items, ∃ result ∈ results, f item = .ok result) ∧
      ∀ result ∈ results, ∃ item ∈ items, f item = .ok result := by
  induction items generalizing results with
  | nil =>
    cases h
    exact ⟨by simp,by simp⟩
  | cons item items ih =>
    rw [mapM_cons] at h
    obtain ⟨first,hf,h⟩ := bind_ok h
    obtain ⟨rest,hrs,h⟩ := bind_ok h
    cases h
    obtain ⟨hi,hr⟩ := ih hrs
    refine ⟨forall_mem_cons.mpr ⟨⟨first,mem_cons_self,hf⟩,fun other ho => ?_⟩,
      forall_mem_cons.mpr ⟨⟨item,mem_cons_self,hf⟩,fun other ho => ?_⟩⟩
    · exact (hi other ho).imp fun _ h => ⟨mem_cons_of_mem _ h.1,h.2⟩
    · exact (hr other ho).imp fun _ h => ⟨mem_cons_of_mem _ h.1,h.2⟩

theorem mapM_of_ok {ε γ : Type} {f : β → Except ε γ} {g : β → γ}
    (h : ∀ item ∈ items, f item = .ok (g item)) : items.mapM f = .ok (items.map g) := by
  induction items with
  | nil => rfl
  | cons item items ih =>
    rw [mapM_cons,h item mem_cons_self,ih fun other ho => h other (mem_cons_of_mem _ ho)]
    rfl

theorem mapM_error {ε γ : Type} {f : β → Except ε γ} {e : ε} (h : items.mapM f = .error e) :
    ∃ item ∈ items, f item = .error e := by
  induction items with
  | nil => cases h
  | cons item items ih =>
    rw [mapM_cons] at h
    cases hi : f item with
    | error e' =>
      rw [hi] at h
      cases h
      exact ⟨item,mem_cons_self,hi⟩
    | ok result =>
      rw [hi] at h
      cases hr : items.mapM f with
      | error e' =>
        rw [hr] at h
        cases h
        obtain ⟨other,ho,hf⟩ := ih hr
        exact ⟨other,mem_cons_of_mem _ ho,hf⟩
      | ok rest =>
        rw [hr] at h
        cases h

/-- If every round of a loop succeeds in a good state, the loop does. The goodness may speak
about the items so far. -/
theorem foldlM_total {ε σ : Type} {f : σ → β → Except ε σ} (good : List β → σ → Prop) {s₀ : σ}
    (hi : good [] s₀) (hst : ∀ done item rest s, items = done ++ item :: rest → good done s →
      ∃ s', f s item = .ok s' ∧ good (done ++ [item]) s') : ∃ s, items.foldlM f s₀ = .ok s ∧ good items s := by
  induction items using reverseRecOn with
  | nil => exact ⟨s₀,rfl,hi⟩
  | append_singleton items item ih =>
    obtain ⟨s,hs,hg⟩ := ih fun done other rest s hsp =>
      hst done other (rest ++ [item]) s (by rw [hsp,append_assoc,cons_append])
    obtain ⟨s',hs',hg'⟩ := hst items item [] s rfl hg
    refine ⟨s',?_,hg'⟩
    rw [foldlM_append,hs]
    exact (bind_pure _).trans hs'

/-- A loop over the places of an array that fills another array. -/
def forEach {ε γ : Type} : {n : Nat} → (Fin n → Except ε γ) → Except ε (Fin n → γ)
  | 0, _ => .ok Fin.elim0
  | _ + 1, f => do
    let first ← f ⟨0,Nat.succ_pos _⟩
    let rest ← forEach fun i => f i.succ
    pure (Fin.cons first rest)

theorem forEach_ok {ε γ : Type} {n : Nat} {f : Fin n → Except ε γ} {g : Fin n → γ} :
    forEach f = .ok g ↔ ∀ i, f i = .ok (g i) := by
  induction n with
  | zero => exact iff_of_true (congrArg Except.ok (funext fun i => i.elim0)) fun i => i.elim0
  | succ n ih =>
    rw [Fin.forall_fin_succ]
    constructor
    · intro h
      obtain ⟨first,hf,h⟩ := bind_ok h
      obtain ⟨rest,hr,h⟩ := bind_ok h
      cases h
      exact ⟨hf,ih.mp hr⟩
    · rintro ⟨hf,hr⟩
      rw [forEach,Fin.zero_eta,hf,ih.mpr hr]
      exact congrArg Except.ok (Fin.cons_self_tail g)

theorem exists_ok {x : Except String β} {p : β → Prop} [DecidablePred p]
    (h : x.toOption.any (fun b => decide (p b)) = true) : ∃ b, x = .ok b ∧ p b := by
  cases x with
  | error message => cases h
  | ok b => exact ⟨b,rfl,of_decide_eq_true h⟩

structure Machine (σ α : Type) where
  init : σ
  step : σ → α → Except String σ

namespace Machine
variable {σ α : Type} (m : Machine σ α)

def run (actions : List α) : Except String σ := actions.foldlM m.step m.init

/-- Every step that the run takes meets the condition in the state before it. -/
def Along (condition : σ → α → Prop) (actions : List α) : Prop :=
  ∀ before a after s, actions = before ++ a :: after → m.run before = .ok s → condition s a

/-- Runs the actions and checks the condition before each. -/
def checks (condition : σ → α → Prop) [∀ s a, Decidable (condition s a)] (s : σ) : List α → Bool
  | [] => true
  | a :: actions => decide (condition s a) && match m.step s a with
    | .ok s' => checks condition s' actions
    | .error _ => true

variable {m}

theorem run_concat (actions : List α) (a : α) : m.run (actions ++ [a]) = m.run actions >>= fun s => m.step s a := by
  simp [run]

variable {actions : List α} {condition : σ → α → Prop}

theorem run_concat_ok {a : α} {s' : σ} (h : m.run (actions ++ [a]) = .ok s') :
    ∃ s, m.run actions = .ok s ∧ m.step s a = .ok s' := by
  rw [run_concat] at h
  exact bind_ok h

theorem Along.of_forall (h : ∀ a ∈ actions, ∀ s, condition s a) : m.Along condition actions := by
  intro before a after s hs _
  exact h a (by simp [hs]) s

theorem Along.of_checks [∀ s a, Decidable (condition s a)] (h : m.checks condition m.init actions = true) :
    m.Along condition actions := by
  rintro before a after s rfl hr
  rw [run] at hr
  generalize m.init = s₀ at h hr
  induction before generalizing s₀ with
  | nil =>
    cases hr
    rw [nil_append,checks,Bool.and_eq_true] at h
    exact of_decide_eq_true h.1
  | cons b before ih =>
    obtain ⟨s₁,hs₁,hrs⟩ := bind_ok hr
    rw [cons_append,checks,hs₁,Bool.and_eq_true] at h
    exact ih s₁ h.2 hrs

theorem Along.concat {a : α} (h : m.Along condition actions) (ha : ∃ s, m.run actions = .ok s ∧ condition s a) :
    m.Along condition (actions ++ [a]) := by
  intro before b after s hs hr
  obtain rfl | ⟨later,x,rfl⟩ := eq_nil_or_concat after
  · obtain ⟨rfl,hl⟩ := append_inj' hs rfl
    cases hl
    obtain ⟨t,ht,hc⟩ := ha
    rw [Except.ok.inj (hr.symm.trans ht)]
    exact hc
  · rw [concat_eq_append,← cons_append,← append_assoc] at hs
    obtain ⟨hac,-⟩ := append_inj' hs rfl
    exact h before b later s hac hr

theorem Along.left {actions later : List α} (h : m.Along condition (actions ++ later)) : m.Along condition actions := by
  intro before a after s hs
  exact h before a (after ++ later) s (by rw [hs,append_assoc]; rfl)

theorem Along.concat_iff {a : α} {s : σ} (hr : m.run actions = .ok s) :
    m.Along condition (actions ++ [a]) ↔ m.Along condition actions ∧ condition s a :=
  ⟨fun h => ⟨h.left,h actions a [] s rfl hr⟩,fun h => h.1.concat ⟨s,hr,h.2⟩⟩

/-- If every step from a good state succeeds in a good state, every run does. The goodness
may speak about the actions so far. -/
theorem run_total {good : List α → σ → Prop} (hi : good [] m.init)
    (hst : ∀ actions s a, good actions s → ∃ s', m.step s a = .ok s' ∧ good (actions ++ [a]) s') (actions : List α) :
    ∃ s, m.run actions = .ok s ∧ good actions s := by
  induction actions using reverseRecOn with
  | nil => exact ⟨m.init,rfl,hi⟩
  | append_singleton actions a ih =>
    obtain ⟨s,hs,hg⟩ := ih
    obtain ⟨s',hs',hg'⟩ := hst actions s a hg
    refine ⟨s',?_,hg'⟩
    rw [run_concat,hs]
    exact hs'

variable {good : σ → Prop}

/-- If every step that meets the condition keeps the invariant, it holds after every run whose
steps all meet the condition. -/
theorem run_along (hi : good m.init) (hst : ∀ s a s', good s → condition s a → m.step s a = .ok s' → good s') {s : σ}
    (ha : m.Along condition actions) (hr : m.run actions = .ok s) : good s := by
  induction actions using reverseRecOn generalizing s with
  | nil =>
    cases hr
    exact hi
  | append_singleton actions a ih =>
    obtain ⟨s₀,hs₀,hs⟩ := run_concat_ok hr
    exact hst s₀ a s (ih ha.left hs₀) (ha actions a [] s₀ rfl hs₀) hs

/-- If every step that meets the condition succeeds and keeps the invariant, so does every run
whose steps all meet the condition. -/
theorem run_along_total (hi : good m.init)
    (hst : ∀ s a, good s → condition s a → ∃ s', m.step s a = .ok s' ∧ good s') (ha : m.Along condition actions) :
    ∃ s, m.run actions = .ok s ∧ good s := by
  induction actions using reverseRecOn with
  | nil => exact ⟨m.init,rfl,hi⟩
  | append_singleton actions a ih =>
    obtain ⟨s,hs,hg⟩ := ih ha.left
    obtain ⟨s',hs',hg'⟩ := hst s a hg (ha actions a [] s rfl hs)
    refine ⟨s',?_,hg'⟩
    rw [run_concat,hs]
    exact hs'

end Machine
end HetuCore.Foundation
