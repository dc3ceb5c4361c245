import Mathlib.Tactic.Linarith
import Mathlib.Algebra.BigOperators.Group.List.Basic

/-! Partial aggregation in any tree shape, and sums kept as a bounded residue with a
count of the windows left behind. -/
namespace HetuCore.Foundation
open List

/-- How partial states are built: inputs are added one by one, whole partial states
are combined in any nesting. -/
inductive Plan (α : Type) where
  | fresh
  | input (plan : Plan α) (x : α)
  | combine (plan part : Plan α)

namespace Plan
variable {α σ τ : Type}

def inputs : Plan α → List α
  | fresh => []
  | input plan x => plan.inputs ++ [x]
  | combine plan part => plan.inputs ++ part.inputs

def run (init : σ) (add : σ → α → σ) (merge : σ → σ → σ) : Plan α → σ
  | fresh => init
  | input plan x => add (plan.run init add merge) x
  | combine plan part => merge (plan.run init add merge) (part.run init add merge)

/-- Run a plan on states when merging may fail. -/
def runM (init : σ) (add : σ → α → σ) (merge : σ → σ → Except String σ) : Plan α → Except String σ
  | fresh => pure init
  | input plan x => do
    let s ← plan.runM init add merge
    pure (add s x)
  | combine plan part => do
    let s ← plan.runM init add merge
    let p ← part.runM init add merge
    merge s p

/-- Simulation: a relation kept by every step relates the two runs, and no merge fails. -/
theorem runM_rel {R : σ → τ → Prop} {init : σ} {add : σ → α → σ} {merge : σ → σ → Except String σ}
    {init' : τ} {add' : τ → α → τ} {merge' : τ → τ → τ} (hi : R init init')
    (ha : ∀ s t x, R s t → R (add s x) (add' t x))
    (hmr : ∀ s t p q, R s t → R p q → ∃ m, merge s p = .ok m ∧ R m (merge' t q)) (plan : Plan α) :
    ∃ s, plan.runM init add merge = .ok s ∧ R s (plan.run init' add' merge') := by
  induction plan with
  | fresh => exact ⟨init,rfl,hi⟩
  | input plan x ih =>
    obtain ⟨s,hs,hr⟩ := ih
    exact ⟨add s x,by rw [runM,hs]; rfl,ha s _ x hr⟩
  | combine plan part ih ih' =>
    obtain ⟨s,hs,hr⟩ := ih
    obtain ⟨p,hp,hq⟩ := ih'
    obtain ⟨m,hm,hrm⟩ := hmr s _ p _ hr hq
    exact ⟨m,by rw [runM,hs,hp]; exact hm,hrm⟩

/-- A measure that adds over inputs and merges is the sum over all inputs. -/
theorem run_sum {M : Type} [AddMonoid M] {init : σ} {add : σ → α → σ} {merge : σ → σ → σ} (measure : σ → M)
    (value : α → M) (hi : measure init = 0) (ha : ∀ s x, measure (add s x) = measure s + value x)
    (hm : ∀ s p, measure (merge s p) = measure s + measure p) (plan : Plan α) :
    measure (plan.run init add merge) = (plan.inputs.map value).sum := by
  induction plan with
  | fresh => exact hi
  | input plan x ih => rw [run,ha,ih,inputs,map_append,sum_append,map_singleton,sum_singleton]
  | combine plan part ih ih' => rw [run,hm,ih,ih',inputs,map_append,sum_append]

end Plan

/-- A residue strictly inside the window of the base, and the windows left behind. -/
structure Windowed (base : Int) where
  residue : Int
  carry : Int
  inside : -base < residue ∧ residue < base

namespace Windowed
variable {base : Int} (w : Windowed base)

def total : Int := w.residue + w.carry * base

def zero (h : 0 < base) : Windowed base := ⟨0,0,by omega,h⟩

/-- Residues are added; a sum that leaves the window moves it by one base. -/
def add (x : Windowed base) : Windowed base :=
  if h : base ≤ w.residue + x.residue then
    ⟨w.residue + x.residue - base,w.carry + x.carry + 1,by have := w.inside; have := x.inside; omega⟩
  else if h' : w.residue + x.residue ≤ -base then
    ⟨w.residue + x.residue + base,w.carry + x.carry - 1,by have := w.inside; have := x.inside; omega⟩
  else ⟨w.residue + x.residue,w.carry + x.carry,by omega⟩

@[simp] theorem total_zero (h : 0 < base) : (zero h).total = 0 := by simp [total,zero]

@[simp] theorem total_add (x : Windowed base) : (w.add x).total = w.total + x.total := by
  unfold add total
  split
  · simp only [add_mul,one_mul]
    omega
  · split
    · simp only [add_mul,sub_mul,one_mul]
      omega
    · simp only [add_mul]
      omega

/-- The carry is within one base of the total. -/
theorem carry_bound : |w.carry * base| < |w.total| + base := by
  have h := w.inside
  have hr : |w.residue| < base := abs_lt.mpr h
  have ht : |w.total - w.residue| ≤ |w.total| + |w.residue| := abs_sub _ _
  have heq : w.carry * base = w.total - w.residue := by
    rw [total]
    omega
  rw [heq]
  omega

end Windowed
end HetuCore.Foundation
