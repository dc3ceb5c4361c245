import HetuCore.Foundation.ClauseLattice
import Mathlib.Data.List.OfFn

/-! Three-valued logic: FALSE below NULL below TRUE, conjunction and disjunction as the lattice
operations of that order. -/
namespace HetuCore.Foundation

/-- A nullable truth value; `none` is NULL. -/
def Kleene := Option Bool

namespace Kleene

def rank : Kleene → Nat
  | some false => 0
  | none => 1
  | some true => 2

theorem rank_injective : Function.Injective rank
  | some false, some false, _ | none, none, _ | some true, some true, _ => rfl

instance : DecidableEq Kleene := inferInstanceAs (DecidableEq (Option Bool))

instance : LinearOrder Kleene := LinearOrder.lift' rank rank_injective

instance : BoundedOrder Kleene where
  top := some true
  bot := some false
  le_top
    | some false | none | some true => by decide
  bot_le
    | some false | none | some true => by decide

/-- Negation exchanges TRUE and FALSE and keeps NULL. -/
def not : Kleene → Kleene := Option.map Bool.not

variable (x : Kleene) (values : List Kleene)

@[simp] theorem not_not : x.not.not = x := by
  rcases x with _ | _ | _ <;> rfl

theorem not_join (form : Joiner) (x y : Kleene) : (form.join x y).not = form.flip.join x.not y.not := by
  cases form <;> rcases x with _ | _ | _ <;> rcases y with _ | _ | _ <;> rfl

theorem not_eq_top_iff : x.not = ⊤ ↔ x = ⊥ :=
  Function.Involutive.eq_iff not_not

theorem not_eq_bot_iff : x.not = ⊥ ↔ x = ⊤ :=
  Function.Involutive.eq_iff not_not

theorem combine_and_eq_top : Joiner.and.combine values = ⊤ ↔ ∀ x ∈ values, x = ⊤ := by
  induction values with
  | nil => exact iff_of_true rfl (by simp)
  | cons x values ih =>
    rw [List.forall_mem_cons,← ih]
    exact inf_eq_top_iff

theorem combine_or_eq_top : Joiner.or.combine values = ⊤ ↔ ∃ x ∈ values, x = ⊤ := by
  induction values with
  | nil => exact iff_of_false nofun (by simp)
  | cons x values ih =>
    rw [List.exists_mem_cons_iff,← ih]
    exact max_eq_top

theorem combine_or_eq_bot : Joiner.or.combine values = ⊥ ↔ ∀ x ∈ values, x = ⊥ := by
  induction values with
  | nil => exact iff_of_true rfl (by simp)
  | cons x values ih =>
    rw [List.forall_mem_cons,← ih]
    exact sup_eq_bot_iff

theorem combine_unknown (form : Joiner) {n : Nat} (values : Fin (n + 1) → Kleene) (h : ∀ i, values i = none) :
    form.combine (List.ofFn values) = none := by
  induction n with
  | zero => rw [List.ofFn_succ,List.ofFn_zero,Joiner.combine_singleton,h]
  | succ n ih =>
    rw [List.ofFn_succ,Joiner.combine_cons,ih (fun i => values i.succ) fun i => h i.succ,h]
    cases form <;> rfl

end Kleene
end HetuCore.Foundation
