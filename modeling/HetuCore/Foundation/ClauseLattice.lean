import Mathlib.Order.BoundedOrder.Lattice
import Mathlib.Data.List.Basic

/-! Conjunctions and disjunctions of lists in a bounded distributive lattice, and the clause
transformations of normal forms: absorption, common factors and the distributive law. -/
namespace HetuCore.Foundation

/-- The connective that joins a list of clauses. -/
inductive Joiner
  | and
  | or
deriving DecidableEq, Repr

namespace Joiner

def flip : Joiner → Joiner
  | and => or
  | or => and

variable (form : Joiner)

@[simp] theorem flip_flip : form.flip.flip = form := by
  cases form <;> rfl

section
variable {α : Type} [DistribLattice α]

def join : Joiner → α → α → α
  | and, x, y => x ⊓ y
  | or, x, y => x ⊔ y

/-- The order in which joining more clauses goes down. -/
def Below : Joiner → α → α → Prop
  | and, x, y => x ≤ y
  | or, x, y => y ≤ x

variable {form : Joiner}

theorem Below.antisymm {x y : α} (h : form.Below x y) (h' : form.Below y x) : x = y := by
  cases form with
  | and => exact le_antisymm h h'
  | or => exact le_antisymm h' h

theorem Below.rfl {x : α} : form.Below x x := by
  cases form <;> exact le_rfl

theorem Below.trans {x y z : α} (h : form.Below x y) (h' : form.Below y z) : form.Below x z := by
  cases form with
  | and => exact le_trans h h'
  | or => exact le_trans h' h

variable (form : Joiner)

theorem below_join_iff (a x y : α) : form.Below a (form.join x y) ↔ form.Below a x ∧ form.Below a y := by
  cases form with
  | and => exact le_inf_iff
  | or => exact sup_le_iff

theorem below_flip_iff (x y : α) : form.flip.Below x y ↔ form.Below y x := by
  cases form <;> exact .rfl

theorem join_comm (x y : α) : form.join x y = form.join y x := by
  cases form with
  | and => exact inf_comm x y
  | or => exact sup_comm x y

theorem join_assoc (x y z : α) : form.join (form.join x y) z = form.join x (form.join y z) := by
  cases form with
  | and => exact inf_assoc x y z
  | or => exact sup_assoc x y z

end

variable {α : Type} [DistribLattice α] [BoundedOrder α]

def unit : Joiner → α
  | and => ⊤
  | or => ⊥

def combine (form : Joiner) (xs : List α) : α := xs.foldr form.join form.unit

@[simp] theorem combine_nil : form.combine ([] : List α) = form.unit := rfl

variable (x : α)

@[simp] theorem combine_cons (xs : List α) : form.combine (x :: xs) = form.join x (form.combine xs) := rfl

theorem below_unit (a : α) : form.Below a form.unit := by
  cases form with
  | and => exact le_top
  | or => exact bot_le

theorem zero_below (a : α) : form.Below form.flip.unit a := by
  cases form with
  | and => exact bot_le
  | or => exact le_top

theorem below_combine_iff (a : α) (xs : List α) : form.Below a (form.combine xs) ↔ ∀ x ∈ xs, form.Below a x := by
  induction xs with
  | nil => simp [below_unit]
  | cons x xs ih => rw [combine_cons,below_join_iff,ih,List.forall_mem_cons]

variable {xs : List α}

theorem combine_below {x : α} (hx : x ∈ xs) : form.Below (form.combine xs) x :=
  (below_combine_iff form _ xs).mp .rfl x hx

theorem combine_below_of_subset {ys : List α} (h : xs ⊆ ys) : form.Below (form.combine ys) (form.combine xs) :=
  (below_combine_iff form _ xs).mpr fun _ hx => combine_below form (h hx)

theorem combine_append (xs ys : List α) : form.combine (xs ++ ys) = form.join (form.combine xs) (form.combine ys) := by
  apply Below.antisymm
  · rw [below_join_iff]
    exact ⟨combine_below_of_subset form (List.subset_append_left ..),
      combine_below_of_subset form (List.subset_append_right ..)⟩
  · rw [below_combine_iff]
    have h : form.Below (form.join (form.combine xs) (form.combine ys)) (form.join (form.combine xs) (form.combine ys)) :=
      .rfl
    rw [below_join_iff,below_combine_iff,below_combine_iff] at h
    exact fun x hx => (List.mem_append.mp hx).elim (h.1 x) (h.2 x)

@[simp] theorem join_unit : form.join x form.unit = x := by
  cases form with
  | and => exact inf_top_eq x
  | or => exact sup_bot_eq x

theorem combine_singleton : form.combine [x] = x := join_unit form x

theorem combine_flatMap {β : Type} (f : β → List α) (bs : List β) :
    form.combine (bs.flatMap f) = form.combine (bs.map fun b => form.combine (f b)) := by
  induction bs with
  | nil => rfl
  | cons b bs ih => rw [List.flatMap_cons,combine_append,ih,List.map_cons,combine_cons]

/-- A clause equal to the absorbing value decides the whole list. -/
theorem combine_eq_zero (h : form.flip.unit ∈ xs) : form.combine xs = form.flip.unit :=
  Below.antisymm (combine_below form h) (zero_below form _)

/-- Lists whose clauses are below one another in both directions have one value. -/
theorem combine_congr {ys : List α} (h : ∀ y ∈ ys, y = form.unit ∨ y ∈ xs) (h' : ∀ x ∈ xs, x = form.unit ∨ x ∈ ys) :
    form.combine xs = form.combine ys := by
  have hle : ∀ {us vs : List α}, (∀ v ∈ vs, v = form.unit ∨ v ∈ us) →
      form.Below (form.combine us) (form.combine vs) := by
    intro us vs huv
    rw [below_combine_iff]
    intro v hv
    rcases huv v hv with rfl | hm
    · exact below_unit form _
    · exact combine_below form hm
  exact Below.antisymm (hle h) (hle h')

theorem join_combine (xs : List α) :
    form.flip.join x (form.combine xs) = form.combine (xs.map (form.flip.join x)) := by
  induction xs with
  | nil =>
    cases form with
    | and => exact sup_top_eq x
    | or => exact inf_bot_eq x
  | cons y ys ih =>
    rw [List.map_cons,combine_cons,combine_cons,← ih]
    cases form with
    | and => exact sup_inf_left x y _
    | or => exact inf_sup_left x y _

/-- The value of grouped clauses: groups joined by `form`, each group by the opposite connective. -/
def grouped (form : Joiner) (groups : List (List α)) : α := form.combine (groups.map form.flip.combine)

/-- Absorption: a group that contains the clauses of a kept group can be left out. -/
theorem grouped_absorb {groups kept : List (List α)} (hs : kept ⊆ groups)
    (hc : ∀ group ∈ groups, ∃ part ∈ kept, part ⊆ group) : form.grouped kept = form.grouped groups := by
  apply Below.antisymm
  · rw [grouped,grouped,below_combine_iff]
    intro x hx
    obtain ⟨group,hg,rfl⟩ := List.mem_map.mp hx
    obtain ⟨part,hp,hle⟩ := hc group hg
    have hb := combine_below_of_subset form.flip hle
    rw [below_flip_iff] at hb
    exact (combine_below form (List.mem_map_of_mem hp)).trans hb
  · exact combine_below_of_subset form (List.map_subset _ hs)

/-- Common factors: clauses that every group has move out, under the opposite connective. -/
theorem grouped_common (common : List α) {β : Type} (groups : List β) (clauses rest : β → List α)
    (h : ∀ group ∈ groups, form.flip.combine (clauses group) =
      form.flip.join (form.flip.combine common) (form.flip.combine (rest group))) :
    form.grouped (groups.map clauses) =
      form.flip.join (form.flip.combine common) (form.combine (groups.map fun group => form.flip.combine (rest group))) := by
  rw [grouped,join_combine,List.map_map,List.map_map]
  congr 1
  exact List.map_congr_left h

/-- One step of the distributive law: every clause list so far is extended by every new clause. -/
theorem combine_product (lists : List (List α)) (clauses : List α) :
    form.flip.combine ((lists.flatMap fun previous => clauses.map fun clause => previous ++ [clause]).map form.combine) =
      form.join (form.flip.combine (lists.map form.combine)) (form.flip.combine clauses) := by
  have hc : ∀ previous : List α, form.flip.combine (clauses.map fun clause => form.combine (previous ++ [clause])) =
        form.join (form.combine previous) (form.flip.combine clauses) := by
    intro previous
    have hj := join_combine form.flip (form.combine previous) clauses
    rw [flip_flip] at hj
    rw [hj]
    congr 1
    refine List.map_congr_left fun clause _ => ?_
    rw [combine_append,combine_singleton]
  rw [List.map_flatMap,combine_flatMap]
  simp only [List.map_map,Function.comp_def,hc]
  have hj := join_combine form.flip (form.flip.combine clauses) (lists.map form.combine)
  rw [flip_flip] at hj
  rw [join_comm,hj,List.map_map]
  congr 1
  exact List.map_congr_left fun previous _ => join_comm form _ _

end Joiner
end HetuCore.Foundation
