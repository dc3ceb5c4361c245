import HetuCore.Predicate.Domain
import Mathlib.Data.List.AList

/-! Tuple domains: a normalised map from columns to domains, and the set of tuples
it stands for. -/
namespace HetuCore.Predicate
open ColumnType
variable {T : Type} [DecidableEq T] {ty : T → ColumnType}

/-- The map from columns to domains; an unmentioned column is unconstrained. -/
abbrev ColumnDomains (ty : T → ColumnType) := AList fun c => Domain (ty c)

namespace ColumnDomains

variable (domains : ColumnDomains ty)

def containsNoneDomain : Bool := domains.entries.any (fun e => e.2.isNone)

def normalizeAndCopy : ColumnDomains ty :=
  ⟨domains.entries.filter (fun e => !e.2.isAll),domains.nodupKeys.sublist List.filter_sublist⟩

def column (m : ColumnDomains ty) (c : T) : Set (Option (ty c).Point) := {x | ∀ d ∈ m.lookup c, d.Admits x}

variable (m : ColumnDomains ty)

theorem mem_lookup_normalizeAndCopy {c : T} {d : Domain (ty c)} :
    d ∈ m.normalizeAndCopy.lookup c ↔ d ∈ m.lookup c ∧ d.isAll = false := by
  rw [AList.mem_lookup_iff,AList.mem_lookup_iff,normalizeAndCopy,List.mem_filter,Bool.not_eq_true']

theorem column_normalizeAndCopy (c : T) : m.normalizeAndCopy.column c = m.column c := by
  apply Set.ext
  intro x
  refine ⟨fun h d hd => ?_,fun h d hd => h d ((mem_lookup_normalizeAndCopy m).mp hd).1⟩
  by_cases ha : d.isAll = true
  · exact (Domain.isAll_iff d).mp ha x
  · exact h d ((mem_lookup_normalizeAndCopy m).mpr ⟨hd,Bool.eq_false_of_not_eq_true ha⟩)

theorem containsNoneDomain_iff : m.containsNoneDomain = true ↔ ∃ c, m.column c = ∅ := by
  simp only [containsNoneDomain,List.any_eq_true,Set.eq_empty_iff_forall_notMem]
  constructor
  · intro h
    obtain ⟨e,he,hn⟩ := h
    exact ⟨e.1,fun x hx => (Domain.isNone_iff e.2).mp hn x (hx e.2 (AList.mem_lookup_iff.mpr he))⟩
  · intro h
    obtain ⟨c,hc⟩ := h
    cases hl : m.lookup c with
    | none => exact absurd (fun d hd => by rw [hl] at hd; cases hd) (hc none)
    | some d =>
      refine ⟨⟨c,d⟩,AList.mem_lookup_iff.mp hl,(Domain.isNone_iff d).mpr fun x hx => hc x fun e he => ?_⟩
      obtain rfl := Option.some.inj (hl.symm.trans he)
      exact hx

end ColumnDomains

/-- A missing map is the empty tuple set; a stored domain is neither none nor all. -/
structure TupleDomain (ty : T → ColumnType) where
  domains : Option (ColumnDomains ty)
  normalized : ∀ m ∈ domains, ∀ e ∈ m.entries, e.2.isNone = false ∧ e.2.isAll = false

namespace TupleDomain

def new (domains : Option (ColumnDomains ty)) : TupleDomain ty where
  domains := domains.bind fun map => if map.containsNoneDomain then Option.none else some map.normalizeAndCopy
  normalized := by
    intro m hm e he
    obtain ⟨map,_,hmap⟩ := Option.bind_eq_some_iff.mp hm
    split at hmap
    · cases hmap
    · rename_i hn
      obtain rfl := Option.some.inj hmap
      obtain ⟨hmem,ha⟩ := List.mem_filter.mp he
      refine ⟨Bool.eq_false_of_not_eq_true fun h => hn (List.any_eq_true.mpr ⟨e,hmem,h⟩),?_⟩
      simpa using ha

def withColumnDomains (domains : ColumnDomains ty) : TupleDomain ty := new (some domains)
def none : TupleDomain ty := new Option.none
def all : TupleDomain ty := withColumnDomains ∅

variable (a : TupleDomain ty)

def isAll : Bool :=
  match a.domains with
  | some m => m.entries.isEmpty
  | .none => false

def isNone (a : TupleDomain ty) : Bool := a.domains.isNone

/-- The entry of the other operand is added, or intersected with the one already there. -/
def putIntersection (intersected : ColumnDomains ty) (entry : Sigma fun c => Domain (ty c)) :
    Except String (ColumnDomains ty) :=
  match intersected.lookup entry.1 with
  | .none => pure (intersected.insert entry.1 entry.2)
  | some intersectionDomain => do
    let domain ← intersectionDomain.intersect entry.2
    pure (intersected.insert entry.1 domain)

variable (other : TupleDomain ty)

def intersect : Except String (TupleDomain ty) :=
  match a.domains, other.domains with
  | some left, some right => do
    let intersected ← right.entries.foldlM putIntersection left
    pure (withColumnDomains intersected)
  | _, _ => pure none

/-- The columns left after the domains that are not none have each retained their own. -/
def retainAll (commonColumns : Finset T) : List (TupleDomain ty) → Finset T
  | [] => commonColumns
  | domain :: rest =>
    match domain.domains with
    | .none => retainAll commonColumns rest
    | some m => retainAll (commonColumns ∩ m.keys.toFinset) rest

/-- The common columns, once a domain that is not none has been found. -/
def commonColumns : List (TupleDomain ty) → Option (Finset T)
  | [] => .none
  | domain :: rest =>
    match domain.domains with
    | .none => commonColumns rest
    | some m => some (retainAll m.keys.toFinset rest)

abbrev DomainsByColumn (ty : T → ColumnType) := AList fun c => List (Domain (ty c))

def addDomain (commonColumns : Finset T) (domainsByColumn : DomainsByColumn ty)
    (entry : Sigma fun c => Domain (ty c)) : DomainsByColumn ty :=
  if entry.1 ∈ commonColumns then
    domainsByColumn.insert entry.1 ((domainsByColumn.lookup entry.1).getD [] ++ [entry.2])
  else domainsByColumn

def addDomains (commonColumns : Finset T) (domainsByColumn : DomainsByColumn ty) (domain : TupleDomain ty) :
    DomainsByColumn ty :=
  match domain.domains with
  | .none => domainsByColumn
  | some m => m.entries.foldl (addDomain commonColumns) domainsByColumn

def putUnion (result : ColumnDomains ty) (entry : Sigma fun c => List (Domain (ty c))) :
    Except String (ColumnDomains ty) := do
  let domain ← Domain.unionAll entry.2
  pure (result.insert entry.1 domain)

/-- Corresponding column domains are unioned; a column some operand leaves free stays free. -/
def columnWiseUnion (tupleDomains : List (TupleDomain ty)) : Except String (TupleDomain ty) :=
  match tupleDomains with
  | [] => .error "tupleDomains must have at least one element"
  | [domain] => pure domain
  | _ =>
    match commonColumns tupleDomains with
    | .none => pure none
    | some columns => do
      let domainsByColumn := tupleDomains.foldl (addDomains columns) ∅
      let result ← domainsByColumn.entries.foldlM putUnion ∅
      pure (withColumnDomains result)

def overlaps : Except String Bool := do
  let intersected ← a.intersect other
  pure (!intersected.isNone)

/-- Equality of the maps: the same size, and every entry has an equal one under its key. -/
def equals (a other : TupleDomain ty) : Bool :=
  match a.domains, other.domains with
  | .none, .none => true
  | some m, some o => m.entries.length == o.entries.length && m.entries.all fun e =>
      match o.lookup e.1 with
      | some d => e.2.equals d
      | .none => false
  | _, _ => false

def contains : Except String Bool :=
  if other.isNone then pure true
  else do
    let unioned ← columnWiseUnion [a,other]
    pure (unioned.equals a)

/-- The tuples, NULL or a point in every column, that satisfy every stored domain. -/
def tuples : Set ((c : T) → Option (ty c).Point) := {t | ∃ m ∈ a.domains, ∀ c, t c ∈ m.column c}

/-- What one column admits; the empty tuple set admits nothing anywhere. -/
def AdmitsAt (c : T) (x : Option (ty c).Point) : Prop := ∃ m ∈ a.domains, x ∈ m.column c

/-- The test of a row of values, NULL or a native value in every column. -/
def includesRow (row : (c : T) → Option (ty c).Value) : Bool :=
  match a.domains with
  | some m => m.entries.all fun e => e.2.includesNullableValue (row e.1)
  | .none => false

/-- The column value of a row is admitted by the domain stored for the column, if any. -/
def includesAt (c : T) (value : Option (ty c).Value) : Bool :=
  match a.domains with
  | some m => match m.lookup c with
    | some d => d.includesNullableValue value
    | .none => true
  | .none => false

end TupleDomain
end HetuCore.Predicate
