import HetuCore.HeuristicIndex.BitmapIndexLaws
import HetuCore.HeuristicIndex.SequenceUtils
import HetuCore.Predicate.Complement

namespace HetuCore.HeuristicIndex
open Predicate
variable {Column : Type} [DecidableEq Column] {Name : Type}

/-- A stripe with the nullable values of its columns. -/
structure Stripe (type : Column → IndexedType) where
  offset : Int
  numberOfRows : Nat
  value : (c : Column) → Fin numberOfRows → Option (type c).Native

/-- The index built from exactly the values of a column. -/
def Stripe.index {type : Column → IndexedType} (stripe : Stripe type) (c : Column) : BitmapIndex (type c).Key :=
  BitmapIndex.addValues ((List.ofFn (stripe.value c)).map (Option.map (type c).actual))

variable (type : Column → IndexedType)

/-- A domain for the column that a name stands for; names that differ in case are one column. -/
abbrev NamedDomain (column : Name → Column) := Sigma fun n : Name => (type (column n)).Domain

/-- The domains of one OR entry, at least one. -/
structure OrDomains (type : Column → IndexedType) (column : Name → Column) where
  name : Name
  first : (type (column name)).Domain
  rest : List (type (column name)).Domain

/-- Which domain is looked up in which index. -/
abbrev DomainMap := AList fun c : Column => (type c).Domain

/-- The stripe is excluded, or the rows registered for it, if any. -/
structure Decision where
  excluded : Bool
  matchingRows : Option (List Nat)
deriving DecidableEq

namespace StripeFilter
variable {type : Column → IndexedType} {column : Name → Column}

/-- A domain is looked up if exactly one index of the stripe is on its column; the list of indexes is
dereferenced even if the stripe has none. -/
def addDomain (stripeIndex : Option (List Column)) (domainMap : DomainMap type) (entry : NamedDomain type column) :
    Except String (DomainMap type) :=
  match stripeIndex with
  | none => .error "NullPointerException"
  | some columns =>
    if (columns.filter fun c => decide (c = column entry.1)).length = 1 then .ok (domainMap.insert (column entry.1) entry.2)
    else .ok domainMap

/-- One result for each index, or `none` as soon as a look-up is not supported. -/
def lookUps (stripe : Stripe type) : List (Sigma fun c : Column => (type c).Domain) → Option (List (List Nat))
  | [] => some []
  | entry :: entries =>
    match (stripe.index entry.1).lookUp entry.2 with
    | .ok rows => (lookUps stripe entries).map (rows :: ·)
    | .error _ => none

/-- No index of the OR domains finds a row. -/
def noneMatches (stripe : Stripe type) : List (Sigma fun c : Column => (type c).Domain) → Bool
  | [] => true
  | entry :: entries =>
    match (stripe.index entry.1).lookUp entry.2 with
    | .ok [] => noneMatches stripe entries
    | .ok (_ :: _) => false
    | .error _ => false

variable (stripe : Stripe type)

/-- What the look-ups of the collected domains decide; OR domains count only if no AND domain is looked up. -/
def decision (andDomainMap orDomainMap : DomainMap type) : Decision :=
  if andDomainMap.entries ≠ [] then
    match lookUps stripe andDomainMap.entries with
    | some matchings => ⟨false,some (SequenceUtils.intersect matchings)⟩
    | none => ⟨false,none⟩
  else if orDomainMap.entries ≠ [] then ⟨noneMatches stripe orDomainMap.entries,none⟩
  else ⟨false,none⟩

def firsts (or : List (OrDomains type column)) : List (NamedDomain type column) :=
  or.map fun entry => ⟨entry.name,entry.first⟩

def filterStripeUsingIndex (stripeOffsetToIndex : List (Int × List Column))
    (and : List (NamedDomain type column)) (or : List (OrDomains type column)) : Except String Decision :=
  if stripeOffsetToIndex = [] then .ok ⟨false,none⟩
  else do
    let stripeIndex := stripeOffsetToIndex.lookup stripe.offset
    let andDomainMap ← and.foldlM (addDomain stripeIndex) ∅
    let orDomainMap ← (firsts or).foldlM (addDomain stripeIndex) ∅
    .ok (decision stripe andDomainMap orDomainMap)

end StripeFilter
end HetuCore.HeuristicIndex
