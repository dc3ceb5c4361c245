import HetuCore.Predicate.ValueSet

namespace HetuCore.Predicate
open ColumnType List

@[ext] structure Domain (t : ColumnType) where
  values : ValueSet t
  nullAllowed : Bool

namespace Domain
variable {t : ColumnType}

def isNone (d : Domain t) : Bool := d.values.isNone && !d.nullAllowed
def isAll (d : Domain t) : Bool := d.values.isAll && d.nullAllowed

def includesNullableValue (d : Domain t) : Option t.Value → Bool
  | none => d.nullAllowed
  | some value => d.values.containsValue value

def intersect (d other : Domain t) : Except String (Domain t) := do
  let values ← d.values.intersect other.values
  pure ⟨values,d.nullAllowed && other.nullAllowed⟩

def union (d other : Domain t) : Except String (Domain t) := do
  let values ← d.values.union other.values
  pure ⟨values,d.nullAllowed || other.nullAllowed⟩

/-- Union of a list; a single domain is returned as it is. -/
def unionAll : List (Domain t) → Except String (Domain t)
  | [] => .error "domains cannot be empty for union"
  | [domain] => pure domain
  | first :: rest => do
    let isAllowNull := (first :: rest).foldl (fun isAllowNull domain => isAllowNull || domain.nullAllowed) false
    let unionedValues ← first.values.unionAll (rest.map values)
    pure ⟨unionedValues,isAllowNull⟩

def equals (d other : Domain t) : Bool := d.values.equals other.values && d.nullAllowed == other.nullAllowed

def contains (d other : Domain t) : Except String Bool := do
  let unioned ← d.union other
  pure (unioned.equals d)

/-- NULL, or a point of the value space, belongs to the domain. -/
def Admits (d : Domain t) : Option t.Point → Prop
  | none => d.nullAllowed = true
  | some p => d.values.Contains p

variable (d : Domain t)

theorem includesNullableValue_iff (v : Option t.Value) :
    d.includesNullableValue v = true ↔ d.Admits (v.map point) := by
  cases v with
  | none => exact .rfl
  | some value => exact d.values.containsValue_iff value

theorem isNone_iff : d.isNone = true ↔ ∀ x, ¬ d.Admits x := by
  rw [isNone,Bool.and_eq_true,ValueSet.isNone_iff,Bool.not_eq_true',← Bool.not_eq_true]
  exact ⟨fun h x => Option.rec h.2 h.1 x,fun h => ⟨fun p => h (some p),h none⟩⟩

theorem isAll_iff : d.isAll = true ↔ ∀ x, d.Admits x := by
  rw [isAll,Bool.and_eq_true,ValueSet.isAll_iff]
  exact ⟨fun h x => Option.rec h.2 h.1 x,fun h => ⟨fun p => h (some p),h none⟩⟩

theorem ext_admits {d e : Domain t} (h : ∀ x, d.Admits x ↔ e.Admits x) : d = e :=
  Domain.ext (ValueSet.ext_contains fun p => h (some p)) (Bool.eq_iff_iff.mpr (h none))

variable (d e : Domain t)

theorem equals_iff : d.equals e = true ↔ d = e := by
  rw [equals,Bool.and_eq_true,ValueSet.equals_iff,beq_iff_eq,Domain.ext_iff]

theorem intersect_spec : ∃ x, d.intersect e = .ok x ∧ ∀ v, x.Admits v ↔ d.Admits v ∧ e.Admits v := by
  obtain ⟨s,hs,hc⟩ := d.values.intersect_spec e.values
  refine ⟨⟨s,d.nullAllowed && e.nullAllowed⟩,by rw [intersect,hs]; rfl,fun v => ?_⟩
  cases v with
  | none => exact Bool.and_eq_true_iff
  | some p => exact hc p

theorem union_spec : ∃ x, d.union e = .ok x ∧ ∀ v, x.Admits v ↔ d.Admits v ∨ e.Admits v := by
  obtain ⟨s,hs,hc⟩ := d.values.union_spec e.values
  refine ⟨⟨s,d.nullAllowed || e.nullAllowed⟩,by rw [union,hs]; rfl,fun v => ?_⟩
  cases v with
  | none => exact Bool.or_eq_true_iff
  | some p => exact hc p

private theorem foldl_nullAllowed (b : Bool) (domains : List (Domain t)) :
    domains.foldl (fun isAllowNull domain => isAllowNull || domain.nullAllowed) b = true ↔
      b = true ∨ ∃ d ∈ domains, d.nullAllowed = true := by
  induction domains generalizing b with
  | nil => simp
  | cons d rest ih =>
    rw [foldl_cons,ih,Bool.or_eq_true]
    simp only [mem_cons,exists_eq_or_imp,or_assoc]

/-- The union of a nonempty list of domains succeeds and admits what one of them admits. -/
theorem unionAll_spec {domains : List (Domain t)} (hne : domains ≠ []) :
    ∃ x, unionAll domains = .ok x ∧ ∀ v, x.Admits v ↔ ∃ d ∈ domains, d.Admits v := by
  cases domains with
  | nil => exact absurd rfl hne
  | cons first rest =>
    cases rest with
    | nil => exact ⟨first,rfl,fun v => by simp⟩
    | cons second rest =>
      obtain ⟨s,hs,hc⟩ := first.values.unionAll_spec ((second :: rest).map values)
      refine ⟨⟨s,_⟩,by rw [unionAll,hs]; exacts [rfl,nofun],fun v => ?_⟩
      cases v with
      | none =>
        refine (foldl_nullAllowed false _).trans ?_
        simp only [Bool.false_eq_true,false_or]
        exact .rfl
      | some p =>
        rw [exists_mem_cons_iff]
        refine (hc p).trans (or_congr .rfl ?_)
        simp only [mem_map,exists_exists_and_eq_and]
        exact .rfl

/-- Containment computed through the union is inclusion of what is admitted. -/
theorem contains_iff_admits : ∃ b, d.contains e = .ok b ∧ (b = true ↔ ∀ v, e.Admits v → d.Admits v) := by
  obtain ⟨x,hx,hc⟩ := d.union_spec e
  refine ⟨x.equals d,by rw [contains,hx]; rfl,?_⟩
  rw [equals_iff]
  constructor
  · intro h v hv
    have hxv := (hc v).mpr (.inr hv)
    rwa [h] at hxv
  · intro h
    apply ext_admits
    intro v
    rw [hc]
    exact ⟨fun hv => hv.elim id (h v),.inl⟩

end Domain
end HetuCore.Predicate
