import HetuCore.Predicate.Complement
import HetuCore.Predicate.TupleDomainUnion

/-! `TupleDomain.subtract` subtracts column by column. The tuples outside of the subtrahend are all
kept only where one column alone decides. -/
namespace HetuCore.Predicate
open ColumnType Function

def ValueSet.subtract {t : ColumnType} (s other : ValueSet t) : Except String (ValueSet t) := do
  let complement ← other.complement
  s.intersect complement

def Domain.subtract {t : ColumnType} (d other : Domain t) : Except String (Domain t) := do
  let values ← d.values.subtract other.values
  pure ⟨values,d.nullAllowed && !other.nullAllowed⟩

theorem Domain.subtract_spec {t : ColumnType} (d e : Domain t) :
    ∃ x, d.subtract e = .ok x ∧ ∀ v, x.Admits v ↔ d.Admits v ∧ ¬ e.Admits v := by
  obtain ⟨c,hc,hcc⟩ := e.values.complement_spec
  obtain ⟨s,hs,hsc⟩ := d.values.intersect_spec c
  have hsb : d.values.subtract e.values = .ok s := by
    rw [ValueSet.subtract,hc]
    exact hs
  refine ⟨⟨s,d.nullAllowed && !e.nullAllowed⟩,by rw [subtract,hsb]; rfl,fun v => ?_⟩
  cases v with
  | none => simp [Admits]
  | some p => exact (hsc p).trans (and_congr_right' (hcc p))

/-- If the rows of `P` that are not rows of `Q` fail `Q` in all chosen columns, `Q` cuts a chosen column
only if it cuts no other. -/
theorem forall_rows_iff {T : Type} [DecidableEq T] {V : T → Type} (P Q : (c : T) → V c → Prop) (chosen : T → Prop) :
    (∀ row : (c : T) → V c, (∀ c, P c (row c)) → (¬ ∀ c, Q c (row c)) → ∀ c, chosen c → ¬ Q c (row c)) ↔
      (∀ row : (c : T) → V c, ¬ ∀ c, P c (row c)) ∨
        ∀ c, chosen c → ∀ v, P c v → Q c v → ∀ d ≠ c, ∀ w, P d w → Q d w := by
  constructor
  · intro h
    refine or_iff_not_imp_left.mpr fun hr c hc v hp hq d hd w hpw => ?_
    obtain ⟨row,hr⟩ := not_forall_not.mp hr
    by_contra hqw
    refine h (update (update row c v) d w) (fun e => ?_) (fun ha => hqw ?_) c hc ?_
    · by_cases hed : e = d
      · subst hed
        rwa [update_self]
      · rw [update_of_ne hed]
        by_cases hec : e = c
        · subst hec
          rwa [update_self]
        · rw [update_of_ne hec]
          exact hr e
    · have hd := ha d
      rwa [update_self] at hd
    · rwa [update_of_ne hd.symm,update_self]
  · rintro (hn | hct) row hp hq c hc hqc
    · exact hn row hp
    · refine hq fun d => ?_
      by_cases hd : d = c
      · subst hd
        exact hqc
      · exact hct c hc _ (hp c) hqc d hd _ (hp d)

namespace TupleDomain
variable {T : Type} [DecidableEq T] {ty : T → ColumnType}

/-- A column that the map does not constrain is left out. -/
def putDifference (intersected : ColumnDomains ty) (entry : Sigma fun c => Domain (ty c)) :
    Except String (ColumnDomains ty) :=
  match intersected.lookup entry.1 with
  | .none => pure intersected
  | some intersectionDomain => do
    let domain ← intersectionDomain.subtract entry.2
    pure (intersected.insert entry.1 domain)

def subtract (a other : TupleDomain ty) : Except String (TupleDomain ty) :=
  match a.domains, other.domains with
  | some left, some right => do
    let intersected ← right.entries.foldlM putDifference left
    pure (withColumnDomains intersected)
  | _, _ => pure none

theorem putDifference_spec (m : ColumnDomains ty) (e : Sigma fun c => Domain (ty c)) :
    ∃ n, putDifference m e = .ok n ∧ (∀ c, c ∈ n ↔ c ∈ m) ∧
      ∀ c x, x ∈ n.column c ↔ x ∈ m.column c ∧ (c ∈ m → ∀ d, ⟨c,d⟩ = e → ¬ d.Admits x) := by
  obtain ⟨k,d⟩ := e
  have ho : ∀ c, c ≠ k → ∀ x, c ∈ m → ∀ f, (⟨c,f⟩ : Sigma fun c => Domain (ty c)) = ⟨k,d⟩ → ¬ f.Admits x :=
    fun c hc x _ f hf => absurd (congrArg Sigma.fst hf) hc
  unfold putDifference
  cases hk : m.lookup k with
  | none =>
    refine ⟨m,rfl,fun _ => .rfl,fun c x => (and_iff_left ?_).symm⟩
    by_cases hc : c = k
    · subst hc
      exact fun hm => absurd hm (AList.lookup_eq_none.mp hk)
    · exact ho c hc x
  | some f =>
    obtain ⟨y,hy,hyc⟩ := f.subtract_spec d
    have hm : k ∈ m := AList.lookup_isSome.mp (hk ▸ rfl)
    refine ⟨m.insert k y,congrArg (· >>= fun domain => pure (m.insert k domain)) hy,fun c => ?_,fun c x => ?_⟩
    · rw [AList.mem_insert]
      exact or_iff_right_of_imp fun hc => hc ▸ hm
    · by_cases hc : c = k
      · subst hc
        rw [ColumnDomains.column_insert_self,ColumnDomains.column_of_lookup hk]
        simp [hyc,hm]
      · rw [ColumnDomains.column_insert_ne m hc]
        exact (and_iff_left (ho c hc x)).symm

theorem foldlM_putDifference_spec (entries : List (Sigma fun c => Domain (ty c))) (m : ColumnDomains ty) :
    ∃ n, entries.foldlM putDifference m = .ok n ∧
      ∀ c x, x ∈ n.column c ↔ x ∈ m.column c ∧ (c ∈ m → ∀ d, ⟨c,d⟩ ∈ entries → ¬ d.Admits x) := by
  induction entries generalizing m with
  | nil => exact ⟨m,rfl,fun c x => by simp⟩
  | cons e rest ih =>
    obtain ⟨k,hk,hky,hkc⟩ := putDifference_spec m e
    obtain ⟨n,hn,hnc⟩ := ih k
    refine ⟨n,by rw [List.foldlM_cons,hk]; exact hn,fun c x => ?_⟩
    rw [hnc,hkc,hky]
    simp only [List.mem_cons,or_imp,forall_and,and_assoc]

/-- The column is neither unconstrained nor a column of the empty tuple set. -/
def Constrains (a : TupleDomain ty) (c : T) : Prop := ∃ m ∈ a.domains, c ∈ m

/-- There is nothing to keep, or the subtrahend is not NONE and cuts off a part of a column that both
constrain only if it cuts no other column. -/
def OneColumn (a b : TupleDomain ty) : Prop :=
  (∀ row, a.includesRow row = false) ∨ b.isNone = false ∧ ∀ c, a.Constrains c ∧ b.Constrains c → ∀ v,
    a.includesAt c v = true → b.includesAt c v = true → ∀ d ≠ c, ∀ w, a.includesAt d w = true → b.includesAt d w = true

/-- Subtracting never throws, and it keeps the rows of the minuend that are not rows of the subtrahend
exactly if one column decides. -/
theorem subtract_keeps_iff (a b : TupleDomain ty) : ∃ x, a.subtract b = .ok x ∧
    ((∀ row, a.includesRow row = true → b.includesRow row = false → x.includesRow row = true) ↔ OneColumn a b) := by
  unfold subtract OneColumn
  simp only [← Bool.not_eq_true,includesRow_iff,includesAt_iff]
  cases ha : a.domains with
  | none =>
    have he : a.tuples = ∅ := tuples_of_isNone (by rw [isNone,ha]; rfl)
    exact ⟨none,rfl,iff_of_true (by simp [he]) (by simp [he])⟩
  | some m =>
    cases hb : b.domains with
    | none =>
      refine ⟨none,rfl,?_⟩
      simp [isNone,hb,tuples_of_isNone (a := b) (by rw [isNone,hb]; rfl),tuples_of_isNone (a := none) rfl]
    | some n =>
      obtain ⟨out,ho,hc⟩ := foldlM_putDifference_spec n.entries m
      refine ⟨withColumnDomains out,by simp only [ho]; rfl,?_⟩
      have hr := forall_rows_iff (fun c (v : Option (ty c).Value) => v.map point ∈ m.column c)
        (fun c v => v.map point ∈ n.column c) fun c => c ∈ m ∧ c ∈ n
      have hct : ∀ c x, (c ∈ m → ∀ d, ⟨c,d⟩ ∈ n.entries → ¬ d.Admits x) ↔ (c ∈ m ∧ c ∈ n → x ∉ n.column c) := by
        intro c x
        simp only [← AList.mem_lookup_iff]
        cases hn : n.lookup c with
        | none => simp [AList.lookup_eq_none.mp hn]
        | some d =>
          have hm : c ∈ n := AList.lookup_isSome.mp (by rw [hn]; rfl)
          simp [ColumnDomains.column_of_lookup hn,hm]
      simp only [tuples_of_domains ha,tuples_of_domains hb,tuples_withColumnDomains,Set.mem_univ_pi,hc,hct]
      refine (forall_congr' fun row => ?_).trans (hr.trans ?_)
      · exact imp_congr_right fun hp => imp_congr_right fun _ => forall_and.trans (and_iff_right hp)
      · simp [AdmitsAt,Constrains,isNone,ha,hb]

/-- The guard of the source returns NONE also where nothing is to be taken away. -/
theorem all_subtract_none_drops_row : ∃ x, (all : TupleDomain fun _ : Unit => orderable Int).subtract none = .ok x ∧
    ∃ row, all.includesRow row = true ∧ none.includesRow row = false ∧ x.includesRow row = false :=
  ⟨none,rfl,fun _ => some 0,rfl,rfl,rfl⟩

end TupleDomain
end HetuCore.Predicate
