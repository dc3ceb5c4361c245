import HetuCore.Predicate.TupleDomainUnion

namespace HetuCore.Predicate
open ColumnType ColumnDomains List
variable {T : Type} [DecidableEq T] {ty : T → ColumnType}

namespace TupleDomain

theorem tuples_all : (all : TupleDomain ty).tuples = Set.univ := by
  rw [all,tuples_withColumnDomains]
  refine Set.eq_univ_of_forall fun t => Set.mem_univ_pi.mpr fun c => ?_
  rw [column_of_notMem (AList.lookup_empty c)]
  trivial

variable {a : TupleDomain ty}

theorem tuples_of_isAll (h : a.isAll = true) : a.tuples = Set.univ := by
  rw [isAll] at h
  split at h
  case h_1 m hm =>
    rw [tuples_of_domains hm]
    refine Set.eq_univ_of_forall fun t => Set.mem_univ_pi.mpr fun c => ?_
    have hn : m.lookup c = .none := by
      rw [AList.lookup_eq_none,AList.mem_keys,AList.keys,isEmpty_iff.mp h]
      exact not_mem_nil
    rw [column_of_notMem hn]
    trivial
  case h_2 => cases h

theorem tuples_none : (none : TupleDomain ty).tuples = ∅ := tuples_of_isNone rfl

theorem mem_tuples_singleton (c : T) (d : Domain (ty c)) (t : (c : T) → Option (ty c).Point) :
    t ∈ (withColumnDomains (AList.singleton c d)).tuples ↔ d.Admits (t c) := by
  rw [tuples_withColumnDomains,Set.mem_univ_pi]
  have hs : (AList.singleton c d : ColumnDomains ty).lookup c = some d := by
    rw [← AList.insert_empty]
    exact AList.lookup_insert _
  constructor
  · intro h
    have hc := h c
    rwa [column_of_lookup hs] at hc
  · intro h k
    by_cases hk : k = c
    · subst hk
      rwa [column_of_lookup hs]
    · have ho : (AList.singleton c d : ColumnDomains ty).lookup k = .none := by
        exact (AList.lookup_insert_ne hk).trans (AList.lookup_empty k)
      rw [column_of_notMem ho]
      trivial

variable {a b u : TupleDomain ty}

theorem mem_columnWiseUnion (hu : columnWiseUnion [a,b] = .ok u) (t : (c : T) → Option (ty c).Point) : t ∈ u.tuples ↔
      (a.isNone = false ∨ b.isNone = false) ∧ ∀ c, a.AdmitsAt c (t c) ∨ b.AdmitsAt c (t c) := by
  obtain ⟨v,hv,hm⟩ := columnWiseUnion_pair a b
  rw [Except.ok.inj (hu.symm.trans hv)]
  exact hm t

theorem subset_columnWiseUnion (hu : columnWiseUnion [a,b] = .ok u) : a.tuples ∪ b.tuples ⊆ u.tuples := by
  intro t ht
  rw [mem_columnWiseUnion hu]
  rcases ht with ht | ht
  · obtain ⟨hn,hc⟩ := (mem_tuples_iff a t).mp ht
    exact ⟨.inl hn,fun c => .inl (hc c)⟩
  · obtain ⟨hn,hc⟩ := (mem_tuples_iff b t).mp ht
    exact ⟨.inr hn,fun c => .inr (hc c)⟩

private theorem mem_tuples_of_either {b : TupleDomain ty} (h : b.tuples ⊆ a.tuples)
    (hn : a.isNone = false ∨ b.isNone = false) {t : (c : T) → Option (ty c).Point}
    (hc : ∀ c, a.AdmitsAt c (t c) ∨ b.AdmitsAt c (t c)) : t ∈ a.tuples := by
  cases hb : b.isNone with
  | true =>
    refine (mem_tuples_iff a t).mpr ⟨hn.resolve_right fun h => Bool.false_ne_true (h.symm.trans hb),fun c => ?_⟩
    refine (hc c).resolve_right fun ⟨m,hm,_⟩ => ?_
    rw [Option.isNone_iff_eq_none.mp hb] at hm
    cases hm
  | false =>
    refine (mem_tuples_iff a t).mpr ⟨?_,fun c => (hc c).elim id (.mono h hb)⟩
    cases ha : a.isNone with
    | false => rfl
    | true =>
      rw [tuples_of_isNone ha,Set.subset_empty_iff,← isNone_iff,hb] at h
      cases h

theorem columnWiseUnion_of_subset (hu : columnWiseUnion [a,b] = .ok u) (h : b.tuples ⊆ a.tuples ∨ a.tuples ⊆ b.tuples) :
    u.tuples = a.tuples ∪ b.tuples := by
  refine Set.Subset.antisymm (fun t ht => ?_) (subset_columnWiseUnion hu)
  obtain ⟨hn,hc⟩ := (mem_columnWiseUnion hu t).mp ht
  exact h.imp (fun h => mem_tuples_of_either h hn hc) (fun h => mem_tuples_of_either h hn.symm fun c => (hc c).symm)

/-- If both operands constrain the same single column, the column-wise union is the union. -/
theorem columnWiseUnion_of_single (hu : columnWiseUnion [a,b] = .ok u) {m n : ColumnDomains ty} (ha : a.domains = some m)
    (hb : b.domains = some n) {c : T} (hm : m.keys = [c]) (hn : n.keys = [c]) : u.tuples = a.tuples ∪ b.tuples := by
  have hf : ∀ {d : TupleDomain ty} {k : ColumnDomains ty}, d.domains = some k → k.keys = [c] →
      ∀ {t : (c : T) → Option (ty c).Point}, d.AdmitsAt c (t c) → t ∈ d.tuples := by
    intro d k hd hk t ht
    refine (mem_tuples_iff d t).mpr ⟨by rw [isNone,hd]; rfl,fun e => ?_⟩
    by_cases he : e = c
    · rw [he]
      exact ht
    · refine ⟨k,hd,?_⟩
      have hnt : k.lookup e = .none := by
        rw [AList.lookup_eq_none,AList.mem_keys,hk,mem_singleton]
        exact he
      rw [column_of_notMem hnt]
      trivial
  refine Set.Subset.antisymm (fun t ht => ?_) (subset_columnWiseUnion hu)
  exact (((mem_columnWiseUnion hu t).mp ht).2 c).imp (hf ha hm) (hf hb hn)

/-- A proper tuple set that only depends on one column stores a domain for that column alone. -/
theorem keys_of_dependent {c : T}
    (hdp : ∀ t t' : (c : T) → Option (ty c).Point, t c = t' c → t ∈ a.tuples → t' ∈ a.tuples)
    (hne : a.tuples ≠ ∅) (hal : a.tuples ≠ Set.univ) : ∃ m, a.domains = some m ∧ m.keys = [c] := by
  obtain ⟨t,ht⟩ := Set.nonempty_iff_ne_empty.mpr hne
  obtain ⟨m,hm,hc⟩ := ht
  refine ⟨m,hm,?_⟩
  have ho : ∀ k ∈ m.keys, k = c := by
    intro k hk
    by_contra hkc
    obtain ⟨d,hd⟩ := Option.isSome_iff_exists.mp (AList.lookup_isSome.mpr hk)
    have hnt := (a.normalized m hm _ (AList.mem_lookup_iff.mp hd)).2
    obtain ⟨x,hx⟩ := not_forall.mp fun h => Bool.false_ne_true (hnt.symm.trans ((Domain.isAll_iff d).mpr h))
    obtain ⟨n,hn,hc'⟩ := hdp t (Function.update t k x) (Function.update_of_ne (.symm hkc) x t).symm ⟨m,hm,hc⟩
    obtain rfl := Option.some.inj (hm.symm.trans hn)
    have ha := hc' k d hd
    rw [Function.update_self] at ha
    exact hx ha
  have hs : m.keys ≠ [] := by
    intro hnl
    refine hal (tuples_of_isAll ?_)
    rw [isAll,hm]
    exact isEmpty_iff.mpr (map_eq_nil_iff.mp hnl)
  obtain ⟨k,hk⟩ := exists_mem_of_ne_nil _ hs
  obtain rfl := ho k hk
  exact perm_singleton.mp ((perm_ext_iff_of_nodup m.nodupKeys (nodup_singleton k)).mpr fun j =>
    ⟨fun hj => mem_singleton.mpr (ho j hj),fun hj => (mem_singleton.mp hj) ▸ hk⟩)

end TupleDomain
end HetuCore.Predicate
