import HetuCore.Predicate.TupleDomain

namespace HetuCore.Predicate
open ColumnType ColumnDomains List
variable {T : Type} [DecidableEq T] {ty : T → ColumnType}

namespace ColumnDomains

variable {m : ColumnDomains ty} {c : T}

theorem column_of_lookup {d : Domain (ty c)} (h : m.lookup c = some d) : m.column c = {x | d.Admits x} := by
  apply Set.ext
  intro x
  refine ⟨fun hx => hx d h,fun hx e he => ?_⟩
  obtain rfl := Option.some.inj (h.symm.trans he)
  exact hx

theorem column_of_notMem (h : m.lookup c = none) : m.column c = Set.univ := by
  apply Set.eq_univ_of_forall
  intro x d hd
  rw [h] at hd
  cases hd

variable (m : ColumnDomains ty)

theorem column_insert_self (d : Domain (ty c)) : column (m.insert c d) c = {x | d.Admits x} :=
  column_of_lookup (AList.lookup_insert m)

theorem column_insert_ne {k : T} (h : c ≠ k) (d : Domain (ty k)) : column (m.insert k d) c = m.column c := by
  rw [column,column,AList.lookup_insert_ne h]

end ColumnDomains

namespace TupleDomain

variable {a : TupleDomain ty} {m n : ColumnDomains ty}

theorem tuples_of_domains {m : ColumnDomains ty} (h : a.domains = some m) : a.tuples = Set.univ.pi m.column := by
  apply Set.ext
  intro t
  rw [Set.mem_univ_pi]
  refine ⟨fun ht => ?_,fun ht => ⟨m,h,ht⟩⟩
  obtain ⟨n,hn,ht⟩ := ht
  obtain rfl := Option.some.inj (h.symm.trans hn)
  exact ht

theorem tuples_of_isNone (h : a.isNone = true) : a.tuples = ∅ := by
  apply Set.eq_empty_of_forall_notMem
  intro t ht
  obtain ⟨m,hm,_⟩ := ht
  rw [Option.isNone_iff_eq_none.mp h] at hm
  cases hm

theorem tuples_withColumnDomains (m : ColumnDomains ty) : (withColumnDomains m).tuples = Set.univ.pi m.column := by
  by_cases hn : m.containsNoneDomain = true
  · have hd : (withColumnDomains m).domains = .none := by simp [withColumnDomains,new,hn]
    rw [tuples_of_isNone (by rw [isNone,hd]; rfl),eq_comm,Set.univ_pi_eq_empty_iff]
    exact (containsNoneDomain_iff m).mp hn
  · have hd : (withColumnDomains m).domains = some m.normalizeAndCopy := by simp [withColumnDomains,new,hn]
    rw [tuples_of_domains hd]
    exact congrArg _ (funext m.column_normalizeAndCopy)

theorem column_nonempty {m : ColumnDomains ty} (h : a.domains = some m) (c : T) : (m.column c).Nonempty := by
  apply Set.nonempty_iff_ne_empty.mpr
  intro hc
  obtain ⟨e,he,hn⟩ := any_eq_true.mp ((containsNoneDomain_iff m).mpr ⟨c,hc⟩)
  exact absurd hn (by rw [(a.normalized m h e he).1]; exact Bool.false_ne_true)

theorem isNone_iff (a : TupleDomain ty) : a.isNone = true ↔ a.tuples = ∅ := by
  refine ⟨tuples_of_isNone,fun h => ?_⟩
  cases hd : a.domains with
  | none => rw [isNone,hd]; rfl
  | some m =>
    rw [tuples_of_domains hd,Set.univ_pi_eq_empty_iff] at h
    obtain ⟨c,hc⟩ := h
    exact absurd hc (column_nonempty hd c).ne_empty

/-- A stored map is determined by its columns. -/
theorem lookup_of_column {a b : TupleDomain ty} (ha : a.domains = some m) (hb : b.domains = some n) {c : T}
    (h : m.column c = n.column c) : m.lookup c = n.lookup c := by
  have hal : ∀ {a : TupleDomain ty} {m : ColumnDomains ty}, a.domains = some m → ∀ d, m.lookup c = some d →
      m.column c ≠ Set.univ := by
    intro a m ha d hd hu
    rw [column_of_lookup hd] at hu
    have hda := (Domain.isAll_iff d).mpr (Set.eq_univ_iff_forall.mp hu)
    rw [(a.normalized m ha ⟨c,d⟩ (AList.mem_lookup_iff.mp hd)).2] at hda
    cases hda
  cases hm : m.lookup c with
  | none =>
    cases hn : n.lookup c with
    | none => rfl
    | some e => exact absurd (h.symm.trans (column_of_notMem hm)) (hal hb e hn)
  | some d =>
    cases hn : n.lookup c with
    | none => exact absurd (h.trans (column_of_notMem hn)) (hal ha d hm)
    | some e =>
      rw [column_of_lookup hm,column_of_lookup hn] at h
      exact congrArg some (Domain.ext_admits fun x => Set.ext_iff.mp h x)

private theorem entries_length_of_lookup (h : ∀ c, m.lookup c = n.lookup c) : m.entries.length = n.entries.length := by
  have hk : m.keys.Perm n.keys := (perm_ext_iff_of_nodup m.keys_nodup n.keys_nodup).mpr fun c => by
    rw [← AList.mem_keys,← AList.mem_keys,← AList.lookup_isSome,← AList.lookup_isSome,h]
  simpa [AList.keys,keys] using hk.length_eq

theorem equals_of_domains {a b : TupleDomain ty} (ha : a.domains = some m) (hb : b.domains = some n) :
    a.equals b = true ↔ ∀ c, m.lookup c = n.lookup c := by
  simp only [equals,ha,hb,Bool.and_eq_true,beq_iff_eq,all_eq_true]
  constructor
  · intro h
    have hs : ∀ c d, m.lookup c = some d → n.lookup c = some d := by
      intro c d hd
      have hc := h.2 ⟨c,d⟩ (AList.mem_lookup_iff.mp hd)
      split at hc
      · rename_i e he
        rw [he,(Domain.equals_iff d e).mp hc]
      · cases hc
    have hk : m.keys ⊆ n.keys := by
      intro c hc
      obtain ⟨d,hd⟩ := Option.isSome_iff_exists.mp (AList.lookup_isSome.mpr hc)
      exact AList.lookup_isSome.mp (Option.isSome_iff_exists.mpr ⟨d,hs c d hd⟩)
    have hp : m.keys.Perm n.keys := (m.keys_nodup.subperm hk).perm_of_length_le (by
      simp [AList.keys,keys,h.1])
    intro c
    cases hc : m.lookup c with
    | some d => exact (hs c d hc).symm
    | none =>
      have hnt : c ∉ n := fun hn => AList.lookup_eq_none.mp hc (hp.mem_iff.mpr hn)
      exact (AList.lookup_eq_none.mpr hnt).symm
  · intro h
    refine ⟨entries_length_of_lookup h,fun e he => ?_⟩
    rw [← h e.1,show m.lookup e.1 = some e.2 from AList.mem_lookup_iff.mpr he]
    exact (Domain.equals_iff e.2 e.2).mpr rfl

theorem equals_iff (a b : TupleDomain ty) : a.equals b = true ↔ a.tuples = b.tuples := by
  cases ha : a.domains with
  | none =>
    have hn : a.isNone = true := by rw [isNone,ha]; rfl
    cases hb : b.domains with
    | none =>
      have hm : b.isNone = true := by rw [isNone,hb]; rfl
      simp [equals,ha,hb,tuples_of_isNone hn,tuples_of_isNone hm]
    | some n =>
      rw [tuples_of_isNone hn,@eq_comm _ ∅,← isNone_iff]
      simp [equals,ha,hb,isNone]
  | some m =>
    cases hb : b.domains with
    | none =>
      have hm : b.isNone = true := by rw [isNone,hb]; rfl
      rw [tuples_of_isNone hm,← isNone_iff]
      simp [equals,ha,hb,isNone]
    | some n =>
      rw [equals_of_domains ha hb,tuples_of_domains ha,tuples_of_domains hb]
      constructor
      · intro h
        refine congrArg _ (funext fun c => ?_)
        simp only [column,h c]
      · intro h c
        apply lookup_of_column ha hb
        rw [← Set.eval_image_univ_pi (Set.univ_pi_nonempty_iff.mpr (column_nonempty ha)),h]
        exact Set.eval_image_univ_pi (Set.univ_pi_nonempty_iff.mpr (column_nonempty hb))

theorem putIntersection_spec (m : ColumnDomains ty) (e : Sigma fun c => Domain (ty c)) :
    ∃ n, putIntersection m e = .ok n ∧ ∀ c x, x ∈ n.column c ↔ x ∈ m.column c ∧ ∀ d, ⟨c,d⟩ = e → d.Admits x := by
  obtain ⟨k,d⟩ := e
  have ho : ∀ (new : Domain (ty k)) (c : T), c ≠ k → ∀ x, x ∈ column (m.insert k new) c ↔
      x ∈ m.column c ∧ ∀ f, (⟨c,f⟩ : Sigma fun c => Domain (ty c)) = ⟨k,d⟩ → f.Admits x := by
    intro new c hc x
    rw [column_insert_ne m hc]
    exact ⟨fun h => ⟨h,fun f hf => absurd (congrArg Sigma.fst hf) hc⟩,And.left⟩
  unfold putIntersection
  cases hk : m.lookup k with
  | none =>
    refine ⟨m.insert k d,rfl,fun c x => ?_⟩
    by_cases hc : c = k
    · obtain rfl := hc
      rw [column_insert_self,column_of_notMem hk]
      simp
    · exact ho d c hc x
  | some f =>
    obtain ⟨y,hy,hyc⟩ := f.intersect_spec d
    refine ⟨m.insert k y,congrArg (· >>= fun domain => pure (m.insert k domain)) hy,fun c x => ?_⟩
    by_cases hc : c = k
    · obtain rfl := hc
      rw [column_insert_self,column_of_lookup hk]
      simp [hyc]
    · exact ho y c hc x

theorem foldlM_putIntersection_spec (entries : List (Sigma fun c => Domain (ty c))) (m : ColumnDomains ty) :
    ∃ n, entries.foldlM putIntersection m = .ok n ∧
      ∀ c x, x ∈ n.column c ↔ x ∈ m.column c ∧ ∀ d, ⟨c,d⟩ ∈ entries → d.Admits x := by
  induction entries generalizing m with
  | nil => exact ⟨m,rfl,fun c x => by simp⟩
  | cons e rest ih =>
    obtain ⟨k,hk,hkc⟩ := putIntersection_spec m e
    obtain ⟨n,hn,hnc⟩ := ih k
    refine ⟨n,by rw [foldlM_cons,hk]; exact hn,fun c x => ?_⟩
    rw [hnc,hkc]
    simp only [mem_cons,or_imp,forall_and,and_assoc]

theorem intersect_spec (a b : TupleDomain ty) : ∃ x, a.intersect b = .ok x ∧ x.tuples = a.tuples ∩ b.tuples := by
  unfold intersect
  cases ha : a.domains with
  | none =>
    refine ⟨none,rfl,?_⟩
    rw [tuples_of_isNone (a := none) rfl,tuples_of_isNone (a := a) (by rw [isNone,ha]; rfl),Set.empty_inter]
  | some m =>
    cases hb : b.domains with
    | none =>
      refine ⟨none,rfl,?_⟩
      rw [tuples_of_isNone (a := none) rfl,tuples_of_isNone (a := b) (by rw [isNone,hb]; rfl),Set.inter_empty]
    | some n =>
      obtain ⟨out,ho,hc⟩ := foldlM_putIntersection_spec n.entries m
      refine ⟨withColumnDomains out,by simp only [ho]; rfl,?_⟩
      rw [tuples_withColumnDomains,tuples_of_domains ha,tuples_of_domains hb,← Set.pi_inter_distrib]
      refine congrArg _ (funext fun c => Set.ext fun x => ?_)
      rw [hc]
      simp only [← AList.mem_lookup_iff]
      rfl

end TupleDomain
end HetuCore.Predicate
