import HetuCore.Predicate.TupleDomainLaws

namespace HetuCore.Predicate
open ColumnType ColumnDomains List Function
variable {T : Type} [DecidableEq T] {ty : T → ColumnType}
namespace TupleDomain

theorem mem_retainAll (columns : Finset T) (l : List (TupleDomain ty)) (c : T) :
    c ∈ retainAll columns l ↔ c ∈ columns ∧ ∀ a ∈ l, ∀ m ∈ a.domains, c ∈ m := by
  induction l generalizing columns with
  | nil => simp [retainAll]
  | cons a rest ih =>
    unfold retainAll
    cases ha : a.domains with
    | none => simp [ih,ha]
    | some m => simp [ih,ha,AList.mem_keys,and_assoc]

variable {l : List (TupleDomain ty)} {columns : Finset T} {g : DomainsByColumn ty} {P : (c : T) → Domain (ty c) → Prop}

/-- Nothing is found exactly when every operand is NONE. -/
theorem commonColumns_eq_none (h : commonColumns l = .none) : ∀ a ∈ l, a.isNone = true := by
  induction l with
  | nil => simp
  | cons a rest ih =>
    unfold commonColumns at h
    cases ha : a.domains with
    | none =>
      rw [ha] at h
      intro b hb
      rcases mem_cons.mp hb with rfl | hb
      · rw [isNone,ha]
        rfl
      · exact ih h b hb
    | some m => simp [ha] at h

/-- The common columns are those of every operand that is not NONE, and there is one. -/
theorem commonColumns_eq_some (h : commonColumns l = some columns) :
    (∃ a ∈ l, a.isNone = false) ∧ ∀ c, c ∈ columns ↔ ∀ a ∈ l, ∀ m ∈ a.domains, c ∈ m := by
  induction l with
  | nil => cases h
  | cons a rest ih =>
    unfold commonColumns at h
    cases ha : a.domains with
    | none =>
      rw [ha] at h
      obtain ⟨⟨b,hb,hbn⟩,hc⟩ := ih h
      exact ⟨⟨b,mem_cons_of_mem a hb,hbn⟩,fun c => by simp [hc,ha]⟩
    | some m =>
      rw [ha] at h
      cases h
      refine ⟨⟨a,mem_cons_self,by rw [isNone,ha]; rfl⟩,fun c => ?_⟩
      rw [mem_retainAll]
      simp [ha,AList.mem_keys]

/-- The domains collected for a column, and that no collected list is empty. -/
structure Grouped (columns : Finset T) (g : DomainsByColumn ty) (P : (c : T) → Domain (ty c) → Prop) : Prop where
  mem : ∀ c d, d ∈ (g.lookup c).getD [] ↔ c ∈ columns ∧ P c d
  nonempty : ∀ c l, g.lookup c = some l → l ≠ []

theorem Grouped.addDomain (h : Grouped columns g P) (e : Sigma fun c => Domain (ty c)) :
    Grouped columns (addDomain columns g e) (fun c d => P c d ∨ ⟨c,d⟩ = e) := by
  obtain ⟨k,f⟩ := e
  unfold TupleDomain.addDomain
  split
  · constructor
    · intro c d
      by_cases hc : c = k
      · obtain rfl := hc
        rw [AList.lookup_insert,Option.getD_some,mem_append,h.mem,mem_singleton]
        simp only [Sigma.mk.injEq,heq_eq_eq]
        tauto
      · rw [AList.lookup_insert_ne hc,h.mem]
        simp [hc]
    · intro c l hl
      by_cases hc : c = k
      · obtain rfl := hc
        rw [AList.lookup_insert] at hl
        cases hl
        simp
      · rw [AList.lookup_insert_ne hc] at hl
        exact h.nonempty c l hl
  · rename_i hk
    refine ⟨fun c d => ?_,h.nonempty⟩
    rw [h.mem]
    refine and_congr_right fun hc => (or_iff_left ?_).symm
    intro hcd
    exact hk (congrArg Sigma.fst hcd ▸ hc)

theorem Grouped.addEntries (entries : List (Sigma fun c => Domain (ty c))) (h : Grouped columns g P) :
    Grouped columns (entries.foldl (TupleDomain.addDomain columns) g) (fun c d => P c d ∨ ⟨c,d⟩ ∈ entries) := by
  induction entries generalizing g P with
  | nil => simpa using h
  | cons e rest ih => simpa [or_assoc] using ih (h.addDomain e)

/-- Grouping collects, for every common column, the domains of all operands. -/
theorem Grouped.addAll (l : List (TupleDomain ty)) (h : Grouped columns g P) :
    Grouped columns (l.foldl (addDomains columns) g) (fun c d => P c d ∨ ∃ a ∈ l, ∃ m ∈ a.domains, d ∈ m.lookup c) := by
  induction l generalizing g P with
  | nil => simpa using h
  | cons a rest ih =>
    have hs : Grouped columns (addDomains columns g a) (fun c d => P c d ∨ ∃ m ∈ a.domains, d ∈ m.lookup c) := by
      unfold addDomains
      cases ha : a.domains with
      | none => simpa using h
      | some m => simpa [← AList.mem_lookup_iff] using h.addEntries m.entries
    simpa [or_assoc] using ih hs

theorem foldlM_putUnion_spec (entries : List (Sigma fun c => List (Domain (ty c)))) (hnd : entries.NodupKeys)
    (hne : ∀ e ∈ entries, e.2 ≠ []) (acc : ColumnDomains ty) : ∃ out, entries.foldlM putUnion acc = .ok out ∧
      (∀ c l, ⟨c,l⟩ ∈ entries → ∃ d, out.lookup c = some d ∧ ∀ x, d.Admits x ↔ ∃ e ∈ l, e.Admits x) ∧
      ∀ c, c ∉ entries.keys → out.lookup c = acc.lookup c := by
  induction entries generalizing acc with
  | nil => exact ⟨acc,rfl,by simp,by simp⟩
  | cons e rest ih =>
    obtain ⟨k,l⟩ := e
    obtain ⟨hk,hr⟩ := nodupKeys_cons.mp hnd
    obtain ⟨d,hd,hdc⟩ := Domain.unionAll_spec (hne ⟨k,l⟩ mem_cons_self)
    obtain ⟨out,ho,hm,hn⟩ := ih hr (fun e he => hne e (mem_cons_of_mem _ he)) (acc.insert k d)
    refine ⟨out,?_,?_,?_⟩
    · rw [foldlM_cons,putUnion,hd]
      exact ho
    · intro c l' hl'
      rcases mem_cons.mp hl' with heq | hl'
      · obtain ⟨rfl,hll⟩ := Sigma.mk.inj_iff.mp heq
        obtain rfl := eq_of_heq hll
        exact ⟨d,by rw [hn c hk,AList.lookup_insert],hdc⟩
      · exact hm c l' hl'
    · intro c hc
      rw [keys_cons,mem_cons,not_or] at hc
      rw [hn c hc.2,AList.lookup_insert_ne hc.1]

variable (a : TupleDomain ty)

theorem mem_tuples_iff (t : (c : T) → Option (ty c).Point) :
    t ∈ a.tuples ↔ a.isNone = false ∧ ∀ c, a.AdmitsAt c (t c) := by
  cases ha : a.domains with
  | none => simp [tuples,isNone,ha]
  | some m => simp [tuples,isNone,ha,AdmitsAt]

/-- A column all operands constrain is unioned; one that some operand leaves free is free. -/
private theorem column_union {out : ColumnDomains ty} (hcl : commonColumns l = some columns)
    (hg : Grouped columns g (fun c d => ∃ a ∈ l, ∃ m ∈ a.domains, d ∈ m.lookup c))
    (ho : ∀ c l, ⟨c,l⟩ ∈ g.entries → ∃ d, out.lookup c = some d ∧ ∀ x, d.Admits x ↔ ∃ e ∈ l, e.Admits x)
    (hn : ∀ c, c ∉ g.entries.keys → out.lookup c = .none) (c : T) (x : Option (ty c).Point) :
    x ∈ out.column c ↔ ∃ a ∈ l, a.AdmitsAt c x := by
  obtain ⟨⟨b,hb,hbn⟩,hmm⟩ := commonColumns_eq_some hcl
  cases hl : g.lookup c with
  | some ds =>
    obtain ⟨d,hd,hdc⟩ := ho c ds (AList.mem_lookup_iff.mp hl)
    have hgm := hg.mem c
    rw [hl] at hgm
    rw [column_of_lookup hd,Set.mem_ofPred_eq,hdc]
    constructor
    · intro h
      obtain ⟨e,he,hex⟩ := h
      obtain ⟨_,a,ha,m,hm,hme⟩ := (hgm e).mp he
      exact ⟨a,ha,m,hm,(column_of_lookup hme).symm ▸ hex⟩
    · intro h
      obtain ⟨a,ha,m,hm,hx⟩ := h
      obtain ⟨f,hf⟩ := exists_mem_of_ne_nil _ (hg.nonempty c ds hl)
      have hc := (hmm c).mp ((hgm f).mp hf).1 a ha m hm
      obtain ⟨e,he⟩ := Option.isSome_iff_exists.mp (AList.lookup_isSome.mpr hc)
      exact ⟨e,(hgm e).mpr ⟨((hgm f).mp hf).1,a,ha,m,hm,he⟩,hx e he⟩
  | none =>
    have hfr : ∀ m ∈ b.domains, c ∈ columns → m.lookup c = .none := by
      intro m hm hc
      by_contra hne
      obtain ⟨d,hd⟩ := Option.ne_none_iff_exists'.mp hne
      have hd' := (hg.mem c d).mpr ⟨hc,b,hb,m,hm,hd⟩
      rw [hl] at hd'
      cases hd'
    rw [column_of_notMem (hn c (AList.lookup_eq_none.mp hl))]
    refine ⟨fun _ => ?_,fun _ => Set.mem_univ x⟩
    by_contra hno
    have hc : c ∈ columns := (hmm c).mpr fun a ha m hm => by
      by_contra hcm
      refine hno ⟨a,ha,m,hm,?_⟩
      rw [column_of_notMem (AList.lookup_eq_none.mpr hcm)]
      exact Set.mem_univ x
    obtain ⟨m,hm⟩ := Option.isSome_iff_exists.mp (Option.isNone_eq_false_iff.mp hbn)
    refine hno ⟨b,hb,m,hm,?_⟩
    rw [column_of_notMem (hfr m hm hc)]
    exact Set.mem_univ x

/-- The column-wise union succeeds on every nonempty list and admits a tuple exactly
when some operand is not NONE and each column value is admitted by some operand. -/
theorem columnWiseUnion_spec (hne : l ≠ []) : ∃ u, columnWiseUnion l = .ok u ∧
      ∀ t, t ∈ u.tuples ↔ (∃ a ∈ l, a.isNone = false) ∧ ∀ c, ∃ a ∈ l, a.AdmitsAt c (t c) := by
  unfold columnWiseUnion
  split
  · exact absurd rfl hne
  · rename_i a
    exact ⟨a,rfl,fun t => by simp [mem_tuples_iff]⟩
  · cases hc : commonColumns l with
    | none =>
      refine ⟨none,rfl,fun t => ?_⟩
      rw [tuples_of_isNone (a := none) rfl]
      refine ⟨fun h => absurd h (Set.notMem_empty t),fun h => ?_⟩
      obtain ⟨⟨a,ha,hn⟩,_⟩ := h
      rw [commonColumns_eq_none hc a ha] at hn
      cases hn
    | some columns =>
      have hem : Grouped columns (∅ : DomainsByColumn ty) (fun _ _ => False) :=
        ⟨fun c d => by simp,fun c l hl => by simp at hl⟩
      have hg := hem.addAll l
      simp only [false_or] at hg
      obtain ⟨out,ho,hm,hnt⟩ := foldlM_putUnion_spec _ (l.foldl (addDomains columns) ∅).nodupKeys
        (fun e he => hg.nonempty e.1 e.2 (AList.mem_lookup_iff.mpr he)) ∅
      refine ⟨withColumnDomains out,by simp only [ho]; rfl,fun t => ?_⟩
      rw [tuples_withColumnDomains,Set.mem_univ_pi]
      simp only [column_union hc hg hm hnt]
      exact (and_iff_right (commonColumns_eq_some hc).1).symm

variable (b : TupleDomain ty)

theorem columnWiseUnion_pair : ∃ u, columnWiseUnion [a,b] = .ok u ∧ ∀ t, t ∈ u.tuples ↔
      (a.isNone = false ∨ b.isNone = false) ∧ ∀ c, a.AdmitsAt c (t c) ∨ b.AdmitsAt c (t c) := by
  obtain ⟨u,hu,huc⟩ := columnWiseUnion_spec (cons_ne_nil a [b])
  refine ⟨u,hu,fun t => ?_⟩
  rw [huc]
  simp only [mem_cons,not_mem_nil,or_false,exists_eq_or_imp,exists_eq_left]

/-- In a column of a satisfiable tuple domain every admitted value occurs in a tuple. -/
theorem AdmitsAt.mono {a b : TupleDomain ty} (hs : b.tuples ⊆ a.tuples) (hb : b.isNone = false) {c : T}
    {x : Option (ty c).Point} (hx : b.AdmitsAt c x) : a.AdmitsAt c x := by
  have hne : b.tuples ≠ ∅ := fun h => by
    rw [(isNone_iff b).mpr h] at hb
    cases hb
  obtain ⟨t,ht⟩ := Set.nonempty_iff_ne_empty.mpr hne
  have hu : update t c x ∈ b.tuples := by
    refine (mem_tuples_iff b _).mpr ⟨hb,fun k => ?_⟩
    by_cases hk : k = c
    · obtain rfl := hk
      rwa [update_self]
    · rw [update_of_ne hk]
      exact ((mem_tuples_iff b t).mp ht).2 k
  have hc := ((mem_tuples_iff a _).mp (hs hu)).2 c
  rwa [update_self] at hc

/-- Containment through the column-wise union is inclusion of the tuple sets. -/
theorem contains_spec : ∃ r, a.contains b = .ok r ∧ (r = true ↔ b.tuples ⊆ a.tuples) := by
  unfold contains
  by_cases hb : b.isNone = true
  · refine ⟨true,by rw [if_pos hb]; rfl,?_⟩
    simp [tuples_of_isNone hb]
  · obtain ⟨u,hu,huc⟩ := columnWiseUnion_pair a b
    have hbn := Bool.eq_false_of_not_eq_true hb
    refine ⟨u.equals a,by rw [if_neg hb,hu]; rfl,?_⟩
    rw [equals_iff]
    constructor
    · intro h t ht
      rw [← h,huc]
      exact ⟨.inr hbn,fun c => .inr (((mem_tuples_iff b t).mp ht).2 c)⟩
    · intro hs
      apply Set.ext
      intro t
      rw [huc,mem_tuples_iff]
      constructor
      · intro h
        refine ⟨?_,fun c => (h.2 c).elim id (.mono hs hbn)⟩
        by_contra ha
        rw [Bool.not_eq_false] at ha
        rw [tuples_of_isNone ha,Set.subset_empty_iff,← isNone_iff,hbn] at hs
        cases hs
      · intro h
        exact ⟨.inl h.1,fun c => .inl (h.2 c)⟩

/-- Containment, found through the union of the columns, agrees with that through the intersection. -/
theorem contains_iff_intersect_equals :
    ∃ r x, a.contains b = .ok r ∧ a.intersect b = .ok x ∧ (r = true ↔ x.equals b = true) := by
  obtain ⟨r,hr,hc⟩ := contains_spec a b
  obtain ⟨x,hx,ht⟩ := intersect_spec a b
  refine ⟨r,x,hr,hx,?_⟩
  rw [hc,equals_iff,ht,Set.inter_eq_right]

/-- A row of values passes the test exactly when its tuple of exact points is in the set. -/
theorem includesRow_iff (row : (c : T) → Option (ty c).Value) :
    a.includesRow row = true ↔ (fun c => (row c).map point) ∈ a.tuples := by
  unfold includesRow tuples
  cases ha : a.domains with
  | none => simp
  | some m =>
    simp only [all_eq_true,Domain.includesNullableValue_iff,Option.mem_def,Option.some.injEq,
      Set.mem_ofPred_eq,exists_eq_left']
    refine ⟨fun h c d hd => h ⟨c,d⟩ (AList.mem_lookup_iff.mp hd),fun h e he => ?_⟩
    exact h e.1 e.2 (AList.mem_lookup_iff.mpr he)

theorem includesAt_iff (c : T) (v : Option (ty c).Value) : a.includesAt c v = true ↔ a.AdmitsAt c (v.map point) := by
  unfold includesAt AdmitsAt
  cases ha : a.domains with
  | none => simp
  | some m =>
    cases hc : m.lookup c with
    | none => simp [hc,column_of_notMem hc]
    | some d => simp [hc,column_of_lookup hc,Domain.includesNullableValue_iff]

/-- The operations succeed on every pair of tuple domains, act on values and on points as
the operations on tuple sets, and their results are in normal form: NONE exactly when
unsatisfiable, no stored domain none or all, equal exactly when the tuple sets are. -/
theorem tuple_set_operations (a b : TupleDomain ty) : (∃ i, a.intersect b = .ok i ∧ i.tuples = a.tuples ∩ b.tuples ∧
      (∀ row, i.includesRow row = true ↔ a.includesRow row = true ∧ b.includesRow row = true) ∧
      a.overlaps b = .ok (!i.isNone) ∧ (i.isNone = true ↔ i.tuples = ∅) ∧
      ∀ m ∈ i.domains, ∀ e ∈ m.entries, e.2.isNone = false ∧ e.2.isAll = false) ∧
    (∃ u, columnWiseUnion [a,b] = .ok u ∧ a.tuples ∪ b.tuples ⊆ u.tuples ∧
      (∀ row, a.includesRow row = true ∨ b.includesRow row = true → u.includesRow row = true) ∧ (∀ t, t ∈ u.tuples ↔
        (a.isNone = false ∨ b.isNone = false) ∧ ∀ c, a.AdmitsAt c (t c) ∨ b.AdmitsAt c (t c)) ∧
      (∀ row, u.includesRow row = true ↔ (a.isNone = false ∨ b.isNone = false) ∧
        ∀ c, a.includesAt c (row c) = true ∨ b.includesAt c (row c) = true) ∧ (u.isNone = true ↔ u.tuples = ∅) ∧
      ∀ m ∈ u.domains, ∀ e ∈ m.entries, e.2.isNone = false ∧ e.2.isAll = false) ∧
    (∃ r, a.contains b = .ok r ∧ (r = true ↔ b.tuples ⊆ a.tuples)) ∧ (a.equals b = true ↔ a.tuples = b.tuples) := by
  refine ⟨?_,?_,contains_spec a b,equals_iff a b⟩
  · obtain ⟨i,hi,hic⟩ := intersect_spec a b
    refine ⟨i,hi,hic,fun row => ?_,by rw [overlaps,hi]; rfl,isNone_iff i,i.normalized⟩
    simp only [includesRow_iff,hic,Set.mem_inter_iff]
  · obtain ⟨u,hu,huc⟩ := columnWiseUnion_pair a b
    have hs : a.tuples ∪ b.tuples ⊆ u.tuples := by
      intro t ht
      rw [huc]
      rcases ht with ht | ht
      · obtain ⟨hn,hc⟩ := (mem_tuples_iff a t).mp ht
        exact ⟨.inl hn,fun c => .inl (hc c)⟩
      · obtain ⟨hn,hc⟩ := (mem_tuples_iff b t).mp ht
        exact ⟨.inr hn,fun c => .inr (hc c)⟩
    refine ⟨u,hu,hs,fun row h => ?_,huc,fun row => ?_,isNone_iff u,u.normalized⟩
    · simp only [includesRow_iff] at h ⊢
      exact hs h
    · simp only [includesRow_iff,includesAt_iff,huc]

end TupleDomain
end HetuCore.Predicate
