import HetuCore.HeuristicIndex.ForwardIndex

namespace HetuCore.HeuristicIndex
open Foundation HetuCore.Relation IndexKind List
variable {S : Signature}

namespace BloomFilter

theorem mem_bitSet_addHash (filter : BloomFilter) (hash64 : BitVec 64) (position : Nat) :
    position ∈ (filter.addHash hash64).bitSet ↔ position ∈ filter.bitSet ∨ position ∈ filter.positions hash64 := by
  rw [addHash,Finset.mem_union,mem_toFinset]

end BloomFilter

section
variable {M : ObjectModel S} {c : M.Class}

/-- The bounds are the least and the greatest of the keys. -/
structure MinMaxIndex.Bounds (index : MinMaxIndex M c) (keys : List (M.Object c)) : Prop where
  empty : index.bounds = none ↔ keys = []
  min : ∀ min max, index.bounds = some (min,max) → min ∈ keys ∧ ∀ k ∈ keys, M.rank min ≤ M.rank k
  max : ∀ min max, index.bounds = some (min,max) → max ∈ keys ∧ ∀ k ∈ keys, M.rank k ≤ M.rank max

theorem MinMaxIndex.bounds_addValue {index : MinMaxIndex M c} {keys : List (M.Object c)} (h : index.Bounds keys)
    (value : M.Object c) : (index.addValue value).Bounds (keys ++ [value]) := by
  rw [addValue]
  cases hb : index.bounds with
  | none =>
    obtain rfl := h.empty.mp hb
    refine ⟨by simp,?_,?_⟩
    · rintro min max ⟨⟩
      simp
    · rintro min max ⟨⟩
      simp
  | some bounds =>
    obtain ⟨min,max⟩ := bounds
    obtain ⟨hm,hl⟩ := h.min min max hb
    obtain ⟨hmx,hg⟩ := h.max min max hb
    refine ⟨by simp,?_,?_⟩
    · rintro _ _ ⟨⟩
      split
      · rename_i hlt
        exact ⟨by simp,forall_mem_concat.mpr ⟨fun k hk => hlt.le.trans (hl k hk),le_rfl⟩⟩
      · rename_i hlt
        exact ⟨by simp [hm],forall_mem_concat.mpr ⟨hl,not_lt.mp hlt⟩⟩
    · rintro _ _ ⟨⟩
      split
      · rename_i hlt
        exact ⟨by simp,forall_mem_concat.mpr ⟨fun k hk => (hg k hk).trans hlt.le,le_rfl⟩⟩
      · rename_i hlt
        exact ⟨by simp [hmx],forall_mem_concat.mpr ⟨hg,not_lt.mp hlt⟩⟩

theorem MinMaxIndex.bounds_addValues (values : List (Option (M.Object c))) :
    (addValues values).Bounds (values.filterMap id) := by
  rw [addValues]
  induction values using reverseRecOn with
  | nil => exact ⟨by simp,by simp,by simp⟩
  | append_singleton values value ih =>
    rw [foldl_append,filterMap_append]
    cases value with
    | none => simpa using ih
    | some value => exact bounds_addValue ih value

theorem BloomIndex.mem_addValues (config : BloomConfig) (values : List (Option (M.Object c))) :
    (∀ hash64, (addValues config values).positions hash64 = BloomFilter.positions ⟨config.numHashFunctions,config.numBits,∅⟩ hash64) ∧
    ∀ position, position ∈ (addValues config values).bitSet ↔ ∃ k ∈ values.filterMap id,
      position ∈ BloomFilter.positions ⟨config.numHashFunctions,config.numBits,∅⟩ (config.hash64 (M.text k)) := by
  rw [addValues]
  induction values using reverseRecOn with
  | nil => exact ⟨fun _ => rfl,by simp⟩
  | append_singleton values value ih =>
    obtain ⟨hp,hm⟩ := ih
    rw [foldl_append,filterMap_append]
    cases value with
    | none => exact ⟨by simpa using hp,by simpa using hm⟩
    | some value =>
      refine ⟨hp,fun position => (BloomFilter.mem_bitSet_addHash ..).trans ?_⟩
      rw [hm,hp]
      simp [or_and_right,exists_or]

end

/-- The bits of an entry of a bloom filter. -/
def BloomConfig.positions (config : BloomConfig) (entry : String) : List Nat :=
  BloomFilter.positions ⟨config.numHashFunctions,config.numBits,∅⟩ (config.hash64 entry)

/-- The operators for which an index looks at the value. -/
def IndexKind.Reads : IndexKind → ComparisonOperator → Prop
  | .minMax, .notEqual => False
  | .minMax, .isDistinctFrom => False
  | .minMax, _ => True
  | .bloom, .equal => True
  | .bloom, _ => False

/-- The functions for which an index takes the value from the call. -/
def IndexKind.Extracts : IndexKind → Callee → Prop
  | _, .other .external => False
  | .minMax, .other .builtIn => False
  | _, _ => True

section
variable (config : BloomConfig) {M : ObjectModel S} {c : M.Class} (kind : IndexKind) (keys : List (M.Object c))

/-- The index of a stripe with these keys cannot exclude the comparison with a value: for bounds, the
keys reach to the required side of the value; for a bloom filter, every bit of the value is one of a key. -/
def Admits (op : ComparisonOperator) (value : M.AnyObject) : Prop :=
  match kind, op with
  | .minMax, .equal => ∃ o, value = ⟨c,o⟩ ∧ (∃ k ∈ keys, M.rank k ≤ M.rank o) ∧ ∃ k ∈ keys, M.rank o ≤ M.rank k
  | .minMax, .lessThan => ∃ o, value = ⟨c,o⟩ ∧ ∃ k ∈ keys, M.rank k < M.rank o
  | .minMax, .lessThanOrEqual => ∃ o, value = ⟨c,o⟩ ∧ ∃ k ∈ keys, M.rank k ≤ M.rank o
  | .minMax, .greaterThan => ∃ o, value = ⟨c,o⟩ ∧ ∃ k ∈ keys, M.rank o < M.rank k
  | .minMax, .greaterThanOrEqual => ∃ o, value = ⟨c,o⟩ ∧ ∃ k ∈ keys, M.rank o ≤ M.rank k
  | .bloom, .equal => ∀ position ∈ config.positions (M.text value.2), ∃ k ∈ keys, position ∈ config.positions (M.text k)
  | _, _ => True

/-- The value cannot be compared with the bounds of these keys. -/
def Incomparable (value : M.AnyObject) : Prop :=
  kind = .minMax ∧ (keys = [] ∨ value.1 ≠ c)

/-- Asking the index throws: the value cannot be taken from the call, is NULL, or cannot be compared. -/
def Throws (callee : Callee) {t : SqlType S.Base} (right : RowExpression S t) : Prop :=
  (kind.Extracts callee ∧ ∃ exception, M.extractValueFromRowExpression right = .error (.thrown exception)) ∨
  ∃ op, callee = .comparison op ∧ kind.Reads op ∧
    (M.extractValueFromRowExpression right = .ok none ∨
      ∃ value, M.extractValueFromRowExpression right = .ok (some value) ∧ Incomparable kind keys value)

/-- The index excludes the stripe. -/
def Misses (callee : Callee) {t : SqlType S.Base} (right : RowExpression S t) : Prop :=
  ∃ op value, callee = .comparison op ∧ kind.Reads op ∧
    M.extractValueFromRowExpression right = .ok (some value) ∧ ¬ Incomparable kind keys value ∧
    ¬ Admits config kind keys op value

def ForwardIndex.build (values : List (Option (M.Object c))) : ForwardIndex M c :=
  match kind with
  | .minMax => .minMax (.addValues values)
  | .bloom => .bloom (BloomIndex.addValues config values)

variable {index : MinMaxIndex M c} {keys : List (M.Object c)} {op : ComparisonOperator} {t : SqlType S.Base}

variable {value : M.AnyObject}

theorem MinMaxIndex.test_incomparable (h : index.Bounds keys) (hr : minMax.Reads op) (hv : Incomparable .minMax keys value) :
    ∃ exception, index.test op (some value) = .error (.thrown exception) := by
  obtain ⟨v,o⟩ := value
  obtain ⟨-,hv⟩ := hv
  cases hb : index.bounds with
  | none => cases op <;> first | exact hr.elim | exact ⟨_,by rw [test,hb]; rfl⟩
  | some bounds =>
    have hc : v ≠ c := hv.resolve_left (mt h.empty.mpr (by rw [hb]; simp))
    have hcs : ∀ other, M.compareTo ⟨v,o⟩ (some other : Option (M.Object c)) = .error (.thrown "ClassCastException") :=
      fun other => dif_neg hc
    cases op <;> first | exact hr.elim | exact ⟨_,by rw [test,hb]; simp only [Option.map_some,hcs]; rfl⟩

theorem MinMaxIndex.test_comparable (h : index.Bounds keys) (hrd : minMax.Reads op) (hv : ¬ Incomparable .minMax keys value) :
    ∃ admitted, index.test op (some value) = .ok admitted ∧
      (admitted = true ↔ Admits config .minMax keys op value) := by
  obtain ⟨v,o⟩ := value
  have hky : keys ≠ [] := fun hky => hv ⟨rfl,.inl hky⟩
  obtain rfl := by_contra fun hcl => hv ⟨rfl,.inr hcl⟩
  obtain ⟨⟨min,max⟩,hb⟩ := Option.ne_none_iff_exists'.mp (mt h.empty.mp hky)
  obtain ⟨hm,hl⟩ := h.min min max hb
  obtain ⟨hmx,hg⟩ := h.max min max hb
  have hc : ∀ other, M.compareTo ⟨v,o⟩ (some other : Option (M.Object v)) = .ok (compare (M.rank o) (M.rank other)) :=
    fun other => dif_pos rfl
  have hlt : ∀ r, (∃ k ∈ keys, M.rank k < r) ↔ M.rank min < r := fun r =>
    ⟨fun ⟨k,hk,hr⟩ => (hl k hk).trans_lt hr,fun hr => ⟨min,hm,hr⟩⟩
  have hle : ∀ r, (∃ k ∈ keys, M.rank k ≤ r) ↔ M.rank min ≤ r := fun r =>
    ⟨fun ⟨k,hk,hr⟩ => (hl k hk).trans hr,fun hr => ⟨min,hm,hr⟩⟩
  have hgt : ∀ r, (∃ k ∈ keys, r < M.rank k) ↔ r < M.rank max := fun r =>
    ⟨fun ⟨k,hk,hr⟩ => hr.trans_le (hg k hk),fun hr => ⟨max,hmx,hr⟩⟩
  have hge : ∀ r, (∃ k ∈ keys, r ≤ M.rank k) ↔ r ≤ M.rank max := fun r =>
    ⟨fun ⟨k,hk,hr⟩ => hr.trans (hg k hk),fun hr => ⟨max,hmx,hr⟩⟩
  have hv : ∀ p : M.Object v → Prop, (∃ o', (⟨v,o⟩ : M.AnyObject) = ⟨v,o'⟩ ∧ p o') ↔ p o := fun p => by simp
  rw [test.eq_def,hb]
  simp only [Option.map_some,hc]
  cases op with
  | equal =>
    rw [Admits,hv,hle,hge]
    by_cases hm : M.rank o < M.rank min
    · refine ⟨false,?_,iff_of_false Bool.false_ne_true fun h => absurd hm (not_lt.mpr h.1)⟩
      simp [compare_lt_iff_lt.mpr hm,pure,Except.pure,bind,Except.bind]
    · refine ⟨compare (M.rank o) (M.rank max) != .gt,?_,?_⟩
      · simp [compare_lt_iff_lt,hm,pure,Except.pure,bind,Except.bind]
      · simp [compare_gt_iff_gt,not_lt.mp hm]
  | lessThan =>
    rw [Admits,hv,hlt]
    exact ⟨_,rfl,by simp [compare_gt_iff_gt]⟩
  | lessThanOrEqual =>
    rw [Admits,hv,hle]
    exact ⟨_,rfl,by simp [compare_lt_iff_lt]⟩
  | greaterThan =>
    rw [Admits,hv,hgt]
    exact ⟨_,rfl,by simp [compare_lt_iff_lt]⟩
  | greaterThanOrEqual =>
    rw [Admits,hv,hge]
    exact ⟨_,rfl,by simp [compare_gt_iff_gt]⟩
  | notEqual | isDistinctFrom => exact hrd.elim

/-- The outcomes of asking an index: it throws, it excludes the stripe, or it keeps it. -/
def Verdict (throws misses : Prop) : Except Failure Bool → Prop
  | .error (.thrown _) => throws
  | .ok false => ¬ throws ∧ misses
  | .ok true => ¬ throws ∧ ¬ misses
  | .error .unsupported => ¬ throws ∧ ¬ misses

theorem MinMaxIndex.matches_verdict (h : index.Bounds keys) (callee : Callee) (right : RowExpression S t) :
    Verdict (Throws .minMax keys callee right) (Misses config .minMax keys callee right) (index.matches callee right) := by
  cases hr : M.extractValueFromRowExpression right with
  | error failure =>
    cases callee with
    | other handle => cases handle <;> cases failure <;> simp [MinMaxIndex.matches,Verdict,Throws,Misses,Extracts,hr,bind,Except.bind]
    | comparison op => cases failure <;> simp [MinMaxIndex.matches,Verdict,Throws,Misses,Extracts,hr,bind,Except.bind]
  | ok value =>
    cases callee with
    | other handle => cases handle <;> simp [MinMaxIndex.matches,Verdict,Throws,Misses,Extracts,hr,bind,Except.bind]
    | comparison op =>
      have ht : index.matches (.comparison op) right = index.test op value := by
        rw [MinMaxIndex.matches,hr]
        rfl
      rw [ht]
      by_cases hrd : minMax.Reads op
      · cases value with
        | none =>
          have hn : ∃ exception, index.test op none = .error (.thrown exception) := by
            cases op <;> first | exact hrd.elim | exact ⟨_,rfl⟩
          obtain ⟨exception,hn⟩ := hn
          rw [hn]
          exact .inr ⟨op,rfl,hrd,.inl hr⟩
        | some value =>
          by_cases hv : Incomparable .minMax keys value
          · obtain ⟨exception,hn⟩ := test_incomparable h hrd hv
            rw [hn]
            exact .inr ⟨op,rfl,hrd,.inr ⟨value,hr,hv⟩⟩
          · obtain ⟨admitted,ha,had⟩ := test_comparable config h hrd hv
            rw [ha]
            cases admitted <;> simpa [Verdict,Throws,Misses,hr,hrd,hv] using had
      · cases op <;> first | exact absurd trivial hrd | simp [test,Verdict,Throws,Misses,hr,hrd]

variable (values : List (Option (M.Object c)))

theorem BloomIndex.testHash_iff (entry : String) : (addValues config values).testHash (config.hash64 entry) = true ↔
      ∀ position ∈ config.positions entry, ∃ k ∈ values.filterMap id, position ∈ config.positions (M.text k) := by
  obtain ⟨hp,hm⟩ := mem_addValues config values
  rw [BloomFilter.testHash,all_eq_true,hp]
  exact forall_congr' fun position => imp_congr_right fun _ => decide_eq_true_iff.trans (hm position)

theorem BloomIndex.matches_verdict (callee : Callee) (right : RowExpression S t) :
    Verdict (Throws .bloom (values.filterMap id) callee right) (Misses config .bloom (values.filterMap id) callee right)
      (BloomIndex.matches config M (addValues config values) callee right) := by
  have hc : ∀ (keys : List (M.Object c)) value, ¬ Incomparable .bloom keys value := fun _ _ h => absurd h.1 (by decide)
  cases hr : M.extractValueFromRowExpression right with
  | error failure =>
    cases callee with
    | other handle => cases handle <;> cases failure <;> simp [BloomIndex.matches,Verdict,Throws,Misses,Extracts,hr,bind,Except.bind]
    | comparison op => cases failure <;> simp [BloomIndex.matches,Verdict,Throws,Misses,Extracts,hr,bind,Except.bind]
  | ok value =>
    cases callee with
    | other handle => cases handle <;> simp [BloomIndex.matches,Verdict,Throws,Misses,Extracts,hr,bind,Except.bind]
    | comparison op =>
      by_cases he : op = .equal
      · subst he
        cases value with
        | none => simp [BloomIndex.matches,Verdict,Throws,Reads,hr,bind,Except.bind]
        | some value =>
          have ha := testHash_iff config values (M.text value.2)
          simp only [BloomIndex.matches,hr,bind,Except.bind,if_pos]
          cases ht : (addValues config values).testHash (config.hash64 (M.text value.2))
            <;> rw [ht] at ha
            <;> simpa [Verdict,Throws,Misses,Reads,Admits,hr,hc] using ha
      · have hrd : ¬ bloom.Reads op := by
          cases op <;> first | exact absurd rfl he | exact not_false
        simp [BloomIndex.matches,Verdict,Throws,Misses,hr,hrd,he,bind,Except.bind]

theorem ForwardIndex.matches_build (kind : IndexKind) (values : List (Option (M.Object c))) (callee : Callee)
    (right : RowExpression S t) :
    Verdict (Throws kind (values.filterMap id) callee right) (Misses config kind (values.filterMap id) callee right)
      ((build config kind values).matches config callee right) := by
  cases kind with
  | minMax => exact MinMaxIndex.matches_verdict config (MinMaxIndex.bounds_addValues values) callee right
  | bloom => exact BloomIndex.matches_verdict config values callee right

end
end HetuCore.HeuristicIndex
