import HetuCore.HeuristicIndex.BTreeIndex

namespace HetuCore.HeuristicIndex.BTreeIndex
open HetuCore.Relation Foundation List
variable {S : Signature} {M : ObjectModel S} {c : M.Class} {Symbol : Type}

/-- The comparison of two ranks by an operator that the index knows. -/
def RankHolds {R : Type} [LinearOrder R] : ComparisonOperator → R → R → Prop
  | .equal, x, y => x = y
  | .lessThan, x, y => x < y
  | .lessThanOrEqual, x, y => x ≤ y
  | .greaterThan, x, y => y < x
  | .greaterThanOrEqual, x, y => y ≤ x
  | .notEqual, _, _ => False
  | .isDistinctFrom, _, _ => False

/-- The expression is a constant with this object. -/
def Extracts (M : ObjectModel S) (c : M.Class) {t : SqlType S.Base} (e : RowExpression S t) (object : M.Object c) : Prop :=
  M.extractValueFromRowExpression e = .ok (some ⟨c,object⟩)

theorem Extracts.unique {t : SqlType S.Base} {e : RowExpression S t} {a b : M.Object c} (ha : Extracts M c e a)
    (hb : Extracts M c e b) : a = b :=
  eq_of_heq (Sigma.mk.inj (Option.some.inj (Except.ok.inj (ha.symm.trans hb)))).2

/-- The key is one of those that are asked for. -/
def Query.Selects (M : ObjectModel S) {c : M.Class} (query : Query S) (key : M.Object c) : Prop :=
  match query with
  | .call (.comparison operator) right => ∃ o, Extracts M c right o ∧ RankHolds operator (M.rank key) (M.rank o)
  | .call (.other _) _ => False
  | .between low high => ∃ a b, Extracts M c low a ∧ Extracts M c high b ∧ M.rank a ≤ M.rank key ∧ M.rank key ≤ M.rank b
  | .isIn values => ∃ e ∈ values, ∃ o, Extracts M c e o ∧ M.rank key = M.rank o
  | .incomplete => False

/-- The results hold the symbols of the keys with a property. -/
def Finds (index : BTreeIndex M c Symbol) (p : M.Object c → Prop) (results : List (List Symbol)) : Prop :=
  ∀ s, s ∈ results.flatten ↔ ∃ entry ∈ index.dataMap, s ∈ entry.2 ∧ p entry.1

variable {key : Option M.AnyObject} {results : List (List Symbol)} {entry : M.Object c × List Symbol}

theorem comparable_eq_ok {o : M.Object c} (h : comparable c key = .ok o) : key = some ⟨c,o⟩ := by
  cases key with
  | none => cases h
  | some object =>
    rw [comparable] at h
    split at h
    · rename_i hv
      cases hv
      cases h
      rfl
    · cases h

variable {index : BTreeIndex M c Symbol}

theorem Finds.congr {p q : M.Object c → Prop} (h : index.Finds p results)
    (hi : ∀ entry ∈ index.dataMap, p entry.1 ↔ q entry.1) : index.Finds q results := by
  intro s
  rw [h s]
  exact exists_congr fun entry => and_congr_right fun he => and_congr_right fun _ => hi entry he

theorem finds_filter (p : M.Object c × List Symbol → Bool) {q : M.Object c → Prop}
    (hi : ∀ entry ∈ index.dataMap, p entry = true ↔ q entry.1) : index.Finds q ((index.dataMap.filter p).map Prod.snd) := by
  intro s
  simp only [mem_flatten,mem_map,mem_filter]
  constructor
  · rintro ⟨_,⟨entry,⟨he,hp⟩,rfl⟩,hs⟩
    exact ⟨entry,he,hs,(hi entry he).mp hp⟩
  · rintro ⟨entry,he,hs,hq⟩
    exact ⟨_,⟨entry,⟨he,(hi entry he).mpr hq⟩,rfl⟩,hs⟩

theorem get_finds (key : M.Object c) : index.Finds (fun k => M.rank k = M.rank key) (index.get key) :=
  finds_filter _ fun _ _ => decide_eq_true_iff

def InRange (low : M.Object c) (fromInclusive : Bool) (high : M.Object c) (toInclusive : Bool) (key : M.Object c) : Prop :=
  (if fromInclusive then M.rank low ≤ M.rank key else M.rank low < M.rank key) ∧
    if toInclusive then M.rank key ≤ M.rank high else M.rank key < M.rank high

theorem rangeLookUp_finds {low high : M.Object c} {fromInclusive toInclusive : Bool} {values : List (List Symbol)}
    (h : index.rangeLookUp low fromInclusive high toInclusive = .ok values) :
    index.Finds (InRange low fromInclusive high toInclusive) values := by
  rw [rangeLookUp] at h
  split at h
  · rename_i hc
    cases h
    intro s
    refine iff_of_false not_mem_nil ?_
    rintro ⟨entry,-,-,hl,hh⟩
    have hl' : M.rank low ≤ M.rank entry.1 := by
      split at hl
      · exact hl
      · exact hl.le
    have hh' : M.rank entry.1 ≤ M.rank high := by
      split at hh
      · exact hh
      · exact hh.le
    exact absurd hc (not_lt.mpr (hl'.trans hh'))
  · dsimp only at h
    split at h
    · cases h
    · cases h
      refine finds_filter _ fun entry _ => ?_
      cases fromInclusive <;> cases toInclusive <;> simp [InRange,le_iff_lt_or_eq]

theorem firstKey_le {first : M.Object c} (h : index.firstKey = .ok first) (he : entry ∈ index.dataMap) :
    M.rank first ≤ M.rank entry.1 := by
  have ha := index.ascending
  rw [firstKey] at h
  cases hm : index.dataMap with
  | nil => rw [hm] at he; cases he
  | cons head rest =>
    rw [hm] at h he ha
    cases h
    rcases mem_cons.mp he with rfl | hr
    · exact le_rfl
    · exact ((pairwise_cons.mp ha).1 entry hr).le

theorem le_lastKey {last : M.Object c} (h : index.lastKey = .ok last) (he : entry ∈ index.dataMap) :
    M.rank entry.1 ≤ M.rank last := by
  have ha := index.ascending
  rw [lastKey] at h
  split at h
  · rename_i final hl
    obtain ⟨init,hi⟩ := getLast?_eq_some_iff.mp hl
    rw [hi] at he ha
    cases h
    rcases mem_append.mp he with he | he
    · exact ((pairwise_append.mp ha).2.2 entry he final mem_cons_self).le
    · rw [mem_singleton.mp he]
  · cases h

theorem lookUpComparison_finds {operator : ComparisonOperator} (h : index.lookUpComparison operator key = .ok results) :
    ∃ o : M.Object c, key = some ⟨c,o⟩ ∧ index.Finds (fun k => RankHolds operator (M.rank k) (M.rank o)) results := by
  cases operator with
  | equal =>
    obtain ⟨o,ho,h⟩ := bind_ok h
    cases h
    exact ⟨o,comparable_eq_ok ho,get_finds o⟩
  | lessThan | lessThanOrEqual =>
    obtain ⟨low,hl,h⟩ := bind_ok h
    obtain ⟨o,ho,h⟩ := bind_ok h
    refine ⟨o,comparable_eq_ok ho,(rangeLookUp_finds h).congr fun entry he => ?_⟩
    exact and_iff_right (firstKey_le hl he)
  | greaterThan | greaterThanOrEqual =>
    obtain ⟨high,hh,h⟩ := bind_ok h
    obtain ⟨o,ho,h⟩ := bind_ok h
    refine ⟨o,comparable_eq_ok ho,(rangeLookUp_finds h).congr fun entry he => ?_⟩
    exact and_iff_left (le_lastKey hh he)
  | notEqual | isDistinctFrom => cases h

theorem lookUpResults_finds {query : Query S} (h : index.lookUpResults query = .ok results) :
    index.Finds (query.Selects M) results := by
  cases query with
  | call callee right =>
    obtain ⟨key,hk,h⟩ := bind_ok h
    cases callee with
    | comparison operator =>
      obtain ⟨o,rfl,hfn⟩ := lookUpComparison_finds h
      refine hfn.congr fun entry _ => ⟨fun hh => ⟨o,hk,hh⟩,?_⟩
      rintro ⟨o',ho',hh⟩
      rwa [ho'.unique hk] at hh
    | other handle =>
      cases handle with
      | builtIn =>
        cases h
        exact fun s => by simp [Query.Selects]
      | operator | external => cases h
  | between low high =>
    obtain ⟨left,hl,h₁⟩ := bind_ok h
    obtain ⟨right,hrg,h₂⟩ := bind_ok h₁
    obtain ⟨a,ha,h₃⟩ := bind_ok h₂
    obtain ⟨b,hb,hrn⟩ := bind_ok h₃
    obtain rfl := comparable_eq_ok ha
    obtain rfl := comparable_eq_ok hb
    refine (rangeLookUp_finds hrn).congr fun entry _ => ⟨fun hin => ⟨a,b,hl,hrg,hin⟩,?_⟩
    rintro ⟨a',b',ha',hb',hin⟩
    rwa [ha'.unique hl,hb'.unique hrg] at hin
  | isIn values =>
    obtain ⟨found,hf,hr⟩ := bind_ok h
    obtain rfl := Except.ok.inj hr
    clear h hr
    induction values generalizing found with
    | nil =>
      cases hf
      exact fun s => by simp [Query.Selects]
    | cons e values ih =>
      rw [mapM_cons] at hf
      obtain ⟨first,hfr,hf⟩ := bind_ok hf
      obtain ⟨rest,hrs,hf⟩ := bind_ok hf
      cases hf
      obtain ⟨key,hk,hfr⟩ := bind_ok hfr
      obtain ⟨o,ho,hfr⟩ := bind_ok hfr
      cases hfr
      obtain rfl := comparable_eq_ok ho
      intro s
      rw [flatten_cons,flatten_append,mem_append,get_finds o s,ih rest hrs s,← exists_or]
      refine exists_congr fun entry => ?_
      rw [← and_or_left,← and_or_left,Query.Selects,Query.Selects,exists_mem_cons_iff]
      refine and_congr_right fun _ => and_congr_right fun _ => or_congr_left ⟨fun he => ⟨o,hk,he⟩,?_⟩
      rintro ⟨o',ho',he⟩
      rwa [ho'.unique hk] at he
  | incomplete => cases h

/-- A look-up that succeeds holds the symbols of the selected keys, in increasing order. -/
theorem lookUp_spec [LinearOrder Symbol] {query : Query S} {symbols : List Symbol} (h : index.lookUp query = .ok symbols) :
    symbols.Pairwise (· < ·) ∧ ∀ s, s ∈ symbols ↔ ∃ entry ∈ index.dataMap, s ∈ entry.2 ∧ query.Selects M entry.1 := by
  obtain ⟨results,hr,h⟩ := bind_ok h
  cases h
  have hp := mergeSort_perm results.flatten.dedup fun a b => decide (a ≤ b)
  refine ⟨?_,fun s => ?_⟩
  · have hle : (results.flatten.dedup.mergeSort fun a b => decide (a ≤ b)).Pairwise fun a b => decide (a ≤ b) = true :=
      pairwise_mergeSort (fun a b c => by simpa using le_trans) (fun a b => by simpa using le_total a b) _
    have hn := hp.nodup_iff.mpr (nodup_dedup _)
    exact (hle.and hn).imp fun h => lt_of_le_of_ne (of_decide_eq_true h.1) h.2
  · rw [hp.mem_iff,mem_dedup]
    exact lookUpResults_finds hr s

end HetuCore.HeuristicIndex.BTreeIndex
