import HetuCore.HeuristicIndex.StripeFilter

namespace HetuCore.HeuristicIndex
open Predicate List
variable {Column : Type} [DecidableEq Column] {Name : Type}

namespace StripeFilter
variable {type : Column → IndexedType} {column : Name → Column}

def SatisfiesAnd (stripe : Stripe type) (and : List (NamedDomain type column)) (row : Fin stripe.numberOfRows) : Prop :=
  ∀ entry ∈ and, entry.2.includesNullableValue (stripe.value (column entry.1) row) = true

def SatisfiesOr (stripe : Stripe type) (entry : OrDomains type column) (domain : (type (column entry.name)).Domain)
    (row : Fin stripe.numberOfRows) : Prop :=
  domain ∈ entry.first :: entry.rest ∧ domain.includesNullableValue (stripe.value (column entry.name) row) = true

/-- An excluded stripe has no row that satisfies all AND domains together with an OR domain, if there are
any; the rows registered for another one are increasing and include every row that satisfies all AND
domains. -/
def Sound (stripe : Stripe type) (and : List (NamedDomain type column)) (or : List (OrDomains type column))
    (decision : Decision) : Prop :=
  (decision.excluded = true → ∀ row, SatisfiesAnd stripe and row →
    ¬ (or = [] ∨ ∃ entry ∈ or, ∃ domain, SatisfiesOr stripe entry domain row)) ∧
  (decision.excluded = false → ∀ rows, decision.matchingRows = some rows → rows.Pairwise (· < ·) ∧
    ∀ row : Fin stripe.numberOfRows, SatisfiesAnd stripe and row → row.val ∈ rows)

variable (columns : List Column) (entries : List (NamedDomain type column))

/-- The domains that are looked up if these columns of the stripe are indexed. -/
def domainMap : DomainMap type :=
  entries.foldl (fun m entry => if (columns.filter fun c => decide (c = column entry.1)).length = 1 then
    m.insert (column entry.1) entry.2 else m) ∅

/-- No row that satisfies all AND domains is missed by their look-ups, if all of these are supported. -/
def AndFound (stripe : Stripe type) (columns : List Column) (and : List (NamedDomain type column)) : Prop :=
  (∀ e ∈ (domainMap columns and).entries, (stripe.index e.1).Supports e.2) →
    ∀ row, SatisfiesAnd stripe and row → ∀ e ∈ (domainMap columns and).entries,
      (stripe.index e.1).Finds e.2 (stripe.value e.1 row)

/-- If only OR domains are looked up, one of the look-ups keeps the stripe, or every OR domain that a row
satisfies is looked up and its look-up finds the row. -/
def OrFound (stripe : Stripe type) (columns : List Column) (and : List (NamedDomain type column))
    (or : List (OrDomains type column)) : Prop :=
  (domainMap columns and).entries = [] → (domainMap columns (firsts or)).entries ≠ [] →
    (∃ e ∈ (domainMap columns (firsts or)).entries,
      ¬ (stripe.index e.1).Supports e.2 ∨ ∃ row, (stripe.index e.1).Finds e.2 (stripe.value e.1 row)) ∨
    ∀ row, SatisfiesAnd stripe and row → ∀ entry ∈ or, ∀ domain, SatisfiesOr stripe entry domain row →
      (domainMap columns (firsts or)).lookup (column entry.name) = some domain ∧
        (stripe.index (column entry.name)).Finds domain (stripe.value (column entry.name) row)

theorem foldlM_addDomain_some (m : DomainMap type) :
    entries.foldlM (addDomain (some columns)) m = .ok (entries.foldl (fun m entry =>
      if (columns.filter fun c => decide (c = column entry.1)).length = 1 then m.insert (column entry.1) entry.2 else m) m) := by
  induction entries generalizing m with
  | nil => rfl
  | cons entry entries ih =>
    rw [foldlM_cons,foldl_cons,addDomain]
    split
    · exact ih _
    · exact ih _

variable {entries and : List (NamedDomain type column)}
  {toIndex : List (Int × List Column)}

theorem foldlM_addDomain_none (hne : entries ≠ []) (m : DomainMap type) :
    entries.foldlM (addDomain none) m = .error "NullPointerException" := by
  obtain ⟨entry,entries,rfl⟩ := exists_cons_of_ne_nil hne
  rfl

section
omit [DecidableEq Column]
variable (stripe : Stripe type) {entries : List (Sigma fun c : Column => (type c).Domain)}

theorem lookUp_spec {c : Column} {domain : (type c).Domain} (h : (stripe.index c).Supports domain) :
    ∃ rows, (stripe.index c).lookUp domain = .ok rows ∧ rows.Pairwise (· < ·) ∧
      ∀ i, i ∈ rows ↔ ∃ row : Fin stripe.numberOfRows, row.val = i ∧ (stripe.index c).Finds domain (stripe.value c row) := by
  obtain ⟨rows,hr,hs,hm⟩ := BitmapIndex.lookUp_of_supports (ofFn (stripe.value c)) h
  refine ⟨rows,hr,hs,fun i => (hm i).trans ⟨?_,?_⟩⟩
  · rintro ⟨value,hv,hf⟩
    obtain ⟨hi,rfl⟩ := List.getElem?_eq_some_iff.mp hv
    rw [length_ofFn] at hi
    refine ⟨⟨i,hi⟩,rfl,?_⟩
    rwa [List.getElem_ofFn] at hf
  · rintro ⟨row,rfl,hf⟩
    exact ⟨_,by simp,hf⟩

theorem lookUps_of_supports (h : ∀ e ∈ entries, (stripe.index e.1).Supports e.2) :
    ∃ matchings, lookUps stripe entries = some matchings ∧ (matchings = [] ↔ entries = []) ∧
      (∀ rows ∈ matchings, rows.Pairwise (· < ·)) ∧
      ∀ row : Fin stripe.numberOfRows, (∀ rows ∈ matchings, row.val ∈ rows) ↔
        ∀ e ∈ entries, (stripe.index e.1).Finds e.2 (stripe.value e.1 row) := by
  induction entries with
  | nil => exact ⟨[],rfl,by simp,by simp,by simp⟩
  | cons entry entries ih =>
    obtain ⟨hen,he⟩ := forall_mem_cons.mp h
    obtain ⟨matchings,hm,-,hs,hmm⟩ := ih he
    obtain ⟨rows,hrw,hr,hrm⟩ := lookUp_spec stripe hen
    refine ⟨rows :: matchings,by rw [lookUps,hrw]; simp [hm],by simp,
      forall_mem_cons.mpr ⟨hr,hs⟩,fun row => ?_⟩
    rw [forall_mem_cons,forall_mem_cons,hmm,hrm]
    refine and_congr_left fun _ => ⟨?_,fun h => ⟨row,rfl,h⟩⟩
    rintro ⟨other,ho,hf⟩
    rwa [Fin.ext ho] at hf

theorem lookUps_of_not_supports (h : ∃ e ∈ entries, ¬ (stripe.index e.1).Supports e.2) : lookUps stripe entries = none := by
  induction entries with
  | nil => simp at h
  | cons entry entries ih =>
    rw [lookUps]
    by_cases he : (stripe.index entry.1).Supports entry.2
    · obtain ⟨rows,hr,-⟩ := lookUp_spec stripe he
      rw [hr]
      have hrs := (exists_mem_cons_iff _ _ _).mp h |>.resolve_left (not_not.mpr he)
      simp [ih hrs]
    · rw [BitmapIndex.lookUp_of_not_supports he]

theorem noneMatches_iff : noneMatches stripe entries = true ↔ ∀ e ∈ entries, (stripe.index e.1).Supports e.2 ∧
      ∀ row, ¬ (stripe.index e.1).Finds e.2 (stripe.value e.1 row) := by
  induction entries with
  | nil => simp [noneMatches]
  | cons entry entries ih =>
    rw [noneMatches,forall_mem_cons]
    by_cases he : (stripe.index entry.1).Supports entry.2
    · obtain ⟨rows,hr,-,hm⟩ := lookUp_spec stripe he
      rw [hr]
      cases rows with
      | nil =>
        have hno : ∀ row, ¬ (stripe.index entry.1).Finds entry.2 (stripe.value entry.1 row) := fun row hf =>
          absurd ((hm row.val).mpr ⟨row,rfl,hf⟩) not_mem_nil
        simp only [ih,he,true_and]
        exact (and_iff_right hno).symm
      | cons i rows =>
        obtain ⟨row,-,hf⟩ := (hm i).mp mem_cons_self
        exact iff_of_false Bool.false_ne_true fun h => h.1.2 row hf
    · rw [BitmapIndex.lookUp_of_not_supports he]
      exact iff_of_false Bool.false_ne_true fun h => he h.1.1

variable {stripe}

theorem sound_decision_none {or : List (OrDomains type column)} : Sound stripe and or ⟨false,none⟩ := by
  refine ⟨nofun,fun _ rows hr => ?_⟩
  exact absurd hr (Option.some_ne_none rows).symm

end

section
variable (stripe : Stripe type) (columns : List Column) (and : List (NamedDomain type column))
  (or : List (OrDomains type column))
include stripe

theorem sound_decision_and (hne : (domainMap columns and).entries ≠ []) (orDomainMap : DomainMap type) :
    Sound stripe and or (decision stripe (domainMap columns and) orDomainMap) ↔ AndFound stripe columns and := by
  rw [decision,if_pos hne]
  by_cases hs : ∀ e ∈ (domainMap columns and).entries, (stripe.index e.1).Supports e.2
  · obtain ⟨matchings,hm,hn,hsr,hmm⟩ := lookUps_of_supports stripe hs
    obtain ⟨hi,hin⟩ := SequenceUtils.intersect_spec matchings (fun h => hne (hn.mp h)) hsr
    rw [hm]
    constructor
    · intro hsn _ row hr
      exact (hmm row).mp ((hin row.val).mp ((hsn.2 rfl _ rfl).2 row hr))
    · intro hf
      refine ⟨nofun,?_⟩
      rintro - _ ⟨⟩
      exact ⟨hi,fun row hr => (hin row.val).mpr ((hmm row).mpr (hf hs row hr))⟩
  · rw [lookUps_of_not_supports stripe (by push Not at hs; exact hs)]
    exact iff_of_true sound_decision_none fun h => absurd h hs

theorem sound_decision_or (hnl : (domainMap columns and).entries = []) :
    Sound stripe and or (decision stripe (domainMap columns and) (domainMap columns (firsts or))) ↔
      OrFound stripe columns and or := by
  rw [decision,if_neg (not_not.mpr hnl)]
  by_cases hne : (domainMap columns (firsts or)).entries = []
  · rw [if_neg (not_not.mpr hne)]
    exact iff_of_true sound_decision_none fun _ h => absurd hne h
  rw [if_pos hne]
  have hor : or ≠ [] := by
    rintro rfl
    exact hne rfl
  cases hm : noneMatches stripe (domainMap columns (firsts or)).entries with
  | false =>
    refine iff_of_true sound_decision_none fun _ _ => .inl ?_
    have hnt := mt (noneMatches_iff stripe).mpr (Bool.eq_false_iff.mp hm)
    push Not at hnt
    obtain ⟨e,he,hf⟩ := hnt
    exact ⟨e,he,or_iff_not_imp_left.mpr fun h => hf (not_not.mp h)⟩
  | true =>
    have hn := (noneMatches_iff stripe).mp hm
    constructor
    · intro hsn _ _
      refine .inr fun row hr entry hen domain hd => ?_
      exact absurd (.inr ⟨entry,hen,domain,hd⟩) (hsn.1 rfl row hr)
    · intro hfn
      refine ⟨fun _ row hr hs => ?_,nofun⟩
      obtain ⟨entry,hen,domain,hd⟩ := hs.resolve_left hor
      rcases hfn hnl hne with ⟨e,he,hk⟩ | hse
      · exact hk.elim (fun h => h (hn e he).1) fun ⟨row,hr⟩ => (hn e he).2 row hr
      · obtain ⟨hl,hf⟩ := hse row hr entry hen domain hd
        exact (hn _ (AList.mem_lookup_iff.mp hl)).2 row hf

theorem sound_decision_iff :
    Sound stripe and or (decision stripe (domainMap columns and) (domainMap columns (firsts or))) ↔
      AndFound stripe columns and ∧ OrFound stripe columns and or := by
  by_cases hn : (domainMap columns and).entries = []
  · have ha : AndFound stripe columns and := fun _ _ _ e he => by
      rw [hn] at he
      exact absurd he not_mem_nil
    rw [sound_decision_or stripe columns and or hn]
    exact (and_iff_right ha).symm
  · rw [sound_decision_and stripe columns and or hn]
    exact (and_iff_left fun h => absurd h hn).symm

theorem filterStripeUsingIndex_listed (hl : toIndex.lookup stripe.offset = some columns) :
    filterStripeUsingIndex stripe toIndex and or =
      .ok (decision stripe (domainMap columns and) (domainMap columns (firsts or))) := by
  have hne : toIndex ≠ [] := by
    rintro rfl
    exact absurd hl (Option.some_ne_none columns).symm
  rw [filterStripeUsingIndex,if_neg hne,hl]
  simp only [foldlM_addDomain_some]
  rfl

/-- Without a list of indexes, nothing may have to be looked up. -/
theorem filterStripeUsingIndex_not_listed (hl : toIndex.lookup stripe.offset = none) :
    filterStripeUsingIndex stripe toIndex and or =
      if toIndex = [] ∨ and = [] ∧ or = [] then .ok ⟨false,none⟩ else .error "NullPointerException" := by
  rw [filterStripeUsingIndex,hl]
  by_cases he : toIndex = []
  · rw [if_pos he,if_pos (.inl he)]
  rw [if_neg he]
  by_cases ha : and = []
  · subst ha
    cases or with
    | nil => rw [if_pos (.inr ⟨rfl,rfl⟩)]; rfl
    | cons entry or =>
      rw [if_neg (by simp [he])]
      rfl
  · rw [if_neg (by simp [he,ha])]
    simp only [foldlM_addDomain_none ha]
    rfl

end

theorem mem_domainMap {columns : List Column} {e : Sigma fun c : Column => (type c).Domain}
    (he : e ∈ (domainMap columns entries).entries) : ∃ entry ∈ entries, e = ⟨column entry.1,entry.2⟩ := by
  -- read backwards, the last entry for the column of `e` is the one that was inserted
  induction entries using reverseRecOn with
  | nil => exact absurd he not_mem_nil
  | append_singleton entries entry ih =>
    rw [domainMap,foldl_append,foldl_cons] at he
    split at he
    · rcases mem_cons.mp he with rfl | hr
      · exact ⟨entry,by simp,rfl⟩
      · obtain ⟨entry,hen,h⟩ := ih ((kerase_sublist _ _).mem hr)
        exact ⟨entry,mem_append_left _ hen,h⟩
    · obtain ⟨entry,hen,h⟩ := ih he
      exact ⟨entry,mem_append_left _ hen,h⟩

/-- If all AND domains that are looked up are supported, no row that satisfies the AND domains is NULL in one of their
columns. -/
def NullFree (stripe : Stripe type) (columns : List Column) (and : List (NamedDomain type column)) : Prop :=
  (∀ e ∈ (domainMap columns and).entries, (stripe.index e.1).Supports e.2) →
    ∀ row, SatisfiesAnd stripe and row → ∀ e ∈ (domainMap columns and).entries, stripe.value e.1 row ≠ none

/-- If only OR domains are looked up, one of the look-ups keeps the stripe, or no row that satisfies the AND domains
satisfies an OR domain with NULL, or one that is not looked up. -/
def LookedUp (stripe : Stripe type) (columns : List Column) (and : List (NamedDomain type column))
    (or : List (OrDomains type column)) : Prop :=
  (domainMap columns and).entries = [] → (domainMap columns (firsts or)).entries ≠ [] →
    (∃ e ∈ (domainMap columns (firsts or)).entries,
      ¬ (stripe.index e.1).Supports e.2 ∨ ∃ row, (stripe.index e.1).Finds e.2 (stripe.value e.1 row)) ∨
    ∀ row, SatisfiesAnd stripe and row → ∀ entry ∈ or, ∀ domain,
      stripe.value (column entry.name) row = none ∨
        (domainMap columns (firsts or)).lookup (column entry.name) ≠ some domain →
      ¬ SatisfiesOr stripe entry domain row

section strictMono
variable (hm : ∀ c, StrictMono (type c).actual) (stripe : Stripe type) (columns : List Column)
include hm

omit [DecidableEq Column] in
theorem finds_of_value {c : Column} {domain : (type c).Domain} (hs : (stripe.index c).Supports domain)
    {row : Fin stripe.numberOfRows} (hv : stripe.value c row ≠ none)
    (hi : domain.includesNullableValue (stripe.value c row) = true) : (stripe.index c).Finds domain (stripe.value c row) := by
  obtain ⟨v,hv⟩ := Option.ne_none_iff_exists'.mp hv
  rw [hv] at hi ⊢
  exact BitmapIndex.finds_of_strictMono (hm c) hs (mem_ofFn.mpr ⟨row,hv⟩) hi

theorem andFound_iff (and : List (NamedDomain type column)) : AndFound stripe columns and ↔ NullFree stripe columns and := by
  refine forall_congr' fun hs => forall₂_congr fun row hr => forall₂_congr fun e he => ⟨?_,fun hv => ?_⟩
  · rintro ⟨v,hv,-⟩
    simp [hv]
  · obtain ⟨entry,hen,rfl⟩ := mem_domainMap he
    exact finds_of_value hm stripe (hs _ he) hv (hr entry hen)

theorem orFound_iff (and : List (NamedDomain type column)) (or : List (OrDomains type column)) :
    OrFound stripe columns and or ↔ LookedUp stripe columns and or := by
  refine forall₂_congr fun _ _ => ⟨Or.imp_right fun h row hr entry he domain hk hd => ?_,fun h => ?_⟩
  · obtain ⟨hl,v,hv,-⟩ := h row hr entry he domain hd
    exact hk.elim (by simp [hv]) fun hn => hn hl
  · by_cases hs : ∃ e ∈ (domainMap columns (firsts or)).entries, ¬ (stripe.index e.1).Supports e.2
    · obtain ⟨e,he,hn⟩ := hs
      exact .inl ⟨e,he,.inl hn⟩
    · refine h.imp_right fun h row hr entry he domain hd => ?_
      have hk := not_or.mp fun hk => h row hr entry he domain hk hd
      have hl := not_not.mp hk.2
      have hsp : (stripe.index (column entry.name)).Supports domain :=
        not_not.mp fun hn => hs ⟨_,AList.mem_lookup_iff.mp hl,hn⟩
      exact ⟨hl,finds_of_value hm stripe hsp hk.1 hd.2⟩

end strictMono

/-- Without OR domains and NULL the decision about a stripe that is listed can be trusted. -/
theorem filterStripeUsingIndex_sound_and (hm : ∀ c, StrictMono (type c).actual) (stripe : Stripe type) {columns : List Column}
    (hn : ∀ entry ∈ and, entry.2.nullAllowed = false) (hl : toIndex.lookup stripe.offset = some columns) :
    ∃ decision, filterStripeUsingIndex stripe toIndex and [] = .ok decision ∧ Sound stripe and [] decision := by
  refine ⟨_,filterStripeUsingIndex_listed stripe columns and [] hl,(sound_decision_iff stripe columns and []).mpr ?_⟩
  refine ⟨(andFound_iff hm stripe columns and).mpr fun _ row hr e he hv => ?_,fun _ h => absurd rfl h⟩
  obtain ⟨entry,hen,rfl⟩ := mem_domainMap he
  have ha := hr entry hen
  rw [hv] at ha
  exact absurd ha (Bool.eq_false_iff.mp (hn entry hen))

abbrev integers : Unit → IndexedType := fun _ => ⟨Int,Int,inferInstance,inferInstance,id⟩

/-- The second of two rows has no value. -/
def oneNull : Stripe integers where
  offset := 3
  numberOfRows := 2
  value _ row := if row = 0 then some 1 else none

theorem filterStripeUsingIndex_sound_one : ∃ r x, Range.equal (1 : Int) = .ok r ∧ SortedRangeSet.copyOf [r] = .ok x ∧
    ∃ domain : NamedDomain integers (id : Unit → Unit), domain.2 = ⟨x,false⟩ ∧ ∃ decision,
      filterStripeUsingIndex oneNull [(3,[()])] [domain] [] = .ok decision ∧ Sound oneNull [domain] [] decision :=
  ⟨_,_,rfl,rfl,⟨(),⟨_,false⟩⟩,rfl,filterStripeUsingIndex_sound_and (fun _ => strictMono_id) oneNull (by simp) rfl⟩

end StripeFilter
end HetuCore.HeuristicIndex
