import HetuCore.Join.PagesHashLookup

namespace HetuCore.Join
open Foundation Foundation.OpenAddressing Foundation.ChainedIndex Hash List Option

/-- The rows that a chain visits are those with the property, each once. -/
def VisitsExactly {size : Nat} (links : Fin size → Option (Fin size)) (start : Option (Fin size))
    (hit : Fin size → Prop) : Prop :=
  ∃ visited, Visits links start visited ∧ visited.Nodup ∧ ∀ pos, pos ∈ visited ↔ hit pos

theorem VisitsExactly.eq_none_iff {size : Nat} {links : Fin size → Option (Fin size)} {start : Option (Fin size)}
    {hit : Fin size → Prop} (h : VisitsExactly links start hit) : start = none ↔ ∀ pos, ¬ hit pos := by
  obtain ⟨visited,hv,-,hm⟩ := h
  constructor
  · rintro rfl pos hh
    cases hv
    exact not_mem_nil ((hm pos).mpr hh)
  · intro hn
    cases start with
    | none => rfl
    | some head => exact absurd ((hm head).mp hv.head_mem) (hn head)

section Items
variable {α : Type} {p : α → Prop} {done : List α} {a : α}

theorem setOf_concat (h : p a) : {x | x ∈ done ++ [a] ∧ p x} = insert a {x | x ∈ done ∧ p x} := by
  ext x
  by_cases hx : x = a
  · simp [hx,h]
  · simp [hx]

theorem setOf_concat_of_not (h : ¬ p a) : {x | x ∈ done ++ [a] ∧ p x} = {x | x ∈ done ∧ p x} := by
  ext x
  by_cases hx : x = a
  · simp [hx,h]
  · simp [hx]

end Items

section Default
variable {Build Probe : Type} {bits size : Nat} (st : PagesHashStrategy Build Probe)

/-- Equality of rows without NULLs is symmetric and transitive, on both sides of the join, and
equal rows have equal hashes. A row need not be equal to itself. -/
structure PagesHashStrategy.Consistent : Prop where
  symm : ∀ {a b}, ¬ st.isPositionNull a → ¬ st.isPositionNull b →
    st.positionEqualsPositionIgnoreNulls a b → st.positionEqualsPositionIgnoreNulls b a
  trans : ∀ {a b c}, ¬ st.isPositionNull a → ¬ st.isPositionNull b → ¬ st.isPositionNull c →
    st.positionEqualsPositionIgnoreNulls a b → st.positionEqualsPositionIgnoreNulls b c →
    st.positionEqualsPositionIgnoreNulls a c
  row : ∀ {a b row}, ¬ st.isPositionNull a → ¬ st.isPositionNull b →
    st.positionEqualsRowIgnoreNulls a row →
    (st.positionEqualsRowIgnoreNulls b row ↔ st.positionEqualsPositionIgnoreNulls a b)
  hash_position : ∀ {a b}, ¬ st.isPositionNull a → ¬ st.isPositionNull b →
    st.positionEqualsPositionIgnoreNulls a b → st.hashPosition a = st.hashPosition b
  hash_row : ∀ {a row}, ¬ st.isPositionNull a → st.positionEqualsRowIgnoreNulls a row →
    st.hashPosition a = st.hashRow row

variable (adr : Fin size → Build)

def SameKey (a b : Fin size) : Prop :=
  ¬ st.isPositionNull (adr a) ∧ ¬ st.isPositionNull (adr b) ∧
    st.positionEqualsPositionIgnoreNulls (adr a) (adr b)

/-- A position without NULLs has the key of a probe row. -/
def MatchesRow (row : Probe) (pos : Fin size) : Prop :=
  ¬ st.isPositionNull (adr pos) ∧ st.positionEqualsRowIgnoreNulls (adr pos) row

def homeOf (bits : Nat) (pos : Fin size) : Fin (2 ^ bits) :=
  getHashPosition bits (st.hashPosition (adr pos))

theorem keyed (h : st.Consistent) : Keyed (SameKey st adr) (homeOf st adr bits) where
  symm := fun ⟨ha,hb,hab⟩ => ⟨hb,ha,h.symm ha hb hab⟩
  trans := fun ⟨ha,hb,hab⟩ ⟨_,hc,hbc⟩ => ⟨ha,hc,h.trans ha hb hc hab hbc⟩
  home_eq := fun ⟨ha,hb,hab⟩ => congrArg (getHashPosition bits) (h.hash_position ha hb hab)

/-- The state of the constructor when the hashes of some positions are read and some positions
are indexed. -/
structure Holds (known done : List (Fin size)) (hash : DefaultPagesHash bits size) : Prop where
  hashes : ∀ pos ∈ known, hash.positionToHashes pos = tag (st.hashPosition (adr pos))
  indexed : Indexed (SameKey st adr) (homeOf st adr bits)
    {pos | pos ∈ done ∧ ¬ st.isPositionNull (adr pos)} hash.toIndex

variable {st adr} {known done : List (Fin size)} {hash : DefaultPagesHash bits size}

theorem foldl_update {γ : Type} (value : Fin size → γ) (positions : List (Fin size)) (array : Fin size → γ) (i : Fin size) :
    (positions.foldl (fun array pos => Function.update array pos (value pos)) array) i =
      if i ∈ positions then value i else array i := by
  induction positions generalizing array with
  | nil => rfl
  | cons pos positions ih =>
    rw [foldl_cons,ih]
    by_cases hp : i = pos
    · subst hp
      simp
    · simp [hp]

theorem Holds.readHashes (h : Holds st adr known done hash) (positions : List (Fin size)) :
    Holds st adr (known ++ positions) done (hash.readHashes st adr positions) where
  hashes := by
    intro pos hp
    refine (foldl_update (fun i => tag (st.hashPosition (adr i))) positions _ pos).trans ?_
    split
    · rfl
    · exact h.hashes pos ((mem_append.mp hp).resolve_right ‹_›)
  indexed := h.indexed

theorem Holds.indexPosition (hc : st.Consistent) (hsz : size < 2 ^ bits)
    (h : Holds st adr known done hash) {pos : Fin size} (hnw : pos ∉ done)
    (hd : ∀ other ∈ done, other ∈ known) : ∃ ha', hash.indexPosition st adr pos = .ok ha' ∧
      Holds st adr known (done ++ [pos]) ha' := by
  cases hn : st.isPositionNull (adr pos) with
  | true =>
    refine ⟨hash,by simp [DefaultPagesHash.indexPosition,hn],h.hashes,?_⟩
    rw [setOf_concat_of_not (by simp [hn])]
    exact h.indexed
  | false =>
    have hnn : ¬ st.isPositionNull (adr pos) := by simp [hn]
    have hw : ∀ slot head, hash.heads slot = some head →
        ((tag (st.hashPosition (adr pos)) == hash.positionToHashes head &&
          st.positionEqualsPositionIgnoreNulls (adr head) (adr pos)) = true ↔
            SameKey st adr head pos) := by
      intro slot head hs
      obtain ⟨hin,hh⟩ := h.indexed.head_mem hs
      rw [h.hashes head (hd head hin)]
      constructor
      · exact fun hw => ⟨hh,hnn,(Bool.and_eq_true_iff.mp hw).2⟩
      · rintro ⟨-,-,hsm⟩
        simp [hsm,hc.hash_position hh hnn hsm]
    obtain ⟨slot,hs,hi⟩ := h.indexed.exists_put (keyed st adr hc) (fun hin => hnw hin.1) hsz hw
    refine ⟨{ hash with toIndex := hash.toIndex.put slot pos },?_,h.hashes,?_⟩
    · rw [homeOf] at hs
      simp [DefaultPagesHash.indexPosition,hn,hs]
    · rw [setOf_concat (by simp [hn])]
      exact hi

theorem Holds.indexStep (hc : st.Consistent) (hsz : size < 2 ^ bits)
    (h : Holds st adr done done hash) {step : Nat} (hn : (done ++ stepPositions size step).Nodup) :
    ∃ ha', hash.indexStep st adr step = .ok ha' ∧
      Holds st adr (done ++ stepPositions size step) (done ++ stepPositions size step) ha' := by
  refine foldlM_total (fun positions hash => Holds st adr (done ++ stepPositions size step)
    (done ++ positions) hash) (by simpa using h.readHashes (stepPositions size step)) ?_
  intro positions pos rest ha' hs hh
  have hnw : pos ∉ done ++ positions := by
    rw [hs,← append_assoc,nodup_append] at hn
    exact fun hin => hn.2.2 pos hin pos mem_cons_self rfl
  have hd : ∀ other ∈ done ++ positions, other ∈ done ++ stepPositions size step := by
    intro other ho
    rw [hs,← append_assoc]
    exact mem_append_left _ ho
  rw [← append_assoc]
  exact hh.indexPosition hc hsz hnw hd

theorem create_holds (adr : Fin size → Build) (hc : st.Consistent) (hsz : size < 2 ^ bits) :
    ∃ hash, DefaultPagesHash.create st adr bits = .ok hash ∧
      Holds st adr (finRange size) (finRange size) hash := by
  have hn := nodup_finRange size
  rw [← flatMap_stepPositions] at hn ⊢
  refine foldlM_total (fun done hash => Holds st adr (done.flatMap (stepPositions size))
    (done.flatMap (stepPositions size)) hash) ⟨by simp,by simpa using .empty⟩ ?_
  intro done step rest hash hs hh
  rw [hs,flatMap_append,flatMap_cons,← append_assoc] at hn
  have hst := hh.indexStep hc hsz hn.of_append_left
  rwa [flatMap_append,flatMap_singleton]

theorem Holds.getAddressIndex (hc : st.Consistent) (hsz : size < 2 ^ bits)
    (h : Holds st adr (finRange size) (finRange size) hash) (row : Probe) :
    ∃ found, hash.getAddressIndex st adr row = .ok found ∧
      VisitsExactly hash.links found (MatchesRow st adr row) := by
  have hw : ∀ slot head, hash.heads slot = some head →
      (hash.positionEqualsCurrentRowIgnoreNulls st adr row (st.hashRow row) head = true ↔
        MatchesRow st adr row head) := by
    intro slot head hs
    obtain ⟨hin,hh⟩ := h.indexed.head_mem hs
    rw [DefaultPagesHash.positionEqualsCurrentRowIgnoreNulls,h.hashes head hin]
    constructor
    · exact fun hw => ⟨hh,(Bool.and_eq_true_iff.mp hw).2⟩
    · rintro ⟨-,hr⟩
      simp [hr,hc.hash_row hh hr]
  have hsm : ∀ {a b}, MatchesRow st adr row a →
      (MatchesRow st adr row b ↔ SameKey st adr a b) := fun ⟨ha,hr⟩ =>
    ⟨fun hb => ⟨ha,hb.1,(hc.row ha hb.1 hr).mp hb.2⟩,fun hab => ⟨hab.2.1,(hc.row ha hab.2.1 hr).mpr hab.2.2⟩⟩
  have hhm : ∀ {a}, MatchesRow st adr row a →
      homeOf st adr bits a = getHashPosition bits (st.hashRow row) := fun ⟨ha,hr⟩ =>
    congrArg (getHashPosition bits) (hc.hash_row ha hr)
  obtain ⟨slot,visited,hs,hv,hn,hm⟩ :=
    h.indexed.lookup (keyed st adr hc) hsz hsm hhm hw
  exact ⟨hash.heads slot,search_eq hs,visited,hv,hn,fun pos => by simp [hm,MatchesRow]⟩

end Default

section Bigint
variable {bits size : Nat} (jc : Fin size → Option (BitVec 64))

/-- Two positions hold the same value, which is not NULL. -/
def SameValue (a b : Fin size) : Prop := jc b = jc a ∧ (jc a).isSome

def homeOfValue (bits : Nat) (pos : Fin size) : Fin (2 ^ bits) :=
  getHashPosition bits ((jc pos).getD 0)

theorem keyed_bigint : Keyed (SameValue jc) (homeOfValue jc bits) where
  symm := fun ⟨hab,ha⟩ => ⟨hab.symm,hab ▸ ha⟩
  trans := fun ⟨hab,ha⟩ ⟨hbc,_⟩ => ⟨hbc.trans hab,ha⟩
  home_eq := by
    rintro a b ⟨hab,-⟩
    rw [homeOfValue,homeOfValue,hab]

/-- The state of the constructor when some positions are indexed. -/
structure HoldsValues (done : List (Fin size)) (hash : BigintPagesHash bits size) : Prop where
  values : ∀ pos ∈ done, ∀ value, jc pos = some value → hash.values pos = value
  indexed : Indexed (SameValue jc) (homeOfValue jc bits)
    {pos | pos ∈ done ∧ (jc pos).isSome} hash.toIndex

variable {jc} {done : List (Fin size)} {hash : BigintPagesHash bits size}

theorem HoldsValues.wanted_iff (h : HoldsValues jc done hash) (value : BitVec 64) {slot : Fin (2 ^ bits)}
    {head : Fin size} (hs : hash.heads slot = some head) :
    (value == hash.values head) = true ↔ jc head = some value := by
  obtain ⟨hin,hsm⟩ := h.indexed.head_mem hs
  obtain ⟨value',hv'⟩ := isSome_iff_exists.mp hsm
  rw [h.values head hin value' hv',hv',beq_iff_eq,some.injEq]
  exact eq_comm

theorem HoldsValues.indexPosition (hsz : size < 2 ^ bits) (h : HoldsValues jc done hash)
    {pos : Fin size} (hn : pos ∉ done) :
    ∃ ha', hash.indexPosition jc pos = .ok ha' ∧ HoldsValues jc (done ++ [pos]) ha' := by
  cases hv : jc pos with
  | none =>
    refine ⟨hash,by simp [BigintPagesHash.indexPosition,hv],forall_mem_concat.mpr ⟨h.values,?_⟩,?_⟩
    · simp [hv]
    · rw [setOf_concat_of_not (by simp [hv])]
      exact h.indexed
  | some value =>
    have hw : ∀ slot head, hash.heads slot = some head →
        ((value == hash.values head) = true ↔ SameValue jc head pos) := by
      intro slot head hs
      rw [h.wanted_iff value hs,SameValue,hv,eq_comm]
      exact ⟨fun hh => ⟨hh,hh ▸ rfl⟩,And.left⟩
    obtain ⟨slot,hs,hi⟩ := h.indexed.exists_put (keyed_bigint jc) (fun hin => hn hin.1) hsz hw
    refine ⟨⟨hash.toIndex.put slot pos,Function.update hash.values pos value⟩,?_,?_,?_⟩
    · rw [homeOfValue,hv,getD_some] at hs
      simp [BigintPagesHash.indexPosition,hv,hs]
    · intro other ho value' ho'
      by_cases hp : other = pos
      · subst hp
        rw [hv,some.injEq] at ho'
        simp [ho']
      · refine (Function.update_of_ne hp _ _).trans ?_
        exact h.values other (by simpa [hp] using ho) value' ho'
    · rw [setOf_concat (by simp [hv])]
      exact hi

theorem create_bigint_holds (jc : Fin size → Option (BitVec 64)) (hsz : size < 2 ^ bits) :
    ∃ hash, BigintPagesHash.create jc bits = .ok hash ∧ HoldsValues jc (finRange size) hash := by
  have hn := nodup_finRange size
  rw [← flatMap_stepPositions] at hn ⊢
  refine foldlM_total (fun done hash => HoldsValues jc (done.flatMap (stepPositions size)) hash)
    ⟨by simp,by simpa using .empty⟩ ?_
  intro done step rest hash hs hh
  rw [hs,flatMap_append,flatMap_cons,← append_assoc] at hn
  rw [flatMap_append,flatMap_singleton]
  refine foldlM_total (fun positions hash => HoldsValues jc (done.flatMap (stepPositions size) ++ positions) hash)
    (by simpa using hh) ?_
  intro positions pos later hash hs' hh'
  rw [← append_assoc]
  refine hh'.indexPosition hsz fun hin => ?_
  rw [hs',← append_assoc] at hn
  exact (nodup_append.mp hn.of_append_left).2.2 pos hin pos mem_cons_self rfl

theorem HoldsValues.getAddressIndex (hsz : size < 2 ^ bits) (h : HoldsValues jc (finRange size) hash)
    (value : BitVec 64) : ∃ found, hash.getAddressIndex value = .ok found ∧
      VisitsExactly hash.links found fun pos => jc pos = some value := by
  have hsm : ∀ {a b}, jc a = some value → (jc b = some value ↔ SameValue jc a b) := by
    intro a b ha
    rw [SameValue,ha]
    exact ⟨fun hb => ⟨hb,rfl⟩,And.left⟩
  have hh : ∀ {a}, jc a = some value → homeOfValue jc bits a = getHashPosition bits value := by
    intro a ha
    rw [homeOfValue,ha,getD_some]
  obtain ⟨slot,visited,hs,hv,hn,hm⟩ :=
    h.indexed.lookup (keyed_bigint jc) hsz hsm hh fun _ _ hs => h.wanted_iff value hs
  refine ⟨hash.heads slot,search_eq hs,visited,hv,hn,fun pos => (hm pos).trans ?_⟩
  refine ⟨And.right,fun hp => ⟨⟨mem_finRange pos,?_⟩,hp⟩⟩
  rw [hp]
  rfl

end Bigint
end HetuCore.Join
