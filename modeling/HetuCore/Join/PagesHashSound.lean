import HetuCore.Join.PagesHashLaws
import Mathlib.Data.Fin.VecNotation

namespace HetuCore.Join
open Foundation Foundation.OpenAddressing Foundation.ChainedIndex Hash DefaultPagesHash List

section Batch
variable {Build Probe : Type} {bits size pageSize count : Nat} {strategy : PagesHashStrategy Build Probe}
  {addresses : Fin size → Build} {hash : DefaultPagesHash bits size}

theorem Holds.exists_free (hs : size < 2 ^ bits) {known done : List (Fin size)}
    (h : Holds strategy addresses known done hash) : ∃ slot, hash.heads slot = none := h.indexed.exists_free hs

/-- With the hashes of its rows the batch form returns the indexes of the single form. -/
theorem getAddressIndexesOfHashes_eq (hf : ∃ slot, hash.heads slot = none) {page : Fin pageSize → Probe}
    {ps : Fin count → Fin pageSize} {rawHashes : List (BitVec 64)}
    (hh : ∀ i, rawHashes[(ps i : Nat)]? = some (strategy.hashRow (page (ps i))))
    {lookup : Fin count → Option (Fin size)}
    (hl : ∀ i, hash.getAddressIndex strategy addresses (page (ps i)) = .ok (lookup i)) :
    hash.getAddressIndexesOfHashes strategy addresses page ps rawHashes = .ok lookup := by
  have hr : (forEach fun i => readRawHash rawHashes (ps i)) =
      .ok fun i => strategy.hashRow (page (ps i)) := by
    rw [forEach_ok]
    intro i
    rw [readRawHash,hh]
  rw [getAddressIndexesOfHashes,hr]
  exact searchAll_eq hf hl

variable (strategy) (page : Fin pageSize → Probe)

theorem writeRowHashes_ok_iff (ps : List (Fin pageSize)) (hashes : List (BitVec 64)) :
    (∃ ha', ps.foldlM (writeRowHash strategy page) hashes = .ok ha') ↔
      ∀ position ∈ ps, (position : Nat) < hashes.length := by
  induction ps generalizing hashes with
  | nil => exact iff_of_true ⟨hashes,rfl⟩ (by simp)
  | cons position ps ih =>
    rw [foldlM_cons,forall_mem_cons,writeRowHash]
    by_cases hp : (position : Nat) < hashes.length
    · rw [if_pos hp]
      refine (ih _).trans ?_
      simp [hp]
    · rw [if_neg hp]
      exact iff_of_false (fun h => nomatch h) fun h => hp h.1

variable {page}

theorem writeRowHashes_get {ps : List (Fin pageSize)} {hashes ha' : List (BitVec 64)}
    (h : ps.foldlM (writeRowHash strategy page) hashes = .ok ha') {position : Fin pageSize}
    (hp : position ∈ ps ∨ hashes[(position : Nat)]? = some (strategy.hashRow (page position))) :
    ha'[(position : Nat)]? = some (strategy.hashRow (page position)) := by
  induction ps generalizing hashes with
  | nil =>
    cases h
    exact hp.resolve_left not_mem_nil
  | cons first ps ih =>
    obtain ⟨next,hn,h⟩ := bind_ok h
    rw [writeRowHash] at hn
    split at hn
    · cases hn
      refine ih h (or_iff_not_imp_left.mpr fun hl => ?_)
      by_cases hf : position = first
      · subst hf
        rw [getElem?_set_self ‹_›]
      · have hne : (first : Nat) ≠ position := fun hv => hf (Fin.ext hv.symm)
        rw [getElem?_set_ne hne]
        exact hp.resolve_left fun hin => (mem_cons.mp hin).elim hf hl
    · cases hn

variable (page) (ps : Fin count → Fin pageSize)

def LastIsLargest : Prop :=
  ∃ last : Fin count, (last : Nat) + 1 = count ∧ ∀ i, ps i ≤ ps last

theorem readRowHashes_ok_iff :
    (∃ hashes, readRowHashes strategy page (ofFn ps) = .ok hashes) ↔
      LastIsLargest ps := by
  cases count with
  | zero => exact iff_of_false (fun h => nomatch h) fun ⟨last,_⟩ => last.elim0
  | succ count =>
    have hl : (ofFn ps).getLast? = some (ps (Fin.last count)) := by
      rw [List.getLast?_eq_getElem?,List.getElem?_ofFn]
      simp [Fin.last]
    rw [readRowHashes,hl]
    rw [writeRowHashes_ok_iff,length_replicate]
    constructor
    · intro h
      exact ⟨Fin.last count,rfl,fun i => Nat.lt_succ_iff.mp (h (ps i) (mem_ofFn.mpr ⟨i,rfl⟩))⟩
    · rintro ⟨last,hc,h⟩ position hp
      obtain ⟨i,rfl⟩ := mem_ofFn.mp hp
      obtain rfl : last = Fin.last count := Fin.ext (Nat.succ.inj hc)
      exact Nat.lt_succ_iff.mpr (h i)

/-- The batch form returns the indexes of the single form if it can read the hashes. -/
theorem getAddressIndexes_iff (hf : ∃ slot, hash.heads slot = none) (ps : Fin count → Fin pageSize) :
    (∃ result, hash.getAddressIndexes strategy addresses page ps = .ok result ∧
      ∀ i, hash.getAddressIndex strategy addresses (page (ps i)) = .ok (result i)) ↔
      LastIsLargest ps := by
  constructor
  · rintro ⟨result,h,-⟩
    obtain ⟨hashes,hh,-⟩ := bind_ok h
    exact (readRowHashes_ok_iff strategy page ps).mp ⟨hashes,hh⟩
  · intro hls
    obtain ⟨hashes,hh⟩ := (readRowHashes_ok_iff strategy page ps).mpr hls
    have hs : ∀ i, ∃ found, hash.getAddressIndex strategy addresses (page (ps i)) = .ok found :=
      fun i => exists_search hf _ _
    choose lookup hl using hs
    refine ⟨lookup,?_,hl⟩
    rw [getAddressIndexes,hh]
    refine getAddressIndexesOfHashes_eq hf (fun i => ?_) hl
    rw [readRowHashes] at hh
    split at hh
    · cases hh
    · exact writeRowHashes_get strategy hh (.inl (mem_ofFn.mpr ⟨i,rfl⟩))

end Batch

section Main
variable {Build Probe : Type} {bits size : Nat}

/-- Both indexes are built; a lookup ends, its chain visits each build row that has the key of
the probe row once and no other row, and it returns `-1` exactly if there is none. The batch
lookup with given hashes, and that of `BigintPagesHash`, return the same indexes for every array
of positions; that of `DefaultPagesHash` does so if and only if the array has a last position
and this is the largest. -/
theorem getAddressIndex_correct_iff (strategy : PagesHashStrategy Build Probe) (addresses : Fin size → Build)
    (joinChannel : Fin size → Option (BitVec 64)) (hconsistent : strategy.Consistent) (hsize : size < 2 ^ bits) :
    (∃ hash, create strategy addresses bits = .ok hash ∧
      (∀ row, ∃ found, hash.getAddressIndex strategy addresses row = .ok found ∧
        VisitsExactly hash.links found (MatchesRow strategy addresses row) ∧
        (found = none ↔ ∀ position, ¬ MatchesRow strategy addresses row position)) ∧
      ∀ (pageSize count : Nat) (page : Fin pageSize → Probe) (ps : Fin count → Fin pageSize),
        (∀ rawHashes : List (BitVec 64),
          (∀ i, rawHashes[(ps i : Nat)]? = some (strategy.hashRow (page (ps i)))) →
          ∃ result, hash.getAddressIndexesOfHashes strategy addresses page ps rawHashes = .ok result ∧
            ∀ i, hash.getAddressIndex strategy addresses (page (ps i)) = .ok (result i)) ∧
        ((∃ result, hash.getAddressIndexes strategy addresses page ps = .ok result ∧
          ∀ i, hash.getAddressIndex strategy addresses (page (ps i)) = .ok (result i)) ↔
            LastIsLargest ps)) ∧ (∃ hash, BigintPagesHash.create joinChannel bits = .ok hash ∧
      (∀ value, ∃ found, hash.getAddressIndex value = .ok found ∧
        VisitsExactly hash.links found (fun position => joinChannel position = some value) ∧
        (found = none ↔ ∀ position, joinChannel position ≠ some value)) ∧
      ∀ (pageSize count : Nat) (page : Fin pageSize → BitVec 64) (ps : Fin count → Fin pageSize),
        ∃ result, hash.getAddressIndexes page ps = .ok result ∧
          ∀ i, hash.getAddressIndex (page (ps i)) = .ok (result i)) := by
  constructor
  · obtain ⟨hash,hc,hh⟩ := create_holds addresses hconsistent hsize
    have hf := hh.exists_free hsize
    refine ⟨hash,hc,fun row => ?_,fun pageSize count page ps => ⟨fun rawHashes hhs => ?_,?_⟩⟩
    · obtain ⟨found,hfn,hv⟩ := hh.getAddressIndex hconsistent hsize row
      exact ⟨found,hfn,hv,hv.eq_none_iff⟩
    · have hs : ∀ i, ∃ found, hash.getAddressIndex strategy addresses (page (ps i)) = .ok found :=
        fun i => exists_search hf _ _
      choose lookup hl using hs
      exact ⟨lookup,getAddressIndexesOfHashes_eq hf hhs hl,hl⟩
    · exact getAddressIndexes_iff strategy page hf ps
  · obtain ⟨hash,hc,hh⟩ := create_bigint_holds joinChannel hsize
    have hf := hh.indexed.exists_free hsize
    refine ⟨hash,hc,fun value => ?_,fun pageSize count page ps => ?_⟩
    · obtain ⟨found,hfn,hv⟩ := hh.getAddressIndex hsize value
      exact ⟨found,hfn,hv,hv.eq_none_iff⟩
    · have hs : ∀ i, ∃ found, hash.getAddressIndex (page (ps i)) = .ok found :=
        fun i => exists_search hf _ _
      choose lookup hl using hs
      refine ⟨lookup,searchAll_eq hf fun i => ?_,hl⟩
      rw [← hl i]
      congr 1
      funext key
      exact Bool.beq_comm

end Main

namespace OneChannel

/-- The strategy of a join with one key, whose hash is its value. -/
def strategy : PagesHashStrategy (Option (BitVec 64)) (BitVec 64) where
  hashPosition := fun key => key.getD 0
  hashRow := id
  isPositionNull := Option.isNone
  positionEqualsPositionIgnoreNulls := fun left right => left == right
  positionEqualsRowIgnoreNulls := fun left row => left == some row

theorem consistent : strategy.Consistent where
  symm := by
    intro a b _ _ hab
    simp only [strategy,beq_iff_eq] at hab ⊢
    exact hab.symm
  trans := by
    intro a b c _ _ _ hab hbc
    simp only [strategy,beq_iff_eq] at hab hbc ⊢
    exact hab.trans hbc
  row := by
    intro a b row _ _ ha
    simp only [strategy,beq_iff_eq] at ha ⊢
    rw [ha,eq_comm]
  hash_position := by
    intro a b _ _ hab
    simp only [strategy,beq_iff_eq] at hab ⊢
    rw [hab]
  hash_row := by
    intro a row _ ha
    simp only [strategy,beq_iff_eq] at ha ⊢
    rw [ha]
    rfl

def addresses : Fin 3 → Option (BitVec 64) := ![some 7,none,some 7]

def page : Fin 2 → BitVec 64 := ![7,5]

/-- A probe page has no row without a NULL, so that there is no position to look up: the single
form has nothing to do, but the batch form throws. It also throws if the positions do not ascend. -/
theorem getAddressIndexes_throws : ∃ hash, create strategy addresses 2 = .ok hash ∧
    hash.getAddressIndexes strategy addresses page ![] = .error .arrayIndexOutOfBounds ∧
    hash.getAddressIndexes strategy addresses page ![1,0] = .error .arrayIndexOutOfBounds := by
  obtain ⟨hash,hc,-⟩ := create_holds addresses consistent (show 3 < 2 ^ 2 by decide)
  exact ⟨hash,hc,rfl,rfl⟩

theorem getAddressIndex_correct_three : strategy.Consistent ∧ 3 < 2 ^ 2 ∧
    ∃ hash, create strategy addresses 2 = .ok hash ∧
      ∃ result, hash.getAddressIndexes strategy addresses page ![0,1] = .ok result ∧
        ∀ i, hash.getAddressIndex strategy addresses (page ((![0,1] : Fin 2 → Fin 2) i)) = .ok (result i) := by
  refine ⟨consistent,by decide,?_⟩
  obtain ⟨⟨hash,hc,-,hb⟩,-⟩ :=
    getAddressIndex_correct_iff strategy addresses (fun _ => none) consistent (show 3 < 2 ^ 2 by decide)
  exact ⟨hash,hc,(hb 2 2 page ![0,1]).2.mpr ⟨1,rfl,by decide⟩⟩

end OneChannel
end HetuCore.Join
