import HetuCore.Window.WindowSnapshot
import Mathlib.Data.Nat.Count

/-! The ranking functions `dense_rank`, `row_number` and `percent_rank`. -/
namespace HetuCore.Window.PartitionView
variable {σ Out V : Type} {p : PartitionView} {i : Nat}

/-- What a ranking function remembers: where the peers of the row before start. -/
def lastStart (p : PartitionView) : Nat → Int
  | 0 => -1
  | i + 1 => p.peerGroupStart i

theorem ne_lastStart_iff (hi : i < p.size) : p.peerGroupStart i ≠ p.lastStart i ↔ p.peerGroupStart i = i := by
  have hle := p.peerGroupStart_le (i := i)
  cases i with
  | zero =>
    rw [lastStart]
    omega
  | succ i =>
    have hle := p.peerGroupStart_le (i := i)
    have hs := peerGroupStart_succ hi
    rw [lastStart]
    omega

/-- A ranking function is told of each row whether it is the first of its peers. -/
theorem process_ranking {reset : σ} {processRow : σ → Bool → Nat → Except String (Out × σ)} {value : Nat → Out}
    (state : Nat → σ) (hr : reset = state 0)
    (h : ∀ i < p.size, processRow (state i) (p.peerGroupStart i = i) i = .ok (value i,state (i + 1))) :
    p.process (RankingWindowFunction reset processRow) = .ok ((List.range p.size).map value) := by
  refine process_eq (fun i => ⟨p.lastStart i,i,state i⟩) (by rw [hr]; rfl) fun i hi => ?_
  have hs := h i hi
  simp only [← ne_lastStart_iff hi] at hs
  simp only [RankingWindowFunction,hs]
  refine congrArg (fun start => Except.ok (value i,RankingState.mk start (i + 1) (state (i + 1)))) ?_
  exact ite_eq_left_iff.mpr fun he => (of_not_not (mt decide_eq_true he)).symm

/-- `dense_rank` counts the peer groups up to that of the row, and `percent_rank` is the share of the other rows that
come before its peers. -/
theorem rankings_correct (p : PartitionView) :
    p.process DenseRankFunction = .ok ((List.range p.size).map fun i => Nat.count (fun j => p.peerGroupStart j = j) (i + 1)) ∧
    p.process RowNumberFunction = .ok ((List.range p.size).map (· + 1)) ∧
    p.process (PercentRankFunction (V := V) p.size) = .ok ((List.range p.size).map fun i =>
      if p.size = 1 then .double 0 1 else .double {j ∈ Finset.range i | ¬ p.peer i j}.card (p.size - 1)) := by
  refine ⟨?_,process_ranking (fun _ => ()) rfl fun i _ => rfl,?_⟩
  · refine process_ranking (Nat.count fun j => p.peerGroupStart j = j) rfl fun i _ => ?_
    rw [Nat.count_succ]
    split <;> simp_all
  by_cases hs : p.size = 1
  · exact process_ranking (fun _ => (p.size,0,1)) rfl fun i _ => by simp [hs]
  -- the rank and the count are those of `rank`
  refine process_ranking (fun i => (p.size,(p.rankState i).function)) rfl fun i hi => ?_
  rw [card_before hi]
  cases i with
  | zero =>
    have hz : p.peerGroupStart 0 = 0 := Nat.le_zero.mp peerGroupStart_le
    simp [hs,rankState,hz]
  | succ i =>
    have hle := p.peerGroupStart_le (i := i)
    obtain hg | hg := peerGroupStart_succ hi
    · have hne : p.peerGroupStart i ≠ i + 1 := by omega
      have hc : i - p.peerGroupStart i + 1 + 1 = i + 1 - p.peerGroupStart i + 1 := by omega
      simp [hs,rankState,hg,hne,hc]
    · have hr : p.peerGroupStart i + 1 + (i - p.peerGroupStart i + 1) = i + 1 + 1 := by omega
      simp [hs,rankState,hg,hr]

theorem rankings_correct_fourRows : fourRows.process DenseRankFunction = .ok [1,1,2,3] ∧
    fourRows.process RowNumberFunction = .ok [1,2,3,4] ∧
    fourRows.process (PercentRankFunction (V := Int) 4) = .ok [.double 0 3,.double 0 3,.double 2 3,.double 3 3] := by
  obtain ⟨hd,hn,hp⟩ := rankings_correct fourRows
  refine ⟨hd.trans ?_,hn,hp⟩
  have hc : ∀ i < 4, {j ∈ Finset.range i | ¬ fourRows.peer i j}.card = [0,0,2,3].getD i 0 := by decide
  have hg : ∀ i < 4, fourRows.peerGroupStart i = [0,0,2,3].getD i 0 := fun i hi => (card_before hi).symm.trans (hc i hi)
  change Except.ok ([0,1,2,3].map _) = _
  simp [Nat.count_succ,hg 0,hg 1,hg 2,hg 3]

end HetuCore.Window.PartitionView
