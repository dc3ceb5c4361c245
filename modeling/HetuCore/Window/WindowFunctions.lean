import HetuCore.Window.WindowPartition
import Mathlib.Order.Interval.Finset.Nat

/-! The window functions `rank`, `ntile`, `nth_value`, `lag` and `lead`. -/
namespace HetuCore.Window

/-- What a function is told of the rows of a partition: their peers and their frames. -/
structure PartitionView where
  size : Nat
  ints : size < 2 ^ 31
  peer : Nat → Nat → Prop
  decidable : DecidableRel peer
  equivalence : Equivalence peer
  contiguous : ∀ {i j k}, i ≤ j → j ≤ k → k < size → peer i k → peer i j
  frameStart : Nat → Int
  frameEnd : Nat → Int
  framed : ∀ i < size, frameStart i < 0 ∨ frameStart i ≤ frameEnd i ∧ frameEnd i < size

attribute [instance] PartitionView.decidable

structure WindowFunction (σ Out : Type) where
  reset : σ
  processRow : σ → (peerGroupStart frameStart frameEnd : Int) → Except String (Out × σ)

structure RankingState (σ : Type) where
  currentPeerGroupStart : Int
  currentPosition : Nat
  function : σ

variable {σ Out V : Type}

def RankingWindowFunction (reset : σ)
    (processRow : σ → (newPeerGroup : Bool) → (currentPosition : Nat) → Except String (Out × σ)) :
    WindowFunction (RankingState σ) Out where
  reset := ⟨-1,0,reset⟩
  processRow s peerGroupStart _ _ := do
    let newPeerGroup := decide (peerGroupStart ≠ s.currentPeerGroupStart)
    let (value,function) ← processRow s.function newPeerGroup s.currentPosition
    pure (value,⟨if newPeerGroup then peerGroupStart else s.currentPeerGroupStart,s.currentPosition + 1,function⟩)

def ValueWindowFunction (processRow : (frameStart frameEnd : Int) → (currentPosition : Nat) → Except String Out) :
    WindowFunction Nat Out where
  reset := 0
  processRow currentPosition _ frameStart frameEnd := do
    let value ← processRow frameStart frameEnd currentPosition
    pure (value,currentPosition + 1)

def RankFunction : WindowFunction (RankingState (Nat × Nat)) Nat :=
  RankingWindowFunction (0,1) fun (rank,count) newPeerGroup _ =>
    if newPeerGroup then .ok (rank + count,(rank + count,1)) else .ok (rank,(rank,count + 1))

def bucket (rowCount buckets currentRow : Nat) : Nat :=
  if rowCount < buckets then currentRow
  else
    let remainderRows := rowCount % buckets
    let rowsPerBucket := rowCount / buckets
    if currentRow < (rowsPerBucket + 1) * remainderRows then currentRow / (rowsPerBucket + 1)
    else (currentRow - remainderRows) / rowsPerBucket

section
-- a channel has a value or NULL at each position of the partition
variable (size : Nat) (valueChannel : Nat → Option V)

def NTileFunction (valueChannel : Nat → Option Int) : WindowFunction (RankingState Nat) (Option Nat) :=
  RankingWindowFunction size fun rowCount _ currentPosition =>
    match valueChannel currentPosition with
    | none => .ok (none,rowCount)
    | some buckets =>
      if ¬ buckets > 0 then .error "Buckets must be greater than 0"
      else .ok (some (bucket rowCount buckets.toNat currentPosition + 1),rowCount)

def appendTo (position : Int) : Except String (Option V) :=
  if 0 ≤ position ∧ position < size then .ok (valueChannel position.toNat) else .error "position"

def NthValueFunction (offsetChannel : Nat → Option Int) : WindowFunction Nat (Option V) :=
  ValueWindowFunction fun frameStart frameEnd currentPosition =>
    if frameStart < 0 then .ok none
    else match offsetChannel currentPosition with
      | none => .ok none
      | some offset =>
        if ¬ offset ≥ 1 then .error "Offset must be at least 1"
        else
          let valuePosition := Int.bmod (frameStart + (offset - 1)) (2 ^ 64)
          if valuePosition ≥ frameStart ∧ valuePosition ≤ frameEnd then
            toIntExact valuePosition >>= appendTo size valueChannel
          else .ok none

variable (offsetChannel : Option (Nat → Option Int)) (defaultChannel : Option (Nat → Option V))

/-- The function of `lag` and `lead`; they differ in the position and in its upper bound. -/
def offsetFunction (position : Int → Int → Int) (inside : Nat → Int → Bool) : WindowFunction Nat (Option V) :=
  ValueWindowFunction fun _ _ currentPosition =>
    match offsetChannel.elim (some 1) (· currentPosition) with
    | none => .ok none
    | some offset =>
      if ¬ offset ≥ 0 then .error "Offset must be at least 0"
      else
        let valuePosition := Int.bmod (position currentPosition offset) (2 ^ 64)
        if valuePosition ≥ 0 ∧ inside currentPosition valuePosition then
          toIntExact valuePosition >>= appendTo size valueChannel
        else match defaultChannel with
          | some defaultChannel => appendTo size defaultChannel currentPosition
          | none => .ok none

def LagFunction : WindowFunction Nat (Option V) :=
  offsetFunction size valueChannel offsetChannel defaultChannel (· - ·) fun currentPosition valuePosition =>
    valuePosition ≤ currentPosition

def LeadFunction : WindowFunction Nat (Option V) :=
  offsetFunction size valueChannel offsetChannel defaultChannel (· + ·) fun _ valuePosition => valuePosition < size

end

namespace PartitionView
variable (p : PartitionView)

def peerGroupStart (i : Nat) : Nat := Nat.find ⟨i,p.equivalence.refl i⟩

def processRows (f : WindowFunction σ Out) : List Nat → σ → Except String (List Out)
  | [], _ => .ok []
  | i :: rows, s => do
    let (value,s) ← f.processRow s (p.peerGroupStart i) (p.frameStart i) (p.frameEnd i)
    let values ← processRows f rows s
    pure (value :: values)

def process (f : WindowFunction σ Out) : Except String (List Out) := p.processRows f (List.range p.size) f.reset

variable {p} {f : WindowFunction σ Out} {value : Nat → Out}

theorem process_eq (state : Nat → σ) (hr : f.reset = state 0) (h : ∀ i < p.size,
      f.processRow (state i) (p.peerGroupStart i) (p.frameStart i) (p.frameEnd i) =
        .ok (value i,state (i + 1))) : p.process f = .ok ((List.range p.size).map value) := by
  have hrw : ∀ n i, i + n = p.size → p.processRows f (List.range' i n) (state i) = .ok ((List.range' i n).map value) := by
    intro n
    induction n with
    | zero => exact fun _ _ => rfl
    | succ n ih =>
      intro i hi
      rw [List.range'_succ,processRows,h i (by omega)]
      change (p.processRows f (List.range' (i + 1) n) (state (i + 1)) >>= _) = _
      rw [ih (i + 1) (by omega)]
      rfl
  rw [process,hr,List.range_eq_range',hrw _ 0 (Nat.zero_add _)]

theorem process_value {processRow : Int → Int → Nat → Except String Out}
    (h : ∀ i < p.size, processRow (p.frameStart i) (p.frameEnd i) i = .ok (value i)) :
    p.process (ValueWindowFunction processRow) = .ok ((List.range p.size).map value) :=
  process_eq id rfl fun i hi => by simp only [ValueWindowFunction,id,h i hi]; rfl

variable {i : Nat}

theorem peer_iff (hi : i < p.size) {j : Nat} (hj : j ≤ i) : p.peer i j ↔ p.peerGroupStart i ≤ j := by
  have hf : p.peer i (p.peerGroupStart i) := Nat.find_spec _
  refine ⟨fun h => Nat.find_min' _ h,fun h => ?_⟩
  exact p.equivalence.trans hf (p.contiguous h hj hi (p.equivalence.symm hf))

theorem peerGroupStart_le : p.peerGroupStart i ≤ i := Nat.find_min' _ (p.equivalence.refl i)

theorem peerGroupStart_succ (hi : i + 1 < p.size) :
    p.peerGroupStart (i + 1) = p.peerGroupStart i ∨ p.peerGroupStart (i + 1) = i + 1 := by
  by_cases h : p.peer (i + 1) i
  · refine .inl (Nat.find_congr' fun {j} => ⟨fun hj => ?_,fun hj => p.equivalence.trans h hj⟩)
    exact p.equivalence.trans (p.equivalence.symm h) hj
  · rw [peer_iff hi (Nat.le_succ i)] at h
    have := p.peerGroupStart_le (i := i + 1)
    omega

/-- The rank of a row is that of its peers, and the count is that of the peers so far. -/
def rankState (p : PartitionView) : Nat → RankingState (Nat × Nat)
  | 0 => ⟨-1,0,(0,1)⟩
  | i + 1 => ⟨p.peerGroupStart i,i + 1,(p.peerGroupStart i + 1,i - p.peerGroupStart i + 1)⟩

theorem process_rank : p.process RankFunction = .ok ((List.range p.size).map fun i => p.peerGroupStart i + 1) := by
  refine process_eq p.rankState rfl fun i hi => ?_
  cases i with
  | zero =>
    have hz : p.peerGroupStart 0 = 0 := Nat.le_zero.mp peerGroupStart_le
    simp [RankFunction,RankingWindowFunction,rankState,hz]
  | succ i =>
    have hle := p.peerGroupStart_le (i := i)
    obtain hs | hnw := peerGroupStart_succ hi
    · have hc : i - p.peerGroupStart i + 1 + 1 = i + 1 - p.peerGroupStart i + 1 := by omega
      simp [RankFunction,RankingWindowFunction,rankState,hs,hc]
    · have hne : (i : Int) + 1 ≠ p.peerGroupStart i := by omega
      have hr : p.peerGroupStart i + 1 + (i - p.peerGroupStart i + 1) = i + 1 + 1 := by omega
      simp [RankFunction,RankingWindowFunction,rankState,hnw,hne,hr]

theorem card_before (hi : i < p.size) : {j ∈ Finset.range i | ¬ p.peer i j}.card = p.peerGroupStart i := by
  have hb : {j ∈ Finset.range i | ¬ p.peer i j} = Finset.range (p.peerGroupStart i) := by
    ext j
    have hle := p.peerGroupStart_le (i := i)
    rw [Finset.mem_filter,Finset.mem_range,Finset.mem_range]
    refine ⟨fun h => not_le.mp ((peer_iff hi h.1.le).not.mp h.2),fun h => ?_⟩
    exact ⟨h.trans_le hle,(peer_iff hi (h.trans_le hle).le).not.mpr (not_le.mpr h)⟩
  rw [hb,Finset.card_range]

end PartitionView

section bucket

def tileSize (rows : Nat) (tile : Nat → Nat) (b : Nat) : Nat := {i ∈ Finset.range rows | tile i = b}.card

def bucketStart (rows n b : Nat) : Nat := b * (rows / n) + min b (rows % n)

variable {rows n i j b c : Nat}

theorem bucketStart_mono (h : b ≤ c) : bucketStart rows n b ≤ bucketStart rows n c :=
  Nat.add_le_add (Nat.mul_le_mul_right _ h) (min_le_min_right _ h)

theorem bucketStart_succ :
    bucketStart rows n (b + 1) = bucketStart rows n b + (rows / n + if b < rows % n then 1 else 0) := by
  rw [bucketStart,bucketStart,Nat.succ_mul]
  split <;> omega

variable (hn : 0 < n)
include hn

theorem bucketStart_all : bucketStart rows n n = rows := by
  rw [bucketStart,min_eq_right (Nat.mod_lt _ hn).le,Nat.div_add_mod]

theorem bucket_eq_iff (hi : i < rows) : bucket rows n i = b ↔ bucketStart rows n b ≤ i ∧ i < bucketStart rows n (b + 1) := by
  unfold bucket bucketStart
  split
  next hf =>
    rw [Nat.div_eq_of_lt hf,Nat.mod_eq_of_lt hf]
    omega
  next hm =>
    have hq : 0 < rows / n := Nat.div_pos (not_lt.mp hm) hn
    generalize rows % n = r
    generalize rows / n = q at hq
    -- the buckets before the remainder have one row more
    have hl : b < r → (b + 1) * q ≤ r * q := fun h => Nat.mul_le_mul_right q h
    have hs : r ≤ b → r * q ≤ b * q := fun h => Nat.mul_le_mul_right q h
    dsimp only
    split
    all_goals
      rw [Nat.div_eq_iff (by omega)]
      simp only [Nat.add_mul,Nat.mul_add,Nat.one_mul,Nat.mul_one,Nat.mul_comm q] at *
      omega

theorem bucket_mono (hij : i ≤ j) (hj : j < rows) : bucket rows n i ≤ bucket rows n j := by
  have hl := ((bucket_eq_iff hn (hij.trans_lt hj)).mp rfl).1
  have hh := ((bucket_eq_iff hn hj).mp rfl).2
  by_contra ho
  have := hh.trans_le (bucketStart_mono (not_le.mp ho))
  omega

theorem tileSize_bucket (hb : b < n) :
    tileSize rows (bucket rows n · + 1) (b + 1) = rows / n + if b < rows % n then 1 else 0 := by
  have ha : bucketStart rows n (b + 1) ≤ rows := (bucketStart_mono hb).trans_eq (bucketStart_all hn)
  have hr : {i ∈ Finset.range rows | bucket rows n i + 1 = b + 1} =
      Finset.Ico (bucketStart rows n b) (bucketStart rows n (b + 1)) := by
    ext i
    rw [Finset.mem_filter,Finset.mem_range,Finset.mem_Ico,Nat.succ_inj]
    refine ⟨fun h => (bucket_eq_iff hn h.1).mp h.2,fun h => ?_⟩
    have hi := h.2.trans_le ha
    exact ⟨hi,(bucket_eq_iff hn hi).mpr h⟩
  rw [tileSize,hr,Nat.card_Ico,bucketStart_succ,Nat.add_sub_cancel_left]

theorem bucket_used : (∃ i < rows, bucket rows n i + 1 = b + 1) ↔ b < min n rows := by
  by_cases hb : b < n
  · have hp : (∃ i < rows, bucket rows n i + 1 = b + 1) ↔ 0 < tileSize rows (bucket rows n · + 1) (b + 1) := by
      simp [tileSize,Finset.filter_nonempty_iff]
    rw [hp,tileSize_bucket hn hb]
    obtain hf | hm := lt_or_ge rows n
    · rw [Nat.div_eq_of_lt hf,Nat.mod_eq_of_lt hf]
      split <;> omega
    · have := Nat.div_pos hm hn
      omega
  · refine iff_of_false ?_ (by omega)
    rintro ⟨i,hi,hbc⟩
    have hl := (bucketStart_mono (not_lt.mp hb)).trans ((bucket_eq_iff hn hi).mp (Nat.succ.inj hbc)).1
    rw [bucketStart_all hn] at hl
    omega

end bucket

theorem bmod_long {x : Int} (hl : -2 ^ 63 < x) (hh : x < 2 ^ 63 + 2 ^ 31) :
    Int.bmod x (2 ^ 64) = x ∨ 2 ^ 63 ≤ x ∧ Int.bmod x (2 ^ 64) < 0 := by
  rw [Int.bmod_def]
  split <;> omega

theorem append_ok {size : Nat} {channel : Nat → Option V} {v : Int} (hs : size < 2 ^ 31) (h : 0 ≤ v ∧ v < size) :
    toIntExact v >>= appendTo size channel = .ok (channel v.toNat) := by
  rw [toIntExact,if_pos (by omega)]
  exact if_pos h

namespace PartitionView
variable {p : PartitionView} {value : Nat → Option V} {defaults : Option (Nat → Option V)}

def frame (p : PartitionView) (i : Nat) : List Nat :=
  if p.frameStart i < 0 then [] else positions (p.frameStart i) (p.frameEnd i)

/-- The value at a row of the partition, or else the default. -/
def addressed (p : PartitionView) (value : Nat → Option V) (defaults : Option (Nat → Option V)) (i : Nat) (position : Int) :
    Option V :=
  if 0 ≤ position ∧ position < p.size then value position.toNat else defaults.bind (· i)

theorem process_nth {offset : Nat → Option Int} (hof : ∀ i o, offset i = some o → 1 ≤ o ∧ o < 2 ^ 63) :
    p.process (NthValueFunction p.size value offset) =
      .ok ((List.range p.size).map fun i => (offset i).bind fun o => (p.frame i)[o.toNat - 1]?.bind value) := by
  refine process_value fun i hi => ?_
  unfold frame positions
  split
  next he => simp
  next hf =>
    obtain ⟨hle,hen⟩ := (p.framed i hi).resolve_left hf
    cases ho : offset i with
    | none => rfl
    | some o =>
      obtain ⟨hp,hl⟩ := hof i o ho
      have his := p.ints
      have hnt := bmod_long (x := p.frameStart i + (o - 1)) (by omega) (by omega)
      dsimp only
      rw [if_neg (by omega),Option.bind_some]
      split
      next hin =>
        rw [append_ok p.ints (by omega),List.getElem?_range' (by omega),Option.bind_some]
        congr 2
        omega
      next hot =>
        rw [List.getElem?_eq_none (by rw [List.length_range']; omega)]
        rfl

theorem process_offset {offset : Option (Nat → Option Int)} {position : Int → Int → Int} {inside : Nat → Int → Bool}
    (hof : ∀ i o, offset.elim (some 1) (· i) = some o → 0 ≤ o ∧ o < 2 ^ 63)
    (hp : ∀ i < p.size, ∀ o, 0 ≤ o → o < 2 ^ 63 → -2 ^ 63 < position i o ∧ position i o < 2 ^ 63 + 2 ^ 31)
    (his : ∀ i < p.size, ∀ o, 0 ≤ o → (inside i (position i o) = true ↔ position i o < p.size)) :
    p.process (offsetFunction p.size value offset defaults position inside) =
      .ok ((List.range p.size).map fun i => (offset.elim (some 1) (· i)).bind fun o =>
        p.addressed value defaults i (position i o)) := by
  refine process_value fun i hi => ?_
  cases ho : offset.elim (some 1) (· i) with
  | none => rfl
  | some o =>
    obtain ⟨hps,hln⟩ := hof i o ho
    obtain ⟨hl,hh⟩ := hp i hi o hps hln
    have hints := p.ints
    have hin := his i hi o hps
    rw [Option.bind_some,addressed]
    dsimp only
    rw [if_neg (by omega)]
    by_cases hr : 0 ≤ position i o ∧ position i o < p.size
    · rw [(bmod_long hl hh).resolve_right (by omega),if_pos ⟨hr.1,hin.mpr hr.2⟩,if_pos hr,append_ok p.ints hr]
    · have hot : ¬ (Int.bmod (position i o) (2 ^ 64) ≥ 0 ∧ inside i (Int.bmod (position i o) (2 ^ 64)) = true) := by
        obtain heq | ⟨-,hng⟩ := bmod_long hl hh
        · rwa [heq,hin]
        · omega
      rw [if_neg hot,if_neg hr]
      cases defaults with
      | none => rfl
      | some defaults => exact if_pos (by omega)

end PartitionView
open PartitionView

/-- `rank` counts the rows before the peers of a row, `ntile` fills its buckets evenly from the first, and
`nth_value`, `lag` and `lead` find the row that the offset addresses. -/
theorem windowFunctions_correct (p : PartitionView) (n : Int) (hn : 0 < n) (value : Nat → Option V)
    (nth : Nat → Option Int) (hnth : ∀ i o, nth i = some o → 1 ≤ o ∧ o < 2 ^ 63)
    (offset : Option (Nat → Option Int)) (hoffset : ∀ i o, offset.elim (some 1) (· i) = some o → 0 ≤ o ∧ o < 2 ^ 63)
    (defaults : Option (Nat → Option V)) :
    p.process RankFunction = .ok ((List.range p.size).map fun i => {j ∈ Finset.range i | ¬ p.peer i j}.card + 1) ∧
    (∃ tile : Nat → Nat, p.process (NTileFunction p.size fun _ => some n) = .ok ((List.range p.size).map (some ∘ tile)) ∧
      (∀ i j, i ≤ j → j < p.size → tile i ≤ tile j) ∧
      (∀ b, (∃ i < p.size, tile i = b) ↔ 1 ≤ b ∧ b ≤ min n.toNat p.size) ∧
      ∀ b c, 1 ≤ b → b ≤ c → c ≤ min n.toNat p.size →
        tileSize p.size tile c ≤ tileSize p.size tile b ∧ tileSize p.size tile b ≤ tileSize p.size tile c + 1) ∧
    p.process (NthValueFunction p.size value nth) =
      .ok ((List.range p.size).map fun i => (nth i).bind fun o => (p.frame i)[o.toNat - 1]?.bind value) ∧
    p.process (LagFunction p.size value offset defaults) = .ok ((List.range p.size).map fun i =>
      (offset.elim (some 1) (· i)).bind fun o => p.addressed value defaults i (i - o)) ∧
    p.process (LeadFunction p.size value offset defaults) = .ok ((List.range p.size).map fun i =>
      (offset.elim (some 1) (· i)).bind fun o => p.addressed value defaults i (i + o)) := by
  have hin := p.ints
  have hp : 0 < n.toNat := by omega
  refine ⟨?_,⟨fun i => bucket p.size n.toNat i + 1,?_,?_,?_,?_⟩,process_nth hnth,?_,?_⟩
  · rw [process_rank]
    exact congrArg _ (List.map_congr_left fun i hi => by rw [card_before (List.mem_range.mp hi)])
  · refine process_eq (fun i => ⟨if i = 0 then -1 else p.peerGroupStart (i - 1),i,p.size⟩) rfl fun i hi => ?_
    simpa [NTileFunction,RankingWindowFunction,hn] using Eq.symm
  · exact fun i j hij hj => Nat.succ_le_succ (bucket_mono hp hij hj)
  · intro b
    cases b with
    | zero => simp
    | succ b => rw [bucket_used hp]; omega
  · intro b c hb hbc hc
    obtain ⟨b,rfl⟩ := Nat.exists_eq_add_of_le' hb
    obtain ⟨c,rfl⟩ := Nat.exists_eq_add_of_le' (hb.trans hbc)
    rw [tileSize_bucket hp (by omega),tileSize_bucket hp (by omega)]
    split <;> split <;> omega
  · exact process_offset hoffset (fun i hi o _ _ => by omega) fun i hi o _ => by simp; omega
  · exact process_offset hoffset (fun i hi o _ _ => by omega) fun i hi o _ => by simp

/-- Rows with the keys 1, 1, 2 and 3, each framed by itself and the two rows before it, and the first not at all. -/
def fourRows : PartitionView where
  size := 4
  ints := by decide
  peer i j := [1,1,2,3].getD i i = [1,1,2,3].getD j j
  decidable := inferInstance
  equivalence := ⟨fun _ => rfl,Eq.symm,Eq.trans⟩
  contiguous {i j k} hij hjk hk :=
    (by decide : ∀ k < 4, ∀ j ≤ k, ∀ i ≤ j, [1,1,2,3].getD i i = [1,1,2,3].getD k k → [1,1,2,3].getD i i = [1,1,2,3].getD j j)
      k hk j hjk i hij
  frameStart i := [-1,0,0,1].getD i 0
  frameEnd i := [-1,1,2,3].getD i 0
  framed := by decide

theorem windowFunctions_correct_fourRows :
    fourRows.process RankFunction = .ok [1,1,3,4] ∧
    (∃ tile : Nat → Nat, fourRows.process (NTileFunction 4 fun _ => some 3) = .ok ((List.range 4).map (some ∘ tile)) ∧
      ∀ b, (∃ i < 4, tile i = b) ↔ 1 ≤ b ∧ b ≤ 3) ∧
    fourRows.process (NthValueFunction 4 some fun _ => some 2) = .ok [none,some 1,some 1,some 2] ∧
    fourRows.process (LagFunction 4 some (some fun _ => some 2) (some fun _ => some 9)) = .ok [some 9,some 9,some 0,some 1] ∧
    fourRows.process (LeadFunction 4 some (some fun _ => some 2) (some fun _ => some 9)) = .ok [some 2,some 3,some 9,some 9] := by
  obtain ⟨hr,⟨tile,ht,-,hu,-⟩,hn,hl,hd⟩ := windowFunctions_correct fourRows 3 (by decide) some (fun _ => some 2) (by simp)
    (some fun _ => some 2) (by simp) (some fun _ => some 9)
  exact ⟨hr,⟨tile,ht,hu⟩,hn,hl,hd⟩

end HetuCore.Window
