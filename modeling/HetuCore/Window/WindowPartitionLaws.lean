import HetuCore.Window.WindowPartition

namespace HetuCore.Window
open Foundation List
variable {Row Acc Out κ : Type} {agg : Aggregate Row Acc Out}

namespace AggregateWindowFunction
variable {f : AggregateWindowFunction agg} {windowIndex : Nat → Row} {start last : Int}

theorem resetAccumulator_spec (f : AggregateWindowFunction agg) :
    f.resetAccumulator.accumulator = some agg.createAccumulator ∧ f.resetAccumulator.currentStart < 0 := by
  unfold resetAccumulator
  split
  · exact ⟨rfl,Int.negSucc_lt_zero 0⟩
  · exact ⟨f.fresh (by omega),by omega⟩

/-- The accumulator has the rows of the current frame. -/
def Holds (f : AggregateWindowFunction agg) (windowIndex : Nat → Row) : Prop :=
  0 ≤ f.currentStart → f.currentStart ≤ f.currentEnd ∧
    f.accumulator = some (agg.addAll windowIndex (positions f.currentStart f.currentEnd) agg.createAccumulator)

theorem holds_resetAccumulator (f : AggregateWindowFunction agg) : f.resetAccumulator.Holds windowIndex :=
  fun h => absurd (resetAccumulator_spec f).2 (not_lt.mpr h)

theorem processRow_spec (h : f.Holds windowIndex) (hf : start < 0 ∨ start ≤ last) :
    (f.processRow windowIndex start last).Holds windowIndex ∧ (f.processRow windowIndex start last).accumulator =
      some (agg.addAll windowIndex (if start < 0 then [] else positions start last) agg.createAccumulator) := by
  have hr := (resetAccumulator_spec f).1
  unfold processRow
  split
  · exact ⟨holds_resetAccumulator f,hr⟩
  · rename_i hs
    suffices had : ∀ g : AggregateWindowFunction agg, g.currentStart = start → g.currentEnd = last →
        g.accumulator = some (agg.addAll windowIndex (positions start last) agg.createAccumulator) →
        g.Holds windowIndex ∧ g.accumulator = _ by
      split
      · rename_i hsm
        obtain ⟨hle,ha⟩ := h (by omega)
        refine had _ rfl rfl ?_
        change f.accumulator.map _ = _
        rw [ha,Option.map_some,Aggregate.addAll,Aggregate.addAll,← foldl_append,Aggregate.addAll]
        have hn : (f.currentEnd + 1).toNat = start.toNat + 1 * (f.currentEnd + 1 - start).toNat := by omega
        have hc : (f.currentEnd + 1 - start).toNat + (last + 1 - (f.currentEnd + 1)).toNat = (last + 1 - start).toNat := by omega
        rw [positions,positions,positions,← hsm.1,hn,range'_append,hc]
      · refine had _ rfl rfl ?_
        change f.resetAccumulator.accumulator.map _ = _
        rw [hr,Option.map_some]
    rintro g rfl rfl ha
    exact ⟨fun _ => ⟨hf.resolve_left hs,ha⟩,ha⟩

end AggregateWindowFunction

namespace FrameBoundType

def order : FrameBoundType → Nat
  | .unboundedPreceding => 0
  | .preceding => 1
  | .currentRow => 2
  | .following => 3
  | .unboundedFollowing => 4

def hasOffset (type : FrameBoundType) : Bool := type = .preceding ∨ type = .following

end FrameBoundType

/-- A sorted partition and a frame over it, with offsets that are neither NULL nor negative. -/
structure SortedPartition [PartialOrder κ] (key : Row → κ) where
  pagesIndex : Nat → Row
  partitionStart : Nat
  size : Nat
  frameInfo : FrameInfo Row
  ints : partitionStart + size ≤ 2147483647
  sorted : ∀ i j, i ≤ j → j < size → key (pagesIndex (partitionStart + i)) ≤ key (pagesIndex (partitionStart + j))
  kinds : frameInfo.first.type.order ≤ frameInfo.last.type.order
  starts : frameInfo.first.type ≠ .unboundedFollowing
  ends : frameInfo.last.type ≠ .unboundedPreceding
  ranges : frameInfo.type = .range → frameInfo.first.type.hasOffset = false ∧ frameInfo.last.type.hasOffset = false
  offsets : ∀ bound, bound = frameInfo.first ∨ bound = frameInfo.last → bound.type.hasOffset = true →
    ∀ i < size, ∃ value : Nat, bound.channel (pagesIndex (partitionStart + i)) = some (value : Int)

namespace SortedPartition
variable [PartialOrder κ] {key : Row → κ} (q : SortedPartition key) (i : Nat)

def row : Row := q.pagesIndex (q.partitionStart + i)

variable (bound : FrameBound Row)

def value (i : Nat) : Int := (bound.channel (q.row i)).getD 0

/-- The second row is not before the start of the frame of the first. -/
def StartsBy (j : Nat) : Prop :=
  match q.frameInfo.first.type with
  | .unboundedPreceding => True
  | .preceding => i - q.value q.frameInfo.first i ≤ j
  | .currentRow => if q.frameInfo.type = .range then key (q.row i) ≤ key (q.row j) else i ≤ j
  | .following => i + q.value q.frameInfo.first i ≤ j
  | .unboundedFollowing => False

/-- The second row is not after the end of the frame of the first. -/
def EndsBy (j : Nat) : Prop :=
  match q.frameInfo.last.type with
  | .unboundedPreceding => False
  | .preceding => j ≤ i - q.value q.frameInfo.last i
  | .currentRow => if q.frameInfo.type = .range then key (q.row j) ≤ key (q.row i) else j ≤ i
  | .following => j ≤ i + q.value q.frameInfo.last i
  | .unboundedFollowing => True

/-- The positions of the rows inside the frame of a row, in order. -/
def IsFrame (frame : List Nat) : Prop :=
  frame.Pairwise (· < ·) ∧ ∀ j, j ∈ frame ↔ j < q.size ∧ q.StartsBy i j ∧ q.EndsBy i j

/-- The position of a bound, if the partition went on before and after. -/
def boundary (unbounded : FrameBoundType) (edge peer : Int) (i : Nat) : Int :=
  if bound.type = unbounded then edge
  else match bound.type with
    | .preceding => i - q.value bound i
    | .following => i + q.value bound i
    | _ => if q.frameInfo.type = .range then peer else i

def lowest (first i : Nat) : Int := q.boundary q.frameInfo.first .unboundedPreceding 0 first i

def highest (last i : Nat) : Int := q.boundary q.frameInfo.last .unboundedFollowing (q.size - 1) (last - 1) i

/-- The rows from the first to before the last are the peers of a row. -/
structure Peers (i first last : Nat) : Prop where
  bounds : first ≤ i ∧ i < last ∧ last ≤ q.size
  low : ∀ k < q.size, key (q.row i) ≤ key (q.row k) ↔ first ≤ k
  high : ∀ k < q.size, key (q.row k) ≤ key (q.row i) ↔ k < last

/-- No row before has the key of this one. -/
def Leads : Prop := ∀ k < q.size, key (q.row i) ≤ key (q.row k) → i ≤ k

variable {q} {i first last : Nat}

/-- The row after one whose peers are known has the same peers, or it leads. -/
theorem Peers.next (h : q.Peers i first last) (hi : i + 1 < q.size) :
    i + 1 ≠ last ∧ q.Peers (i + 1) first last ∨ i + 1 = last ∧ q.Leads (i + 1) := by
  obtain ⟨hf,hl,he⟩ := h.bounds
  by_cases heq : i + 1 = last
  · refine .inr ⟨heq,fun k hk hle => ?_⟩
    by_contra hlt
    have hlw := (h.high (i + 1) hi).mp (hle.trans (q.sorted k i (by omega) (by omega)))
    omega
  · have hky : key (q.row (i + 1)) = key (q.row i) :=
      le_antisymm ((h.high (i + 1) hi).mpr (by omega)) (q.sorted i (i + 1) (by omega) hi)
    exact .inl ⟨heq,⟨by omega,by omega,he⟩,by rw [hky]; exact h.low,by rw [hky]; exact h.high⟩

section
variable (h : q.Peers i first last) {j : Nat} (hj : j < q.size)
include h hj

theorem startsBy_iff : q.StartsBy i j ↔ q.lowest first i ≤ j := by
  unfold StartsBy lowest boundary
  cases hs : q.frameInfo.first.type with
  | unboundedPreceding => simp
  | preceding => rfl
  | currentRow =>
    by_cases ht : q.frameInfo.type = .range
    · simpa [ht] using h.low j hj
    · simp [ht]
  | following => rfl
  | unboundedFollowing => exact absurd hs q.starts

theorem endsBy_iff : q.EndsBy i j ↔ j ≤ q.highest last i := by
  unfold EndsBy highest boundary
  cases hs : q.frameInfo.last.type with
  | unboundedPreceding => exact absurd hs q.ends
  | preceding => rfl
  | currentRow =>
    by_cases ht : q.frameInfo.type = .range
    · simpa [ht,Int.le_sub_one_iff] using h.high j hj
    · simp [ht]
  | following => rfl
  | unboundedFollowing => exact iff_of_true trivial (by rw [if_pos rfl]; omega)

end

end SortedPartition

namespace WindowPartition
open SortedPartition

theorem findPeerGroupEnd_spec (same : Nat → Bool) (left first : Nat) :
    first ≤ findPeerGroupEnd same left first ∧ findPeerGroupEnd same left first ≤ first + left ∧
      (∀ k, first ≤ k → k < findPeerGroupEnd same left first → same k = true) ∧
      (findPeerGroupEnd same left first < first + left → same (findPeerGroupEnd same left first) = false) := by
  induction left generalizing first with
  | zero => exact ⟨le_rfl,le_rfl,fun k hk hlt => absurd hk (not_le.mpr hlt),fun h => absurd h (lt_irrefl _)⟩
  | succ left ih =>
    obtain ⟨hle,hl,hs,hst⟩ := ih (first + 1)
    rw [findPeerGroupEnd]
    split
    · rename_i hf
      refine ⟨by omega,by omega,fun k hk hlt => ?_,fun h => hst (by omega)⟩
      obtain rfl | hk := Nat.eq_or_lt_of_le hk
      · exact hf
      · exact hs k hk hlt
    · rename_i hf
      exact ⟨le_rfl,by omega,fun k hk hlt => absurd hk (not_le.mpr hlt),fun _ => Bool.eq_false_iff.mpr hf⟩

variable [PartialOrder κ] {key : Row → κ} {q : SortedPartition key} {f : AggregateWindowFunction agg} {i first last : Nat}

def before (q : SortedPartition key) (f : AggregateWindowFunction agg) (first last i : Nat) : WindowPartition agg :=
  ⟨q.pagesIndex,q.partitionStart,q.partitionStart + q.size,f,q.partitionStart + first,q.partitionStart + last,q.partitionStart + i⟩

theorem updatePeerGroup_spec [DecidableEq κ] (f : AggregateWindowFunction agg) (first last : Nat) (hi : i < q.size)
    (h : q.Leads i) :
    ∃ last', updatePeerGroup key (before q f first last i) = before q f i last' i ∧ q.Peers i i last' := by
  have hs := findPeerGroupEnd_spec (fun position => key (q.row i) = key (q.pagesIndex position))
    (q.partitionStart + q.size - (q.partitionStart + i + 1)) (q.partitionStart + i + 1)
  generalize he : findPeerGroupEnd _ _ _ = stop at hs
  obtain ⟨hf,hl,hsm,hst⟩ := hs
  obtain ⟨last',rfl⟩ := Nat.exists_eq_add_of_le (show q.partitionStart ≤ stop by omega)
  refine ⟨last',?_,⟨le_rfl,by omega,by omega⟩,fun k hk => ⟨h k hk,fun hle => q.sorted i k hle hk⟩,fun k hk => ⟨fun hle => ?_,fun hlt => ?_⟩⟩
  · unfold before
    rw [← he]
    rfl
  · by_contra hlt
    refine of_decide_eq_false (hst (by omega)) (le_antisymm (q.sorted i last' (by omega) (by omega)) ?_)
    exact (q.sorted last' k (by omega) hk).trans hle
  · by_cases hki : k ≤ i
    · exact q.sorted k i hki hi
    · exact (of_decide_eq_true (hsm (q.partitionStart + k) (by omega) (by omega))).ge

section frame
variable {bound : FrameBound Row} (hi : i < q.size) (hbn : bound = q.frameInfo.first ∨ bound = q.frameInfo.last)
include hi hbn

theorem getFrameValue_eq (f : AggregateWindowFunction agg) (first last : Nat) (ho : bound.type.hasOffset = true)
    (type : String) :
    getFrameValue (before q f first last i) bound.channel type = .ok (q.value bound i) ∧ 0 ≤ q.value bound i := by
  obtain ⟨v,hv⟩ := q.offsets bound hbn ho i hi
  simp [getFrameValue,before,value,row,hv]

/-- The position of a bound is kept inside the partition. -/
theorem framePosition_eq {unbounded : FrameBoundType} {edge peer : Int} (he : 0 ≤ edge ∧ edge < q.size)
    (hp : 0 ≤ peer ∧ peer < q.size) (type : String) :
    framePosition q.frameInfo (before q f first last i) bound.type unbounded edge peer
      (getFrameValue (before q f first last i) bound.channel type) =
        .ok (max 0 (min (q.boundary bound unbounded edge peer i) (q.size - 1))) := by
  have hr : rowPosition (before q f first last i) = i := Nat.add_sub_cancel_left ..
  have hen : endPosition (before q f first last i) = q.size - 1 := by simp [endPosition,before]
  have hv := getFrameValue_eq hi hbn f first last
  have hin := q.ints
  unfold framePosition boundary
  rw [hr]
  by_cases heq : bound.type = unbounded
  · rw [if_pos heq,if_pos heq]
    exact congrArg _ (by omega)
  rw [if_neg heq,if_neg heq]
  cases ht : bound.type with
  | preceding =>
    obtain ⟨hok,hn⟩ := hv (by simp [ht,FrameBoundType.hasOffset]) type
    rw [hok]
    change preceding i _ = .ok (max 0 (min (i - _) _))
    unfold preceding toIntExact
    split
    · exact congrArg _ (by omega)
    · rw [if_pos (by omega)]
      exact congrArg _ (by omega)
  | following =>
    obtain ⟨hok,hn⟩ := hv (by simp [ht,FrameBoundType.hasOffset]) type
    rw [hok]
    change following i _ _ = .ok (max 0 (min (i + _) _))
    unfold following toIntExact
    split
    · exact congrArg _ (by omega)
    · rw [if_pos (by omega)]
      exact congrArg _ (by omega)
  | _ =>
    dsimp only
    split
    · exact congrArg _ (by omega)
    · exact congrArg _ (by omega)

end frame

section range
variable (hi : i < q.size) (h : q.Peers i first last)
include hi h

/-- A frame is found to be empty if it ends before it starts or lies outside the partition. -/
theorem emptyFrame_eq : emptyFrame q.frameInfo (before q f first last i) =
    .ok (decide (q.highest last i < max 0 (q.lowest first i) ∨ (q.size : Int) - 1 < q.lowest first i)) := by
  have hr : rowPosition (before q f first last i) = i := Nat.add_sub_cancel_left ..
  have hen : endPosition (before q f first last i) = q.size - 1 := by simp [endPosition,before]
  have hf ho := getFrameValue_eq hi (.inl rfl) f first last ho "starting"
  have hl ho := getFrameValue_eq hi (.inr rfl) f first last ho "ending"
  have hb := h.bounds
  have hk := q.kinds
  unfold emptyFrame highest lowest boundary getStartValue getEndValue
  cases hs : q.frameInfo.first.type <;> cases he : q.frameInfo.last.type <;>
    simp_all [FrameBoundType.hasOffset,FrameBoundType.order,pure,Except.pure,bind,Except.bind]
  all_goals grind

theorem frameStart_eq : frameStart q.frameInfo (before q f first last i) =
    .ok (max 0 (min (q.lowest first i) (q.size - 1))) := by
  have hb := h.bounds
  have hp : ((q.partitionStart + first : Nat) : Int) - q.partitionStart = first := by omega
  change framePosition _ _ _ _ _ (((q.partitionStart + first : Nat) : Int) - q.partitionStart) _ = _
  rw [hp]
  exact framePosition_eq hi (.inl rfl) (by omega) (by omega) "starting"

theorem frameEnd_eq : frameEnd q.frameInfo (before q f first last i) =
    .ok (max 0 (min (q.highest last i) (q.size - 1))) := by
  have hb := h.bounds
  have he : (endPosition (before q f first last i) : Int) = q.size - 1 := by simp [endPosition,before]; omega
  have hp : ((q.partitionStart + last : Nat) : Int) - q.partitionStart - 1 = last - 1 := by omega
  unfold frameEnd highest
  rw [he]
  change framePosition _ _ _ _ _ (((q.partitionStart + last : Nat) : Int) - q.partitionStart - 1) _ = _
  rw [hp]
  exact framePosition_eq hi (.inr rfl) (by omega) (by omega) "ending"

theorem getFrameRange_spec : ∃ start stop, getFrameRange q.frameInfo (before q f first last i) = .ok (start,stop) ∧
    (start < 0 ∨ start ≤ stop) ∧ q.IsFrame i (if start < 0 then [] else positions start stop) := by
  unfold getFrameRange
  rw [emptyFrame_eq hi h]
  by_cases hem : q.highest last i < max 0 (q.lowest first i) ∨ (q.size : Int) - 1 < q.lowest first i
  · refine ⟨-1,-1,?_,.inl (by decide),.nil,fun j => iff_of_false not_mem_nil ?_⟩
    · rw [decide_eq_true hem]
      rfl
    · rintro ⟨hj,hs,he⟩
      rw [startsBy_iff h hj] at hs
      rw [endsBy_iff h hj] at he
      omega
  · refine ⟨max 0 (min (q.lowest first i) (q.size - 1)),max 0 (min (q.highest last i) (q.size - 1)),?_,.inr (by omega),?_⟩
    · rw [decide_eq_false hem]
      rw [frameStart_eq hi h,frameEnd_eq hi h]
      rfl
    · rw [if_neg (by omega)]
      refine ⟨pairwise_lt_range' ..,fun j => ?_⟩
      rw [positions,mem_range'_1]
      constructor
      · intro hj
        have hlt : j < q.size := by omega
        exact ⟨hlt,(startsBy_iff h hlt).mpr (by omega),(endsBy_iff h hlt).mpr (by omega)⟩
      · rintro ⟨hlt,hs,he⟩
        rw [startsBy_iff h hlt] at hs
        rw [endsBy_iff h hlt] at he
        omega

end range

/-- The value of a row is the aggregate of the rows of its frame, in order. -/
def IsValue (q : SortedPartition key) (agg : Aggregate Row Acc Out) (i : Nat) (value : Out) : Prop :=
  ∃ frame, q.IsFrame i frame ∧ value = agg.evaluateFinal (agg.addAll q.row frame agg.createAccumulator)

/-- What holds before a row: it starts a group of peers, or it is in the current one. -/
def Ready (q : SortedPartition key) (f : AggregateWindowFunction agg) (first last i : Nat) : Prop :=
  f.Holds q.row ∧ (i < q.size → i ≠ last ∧ q.Peers i first last ∨ i = last ∧ q.Leads i)

variable [DecidableEq κ]

theorem processNextRow_spec (hi : i < q.size) (h : Ready q f first last i) : ∃ value f' first' last',
    processNextRow key q.frameInfo (before q f first last i) = .ok (value,before q f' first' last' (i + 1)) ∧
      Ready q f' first' last' (i + 1) ∧ IsValue q agg i value := by
  have hm : (before q f first last i).currentPosition < (before q f first last i).partitionEnd :=
    Nat.add_lt_add_left hi q.partitionStart
  have hp : ∃ first' last',
      (if (before q f first last i).currentPosition = (before q f first last i).peerGroupEnd then
        updatePeerGroup key (before q f first last i) else before q f first last i) = before q f first' last' i ∧
      q.Peers i first' last' := by
    obtain ⟨hne,hp⟩ | ⟨rfl,hl⟩ := h.2 hi
    · exact ⟨first,last,if_neg fun heq => hne (Nat.add_left_cancel heq),hp⟩
    · obtain ⟨last',heq,hp⟩ := updatePeerGroup_spec f first i hi hl
      exact ⟨i,last',(if_pos rfl).trans heq,hp⟩
  obtain ⟨first',last',heq,hp⟩ := hp
  obtain ⟨start,stop,hr,hf,hif⟩ := getFrameRange_spec (f := f) hi hp
  obtain ⟨hh,ha⟩ := AggregateWindowFunction.processRow_spec h.1 hf
  refine ⟨_,f.processRow q.row start stop,first',last',?_,⟨hh,hp.next⟩,_,hif,rfl⟩
  unfold processNextRow
  rw [if_neg (not_not.mpr hm),heq]
  change (getFrameRange q.frameInfo (before q f first' last' i) >>= _) = _
  rw [hr]
  have hrw : (fun position => q.pagesIndex (q.partitionStart + position)) = q.row := rfl
  simp only [bind,Except.bind,before,hrw,ha]
  rfl

theorem processRows_spec {rows : Nat} (hrw : i + rows = q.size) (h : Ready q f first last i) :
    ∃ values p', processRows key q.frameInfo rows (before q f first last i) = .ok (values,p') ∧
      List.Forall₂ (IsValue q agg) (List.range' i rows) values := by
  induction rows generalizing f first last i with
  | zero => exact ⟨[],_,rfl,.nil⟩
  | succ rows ih =>
    obtain ⟨value,f',first',last',hn,hr,hvl⟩ := processNextRow_spec (by omega) h
    obtain ⟨values,p',hrs,hv⟩ := ih (by omega) hr
    refine ⟨value :: values,p',?_,.cons hvl hv⟩
    rw [processRows,hn]
    change (processRows key q.frameInfo rows _ >>= _) = _
    rw [hrs]
    rfl

/-- In a sorted partition every row gets the aggregate of exactly the rows inside its frame,
whatever the function held before. -/
theorem processRows_aggregates_frames (q : SortedPartition key) (f : AggregateWindowFunction agg) :
    ∃ values p', processRows key q.frameInfo q.size
        (WindowPartition.new key q.pagesIndex q.partitionStart (q.partitionStart + q.size) f) = .ok (values,p') ∧
      List.Forall₂ (IsValue q agg) (range q.size) values := by
  obtain hs | hs := Nat.eq_zero_or_pos q.size
  · rw [hs]
    exact ⟨[],_,rfl,.nil⟩
  · obtain ⟨last,heq,hp⟩ := updatePeerGroup_spec f.resetAccumulator 0 0 hs fun k _ _ => Nat.zero_le k
    have hr : Ready q f.resetAccumulator 0 last 0 :=
      ⟨AggregateWindowFunction.holds_resetAccumulator f,fun _ => .inl ⟨(Nat.ne_of_lt hp.bounds.2.1),hp⟩⟩
    have hrn := processRows_spec (Nat.zero_add q.size) hr
    rw [← heq,← range_eq_range'] at hrn
    exact hrn

namespace Payments

/-- A day, an amount and an offset. -/
abbrev Payment := Nat × Int × Int

def rows : List Payment := [(9,40,0),(1,1,0),(1,2,1),(2,4,0),(4,8,9)]

def frameInfo (type : WindowFrameType) (first last : FrameBoundType) : FrameInfo Payment :=
  ⟨type,⟨first,fun row => some row.2.2⟩,⟨last,fun row => some row.2.2⟩⟩

/-- Four rows by day, after one of another partition; the first two are peers. -/
def partition (type : WindowFrameType) (first last : FrameBoundType) (hk : first.order ≤ last.order)
    (hs : first ≠ .unboundedFollowing) (he : last ≠ .unboundedPreceding)
    (hr : type = .range → first.hasOffset = false ∧ last.hasOffset = false) : SortedPartition (Prod.fst : Payment → Nat) where
  pagesIndex i := rows.getD i (0,0,0)
  partitionStart := 1
  size := 4
  frameInfo := frameInfo type first last
  ints := by decide
  sorted i j hij hj := (by decide : ∀ j < 4, ∀ i ≤ j, (rows.getD (1 + i) (0,0,0)).1 ≤ (rows.getD (1 + j) (0,0,0)).1) j hj i hij
  kinds := hk
  starts := hs
  ends := he
  ranges := hr
  offsets := by
    have ho : ∀ i < 4, (rows.getD (1 + i) (0,0,0)).2.2 = ([0,1,0,9].getD i 0 : Nat) := by decide
    rintro _ (rfl | rfl) _ i hi <;> exact ⟨_,congrArg some (ho i hi)⟩

def toPeers : SortedPartition (Prod.fst : Payment → Nat) :=
  partition .range .unboundedPreceding .currentRow (by decide) (by decide) (by decide) (by decide)

def around : SortedPartition (Prod.fst : Payment → Nat) :=
  partition .rows .preceding .following (by decide) (by decide) (by decide) (by decide)

def total : Aggregate Payment Int Int := ⟨0,fun sum row => sum + row.2.1,id⟩

/-- The sums up to the last peer, and those of as many rows before and after the row as it says. -/
theorem processRows_aggregates_frames_payments :
    (∃ p' : WindowPartition total, processRows Prod.fst toPeers.frameInfo 4 (.new Prod.fst toPeers.pagesIndex 1 5 .new) =
      .ok ([3,3,7,15],p')) ∧ List.Forall₂ (IsValue toPeers total) (range 4) [3,3,7,15] ∧
    (∃ p' : WindowPartition total, processRows Prod.fst around.frameInfo 4 (.new Prod.fst around.pagesIndex 1 5 .new) =
      .ok ([1,7,4,15],p')) ∧ List.Forall₂ (IsValue around total) (range 4) [1,7,4,15] := by
  obtain ⟨values,p',hr,hv⟩ := processRows_aggregates_frames toPeers (.new : AggregateWindowFunction total)
  obtain ⟨others,q',hs,hw⟩ := processRows_aggregates_frames around (.new : AggregateWindowFunction total)
  obtain rfl : [3,3,7,15] = values := Except.ok.inj (congrArg (Except.map Prod.fst) hr)
  obtain rfl : [1,7,4,15] = others := Except.ok.inj (congrArg (Except.map Prod.fst) hs)
  exact ⟨⟨p',hr⟩,hv,⟨q',hs⟩,hw⟩

end Payments
end WindowPartition
end HetuCore.Window
