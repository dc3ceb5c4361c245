import HetuCore.Foundation.Outcome
import HetuCore.Snapshot.MarkerFreshness
import HetuCore.Snapshot.MarkerSplitSource

namespace HetuCore.Snapshot
open Foundation SplitReplay List
variable {σ : Type}

/-- What a source has returned on its timeline: its markers with the splits returned before
them, the splits returned before the marker resumed to, and those returned since. -/
structure SourceLog (σ : Type) where
  emitted : List (Int × List σ)
  before : List σ
  since : List σ

namespace SourceLog

variable (log : SourceLog σ)

def returned : List σ := log.before ++ log.since

/-- The marker of snapshot 0 stands for no snapshot. -/
def addSplit : Split σ → SourceLog σ
  | .data split => { log with since := log.since ++ [split] }
  | .marker sid resuming =>
    if resuming ∨ sid = 0 then log else { log with emitted := log.emitted ++ [(sid,log.returned)] }

def add (batch : Option (SplitBatch σ)) : SourceLog σ :=
  batch.elim log fun batch => batch.splits.foldl addSplit log

def rewind (sid : Int) : SourceLog σ :=
  if sid = 0 then ⟨[],[],[]⟩
  else match log.emitted.find? fun e => e.1 = sid with
    | some e => ⟨(log.emitted.takeWhile fun e => e.1 ≠ sid) ++ [e],e.2,[]⟩
    | none => log

theorem add_data (splits : List σ) (lastBatch : Bool) :
    log.add (some ⟨splits.map .data,lastBatch⟩) = { log with since := log.since ++ splits } := by
  change (splits.map .data).foldl addSplit log = _
  induction splits generalizing log with
  | nil => simp
  | cons split splits ih =>
    rw [map_cons,foldl_cons,ih]
    simp [addSplit]

end SourceLog

/-- The buffer is what the wrapped source has delivered, the log what stands before the
position, and every marker on the timeline stands where its splits end. -/
structure Replayed (sequence : List σ) (r : SplitReplay σ) (log : SourceLog σ) : Prop where
  buffered : r.splitBuffer <+: sequence
  position : r.bufferPosition ≤ r.splitBuffer.length
  returned : log.returned = r.splitBuffer.take r.bufferPosition
  exhausted : r.sourceExhausted = true → r.splitBuffer = sequence
  zero : r.snapshotBufferPositions.get 0 = some 0
  emitted : ∀ e ∈ log.emitted, ∃ p ≤ r.splitBuffer.length,
    r.snapshotBufferPositions.get e.1 = some p ∧ e.2 = r.splitBuffer.take p

namespace Replayed
variable {sequence : List σ} {r : SplitReplay σ} {log : SourceLog σ}

theorem new : Replayed sequence .new ⟨[],[],[]⟩ := by
  refine ⟨List.nil_prefix,le_rfl,rfl,Bool.noConfusion,?_,nofun⟩
  exact (LinkedMap.get_put ..).trans (if_pos rfl)

section
variable (h : Replayed sequence r log)
include h

theorem returned_of_drained (hd : r.drained = true) : log.returned = sequence := by
  obtain ⟨he,hp⟩ : r.sourceExhausted = true ∧ r.bufferPosition = r.splitBuffer.length := by
    simpa [drained] using hd
  rw [h.returned,hp,take_length,h.exhausted he]

theorem returned_isInitial : log.returned <+: sequence := by
  rw [h.returned]
  exact (List.take_prefix ..).trans h.buffered

/-- A marker with an id that the source has not used stands where the returned splits end. -/
theorem record {sid : Int} (hz : sid ≠ 0) (hf : r.snapshotBufferPositions.get sid = none) :
    Replayed sequence (r.record sid) (log.addSplit (.marker sid false)) := by
  rw [SourceLog.addSplit,if_neg (by simp [hz])]
  refine ⟨h.buffered,h.position,h.returned,h.exhausted,?_,?_⟩
  · exact (LinkedMap.get_put ..).trans ((if_neg (Ne.symm hz)).trans h.zero)
  · intro e he
    obtain he | he := mem_append.mp he
    · obtain ⟨p,hp,hg,hs⟩ := h.emitted e he
      refine ⟨p,hp,?_,hs⟩
      refine (LinkedMap.get_put ..).trans ((if_neg ?_).trans hg)
      rintro heq
      rw [heq,hf] at hg
      cases hg
    · rw [mem_singleton.mp he]
      exact ⟨r.bufferPosition,h.position,(LinkedMap.get_put ..).trans (if_pos rfl),h.returned⟩

theorem advance {n : Nat} (hn : r.bufferPosition + n ≤ r.splitBuffer.length) :
    Replayed sequence { r with bufferPosition := r.bufferPosition + n }
      { log with since := log.since ++ (r.splitBuffer.drop r.bufferPosition).take n } := by
  refine ⟨h.buffered,hn,?_,h.exhausted,h.zero,h.emitted⟩
  rw [take_add,← h.returned,SourceLog.returned,SourceLog.returned,append_assoc]

theorem deliver (count : Nat) :
    Replayed sequence { r with splitBuffer := r.splitBuffer ++ (sequence.drop r.splitBuffer.length).take count } log := by
  have hb : r.splitBuffer = sequence.take r.splitBuffer.length := prefix_iff_eq_take.mp h.buffered
  have hk {p : Nat} (hp : p ≤ r.splitBuffer.length) (splits : List σ) :
      (r.splitBuffer ++ splits).take p = r.splitBuffer.take p := take_append_of_le_length hp
  refine ⟨?_,?_,?_,?_,h.zero,?_⟩
  · conv_lhs => rw [hb]
    rw [length_take,min_eq_left h.buffered.length_le,← take_add]
    exact List.take_prefix ..
  · exact h.position.trans (length_append ▸ Nat.le_add_right ..)
  · rw [h.returned,hk h.position]
  · intro hex
    have ha := h.exhausted hex
    simp [ha]
  · intro e he
    obtain ⟨p,hp,hg,hs⟩ := h.emitted e he
    exact ⟨p,hp.trans (length_append ▸ Nat.le_add_right ..),hg,hs.trans (hk hp _).symm⟩

theorem exhaust (last : Bool) (hl : last = true → r.splitBuffer.length = sequence.length) :
    Replayed sequence { r with sourceExhausted := r.sourceExhausted || last } log := by
  refine ⟨h.buffered,h.position,h.returned,?_,h.zero,h.emitted⟩
  intro he
  obtain he | hl' := Bool.or_eq_true_iff.mp he
  · exact h.exhausted he
  · exact h.buffered.eq_of_length (hl hl')

end

theorem fetch {existing : List σ} (h : Replayed sequence r { log with since := log.since ++ existing })
    (he : r.bufferPosition = r.splitBuffer.length) (reply : Option (Nat × Bool)) :
    ∃ result r', r.fetchSplits sequence existing reply = .ok (result,r') ∧
      r'.snapshotBufferPositions = r.snapshotBufferPositions ∧
      Replayed sequence r' { log with since := log.since ++ (result.map Prod.fst).getD [] } ∧
      ∀ p ∈ result, p.2 = true → r'.drained = true := by
  cases reply with
  | none =>
    refine ⟨_,r,rfl,rfl,?_,?_⟩
    · cases existing with
      | nil | cons split existing => exact h
    · cases existing with
      | nil => simp
      | cons split existing =>
        rintro p ⟨⟩ hl
        cases hl
  | some answer =>
    obtain ⟨count,last⟩ := answer
    have hd := h.deliver count
    rw [fetchSplits]
    generalize (sequence.drop r.splitBuffer.length).take count = splits at hd ⊢
    rw [if_neg (by simp [he])]
    refine ⟨_,_,rfl,rfl,?_,?_⟩
    · have ha := hd.advance (n := splits.length) (by simp [he])
      have hex := ha.exhaust (last && (r.splitBuffer ++ splits).length == sequence.length) (by simp)
      simpa [he] using hex
    · rintro p ⟨⟩ hl
      rw [drained]
      dsimp only at hl ⊢
      rw [hl]
      simp [he]

theorem prepare (h : Replayed sequence r log) (maxSize : Nat) (reply : Option (Nat × Bool)) :
    ∃ result r', r.prepareNextBatch sequence maxSize reply = .ok (result,r') ∧
      r'.snapshotBufferPositions = r.snapshotBufferPositions ∧
      Replayed sequence r' { log with since := log.since ++ (result.map Prod.fst).getD [] } ∧
      ∀ p ∈ result, p.2 = true → r'.drained = true := by
  have hp := h.position
  rw [prepareNextBatch]
  split
  · refine ⟨_,_,rfl,rfl,h.advance (by omega),?_⟩
    rintro p ⟨⟩ hl
    obtain ⟨he,ha⟩ : r.sourceExhausted = true ∧ min (r.splitBuffer.length - r.bufferPosition) maxSize =
        r.splitBuffer.length - r.bufferPosition := by simpa using hl
    simp only [drained,he,Bool.true_and,beq_iff_eq]
    omega
  · have hen : r.bufferPosition + (r.splitBuffer.length - r.bufferPosition) = r.splitBuffer.length := by omega
    exact (h.advance (Nat.le_of_eq hen)).fetch hen reply

/-- While splits remain, a batch holds some if the wrapped source answers with one. -/
theorem prepare_ne_nil {maxSize count : Nat} {last : Bool} {result : Option (List σ × Bool) × SplitReplay σ}
    (h : Replayed sequence r log) (hn : log.returned ≠ sequence) (hs : 0 < maxSize) (hc : 0 < count)
    (hr : r.prepareNextBatch sequence maxSize (some (count,last)) = .ok result) :
    ∃ splits lastBatch, result.1 = some (splits,lastBatch) ∧ splits ≠ [] := by
  have hp := h.position
  have hl : ∀ n, 0 < n → r.bufferPosition < r.splitBuffer.length →
      (r.splitBuffer.drop r.bufferPosition).take n ≠ [] := fun n h₀ hlt => by
    simp only [ne_eq,take_eq_nil_iff,drop_eq_nil_iff]
    omega
  rw [prepareNextBatch] at hr
  split at hr
  · rename_i hb
    cases hr
    have hd : ¬r.drained = true := fun hd => hn (h.returned_of_drained hd)
    have hlt : r.bufferPosition < r.splitBuffer.length := by
      obtain hb | hb := hb
      · omega
      · simp only [drained,hb,Bool.true_and,beq_iff_eq] at hd
        omega
    exact ⟨_,_,rfl,hl _ (by omega) hlt⟩
  · dsimp only [fetchSplits] at hr
    split at hr
    · cases hr
    · cases hr
      refine ⟨_,_,rfl,fun he => ?_⟩
      obtain ⟨he,ht⟩ := append_eq_nil_iff.mp he
      have hle : r.bufferPosition = r.splitBuffer.length := by
        by_contra hne
        exact hl _ (by omega) (by omega) he
      have hlen : sequence.length ≤ r.splitBuffer.length := by
        simp only [take_eq_nil_iff,drop_eq_nil_iff] at ht
        omega
      exact hn (by rw [h.returned,hle,take_length,h.buffered.eq_of_length_le hlen])

/-- A resume to the start, or to a marker on the timeline, finds its position. -/
theorem rewind {sid : Int} (h : Replayed sequence r log)
    (hm : sid = 0 ∨ sid ∈ log.emitted.map Prod.fst) :
    ∃ r', r.rewind sid = .ok r' ∧ r'.snapshotBufferPositions = r.snapshotBufferPositions ∧
      Replayed sequence r' (log.rewind sid) := by
  have hat {p : Nat} {log' : SourceLog σ} (hg : r.snapshotBufferPositions.get sid = some p)
      (hp : p ≤ r.splitBuffer.length) (hr : log'.returned = r.splitBuffer.take p)
      (hem : ∀ e ∈ log'.emitted, e ∈ log.emitted) :
      ∃ r', r.rewind sid = .ok r' ∧ r'.snapshotBufferPositions = r.snapshotBufferPositions ∧
        Replayed sequence r' log' := by
    refine ⟨{ r with bufferPosition := p },?_,rfl,h.buffered,hp,hr,h.exhausted,h.zero,
      fun e he => h.emitted e (hem e he)⟩
    rw [SplitReplay.rewind,hg]
    rfl
  by_cases hz : sid = 0
  · subst hz
    exact hat h.zero (Nat.zero_le _) rfl nofun
  · rw [SourceLog.rewind,if_neg hz]
    obtain ⟨e₀,he₀,hid⟩ := mem_map.mp (hm.resolve_left hz)
    cases hf : log.emitted.find? fun e => e.1 = sid with
    | none => exact absurd hid (by simpa using find?_eq_none.mp hf e₀ he₀)
    | some e =>
      have he := mem_of_find?_eq_some hf
      have hk : e.1 = sid := by simpa using find?_some hf
      obtain ⟨p,hp,hg,hs⟩ := h.emitted e he
      refine hat (hk ▸ hg) hp (by simpa [SourceLog.returned] using hs) ?_
      intro d hd
      obtain hd | hd := mem_append.mp hd
      · exact (List.takeWhile_prefix _).subset hd
      · exact mem_singleton.mp hd ▸ he

end Replayed
end HetuCore.Snapshot
