import HetuCore.Orc.LongBlocksV1

namespace HetuCore.Orc
open Foundation LongInputStreamV1 BlockLog List

namespace LongOutputStreamV1
variable {signed : Bool} {s s' : LongOutputStreamV1} {log log' : BlockLog (format signed)}
  {actions : List (WriteAction Long)}
  {value : Long}

def Unmatched (delta : Long) : Prop := isValidDelta delta ∨ delta = unmatchableDeltaValue

/-- The pending values: none, literals, literals that end in two values with a difference, or a
run. -/
inductive Pending (s : LongOutputStreamV1) : List Long → Prop where
  | none (hbuffer : s.sequenceBuffer = []) (hcount : s.runCount = 0) (hvalue : s.lastValue = 0)
      (hdelta : s.lastDelta = unmatchableDeltaValue) : Pending s []
  | one (front : List Long) (hbuffer : s.sequenceBuffer = front ++ [s.lastValue]) (hcount : s.runCount = 1)
      (hdelta : s.lastDelta = unmatchableDeltaValue) : Pending s (front ++ [s.lastValue])
  | two (front : List Long) (value : Long) (hbuffer : s.sequenceBuffer = front ++ [value,s.lastValue]) (hcount : s.runCount = 2)
      (hdelta : s.lastValue - value = s.lastDelta) (hunmatched : Unmatched s.lastDelta) :
      Pending s (front ++ [value,s.lastValue])
  | run (first : Long) (hcount : minRepeatSize ≤ s.runCount) (hsize : s.size = s.runCount)
      (hlast : s.lastValue = first + BitVec.ofNat 64 (s.runCount - 1) * s.lastDelta) (hunmatched : Unmatched s.lastDelta) :
      Pending s (runValues first s.lastDelta s.runCount)

/-- The writer and the log of its blocks. -/
structure Written (signed : Bool) (s : LongOutputStreamV1) (log : BlockLog (format signed))
    (actions : List (WriteAction Long)) : Prop where
  signed : s.signed = signed
  logs : log.Logs ⟨s.buffer,s.checkpoints⟩ actions
  pending : Pending s log.pending
  bounded : s.size ≤ 128

/-- The blocks are exact, and no run goes on with the sentinel. -/
def Sound (s : LongOutputStreamV1) (log : BlockLog (format signed)) : Prop :=
  log.Exact ∧ ¬ (minRepeatSize ≤ s.runCount ∧ s.lastDelta = unmatchableDeltaValue)

theorem sound_iff (hc : s.runCount < minRepeatSize) : Sound s log ↔ log.Exact := by
  exact and_iff_left fun h => absurd h.1 (Nat.not_le.mpr hc)

variable {first : Long} {pending : List Long}

section
variable (h : Pending s pending)
include h

theorem Pending.length : s.sequenceBuffer.length = pending.length := by
  cases h with
  | none hb | one front hb | two front value hb => rw [hb]
  | run first hc hs => exact hs.trans (length_runValues ..).symm

theorem Pending.other (checkpoints : List BlockCheckpoint) (closed : Bool) :
    Pending { s with checkpoints := checkpoints, closed := closed } pending := by
  cases h with
  | none hb hc hv hd => exact .none hb hc hv hd
  | one front hb hc hd => exact .one front hb hc hd
  | two front value hb hc hd hu => exact .two front value hb hc hd hu
  | run first hc hs hl hu => exact .run first hc hs hl hu

theorem Pending.literals (hc : s.runCount < minRepeatSize) : s.sequenceBuffer = pending := by
  cases h with
  | none hb | one front hb | two front value hb => exact hb
  | run first hr => omega

theorem Pending.endsWith (hc : s.runCount < minRepeatSize) (hne : s.sequenceBuffer ≠ []) :
    ∃ front, s.sequenceBuffer = front ++ [s.lastValue] := by
  cases h with
  | none hb => exact absurd hb hne
  | one front hb => exact ⟨front,hb⟩
  | two front value hb => exact ⟨front ++ [value],by simp [hb]⟩
  | run first hr => omega

theorem Pending.runCount_le : s.runCount ≤ s.size := by
  rw [size]
  cases h with
  | none hb hc => omega
  | one front hb hc | two front value hb hc => simp [hb,hc]
  | run first hc hs => exact Nat.le_of_eq hs.symm

theorem Pending.isRun (hc : minRepeatSize ≤ s.runCount) :
    ∃ first, pending = runValues first s.lastDelta s.runCount ∧ s.size = s.runCount ∧
      s.lastValue = first + BitVec.ofNat 64 (s.runCount - 1) * s.lastDelta ∧ Unmatched s.lastDelta := by
  rw [minRepeatSize] at hc
  cases h with
  | none hb hn | one front hb ho | two front value hb ht => omega
  | run first hr hs hl hu => exact ⟨first,rfl,hs,hl,hu⟩

end

section
variable (hsg : s.signed = signed)
include hsg

theorem flushLiteralSequence_eq {rest : List Long} {count : Nat}
    (ht : s.sequenceBuffer.take count = first :: rest) (hc : count = rest.length + 1) (hl : rest.length < 128) :
    s.flushLiteralSequence count = .ok (s.write (literalSegment signed first rest hl).bytes) := by
  rw [flushLiteralSequence,ht,hsg,hc]
  rfl

theorem flushRleSequence_eq {control : Nat} (hc : control < 128) (hcn : s.runCount = control + minRepeatSize)
    (hl : s.lastValue = first + BitVec.ofNat 64 (s.runCount - 1) * s.lastDelta) :
    s.flushRleSequence s.runCount = .ok (s.write (runSegment signed control hc s.lastDelta first).bytes) := by
  have hs : s.lastValue - s.lastDelta * BitVec.ofNat 64 (s.runCount - 1) = first := by
    rw [hl,BitVec.mul_comm s.lastDelta]
    exact BitVec.add_sub_cancel ..
  have hb : s.runCount - minRepeatSize = control := by omega
  have hp : s.runCount ≠ 0 := by
    rw [hcn]
    exact Nat.succ_ne_zero _
  rw [flushRleSequence,if_neg hp]
  simp only [hs,hsg,hb]
  rfl

variable (hlg : log.Logs ⟨s.buffer,s.checkpoints⟩ actions)
include hlg

theorem flushLiterals {front : List Long} (rest : List Long) (hp : log.pending = first :: front ++ rest)
    (hb : s.sequenceBuffer.take (front.length + 1) = first :: front) (hl : front.length < 128) :
    ∃ bytes log', s.flushLiteralSequence (front.length + 1) = .ok (s.write bytes) ∧
      log'.Logs ⟨(s.write bytes).buffer,s.checkpoints⟩ actions ∧ (log' : BlockLog (format signed)).pending = rest ∧
      (log'.Exact ↔ log.Exact) ∧ log'.segments ≠ [] := by
  let segment := literalSegment signed first front hl
  have hv : (format signed).values segment.block = first :: front := values_literals first front
  have hs : (format signed).size segment.block = (first :: front).length := rfl
  refine ⟨segment.bytes,log.flush segment (first :: front) rest hs,flushLiteralSequence_eq hsg hb rfl hl,
    hlg.flush hs hp,rfl,?_,by simp [flush]⟩
  rw [exact_flush]
  exact ⟨fun h => h.1,fun h => ⟨h,hv⟩⟩

/-- A run becomes a block, which is exact unless its difference is the sentinel. -/
theorem flushRun (rest : List Long) (hcn : minRepeatSize ≤ s.runCount) (hsz : s.runCount ≤ 128)
    (hp : log.pending = runValues first s.lastDelta s.runCount ++ rest)
    (hl : s.lastValue = first + BitVec.ofNat 64 (s.runCount - 1) * s.lastDelta) (hu : Unmatched s.lastDelta) :
    ∃ bytes log', s.flushRleSequence s.runCount = .ok (s.write bytes) ∧
      log'.Logs ⟨(s.write bytes).buffer,s.checkpoints⟩ actions ∧ (log' : BlockLog (format signed)).pending = rest ∧
      (log'.Exact ↔ log.Exact ∧ s.lastDelta ≠ unmatchableDeltaValue) := by
  have hc : s.runCount - minRepeatSize < 128 := by
    rw [minRepeatSize]
    omega
  have ht : s.runCount = s.runCount - minRepeatSize + minRepeatSize := (Nat.sub_add_cancel hcn).symm
  let segment := runSegment signed (s.runCount - minRepeatSize) hc s.lastDelta first
  have hs : (format signed).size segment.block = (runValues first s.lastDelta s.runCount).length := by
    rw [length_runValues]
    exact ht.symm
  refine ⟨segment.bytes,log.flush segment _ rest hs,flushRleSequence_eq hsg hc ht hl,hlg.flush hs hp,rfl,?_⟩
  have hv := values_runSegment signed hc first hu
  rw [← ht] at hv
  rw [exact_flush]
  exact and_congr_right fun _ => hv

end

theorem Written.flushSequence (h : Written signed s log actions) (hne : log.pending ≠ []) :
    ∃ s' log', s.flushSequence = .ok s' ∧ Written signed s' log' actions ∧ log'.pending = [] ∧ s'.closed = s.closed ∧
      s'.checkpoints = s.checkpoints ∧ s'.size = 0 ∧ (Sound s' log' ↔ Sound s log) := by
  obtain ⟨hsg,hlg,hp,hs⟩ := h
  have hl : s.size = log.pending.length := hp.length
  have hps := length_pos_iff.mpr hne
  rw [LongOutputStreamV1.flushSequence,if_neg (by omega)]
  by_cases hc : minRepeatSize ≤ s.runCount
  · obtain ⟨first,hv,hrn,hls,hu⟩ := hp.isRun hc
    obtain ⟨bytes,log',hf,hl',hr,he⟩ := flushRun hsg hlg [] hc (by omega)
      (by rw [hv,append_nil]) hls hu
    rw [flushRunOrLiterals,if_pos hc,hf]
    refine ⟨_,log',rfl,⟨hsg,hl',?_,Nat.zero_le _⟩,hr,rfl,rfl,rfl,?_⟩
    · rw [hr]
      exact .none rfl rfl rfl rfl
    · rw [sound_iff (Nat.succ_pos 2),he,Sound]
      simp [hc]
  · obtain ⟨first,front,hcn⟩ := exists_cons_of_ne_nil hne
    have hb := hp.literals (by omega)
    have hfr : s.size = front.length + 1 := by rw [hl,hcn,length_cons]
    obtain ⟨bytes,log',hf,hl',hr,he,-⟩ := flushLiterals hsg hlg []
      (by rw [hcn,append_nil]) (by rw [hb,hcn]; exact take_of_length_le (by simp)) (by omega)
    rw [flushRunOrLiterals,if_neg hc,hfr,hf]
    refine ⟨_,log',rfl,⟨hsg,hl',?_,Nat.zero_le _⟩,hr,rfl,rfl,rfl,?_⟩
    · rw [hr]
      exact .none rfl rfl rfl rfl
    · rw [sound_iff (Nat.succ_pos 2),he,Sound]
      simp [hc]

/-- The step that starts a run with the sentinel for its difference. -/
def StartsUnmatchable (s : LongOutputStreamV1) (value : Long) : Prop :=
  s.size < 128 ∧ s.runCount = 2 ∧ s.lastDelta = unmatchableDeltaValue ∧ value - s.lastValue = unmatchableDeltaValue

instance (s : LongOutputStreamV1) (value : Long) : Decidable (StartsUnmatchable s value) :=
  inferInstanceAs (Decidable (_ ∧ _ ∧ _ ∧ _))

theorem eq_add_of_sub {a b delta : Long} (h : a - b = delta) : a = b + delta := by
  rw [← h,BitVec.add_comm]
  exact (BitVec.sub_add_cancel a b).symm

theorem runValues_three {a b c delta : Long} (hab : b - a = delta) (hbc : c - b = delta) : [a,b,c] = runValues a delta 3 := by
  rw [eq_add_of_sub hbc,eq_add_of_sub hab]
  simp only [runValues,range_succ,range_zero]
  simp only [nil_append,cons_append,map_cons,map_nil]
  have hz : a + BitVec.ofNat 64 0 * delta = a := by simp
  have ho : a + BitVec.ofNat 64 1 * delta = a + delta := by simp
  have ht : a + BitVec.ofNat 64 2 * delta = a + delta + delta := by
    rw [BitVec.add_assoc,← BitVec.two_mul]
  rw [hz,ho,ht]

theorem extend_eq {first delta last value : Long} {count : Nat} (hc : 0 < count)
    (hl : last = first + BitVec.ofNat 64 (count - 1) * delta) (hv : value - last = delta) :
    value = first + BitVec.ofNat 64 count * delta := by
  have hs : BitVec.ofNat 64 count = BitVec.ofNat 64 (count - 1) + 1#64 := by
    rw [show count = count - 1 + 1 by omega,BitVec.ofNat_add]
    rfl
  rw [eq_add_of_sub hv,hl,hs,BitVec.add_mul,BitVec.one_mul,BitVec.add_assoc]

def Writes (signed : Bool) (s : LongOutputStreamV1) (log : BlockLog (format signed)) (actions : List (WriteAction Long))
    (value : Long) (result : Except String LongOutputStreamV1) : Prop :=
  ∃ s' log', result = .ok s' ∧ Written signed { s' with lastValue := value } log' (actions ++ [.write value]) ∧
    s'.closed = s.closed ∧ s'.checkpoints = s.checkpoints ∧ log'.pending ≠ [] ∧
    (Sound { s' with lastValue := value } log' ↔ Sound s log ∧ ¬ StartsUnmatchable s value)

theorem Pending.ofRun (first : Long) (hp : pending = runValues first s.lastDelta s.runCount)
    (hc : minRepeatSize ≤ s.runCount) (hs : s.size = s.runCount)
    (hl : s.lastValue = first + BitVec.ofNat 64 (s.runCount - 1) * s.lastDelta) (hu : Unmatched s.lastDelta) :
    Pending s pending := by
  rw [hp]
  exact .run first hc hs hl hu

section
variable (h : Written signed s log actions)
include h

/-- Two values with the difference of the last: the third makes a run. -/
theorem Written.startRun (hrm : s.size < 128) {front : List Long} {a : Long}
    (hpn : log.pending = front ++ [a,s.lastValue]) (hb : s.sequenceBuffer = front ++ [a,s.lastValue])
    (hc : s.runCount = 2) (hdl : s.lastValue - a = s.lastDelta) (hu : Unmatched s.lastDelta)
    (hvl : value - s.lastValue = s.lastDelta) :
    Writes signed s log actions value ({ s with sequenceBuffer := s.sequenceBuffer ++ [value] } : LongOutputStreamV1).extendRun := by
  have hlg := h.logs.push value
  have hrn : [a,s.lastValue,value] = runValues a s.lastDelta 3 := runValues_three hdl hvl
  have hp : (log.push value).pending = front ++ [a,s.lastValue,value] := by simp [push,hpn]
  have hbf : s.sequenceBuffer ++ [value] = front ++ [a,s.lastValue,value] := by simp [hb]
  have hls : value = a + BitVec.ofNat 64 2 * s.lastDelta := by
    have htr := congrArg (fun values => values[2]?) hrn
    simpa [runValues] using htr
  have hsz : s.size = front.length + 2 := by simp [size,hb]
  have hs {t : LongOutputStreamV1} {log' : BlockLog (format signed)} (ht : t.runCount = s.runCount + 1)
      (hd : t.lastDelta = s.lastDelta) (he : log'.Exact ↔ log.Exact) :
      Sound t log' ↔ Sound s log ∧ ¬ StartsUnmatchable s value := by
    rw [Sound,Sound,he,ht,hd]
    simp [StartsUnmatchable,minRepeatSize,hrm,hc,hvl]
  have hp' {t : LongOutputStreamV1} (ht : t.runCount = s.runCount + 1) (hd : t.lastDelta = s.lastDelta)
      (hv : t.lastValue = value) (hl : t.size = 3) : Pending t [a,s.lastValue,value] := by
    rw [hc] at ht
    refine .ofRun a ?_ (by rw [ht,minRepeatSize]) (by rw [ht,hl]) ?_ (hd ▸ hu)
    · rw [hd,ht]
      exact hrn
    · rw [hv,hd,ht]
      exact hls
  cases front with
  | nil =>
    refine ⟨_,log.push value,if_neg ?_,⟨h.signed,hlg,?_,?_⟩,rfl,rfl,by simp [push],hs rfl rfl exact_push⟩
    · simp [size,hb,minRepeatSize]
    · rw [hp]
      exact hp' rfl rfl rfl (by simp [size,hb])
    · simp [size,hb]
  | cons first front =>
    let t : LongOutputStreamV1 := { s with sequenceBuffer := s.sequenceBuffer ++ [value], runCount := s.runCount + 1 }
    have htk : t.sequenceBuffer.take (front.length + 1) = first :: front := by
      rw [show t.sequenceBuffer = _ from hbf]
      exact take_left' rfl
    obtain ⟨bytes,log',hf,hl',hr,he,-⟩ := flushLiterals (s := t) h.signed hlg [a,s.lastValue,value] hp htk
      (by rw [length_cons] at hsz; omega)
    have hct : t.size - minRepeatSize = front.length + 1 := by simp [t,size,hb,minRepeatSize]
    let u : LongOutputStreamV1 := { t.write bytes with sequenceBuffer := t.sequenceBuffer.take minRepeatSize }
    have hth : u.size = 3 := by simp [u,t,size,hb,minRepeatSize]
    have hex : ({ s with sequenceBuffer := s.sequenceBuffer ++ [value] } : LongOutputStreamV1).extendRun = .ok u := by
      have hst : t.runCount = minRepeatSize ∧ t.size > minRepeatSize := by simp [t,size,hb,hc,minRepeatSize]
      refine (if_pos hst).trans ?_
      rw [hct,hf]
      rfl
    refine ⟨u,log',hex,⟨h.signed,hl',?_,?_⟩,rfl,rfl,by rw [hr]; simp,hs rfl rfl (he.trans exact_push)⟩
    · rw [hr]
      exact hp' rfl rfl rfl hth
    · exact Nat.le_trans (Nat.le_of_eq hth) (by decide)

theorem Written.extendRun (hr : s.size < 128) (hv : value - s.lastValue = s.lastDelta) :
    Writes signed s log actions value ({ s with sequenceBuffer := s.sequenceBuffer ++ [value] } : LongOutputStreamV1).extendRun := by
  have hlg := h.logs.push value
  have hs : (s.sequenceBuffer ++ [value]).length ≤ 128 := by
    rw [length_append]
    exact hr
  generalize hp : log.pending = pending
  have hcs := h.pending
  rw [hp] at hcs
  have hps : (log.push value).pending = pending ++ [value] := by rw [← hp]; rfl
  cases hcs with
  | none hb hc hz hd =>
    refine ⟨_,log.push value,if_neg (by simp [hc,minRepeatSize]),⟨h.signed,hlg,?_,hs⟩,rfl,rfl,by simp [push],?_⟩
    · rw [hps]
      exact .one [] (by simp [hb]) (by simp [hc]) hd
    · rw [sound_iff (by simp [hc,minRepeatSize]),sound_iff (by simp [hc,minRepeatSize])]
      simp [StartsUnmatchable,hc,exact_push]
  | one front hb hc hd =>
    refine ⟨_,log.push value,if_neg (by simp [hc,minRepeatSize]),⟨h.signed,hlg,?_,hs⟩,rfl,rfl,by simp [push],?_⟩
    · rw [hps,append_assoc]
      exact .two front s.lastValue (by simp [hb]) (by simp [hc]) hv (.inr hd)
    · rw [sound_iff (by simp [hc,minRepeatSize]),sound_iff (by simp [hc,minRepeatSize])]
      simp [StartsUnmatchable,hc,exact_push]
  | two front a hb hc hd hu =>
    exact h.startRun hr hp hb hc hd hu hv
  | run first hc hrn hl hu =>
    rw [minRepeatSize] at hc
    have hn := extend_eq (by omega) hl hv
    refine ⟨_,log.push value,if_neg ?_,⟨h.signed,hlg,?_,hs⟩,rfl,rfl,by simp [push],?_⟩
    · simp only [minRepeatSize]
      omega
    · rw [hps]
      refine .ofRun first ?_ ?_ ?_ hn hu
      · rw [runValues_succ,← hn]
      · simp only [minRepeatSize]
        omega
      · simp only [size,length_append]
        exact congrArg (· + 1) hrn
    · have hnt : ¬ StartsUnmatchable s value := by
        rintro ⟨-,ht,-⟩
        omega
      rw [Sound,Sound]
      simp only [minRepeatSize,hnt,not_false_eq_true,and_true]
      refine and_congr_right fun _ => not_congr (and_congr_left fun _ => ?_)
      omega

theorem Written.endRun (hrm : s.size < 128) (hvl : value - s.lastValue ≠ s.lastDelta) :
    Writes signed s log actions value
      (({ s with sequenceBuffer := s.sequenceBuffer ++ [value] } : LongOutputStreamV1).endRun value (value - s.lastValue)) := by
  have hlg := h.logs.push value
  let t : LongOutputStreamV1 := { s with sequenceBuffer := s.sequenceBuffer ++ [value] }
  have hn : ¬ StartsUnmatchable s value := by
    rintro ⟨-,-,hl,hd⟩
    exact hvl (hd.trans hl.symm)
  by_cases hc : minRepeatSize ≤ s.runCount
  · obtain ⟨first,hv,hs,hl,hun⟩ := h.pending.isRun hc
    have hp : (log.push value).pending = runValues first s.lastDelta s.runCount ++ [value] := by
      rw [← hv]
      rfl
    obtain ⟨bytes,log',hfl,hl',hr,hex⟩ := flushRun (s := t) h.signed hlg [value] hc
      (show s.runCount ≤ 128 by omega) hp hl hun
    let u : LongOutputStreamV1 :=
      { t.write bytes with sequenceBuffer := [value], runCount := 1, lastDelta := unmatchableDeltaValue }
    have he : t.endRun value (value - s.lastValue) = .ok u := by
      rw [LongOutputStreamV1.endRun,flushEndedRun,if_pos hc,hfl]
      rfl
    refine ⟨u,log',he,⟨h.signed,hl',?_,by simp [u,size]⟩,rfl,rfl,by simp [hr],?_⟩
    · rw [hr]
      exact .one [] rfl rfl rfl
    · rw [sound_iff (Nat.succ_lt_succ (Nat.succ_pos 1)),hex,exact_push,Sound]
      simp [hn,hc,t]
  · have hb := h.pending.literals (by omega)
    have hp : (log.push value).pending = s.sequenceBuffer ++ [value] := by
      rw [hb]
      rfl
    have hs : t.size ≤ 128 := by
      rw [size,length_append]
      exact hrm
    have hsn {u : LongOutputStreamV1} (hu : u.runCount < minRepeatSize) :
        Sound u (log.push value) ↔ Sound s log ∧ ¬ StartsUnmatchable s value := by
      rw [sound_iff hu,sound_iff (by omega),exact_push]
      simp [hn]
    by_cases hf : t.size = 1 ∨ ¬ isValidDelta (value - s.lastValue)
    · let u : LongOutputStreamV1 := { t with runCount := 1, lastDelta := unmatchableDeltaValue }
      have he : t.endRun value (value - s.lastValue) = .ok u := by
        rw [LongOutputStreamV1.endRun,flushEndedRun,if_neg hc]
        exact if_pos hf
      refine ⟨u,log.push value,he,⟨h.signed,hlg,?_,hs⟩,rfl,rfl,by simp [hp],hsn (Nat.succ_lt_succ (Nat.succ_pos 1))⟩
      rw [hp]
      exact .one s.sequenceBuffer rfl rfl rfl
    · obtain ⟨ht,hvd⟩ := not_or.mp hf
      let u : LongOutputStreamV1 := { t with runCount := 2, lastDelta := value - s.lastValue }
      have he : t.endRun value (value - s.lastValue) = .ok u := by
        rw [LongOutputStreamV1.endRun,flushEndedRun,if_neg hc]
        exact if_neg hf
      obtain ⟨front,hfr⟩ : ∃ front, s.sequenceBuffer = front ++ [s.lastValue] := by
        refine h.pending.endsWith (by omega) ?_
        intro hem
        exact ht (by simp [t,size,hem])
      refine ⟨u,log.push value,he,⟨h.signed,hlg,?_,hs⟩,rfl,rfl,by simp [hp],hsn (Nat.lt_succ_self 2)⟩
      rw [hp,hfr,append_assoc]
      exact .two front s.lastValue (by simp [u,t,hfr]) rfl rfl (.inl (not_not.mp hvd))

/-- A write never throws, and makes the blocks unsound exactly if it starts a run with the
sentinel. -/
theorem Written.writeLong (ho : s.closed = false) (value : Long) :
    ∃ s' log', s.writeLong value = .ok s' ∧ Written signed s' log' (actions ++ [.write value]) ∧ s'.closed = false ∧
      s'.checkpoints = s.checkpoints ∧ log'.pending ≠ [] ∧ (Sound s' log' ↔ Sound s log ∧ ¬ StartsUnmatchable s value) := by
  obtain ⟨t,log₁,hf,ht,hcl,hc,hr,hs⟩ : ∃ t log₁, s.flushIfFull = .ok t ∧
      Written signed t log₁ actions ∧ t.closed = false ∧ t.checkpoints = s.checkpoints ∧ t.size < 128 ∧
      (Sound t log₁ ∧ ¬ StartsUnmatchable t value ↔ Sound s log ∧ ¬ StartsUnmatchable s value) := by
    by_cases hfl : s.size = 128
    · have hne : log.pending ≠ [] := by
        intro he
        have hl : s.size = log.pending.length := h.pending.length
        rw [he,hfl] at hl
        cases hl
      obtain ⟨t,log₁,hf,ht,hp,hcl,hc,hz,hs⟩ := h.flushSequence hne
      refine ⟨t,log₁,(if_pos hfl).trans hf,ht,hcl.trans ho,hc,by omega,?_⟩
      have hsr : ¬ StartsUnmatchable t value := by
        rintro ⟨-,htw,-⟩
        have hcn := ht.pending.runCount_le
        omega
      have hs' : ¬ StartsUnmatchable s value := fun hst => absurd hst.1 (by omega)
      simp [hs,hsr,hs']
    · have hle := h.bounded
      exact ⟨s,log,if_neg hfl,h,ho,rfl,by omega,.rfl⟩
  have hw : Writes signed t log₁ actions value
      (({ t with sequenceBuffer := t.sequenceBuffer ++ [value] } : LongOutputStreamV1).updateRun value) := by
    rw [updateRun]
    split
    · rename_i hd
      exact ht.extendRun hr hd
    · rename_i hd
      exact ht.endRun hr hd
  obtain ⟨u,log',hwr,hu,hcl',hc',hp,hsn'⟩ := hw
  refine ⟨{ u with lastValue := value },log',?_,hu,hcl'.trans hcl,hc'.trans hc,hp,
    hsn'.trans hs⟩
  rw [LongOutputStreamV1.writeLong,if_neg (by simp [ho]),hf]
  change (({ t with sequenceBuffer := t.sequenceBuffer ++ [value] } : LongOutputStreamV1).updateRun value >>= _) = _
  rw [hwr]
  rfl

end

end LongOutputStreamV1
end HetuCore.Orc
