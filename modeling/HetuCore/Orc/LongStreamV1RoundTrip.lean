import HetuCore.Orc.LongWriterV1

namespace HetuCore.Orc
open Foundation LongInputStreamV1 BlockFormat WriteAction LongInputStreamV1

namespace LongOutputStreamV1

variable (s : LongOutputStreamV1)

def step : WriteAction Long → Except String LongOutputStreamV1
  | .write value => s.writeLong value
  | .recordCheckpoint => s.recordCheckpoint

def writer (signed : Bool) : Machine LongOutputStreamV1 (WriteAction Long) := ⟨new signed,step⟩

/-- The stream of a writer that was closed after the actions. -/
def stream (signed : Bool) (actions : List (WriteAction Long)) : Except String LongOutputStreamV1 := do
  let s ← (writer signed).run actions
  s.close

/-- The run does not start with the sentinel. -/
def Matchable : WriteAction Long → Prop
  | .write value => ¬ StartsUnmatchable s value
  | .recordCheckpoint => True

variable {signed : Bool}

/-- The writer between two calls: it has something pending unless nothing was written. -/
structure Open (signed : Bool) (actions : List (WriteAction Long)) (s : LongOutputStreamV1) (log : BlockLog (format signed)) : Prop where
  written : Written signed s log actions
  opened : s.closed = false
  started : log.pending = [] → log.segments = []
  zero : ∀ c ∈ s.checkpoints, c.offset = 0 → c.position = 0
  sound : Sound s log ↔ (writer signed).Along Matchable actions

theorem open_new : Open signed [] (new signed) .empty := by
  refine ⟨⟨rfl,.empty,.none rfl rfl rfl rfl,Nat.zero_le _⟩,rfl,fun _ => rfl,?_,?_⟩
  · intro c hc
    cases hc
  · rw [sound_iff (Nat.succ_pos 2)]
    exact ⟨fun _ before a after s hs => absurd hs (by simp),fun _ => .nil⟩

theorem Open.step {s : LongOutputStreamV1} {log : BlockLog (format signed)} {actions : List (WriteAction Long)}
    (h : Open signed actions s log) (hrn : (writer signed).run actions = .ok s) (a : WriteAction Long) :
    ∃ s' log', s.step a = .ok s' ∧ Open signed (actions ++ [a]) s' log' := by
  cases a with
  | write value =>
    obtain ⟨s',log',hwr,hw,ho,hc,hp,hs⟩ := h.written.writeLong h.opened value
    refine ⟨s',log',hwr,hw,ho,fun he => absurd he hp,?_,?_⟩
    · rw [hc]
      exact h.zero
    · rw [hs,h.sound,Machine.Along.concat_iff hrn]
      rfl
  | recordCheckpoint =>
    have hl : s.size = log.pending.length := h.written.pending.length
    let s' : LongOutputStreamV1 := { s with checkpoints := s.checkpoints ++ [⟨s.size,s.buffer.length⟩] }
    have hr : s.recordCheckpoint = .ok s' := by
      rw [LongOutputStreamV1.recordCheckpoint,if_neg (by simp [h.opened])]
      rfl
    have hlg := h.written.logs.recordCheckpoint
    rw [← hl] at hlg
    refine ⟨s',log,hr,⟨h.written.signed,hlg,h.written.pending.other _ _,h.written.bounded⟩,h.opened,h.started,?_,?_⟩
    · have ha : log.Anchored s.checkpoints := ⟨h.started,h.zero⟩
      have hz := (BlockLog.Anchored.recordCheckpoint ha h.written.logs.buffer).zero
      rw [← hl] at hz
      exact hz
    · rw [Machine.Along.concat_iff hrn]
      exact h.sound.trans (and_iff_left trivial).symm

theorem run_open (signed : Bool) (actions : List (WriteAction Long)) :
    ∃ s, (writer signed).run actions = .ok s ∧ ∃ log, Open signed actions s log := by
  induction actions using List.reverseRecOn with
  | nil => exact ⟨new signed,rfl,.empty,open_new⟩
  | append_singleton actions a ih =>
    obtain ⟨s,hr,log,ho⟩ := ih
    obtain ⟨s',log',hs,ho'⟩ := ho.step hr a
    refine ⟨s',?_,log',ho'⟩
    rw [Machine.run_concat,hr]
    exact hs

/-- A closed stream: its blocks, its checkpoints, and when the blocks are exact. -/
theorem stream_blocks (signed : Bool) (actions : List (WriteAction Long)) :
    ∃ s, ∃ segments : List (Segment (format signed)), stream signed actions = .ok s ∧ s.buffer = bytesOf segments ∧
      List.Forall₂ (Marks segments) s.checkpoints (marks actions) ∧
      (∀ c ∈ s.checkpoints, c.offset = 0 → c.position = 0) ∧ (valuesOf segments).length = (written actions).length ∧
      (valuesOf segments = written actions ↔ (writer signed).Along Matchable actions) := by
  obtain ⟨s,hr,log,ho⟩ := run_open signed actions
  have hcl : Written signed { s with closed := true } log actions :=
    ⟨ho.written.signed,ho.written.logs,ho.written.pending.other _ _,ho.written.bounded⟩
  obtain ⟨s',log',hf,hw,hp,hc,hsz,hs⟩ : ∃ s' log', s.close = .ok s' ∧
      Written signed s' log' actions ∧ log'.pending = [] ∧ s'.checkpoints = s.checkpoints ∧ s'.size = 0 ∧
      (Sound s' log' ↔ Sound s log) := by
    by_cases he : log.pending = []
    · have hl : s.size = log.pending.length := ho.written.pending.length
      have hz : s.size = 0 := by rw [hl,he,List.length_nil]
      exact ⟨{ s with closed := true },log,if_pos hz,hcl,he,rfl,hz,.rfl⟩
    · obtain ⟨s',log',hf,hw,hp,-,hc,hsz,hs⟩ := hcl.flushSequence he
      exact ⟨s',log',hf,hw,hp,hc,hsz,hs⟩
  refine ⟨s',log'.segments,?_,hw.logs.buffer,hw.logs.marks hp,?_,hw.logs.length hp,?_⟩
  · rw [stream,hr]
    exact hf
  · rw [hc]
    exact ho.zero
  · have hcn := hw.pending.runCount_le
    rw [← hw.logs.exact_iff hp,← ho.sound,← hs,sound_iff (by rw [minRepeatSize]; omega)]

def endMessage : String := "Read past end of RLE integer"

/-- The stream is never refused, and every sequence of reads, skips and seeks gives what it
gives on the list of the written values, if and only if no write starts a run with the
sentinel for its difference. -/
theorem stream_reads_iff (signed : Bool) (actions : List (WriteAction Long)) : ∃ s, stream signed actions = .ok s ∧
      ((∀ reads, performAll (read signed s.checkpoints) reads (BlockFormat.new ⟨s.buffer,0⟩) =
          performAll (readList endMessage (written actions) (marks actions)) reads 0) ↔
        (writer signed).Along Matchable actions) := by
  obtain ⟨s,segments,hst,hb,hm,hz,hl,hv⟩ := stream_blocks signed actions
  refine ⟨s,hst,?_⟩
  have hr (reads : List ReadAction) : performAll (read signed s.checkpoints) reads (BlockFormat.new ⟨s.buffer,0⟩) =
        performAll (readList endMessage (valuesOf segments) (marks actions)) reads 0 := by
    rw [read_eq,hb]
    exact LongInputStream.performAll_readStream rfl hm hz reads (.new segments) fun _ => rfl
  simp only [hr,← hv]
  constructor
  · intro ha
    have hs := ha [.nextLongs (valuesOf segments).length]
    rw [readList_nextLongs,hl,readList_nextLongs] at hs
    simpa using hs
  · intro heq reads
    rw [heq]

/-- Three values with the sentinel between them come back with a difference of minus one. -/
theorem stream_unmatchable_differs : ∃ s, stream true [.write 0,.write unmatchableDeltaValue,.write (-2)] = .ok s ∧
      performAll (read true s.checkpoints) [.nextLongs 3] (BlockFormat.new ⟨s.buffer,0⟩) ≠
        performAll (readList endMessage [0,unmatchableDeltaValue,-2] []) [.nextLongs 3] 0 := by
  obtain ⟨s,hs,hr⟩ : ∃ s, stream true [.write 0,.write unmatchableDeltaValue,.write (-2)] = .ok s ∧
      (performAll (read true s.checkpoints) [.nextLongs 3] (BlockFormat.new ⟨s.buffer,0⟩)).toOption =
        some [.longs [0,-1,-2]] :=
    exists_ok (by decide +kernel)
  refine ⟨s,hs,?_⟩
  intro heq
  rw [heq] at hr
  revert hr
  decide +kernel

end LongOutputStreamV1
end HetuCore.Orc
