import HetuCore.Orc.ByteWriter

namespace HetuCore.Orc
open Foundation BlockFormat ByteOutputStream WriteAction

namespace ByteOutputStream
open ByteInputStream (format)

def step (s : ByteOutputStream) : WriteAction Byte → Except String ByteOutputStream
  | .write value => s.writeByte value
  | .recordCheckpoint => s.recordCheckpoint

def writer : Machine ByteOutputStream (WriteAction Byte) := ⟨new,step⟩

/-- The stream of a writer that was closed after the actions. -/
def stream (actions : List (WriteAction Byte)) : Except String ByteOutputStream := do
  let s ← writer.run actions
  pure s.close

/-- The writer between two calls. -/
structure Open (actions : List (WriteAction Byte)) (s : ByteOutputStream) (log : BlockLog format) : Prop where
  written : Written s log actions
  opened : s.closed = false
  anchored : log.Anchored s.checkpoints

variable {s : ByteOutputStream} {log : BlockLog format} {actions : List (WriteAction Byte)}

theorem open_new : Open [] new .empty :=
  ⟨⟨.empty,.none rfl rfl rfl,Nat.zero_le _,.nil⟩,rfl,fun _ => rfl,nofun⟩

theorem Pending.other {pending : List Byte} (h : Pending s pending) (checkpoints : List BlockCheckpoint) (closed : Bool) :
    Pending { s with checkpoints := checkpoints, closed := closed } pending := by
  cases h with
  | none hb hc hv => exact .none hb hc hv
  | literals front value hb hp hc hv => exact .literals front value hb hp hc hv
  | run value hc hs hv => exact .run value hc hs hv

theorem Open.step (h : Open actions s log) (action : WriteAction Byte) :
    ∃ s' log', s.step action = .ok s' ∧ Open (actions ++ [action]) s' log' := by
  cases action with
  | write value =>
    obtain ⟨s',log',hwr,hw,hne,ho,hc⟩ := h.written.writeByte h.opened value
    refine ⟨s',log',hwr,hw,ho,fun he => absurd he hne,?_⟩
    rw [hc]
    exact h.anchored.zero
  | recordCheckpoint =>
    have hr : s.recordCheckpoint = .ok { s with checkpoints := s.checkpoints ++ [⟨s.size,s.buffer.length⟩] } := by
      rw [recordCheckpoint,if_neg (by simp [h.opened])]
      rfl
    have hl := h.written.logs.recordCheckpoint
    have ha := BlockLog.Anchored.recordCheckpoint h.anchored h.written.logs.buffer
    rw [← h.written.pending.length] at hl ha
    exact ⟨_,log,hr,⟨hl,h.written.pending.other _ _,h.written.bounded,h.written.exact⟩,h.opened,ha⟩

theorem run_open (actions : List (WriteAction Byte)) : ∃ s, writer.run actions = .ok s ∧ ∃ log, Open actions s log := by
  have hg (actions : List (WriteAction Byte)) (s : ByteOutputStream) (action : WriteAction Byte) :
      (∃ log, Open actions s log) → ∃ s', writer.step s action = .ok s' ∧ ∃ log, Open (actions ++ [action]) s' log := by
    intro ⟨log,h⟩
    obtain ⟨s',log',hs,h'⟩ := h.step action
    exact ⟨s',hs,log',h'⟩
  exact Machine.run_total ⟨.empty,open_new⟩ hg actions

/-- A closed stream: its blocks have the written bytes, and its checkpoints lead to them. -/
theorem Open.close (h : Open actions s log) : ∃ segs : List (Segment format),
    s.close.buffer = bytesOf segs ∧ valuesOf segs = WriteAction.written actions ∧
      List.Forall₂ (Marks segs) s.close.checkpoints (marks actions) ∧
      ∀ c ∈ s.close.checkpoints, c.offset = 0 → c.position = 0 := by
  have hcl : Written { s with closed := true } log actions :=
    ⟨h.written.logs,h.written.pending.other _ _,h.written.bounded,h.written.exact⟩
  obtain ⟨log',hw,hp,hc⟩ : ∃ log' : BlockLog format, Written s.close log' actions ∧ log'.pending = [] ∧
      s.close.checkpoints = s.checkpoints := by
    by_cases he : log.pending = []
    · have hz : ({ s with closed := true } : ByteOutputStream).size = 0 := by
        rw [hcl.pending.length,he,List.length_nil]
      rw [ByteOutputStream.close,flushSequence,if_pos hz]
      exact ⟨log,hcl,he,rfl⟩
    · obtain ⟨log',hw,hp,-,-,-,-,hc⟩ := hcl.flushSequence he
      exact ⟨log',hw,hp,hc⟩
  refine ⟨log'.segments,hw.logs.buffer,(hw.logs.exact_iff hp).mp hw.exact,hw.logs.marks hp,?_⟩
  rw [hc]
  exact h.anchored.zero

def endMessage : String := "Read past end of buffer RLE byte"

end ByteOutputStream

namespace ByteInputStream

/-- The operations on the list of the bytes, one at a time. -/
def readList (bytes : List Byte) (marks : List Nat) (n : Nat) : ByteReadAction → Except String (List Byte × Nat)
  | .next => do
    let (value,n) ← cursorNext bytes endMessage n
    pure ([value],n)
  | .nextBytes items => cursorRepeated bytes endMessage pure items n
  | .skip items => do
    let n ← cursorSkip bytes endMessage items n
    pure ([],n)
  | .seekToCheckpoint index => do
    let n ← elementAt marks index
    pure ([],n)

/-- The reader over the bytes of the segments; without a block it is at the start. -/
structure Follows (segs : List (Segment format)) (r : BlockReader ByteBlock) (n : Nat) : Prop where
  reads : Reads segs r n
  rests : Rests 0 r

variable {segs : List (Segment format)} {r : BlockReader ByteBlock} {n : Nat} {checkpoints : List BlockCheckpoint}
  {marks : List Nat}

theorem Follows.new (segs : List (Segment format)) : Follows segs (BlockFormat.new ⟨bytesOf segs,0⟩) 0 :=
  ⟨.new segs,fun _ => rfl⟩

section
variable (h : Follows segs r n)
include h

theorem Follows.next : Agree (Follows segs) (next r) (cursorNext (valuesOf segs) endMessage n) :=
  (h.reads.next rfl).mono fun _ _ _ hr h' => ⟨h',rests_of_next hr⟩

theorem Follows.nextBytes (items : Nat) : Agree (Follows segs) (nextBytes items r)
      (cursorRepeated (valuesOf segs) endMessage pure items n) := by
  rw [nextBytes_eq]
  refine (h.reads.nextBatch rfl pure items).mono fun _ _ _ hr h' => ⟨h',?_⟩
  rw [nextBatch_eq h.reads.valid] at hr
  exact rests_of_repeated (fun _ => h.rests) hr

theorem Follows.skip (items : Nat) :
    Follow (Follows segs) (skip items r) (cursorSkip (valuesOf segs) endMessage items n) :=
  (h.reads.skip_follow rfl items).mono fun _ _ hs h' => ⟨h',rests_of_skip h.reads.valid (fun _ => h.rests) hs⟩

theorem Follows.seek {c : BlockCheckpoint} {m : Nat} (hc : Marks segs c m)
    (hz : c.offset = 0 → c.position = 0) : ∃ r', seekToCheckpoint c r = .ok r' ∧ Follows segs r' m := by
  obtain ⟨r',hs,hr⟩ := h.reads.seek rfl hc fun hcr _ ho => (h.rests hcr).trans (hz ho).symm
  exact ⟨r',hs,hr,rests_of_seek h.rests hz hs⟩

section
variable (hm : List.Forall₂ (Marks segs) checkpoints marks)
include hm

theorem Follows.seekAt (hz : ∀ c ∈ checkpoints, c.offset = 0 → c.position = 0) (index : Nat) :
    Follow (Follows segs) (format.seekAt checkpoints index r) (elementAt marks index) :=
  (h.reads.seekAt_follow rfl hm (h.rests.fresh hz)).mono fun _ _ hs h' =>
    ⟨h',rests_of_seekAt h.rests hz hs⟩

theorem Follows.read (hz : ∀ c ∈ checkpoints, c.offset = 0 → c.position = 0) (action : ByteReadAction) :
    Agree (Follows segs) (read checkpoints r action) (readList (valuesOf segs) marks n action) := by
  cases action with
  | next => exact h.next.bind fun value r' n' h' => ⟨rfl,h'⟩
  | nextBytes items => exact h.nextBytes items
  | skip items => exact (h.skip items).bind fun r' n' h' => ⟨rfl,h'⟩
  | seekToCheckpoint index => exact (h.seekAt hm hz index).bind fun r' n' h' => ⟨rfl,h'⟩

end

end

end ByteInputStream

namespace ByteOutputStream
open ByteInputStream (format)

variable (actions : List (WriteAction Byte))

theorem stream_blocks :
    ∃ s, ∃ segs : List (Segment format), stream actions = .ok s ∧ s.buffer = bytesOf segs ∧
      valuesOf segs = written actions ∧ List.Forall₂ (Marks segs) s.checkpoints (marks actions) ∧
      ∀ c ∈ s.checkpoints, c.offset = 0 → c.position = 0 := by
  obtain ⟨s,hr,log,ho⟩ := run_open actions
  obtain ⟨segs,hb,hv,hm,hz⟩ := ho.close
  refine ⟨s.close,segs,?_,hb,hv,hm,hz⟩
  rw [stream,hr]
  rfl

/-- Every sequence of reads, skips and seeks gives what it gives on the list of the bytes. -/
theorem stream_readBytes : ∃ s, stream actions = .ok s ∧ ∀ reads,
      performAll (ByteInputStream.read s.checkpoints) reads (BlockFormat.new ⟨s.buffer,0⟩) =
        performAll (ByteInputStream.readList (written actions) (marks actions)) reads 0 := by
  obtain ⟨s,segs,hs,hb,hv,hm,hz⟩ := stream_blocks actions
  refine ⟨s,hs,?_⟩
  intro reads
  rw [hb,← hv]
  refine performAll_eq (R := ByteInputStream.Follows segs) ?_ reads (.new segs)
  intro r n action h
  exact h.read hm hz action

end ByteOutputStream
end HetuCore.Orc
