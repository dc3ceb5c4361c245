import HetuCore.Orc.BooleanBatch
import HetuCore.Orc.BooleanWriter

namespace HetuCore.Orc
open Foundation ByteInputStream BlockFormat BooleanWriteAction List

namespace BooleanInputStream

/-- The operations on the list of the bits, one at a time. -/
def readBits (bits : List Bool) (marks : List Nat) (n : Nat) : BooleanReadAction → Except String (BooleanReadResult × Nat)
  | .nextBit => do
    let (value,n) ← cursorNext bits endMessage n
    pure (.bit value,n)
  | .skip items => do
    let n ← cursorSkip bits endMessage items n
    pure (.nothing,n)
  | .countBitsSet items => gather (fun taken => .count (taken.count true)) bits items n
  | .getSetBits batchSize => gather (fun taken => .setBits (taken.map fun bit => if bit then 1 else 0)) bits batchSize n
  | .getUnsetBits batchSize => gather (fun taken => .unsetBits (taken.count false) (taken.map not)) bits batchSize n
  | .seekToCheckpoint index => do
    let n ← elementAt marks index
    pure (.nothing,n)

variable {segments : List (Segment format)} {s : BooleanInputStream} {n : Nat}

theorem Stands.seek (h : Stands segments s n) {c : BooleanCheckpoint} {mark : Nat}
    (hc : Marks segments c.byteStreamCheckpoint mark)
    (hz : c.byteStreamCheckpoint.offset = 0 → c.byteStreamCheckpoint.position = 0)
    (hi : 8 * mark + c.offset ≤ (bitsOfBytes (valuesOf segments)).length) :
    ∃ s', seekToCheckpoint c s = .ok s' ∧ Stands segments s' (8 * mark + c.offset) := by
  obtain ⟨m,hf,-,-⟩ := h.bytes
  obtain ⟨r,hsk,hf'⟩ := hf.seek hc hz
  rw [length_bitsOfBytes] at hi
  have hst : Stands segments { s with byteStream := r, bitsInData := 0 } (8 * mark) :=
    ⟨⟨⟨mark,hf',rfl,by omega⟩,Nat.zero_le 8,nofun⟩,Nat.succ_pos 7⟩
  have hs := hst.skip c.offset
  rw [cursorSkip_eq _ _ (by rw [length_bitsOfBytes]; omega),if_pos (by rw [length_bitsOfBytes]; exact hi)] at hs
  obtain ⟨s',hs',h'⟩ := hs.of_ok
  refine ⟨s',?_,h'⟩
  rw [seekToCheckpoint,hsk]
  exact hs'

/-- The checkpoints with the marks of their bytes and their bit offsets. -/
structure Marked (segments : List (Segment format)) (cps : List BooleanCheckpoint) (marks : List Nat) : Prop where
  length : cps.length = marks.length
  marked : ∀ (index : Nat) (c : BooleanCheckpoint) (mark : Nat), cps[index]? = some c → marks[index]? = some mark →
    mark ≤ (bitsOfBytes (valuesOf segments)).length ∧
    (c.byteStreamCheckpoint.offset = 0 → c.byteStreamCheckpoint.position = 0) ∧
    ∃ byteMark, Marks segments c.byteStreamCheckpoint byteMark ∧ mark = 8 * byteMark + c.offset

variable {cps : List BooleanCheckpoint}

theorem Stands.seekAt (h : Stands segments s n) {marks : List Nat}
    (hm : Marked segments cps marks) (index : Nat) :
    Follow (Stands segments) (elementAt cps index >>= fun c => seekToCheckpoint c s) (elementAt marks index) := by
  have hl := hm.length
  rw [elementAt,elementAt]
  by_cases hlt : index < marks.length
  · have hl' : index < cps.length := by omega
    have hc := getElem?_eq_getElem hl'
    have hmr := getElem?_eq_getElem hlt
    obtain ⟨hi,hz,byteMark,hmk,heq⟩ := hm.marked index _ _ hc hmr
    rw [heq] at hi
    obtain ⟨s',hs,h'⟩ := h.seek hmk hz hi
    rw [hc,hmr]
    change Follow _ (seekToCheckpoint cps[index] s) _
    rw [hs,heq]
    exact h'
  · rw [getElem?_eq_none (Nat.le_of_not_lt hlt),getElem?_eq_none (by omega)]
    rfl

/-- Each operation is the same as on the list of the bits. -/
theorem Stands.read (h : Stands segments s n) {marks : List Nat}
    (hm : Marked segments cps marks) (action : BooleanReadAction) :
    Agree (Stands segments) (read cps s action)
      (readBits (bitsOfBytes (valuesOf segments)) marks n action) := by
  cases action with
  | nextBit => exact h.nextBit.bind fun bit s' n' h' => ⟨rfl,h'⟩
  | skip items => exact (h.skip items).bind fun s' n' h' => ⟨rfl,h'⟩
  | countBitsSet items =>
    rw [readBits,← gather_map BooleanReadResult.count]
    exact (h.countBitsSet items).bind fun count s' n' h' => ⟨rfl,h'⟩
  | getSetBits batchSize =>
    rw [readBits,← gather_map BooleanReadResult.setBits]
    have hv := (h.getBits sets_setBits batchSize).bind (f := fun c => pure (c.1.2,c.2)) (g := fun c => pure (c.1.2,c.2))
      fun c s' n' h' => ⟨rfl,h'⟩
    rw [gather_map Prod.snd] at hv
    exact hv.bind fun vector s' n' h' => ⟨rfl,h'⟩
  | getUnsetBits batchSize =>
    have ht : (fun taken : List Bool => BooleanReadResult.unsetBits (taken.count false) (taken.map not)) = fun taken =>
        .unsetBits (tally (fun bit => if bit then 0 else 1) not taken).1 (tally (fun bit => if bit then 0 else 1) not taken).2 := by
      funext taken
      rw [tally,sum_weights]
    rw [readBits,ht,← gather_map fun c : Nat × List Bool => BooleanReadResult.unsetBits c.1 c.2]
    exact (h.getBits sets_unsetBits batchSize).bind fun c s' n' h' => ⟨rfl,h'⟩
  | seekToCheckpoint index => exact (h.seekAt hm index).bind fun s' n' h' => ⟨rfl,h'⟩

end BooleanInputStream

namespace BooleanOutputStream

theorem pairCheckpoints_eq {offsets : List Nat} {cps : List BlockCheckpoint} (h : offsets.length = cps.length) :
    pairCheckpoints offsets cps = .ok (zipWith BooleanCheckpoint.mk offsets cps) := by
  induction offsets generalizing cps with
  | nil => rfl
  | cons offset offsets ih =>
    cases cps with
    | nil => cases h
    | cons checkpoint cps =>
      rw [pairCheckpoints,ih (Nat.succ.inj h)]
      rfl

theorem stream_marked (actions : List BooleanWriteAction) :
    ∃ s cps, ∃ segments : List (Segment format), stream actions = .ok s ∧ s.getCheckpoints = .ok cps ∧
      s.byteOutputStream.buffer = bytesOf segments ∧ bitsOfBytes (valuesOf segments) = padded (written actions) ∧
      BooleanInputStream.Marked segments cps (marks actions) := by
  obtain ⟨s,hr,hop⟩ := run_open actions
  obtain ⟨s',byteActions,hcs,hcl,hs,hbt,ho,hmk⟩ := hop.close
  obtain ⟨b,segments,hs',hbf,hv,hb,hz⟩ := ByteOutputStream.stream_blocks byteActions
  cases hs.symm.trans hs'
  have hl : s'.checkpointBitOffsets.length = s'.byteOutputStream.checkpoints.length := by
    rw [ho,hb.length_eq]
  refine ⟨s',zipWith .mk s'.checkpointBitOffsets s'.byteOutputStream.checkpoints,segments,?_,?_,hbf,by rw [hv,hbt],?_,?_⟩
  · rw [stream,hr]
    exact hcs
  · rw [getCheckpoints,hcl]
    exact pairCheckpoints_eq hl
  · rw [hmk,length_zipWith,length_zipWith,hl,hb.length_eq]
  · intro index c mark hc hmr
    have hi : mark ≤ (written actions).length := WriteAction.marks_le (mem_of_getElem? hmr)
    rw [getElem?_zipWith_eq_some] at hc
    rw [hmk,getElem?_zipWith_eq_some] at hmr
    obtain ⟨offset,checkpoint,hof,hch,rfl⟩ := hc
    obtain ⟨byteMark,offset',hbm,ho',rfl⟩ := hmr
    cases hof.symm.trans ho'
    obtain ⟨hlt,hg⟩ := List.getElem?_eq_some_iff.mp hch
    obtain ⟨hl',hg'⟩ := List.getElem?_eq_some_iff.mp hbm
    have hm := hb.get hlt hl'
    rw [get_eq_getElem,get_eq_getElem,hg,hg'] at hm
    refine ⟨?_,hz checkpoint (mem_of_getElem? hch),byteMark,hm,rfl⟩
    rw [hv,hbt,padded,length_append]
    exact Nat.le_add_right_of_le hi

/-- Whatever booleans were written, in whatever calls, every sequence of reads, counts, skips
and seeks gives what it gives on the list of the booleans, one at a time; after the last one
the rest of its byte is false. The byte streams under it give back every byte. -/
theorem stream_readBits :
    (∀ actions : List BooleanWriteAction, ∃ s cps, stream actions = .ok s ∧ s.getCheckpoints = .ok cps ∧
      ∀ reads, performAll (BooleanInputStream.read cps) reads (BooleanInputStream.new ⟨s.byteOutputStream.buffer,0⟩) =
        performAll (BooleanInputStream.readBits (padded (written actions)) (marks actions)) reads 0) ∧
    ∀ actions : List (WriteAction Byte), ∃ s, ByteOutputStream.stream actions = .ok s ∧
      ∀ reads, performAll (read s.checkpoints) reads (BlockFormat.new ⟨s.buffer,0⟩) =
        performAll (readList (WriteAction.written actions) (WriteAction.marks actions)) reads 0 := by
  refine ⟨?_,ByteOutputStream.stream_readBytes⟩
  intro actions
  obtain ⟨s,cps,segments,hs,hc,hb,hbt,hm⟩ := stream_marked actions
  refine ⟨s,cps,hs,hc,?_⟩
  intro reads
  rw [hb,← hbt]
  refine performAll_eq (R := BooleanInputStream.Stands segments) ?_ reads (.new segments)
  intro s n action h
  exact h.read hm action

end BooleanOutputStream
end HetuCore.Orc
