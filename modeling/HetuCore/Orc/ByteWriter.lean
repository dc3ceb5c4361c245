import HetuCore.Orc.ByteStream

namespace HetuCore.Orc
open Foundation List

namespace ByteInputStream

theorem values_eq (block : ByteBlock) : format.values block = block.first :: block.rest := by
  apply ext_getElem
  · exact BlockFormat.length_values ..
  · intro i hi hi'
    simp [BlockFormat.values,format]
    rw [getElem?_eq_getElem hi']
    rfl

theorem readNextBlock_cons (control : Byte) (input : List Byte) : readNextBlock (control :: input) =
    (if control &&& 0x80 = 0 then readRun (control.toNat + minRepeatSize) else readLiterals (0x100 - control.toNat)) input := rfl

theorem isRun_iff : ∀ control : Byte, control &&& 0x80 = 0 ↔ control.toNat < 128 := by
  decide +kernel

theorem parses_readFully (value : Byte) : Parser.Parses readFully [value] value := fun _ => rfl

theorem parses_literals (first : Byte) (rest : List Byte) (hl : rest.length < 128) :
    Parser.Parses readNextBlock (BitVec.ofInt 8 (-((first :: rest).length : Nat)) :: first :: rest) ⟨first,rest⟩ := by
  intro more
  have hc : (BitVec.ofInt 8 (-((first :: rest).length : Nat))).toNat = 255 - rest.length := by
    rw [BitVec.toNat_ofInt,length_cons]
    omega
  have hcn : 0x100 - (255 - rest.length) - 1 = rest.length := by omega
  have hrd : Parser.Parses (readLiterals (0x100 - (255 - rest.length))) ([first] ++ rest) ⟨first,rest⟩ := by
    rw [readLiterals,hcn]
    have hr := Parser.Parses.times rest fun value _ => parses_readFully value
    rw [flatMap_singleton'] at hr
    have hb : Parser.Parses (.times readFully rest.length >>= fun rest => pure (ByteBlock.mk first rest))
        (rest ++ []) ⟨first,rest⟩ := hr.bind (.pure _)
    rw [append_nil] at hb
    exact hb
  rw [cons_append,readNextBlock_cons,if_neg (by rw [isRun_iff]; omega),hc]
  exact hrd more

theorem parses_run {control : Nat} (hc : control < 128) (value : Byte) :
    Parser.Parses readNextBlock [BitVec.ofNat 8 control,value] ⟨value,replicate (control + 2) value⟩ := by
  intro more
  have hb : (BitVec.ofNat 8 control).toNat = control := by
    rw [BitVec.toNat_ofNat]
    omega
  rw [cons_append,readNextBlock_cons,if_pos (by rw [isRun_iff,hb]; exact hc),hb]
  rfl

def literalSegment (first : Byte) (rest : List Byte) (hlength : rest.length < 128) : Segment format where
  bytes := BitVec.ofInt 8 (-((first :: rest).length : Nat)) :: first :: rest
  block := ⟨first,rest⟩
  parses := parses_literals first rest hlength
  nonempty := cons_ne_nil _ _

def runSegment (control : Nat) (hcontrol : control < 128) (value : Byte) : Segment format where
  bytes := [BitVec.ofNat 8 control,value]
  block := ⟨value,replicate (control + 2) value⟩
  parses := parses_run hcontrol value
  nonempty := cons_ne_nil _ _

/-- The check of the batch reader never fails, so it is the batch reader of blocks. -/
theorem nextChunks_eq (rounds items : Nat) (s : BlockReader ByteBlock) :
    nextChunks rounds items s = format.nextChunks pure rounds items s := by
  induction rounds generalizing items s with
  | zero => rfl
  | succ rounds ih =>
    cases items with
    | zero => rfl
    | succ items =>
      rw [nextChunks,BlockFormat.nextChunks]
      cases format.refill s with
      | error message => rfl
      | ok c =>
        obtain ⟨block,offset,s'⟩ := c
        have hp : format.size block ≠ 0 := Nat.ne_of_gt (format.size_pos block)
        let chunk := min (items + 1) (format.size block - offset)
        change _ = (mapM pure ((range chunk).map fun i => format.value block (offset + i)) >>= _)
        rw [mapM_pure]
        dsimp only [bind,Except.bind]
        rw [ih,map_id']
        rfl

theorem nextBytes_eq (items : Nat) (s : BlockReader ByteBlock) : nextBytes items s = format.nextBatch pure items s :=
  nextChunks_eq items items s

end ByteInputStream

namespace ByteOutputStream
open ByteInputStream (format literalSegment runSegment values_eq)
variable {s : ByteOutputStream} {log : BlockLog format} {actions : List (WriteAction Byte)} {value : Byte}

/-- The pending bytes: none, literals that end in one or two equal bytes, or a run. -/
inductive Pending (s : ByteOutputStream) : List Byte → Prop where
  | none (hbuffer : s.sequenceBuffer = []) (hcount : s.runCount = 0) (hvalue : s.lastValue = none) : Pending s []
  | literals (front : List Byte) (value : Byte) (hbuffer : s.sequenceBuffer = front ++ replicate s.runCount value)
      (hpositive : 0 < s.runCount) (hcount : s.runCount < minRepeatSize) (hvalue : s.lastValue = some value) :
      Pending s (front ++ replicate s.runCount value)
  | run (value : Byte) (hcount : minRepeatSize ≤ s.runCount) (hsize : s.size = s.runCount) (hvalue : s.lastValue = some value) :
      Pending s (replicate s.runCount value)

structure Written (s : ByteOutputStream) (log : BlockLog format) (actions : List (WriteAction Byte)) : Prop where
  logs : log.Logs ⟨s.buffer,s.checkpoints⟩ actions
  pending : Pending s log.pending
  bounded : s.size ≤ 128
  exact : log.Exact

theorem Pending.length {pending : List Byte} (h : Pending s pending) : s.size = pending.length := by
  cases h with
  | none hb | literals front value hb => rw [size,hb]
  | run value hc hs => rw [hs,length_replicate]

theorem logs_literals {out : BlockOutput} (hlg : log.Logs out actions) (he : log.Exact) {chunk : List Byte} (rest : List Byte)
    (hne : chunk ≠ []) (hl : chunk.length ≤ 128) (hp : log.pending = chunk ++ rest) :
    ∃ log' : BlockLog format, log'.Logs { out with buffer := out.buffer ++ BitVec.ofInt 8 (-chunk.length) :: chunk } actions ∧
      log'.pending = rest ∧ log'.Exact := by
  obtain ⟨first,more,rfl⟩ := exists_cons_of_ne_nil hne
  let segment := literalSegment first more (by rw [length_cons] at hl; omega)
  have hv : format.values segment.block = first :: more := values_eq _
  have hs : format.size segment.block = (first :: more).length := rfl
  exact ⟨log.flush segment _ rest hs,hlg.flush hs hp,rfl,BlockLog.exact_flush.mpr ⟨he,hv⟩⟩

theorem logs_run {out : BlockOutput} (hl : log.Logs out actions) (he : log.Exact) {count : Nat} (rest : List Byte)
    (hc : minRepeatSize ≤ count) (hln : count ≤ 128) (hp : log.pending = replicate count value ++ rest) :
    ∃ log' : BlockLog format,
      log'.Logs { out with buffer := out.buffer ++ [BitVec.ofNat 8 (count - minRepeatSize),value] } actions ∧
      log'.pending = rest ∧ log'.Exact := by
  rw [minRepeatSize] at hc ⊢
  let segment := runSegment (count - 3) (by omega) value
  have hv : format.values segment.block = replicate count value := by
    have ht : count = count - 3 + 2 + 1 := by omega
    conv_rhs => rw [ht]
    exact values_eq _
  have hs : format.size segment.block = (replicate count value).length := by
    rw [← hv,BlockFormat.length_values]
  exact ⟨log.flush segment _ rest hs,hl.flush hs hp,rfl,BlockLog.exact_flush.mpr ⟨he,hv⟩⟩

theorem Written.flushSequence (h : Written s log actions) (hne : log.pending ≠ []) :
    ∃ log' : BlockLog format, Written s.flushSequence log' actions ∧ log'.pending = [] ∧ s.flushSequence.size = 0 ∧
      s.flushSequence.lastValue = none ∧ s.flushSequence.runCount = 0 ∧ s.flushSequence.closed = s.closed ∧
      s.flushSequence.checkpoints = s.checkpoints := by
  have hl := h.pending.length
  have hps := length_pos_iff.mpr hne
  rw [ByteOutputStream.flushSequence,if_neg (by omega)]
  have hbl : ∃ log' : BlockLog format, log'.Logs ⟨s.buffer ++ s.sequenceBytes,s.checkpoints⟩ actions ∧ log'.pending = [] ∧
      log'.Exact := by
    have hbn := h.bounded
    generalize hp : log.pending = pending
    have hcs := h.pending
    rw [hp] at hcs
    cases hcs with
    | none => exact absurd hp hne
    | literals front value hbf ho hc hv =>
      have hb : s.sequenceBytes = BitVec.ofInt 8 (-(front ++ replicate s.runCount value).length) ::
          (front ++ replicate s.runCount value) := by
        rw [sequenceBytes,if_neg (by omega),hbf,hl,hp]
      rw [hb]
      refine logs_literals h.logs h.exact [] (hp ▸ hne) ?_ (by rw [hp,append_nil])
      rw [← hp,← hl]
      exact hbn
    | run value hc hs hv =>
      have hb : s.sequenceBytes = [BitVec.ofNat 8 (s.runCount - minRepeatSize),value] := by
        rw [sequenceBytes,if_pos hc,hv]
        rfl
      rw [hb]
      exact logs_run h.logs h.exact [] hc (by omega) (by rw [hp,append_nil])
  obtain ⟨log',hlg,hp,he⟩ := hbl
  refine ⟨log',⟨hlg,?_,Nat.zero_le _,he⟩,hp,rfl,rfl,rfl,rfl,rfl⟩
  rw [hp]
  exact .none rfl rfl rfl

theorem Written.flushIfFull (h : Written s log actions) : ∃ log' : BlockLog format, Written s.flushIfFull log' actions ∧
    s.flushIfFull.size < 128 ∧ s.flushIfFull.closed = s.closed ∧ s.flushIfFull.checkpoints = s.checkpoints := by
  have hb := h.bounded
  rw [ByteOutputStream.flushIfFull]
  by_cases hf : s.size = 128
  · have hl := h.pending.length
    have hne : log.pending ≠ [] := length_pos_iff.mp (by omega)
    obtain ⟨log',hw,-,hs,-,-,hcl,hc⟩ := h.flushSequence hne
    rw [if_pos hf]
    exact ⟨log',hw,by omega,hcl,hc⟩
  · rw [if_neg hf]
    exact ⟨log,h,by omega,rfl,rfl⟩

/-- The writer when the run is counted and the value is not in the buffer yet: with it the
pending values end in as many equal ones. -/
structure Counted (s : ByteOutputStream) (value : Byte) (log : BlockLog format) (actions : List (WriteAction Byte)) : Prop where
  logs : log.Logs ⟨s.buffer,s.checkpoints⟩ actions
  exact : log.Exact
  bounded : s.size < 128
  sized : s.size = log.pending.length
  ends : (∃ front, s.sequenceBuffer = front ++ replicate (s.runCount - 1) value ∧ log.pending = s.sequenceBuffer ∧
      0 < s.runCount ∧ s.runCount ≤ minRepeatSize) ∨
    (minRepeatSize < s.runCount ∧ log.pending = replicate (s.runCount - 1) value)

theorem Written.countRun (h : Written s log actions) (hrm : s.size < 128) (value : Byte) :
    ∃ log' : BlockLog format, Counted (s.countRun value) value log' actions ∧ (s.countRun value).closed = s.closed ∧
      (s.countRun value).checkpoints = s.checkpoints := by
  have hl := h.pending.length
  rw [ByteOutputStream.countRun]
  generalize hp : log.pending = pending
  have hcs := h.pending
  rw [hp] at hcs
  by_cases hs : s.lastValue = some value
  · rw [if_pos hs]
    refine ⟨log,⟨h.logs,h.exact,hrm,hl,?_⟩,rfl,rfl⟩
    cases hcs with
    | none _ _ hv => cases hv.symm.trans hs
    | literals front value' hb hps hc hv =>
      cases hv.symm.trans hs
      exact .inl ⟨front,hb,hp.trans hb.symm,Nat.succ_pos _,hc⟩
    | run value' hc hsz hv =>
      cases hv.symm.trans hs
      exact .inr ⟨Nat.lt_succ_of_le hc,hp⟩
  · rw [if_neg hs]
    by_cases hr : s.runCount ≥ minRepeatSize
    · have hne : log.pending ≠ [] := by
        cases hcs with
        | none _ hc => rw [hc] at hr; exact absurd hr (by decide)
        | literals _ _ _ _ hc => exact absurd hr (Nat.not_le_of_lt hc)
        | run value' hc =>
          rw [hp]
          exact ne_nil_of_length_pos (by rw [length_replicate]; exact Nat.lt_of_lt_of_le (by decide) hc)
      obtain ⟨log',hw,he,hsz,-,-,hcl,hch⟩ := h.flushSequence hne
      have hb : s.flushSequence.sequenceBuffer = [] := length_eq_zero_iff.mp hsz
      rw [if_pos hr]
      refine ⟨log',⟨hw.logs,hw.exact,?_,?_,.inl ⟨[],hb,he.trans hb.symm,Nat.one_pos,Nat.le_add_left 1 2⟩⟩,hcl,hch⟩
      · exact Nat.lt_of_le_of_lt (Nat.le_of_eq hsz) (by decide)
      · exact hw.pending.length
    · rw [if_neg hr]
      have hb : log.pending = s.sequenceBuffer := by
        cases hcs with
        | none hb | literals _ _ hb => rw [hp,hb]
        | run _ hc => exact absurd hc hr
      exact ⟨log,⟨h.logs,h.exact,hrm,hl,.inl ⟨s.sequenceBuffer,(append_nil _).symm,hb,Nat.one_pos,Nat.le_add_left 1 2⟩⟩,
        rfl,rfl⟩

theorem startRun_flush {front : List Byte} (hc : s.runCount = minRepeatSize)
    (hb : s.sequenceBuffer = front ++ replicate minRepeatSize value) (hf : front ≠ []) :
    s.startRun = { s with
      buffer := s.buffer ++ BitVec.ofInt 8 (-front.length) :: front, sequenceBuffer := s.sequenceBuffer.take minRepeatSize,
      runCount := minRepeatSize, lastValue := none } := by
  have hp := length_pos_iff.mpr hf
  have hs : s.size = front.length + minRepeatSize := by
    rw [size,hb,length_append,length_replicate]
  have ht : s.sequenceBuffer.take (s.size - minRepeatSize) = front := by
    rw [hs,Nat.add_sub_cancel,hb,take_left]
  have hl : ({ s with sequenceBuffer := front, runCount := 0 } : ByteOutputStream).size ≠ 0 := Nat.ne_of_gt hp
  rw [startRun,if_pos ⟨hc,by omega⟩,ht,flushSequence,if_neg hl]
  rfl

/-- The value is pending, and at most the values before its run were flushed. -/
theorem Counted.write (h : Counted s value log actions) {t : ByteOutputStream}
    (ht : t = { s with sequenceBuffer := s.sequenceBuffer ++ [value] }.startRun) :
    ∃ log' : BlockLog format, Written { t with lastValue := some value } log' (actions ++ [.write value]) ∧ log'.pending ≠ [] ∧
      t.closed = s.closed ∧ t.checkpoints = s.checkpoints := by
  let pushed : ByteOutputStream := { s with sequenceBuffer := s.sequenceBuffer ++ [value] }
  have hl := h.logs.push value
  have hph : pushed.size = s.size + 1 := length_append
  have hs : pushed.size = (log.push value).pending.length := by
    rw [hph,h.sized,BlockLog.push,length_append,length_singleton]
  have hb : pushed.size ≤ 128 := by
    have hrm := h.bounded
    omega
  have hne : (log.push value).pending ≠ [] := append_ne_nil_of_right_ne_nil _ (cons_ne_nil _ _)
  obtain ⟨front,hbf,hpn,hps,hc⟩ | ⟨hc,hpn⟩ := h.ends
  · have hf : pushed.sequenceBuffer = front ++ replicate s.runCount value := by
      have hsc : s.runCount = s.runCount - 1 + 1 := by omega
      change s.sequenceBuffer ++ [value] = _
      rw [hbf,append_assoc,← replicate_succ',← hsc]
    have hp : (log.push value).pending = front ++ replicate s.runCount value := by
      rw [← hf]
      exact congrArg (· ++ [value]) hpn
    obtain hc | hc := Nat.lt_or_eq_of_le hc
    · rw [startRun,if_neg fun hfl => Nat.ne_of_lt hc hfl.1] at ht
      subst ht
      refine ⟨log.push value,⟨hl,?_,hb,h.exact⟩,hne,rfl,rfl⟩
      rw [hp]
      exact .literals front value hf hps hc rfl
    · rw [hc] at hf hp
      by_cases he : front = []
      · subst he
        have hth : pushed.size = minRepeatSize := by
          rw [size,hf,nil_append,length_replicate]
        rw [startRun,if_neg fun hfl => Nat.ne_of_gt hfl.2 hth] at ht
        subst ht
        refine ⟨log.push value,⟨hl,?_,hb,h.exact⟩,hne,rfl,rfl⟩
        rw [hp,← hc]
        exact .run value (Nat.le_of_eq hc.symm) (hth.trans hc.symm) rfl
      · rw [startRun_flush (s := pushed) hc hf he] at ht
        subst ht
        have hft : front.length ≤ 128 := by
          rw [size,hf,length_append] at hb
          exact Nat.le_trans (Nat.le_add_right ..) hb
        obtain ⟨log',hl',hr,hex⟩ := logs_literals hl h.exact _ he hft hp
        have htk : (pushed.sequenceBuffer.take minRepeatSize).length = minRepeatSize := by
          rw [hf,length_take,length_append,length_replicate]
          omega
        refine ⟨log',⟨hl',?_,?_,hex⟩,?_,rfl,rfl⟩
        · rw [hr]
          exact .run value le_rfl htk rfl
        · exact Nat.le_trans (Nat.le_of_eq htk) (by decide)
        · rw [hr]
          exact cons_ne_nil _ _
  · have hp : (log.push value).pending = replicate s.runCount value := by
      have hsc : s.runCount = s.runCount - 1 + 1 := by omega
      change log.pending ++ [value] = _
      rw [hpn,← replicate_succ',← hsc]
    rw [startRun,if_neg fun hfl => Nat.ne_of_gt hc hfl.1] at ht
    subst ht
    refine ⟨log.push value,⟨hl,?_,hb,h.exact⟩,hne,rfl,rfl⟩
    rw [hp] at hs ⊢
    rw [length_replicate] at hs
    exact .run value (Nat.le_of_lt hc) hs rfl

theorem Written.writeByte (h : Written s log actions) (ho : s.closed = false) (value : Byte) :
    ∃ s', ∃ log' : BlockLog format, s.writeByte value = .ok s' ∧ Written s' log' (actions ++ [.write value]) ∧
      log'.pending ≠ [] ∧ s'.closed = false ∧ s'.checkpoints = s.checkpoints := by
  obtain ⟨log₁,hf,hr,hcl₁,hc₁⟩ := h.flushIfFull
  obtain ⟨log₂,hc,hcl₂,hc₂⟩ := hf.countRun hr value
  obtain ⟨log₃,hw,hne,hcl₃,hc₃⟩ := hc.write rfl
  refine ⟨_,log₃,?_,hw,hne,hcl₃.trans (hcl₂.trans (hcl₁.trans ho)),hc₃.trans (hc₂.trans hc₁)⟩
  rw [ByteOutputStream.writeByte,if_neg (by simp [ho])]
  rfl

end ByteOutputStream
end HetuCore.Orc
