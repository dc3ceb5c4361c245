import HetuCore.Foundation.BlockLog
import HetuCore.Orc.LongStreamV1

namespace HetuCore.Orc
open Foundation LongInputStreamV1 LongDecode BitVec

def runValues (first delta : Long) (count : Nat) : List Long :=
  (List.range count).map fun i => first + BitVec.ofNat 64 i * delta

@[simp] theorem length_runValues (first delta : Long) (count : Nat) : (runValues first delta count).length = count := by
  simp [runValues]

theorem runValues_succ (first delta : Long) (count : Nat) :
    runValues first delta (count + 1) = runValues first delta count ++ [first + BitVec.ofNat 64 count * delta] := by
  simp [runValues,List.range_succ]

variable {signed : Bool}

theorem values_literals (first : Long) (rest : List Long) : (format signed).values (.literals first rest) = first :: rest := by
  apply List.ext_getElem
  · exact BlockFormat.length_values ..
  · intro i hi hi'
    simp [BlockFormat.values,format,literal]
    rw [List.getElem?_eq_getElem hi']
    rfl

theorem values_run (control : Nat) (delta : Byte) (first : Long) :
    (format signed).values (.run control delta first) = runValues first (delta.signExtend 64) (control + minRepeatSize) := by
  have hv (i : Nat) : first + BitVec.ofInt 64 (i * delta.toInt) = first + BitVec.ofNat 64 i * delta.signExtend 64 := by
    rw [ofInt_mul]
    rfl
  exact List.map_congr_left fun i _ => hv i

theorem readValues_cons (control : Byte) (input : List Byte) : readValues signed (control :: input) =
    (if control.toNat < 0x80 then readRun signed control.toNat else readLiterals signed (0x100 - control.toNat)) input := rfl

theorem parses_literals (first : Long) (rest : List Long) (hl : rest.length < 128) :
    Parser.Parses (readValues signed) (BitVec.ofInt 8 (-((first :: rest).length : Nat)) ::
      (first :: rest).flatMap fun value => writeVLong value signed) (.literals first rest) := by
  intro more
  have hc : (BitVec.ofInt 8 (-((first :: rest).length : Nat))).toNat = 255 - rest.length := by
    rw [toNat_ofInt,List.length_cons]
    omega
  have hcn : 0x100 - (255 - rest.length) - 1 = rest.length := by omega
  have hr : Parser.Parses (readLiterals signed (0x100 - (255 - rest.length)))
      ((first :: rest).flatMap fun value => writeVLong value signed) (.literals first rest) := by
    rw [readLiterals,hcn,List.flatMap_cons]
    refine (parses_readVInt first signed).bind ?_
    rw [← List.append_nil (rest.flatMap _)]
    exact (Parser.Parses.times rest fun value _ => parses_readVInt value signed).bind (.pure _)
  rw [List.cons_append,readValues_cons,hc,if_neg (by omega)]
  exact hr more

theorem parses_run {control : Nat} (hc : control < 128) (delta : Byte) (first : Long) :
    Parser.Parses (readValues signed) (BitVec.ofNat 8 control :: delta :: writeVLong first signed)
      (.run control delta first) := by
  intro more
  have hb : (BitVec.ofNat 8 control).toNat = control := by
    rw [toNat_ofNat]
    omega
  have hr : Parser.Parses (readRun signed control) ([delta] ++ writeVLong first signed) (.run control delta first) := by
    refine (Parser.Parses.read delta).bind ?_
    rw [← List.append_nil (writeVLong first signed)]
    exact (parses_readVInt first signed).bind (.pure _)
  rw [List.cons_append,readValues_cons,hb,if_pos hc]
  exact hr more

/-- The block of literals that is written for the values. -/
def literalSegment (signed : Bool) (first : Long) (rest : List Long) (hlength : rest.length < 128) : Segment (format signed) where
  bytes := BitVec.ofInt 8 (-((first :: rest).length : Nat)) ::
    (first :: rest).flatMap fun value => writeVLong value signed
  block := .literals first rest
  parses := parses_literals first rest hlength
  nonempty := List.cons_ne_nil _ _

/-- The block that is written for a run; one byte is kept of the difference. -/
def runSegment (signed : Bool) (control : Nat) (hcontrol : control < 128) (delta first : Long) : Segment (format signed) where
  bytes := BitVec.ofNat 8 control :: delta.setWidth 8 :: writeVLong first signed
  block := .run control (delta.setWidth 8) first
  parses := parses_run hcontrol _ first
  nonempty := List.cons_ne_nil _ _

variable {delta : Long}

/-- A valid difference is kept in one byte. -/
theorem signExtend_setWidth (h : LongOutputStreamV1.isValidDelta delta) :
    (delta.setWidth 8).signExtend 64 = delta := by
  obtain ⟨hlw,hh⟩ := h
  have hb : (delta.setWidth 8).toInt = delta.toInt := by
    rw [toInt_eq_toNat_cond,toNat_setWidth]
    have hl := toInt_eq_toNat_cond delta
    omega
  rw [signExtend,hb,ofInt_toInt]

theorem runValues_ne {first other : Long} {count : Nat} (hc : 2 ≤ count) (hne : delta ≠ other) :
    runValues first delta count ≠ runValues first other count := by
  intro heq
  have hs := congrArg (fun values => values[1]?) heq
  simp only [runValues,List.getElem?_map,List.getElem?_range hc,Option.map_some,Option.some.injEq] at hs
  apply hne
  rw [BitVec.one_mul,BitVec.one_mul] at hs
  exact (BitVec.add_right_inj first).mp hs

/-- A run is read back unless its difference is the sentinel. -/
theorem values_runSegment (signed : Bool) {control : Nat} (hc : control < 128) (first : Long)
    (hd : LongOutputStreamV1.isValidDelta delta ∨ delta = unmatchableDeltaValue) :
    (format signed).values (runSegment signed control hc delta first).block =
      runValues first delta (control + minRepeatSize) ↔ delta ≠ unmatchableDeltaValue := by
  rw [runSegment,values_run]
  constructor
  · rintro heq rfl
    refine runValues_ne (by simp [minRepeatSize]) ?_ heq
    decide
  · intro hne
    rw [signExtend_setWidth (hd.resolve_right hne)]

end HetuCore.Orc
