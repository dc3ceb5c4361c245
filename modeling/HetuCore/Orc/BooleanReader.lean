import HetuCore.Orc.BooleanCursor
import HetuCore.Orc.BooleanStream

namespace HetuCore.Orc
open Foundation ByteInputStream BlockFormat BooleanInputStream List

namespace BooleanInputStream

/-- The bits that are in the data are the next ones; the rest of the data is zero. -/
structure Holds (segs : List (Segment format)) (s : BooleanInputStream) (n : Nat) : Prop where
  bytes : ∃ m, Follows segs s.byteStream m ∧ n + s.bitsInData = 8 * m ∧ m ≤ (valuesOf segs).length
  full : s.bitsInData ≤ 8
  data : 0 < s.bitsInData → bitsOf s.data =
    ((bitsOfBytes (valuesOf segs)).drop n).take s.bitsInData ++ replicate (8 - s.bitsInData) false

/-- Between two calls the data is not full. -/
structure Stands (segs : List (Segment format)) (s : BooleanInputStream) (n : Nat) : Prop extends Holds segs s n where
  room : s.bitsInData < 8

variable {segs : List (Segment format)} {s : BooleanInputStream} {n : Nat}

theorem Stands.new (segs : List (Segment format)) : Stands segs (new ⟨bytesOf segs,0⟩) 0 :=
  ⟨⟨⟨0,.new segs,rfl,Nat.zero_le _⟩,Nat.zero_le _,nofun⟩,Nat.succ_pos 7⟩

theorem Holds.inside (h : Holds segs s n) : n + s.bitsInData ≤ (bitsOfBytes (valuesOf segs)).length := by
  obtain ⟨m,-,hn,hm⟩ := h.bytes
  rw [length_bitsOfBytes]
  omega

variable {items : Nat} {byteStream : BlockReader ByteBlock}

theorem Holds.shift (h : Holds segs s n) (hi : items ≤ s.bitsInData) :
    Holds segs (s.shift items) (n + items) := by
  obtain ⟨m,hf,hn,hm⟩ := h.bytes
  have hfl := h.full
  refine ⟨⟨m,hf,?_,hm⟩,Nat.le_trans (Nat.sub_le ..) hfl,?_⟩
  · change n + items + (s.bitsInData - items) = _
    omega
  · intro hp
    change 0 < s.bitsInData - items at hp
    have hin := h.inside
    have ht : (((bitsOfBytes (valuesOf segs)).drop n).take s.bitsInData).length = s.bitsInData := by
      rw [length_take,length_drop]
      omega
    have hz : 8 - s.bitsInData + items = 8 - (s.bitsInData - items) := by omega
    change bitsOf (s.data <<< items) = take (s.bitsInData - items) _ ++ replicate (8 - (s.bitsInData - items)) false
    rw [bitsOf_shiftLeft _ (by omega),h.data (by omega),drop_append_of_le_length (by rw [ht]; exact hi),
      append_assoc,← replicate_add,hz,drop_take,drop_drop]

theorem Holds.top (h : Holds segs s n) (hi : items ≤ s.bitsInData) :
    takeBits (bitsOfBytes (valuesOf segs)) items n = .ok ((bitsOf s.data).take items,n + items) := by
  have hin := h.inside
  rw [takeBits,cursorRepeated_pure _ (by omega)]
  by_cases hz : items = 0
  · rw [hz,take_zero,take_zero]
  · rw [h.data (by omega),take_append_of_le_length (by rw [length_take,length_drop]; omega),take_take,
      Nat.min_eq_left hi]

theorem Holds.nextByte (h : Holds segs s n) (he : s.bitsInData = 0) :
    (∃ byte byteStream, next s.byteStream = .ok (byte,byteStream) ∧ Holds segs ⟨byteStream,byte,8⟩ n) ∨
    (next s.byteStream = .error endMessage ∧ n = (bitsOfBytes (valuesOf segs)).length) := by
  obtain ⟨m,hf,hn,hm⟩ := h.bytes
  obtain rfl : n = 8 * m := by omega
  have ha := hf.next
  by_cases hlt : m < (valuesOf segs).length
  · rw [cursorNext,getElem?_eq_getElem hlt] at ha
    obtain ⟨byteStream,hr,hf'⟩ := ha.of_ok
    refine .inl ⟨_,byteStream,hr,⟨m + 1,hf',?_,hlt⟩,Nat.le_refl 8,fun _ => ?_⟩
    · change 8 * m + 8 = 8 * (m + 1)
      omega
    · rw [drop_bitsOfBytes,drop_eq_getElem_cons hlt,bitsOfBytes_cons,
        take_append_of_le_length (Nat.le_of_eq (length_bitsOf _).symm),take_of_length_le (Nat.le_of_eq (length_bitsOf _))]
      exact (append_nil _).symm
  · rw [cursorNext,getElem?_eq_none (by omega)] at ha
    refine .inr ⟨ha.of_error,?_⟩
    rw [length_bitsOfBytes]
    omega

theorem highBit : ∀ data : Byte, (bitsOf data).take 1 = [decide (data &&& 0x80 ≠ 0)] := by
  decide +kernel

theorem Stands.readIfEmpty (h : Stands segs s n) :
    (∃ s', s.readIfEmpty = .ok s' ∧ Holds segs s' n ∧ 0 < s'.bitsInData) ∨
    (s.readIfEmpty = .error endMessage ∧ n = (bitsOfBytes (valuesOf segs)).length) := by
  rw [BooleanInputStream.readIfEmpty]
  by_cases he : s.bitsInData = 0
  · rw [if_pos he,readByte,if_neg fun hne => hne he]
    obtain ⟨byte,byteStream,hr,hh⟩ | ⟨hr,hen⟩ := h.nextByte he
    · rw [hr]
      exact .inl ⟨_,rfl,hh,Nat.succ_pos 7⟩
    · rw [hr]
      exact .inr ⟨rfl,hen⟩
  · rw [if_neg he]
    exact .inl ⟨s,rfl,h.toHolds,Nat.pos_of_ne_zero he⟩

theorem Stands.nextBit (h : Stands segs s n) :
    Agree (Stands segs) s.nextBit (cursorNext (bitsOfBytes (valuesOf segs)) endMessage n) := by
  rw [BooleanInputStream.nextBit]
  obtain ⟨s',hr,hh,hp⟩ | ⟨hr,rfl⟩ := h.readIfEmpty
  · have ht := hh.top hp
    rw [highBit] at ht
    rw [hr,takeBits_one ht]
    have hf := hh.full
    refine ⟨rfl,hh.shift hp,?_⟩
    change s'.bitsInData - 1 < 8
    omega
  · rw [hr,cursorNext,getElem?_eq_none le_rfl]
    rfl

theorem Stands.of_shift {byte : Byte} (h : Holds segs (shift ⟨byteStream,byte,8⟩ items) n)
    (hp : 0 < items) : Stands segs (shift ⟨byteStream,byte,8⟩ items) n :=
  ⟨h,Nat.sub_lt (Nat.succ_pos 7) hp⟩

theorem Holds.skipBits (h : Holds segs s n) (he : s.bitsInData = 0) (hi : items < 8) :
    Follow (Stands segs) (s.skipBits items) (cursorSkip (bitsOfBytes (valuesOf segs)) endMessage items n) := by
  have hin := h.inside
  rw [cursorSkip_eq _ _ (by omega),BooleanInputStream.skipBits]
  by_cases hz : items = 0
  · subst hz
    rw [if_neg fun hne => hne rfl,if_pos (by omega)]
    exact ⟨h,by omega⟩
  · rw [if_pos hz,readByte,if_neg fun hne => hne he]
    obtain ⟨byte,byteStream,hr,hh⟩ | ⟨hr,rfl⟩ := h.nextByte he
    · have hrm := hh.inside
      have hs := hh.shift (Nat.le_of_lt hi)
      rw [hr,if_pos (Nat.le_trans (Nat.add_le_add_left (Nat.le_of_lt hi) n) hrm)]
      exact .of_shift hs (Nat.pos_of_ne_zero hz)
    · rw [hr,if_neg (by omega)]
      rfl

theorem Stands.skip (h : Stands segs s n) (items : Nat) :
    Follow (Stands segs) (skip items s) (cursorSkip (bitsOfBytes (valuesOf segs)) endMessage items n) := by
  have hi := h.inside
  have hrm := h.room
  rw [BooleanInputStream.skip]
  by_cases hd : s.bitsInData ≥ items
  · rw [if_pos hd,cursorSkip_eq _ _ (by omega),if_pos (by omega)]
    exact ⟨h.shift hd,Nat.lt_of_le_of_lt (Nat.sub_le ..) hrm⟩
  · obtain ⟨m,hf,hn,hm⟩ := h.bytes
    rw [if_neg hd]
    generalize hrs : items - s.bitsInData = rest
    dsimp only
    have hs := hf.skip (rest / 8)
    rw [cursorSkip_eq _ _ hm] at hs
    have hl := length_bitsOfBytes (valuesOf segs)
    cases hr : ByteInputStream.skip (rest / 8) s.byteStream with
    | error message =>
      rw [hr] at hs
      split at hs
      · exact hs.elim
      · rw [cursorSkip_eq _ _ (by omega),if_neg (by omega)]
        exact hs
    | ok byteStream =>
      rw [hr] at hs
      split at hs
      · rename_i hby
        have hh : Holds segs { s with byteStream := byteStream, bitsInData := 0 } (8 * (m + rest / 8)) :=
          ⟨⟨m + rest / 8,hs,rfl,hby⟩,Nat.zero_le 8,nofun⟩
        have hb := hh.skipBits rfl (Nat.mod_lt rest (by decide))
        have hsm : 8 * (m + rest / 8) + rest % 8 = n + items := by omega
        rw [cursorSkip_eq _ _ (by omega),hsm,← cursorSkip_eq _ _ (by omega)] at hb
        exact hb
      · exact hs.elim

theorem Stands.countRemaining (h : Stands segs s n) (items : Nat) :
    Agree (Stands segs) (countRemaining items s)
      (gather (count true) (bitsOfBytes (valuesOf segs)) items n) := by
  induction items generalizing s n with
  | zero => exact ⟨rfl,h⟩
  | succ items ih =>
    rw [gather_succ]
    refine h.nextBit.bind fun bit s' n' h' => ?_
    have hc : (fun back => count true (bit :: back)) = fun back => (if bit then 1 else 0) + count true back := by
      funext back
      rw [count_cons,Nat.add_comm]
      cases bit <;> rfl
    rw [hc,← gather_map (f := count true)]
    exact (ih h').bind fun count s'' n'' h'' => ⟨rfl,h''⟩

/-- Without bits in the data only the bytes count. -/
theorem Holds.skipData {byte : Byte} (h : Holds segs ⟨byteStream,byte,8⟩ n) (he : s.bitsInData = 0) :
    Holds segs { s with byteStream } (n + 8) := by
  obtain ⟨_,data,bitsInData⟩ := s
  cases he
  exact ⟨(h.shift (Nat.le_refl 8)).bytes,Nat.zero_le 8,nofun⟩

theorem Holds.countBytes (h : Holds segs s n) (he : s.bitsInData = 0) {rounds items : Nat} (hrn : items ≤ rounds) :
    ∃ whole rest, items = whole + rest ∧ Agree (fun c n => c.1 = rest ∧ Holds segs c.2 n ∧ c.2.bitsInData = 0)
      (countBytes rounds items s) (gather (count true) (bitsOfBytes (valuesOf segs)) whole n) := by
  induction rounds generalizing items s n with
  | zero => exact ⟨0,items,(Nat.zero_add items).symm,rfl,rfl,h,he⟩
  | succ rounds ih =>
    rw [countBytes]
    by_cases hm : items > 8
    · rw [if_pos hm]
      obtain ⟨byte,byteStream,hr,hh⟩ | ⟨hr,rfl⟩ := h.nextByte he
      · obtain ⟨whole,rest,hsm,ha⟩ := ih (hh.skipData he) he (show items - 8 ≤ rounds by omega)
        have ht := hh.top (Nat.le_refl 8)
        refine ⟨8 + whole,rest,by omega,?_⟩
        rw [gather_append (fun _ _ => count_append) ht,hr]
        exact ha.bind fun count c n' h' => ⟨rfl,h'⟩
      · refine ⟨8,items - 8,by omega,?_⟩
        rw [hr,gather_end (by decide)]
        rfl
    · rw [if_neg hm]
      exact ⟨0,items,(Nat.zero_add items).symm,rfl,rfl,h,he⟩

theorem Stands.countUnbuffered (h : Stands segs s n) (hi : s.bitsInData = 0 ∨ items ≤ 8) :
    Agree (Stands segs) (countUnbuffered items s)
      (gather (count true) (bitsOfBytes (valuesOf segs)) items n) := by
  rw [BooleanInputStream.countUnbuffered]
  obtain he | hf := hi
  · obtain ⟨whole,rest,hsm,ha⟩ := h.countBytes he (Nat.le_refl items)
    rw [hsm,gather_split fun _ _ => count_append,← hsm]
    refine ha.bind fun count c n' h' => ?_
    obtain ⟨rfl,hh,hz⟩ := h'
    have hs : Stands segs c.2 n' := ⟨hh,by omega⟩
    exact (hs.countRemaining c.1).bind fun more s' n'' h'' => ⟨rfl,h''⟩
  · have hn : countBytes items items s = .ok (0,items,s) := by
      cases items with
      | zero => rfl
      | succ rounds =>
        rw [countBytes,if_neg (by omega)]
        rfl
    have hc : (fun taken : List Bool => 0 + count true taken) = count true := by
      funext taken
      exact Nat.zero_add _
    rw [hn,← hc,← gather_map (f := count true)]
    exact (h.countRemaining items).bind fun more s' n' h' => ⟨rfl,h'⟩

theorem Stands.countBitsSet (h : Stands segs s n) (items : Nat) : Agree (Stands segs) (countBitsSet items s)
      (gather (count true) (bitsOfBytes (valuesOf segs)) items n) := by
  have hrm := h.room
  rw [BooleanInputStream.countBitsSet]
  split
  · rename_i hb
    obtain ⟨hmr,hp⟩ := hb
    have ht := h.top (Nat.le_refl s.bitsInData)
    have hr : Stands segs { s with bitsInData := 0 } (n + s.bitsInData) := by
      obtain ⟨m,hf,hn,hm⟩ := h.bytes
      exact ⟨⟨⟨m,hf,hn,hm⟩,Nat.zero_le 8,nofun⟩,Nat.succ_pos 7⟩
    have hd : bitCount s.data = count true ((bitsOf s.data).take s.bitsInData) := by
      have hi := h.inside
      rw [bitCount,h.data hp,take_append_of_le_length (by rw [length_take,length_drop]; omega),take_take,
        Nat.min_self,count_append,count_replicate]
      rfl
    have hs : items = s.bitsInData + (items - s.bitsInData) := by omega
    conv => arg 3; rw [hs,gather_append (fun _ _ => count_append) ht,← hd]
    exact (hr.countUnbuffered (.inl rfl)).bind fun more s' n' h' => ⟨rfl,h'⟩
  · exact h.countUnbuffered (by omega)

end BooleanInputStream
end HetuCore.Orc
