import HetuCore.Foundation.Agreement
import HetuCore.Foundation.BlockReader
import Mathlib.Data.List.Forall2

/-! A reader over bytes that were written block by block: it reads the values of the blocks in
order, and a checkpoint leads back to the value it was recorded before. -/
namespace HetuCore.Foundation
open List
variable {α β δ : Type}

/-- A list that is read value by value. -/
def cursorNext (values : List α) (message : String) (n : Nat) : Except String (α × Nat) :=
  match values[n]? with
  | some a => .ok (a,n + 1)
  | none => .error message

def cursorRepeated (values : List α) (message : String) (convert : α → Except String δ) :
    Nat → Nat → Except String (List δ × Nat)
  | 0,n => pure ([],n)
  | items + 1,n => do
    let (a,n) ← cursorNext values message n
    let d ← convert a
    let (more,n) ← cursorRepeated values message convert items n
    pure (d :: more,n)

def cursorSkip (values : List α) (message : String) (items n : Nat) : Except String Nat :=
  Prod.snd <$> cursorRepeated values message (pure : α → Except String α) items n

/-- The element of a list of checkpoints, or of what they stand for. -/
def elementAt (items : List α) (index : Nat) : Except String α := (items[index]?).elim (.error "IndexOutOfBoundsException") .ok

/-- A block as it was written. -/
structure Segment (F : BlockFormat β α) where
  bytes : List Byte
  block : β
  parses : Parser.Parses F.readBlock bytes block
  nonempty : bytes ≠ []

namespace BlockFormat
variable {F : BlockFormat β α}

def bytesOf (segs : List (Segment F)) : List Byte := segs.flatMap Segment.bytes

def valuesOf (segs : List (Segment F)) : List α := segs.flatMap fun segment => F.values segment.block

@[simp] theorem bytesOf_append (segs more : List (Segment F)) : bytesOf (segs ++ more) = bytesOf segs ++ bytesOf more := by
  simp [bytesOf]

@[simp] theorem valuesOf_append (segs more : List (Segment F)) :
    valuesOf (segs ++ more) = valuesOf segs ++ valuesOf more := by
  simp [valuesOf]

section
variable (segment : Segment F) (segs : List (Segment F))

theorem bytesOf_cons : bytesOf (segment :: segs) = segment.bytes ++ bytesOf segs :=
  flatMap_cons ..

theorem valuesOf_cons : valuesOf (segment :: segs) = F.values segment.block ++ valuesOf segs :=
  flatMap_cons ..

theorem length_bytesOf_cons_pos : 0 < (bytesOf (segment :: segs)).length := by
  rw [bytesOf_cons,length_append]
  exact Nat.add_pos_left (length_pos_iff.mpr segment.nonempty) _

end

theorem split_unique {front front' rest rest' : List (Segment F)} (h : front ++ rest = front' ++ rest')
    (hl : (bytesOf front).length = (bytesOf front').length) : front = front' ∧ rest = rest' := by
  induction front generalizing front' with
  | nil =>
    cases front' with
    | nil => exact ⟨rfl,h⟩
    | cons segment front' => exact absurd hl (length_bytesOf_cons_pos segment front').ne
  | cons segment front ih =>
    cases front' with
    | nil => exact absurd hl (length_bytesOf_cons_pos segment front).ne'
    | cons segment' front' =>
      obtain ⟨rfl,hr⟩ := cons.inj h
      rw [bytesOf_cons,bytesOf_cons,length_append,length_append] at hl
      obtain ⟨rfl,rfl⟩ := ih hr (by omega)
      exact ⟨rfl,rfl⟩

/-- The reader stands before a value: at the start of a segment, or within the one it has read. -/
inductive Standing (segs : List (Segment F)) (r : BlockReader β) (n : Nat) : Prop where
  | between (front rest : List (Segment F)) (hsegments : segs = front ++ rest) (hcurrent : r.current = none)
      (hposition : r.input.position = (bytesOf front).length) (hn : n = (valuesOf front).length)
  | within (front rest : List (Segment F)) (segment : Segment F) (used : Nat) (hsegments : segs = front ++ segment :: rest)
      (hcurrent : r.current = some (segment.block,used)) (hused : used ≤ F.size segment.block)
      (hposition : r.input.position = (bytesOf (front ++ [segment])).length) (hlast : r.lastRead = (bytesOf front).length)
      (hn : n = (valuesOf front).length + used)

/-- The reader over the bytes of the segments. -/
structure Reads (segs : List (Segment F)) (r : BlockReader β) (n : Nat) : Prop where
  bytes : r.input.bytes = bytesOf segs
  standing : Standing segs r n

variable {segs : List (Segment F)} {r : BlockReader β} {n : Nat} {message : String}

theorem Reads.new (segs : List (Segment F)) : Reads segs (BlockFormat.new ⟨bytesOf segs,0⟩) 0 :=
  ⟨rfl,.between [] segs rfl rfl rfl rfl⟩

theorem Reads.valid (h : Reads segs r n) : F.Valid r := by
  intro b used hc
  obtain ⟨_,_,_,hn,_,_⟩ | ⟨_,_,segment,used',_,hs,hu,_,_,_⟩ := h.standing
  · rw [hn] at hc
    cases hc
  · cases hs.symm.trans hc
    exact hu

theorem readNext_eq {front rest : List (Segment F)} {segment : Segment F} (hb : r.input.bytes = bytesOf segs)
    (hs : segs = front ++ segment :: rest) (hp : r.input.position = (bytesOf front).length) :
    F.readNext r = .ok (segment.block,0,
      ⟨⟨r.input.bytes,(bytesOf (front ++ [segment])).length⟩,some (segment.block,0),(bytesOf front).length⟩) := by
  have hsp : r.input.bytes = bytesOf front ++ segment.bytes ++ bytesOf rest := by
    rw [hb,hs,bytesOf_append,bytesOf_cons,append_assoc]
  have hl : (bytesOf front ++ segment.bytes).length = (bytesOf (front ++ [segment])).length := by
    simp [bytesOf]
  rw [readNext,ByteSource.parse_eq segment.parses hsp hp,hl,hp]
  rfl

section
variable (h : Reads segs r n)
include h

/-- A refill reads the next segment, or stays within the one it has read. -/
theorem Reads.refill_eq : (∃ front rest, segs = front ++ rest ∧ r.input.position = (bytesOf front).length ∧
      n = (valuesOf front).length ∧ F.refill r = F.readNext r) ∨
    ∃ front segment rest used, segs = front ++ segment :: rest ∧ used < F.size segment.block ∧
      n = (valuesOf front).length + used ∧ F.refill r = .ok (segment.block,used,r) ∧
      r.input.position = (bytesOf (front ++ [segment])).length ∧ r.lastRead = (bytesOf front).length := by
  obtain ⟨front,rest,hs,hc,hp,hn⟩ | ⟨front,rest,segment,used,hs,hc,hu,hp,hl,hn⟩ :=
    h.standing
  · exact .inl ⟨front,rest,hs,hp,hn,by rw [BlockFormat.refill,hc]⟩
  · rw [BlockFormat.refill,hc]
    simp only
    split
    · rename_i ha
      refine .inl ⟨front ++ [segment],rest,by rw [hs]; simp,hp,?_,rfl⟩
      rw [hn,ha]
      simp [valuesOf]
    · exact .inr ⟨front,segment,rest,used,hs,by omega,hn,rfl,hp,hl⟩

theorem Reads.refill (hn : n < (valuesOf segs).length) :
    ∃ front segment rest used r', F.refill r = .ok (segment.block,used,r') ∧ segs = front ++ segment :: rest ∧
      used < F.size segment.block ∧ n = (valuesOf front).length + used ∧ r'.input.bytes = bytesOf segs ∧
      r'.input.position = (bytesOf (front ++ [segment])).length ∧ r'.lastRead = (bytesOf front).length := by
  obtain ⟨front,rest,hs,hp,hn',heq⟩ | ⟨front,segment,rest,used,hs,hu,hn',heq,hp,hl⟩ :=
    h.refill_eq
  · rw [heq]
    cases rest with
    | nil =>
      rw [hs,append_nil] at hn
      omega
    | cons segment rest =>
      exact ⟨front,segment,rest,0,_,readNext_eq h.bytes hs hp,hs,F.size_pos _,hn',h.bytes,rfl,rfl⟩
  · exact ⟨front,segment,rest,used,r,heq,hs,hu,hn',h.bytes,hp,hl⟩

theorem refill_end (hn : (valuesOf segs).length ≤ n) (he : F.readBlock [] = .error message) :
    F.refill r = .error message := by
  obtain ⟨front,rest,hs,hp,hn',heq⟩ | ⟨front,segment,rest,used,hs,hu,hn',-⟩ := h.refill_eq
  · cases rest with
    | nil =>
      rw [heq,readNext,ByteSource.parse_end he]
      · rfl
      · rw [h.bytes,hp,hs,append_nil]
    | cons segment rest =>
      have hps := F.size_pos segment.block
      rw [hs,valuesOf_append,valuesOf_cons,length_append,length_append,length_values] at hn
      omega
  · rw [hs,valuesOf_append,valuesOf_cons,length_append,length_append,length_values] at hn
    omega

section
variable (he : F.readBlock [] = .error message)
include he

theorem Reads.next : Agree (Reads segs) (F.next r) (cursorNext (valuesOf segs) message n) := by
  by_cases hn : n < (valuesOf segs).length
  · obtain ⟨front,segment,rest,used,r',hr,hs,hu,hn',hb,hp,hl⟩ := h.refill hn
    have hv : (valuesOf segs)[n]? = some (F.value segment.block used) := by
      rw [hs,valuesOf_append,valuesOf_cons,hn',getElem?_append_right (by omega),Nat.add_sub_cancel_left,
        getElem?_append_left (by rw [length_values]; exact hu)]
      simp [values,hu]
    rw [BlockFormat.next,hr,cursorNext,hv]
    exact ⟨rfl,hb,.within front rest segment (used + 1) hs rfl hu hp hl (by omega)⟩
  · have hnn : (valuesOf segs)[n]? = none := getElem?_eq_none (by omega)
    rw [BlockFormat.next,refill_end h (by omega) he,cursorNext,hnn]
    rfl

variable (convert : α → Except String δ)

theorem Reads.repeated (items : Nat) :
    Agree (Reads segs) (F.repeated convert items r) (cursorRepeated (valuesOf segs) message convert items n) := by
  induction items generalizing r n with
  | zero => exact ⟨rfl,h⟩
  | succ items ih =>
    apply (h.next he).bind
    intro a r' n' h'
    dsimp only
    cases convert a with
    | error other => exact rfl
    | ok d =>
      refine (ih h').bind fun values r'' n'' h'' => ?_
      exact ⟨rfl,h''⟩

theorem Reads.nextBatch (items : Nat) :
    Agree (Reads segs) (F.nextBatch convert items r) (cursorRepeated (valuesOf segs) message convert items n) := by
  rw [nextBatch_eq h.valid]
  exact h.repeated he convert items

end

end

variable {values : List α} {items : Nat} {checkpoints : List BlockCheckpoint} {r' : BlockReader β} {index origin : Nat}

theorem cursorRepeated_pure (message : String) (hrm : n + items ≤ values.length) :
    cursorRepeated values message pure items n = .ok ((values.drop n).take items,n + items) := by
  induction items generalizing n with
  | zero => exact congrArg (fun read => Except.ok (read,n)) take_zero.symm
  | succ items ih =>
    have hr := ih (n := n + 1) (by omega)
    have hv : values[n]? = some values[n] := getElem?_eq_getElem (by omega)
    rw [cursorRepeated,cursorNext,hv,drop_eq_getElem_cons (by omega)]
    change (cursorRepeated values message pure items (n + 1) >>= _) = _
    rw [hr,Nat.add_right_comm]
    rfl

theorem cursorRepeated_end (message : String) (hn : n ≤ values.length) (hi : values.length < n + items) :
    cursorRepeated values message (pure : α → Except String α) items n = .error message := by
  induction items generalizing n with
  | zero => omega
  | succ items ih =>
    rw [cursorRepeated,cursorNext]
    by_cases hlt : n < values.length
    · rw [getElem?_eq_getElem hlt]
      change (cursorRepeated values message pure items (n + 1) >>= _) = _
      rw [ih hlt (by omega)]
      rfl
    · rw [getElem?_eq_none (by omega)]
      rfl

theorem cursorSkip_eq (message : String) (items : Nat) (hn : n ≤ values.length) :
    cursorSkip values message items n = if n + items ≤ values.length then .ok (n + items) else .error message := by
  rw [cursorSkip]
  split
  · rename_i hr
    rw [cursorRepeated_pure message hr]
    rfl
  · rw [cursorRepeated_end message hn (by omega)]
    rfl

section
variable (he : F.readBlock [] = .error message)
include he

theorem Reads.skip_follow (h : Reads segs r n) (items : Nat) :
    Follow (Reads segs) (F.skip items r) (cursorSkip (valuesOf segs) message items n) := by
  rw [skip_eq h.valid]
  exact (h.repeated he pure items).follow

theorem Reads.skip (h : Reads segs r n) (hr : n + items ≤ (valuesOf segs).length) :
    ∃ r', F.skip items r = .ok r' ∧ Reads segs r' (n + items) := by
  have hf := h.skip_follow he items
  rw [cursorSkip,cursorRepeated_pure message hr] at hf
  exact hf.of_ok

/-- The checkpoint was recorded before a value: after some segments, and some more values. -/
def Marks (segs : List (Segment F)) (c : BlockCheckpoint) (n : Nat) : Prop :=
  ∃ front rest, segs = front ++ rest ∧ c.position = (bytesOf front).length ∧ n = (valuesOf front).length + c.offset ∧
    c.offset ≤ (valuesOf rest).length

/-- A seek stands before the value of the checkpoint. A reader without a block has to be at the
position already, if that is where it last read. -/
theorem Reads.seek {m : Nat} {c : BlockCheckpoint} (h : Reads segs r m) (hc : Marks segs c n)
    (hf : r.current = none → r.lastRead = c.position → c.offset = 0 → r.input.position = c.position) :
    ∃ r', F.seek c r = .ok r' ∧ Reads segs r' n := by
  obtain ⟨front,rest,hs,hp,hn,hr⟩ := hc
  rw [BlockFormat.seek]
  split
  · rename_i hi
    obtain ⟨hl,ho⟩ := hi
    refine ⟨_,rfl,h.bytes,?_⟩
    obtain ⟨front',rest',hs',hcr,hp',-⟩ | ⟨front',rest',segment,used,hs',hcr,-,hp',hl',-⟩ := h.standing
    · have hz : c.offset = 0 := by
        rw [available,hcr] at ho
        exact Nat.le_zero.mp ho
      refine .between front rest hs (by rw [hcr]; rfl) ?_ (by omega)
      exact (hf hcr hl hz).trans hp
    · obtain ⟨rfl,hrs⟩ := split_unique (hs.symm.trans hs') (by omega)
      have hsz : c.offset ≤ F.size segment.block := by
        rw [available,hcr] at ho
        exact ho
      exact .within front rest' segment c.offset hs' (by rw [hcr]; rfl) hsz hp' hl' hn
  · have hst : Reads segs { r with input := r.input.seek c.position, current := none } (valuesOf front).length :=
      ⟨h.bytes,.between front rest hs rfl hp rfl⟩
    rw [hn]
    apply hst.skip he
    rw [hs,valuesOf_append,length_append]
    omega

/-- Where a reader would take its block for the one at the checkpoint, it is there. -/
def Fresh (r : BlockReader β) (c : BlockCheckpoint) : Prop :=
  r.current = none → r.lastRead = c.position → c.offset = 0 → r.input.position = c.position

/-- A seek to a checkpoint by its number. -/
def seekAt (F : BlockFormat β α) (checkpoints : List BlockCheckpoint) (index : Nat) (r : BlockReader β) :
    Except String (BlockReader β) := do
  let c ← elementAt checkpoints index
  F.seek c r

theorem Reads.seekAt_follow {marks : List Nat} (h : Reads segs r n)
    (hm : List.Forall₂ (Marks segs) checkpoints marks) (hf : ∀ c ∈ checkpoints[index]?, Fresh r c) :
    Follow (Reads segs) (F.seekAt checkpoints index r) (elementAt marks index) := by
  rw [seekAt,elementAt,elementAt]
  cases hc : checkpoints[index]? with
  | none =>
    have hn : marks[index]? = none := by
      rw [getElem?_eq_none_iff] at hc ⊢
      rw [← hm.length_eq]
      exact hc
    rw [hn]
    rfl
  | some c =>
    obtain ⟨hlt,hg⟩ := List.getElem?_eq_some_iff.mp hc
    have hl' : index < marks.length := hm.length_eq ▸ hlt
    have hmr : Marks segs checkpoints[index] marks[index] := hm.get hlt hl'
    rw [hg] at hmr
    obtain ⟨r',hs,h'⟩ := h.seek he hmr (hf c hc)
    rw [getElem?_eq_getElem hl']
    change Follow _ (F.seek c r) _
    rw [hs]
    exact h'

end

/-- Without a block the reader is at the origin. -/
def Rests (origin : Nat) (r : BlockReader β) : Prop := r.current = none → r.input.position = origin

theorem rests_of_next {a : α} (h : F.next r = .ok (a,r')) : Rests origin r' := by
  obtain ⟨⟨b,used,r₁⟩,-,h⟩ := bind_ok h
  cases h
  exact nofun

theorem rests_of_repeated {convert : α → Except String δ} {read : List δ}
    (hr : items = 0 → Rests origin r) (h : F.repeated convert items r = .ok (read,r')) : Rests origin r' := by
  induction items generalizing r read with
  | zero =>
    cases h
    exact hr rfl
  | succ items ih =>
    obtain ⟨⟨a,r₁⟩,h₁,h⟩ := bind_ok h
    obtain ⟨d,-,h⟩ := bind_ok h
    obtain ⟨⟨more,r₂⟩,h₂,h⟩ := bind_ok h
    cases h
    exact ih (fun _ => rests_of_next h₁) h₂

theorem rests_of_skip (hv : F.Valid r) (hr : items = 0 → Rests origin r)
    (h : F.skip items r = .ok r') : Rests origin r' := by
  rw [skip_eq hv] at h
  obtain ⟨c,hrp,h⟩ := bind_ok h
  cases h
  exact rests_of_repeated hr hrp

theorem rests_of_seek {c : BlockCheckpoint} (hr : Rests origin r) (hc : c.offset = 0 → c.position = origin)
    (h : F.seek c r = .ok r') : Rests origin r' := by
  rw [BlockFormat.seek] at h
  split at h
  · cases h
    exact fun hn => hr (Option.map_eq_none_iff.mp hn)
  · refine rests_of_skip ?_ (fun hz _ => hc hz) h
    intro b used hs
    cases hs

theorem rests_of_seekAt (hr : Rests origin r)
    (hz : ∀ c ∈ checkpoints, c.offset = 0 → c.position = origin) (h : F.seekAt checkpoints index r = .ok r') :
    Rests origin r' := by
  obtain ⟨c,hc,h⟩ := bind_ok h
  rw [elementAt] at hc
  cases hg : checkpoints[index]? with
  | none =>
    rw [hg] at hc
    cases hc
  | some c' =>
    rw [hg] at hc
    cases hc
    exact rests_of_seek hr (hz c (mem_of_getElem? hg)) h

theorem Rests.fresh (hr : Rests origin r)
    (hz : ∀ c ∈ checkpoints, c.offset = 0 → c.position = origin) : ∀ c ∈ checkpoints[index]?, Fresh r c := by
  intro c hc hcr _ ho
  exact (hr hcr).trans (hz c (mem_of_getElem? hc) ho).symm

end BlockFormat
end HetuCore.Foundation
