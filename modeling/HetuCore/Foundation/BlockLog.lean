import HetuCore.Foundation.BlockLayout

/-! What a writer of blocks has done: values are pending until they are flushed as a block, and
a checkpoint counts the pending values after the bytes written so far. -/
namespace HetuCore.Foundation
open BlockFormat List
variable {α β : Type}

inductive WriteAction (α : Type) where
  | write (value : α)
  | recordCheckpoint
  deriving DecidableEq

namespace WriteAction

def written : List (WriteAction α) → List α
  | [] => []
  | .write value :: actions => value :: written actions
  | .recordCheckpoint :: actions => written actions

/-- For each checkpoint, the number of values written before it. -/
def marksFrom (n : Nat) : List (WriteAction α) → List Nat
  | [] => []
  | .write _ :: actions => marksFrom (n + 1) actions
  | .recordCheckpoint :: actions => n :: marksFrom n actions

def marks (actions : List (WriteAction α)) : List Nat := marksFrom 0 actions

theorem written_append (actions more : List (WriteAction α)) : written (actions ++ more) = written actions ++ written more := by
  induction actions with
  | nil => rfl
  | cons action actions ih =>
    cases action with
    | write value => exact congrArg (cons value) ih
    | recordCheckpoint => exact ih

theorem marksFrom_append (n : Nat) (actions more : List (WriteAction α)) :
    marksFrom n (actions ++ more) = marksFrom n actions ++ marksFrom (n + (written actions).length) more := by
  induction actions generalizing n with
  | nil => rfl
  | cons action actions ih =>
    cases action with
    | write value =>
      rw [cons_append,marksFrom,ih,marksFrom,written,length_cons]
      congr 2
      omega
    | recordCheckpoint =>
      rw [cons_append,marksFrom,ih]
      rfl

variable (actions : List (WriteAction α))

theorem marks_write (value : α) : marks (actions ++ [.write value]) = marks actions := by
  rw [marks,marksFrom_append]
  exact append_nil _

theorem marks_recordCheckpoint :
    marks (actions ++ [.recordCheckpoint]) = marks actions ++ [(written actions).length] := by
  rw [marks,marksFrom_append,Nat.zero_add]
  rfl

theorem written_map_write (values : List α) : written (values.map .write) = values := by
  induction values with
  | nil => rfl
  | cons value values ih => exact congrArg (cons value) ih

theorem marks_map_write (values : List α) : marks (actions ++ values.map .write) = marks actions := by
  induction values generalizing actions with
  | nil => exact congrArg marks (append_nil _)
  | cons value values ih =>
    rw [map_cons,append_cons,ih,marks_write]

theorem marks_le {actions : List (WriteAction α)} {n : Nat} (h : n ∈ marks actions) : n ≤ (written actions).length := by
  induction actions using reverseRecOn with
  | nil => exact absurd h not_mem_nil
  | append_singleton actions action ih =>
    cases action with
    | write value =>
      rw [marks_write] at h
      rw [written_append,length_append]
      exact Nat.le_add_right_of_le (ih h)
    | recordCheckpoint =>
      rw [marks_recordCheckpoint] at h
      rw [written_append,length_append]
      obtain h | h := mem_append.mp h
      · exact Nat.le_add_right_of_le (ih h)
      · rw [mem_singleton.mp h]
        exact Nat.le_add_right ..

end WriteAction

/-- What a writer keeps of its output: the bytes and the checkpoints. -/
structure BlockOutput where
  buffer : List Byte
  checkpoints : List BlockCheckpoint

variable {F : BlockFormat β α}

/-- The blocks of the writer with the values each stands for, and the values not in a block yet. -/
structure BlockLog (F : BlockFormat β α) where
  segments : List (Segment F)
  flushed : List (List α)
  pending : List α
  sizes : List.Forall₂ (fun segment values => F.size segment.block = values.length) segments flushed

namespace BlockLog

variable (log : BlockLog F)

def values : List α := log.flushed.flatten ++ log.pending

/-- The checkpoint counts from the end of some blocks. -/
def Records (c : BlockCheckpoint) (n : Nat) : Prop :=
  ∃ front rest, log.segments = front ++ rest ∧ c.position = (bytesOf front).length ∧
    n = (valuesOf front).length + c.offset ∧ n ≤ log.values.length

/-- The log is that of the writer after it has written the values. -/
structure Logs (log : BlockLog F) (out : BlockOutput) (actions : List (WriteAction α)) : Prop where
  buffer : out.buffer = bytesOf log.segments
  values : log.values = WriteAction.written actions
  checkpoints : List.Forall₂ log.Records out.checkpoints (WriteAction.marks actions)

/-- Every block has the values it stands for. -/
def Exact : Prop :=
  List.Forall₂ (fun segment values => F.values segment.block = values) log.segments log.flushed

def empty : BlockLog F := ⟨[],[],[],.nil⟩

def push (value : α) : BlockLog F := { log with pending := log.pending ++ [value] }

/-- The first pending values become a block. -/
def flush (segment : Segment F) (chunk rest : List α) (hsz : F.size segment.block = chunk.length) : BlockLog F :=
  ⟨log.segments ++ [segment],log.flushed ++ [chunk],rest,rel_append log.sizes (.cons hsz .nil)⟩

variable {log : BlockLog F} {out : BlockOutput} {actions : List (WriteAction α)}

theorem length_valuesOf : ∀ {segments : List (Segment F)} {flushed : List (List α)},
    List.Forall₂ (fun segment values => F.size segment.block = values.length) segments flushed →
      (valuesOf segments).length = flushed.flatten.length
  | _,_,.nil => rfl
  | _,_,.cons (a := segment) (b := chunk) hsz hr => by
    rw [valuesOf_cons,flatten_cons,length_append,length_append,length_valuesOf hr,length_values,hsz]

theorem valuesOf_eq : ∀ {segments : List (Segment F)} {flushed : List (List α)},
    List.Forall₂ (fun segment values => F.values segment.block = values) segments flushed →
      valuesOf segments = flushed.flatten
  | _,_,.nil => rfl
  | _,_,.cons hv hr => by
    rw [valuesOf_cons,flatten_cons,valuesOf_eq hr,hv]

theorem exact_of_valuesOf : ∀ {segments : List (Segment F)} {flushed : List (List α)},
    List.Forall₂ (fun segment values => F.size segment.block = values.length) segments flushed →
      valuesOf segments = flushed.flatten →
      List.Forall₂ (fun segment values => F.values segment.block = values) segments flushed
  | _,_,.nil,_ => .nil
  | _,_,.cons hsz hr,heq => by
    rw [valuesOf_cons,flatten_cons] at heq
    obtain ⟨hv,hm⟩ := append_inj heq (by rw [length_values,hsz])
    exact .cons hv (exact_of_valuesOf hr hm)

theorem exact_push {value : α} : (log.push value).Exact ↔ log.Exact := Iff.rfl

variable {segment : Segment F} {chunk rest : List α} {hsz : F.size segment.block = chunk.length}

theorem exact_flush : (log.flush segment chunk rest hsz).Exact ↔ log.Exact ∧ F.values segment.block = chunk := by
  constructor
  · intro h
    have hl := log.sizes.length_eq
    have hf := forall₂_take_append (log.segments ++ [segment]) _ _ h
    have hls := forall₂_drop_append (log.segments ++ [segment]) _ _ h
    rw [← hl,take_left] at hf
    rw [← hl,drop_left] at hls
    cases hls with
    | cons hv _ => exact ⟨hf,hv⟩
  · rintro ⟨h,hv⟩
    exact rel_append h (.cons hv .nil)

theorem Logs.empty : (BlockLog.empty : BlockLog F).Logs ⟨[],[]⟩ [] := ⟨rfl,rfl,.nil⟩

theorem values_push (value : α) : (log.push value).values = log.values ++ [value] :=
  (append_assoc ..).symm

theorem values_flush (hpn : log.pending = chunk ++ rest) :
    (log.flush segment chunk rest hsz).values = log.values := by
  simp [values,flush,hpn]

theorem Records.mono {log' : BlockLog F} {c : BlockCheckpoint} {n : Nat} (h : log.Records c n)
    (hs : log.segments <+: log'.segments) (hv : log.values.length ≤ log'.values.length) : log'.Records c n := by
  obtain ⟨front,rest,hsp,hp,hn,hle⟩ := h
  obtain ⟨more,hm⟩ := hs
  exact ⟨front,rest ++ more,by rw [← hm,hsp,append_assoc],hp,hn,Nat.le_trans hle hv⟩

section
variable (h : log.Logs out actions)
include h

theorem Logs.push (value : α) : (log.push value).Logs out (actions ++ [.write value]) := by
  refine ⟨h.buffer,?_,?_⟩
  · rw [values_push,h.values,WriteAction.written_append]
    rfl
  · rw [WriteAction.marks_write]
    refine h.checkpoints.imp fun c n hc => hc.mono (prefix_refl _) ?_
    rw [values_push,length_append]
    exact Nat.le_add_right ..

theorem Logs.flush (hsz : F.size segment.block = chunk.length) (hpn : log.pending = chunk ++ rest) :
    (log.flush segment chunk rest hsz).Logs { out with buffer := out.buffer ++ segment.bytes } actions := by
  refine ⟨?_,(values_flush hpn).trans h.values,?_⟩
  · change out.buffer ++ segment.bytes = bytesOf (log.segments ++ [segment])
    rw [h.buffer]
    simp [bytesOf]
  · refine h.checkpoints.imp fun c n hc => hc.mono (prefix_append ..) (Nat.le_of_eq ?_)
    rw [values_flush hpn]

theorem Logs.recordCheckpoint :
    log.Logs { out with checkpoints := out.checkpoints ++ [⟨log.pending.length,out.buffer.length⟩] }
      (actions ++ [.recordCheckpoint]) := by
  have hl := length_valuesOf log.sizes
  refine ⟨h.buffer,?_,?_⟩
  · rw [h.values,WriteAction.written_append]
    exact (append_nil _).symm
  · rw [WriteAction.marks_recordCheckpoint]
    refine rel_append h.checkpoints (.cons ⟨log.segments,[],(append_nil _).symm,?_,?_,?_⟩ .nil)
    · rw [h.buffer]
    · rw [← h.values,BlockLog.values,length_append,hl]
    · exact Nat.le_of_eq (congrArg length h.values.symm)

section
variable (hpn : log.pending = [])
include hpn

/-- With nothing pending the checkpoints lead to the values they were recorded before. -/
theorem Logs.marks : List.Forall₂ (Marks log.segments) out.checkpoints (WriteAction.marks actions) := by
  refine h.checkpoints.imp fun c n hc => ?_
  obtain ⟨front,rest,hs,hp,hn,hle⟩ := hc
  refine ⟨front,rest,hs,hp,hn,?_⟩
  rw [BlockLog.values,hpn,append_nil,← length_valuesOf log.sizes,hs,valuesOf_append,length_append] at hle
  omega

theorem Logs.length : (valuesOf log.segments).length = (WriteAction.written actions).length := by
  rw [length_valuesOf log.sizes,← h.values,BlockLog.values,hpn,append_nil]

theorem Logs.exact_iff : log.Exact ↔ valuesOf log.segments = WriteAction.written actions := by
  rw [← h.values,BlockLog.values,hpn,append_nil]
  exact ⟨valuesOf_eq,exact_of_valuesOf log.sizes⟩

end

end

/-- Something is pending unless nothing was written, so a checkpoint that counts no value is at
the start. -/
structure Anchored (log : BlockLog F) (checkpoints : List BlockCheckpoint) : Prop where
  started : log.pending = [] → log.segments = []
  zero : ∀ c ∈ checkpoints, c.offset = 0 → c.position = 0

theorem Anchored.recordCheckpoint (h : log.Anchored out.checkpoints) (hb : out.buffer = bytesOf log.segments) :
    log.Anchored (out.checkpoints ++ [⟨log.pending.length,out.buffer.length⟩]) := by
  refine ⟨h.started,?_⟩
  intro c hc hz
  obtain hc | hc := mem_append.mp hc
  · exact h.zero c hc hz
  · rw [mem_singleton.mp hc] at hz ⊢
    have he := h.started (length_eq_zero_iff.mp hz)
    rw [he] at hb
    exact congrArg length hb

end BlockLog
end HetuCore.Foundation
