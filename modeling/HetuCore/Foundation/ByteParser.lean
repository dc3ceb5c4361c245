namespace HetuCore.Foundation
open List

abbrev Byte := BitVec 8

/-- A parser takes the remaining bytes and returns what it leaves of them. -/
abbrev Parser (α : Type) := StateT (List Byte) (Except String) α

namespace Parser
variable {α β : Type}

/-- The next byte, or none at the end. -/
def read : Parser (Option Byte)
  | [] => .ok (none,[])
  | b :: rest => .ok (some b,rest)

/-- The parser takes exactly these bytes, whatever follows them. -/
def Parses (p : Parser α) (bytes : List Byte) (a : α) : Prop := ∀ rest, p (bytes ++ rest) = .ok (a,rest)

theorem Parses.pure (a : α) : Parses (pure a : Parser α) [] a := fun _ => rfl

theorem Parses.read (b : Byte) : Parses read [b] (some b) := fun _ => rfl

theorem Parses.bind {p : Parser α} {f : α → Parser β} {bytes more : List Byte} {a : α} {b : β} (hp : Parses p bytes a)
    (hf : Parses (f a) more b) : Parses (p >>= f) (bytes ++ more) b := by
  intro rest
  change (p (bytes ++ more ++ rest) >>= fun r => f r.1 r.2) = _
  rw [append_assoc,hp]
  exact hf rest

/-- The same parser, as many times as there are results. -/
def times (p : Parser α) : Nat → Parser (List α)
  | 0 => pure []
  | n + 1 => do
    let a ← p
    let rest ← times p n
    pure (a :: rest)

theorem Parses.times {p : Parser α} {write : α → List Byte} (values : List α) (h : ∀ a ∈ values, Parses p (write a) a) :
    Parses (times p values.length) (values.flatMap write) values := by
  induction values with
  | nil => exact .pure []
  | cons a values ih =>
    intro rest
    have hr := ih fun b hb => h b (mem_cons_of_mem _ hb)
    change (p (write a ++ values.flatMap write ++ rest) >>= _) = _
    rw [append_assoc,h a (mem_cons_self ..)]
    change (Parser.times p values.length (values.flatMap write ++ rest) >>= _) = _
    rw [hr]
    rfl

end Parser

structure ByteSource where
  bytes : List Byte
  position : Nat

namespace ByteSource
variable {α : Type}

def remaining (s : ByteSource) : List Byte := s.bytes.drop s.position

def parse (p : Parser α) (s : ByteSource) : Except String (α × ByteSource) := do
  let (a,rest) ← p s.remaining
  pure (a,{ s with position := s.bytes.length - rest.length })

def seek (s : ByteSource) (position : Nat) : ByteSource := { s with position := position }

theorem parse_eq {s : ByteSource} {p : Parser α} {front bytes rest : List Byte} {a : α} (hp : Parser.Parses p bytes a)
    (hs : s.bytes = front ++ bytes ++ rest) (hps : s.position = front.length) :
    s.parse p = .ok (a,{ s with position := (front ++ bytes).length }) := by
  have hr : s.remaining = bytes ++ rest := by
    rw [remaining,hs,hps,append_assoc,drop_left]
  have hl : s.bytes.length - rest.length = (front ++ bytes).length := by
    rw [hs,length_append,Nat.add_sub_cancel]
  rw [parse,hr,hp rest]
  exact congrArg (fun position => Except.ok (a,{ s with position := position })) hl

theorem parse_end {s : ByteSource} {p : Parser α} {message : String} (hp : p [] = .error message)
    (hps : s.position = s.bytes.length) : s.parse p = .error message := by
  rw [parse,remaining,hps,drop_length,hp]
  rfl

end ByteSource
end HetuCore.Foundation
