import Mathlib.Algebra.GroupWithZero.Nat
import HetuCore.Orc.ByteStreamRoundTrip

namespace HetuCore.Orc.BooleanInputStream
open Foundation

def endMessage : String := ByteOutputStream.endMessage

/-- Bits are read one at a time. -/
def takeBits (bits : List Bool) (items n : Nat) : Except String (List Bool × Nat) :=
  cursorRepeated bits endMessage pure items n

/-- What a function makes of the next bits. -/
def gather {ε : Type} (f : List Bool → ε) (bits : List Bool) (items n : Nat) : Except String (ε × Nat) := do
  let (taken,n) ← takeBits bits items n
  pure (f taken,n)

variable {ε γ : Type} {bits : List Bool} {f : List Bool → ε} {items n : Nat}

theorem takeBits_end {bits : List Bool} {items : Nat} (hi : 0 < items) : takeBits bits items bits.length = .error endMessage :=
  BlockFormat.cursorRepeated_end _ le_rfl (by omega)

theorem takeBits_one {bits : List Bool} {bit : Bool} (h : takeBits bits 1 n = .ok ([bit],n + 1)) :
    cursorNext bits endMessage n = .ok (bit,n + 1) := by
  obtain ⟨⟨a,m⟩,hn,h⟩ := bind_ok h
  cases h
  exact hn

theorem length_takeBits {front : List Bool} {n' : Nat} (h : takeBits bits items n = .ok (front,n')) : front.length = items := by
  induction items generalizing n front with
  | zero =>
    cases h
    rfl
  | succ items ih =>
    obtain ⟨⟨bit,m⟩,-,h⟩ := bind_ok h
    change (takeBits bits items m >>= fun c => pure (bit :: c.1,c.2)) = _ at h
    obtain ⟨⟨rest,m'⟩,hr,h⟩ := bind_ok h
    cases h
    exact congrArg Nat.succ (ih hr)

theorem gather_succ : gather f bits (items + 1) n =
    cursorNext bits endMessage n >>= fun c => gather (fun back => f (c.1 :: back)) bits items c.2 := by
  rw [gather,takeBits,cursorRepeated,bind_assoc]
  refine bind_congr fun c => ?_
  dsimp only
  rw [pure_bind,bind_assoc]
  rfl

theorem gather_map {ε' : Type} (g : ε → ε') :
    (gather f bits items n >>= fun c => pure (g c.1,c.2)) = gather (fun taken => g (f taken)) bits items n := by
  rw [gather,bind_assoc]
  rfl

theorem gather_end (hp : 0 < items) : gather f bits items bits.length = .error endMessage := by
  rw [gather,takeBits_end hp]
  rfl

theorem takeBits_add (bits : List Bool) (items more n : Nat) : takeBits bits (items + more) n = (do
    let (front,n) ← takeBits bits items n
    let (back,n) ← takeBits bits more n
    pure (front ++ back,n)) :=
  repeating_add (fun _ => rfl) (fun _ _ => rfl) items more n

theorem gather_add {front : List Bool} {n' : Nat} {more : Nat} (h : takeBits bits items n = .ok (front,n')) :
    gather f bits (items + more) n = gather (fun back => f (front ++ back)) bits more n' := by
  rw [gather,takeBits_add,h]
  change (takeBits bits more n' >>= _) >>= _ = (takeBits bits more n' >>= _)
  rw [bind_assoc]
  rfl

section
variable {combine : ε → ε → ε} (hf : ∀ front back, f (front ++ back) = combine (f front) (f back))
include hf

theorem gather_append {front : List Bool} {n' : Nat} (h : takeBits bits items n = .ok (front,n')) (more : Nat) :
    gather f bits (items + more) n = gather f bits more n' >>= fun c => pure (combine (f front) c.1,c.2) := by
  rw [gather_add h,gather_map]
  simp only [hf]

theorem gather_split {more : Nat} :
    gather f bits (items + more) n = (do
      let (front,n) ← gather f bits items n
      let (back,n) ← gather f bits more n
      pure (combine front back,n)) := by
  cases ht : takeBits bits items n with
  | error message =>
    rw [gather,gather,takeBits_add,ht]
    rfl
  | ok c =>
    rw [gather_append hf ht,gather.eq_def f bits items,ht]
    rfl

end

/-- A batch reader counts what the bits weigh, and sets one element for each. -/
def tally (weight : Bool → Nat) (element : Bool → γ) (taken : List Bool) : Nat × List γ :=
  ((taken.map weight).sum,taken.map element)

variable {weight : Bool → Nat} {element : Bool → γ}

theorem gather_tally {front : List Bool} {n' : Nat} (h : takeBits bits items n = .ok (front,n')) (more : Nat) :
    gather (tally weight element) bits (items + more) n = gather (tally weight element) bits more n' >>= fun c =>
      pure (((tally weight element front).1 + c.1.1,(tally weight element front).2 ++ c.1.2),c.2) :=
  @gather_append _ bits (tally weight element) items n (fun a b => (a.1 + b.1,a.2 ++ b.2)) (fun _ _ => by simp [tally]) front n' h more

end HetuCore.Orc.BooleanInputStream
