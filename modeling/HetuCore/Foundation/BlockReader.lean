import HetuCore.Foundation.ByteParser
import HetuCore.Foundation.Machine

/-! Readers that decode a byte source block by block: a block is read when the one before it
is used up. Reading in batches and skipping are the same as reading one by one. -/
namespace HetuCore.Foundation
open List
variable {α β δ : Type}

/-- How a block is read, and its values; no block is empty. -/
structure BlockFormat (β α : Type) where
  readBlock : Parser β
  size : β → Nat
  value : β → Nat → α
  size_pos : ∀ b, 0 < size b

/-- The current block, if any, with the number of its values used; and where it was read. -/
structure BlockReader (β : Type) where
  input : ByteSource
  current : Option (β × Nat)
  lastRead : Nat

structure BlockCheckpoint where
  offset : Nat
  position : Nat

/-- A function that reads value by value reads some values and then the others. -/
theorem repeating_add {σ : Type} {next : σ → Except String (α × σ)} {convert : α → Except String δ}
    {repeating : Nat → σ → Except String (List δ × σ)} (hz : ∀ s, repeating 0 s = pure ([],s))
    (hs : ∀ n s, repeating (n + 1) s = (do
      let (a,s) ← next s
      let d ← convert a
      let (more,s) ← repeating n s
      pure (d :: more,s))) (m n : Nat) (s : σ) :
    repeating (m + n) s = (do
      let (values,s) ← repeating m s
      let (more,s) ← repeating n s
      pure (values ++ more,s)) := by
  induction m generalizing s with
  | zero =>
    rw [Nat.zero_add,hz]
    exact (bind_pure _).symm
  | succ m ih =>
    rw [Nat.add_right_comm,hs,hs,bind_assoc]
    refine bind_congr fun ⟨a,s⟩ => ?_
    rw [bind_assoc]
    refine bind_congr fun d => ?_
    rw [ih,bind_assoc,bind_assoc]
    refine bind_congr fun ⟨values,s⟩ => ?_
    rw [bind_assoc]
    rfl

namespace BlockFormat
variable (F : BlockFormat β α)

def values (b : β) : List α := (range (F.size b)).map (F.value b)

@[simp] theorem length_values (b : β) : (F.values b).length = F.size b := by simp [values]

def new (input : ByteSource) : BlockReader β := ⟨input,none,input.position⟩

variable (r : BlockReader β)

def readNext : Except String (β × Nat × BlockReader β) := do
  let (b,input) ← r.input.parse F.readBlock
  pure (b,0,⟨input,some (b,0),r.input.position⟩)

/-- The current block and the number of its values used, after reading a block if necessary. -/
def refill : Except String (β × Nat × BlockReader β) :=
  match r.current with
  | none => F.readNext r
  | some (b,used) => if used = F.size b then F.readNext r else pure (b,used,r)

def next : Except String (α × BlockReader β) := do
  let (b,used,r) ← F.refill r
  pure (F.value b used,{ r with current := some (b,used + 1) })

/-- Each round takes what the block still has. It takes at least one value, so there are at
most as many rounds as values. -/
def nextChunks (convert : α → Except String δ) : Nat → Nat → BlockReader β → Except String (List δ × BlockReader β)
  | 0,_,r => pure ([],r)
  | _ + 1,0,r => pure ([],r)
  | rounds + 1,items + 1,r => do
    let (b,used,r) ← F.refill r
    let chunk := min (items + 1) (F.size b - used)
    let values ← ((range chunk).map fun i => F.value b (used + i)).mapM convert
    let (more,r) ← nextChunks convert rounds (items + 1 - chunk) { r with current := some (b,used + chunk) }
    pure (values ++ more,r)

def nextBatch (convert : α → Except String δ) (items : Nat) (r : BlockReader β) : Except String (List δ × BlockReader β) :=
  F.nextChunks convert items items r

def skipChunks : Nat → Nat → BlockReader β → Except String (BlockReader β)
  | 0,_,r => pure r
  | _ + 1,0,r => pure r
  | rounds + 1,items + 1,r => do
    let (b,used,r) ← F.refill r
    let consume := min (items + 1) (F.size b - used)
    skipChunks rounds (items + 1 - consume) { r with current := some (b,used + consume) }

def skip (items : Nat) (r : BlockReader β) : Except String (BlockReader β) := F.skipChunks items items r

def available : Nat := r.current.elim 0 fun c => F.size c.1

/-- Within the current block only the pointer moves. -/
def seek (c : BlockCheckpoint) (r : BlockReader β) : Except String (BlockReader β) :=
  if r.lastRead = c.position ∧ c.offset ≤ F.available r then
    pure { r with current := r.current.map fun current => (current.1,c.offset) }
  else F.skip c.offset { r with input := r.input.seek c.position, current := none }

def repeated (convert : α → Except String δ) : Nat → BlockReader β → Except String (List δ × BlockReader β)
  | 0,r => pure ([],r)
  | n + 1,r => do
    let (a,r) ← F.next r
    let d ← convert a
    let (more,r) ← repeated convert n r
    pure (d :: more,r)

def Valid : Prop := ∀ b used, r.current = some (b,used) → used ≤ F.size b

variable {F} {r r' : BlockReader β} {b : β} {used : Nat} {convert : α → Except String δ}

theorem refill_ready (hv : F.Valid r) (h : F.refill r = .ok (b,used,r')) : r'.current = some (b,used) ∧ used < F.size b := by
  have hr (h : F.readNext r = .ok (b,used,r')) : r'.current = some (b,used) ∧ used < F.size b := by
    obtain ⟨⟨b',input⟩,-,h⟩ := bind_ok h
    cases h
    exact ⟨rfl,F.size_pos b⟩
  rw [refill] at h
  split at h
  · exact hr h
  · rename_i b' used' hc
    split at h
    · exact hr h
    · rename_i hne
      cases h
      exact ⟨hc,Nat.lt_of_le_of_ne (hv b used hc) hne⟩

theorem refill_current (hc : r.current = some (b,used)) (hu : used < F.size b) : F.refill r = .ok (b,used,r) := by
  rw [refill,hc]
  exact if_neg (Nat.ne_of_lt hu)

theorem repeated_refill (hv : F.Valid r) (n : Nat) :
    F.repeated convert (n + 1) r = F.refill r >>= fun c => F.repeated convert (n + 1) c.2.2 := by
  cases h : F.refill r with
  | error message =>
    rw [repeated,next,h]
    rfl
  | ok c =>
    obtain ⟨b,used,r'⟩ := c
    obtain ⟨hc,hu⟩ := refill_ready hv h
    change _ = F.repeated convert (n + 1) r'
    rw [repeated,repeated,next,next,h,refill_current hc hu]

theorem repeated_add (m n : Nat) (r : BlockReader β) :
    F.repeated convert (m + n) r = (do
      let (values,r) ← F.repeated convert m r
      let (more,r) ← F.repeated convert n r
      pure (values ++ more,r)) :=
  repeating_add (fun _ => rfl) (fun _ _ => rfl) m n r

theorem repeated_within (n : Nat) (hc : r.current = some (b,used)) (hrm : used + n ≤ F.size b) :
    F.repeated convert n r = (do
      let values ← ((range n).map fun i => F.value b (used + i)).mapM convert
      pure (values,{ r with current := some (b,used + n) })) := by
  induction n generalizing r used with
  | zero =>
    rw [Nat.add_zero,← hc]
    rfl
  | succ n ih =>
    have hr := ih (r := { r with current := some (b,used + 1) }) rfl (by omega)
    rw [repeated,next,refill_current hc (by omega)]
    change (convert (F.value b used) >>= _) = _
    rw [range_succ_eq_map,map_cons,map_map,mapM_cons,bind_assoc]
    have hs : (fun i => F.value b (used + i)) ∘ Nat.succ = fun i => F.value b (used + 1 + i) := by
      funext i
      exact congrArg (F.value b) (by omega)
    rw [hs]
    refine bind_congr fun d => ?_
    rw [hr,bind_assoc,bind_assoc]
    refine bind_congr fun values => ?_
    rw [pure_bind,pure_bind,Nat.add_assoc,Nat.add_comm 1]

theorem nextChunks_eq {rounds items : Nat} (hv : F.Valid r) (hr : items ≤ rounds) :
    F.nextChunks convert rounds items r = F.repeated convert items r := by
  induction rounds generalizing items r with
  | zero =>
    obtain rfl : items = 0 := by omega
    rfl
  | succ rounds ih =>
    cases items with
    | zero => rfl
    | succ items =>
      rw [nextChunks,repeated_refill hv]
      cases h : F.refill r with
      | error message => rfl
      | ok c =>
        obtain ⟨b,used,r'⟩ := c
        obtain ⟨hcr,hu⟩ := refill_ready hv h
        let chunk := min (items + 1) (F.size b - used)
        have hc : chunk ≤ items + 1 ∧ used + chunk ≤ F.size b ∧ 0 < chunk := by omega
        have hs : items + 1 = chunk + (items + 1 - chunk) := by omega
        have hv' : F.Valid { r' with current := some (b,used + chunk) } := by
          intro b' used' hsm
          cases hsm
          exact hc.2.1
        change (mapM convert ((range chunk).map fun i => F.value b (used + i)) >>= _) =
          F.repeated convert (items + 1) r'
        conv_rhs => rw [hs,repeated_add,repeated_within chunk hcr hc.2.1]
        rw [bind_assoc]
        refine bind_congr fun values => ?_
        rw [ih hv' (by omega),pure_bind]

theorem nextBatch_eq (hv : F.Valid r) (items : Nat) : F.nextBatch convert items r = F.repeated convert items r :=
  nextChunks_eq hv (Nat.le_refl items)

theorem skipChunks_eq {rounds items : Nat} (hv : F.Valid r) :
    F.skipChunks rounds items r = Prod.snd <$> F.nextChunks (δ := α) pure rounds items r := by
  induction rounds generalizing items r with
  | zero => rfl
  | succ rounds ih =>
    cases items with
    | zero => rfl
    | succ items =>
      rw [skipChunks,nextChunks]
      cases h : F.refill r with
      | error message => rfl
      | ok c =>
        obtain ⟨b,used,r'⟩ := c
        obtain ⟨-,hu⟩ := refill_ready hv h
        let chunk := min (items + 1) (F.size b - used)
        have hv' : F.Valid { r' with current := some (b,used + chunk) } := by
          intro b' used' hs
          cases hs
          omega
        change F.skipChunks rounds (items + 1 - chunk) { r' with current := some (b,used + chunk) } =
          Prod.snd <$> (mapM pure ((range chunk).map fun i => F.value b (used + i)) >>= _)
        rw [ih hv',mapM_pure,pure_bind,map_bind]
        exact map_eq_pure_bind _ _

theorem skip_eq (hv : F.Valid r) (items : Nat) : F.skip items r = Prod.snd <$> F.repeated (δ := α) pure items r := by
  rw [skip,skipChunks_eq hv,nextChunks_eq hv (Nat.le_refl items)]

end BlockFormat
end HetuCore.Foundation
