import HetuCore.Foundation.Machine

/-! Computations on two kinds of states that go the same way: related states stay related, the
results are the same, and so are the failures. -/
namespace HetuCore.Foundation
variable {α ε σ τ σ' τ' : Type}

/-- Two computations on related states: the same failure, or the same result and related states. -/
def Agree (R : σ → τ → Prop) : Except String (α × σ) → Except String (α × τ) → Prop
  | .ok (a,s),.ok (b,t) => a = b ∧ R s t
  | .error message,.error other => message = other
  | _,_ => False

variable {R : σ → τ → Prop} {S : σ' → τ' → Prop} {x : Except String (α × σ)} {y : Except String (α × τ)}

theorem Agree.eq_or (h : Agree R x y) :
    (∃ message, x = .error message ∧ y = .error message) ∨ ∃ a s t, x = .ok (a,s) ∧ y = .ok (a,t) ∧ R s t := by
  rcases x with message | ⟨a,s⟩ <;> rcases y with other | ⟨b,t⟩
  · exact .inl ⟨message,rfl,congrArg Except.error h.symm⟩
  · exact h.elim
  · exact h.elim
  · obtain ⟨rfl,hst⟩ := h
    exact .inr ⟨a,s,t,rfl,rfl,hst⟩

theorem Agree.bind {f : α × σ → Except String (ε × σ')} {g : α × τ → Except String (ε × τ')} (h : Agree R x y)
    (hf : ∀ a s t, R s t → Agree S (f (a,s)) (g (a,t))) : Agree S (x >>= f) (y >>= g) := by
  obtain ⟨message,rfl,rfl⟩ | ⟨a,s,t,rfl,rfl,hst⟩ := h.eq_or
  · exact rfl
  · exact hf a s t hst

theorem Agree.of_ok {a : α} {t : τ} (h : Agree R x (.ok (a,t))) : ∃ s, x = .ok (a,s) ∧ R s t := by
  obtain ⟨message,-,hy⟩ | ⟨a',s,t',rfl,hy,hst⟩ := h.eq_or
  · cases hy
  · cases hy
    exact ⟨s,rfl,hst⟩

theorem Agree.of_error {message : String} (h : Agree R x (.error message : Except String (α × τ))) :
    x = .error message := by
  cases x with
  | error other => exact congrArg Except.error h
  | ok p => exact h.elim

/-- The same without results. -/
def Follow (R : σ → τ → Prop) : Except String σ → Except String τ → Prop
  | .ok s,.ok t => R s t
  | .error message,.error other => message = other
  | _,_ => False

section
variable {x : Except String σ} {y : Except String τ}

theorem Follow.eq_or (h : Follow R x y) :
    (∃ message, x = .error message ∧ y = .error message) ∨ ∃ s t, x = .ok s ∧ y = .ok t ∧ R s t := by
  rcases x with message | s <;> rcases y with other | t
  · exact .inl ⟨message,rfl,congrArg Except.error h.symm⟩
  · exact h.elim
  · exact h.elim
  · exact .inr ⟨s,t,rfl,rfl,h⟩

theorem Follow.of_ok {t : τ} (h : Follow R x (.ok t)) : ∃ s, x = .ok s ∧ R s t := by
  cases x with
  | error message => exact h.elim
  | ok s => exact ⟨s,rfl,h⟩

theorem Follow.bind {f : σ → Except String (ε × σ')} {g : τ → Except String (ε × τ')} (h : Follow R x y)
    (hf : ∀ s t, R s t → Agree S (f s) (g t)) : Agree S (x >>= f) (y >>= g) := by
  obtain ⟨message,rfl,rfl⟩ | ⟨s,t,rfl,rfl,hst⟩ := h.eq_or
  · exact rfl
  · exact hf s t hst

theorem Follow.mono {R S : σ → τ → Prop} (h : Follow R x y) (hRS : ∀ s t, x = .ok s → R s t → S s t) : Follow S x y := by
  obtain ⟨message,rfl,rfl⟩ | ⟨s,t,rfl,rfl,hst⟩ := h.eq_or
  · exact rfl
  · exact hRS s t rfl hst

end

theorem Agree.follow (h : Agree R x y) : Follow R (Prod.snd <$> x) (Prod.snd <$> y) := by
  obtain ⟨message,rfl,rfl⟩ | ⟨a,s,t,rfl,rfl,hst⟩ := h.eq_or
  · exact rfl
  · exact hst

theorem Agree.mono {R S : σ → τ → Prop} (h : Agree R x y) (hRS : ∀ a s t, x = .ok (a,s) → R s t → S s t) :
    Agree S x y := by
  obtain ⟨message,rfl,rfl⟩ | ⟨a,s,t,rfl,rfl,hst⟩ := h.eq_or
  · exact rfl
  · exact ⟨rfl,hRS a s t rfl hst⟩

def performAll (perform : σ → α → Except String (ε × σ)) : List α → σ → Except String (List ε)
  | [],_ => pure []
  | action :: actions,s => do
    let (result,s) ← perform s action
    let results ← performAll perform actions s
    pure (result :: results)

theorem performAll_eq {perform : σ → α → Except String (ε × σ)} {perform' : τ → α → Except String (ε × τ)}
    (hst : ∀ s t a, R s t → Agree R (perform s a) (perform' t a)) (actions : List α) {s : σ} {t : τ} (h : R s t) :
    performAll perform actions s = performAll perform' actions t := by
  induction actions generalizing s t with
  | nil => rfl
  | cons action actions ih =>
    rw [performAll,performAll]
    obtain ⟨message,hs,ht⟩ | ⟨result,s',t',hs,ht,h'⟩ := (hst s t action h).eq_or
    · rw [hs,ht]
      rfl
    · rw [hs,ht]
      change (performAll perform actions s' >>= _) = (performAll perform' actions t' >>= _)
      rw [ih h']

end HetuCore.Foundation
