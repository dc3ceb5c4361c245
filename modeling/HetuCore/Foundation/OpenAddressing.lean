import Mathlib.Data.Fintype.Card

/-! Open addressing with linear probing: a table whose entries all lie on an unbroken run of
used slots that starts at their home slot. -/
namespace HetuCore.Foundation.OpenAddressing
open Function
variable {E : Type} {n : Nat} (slot : Fin n)

def succ : Fin n := ⟨(slot + 1) % n,Nat.mod_lt _ slot.pos⟩

/-- Walks from a slot to the first one that is free or holds a wanted entry.
The fuel is the number of slots that are looked at. -/
def probe (table : Fin n → Option E) (wanted : E → Bool) : Nat → Fin n → Option (Fin n)
  | 0, _ => none
  | fuel + 1, slot => match table slot with
    | none => some slot
    | some e => if wanted e then some slot else probe table wanted fuel (succ slot)

/-- From one slot to another all slots are used, the last one apart. -/
inductive Run (table : Fin n → Option E) : Fin n → Fin n → Prop
  | here (slot : Fin n) : Run table slot slot
  | next {slot last : Fin n} {e : E} : table slot = some e → Run table (succ slot) last → Run table slot last

/-- No entry is cut off from its home slot. -/
def Chained (home : E → Fin n) (table : Fin n → Option E) : Prop :=
  ∀ slot e, table slot = some e → Run table (home e) slot

section Termination
variable {table : Fin n → Option E} {wanted : E → Bool}

theorem iterate_succ (i : Nat) : ((succ^[i] slot : Fin n) : Nat) = (slot + i) % n := by
  induction i with
  | zero => exact (Nat.mod_eq_of_lt slot.isLt).symm
  | succ i ih =>
    rw [iterate_succ_apply']
    show ((succ^[i] slot : Fin n) + 1) % n = (slot + (i + 1)) % n
    rw [ih,Nat.mod_add_mod,Nat.add_assoc]

/-- Every slot is reached from every other in fewer steps than there are slots. -/
theorem exists_iterate (last : Fin n) : ∃ i < n, succ^[i] slot = last := by
  refine ⟨(last + (n - slot)) % n,Nat.mod_lt _ slot.pos,Fin.ext ?_⟩
  have hs : slot + (last + (n - slot)) = last + n := by omega
  rw [iterate_succ,Nat.add_mod_mod,hs,Nat.add_mod_right,Nat.mod_eq_of_lt last.isLt]

theorem probe_of_iterate {i fuel : Nat} {slot : Fin n} (hi : i < fuel) (hf : table (succ^[i] slot) = none) :
    ∃ last, probe table wanted fuel slot = some last := by
  induction fuel generalizing i slot with
  | zero => omega
  | succ fuel ih =>
    rw [probe]
    cases hs : table slot with
    | none => exact ⟨slot,rfl⟩
    | some e =>
      dsimp only
      split
      · exact ⟨slot,rfl⟩
      · cases i with
        | zero => exact absurd (hf.symm.trans hs) (by simp)
        | succ i => exact ih (i := i) (by omega) (by rwa [iterate_succ_apply] at hf)

theorem exists_probe (wanted : E → Bool) (hf : ∃ slot, table slot = none) (start : Fin n) :
    ∃ last, probe table wanted n start = some last := by
  obtain ⟨free,hf⟩ := hf
  obtain ⟨i,hi,hfn⟩ := exists_iterate start free
  exact probe_of_iterate hi (hfn.symm ▸ hf)

theorem probe_succ {fuel : Nat} {slot last : Fin n} (h : probe table wanted fuel slot = some last) :
    probe table wanted (fuel + 1) slot = some last := by
  induction fuel generalizing slot with
  | zero => cases h
  | succ fuel ih =>
    rw [probe] at h ⊢
    cases hs : table slot with
    | none => rwa [hs] at h
    | some e =>
      rw [hs] at h
      dsimp only at h ⊢
      split
      · rwa [if_pos ‹_›] at h
      · rw [if_neg ‹_›] at h
        exact ih h

end Termination

section Walk
variable {table : Fin n → Option E} {wanted : E → Bool}

/-- A walk passes used slots only and ends at a free slot or a wanted entry. -/
theorem probe_spec {fuel : Nat} {start last : Fin n} (h : probe table wanted fuel start = some last) :
    Run table start last ∧ ∀ e, table last = some e → wanted e := by
  induction fuel generalizing start with
  | zero => cases h
  | succ fuel ih =>
    rw [probe] at h
    cases hs : table start with
    | none =>
      rw [hs] at h
      obtain rfl := Option.some.inj h
      exact ⟨.here start,fun e he => absurd (hs.symm.trans he) (by simp)⟩
    | some e =>
      rw [hs] at h
      dsimp only at h
      split at h
      · obtain rfl := Option.some.inj h
        refine ⟨.here start,fun e' he' => ?_⟩
        obtain rfl := Option.some.inj (hs.symm.trans he')
        assumption
      · obtain ⟨hr,hen⟩ := ih h
        exact ⟨.next hs hr,hen⟩

/-- A walk does not pass by the only wanted entry of its run. -/
theorem probe_eq_of_run {fuel : Nat} {start slot last : Fin n} {e : E} (hr : Run table start slot)
    (hsl : table slot = some e) (hw : wanted e) (hu : ∀ other e', table other = some e' → wanted e' → other = slot)
    (h : probe table wanted fuel start = some last) : last = slot := by
  induction hr generalizing fuel with
  | here slot =>
    cases fuel with
    | zero => cases h
    | succ fuel =>
      rw [probe,hsl] at h
      dsimp only at h
      rw [if_pos hw] at h
      exact (Option.some.inj h).symm
  | @next start slot e' hs hr ih =>
    cases fuel with
    | zero => cases h
    | succ fuel =>
      rw [probe,hs] at h
      dsimp only at h
      split at h
      · obtain rfl := Option.some.inj h
        exact hu start e' hs ‹_›
      · exact ih hsl hu h

variable {home : E → Fin n}

theorem Chained.probe_found {slot : Fin n} {e : E} (hc : Chained home table) (hf : ∃ slot, table slot = none)
    (hs : table slot = some e) (hw : wanted e) (hu : ∀ other e', table other = some e' → wanted e' → other = slot) :
    probe table wanted n (home e) = some slot := by
  obtain ⟨last,hl⟩ := exists_probe wanted hf (home e)
  rw [hl,probe_eq_of_run (hc slot e hs) hs hw hu hl]

theorem probe_absent (hf : ∃ slot, table slot = none) (ha : ∀ slot e, table slot = some e → ¬ wanted e)
    (start : Fin n) : ∃ last, probe table wanted n start = some last ∧ table last = none ∧ Run table start last := by
  obtain ⟨last,hl⟩ := exists_probe wanted hf start
  obtain ⟨hr,he⟩ := probe_spec hl
  cases hs : table last with
  | none => exact ⟨last,hl,hs,hr⟩
  | some e => exact absurd (he e hs) (ha last e hs)

end Walk

section Update
variable {table : Fin n → Option E}

theorem Run.update {start last : Fin n} (h : Run table start last) (slot : Fin n) (e : E) :
    Run (update table slot (some e)) start last := by
  induction h with
  | here last => exact .here last
  | @next start last e' hst _ ih =>
    by_cases hs : start = slot
    · subst hs
      exact .next (update_self ..) ih
    · exact .next ((update_of_ne hs ..).trans hst) ih

theorem Chained.update {home : E → Fin n} {last : Fin n} {e : E} (h : Chained home table)
    (hr : Run table (home e) last) : Chained home (update table last (some e)) := by
  intro slot e' hs
  by_cases hl : slot = last
  · subst hl
    rw [update_self] at hs
    cases hs
    exact hr.update slot _
  · rw [update_of_ne hl] at hs
    exact (h slot e' hs).update last e

/-- A table whose entries have different labels below its size has a free slot. -/
theorem exists_free {bound : Nat} (label : E → Nat) (hb : bound < n)
    (hl : ∀ slot e, table slot = some e → label e < bound)
    (hi : ∀ slot e slot' e', table slot = some e → table slot' = some e' → label e = label e' → slot = slot') :
    ∃ slot, table slot = none := by
  by_contra hf
  have hu : ∀ slot, ∃ e, table slot = some e := fun slot =>
    Option.ne_none_iff_exists'.mp fun hn => hf ⟨slot,hn⟩
  choose entry he using hu
  have hc := Fintype.card_le_of_injective (fun slot => (⟨label (entry slot),hl slot _ (he slot)⟩ : Fin bound))
    fun slot slot' h => hi slot _ slot' _ (he slot) (he slot') (Fin.mk.inj h)
  rw [Fintype.card_fin,Fintype.card_fin] at hc
  omega

end Update
end HetuCore.Foundation.OpenAddressing
