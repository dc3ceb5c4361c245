import HetuCore.Foundation.KeyTable
import HetuCore.Foundation.Outcome
import HetuCore.Grouping.GroupByHash

namespace HetuCore.Grouping
open Foundation

section Capacity

variable {hashSize : Nat}

theorem calculateMaxFill_lt (h : 0 < hashSize) : calculateMaxFill hashSize < hashSize := by
  unfold calculateMaxFill
  dsimp only
  split <;> omega

theorem calculateMaxFill_double (h : 0 < hashSize) : calculateMaxFill hashSize < calculateMaxFill (hashSize * 2) := by
  unfold calculateMaxFill
  dsimp only
  split <;> split <;> omega

theorem le_calculateMaxFill (h : hashSize * 2 > 2147483647) : 805306368 ≤ calculateMaxFill hashSize := by
  unfold calculateMaxFill
  dsimp only
  split <;> omega

/-- A run throws only if the table would have more than a billion slots, with that many keys. -/
def SizeExceeded (keys : Nat) (message : String) : Prop := message = sizeExceeded ∧ 805306368 ≤ keys

theorem SizeExceeded.mono {m n : Nat} {message : String} (hle : m ≤ n) (h : SizeExceeded m message) :
    SizeExceeded n message := ⟨h.1,h.2.trans hle⟩

theorem reserveMemory_ends {bits count : Nat} {updateMemory : UpdateMemory} (h : calculateMaxFill (2 ^ bits) ≤ count) :
    Ends (SizeExceeded count) (fun out => out = (updateMemory 0,fun call => updateMemory (call + 1)))
      (reserveMemory bits updateMemory) := by
  rw [reserveMemory]
  split
  · exact ⟨rfl,(le_calculateMaxFill ‹_›).trans h⟩
  · exact rfl

end Capacity

section Rehash
variable {E K : Type} {n : Nat} {key : E → K} {home : K → Fin n} {table : Fin n → Option E} {entries : List E} {e : E}

theorem rehashEntry_stores (h : Stores key home table entries) (hl : entries.length < n)
    (hnw : ∀ e' ∈ entries, key e' ≠ key e) :
    ∃ table', rehashEntry (fun e => home (key e)) table e = .ok table' ∧ Stores key home table' (entries ++ [e]) := by
  have hn : ∀ e' ∈ entries, ¬ (fun _ : E => false) e' = true := fun _ _ => Bool.false_ne_true
  obtain ⟨slot,hp,hs,hr⟩ := h.probe_notMem hl (home (key e)) hn
  refine ⟨_,?_,h.insert hs hr hnw⟩
  rw [rehashEntry,hp]

end Rehash

end HetuCore.Grouping
