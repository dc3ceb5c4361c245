import Mathlib.Data.List.Nodup

/-! Maps that keep their entries in the order in which the keys were first inserted. -/
namespace HetuCore.Foundation

structure LinkedMap (κ ν : Type) where
  entries : List (κ × ν)
  nodup : (entries.map Prod.fst).Nodup

namespace LinkedMap
variable {κ ν : Type}

def empty : LinkedMap κ ν := ⟨[],List.nodup_nil⟩

def keys (m : LinkedMap κ ν) : List κ := m.entries.map Prod.fst

variable {m : LinkedMap κ ν} {k : κ}

@[simp] theorem keys_empty : (empty : LinkedMap κ ν).keys = [] := rfl

@[simp] theorem entries_empty : (empty : LinkedMap κ ν).entries = [] := rfl

theorem mem_keys : k ∈ m.keys ↔ ∃ v, (k,v) ∈ m.entries := by
  simp [keys]

private theorem nodup_append (m : LinkedMap κ ν) (h : k ∉ m.keys) (v : ν) :
    ((m.entries ++ [(k,v)]).map Prod.fst).Nodup := by
  rw [List.map_append]
  exact .append m.nodup (List.nodup_singleton k) (List.disjoint_singleton.mpr h)

variable [DecidableEq κ]

private theorem map_replace (entries : List (κ × ν)) (k : κ) (v : ν) :
    (entries.map fun e => if e.1 = k then (k,v) else e).map Prod.fst = entries.map Prod.fst := by
  rw [List.map_map]
  apply List.map_congr_left
  intro e _
  by_cases he : e.1 = k
  · simp [he]
  · simp [he]

def get (m : LinkedMap κ ν) (k : κ) : Option ν := (m.entries.find? fun e => e.1 = k).map Prod.snd

/-- A key that is present keeps its place. -/
def put (m : LinkedMap κ ν) (k : κ) (v : ν) : LinkedMap κ ν :=
  if h : k ∈ m.keys then
    ⟨m.entries.map fun e => if e.1 = k then (k,v) else e,by rw [map_replace]; exact m.nodup⟩
  else ⟨m.entries ++ [(k,v)],nodup_append m h v⟩

theorem keys_put (m : LinkedMap κ ν) (k : κ) (v : ν) :
    (m.put k v).keys = if k ∈ m.keys then m.keys else m.keys ++ [k] := by
  unfold put
  split
  · exact map_replace ..
  · simp [keys]

theorem entries_put_of_notMem (h : k ∉ m.keys) (v : ν) : (m.put k v).entries = m.entries ++ [(k,v)] := by
  rw [put,dif_neg h]

theorem mem_put {v : ν} {e : κ × ν} : e ∈ (m.put k v).entries ↔ e = (k,v) ∨ e ∈ m.entries ∧ e.1 ≠ k := by
  unfold put
  split
  · rename_i hk
    obtain ⟨w,hw⟩ := mem_keys.mp hk
    simp only [List.mem_map]
    constructor
    · rintro ⟨d,hd,rfl⟩
      by_cases hdk : d.1 = k
      · simp [hdk]
      · simp [hdk,hd]
    · rintro (rfl | ⟨he,hne⟩)
      · exact ⟨(k,w),hw,by simp⟩
      · exact ⟨e,he,by simp [hne]⟩
  · rename_i hk
    simp only [List.mem_append,List.mem_singleton]
    constructor
    · rintro (he | rfl)
      · refine .inr ⟨he,?_⟩
        rintro rfl
        exact hk (mem_keys.mpr ⟨e.2,he⟩)
      · exact .inl rfl
    · rintro (rfl | ⟨he,-⟩)
      · exact .inr rfl
      · exact .inl he

theorem get_eq_some {v : ν} : m.get k = some v ↔ (k,v) ∈ m.entries := by
  simp only [get,Option.map_eq_some_iff]
  constructor
  · rintro ⟨e,he,rfl⟩
    have hk : e.1 = k := by simpa using List.find?_some he
    exact hk ▸ List.mem_of_find?_eq_some he
  · intro hm
    cases hf : m.entries.find? fun e => e.1 = k with
    | none => exact absurd (List.find?_eq_none.mp hf _ hm) (by simp)
    | some e =>
      have hk : e.1 = k := by simpa using List.find?_some hf
      have heq := List.inj_on_of_nodup_map m.nodup (List.mem_of_find?_eq_some hf) hm hk
      exact ⟨e,rfl,by rw [heq]⟩

theorem get_put (m : LinkedMap κ ν) (k j : κ) (v : ν) : (m.put k v).get j = if j = k then some v else m.get j := by
  apply Option.ext
  intro w
  rw [get_eq_some,mem_put]
  by_cases hj : j = k
  · simp [hj,eq_comm]
  · simp [hj,get_eq_some]

theorem mem_keys_put {k j : κ} {v : ν} : j ∈ (m.put k v).keys ↔ j = k ∨ j ∈ m.keys := by
  rw [keys_put]
  split
  · rename_i hk
    constructor
    · exact .inr
    · rintro (rfl | h)
      · exact hk
      · exact h
  · simp [or_comm]

end LinkedMap
end HetuCore.Foundation
