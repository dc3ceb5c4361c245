import HetuCore.Foundation.FirstAppearance

namespace HetuCore.Grouping
open Foundation List
variable {K : Type} [BEq K] [LawfulBEq K] {done keys : List K} {key : K}

/-- The key may come after these: if it is among them, it is the last. -/
def Follows (done : List K) (key : K) : Prop := key ∈ done → done.getLast? = some key

/-- Equal keys are adjacent. -/
def Adjacent (keys : List K) : Prop := ∀ before key after, keys = before ++ key :: after → Follows before key

/-- The last key is the one that appeared last. -/
def Latest (done : List K) : Prop := done.getLast? = done.eraseDups.getLast?

omit [BEq K] [LawfulBEq K] in
theorem Follows.notMem (h : Follows done key) (hne : done.getLast? ≠ some key) : key ∉ done := fun hm => hne (h hm)

omit [BEq K] [LawfulBEq K] in
theorem adjacent_of_nodup (h : keys.Nodup) : Adjacent keys := by
  rintro before key after rfl hm
  exact absurd mem_cons_self ((disjoint_of_nodup_append h) hm)

omit [LawfulBEq K] in
theorem latest_nil : Latest ([] : List K) := rfl

theorem Latest.concat (h : Latest done) (hf : Follows done key) : Latest (done ++ [key]) := by
  rw [Latest,eraseDups_concat,getLast?_concat]
  by_cases hm : key ∈ done
  · rw [absorb_of_mem (mem_eraseDups.mpr hm),← h,hf hm]
  · rw [absorb_of_notMem fun hin => hm (mem_eraseDups.mp hin),getLast?_concat]

theorem Latest.idxOf_eq (h : Latest done) (hl : done.getLast? = some key) :
    done.eraseDups.idxOf key = done.eraseDups.length - 1 := by
  rw [h,List.getLast?_eq_getElem?] at hl
  obtain ⟨hi,rfl⟩ := List.getElem?_eq_some_iff.mp hl
  exact (nodup_eraseDups done).idxOf_getElem _ hi

end HetuCore.Grouping
