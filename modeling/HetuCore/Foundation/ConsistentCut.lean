import HetuCore.Foundation.ChannelLog
import HetuCore.Foundation.Machine
import Mathlib.Data.Finset.Card

/-! Consistent cuts of several channels by markers. A cut opens with the first marker of
its number; data of channels whose marker has not come is added to it; it is complete when
all channels have sent the marker, and then the cuts opened before it are given up. -/
namespace HetuCore.Foundation
open ChannelLog List
variable {κ δ : Type} [DecidableEq κ]

/-- A cut: the channels that have sent its marker, the data taken before it opened, and the
data that came in since from channels that had not sent the marker. -/
structure Cut (κ δ : Type) where
  id : Int
  marked : Finset κ
  taken : List (κ × δ)
  inputs : List (κ × δ)

namespace Cut

def add (c : κ) (d : δ) (x : Cut κ δ) : Cut κ δ :=
  if c ∈ x.marked then x else { x with inputs := x.inputs ++ [(c,d)] }

def markBy (c : κ) (id : Int) (x : Cut κ δ) : Cut κ δ :=
  if x.id = id then { x with marked := insert c x.marked } else x

variable (c : κ) (d : δ) (j : Int) (x : Cut κ δ)

@[simp] theorem add_id : (x.add c d).id = x.id := by
  rw [add]
  split
  · rfl
  · rfl

@[simp] theorem add_marked : (x.add c d).marked = x.marked := by
  rw [add]
  split
  · rfl
  · rfl

@[simp] theorem add_taken : (x.add c d).taken = x.taken := by
  rw [add]
  split
  · rfl
  · rfl

@[simp] theorem markBy_id : (x.markBy c j).id = x.id := by
  rw [markBy]
  split
  · rfl
  · rfl

@[simp] theorem markBy_taken : (x.markBy c j).taken = x.taken := by
  rw [markBy]
  split
  · rfl
  · rfl

@[simp] theorem markBy_inputs : (x.markBy c j).inputs = x.inputs := by
  rw [markBy]
  split
  · rfl
  · rfl

theorem mem_markBy {k : κ} : k ∈ (x.markBy c j).marked ↔ k ∈ x.marked ∨ k = c ∧ x.id = j := by
  rw [markBy]
  split
  · rename_i h
    simp [h,or_comm]
  · rename_i h
    simp [h]

end Cut

structure CutState (κ δ : Type) where
  log : ChannelLog κ δ
  opened : List (Cut κ δ)
  completed : List (Cut κ δ)
  announced : List Int

namespace CutState

def init : CutState κ δ := ⟨[],[],[],[]⟩

variable (s : CutState κ δ)

def knows (id : Int) : Bool := s.opened.any fun x => x.id = id

def addData (c : κ) (d : δ) : CutState κ δ :=
  { s with log := s.log ++ [(c,.data d)], opened := s.opened.map (Cut.add c d) }

def announce (id : Int) : CutState κ δ :=
  if s.knows id then s
  else { s with opened := s.opened ++ [⟨id,∅,data s.log,[]⟩], announced := s.announced ++ [id] }

def mark (c : κ) (id : Int) : CutState κ δ :=
  { s with log := s.log ++ [(c,.marker id)], opened := s.opened.map (Cut.markBy c id) }

variable (channels : Finset κ)

def complete (s : CutState κ δ) (id : Int) : CutState κ δ :=
  match s.opened.find? fun x => x.id = id with
  | some x =>
    if x.marked = channels then
      { s with opened := s.opened.drop (s.opened.findIdx (fun x => x.id = id) + 1), completed := s.completed ++ [x] }
    else s
  | none => s

def receive (s : CutState κ δ) : κ × Event δ → CutState κ δ
  | (c,.data d) => s.addData c d
  | (c,.marker id) => ((s.announce id).mark c id).complete channels id

variable (log : ChannelLog κ δ)

/-- What may come next: an event of a known channel, whose markers increase. -/
def Admits (e : κ × Event δ) : Prop :=
  e.1 ∈ channels ∧ ∀ id, e.2 = .marker id → ∀ j, (e.1,.marker j) ∈ log → j < id

/-- The cut opened at its first marker, with the data that came before. -/
def OpenedAt (x : Cut κ δ) : Prop :=
  ∃ earlier c later, log = earlier ++ (c,.marker x.id) :: later ∧ (∀ k, (k,.marker x.id) ∉ earlier) ∧
    x.taken = data earlier

structure Consistent (channels : Finset κ) (s : CutState κ δ) : Prop where
  within : ∀ e ∈ s.log, e.1 ∈ channels
  openedAt : ∀ x ∈ s.opened ++ s.completed, OpenedAt s.log x
  covers : ∀ x ∈ s.opened ++ s.completed, ∀ c, Covers x.id c (x.taken ++ x.inputs) s.log
  marked : ∀ x ∈ s.opened, ∀ c, c ∈ x.marked ↔ (c,.marker x.id) ∈ s.log
  completed : ∀ x ∈ s.completed, ∀ c ∈ channels, (c,.marker x.id) ∈ s.log
  nodup : (s.opened.map Cut.id).Nodup
  order : s.opened.Pairwise fun x y => y.id < x.id → ∃ c ∈ x.marked, c ∉ y.marked
  settled : ∀ c id, (c,.marker id) ∈ s.log → (∀ x ∈ s.opened, x.id ≠ id) →
    ∀ k ∈ channels, ∃ j, id ≤ j ∧ (k,.marker j) ∈ s.log
  announced : s.announced.Nodup ∧ ∀ id, id ∈ s.announced ↔ ∃ c, (c,.marker id) ∈ s.log

variable {channels : Finset κ} {s : CutState κ δ} {c : κ} {d : δ} {id : Int}

theorem Consistent.init : Consistent channels (CutState.init : CutState κ δ) := by
  refine ⟨?_,?_,?_,?_,?_,nodup_nil,.nil,?_,nodup_nil,?_⟩
  all_goals simp [CutState.init]

variable {x : Cut κ δ}

omit [DecidableEq κ] in
theorem OpenedAt.append {log : ChannelLog κ δ} (h : OpenedAt log x) (more : ChannelLog κ δ) :
    OpenedAt (log ++ more) x := by
  obtain ⟨earlier,k,later,rfl,hf,ht⟩ := h
  exact ⟨earlier,k,later ++ more,by simp,hf,ht⟩

/-- A marker that no open cut has, from a channel that may send it, is the first of its number. -/
theorem Consistent.first (h : Consistent channels s) (ha : Admits channels s.log (c,.marker id))
    (hn : ∀ x ∈ s.opened, x.id ≠ id) (k : κ) : (k,.marker id) ∉ s.log := by
  intro hm
  obtain ⟨j,hle,hj⟩ := h.settled k id hm hn c ha.1
  have hlt := ha.2 id rfl j hj
  omega

theorem Consistent.addData (h : Consistent channels s) (ha : Admits channels s.log (c,.data d)) :
    Consistent channels (s.addData c d) := by
  have hlg {k : κ} {j : Int} : (k,.marker j) ∈ s.log ++ [(c,.data d)] ↔ (k,.marker j) ∈ s.log := by simp
  refine ⟨?_,?_,?_,?_,?_,?_,?_,?_,?_⟩
  · exact forall_mem_concat.mpr ⟨h.within,ha.1⟩
  · intro x hx
    obtain hx | hx := mem_append.mp hx
    · obtain ⟨y,hy,rfl⟩ := mem_map.mp hx
      obtain ⟨earlier,k,later,hs,hf,ht⟩ := (h.openedAt y (mem_append_left _ hy)).append [(c,.data d)]
      exact ⟨earlier,k,later,by rw [Cut.add_id]; exact hs,by simpa using hf,by simpa using ht⟩
    · exact (h.openedAt x (mem_append_right _ hx)).append _
  · intro x hx k
    obtain hx | hx := mem_append.mp hx
    · obtain ⟨y,hy,rfl⟩ := mem_map.mp hx
      have hcv := h.covers y (mem_append_left _ hy) k
      by_cases hc : c ∈ y.marked
      · rw [Cut.add,if_pos hc]
        refine hcv.other _ ?_
        by_cases hk : c = k
        · exact .inr (.inl (hk ▸ (h.marked y hy c).mp hc))
        · exact .inl hk
      · rw [Cut.add,if_neg hc]
        have hop : (c,.marker y.id) ∉ s.log := fun hm => hc ((h.marked y hy c).mpr hm)
        rw [← append_assoc]
        by_cases hk : c = k
        · exact hcv.data_open (hk ▸ hop) c d hk
        · have ho := hcv.other (c,.data d) (.inl hk)
          refine Eq.trans ?_ ho
          rw [ofChannel_append]
          simp [ofChannel,hk]
    · refine (h.covers x (mem_append_right _ hx) k).other _ ?_
      by_cases hk : c = k
      · exact .inr (.inl (h.completed x hx k (hk ▸ ha.1)))
      · exact .inl hk
  · intro x hx k
    obtain ⟨y,hy,rfl⟩ := mem_map.mp hx
    rw [Cut.add_marked,Cut.add_id]
    exact (h.marked y hy k).trans hlg.symm
  · exact fun x hx k hk => hlg.mpr (h.completed x hx k hk)
  · have hid : (s.addData c d).opened.map Cut.id = s.opened.map Cut.id := by
      simp [CutState.addData]
    rw [hid]
    exact h.nodup
  · refine pairwise_map.mpr (h.order.imp ?_)
    intro x y hxy
    simpa using hxy
  · intro k j hk hn i hi
    obtain ⟨l,hle,hl⟩ := h.settled k j (hlg.mp hk) (fun x hx => by simpa using hn _ (mem_map_of_mem hx)) i hi
    exact ⟨l,hle,hlg.mpr hl⟩
  · refine ⟨h.announced.1,fun j => (h.announced.2 j).trans ?_⟩
    simp [CutState.addData]

theorem mem_mark : x ∈ ((s.announce id).mark c id).opened ↔
    (∃ y ∈ s.opened, x = y.markBy c id) ∨ (∀ y ∈ s.opened, y.id ≠ id) ∧ x = ⟨id,{c},data s.log,[]⟩ := by
  rw [announce]
  split
  · rename_i hk
    have hs : ∃ y ∈ s.opened, y.id = id := by simpa [knows] using hk
    simp only [mark,mem_map]
    constructor
    · rintro ⟨y,hy,rfl⟩
      exact .inl ⟨y,hy,rfl⟩
    · rintro (⟨y,hy,rfl⟩ | ⟨hn,-⟩)
      · exact ⟨y,hy,rfl⟩
      · obtain ⟨y,hy,hid⟩ := hs
        exact absurd hid (hn y hy)
  · rename_i hu
    have hn : ∀ y ∈ s.opened, y.id ≠ id := by simpa [knows] using hu
    simp only [mark,map_append,mem_append,mem_map,map_cons,map_nil,mem_singleton]
    constructor
    · rintro (⟨y,hy,rfl⟩ | rfl)
      · exact .inl ⟨y,hy,rfl⟩
      · exact .inr ⟨hn,by simp [Cut.markBy]⟩
    · rintro (⟨y,hy,rfl⟩ | ⟨-,rfl⟩)
      · exact .inl ⟨y,hy,rfl⟩
      · exact .inr (by simp [Cut.markBy])

theorem log_mark : ((s.announce id).mark c id).log = s.log ++ [(c,.marker id)] := by
  rw [announce]
  split
  · rfl
  · rfl

theorem completed_mark : ((s.announce id).mark c id).completed = s.completed := by
  rw [announce]
  split
  · rfl
  · rfl

section
variable (h : Consistent channels s)
include h

theorem Consistent.exists_marker (hx : x ∈ s.opened) : ∃ k, (k,.marker x.id) ∈ s.log := by
  obtain ⟨earlier,k,later,hs,-⟩ := h.openedAt x (mem_append_left _ hx)
  exact ⟨k,by simp [hs]⟩

theorem Consistent.order_mark (ha : Admits channels s.log (c,.marker id)) :
    ((s.announce id).mark c id).opened.Pairwise fun x y => y.id < x.id → ∃ k ∈ x.marked, k ∉ y.marked := by
  have hb {x : Cut κ δ} (hx : x ∈ s.opened) (hc : c ∈ x.marked) : x.id < id :=
    ha.2 id rfl x.id ((h.marked x hx c).mp hc)
  have ho : (s.opened.map (Cut.markBy c id)).Pairwise fun x y => y.id < x.id → ∃ k ∈ x.marked, k ∉ y.marked := by
    refine pairwise_map.mpr (h.order.imp_of_mem ?_)
    intro x y hx hy hxy hlt
    rw [Cut.markBy_id,Cut.markBy_id] at hlt
    obtain ⟨k,hk,hn⟩ := hxy hlt
    refine ⟨k,(Cut.mem_markBy ..).mpr (.inl hk),?_⟩
    rw [Cut.mem_markBy]
    rintro (hin | ⟨rfl,hid⟩)
    · exact hn hin
    · have hl := hb hx hk
      omega
  rw [announce]
  split
  · exact ho
  · simp only [mark,map_append]
    refine pairwise_append.mpr ⟨ho,pairwise_singleton ..,?_⟩
    intro x hx y hy hlt
    obtain ⟨z,hz,rfl⟩ := mem_map.mp hx
    obtain rfl : y = ⟨id,{c},data s.log,[]⟩ := by simpa [Cut.markBy] using hy
    rw [Cut.markBy_id] at hlt
    obtain ⟨k,hk⟩ := h.exists_marker hz
    have hm := (h.marked z hz k).mpr hk
    refine ⟨k,(Cut.mem_markBy ..).mpr (.inl hm),?_⟩
    intro hc
    have hl := hb hz (Finset.mem_singleton.mp hc ▸ hm)
    have hlt : id < z.id := hlt
    omega

theorem Consistent.nodup_mark : (((s.announce id).mark c id).opened.map Cut.id).Nodup := by
  have hi (opened : List (Cut κ δ)) : (opened.map (.markBy c id)).map Cut.id = opened.map Cut.id := by
    simp [Function.comp_def]
  rw [announce]
  split
  · simp only [mark,hi]
    exact h.nodup
  · rename_i hu
    have hn : ∀ y ∈ s.opened, y.id ≠ id := by simpa [knows] using hu
    simp only [mark,hi,map_append]
    refine h.nodup.append (nodup_singleton _) (disjoint_singleton.mpr ?_)
    intro hm
    obtain ⟨y,hy,hid⟩ := mem_map.mp hm
    exact hn y hy hid

theorem Consistent.announced_mark (had : Admits channels s.log (c,.marker id)) :
    ((s.announce id).mark c id).announced.Nodup ∧ ∀ j, j ∈ ((s.announce id).mark c id).announced ↔
      ∃ k, (k,.marker j) ∈ s.log ++ [(c,.marker id)] := by
  obtain ⟨hn,ha⟩ := h.announced
  rw [announce]
  split
  · rename_i hkn
    obtain ⟨y,hy,hid⟩ : ∃ y ∈ s.opened, y.id = id := by simpa [knows] using hkn
    obtain ⟨k,hk⟩ := h.exists_marker hy
    refine ⟨hn,fun j => (ha j).trans ⟨?_,?_⟩⟩
    · rintro ⟨i,hi⟩
      exact ⟨i,mem_append_left _ hi⟩
    · rintro ⟨i,hi⟩
      obtain hi | hi := mem_append.mp hi
      · exact ⟨i,hi⟩
      · obtain ⟨-,rfl⟩ : i = c ∧ j = id := by simpa using hi
        exact ⟨k,hid ▸ hk⟩
  · rename_i hu
    have hnn : ∀ y ∈ s.opened, y.id ≠ id := by simpa [knows] using hu
    have hf := h.first had hnn
    have hnw : id ∉ s.announced := by
      rw [ha]
      rintro ⟨k,hk⟩
      exact hf k hk
    refine ⟨hn.append (nodup_singleton _) (disjoint_singleton.mpr hnw),fun j => ?_⟩
    simp only [mark,mem_append,mem_singleton,ha]
    constructor
    · rintro (⟨k,hk⟩ | rfl)
      · exact ⟨k,.inl hk⟩
      · exact ⟨c,.inr rfl⟩
    · rintro ⟨k,hk | hk⟩
      · exact .inl ⟨k,hk⟩
      · obtain ⟨-,rfl⟩ : k = c ∧ j = id := by simpa using hk
        exact .inr rfl

theorem Consistent.mark (ha : Admits channels s.log (c,.marker id)) :
    Consistent channels ((s.announce id).mark c id) := by
  have hm {e : κ × Event δ} (he : e ∈ s.log) : e ∈ s.log ++ [(c,.marker id)] := mem_append_left _ he
  refine ⟨?_,?_,?_,?_,?_,h.nodup_mark,h.order_mark ha,?_,?_⟩
  · rw [log_mark]
    exact forall_mem_concat.mpr ⟨h.within,ha.1⟩
  · rw [log_mark,completed_mark]
    intro x hx
    obtain hx | hx := mem_append.mp hx
    · obtain ⟨y,hy,rfl⟩ | ⟨hn,rfl⟩ := mem_mark.mp hx
      · obtain ⟨earlier,k,later,hs,hf,ht⟩ := (h.openedAt y (mem_append_left _ hy)).append [(c,.marker id)]
        exact ⟨earlier,k,later,by rw [Cut.markBy_id]; exact hs,by simpa using hf,by simpa using ht⟩
      · exact ⟨s.log,c,[],rfl,h.first ha hn,rfl⟩
    · exact (h.openedAt x (mem_append_right _ hx)).append _
  · rw [log_mark,completed_mark]
    intro x hx k
    obtain hx | hx := mem_append.mp hx
    · obtain ⟨y,hy,rfl⟩ | ⟨hn,rfl⟩ := mem_mark.mp hx
      · rw [Cut.markBy_id,Cut.markBy_taken,Cut.markBy_inputs]
        exact (h.covers y (mem_append_left _ hy) k).other _ (.inr (.inr ⟨id,rfl⟩))
      · have hnw : Covers id k (data s.log) s.log := by
          rw [Covers,← content_events,before_eq_content]
          rw [mem_events]
          exact h.first ha hn k
        rw [append_nil]
        exact hnw.other _ (.inr (.inr ⟨id,rfl⟩))
    · exact (h.covers x (mem_append_right _ hx) k).other _ (.inr (.inr ⟨id,rfl⟩))
  · rw [log_mark]
    intro x hx k
    obtain ⟨y,hy,rfl⟩ | ⟨hn,rfl⟩ := mem_mark.mp hx
    · rw [Cut.mem_markBy,h.marked y hy k]
      simp [eq_comm]
    · have hnt := h.first ha hn k
      simp [hnt]
  · rw [log_mark,completed_mark]
    exact fun x hx k hk => hm (h.completed x hx k hk)
  · rw [log_mark]
    intro k j hk hn i hi
    have hj : j ≠ id := by
      rintro rfl
      by_cases hkn : ∀ y ∈ s.opened, y.id ≠ j
      · exact hn _ (mem_mark.mpr (.inr ⟨hkn,rfl⟩)) rfl
      · push Not at hkn
        obtain ⟨y,hy,hid⟩ := hkn
        exact hn _ (mem_mark.mpr (.inl ⟨y,hy,rfl⟩)) (by simpa using hid)
    have hk : (k,.marker j) ∈ s.log := by simpa [hj] using hk
    obtain ⟨l,hle,hl⟩ := h.settled k j hk (fun y hy => by simpa using hn _ (mem_mark.mpr (.inl ⟨y,hy,rfl⟩))) i hi
    exact ⟨l,hle,hm hl⟩
  · rw [log_mark]
    exact h.announced_mark ha

end

omit [DecidableEq κ] in
private theorem findIdx_split {p : Cut κ δ → Bool} {front rest : List (Cut κ δ)} (hx : p x = true)
    (hf : ∀ y ∈ front, p y = false) : (front ++ x :: rest).findIdx p = front.length := by
  rw [findIdx_append,if_neg]
  · simp [findIdx_cons,hx]
  · rw [findIdx_lt_length]
    rintro ⟨y,hy,hp⟩
    rw [hf y hy] at hp
    cases hp

theorem Consistent.complete (h : Consistent channels s) : Consistent channels (s.complete channels id) := by
  rw [CutState.complete]
  split
  · rename_i x hfn
    split
    · rename_i ha
      obtain ⟨hid,front,rest,ho,hf⟩ := find?_eq_some_iff_append.mp hfn
      have hd : s.opened.drop (s.opened.findIdx (fun x => x.id = id) + 1) = rest := by
        rw [ho,findIdx_split hid (by simpa using hf)]
        simp
      rw [hd]
      have hr {y : Cut κ δ} (hy : y ∈ rest) : y ∈ s.opened := by simp [ho,hy]
      have hx : x ∈ s.opened := by simp [ho]
      have hsn {k : κ} (hk : k ∈ channels) : (k,.marker x.id) ∈ s.log := (h.marked x hx k).mp (ha ▸ hk)
      have hm {y : Cut κ δ} (hy : y ∈ rest ++ (s.completed ++ [x])) : y ∈ s.opened ++ s.completed := by
        simp only [mem_append,mem_singleton] at hy ⊢
        obtain hy | hy | rfl := hy
        · exact .inl (hr hy)
        · exact .inr hy
        · exact .inl hx
      have hs : (x :: rest).Sublist s.opened := ho ▸ sublist_append_right ..
      refine ⟨h.within,fun y hy => h.openedAt y (hm hy),fun y hy => h.covers y (hm hy),fun y hy => h.marked y (hr hy),
        ?_,?_,?_,?_,h.announced⟩
      · exact forall_mem_concat.mpr ⟨h.completed,fun _ => hsn⟩
      · exact (h.nodup.sublist (hs.map _)).of_cons
      · exact (h.order.sublist hs).of_cons
      · intro k j hk hn i hi
        by_cases hg : ∀ y ∈ s.opened, y.id ≠ j
        · exact h.settled k j hk hg i hi
        · push Not at hg
          obtain ⟨y,hy,rfl⟩ := hg
          refine ⟨x.id,?_,hsn hi⟩
          rw [ho] at hy
          obtain hy | hy := mem_append.mp hy
          · by_contra hlt
            have hor := h.order
            rw [ho] at hor
            obtain ⟨l,hl,hnt⟩ := (pairwise_append.mp hor).2.2 y hy x (mem_cons_self ..) (by omega)
            have hin : l ∈ channels := h.within _ ((h.marked y (by simp [ho,hy]) l).mp hl)
            exact hnt (ha ▸ hin)
          · obtain rfl | hy := mem_cons.mp hy
            · exact Int.le_refl _
            · exact absurd rfl (hn y hy)
    · exact h
  · exact h

variable {e : κ × Event δ}

theorem Consistent.receive (h : Consistent channels s) (ha : Admits channels s.log e) :
    Consistent channels (s.receive channels e) := by
  obtain ⟨c,d | id⟩ := e
  · exact h.addData ha
  · exact (h.mark ha).complete

theorem log_complete : (s.complete channels id).log = s.log := by
  rw [CutState.complete]
  split
  · split
    · rfl
    · rfl
  · rfl

theorem announced_complete : (s.complete channels id).announced = s.announced := by
  rw [CutState.complete]
  split
  · split
    · rfl
    · rfl
  · rfl

theorem mem_complete (hx : x ∈ (s.complete channels id).opened ++ (s.complete channels id).completed) :
    x ∈ s.opened ++ s.completed := by
  rw [CutState.complete] at hx
  split at hx
  · rename_i y hf
    split at hx
    · simp only [mem_append,mem_singleton] at hx ⊢
      obtain hx | hx | rfl := hx
      · exact .inl (mem_of_mem_drop hx)
      · exact .inr hx
      · exact .inl (mem_of_find?_eq_some hf)
    · exact hx
  · exact hx

theorem log_receive (e : κ × Event δ) : (s.receive channels e).log = s.log ++ [e] := by
  obtain ⟨c,d | id⟩ := e
  · rfl
  · exact log_complete.trans log_mark

theorem announced_receive : (s.receive channels (c,.marker id)).announced =
    if s.knows id then s.announced else s.announced ++ [id] := by
  refine announced_complete.trans ?_
  rw [announce]
  split
  · rfl
  · rfl

/-- The cuts after an event: those from before, or the one that the marker opened. -/
theorem mem_receive (hx : x ∈ (s.receive channels e).opened ++ (s.receive channels e).completed) :
    (∃ y ∈ s.opened ++ s.completed, x.id = y.id ∧ x.taken = y.taken) ∨
      s.knows x.id = false ∧ e.2 = .marker x.id ∧ x.taken = data s.log := by
  obtain ⟨c,d | id⟩ := e
  · obtain hx | hx := mem_append.mp hx
    · obtain ⟨y,hy,rfl⟩ := mem_map.mp hx
      exact .inl ⟨y,mem_append_left _ hy,Cut.add_id ..,Cut.add_taken ..⟩
    · exact .inl ⟨x,mem_append_right _ hx,rfl,rfl⟩
  · obtain hx | hx := mem_append.mp (mem_complete hx)
    · obtain ⟨y,hy,rfl⟩ | ⟨hn,rfl⟩ := mem_mark.mp hx
      · exact .inl ⟨y,mem_append_left _ hy,Cut.markBy_id ..,Cut.markBy_taken ..⟩
      · exact .inr ⟨by simpa [knows] using hn,rfl,rfl⟩
    · rw [completed_mark] at hx
      exact .inl ⟨x,mem_append_right _ hx,rfl,rfl⟩

end CutState
end HetuCore.Foundation
