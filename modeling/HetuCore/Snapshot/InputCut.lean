import HetuCore.Snapshot.InputHistory

namespace HetuCore.Snapshot
open Buffer Foundation CutState List
variable {ρ γ : Type}

def capturedEntry : Except String γ → List (StateEntry γ)
  | .ok state => [.captured state]
  | .error _ => []

variable (I : SnapshotInputs ρ γ)

/-- What the capture gives at a cut: the component has consumed the base and the data taken
before the cut. -/
def captureAt (start : ρ) (base : List SerializedPage) (taken : List (String × SerializedPage)) : Except String γ :=
  I.capture (I.consumed start (base ++ taken.map Prod.snd))

/-- The snapshot in progress that stands for a cut. -/
def stateOf (start : ρ) (base : List SerializedPage) (x : Cut String SerializedPage) : SnapshotState γ :=
  ⟨x.id,false,x.marked,capturedEntry (captureAt I start base x.taken) ++ x.inputs.map fun e => .input e.2⟩

namespace MultiInputSnapshotState

/-- The snapshots in progress are one being resumed, if any, and one for each open cut. What
was stored is the state of a complete cut, and a capture that threw was reported. -/
structure Tracks (I : SnapshotInputs ρ γ) (start : ρ) (base : List SerializedPage) (front : List (SnapshotState γ))
    (s : CutState String SerializedPage) (m : MultiInputSnapshotState γ) : Prop where
  states : m.states = front ++ s.opened.map (stateOf I start base)
  resuming : ∀ snapshot ∈ front, snapshot.resuming = true
  stored : ∀ id states, .storeState id states ∈ m.calls →
    ∃ x ∈ s.completed, x.id = id ∧ states = (stateOf I start base x).states
  failures : ∀ x ∈ s.opened ++ s.completed, ∀ message, captureAt I start base x.taken = .error message →
    .failedToCapture x.id ∈ m.calls

variable {I : SnapshotInputs ρ γ} {start : ρ} {base : List SerializedPage} {front : List (SnapshotState γ)}
  {s : CutState String SerializedPage} {m : MultiInputSnapshotState γ} {c : String} {id : Int}

theorem isFor_stateOf (x : Cut String SerializedPage) :
    isFor ⟨id,false⟩ (stateOf I start base x) = decide (x.id = id) := by
  simp [isFor,stateOf]

theorem isFor_front {snapshot : SnapshotState γ} (h : snapshot.resuming = true) : isFor ⟨id,false⟩ snapshot = false := by
  simp [isFor,h]

theorem snapshotStateById_eq (h : Tracks I start base front s m) :
    m.snapshotStateById ⟨id,false⟩ = (s.opened.find? fun x => x.id = id).map (stateOf I start base) := by
  have hf : front.find? (isFor ⟨id,false⟩) = none := by
    rw [find?_eq_none]
    intro snapshot hs
    simp [isFor_front (h.resuming snapshot hs)]
  have hsm : isFor ⟨id,false⟩ ∘ stateOf I start base = fun x => decide (x.id = id) := by
    funext x
    exact isFor_stateOf x
  rw [snapshotStateById,h.states,find?_append,hf,Option.none_or,find?_map,hsm]

theorem isSome_snapshotStateById (h : Tracks I start base front s m) :
    (m.snapshotStateById ⟨id,false⟩).isSome = s.knows id := by
  rw [snapshotStateById_eq h,knows,Bool.eq_iff_iff]
  simp

variable {g : Cut String SerializedPage → Cut String SerializedPage}

section
variable (h : Tracks I start base front s m)
include h

theorem Tracks.map_states {f : SnapshotState γ → SnapshotState γ} (hf : ∀ snapshot ∈ front, f snapshot = snapshot)
    (hct : ∀ x, f (stateOf I start base x) = stateOf I start base (g x)) :
    m.states.map f = front ++ (s.opened.map g).map (stateOf I start base) := by
  have hc : f ∘ stateOf I start base = stateOf I start base ∘ g := by
    funext x
    exact hct x
  rw [h.states,map_append,map_map,map_map,hc]
  congr 1
  conv_rhs => rw [← map_id front]
  exact map_congr_left hf

theorem Tracks.failures_map (hg : ∀ x, (g x).id = x.id ∧ (g x).taken = x.taken) :
    ∀ x ∈ s.opened.map g ++ s.completed, ∀ message, captureAt I start base x.taken = .error message →
      .failedToCapture x.id ∈ m.calls := by
  intro x hx message hm
  obtain hx | hx := mem_append.mp hx
  · obtain ⟨y,hy,rfl⟩ := mem_map.mp hx
    obtain ⟨hid,ht⟩ := hg y
    rw [ht] at hm
    rw [hid]
    exact h.failures y (mem_append_left _ hy) message hm
  · exact h.failures x (mem_append_right _ hx) message hm

theorem Tracks.markChannel (c : String) (id : Int) :
    Tracks I start base front (s.mark c id) (m.markChannel ⟨id,false⟩ c) := by
  refine ⟨?_,h.resuming,h.stored,h.failures_map fun x => ⟨Cut.markBy_id ..,Cut.markBy_taken ..⟩⟩
  apply h.map_states
  · intro snapshot hs
    rw [isFor_front (h.resuming snapshot hs)]
    rfl
  · intro x
    rw [isFor_stateOf,Cut.markBy]
    by_cases hid : x.id = id
    · simp [hid,stateOf]
    · simp [hid]

theorem Tracks.processInput (page : SerializedPage) (hf : ∀ snapshot ∈ front, c ∈ snapshot.markedChannels) :
    Tracks I start base front (s.addData c page) (m.processInput c page) := by
  refine ⟨?_,h.resuming,h.stored,h.failures_map fun x => ⟨Cut.add_id ..,Cut.add_taken ..⟩⟩
  apply h.map_states
  · intro snapshot hs
    exact if_pos (hf snapshot hs)
  · intro x
    rw [Cut.add]
    by_cases hc : c ∈ x.marked
    · simp [hc,stateOf]
    · simp [hc,stateOf]

theorem Tracks.captureState (hn : s.knows id = false) : Tracks I start base front (s.announce id)
      (m.captureState I.toRestorable ⟨id,false⟩ (I.consumed start (base ++ (ChannelLog.data s.log).map Prod.snd))) := by
  have ha : s.announce id =
      { s with opened := s.opened ++ [⟨id,∅,ChannelLog.data s.log,[]⟩], announced := s.announced ++ [id] } := by
    rw [announce,hn]
    rfl
  rw [ha]
  change Tracks I start base front _ (match captureAt I start base (ChannelLog.data s.log) with | .ok _ => _ | .error _ => _)
  cases hc : captureAt I start base (ChannelLog.data s.log) with
  | ok state =>
    refine ⟨by simp [h.states,stateOf,hc,capturedEntry],h.resuming,h.stored,?_⟩
    intro x hx message hm
    simp only [append_assoc,mem_append,mem_singleton] at hx
    obtain hx | rfl | hx := hx
    · exact h.failures x (mem_append_left _ hx) message hm
    · cases hc.symm.trans hm
    · exact h.failures x (mem_append_right _ hx) message hm
  | error thrown =>
    refine ⟨by simp [h.states,stateOf,hc,capturedEntry],h.resuming,?_,?_⟩
    · intro i states hs
      exact h.stored i states (by simpa [call] using hs)
    · intro x hx message hm
      simp only [append_assoc,mem_append,mem_singleton] at hx
      obtain hx | rfl | hx := hx
      · exact mem_append_left _ (h.failures x (mem_append_left _ hx) message hm)
      · exact mem_concat_self
      · exact mem_append_left _ (h.failures x (mem_append_right _ hx) message hm)

end

/-- A complete snapshot is stored, or reported as failed, and leaves with those before it. -/
theorem Tracks.complete (h : Tracks I start base [] s m) (replies : ManagerReplies γ) {x : Cut String SerializedPage}
    (hx : s.opened.find? (fun x => x.id = id) = some x) (hmr : x.marked = I.channels) :
    Tracks I start base [] (s.complete I.channels id) (m.complete replies ⟨id,false⟩) := by
  have hst : m.states = s.opened.map (stateOf I start base) := by simpa using h.states
  have hi : m.states.findIdx (isFor ⟨id,false⟩) = s.opened.findIdx fun x => x.id = id := by
    rw [hst,findIdx_map]
    congr 1
    funext x
    exact isFor_stateOf x
  have hid : x.id = id := by simpa using find?_some hx
  rw [CutState.complete,hx]
  simp only [hmr,if_true]
  rw [MultiInputSnapshotState.complete,hi,snapshotStateById_eq h,hx]
  refine ⟨?_,h.resuming,?_,?_⟩
  · rw [hst,nil_append,map_drop]
  · intro i states hs
    simp only [mem_append,mem_map] at hs
    obtain (hs | hs) | ⟨y,-,hy⟩ := hs
    · obtain ⟨y,hy,hsr⟩ := h.stored i states hs
      exact ⟨y,mem_append_left _ hy,hsr⟩
    · split at hs
      · obtain ⟨rfl,rfl⟩ : i = id ∧ states = (stateOf I start base x).states := by simpa using hs
        exact ⟨x,mem_concat_self,hid,rfl⟩
      · simp at hs
    · split at hy
      · cases hy
      · cases hy
  · intro y hy message hm
    refine mem_append_left _ (mem_append_left _ (h.failures y ?_ message hm))
    simp only [mem_append,mem_singleton] at hy ⊢
    obtain hy | hy | rfl := hy
    · exact .inl (mem_of_mem_drop hy)
    · exact .inr hy
    · exact .inl (mem_of_find?_eq_some hx)

theorem allMarked_eq {marker : MarkerPage} (snapshot : SnapshotState γ) (hf : m.snapshotStateById marker = some snapshot)
    (hs : snapshot.markedChannels ⊆ I.channels) (restorable : ρ) :
    m.allMarked I.toRestorable restorable marker = .ok (decide (snapshot.markedChannels = I.channels)) := by
  have hc : (I.channels.card = snapshot.markedChannels.card) ↔ snapshot.markedChannels = I.channels := by
    constructor
    · exact fun hc => Finset.eq_of_subset_of_card_le hs hc.le
    · exact fun heq => heq ▸ rfl
  have hch : I.toRestorable.getInputChannels restorable = some I.channels := rfl
  rw [allMarked,hf,hch]
  simp only [not_not.mpr hs,hc]
  rfl

theorem Tracks.markCaptured (h : Tracks I start base front s m) (replies : ManagerReplies γ) (restorable : ρ)
    (hm : ∀ x ∈ (s.mark c id).opened, x.marked ⊆ I.channels)
    (hl : ∀ x ∈ (s.mark c id).opened, x.marked = I.channels → front = []) (hk : s.knows id = true) :
    ∃ m', m.markCaptured I.toRestorable replies c ⟨id,false⟩ restorable = .ok m' ∧
      Tracks I start base front ((s.mark c id).complete I.channels id) m' := by
  have ht := h.markChannel c id
  obtain ⟨x,hf⟩ : ∃ x, (s.mark c id).opened.find? (fun x => x.id = id) = some x := by
    rw [← Option.isSome_iff_exists,find?_isSome]
    obtain ⟨y,hy,hid⟩ : ∃ y ∈ s.opened, y.id = id := by simpa [knows] using hk
    exact ⟨y.markBy c id,mem_map_of_mem hy,by simpa using hid⟩
  have hx := mem_of_find?_eq_some hf
  have ha : (m.markChannel ⟨id,false⟩ c).allMarked I.toRestorable restorable ⟨id,false⟩ =
      .ok (decide (x.marked = I.channels)) := by
    refine allMarked_eq (stateOf I start base x) ?_ (hm x hx) restorable
    rw [snapshotStateById_eq ht,hf]
    rfl
  rw [MultiInputSnapshotState.markCaptured]
  simp only [ha]
  by_cases hc : x.marked = I.channels
  · obtain rfl := hl x hx hc
    exact ⟨_,if_pos (decide_eq_true hc),ht.complete replies hf hc⟩
  · refine ⟨_,if_neg (by simpa using hc),?_⟩
    rw [CutState.complete,hf]
    simp only [hc]
    exact ht

theorem Tracks.unmarked (h : Tracks I start base front (s.announce id) m) (hs : s.Consistent I.channels)
    (ha : Admits I.channels s.log (c,.marker id)) :
    (m.snapshotStateById ⟨id,false⟩).any (c ∈ ·.markedChannels) = false := by
  have ho {x : Cut String SerializedPage} (hx : x ∈ s.opened) (hid : x.id = id) : c ∉ x.marked := by
    intro hc
    have hlt := ha.2 id rfl id (hid ▸ (hs.marked x hx c).mp hc)
    exact absurd hlt (lt_irrefl _)
  rw [snapshotStateById_eq h]
  cases hf : (s.announce id).opened.find? fun x => x.id = id with
  | none => rfl
  | some x =>
    have hx := mem_of_find?_eq_some hf
    have hid : x.id = id := by simpa using find?_some hf
    simp only [Option.map_some,Option.any_some,decide_eq_false_iff_not]
    rw [announce] at hx
    split at hx
    · exact ho hx hid
    · obtain hx | hx := mem_append.mp hx
      · exact ho hx hid
      · rw [mem_singleton.mp hx]
        exact Finset.notMem_empty _

/-- A marker moves the snapshots in progress as it moves the open cuts. It is passed on if it
is the first of its snapshot. -/
theorem Tracks.processMarker (h : Tracks I start base front s m) (hs : s.Consistent I.channels)
    (ha : Admits I.channels s.log (c,.marker id)) (replies : ManagerReplies γ) {restorable : ρ}
    (hr : restorable = I.consumed start (base ++ (ChannelLog.data s.log).map Prod.snd))
    (hf : front ≠ [] → ∃ k ∈ I.channels, k ≠ c ∧ ∀ j, (k,.marker j) ∉ s.log) :
    ∃ m', m.processMarker I.toRestorable replies c ⟨id,false⟩ restorable = .ok (s.knows id,m') ∧
      Tracks I start base front (s.receive I.channels (c,.marker id)) m' := by
  obtain ⟨m₁,hm₁,ht⟩ : ∃ m₁, (if s.knows id then m else m.captureState I.toRestorable ⟨id,false⟩ restorable) = m₁ ∧
      Tracks I start base front (s.announce id) m₁ := by
    cases hkn : s.knows id with
    | true =>
      refine ⟨m,rfl,?_⟩
      rw [announce,hkn]
      exact h
    | false =>
      rw [hr]
      exact ⟨_,rfl,h.captureState hkn⟩
  have hm := hs.mark ha
  have hkn : (s.announce id).knows id = true := by
    rw [announce]
    split
    · assumption
    · simp [knows]
  have hsb {x : Cut String SerializedPage} (hx : x ∈ ((s.announce id).mark c id).opened) : x.marked ⊆ I.channels :=
    fun k hk => hm.within _ ((hm.marked x hx k).mp hk)
  have hl {x : Cut String SerializedPage} (hx : x ∈ ((s.announce id).mark c id).opened)
      (hal : x.marked = I.channels) : front = [] := by
    by_contra hne
    obtain ⟨k,hk,hkc,hn⟩ := hf hne
    have hsn := (hm.marked x hx k).mp (hal ▸ hk)
    rw [log_mark] at hsn
    obtain hsn | hsn := mem_append.mp hsn
    · exact hn _ hsn
    · exact hkc (Prod.mk.inj (mem_singleton.mp hsn)).1
  obtain ⟨m',hm',ht'⟩ := ht.markCaptured replies restorable (fun _ => hsb) (fun _ => hl) hkn
  refine ⟨m',?_,ht'⟩
  rw [MultiInputSnapshotState.processMarker,isSome_snapshotStateById h]
  simp only [hm₁]
  rw [markOnce,ht.unmarked hs ha,hm']
  rfl

end MultiInputSnapshotState
end HetuCore.Snapshot
