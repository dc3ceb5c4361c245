import HetuCore.Snapshot.InputCut

namespace HetuCore.Snapshot
open Buffer Foundation SerializedPage CutState List
variable {ρ γ : Type}

theorem dataPages_append (pages more : List SerializedPage) :
    dataPages (pages ++ more) = dataPages pages ++ dataPages more := by
  simp [dataPages]

theorem markerIds_append (pages more : List SerializedPage) :
    markerIds (pages ++ more) = markerIds pages ++ markerIds more := by
  simp [markerIds]

variable {page : SerializedPage}

theorem dataPages_data (h : page.toMarker = none) : dataPages [page] = [page] := by
  simp [dataPages,isMarkerPage,h]

theorem markerIds_data (h : page.toMarker = none) : markerIds [page] = [] := by
  simp [markerIds,snapshotMarker,h]

theorem dataPages_marker {marker : MarkerPage} (h : page.toMarker = some marker) : dataPages [page] = [] := by
  simp [dataPages,isMarkerPage,h]

variable (I : SnapshotInputs ρ γ)

theorem SnapshotInputs.consumed_append (start : ρ) (pages more : List SerializedPage) :
    I.consumed start (pages ++ more) = I.consumed (I.consumed start pages) more :=
  foldl_append

/-- The snapshot being resumed until all channels have sent the resume marker. -/
def resuming (origin : Option Int) (resumed : Finset String) : List (SnapshotState γ) :=
  match origin with
  | none => []
  | some id => if resumed = I.channels then [] else [⟨id,true,resumed,[]⟩]

/-- The cut's marker was released after exactly the base and the data taken before the cut. -/
def ReleasedAt (base released : List SerializedPage) (x : Cut String SerializedPage) : Prop :=
  ∃ earlier page later, released = earlier ++ page :: later ∧ snapshotMarker page = some x.id ∧
    dataPages earlier = base ++ x.taken.map Prod.snd

theorem ReleasedAt.append {base released : List SerializedPage} {x : Cut String SerializedPage}
    (h : ReleasedAt base released x) (more : List SerializedPage) : ReleasedAt base (released ++ more) x := by
  obtain ⟨earlier,page,later,rfl,hm,ht⟩ := h
  exact ⟨earlier,page,later ++ more,by simp,hm,ht⟩

namespace InputHistory

/-- The history follows the cuts: the component started with the base still to consume, and
the waiting pages are taken but not released. -/
structure Sim (I : SnapshotInputs ρ γ) (origin : Option Int) (start : ρ) (base waiting : List SerializedPage)
    (h : InputHistory ρ γ) (s : CutState String SerializedPage) : Prop where
  tracks : h.state.Tracks I start base (resuming I origin h.resumed) s
  consistent : s.Consistent I.channels
  log : s.log = h.received
  pending : h.state.pendingPages = waiting.map .input
  pages : dataPages h.released ++ waiting = base ++ (ChannelLog.data h.received).map Prod.snd
  restorable : h.restorable = I.consumed start (dataPages h.released)
  announced : markerIds h.released = s.announced
  cutAt : ∀ x ∈ s.opened ++ s.completed, ReleasedAt base h.released x
  waitingData : ∀ page ∈ waiting, page.toMarker = none
  receivedData : ∀ channel page, (channel,.data page) ∈ h.received → page.toMarker = none
  resumedWithin : h.resumed ⊆ I.channels
  afterResume : origin.isSome → ∀ e ∈ h.received, e.1 ∈ h.resumed

variable {I : SnapshotInputs ρ γ} {origin : Option Int} {start : ρ} {base waiting : List SerializedPage}
  {h : InputHistory ρ γ} {s : CutState String SerializedPage} {channel : String} {page : SerializedPage}

theorem Sim.release (hs : Sim I origin start base (page :: waiting) h s) : Sim I origin start base waiting
      (release I { h with state := { h.state with pendingPages := waiting.map .input } } page) s := by
  have hpg := hs.waitingData page (mem_cons_self ..)
  have hps : dataPages (h.released ++ [page]) = dataPages h.released ++ [page] := by
    rw [dataPages_append,dataPages_data hpg]
  refine ⟨⟨hs.tracks.states,hs.tracks.resuming,hs.tracks.stored,hs.tracks.failures⟩,hs.consistent,hs.log,rfl,?_,?_,?_,
    fun x hx => (hs.cutAt x hx).append [page],fun p hp => hs.waitingData p (mem_cons_of_mem _ hp),
    hs.receivedData,hs.resumedWithin,hs.afterResume⟩
  · change dataPages (h.released ++ [page]) ++ waiting = _
    rw [hps,append_assoc]
    exact hs.pages
  · change (if page.isMarkerPage then _ else _) = I.consumed start (dataPages (h.released ++ [page]))
    rw [hps,SnapshotInputs.consumed_append,← hs.restorable,isMarkerPage,hpg]
    rfl
  · change markerIds (h.released ++ [page]) = _
    rw [markerIds_append,markerIds_data hpg,append_nil]
    exact hs.announced

/-- A channel that sends data has sent its resume marker. -/
theorem mem_resuming (hr : origin.isSome → channel ∈ h.resumed) :
    ∀ snapshot ∈ (resuming I origin h.resumed : List (SnapshotState γ)), channel ∈ snapshot.markedChannels := by
  intro snapshot hs
  cases origin with
  | none => cases hs
  | some id =>
    rw [resuming] at hs
    split at hs
    · cases hs
    · rw [mem_singleton.mp hs]
      exact hr rfl

theorem Sim.silent (hs : Sim I origin start base waiting h s) (hr : origin.isSome → channel ∈ h.resumed)
    (hne : (resuming I origin h.resumed : List (SnapshotState γ)) ≠ []) :
    ∃ k ∈ I.channels, k ≠ channel ∧ ∀ j, (k,.marker j) ∉ s.log := by
  cases origin with
  | none => exact absurd rfl hne
  | some id =>
    rw [resuming] at hne
    split at hne
    · exact absurd rfl hne
    · rename_i hp
      obtain ⟨k,hk,hn⟩ := Finset.exists_of_ssubset (hs.resumedWithin.ssubset_of_ne hp)
      refine ⟨k,hk,?_,?_⟩
      · rintro rfl
        exact hn (hr rfl)
      · intro j hj
        rw [hs.log] at hj
        exact hn (hs.afterResume rfl _ hj)

theorem Sim.data (hs : Sim I origin start base [] h s) (hc : channel ∈ I.channels) (hpg : page.toMarker = none)
    (hr : origin.isSome → channel ∈ h.resumed) : Sim I origin start base [page]
      { h with
        state := { h.state.processInput channel page with pendingPages := [.input page] }
        received := h.received ++ [(channel,.data page)] } (s.receive I.channels (channel,.data page)) := by
  have ha : Admits I.channels s.log (channel,.data page) := ⟨hc,by simp⟩
  have ht := hs.tracks.processInput page (mem_resuming hr)
  refine ⟨⟨ht.states,ht.resuming,ht.stored,ht.failures⟩,hs.consistent.receive ha,?_,rfl,?_,
    hs.restorable,hs.announced,?_,by simpa using hpg,?_,hs.resumedWithin,?_⟩
  · rw [log_receive,hs.log]
  · rw [ChannelLog.data_append,map_append,← append_assoc,← hs.pages,append_nil]
    rfl
  · intro x hx
    obtain ⟨y,hy,hid,htk⟩ | ⟨-,hm,-⟩ := mem_receive hx
    · rw [ReleasedAt,hid,htk]
      exact hs.cutAt y hy
    · cases hm
  · intro k p hp
    obtain hp | hp := mem_append.mp hp
    · exact hs.receivedData k p hp
    · obtain ⟨-,rfl⟩ : k = channel ∧ p = page := by simpa using hp
      exact hpg
  · exact fun hsm => forall_mem_concat.mpr ⟨hs.afterResume hsm,hr hsm⟩

theorem Sim.marker (hs : Sim I origin start base [] h s) {id : Int} (hpa : page.toMarker = some ⟨id,false⟩)
    (ha : Admits I.channels s.log (channel,.marker id)) (hrs : origin.isSome → channel ∈ h.resumed)
    (replies : ManagerReplies γ) :
    ∃ m', h.state.processMarker I.toRestorable replies channel ⟨id,false⟩ h.restorable = .ok (s.knows id,m') ∧
      Sim I origin start base []
        { h with
          state := m'
          received := h.received ++ [(channel,.marker id)]
          released := h.released ++ if s.knows id then [] else [page] } (s.receive I.channels (channel,.marker id)) := by
  have hpg := hs.pages
  rw [append_nil] at hpg
  have hrt : h.restorable = I.consumed start (base ++ (ChannelLog.data s.log).map Prod.snd) := by
    rw [hs.log,← hpg]
    exact hs.restorable
  obtain ⟨m',hm',htr⟩ := hs.tracks.processMarker hs.consistent ha replies hrt (hs.silent hrs)
  have hi : markerIds [page] = [id] := by simp [markerIds,snapshotMarker,hpa]
  have hr : dataPages (h.released ++ if s.knows id then [] else [page]) = dataPages h.released := by
    rw [dataPages_append]
    split
    · exact append_nil _
    · rw [dataPages_marker hpa,append_nil]
  refine ⟨m',hm',htr,hs.consistent.receive ha,?_,?_,?_,?_,?_,?_,nofun,?_,hs.resumedWithin,?_⟩
  · rw [log_receive,hs.log]
  · rw [MultiInputSnapshotState.pendingPages_processMarker hm']
    exact hs.pending
  · rw [hr,ChannelLog.data_append,map_append,append_nil,hpg]
    exact (append_nil _).symm.trans (append_assoc ..)
  · rw [hr]
    exact hs.restorable
  · rw [markerIds_append,hs.announced,announced_receive]
    split
    · exact append_nil _
    · rw [hi]
  · intro x hx
    obtain ⟨y,hy,hid,ht⟩ | ⟨hn,hm,ht⟩ := mem_receive hx
    · rw [ReleasedAt,hid,ht]
      exact (hs.cutAt y hy).append _
    · obtain rfl : id = x.id := by simpa using hm
      refine ⟨h.released,page,[],by rw [hn]; rfl,by simp [snapshotMarker,hpa],?_⟩
      rw [ht,hs.log]
      exact hpg
  · intro k p hp
    exact hs.receivedData k p (by simpa using hp)
  · exact fun hsm => forall_mem_concat.mpr ⟨hs.afterResume hsm,hrs hsm⟩

end InputHistory
end HetuCore.Snapshot
