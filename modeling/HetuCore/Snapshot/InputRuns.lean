import HetuCore.Snapshot.InputSimulation

namespace HetuCore.Snapshot
open Buffer Foundation MultiInputSnapshotState SerializedPage List
variable {ρ γ : Type}

namespace MultiInputSnapshotState
variable {I : SnapshotInputs ρ γ} {R : MultiInputRestorable ρ γ} {replies : ManagerReplies γ}
  {m m' : MultiInputSnapshotState γ} {restorable restorable' : ρ} {channel : String} {page : SerializedPage} {id : Int}

theorem markResumed_eq {resumed : Finset String} {cuts : List (SnapshotState γ)}
    (hst : m.states = ⟨id,true,resumed,[]⟩ :: cuts) (hct : ∀ snapshot ∈ cuts, snapshot.resuming = false)
    (hr : resumed ⊆ I.channels) (hch : channel ∈ I.channels) :
    m.markResumed I.toRestorable channel ⟨id,true⟩ restorable =
      .ok { m with states := resuming I (some id) (insert channel resumed) ++ cuts } := by
  have ho : cuts.map (fun snapshot => if isFor ⟨id,true⟩ snapshot then
      { snapshot with markedChannels := insert channel snapshot.markedChannels } else snapshot) = cuts := by
    conv_rhs => rw [← map_id cuts]
    apply map_congr_left
    intro snapshot hs
    have hn : isFor ⟨id,true⟩ snapshot = false := by simp [isFor,hct snapshot hs]
    rw [hn]
    rfl
  have hm : m.markChannel ⟨id,true⟩ channel = { m with states := ⟨id,true,insert channel resumed,[]⟩ :: cuts } := by
    rw [markChannel,hst,map_cons,ho]
    simp [isFor]
  have hsb : insert channel resumed ⊆ I.channels := Finset.insert_subset hch hr
  have ha : (m.markChannel ⟨id,true⟩ channel).allMarked I.toRestorable restorable ⟨id,true⟩ =
      .ok (decide (insert channel resumed = I.channels)) := by
    refine allMarked_eq ⟨id,true,insert channel resumed,[]⟩ ?_ hsb restorable
    rw [hm,snapshotStateById]
    simp [isFor]
  rw [markResumed]
  simp only [ha]
  rw [hm,resuming]
  by_cases hc : insert channel resumed = I.channels
  · rw [if_pos hc]
    refine (if_pos (decide_eq_true hc)).trans ((if_neg ?_).trans rfl)
    simp [isFor]
  · rw [if_neg hc]
    exact if_neg (by simpa using hc)

theorem resume_first {marker : MarkerPage} {started : MultiInputSnapshotState γ}
    (hn : m.snapshotStateById marker = none) (hs : m.startResume R replies marker restorable = (started,restorable'))
    (hm : started.markResumed R channel marker restorable' = .ok m') :
    m.resume R replies channel marker restorable = .ok (false,m',restorable') := by
  rw [resume,hn]
  simp only [Option.isSome_none,Bool.false_eq_true,if_false,hs,hm]
  rfl

theorem processNewPage_data (hp : page.toMarker = none) :
    m.processNewPage R replies (some channel) page restorable = .ok (false,m.processInput channel page,restorable) := by
  simp only [processNewPage,hp]
  rfl

theorem takePage_kept {markerOnly : Bool} (hp : page.toMarker = none) (hm : markerOnly = true) :
    m.takePage R replies markerOnly (some channel) page restorable =
      .ok (none,{ m.processInput channel page with pendingPages := [.input page] },restorable) := by
  rw [takePage,processNewPage_data hp,isMarkerPage,hp,hm]
  rfl

theorem takePage_passed {markerOnly : Bool} (hp : page.toMarker = none) (hm : markerOnly = false) :
    m.takePage R replies markerOnly (some channel) page restorable =
      .ok (some page,m.processInput channel page,restorable) := by
  rw [takePage,processNewPage_data hp,hm]
  rfl

theorem takePage_marker {marker : MarkerPage} {swallowed : Bool} (hp : page.toMarker = some marker)
    (hn : m.processNewPage R replies (some channel) page restorable = .ok (swallowed,m',restorable')) (markerOnly : Bool) :
    m.takePage R replies markerOnly (some channel) page restorable =
      .ok (if swallowed then none else some page,m',restorable') := by
  rw [takePage,hn,isMarkerPage,hp]
  cases swallowed with
  | true => rfl
  | false =>
    cases markerOnly with
    | true | false => rfl

end MultiInputSnapshotState

namespace InputHistory
variable {I : SnapshotInputs ρ γ} {replies : ManagerReplies γ} {origin : Option Int} {start : ρ}
  {base waiting : List SerializedPage} {h : InputHistory ρ γ} {s : CutState String SerializedPage} {channel : String}
  {page : SerializedPage} {poll : Poll} {id : Int}

theorem step_pending {rest : List (StateEntry γ)} (hp : h.state.pendingPages = .input page :: rest) :
    step I replies h poll = .ok (if poll.markerOnly then h else
      release I { h with state := { h.state with pendingPages := rest } } page) := by
  have hpl : h.state.pollPendingPage = .ok (some page,{ h.state with pendingPages := rest }) := by
    rw [pollPendingPage,hp]
    rfl
  rw [step,processPage,hpl,hp]
  cases poll.markerOnly with
  | true | false => rfl

theorem step_empty (hp : h.state.pendingPages = []) (hsl : poll.supplied = none) : step I replies h poll = .ok h := by
  have hpl : h.state.pollPendingPage = .ok (none,h.state) := by
    rw [pollPendingPage,hp]
    rfl
  rw [step,processPage,hpl,hp,hsl]
  cases poll.markerOnly with
  | true | false => rfl

variable {restorable : ρ}

theorem step_take (hp : h.state.pendingPages = []) (hsl : poll.supplied = some (channel,page))
    {released : Option SerializedPage} {state : MultiInputSnapshotState γ}
    (ht : h.state.takePage I.toRestorable replies poll.markerOnly (some channel) page h.restorable =
      .ok (released,state,restorable)) : step I replies h poll =
      .ok (released.elim (take { h with state := state, restorable := restorable } channel page)
        (release I (take { h with state := state, restorable := restorable } channel page))) := by
  have hpl : h.state.pollPendingPage = .ok (none,h.state) := by
    rw [pollPendingPage,hp]
    rfl
  have hpr : h.state.processPage I.toRestorable replies poll.markerOnly (some (some channel,page)) h.restorable =
      .ok (released,true,state,restorable) := by
    rw [processPage,hpl,hp]
    refine (if_neg (by simp)).trans ?_
    change (h.state.takePage I.toRestorable replies poll.markerOnly (some channel) page h.restorable >>= _) = _
    rw [ht]
    rfl
  rw [step,hsl,Option.map_some,hpr]
  rfl

theorem Sim.init (I : SnapshotInputs ρ γ) (start : ρ) : Sim I none start [] [] (new start) .init := by
  refine ⟨⟨rfl,?_,?_,?_⟩,.init,rfl,rfl,rfl,rfl,rfl,?_,?_,?_,Finset.empty_subset _,?_⟩
  all_goals simp [CutState.init,new,MultiInputSnapshotState.new,resuming]

section
variable (replies) (hch : channel ∈ I.channels)
include hch

theorem Sim.resume (hsm : Sim I (some id) start base [] h s) (hn : channel ∉ h.resumed) :
    ∃ m', h.state.resume I.toRestorable replies channel ⟨id,true⟩ h.restorable = .ok (true,m',h.restorable) ∧
      Sim I (some id) start base [] { h with state := m', resumed := insert channel h.resumed } s := by
  have hf : (resuming I (some id) h.resumed : List (SnapshotState γ)) = [⟨id,true,h.resumed,[]⟩] := by
    rw [resuming,if_neg]
    rintro ha
    exact hn (ha ▸ hch)
  have hst : h.state.states = ⟨id,true,h.resumed,[]⟩ :: s.opened.map (stateOf I start base) := by
    rw [hsm.tracks.states,hf]
    rfl
  have hc : ∀ snapshot ∈ s.opened.map (stateOf I start base), snapshot.resuming = false := by
    intro snapshot hs
    obtain ⟨x,-,rfl⟩ := mem_map.mp hs
    rfl
  have hfn : h.state.snapshotStateById ⟨id,true⟩ = some ⟨id,true,h.resumed,[]⟩ := by
    rw [snapshotStateById,hst]
    simp [isFor]
  let state : MultiInputSnapshotState γ :=
    { h.state with states := resuming I (some id) (insert channel h.resumed) ++ s.opened.map (stateOf I start base) }
  refine ⟨state,?_,⟨rfl,?_,hsm.tracks.stored,hsm.tracks.failures⟩,hsm.consistent,hsm.log,hsm.pending,hsm.pages,
    hsm.restorable,hsm.announced,hsm.cutAt,hsm.waitingData,hsm.receivedData,
    Finset.insert_subset hch hsm.resumedWithin,?_⟩
  · rw [MultiInputSnapshotState.resume,hfn]
    change (h.state.markResumed I.toRestorable channel ⟨id,true⟩ h.restorable >>= _) = _
    rw [markResumed_eq hst hc hsm.resumedWithin hch]
    rfl
  · intro snapshot hs
    rw [resuming] at hs
    split at hs
    · cases hs
    · rw [mem_singleton.mp hs]
  · intro hso e he
    exact Finset.mem_insert_of_mem (hsm.afterResume hso e he)

variable (hsl : poll.supplied = some (channel,page))
include hsl

/-- A data page joins the cuts; it is released, or kept if only markers are asked for. -/
theorem Sim.takeData (hs : Sim I origin start base [] h s) (hp : page.toMarker = none)
    (hr : origin.isSome → channel ∈ h.resumed) :
    ∃ h' waiting' s', step I replies h poll = .ok h' ∧ Sim I origin start base waiting' h' s' := by
  have hpr := hs.data hch hp hr
  have ht (state : MultiInputSnapshotState γ) : take { h with state := state } channel page =
      { h with state := state, received := h.received ++ [(channel,.data page)] } := by
    rw [take,hp]
  cases hm : poll.markerOnly with
  | true =>
    refine ⟨_,_,_,(step_take hs.pending hsl (takePage_kept hp hm)).trans ?_,hpr⟩
    exact congrArg Except.ok (ht _)
  | false =>
    refine ⟨_,_,_,(step_take hs.pending hsl (takePage_passed hp hm)).trans ?_,hpr.release⟩
    have hpn : ({ h.state.processInput channel page with pendingPages := [] } : MultiInputSnapshotState γ) =
        h.state.processInput channel page := by
      have hn : (h.state.processInput channel page).pendingPages = [] := hs.pending
      rw [← hn]
    refine congrArg Except.ok ((congrArg (fun h => InputHistory.release I h page) (ht _)).trans ?_)
    simp only [map_nil,hpn]

theorem Sim.takeMarker (hs : Sim I origin start base [] h s) (hp : page.toMarker = some ⟨id,false⟩)
    (hr : origin.isSome → channel ∈ h.resumed) (hi : ∀ j, (channel,.marker j) ∈ h.received → j < id) :
    ∃ h' waiting' s', step I replies h poll = .ok h' ∧ Sim I origin start base waiting' h' s' := by
  have ha : CutState.Admits I.channels s.log (channel,.marker id) := by
    refine ⟨hch,?_⟩
    intro j hj k hk
    cases hj
    rw [hs.log] at hk
    exact hi k hk
  obtain ⟨m',hm',hn⟩ := hs.marker hp ha hr replies
  have hnw : h.state.processNewPage I.toRestorable replies (some channel) page h.restorable =
      .ok (s.knows id,m',h.restorable) := by
    simp only [processNewPage,hp,hm']
    rfl
  refine ⟨_,_,_,(step_take hs.pending hsl (takePage_marker hp hnw _)).trans ?_,hn⟩
  rw [take,hp]
  cases s.knows id with
  | true => simp
  | false => simp [InputHistory.release,isMarkerPage,hp]

theorem Sim.takeResume (hs : Sim I (some id) start base [] h s) (hp : page.toMarker = some ⟨id,true⟩)
    (hnw : channel ∉ h.resumed) :
    ∃ h' waiting' s', step I replies h poll = .ok h' ∧ Sim I (some id) start base waiting' h' s' := by
  obtain ⟨m',hm',hn⟩ := hs.resume replies hch hnw
  have hpr : h.state.processNewPage I.toRestorable replies (some channel) page h.restorable =
      .ok (true,m',h.restorable) := by
    simp only [processNewPage,hp,hm']
    rfl
  refine ⟨_,_,_,(step_take hs.pending hsl (takePage_marker hp hpr _)).trans ?_,hn⟩
  rw [take,hp]
  rfl

end

theorem Sim.step (hs : Sim I origin start base waiting h s) (hst : Streams I origin h poll)
    (replies : ManagerReplies γ) :
    ∃ h' waiting' s', step I replies h poll = .ok h' ∧ Sim I origin start base waiting' h' s' := by
  cases waiting with
  | cons page waiting =>
    cases hmd : poll.markerOnly with
    | true =>
      refine ⟨h,page :: waiting,s,?_,hs⟩
      rw [step_pending hs.pending,hmd]
      rfl
    | false =>
      refine ⟨_,_,_,?_,hs.release⟩
      rw [step_pending hs.pending,hmd]
      rfl
  | nil =>
    cases hsl : poll.supplied with
    | none => exact ⟨h,[],s,step_empty hs.pending hsl,hs⟩
    | some input =>
      obtain ⟨channel,page⟩ := input
      obtain ⟨hch,hp⟩ := hst (channel,page) hsl
      cases hm : page.toMarker with
      | none =>
        rw [hm] at hp
        exact hs.takeData replies hch hsl hm hp
      | some marker =>
        rw [hm] at hp
        obtain ⟨id,isResuming⟩ := marker
        cases isResuming with
        | false => exact hs.takeMarker replies hch hsl hm hp.1 hp.2
        | true =>
          obtain ⟨rfl,hn⟩ := hp
          exact hs.takeResume replies hch hsl hm hn

/-- A fresh run follows the cuts from the start. -/
theorem run_fresh (I : SnapshotInputs ρ γ) (replies : ManagerReplies γ) (start : ρ) {polls : List Poll}
    (hs : (inputs I replies start).Along (Streams I none) polls) :
    ∃ h, (inputs I replies start).run polls = .ok h ∧ ∃ waiting s, Sim I none start [] waiting h s := by
  apply Machine.run_along_total _ _ hs
  · exact ⟨[],.init,.init I start⟩
  · rintro h poll ⟨waiting,s,hsm⟩ hp
    obtain ⟨h',waiting',s',hst,hs'⟩ := hsm.step hp replies
    exact ⟨h',hst,waiting',s',hs'⟩

/-- The first resume marker restores the component and leaves the stored pages to be released. -/
theorem Sim.restored {state : γ} (hl : replies.loadState id = .loaded (.captured state :: base.map .input))
    (hr : I.restore restorable state = .ok start) (hb : ∀ page ∈ base, page.toMarker = none)
    (hsl : poll.supplied = some (channel,page)) (hp : page.toMarker = some ⟨id,true⟩) (hch : channel ∈ I.channels) :
    ∃ h', InputHistory.step I replies (new restorable) poll = .ok h' ∧ Sim I (some id) start base base h' .init := by
  let started : MultiInputSnapshotState γ :=
    ⟨[⟨id,true,∅,[]⟩],base.map .input,[⟨id,true⟩],[.succeededToRestore id]⟩
  let resumed : MultiInputSnapshotState γ := { started with states := resuming I (some id) {channel} ++ [] }
  have hm : started.markResumed I.toRestorable channel ⟨id,true⟩ start = .ok resumed :=
    markResumed_eq rfl (fun _ hs => absurd hs not_mem_nil) (Finset.empty_subset _) hch
  have hst : MultiInputSnapshotState.new.startResume I.toRestorable replies ⟨id,true⟩ restorable = (started,start) := by
    have hr' : I.toRestorable.restore restorable state = .ok start := hr
    simp only [startResume,restoreState,hl,hr']
    rfl
  have hpr : MultiInputSnapshotState.new.processNewPage I.toRestorable replies (some channel) page restorable =
      .ok (false,resumed,start) := by
    simp only [processNewPage,hp]
    exact resume_first rfl hst hm
  let h' : InputHistory ρ γ := ⟨resumed,start,[],{channel},[page]⟩
  have hsp : InputHistory.step I replies (new restorable) poll = .ok h' := by
    refine (step_take rfl hsl (takePage_marker hp hpr _)).trans ?_
    rw [take]
    simp [InputHistory.release,isMarkerPage,hp,new,h']
  have hi : markerIds [page] = [] := by simp [markerIds,snapshotMarker,hp]
  refine ⟨h',hsp,⟨rfl,?_,?_,?_⟩,.init,rfl,rfl,?_,?_,hi,?_,hb,?_,Finset.singleton_subset_iff.mpr hch,?_⟩
  · intro snapshot hs
    rw [resuming] at hs
    split at hs
    · cases hs
    · rw [mem_singleton.mp hs]
  · simp [h',resumed,started]
  · simp [CutState.init]
  · rw [dataPages_marker hp]
    exact (append_nil _).symm
  · rw [dataPages_marker hp]
    rfl
  · simp [CutState.init]
  · simp [h']
  · simp [h']

/-- A resumed run waits for the first resume marker, then follows the cuts. -/
theorem run_resumed {state : γ} (hl : replies.loadState id = .loaded (.captured state :: base.map .input))
    (hr : I.restore restorable state = .ok start) (hb : ∀ page ∈ base, page.toMarker = none) {polls : List Poll}
    (hst : (inputs I replies restorable).Along (Streams I (some id)) polls) :
    ∃ h, (inputs I replies restorable).run polls = .ok h ∧
      (h = new restorable ∨ ∃ waiting s, Sim I (some id) start base waiting h s) := by
  apply Machine.run_along_total _ _ hst
  · exact .inl rfl
  · rintro h poll (rfl | ⟨waiting,s,hsm⟩) hpl
    · cases hsl : poll.supplied with
      | none => exact ⟨new restorable,step_empty rfl hsl,.inl rfl⟩
      | some input =>
        obtain ⟨channel,page⟩ := input
        obtain ⟨hch,hp⟩ := hpl (channel,page) hsl
        cases hm : page.toMarker with
        | none =>
          rw [hm] at hp
          exact absurd (hp rfl) (Finset.notMem_empty _)
        | some marker =>
          rw [hm] at hp
          obtain ⟨id,isResuming⟩ := marker
          cases isResuming with
          | false => exact absurd (hp.1 rfl) (Finset.notMem_empty _)
          | true =>
            obtain ⟨hid,-⟩ := hp
            cases hid
            obtain ⟨h',hs,hsm⟩ := Sim.restored hl hr hb hsl hm hch
            exact ⟨h',hs,.inr ⟨base,.init,hsm⟩⟩
    · obtain ⟨h',waiting',s',hs,hs'⟩ := hsm.step hpl replies
      exact ⟨h',hs,.inr ⟨waiting',s',hs'⟩⟩

end InputHistory
end HetuCore.Snapshot
