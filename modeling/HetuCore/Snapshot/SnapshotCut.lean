import HetuCore.Snapshot.InputRuns

namespace HetuCore.Snapshot
open Buffer Foundation ChannelLog
variable {ρ γ : Type}

namespace InputHistory

/-- Every snapshot with a marker on some channel has exactly one marker released. -/
def MarkersOnce (h : InputHistory ρ γ) : Prop :=
  ∀ id, (markerIds h.released).count id ≤ 1 ∧
    (id ∈ markerIds h.released ↔ ∃ channel, (channel,.marker id) ∈ h.received)

/-- The stored state of a component that started with the base to consume. The taken pages
are those released before the first marker; they and the stored inputs are, on every channel,
the pages before the channel's marker. -/
structure IsCut (I : SnapshotInputs ρ γ) (start : ρ) (base : List SerializedPage) (h : InputHistory ρ γ) (id : Int)
    (states : List (StateEntry γ)) (taken inputs : List (String × SerializedPage)) : Prop where
  received : ∃ earlier channel later, h.received = earlier ++ (channel,.marker id) :: later ∧
    (∀ k, (k,.marker id) ∉ earlier) ∧ taken = data earlier
  released : ∃ earlier page later, h.released = earlier ++ page :: later ∧ SerializedPage.snapshotMarker page = some id ∧
    id ∉ markerIds earlier ∧ dataPages earlier = base ++ taken.map Prod.snd
  captured : ∀ state, captureAt I start base taken = .ok state → states = .captured state :: inputs.map fun e => .input e.2
  thrown : ∀ message, captureAt I start base taken = .error message →
    .failedToCapture id ∈ h.state.calls ∧ states = inputs.map fun e => .input e.2
  within : ∀ e ∈ inputs, e.1 ∈ I.channels ∧ e.2.toMarker = none
  channels : ∀ channel ∈ I.channels, (channel,.marker id) ∈ h.received ∧
    ofChannel channel taken ++ ofChannel channel inputs = before id (events channel h.received)

/-- The pages of the run that resumed: those it has released, and the waiting ones, are the
stored inputs and then what it received; the component has consumed the released ones. With
what its channels still have to send they make up the whole streams of the first run. -/
structure Continues (I : SnapshotInputs ρ γ) (h : InputHistory ρ γ) (id : Int) (taken inputs : List (String × SerializedPage))
    (restored : ρ) (h' : InputHistory ρ γ) (waiting : List SerializedPage) : Prop where
  pending : h'.state.pendingPages = waiting.map .input
  pages : dataPages h'.released ++ waiting = (inputs ++ data h'.received).map Prod.snd
  consumed : h'.restorable = I.consumed restored (dataPages h'.released)
  streams : ∀ channel ∈ I.channels, ∀ stream rest, events channel h.received <+: stream →
    events channel h'.received ++ rest = after id stream →
    ofChannel channel (taken ++ inputs ++ data h'.received) ++ content rest = content stream
  markers : h'.MarkersOnce

variable {I : SnapshotInputs ρ γ} {origin : Option Int} {start : ρ} {base waiting : List SerializedPage}
  {h : InputHistory ρ γ} {s : CutState String SerializedPage} {id : Int} {states : List (StateEntry γ)}

theorem Sim.markersOnce (hs : Sim I origin start base waiting h s) : h.MarkersOnce := by
  intro id
  obtain ⟨hn,hm⟩ := hs.consistent.announced
  rw [hs.announced,← hs.log]
  exact ⟨List.nodup_iff_count_le_one.mp hn id,hm id⟩

theorem Sim.isCut (hs : Sim I origin start base waiting h s) (hst : .storeState id states ∈ h.state.calls) :
    ∃ taken inputs, IsCut I start base h id states taken inputs := by
  obtain ⟨x,hx,rfl,rfl⟩ := hs.tracks.stored id states hst
  have hmm : x ∈ s.opened ++ s.completed := List.mem_append_right _ hx
  have ho := hs.consistent.openedAt x hmm
  have hc := hs.consistent.covers x hmm
  have hmr := hs.consistent.completed x hx
  rw [hs.log] at ho hc hmr
  refine ⟨x.taken,x.inputs,ho,?_,?_,?_,?_,?_⟩
  · obtain ⟨earlier,page,later,hr,hmk,ht⟩ := hs.cutAt x hmm
    refine ⟨earlier,page,later,hr,hmk,?_,ht⟩
    have hn := hs.consistent.announced.1
    rw [← hs.announced,hr,markerIds_append] at hn
    have hh : x.id ∈ markerIds (page :: later) := List.mem_filterMap.mpr ⟨page,List.mem_cons_self ..,hmk⟩
    exact fun hin => List.disjoint_of_nodup_append hn hin hh
  · intro state hsa
    simp [stateOf,hsa,capturedEntry]
  · intro message hm
    refine ⟨hs.tracks.failures x hmm message hm,?_⟩
    simp [stateOf,hm,capturedEntry]
  · intro e he
    have hl := (hc e.1).mem_log (List.mem_append_right _ (show (e.1,e.2) ∈ x.inputs from he))
    refine ⟨?_,hs.receivedData e.1 e.2 hl⟩
    exact hs.consistent.within (e.1,.data e.2) (hs.log ▸ hl)
  · intro channel hch
    refine ⟨hmr channel hch,?_⟩
    rw [← ofChannel_append]
    exact hc channel

/-- What precedes the marker, what follows it and what is still to come are the stream. -/
theorem IsCut.streams {taken inputs : List (String × SerializedPage)} {h' : InputHistory ρ γ} {channel : String}
    (hct : IsCut I start base h id states taken inputs) (hc : channel ∈ I.channels)
    {stream rest : List (Event SerializedPage)} (hi : events channel h.received <+: stream)
    (hr : events channel h'.received ++ rest = after id stream) :
    ofChannel channel (taken ++ inputs ++ data h'.received) ++ content rest = content stream := by
  obtain ⟨hm,hb⟩ := hct.channels channel hc
  obtain ⟨more,rfl⟩ := hi
  have hs := before_append (mem_events.mpr hm) more
  calc ofChannel channel (taken ++ inputs ++ data h'.received) ++ content rest
      = before id (events channel h.received) ++ content (events channel h'.received ++ rest) := by
        rw [ofChannel_append,ofChannel_append,hb,← content_events,content_append,List.append_assoc]
    _ = content (events channel h.received ++ more) := by
        rw [hr,← hs,before_append_content_after]

theorem IsCut.continues {taken inputs : List (String × SerializedPage)} {state : γ} {replies : ManagerReplies γ}
    {restorable restored : ρ} {polls : List Poll} (hc : IsCut I start base h id states taken inputs)
    (hcp : captureAt I start base taken = .ok state) (hl : replies.loadState id = .loaded states)
    (hr : I.restore restorable state = .ok restored)
    (hst : (InputHistory.inputs I replies restorable).Along (Streams I (some id)) polls) :
    ∃ h', (InputHistory.inputs I replies restorable).run polls = .ok h' ∧
      (h' = new restorable ∨ ∃ waiting, Continues I h id taken inputs restored h' waiting) := by
  have hpg : inputs.map (fun e => StateEntry.input (γ := γ) e.2) = (inputs.map Prod.snd).map .input := by
    rw [List.map_map]
    rfl
  rw [hc.captured state hcp,hpg] at hl
  have hd : ∀ page ∈ inputs.map Prod.snd, page.toMarker = none := by
    intro page hp
    obtain ⟨e,he,rfl⟩ := List.mem_map.mp hp
    exact (hc.within e he).2
  obtain ⟨h',hrn,hn | ⟨waiting,s,hs⟩⟩ := run_resumed hl hr hd hst
  · exact ⟨h',hrn,.inl hn⟩
  · refine ⟨h',hrn,.inr ⟨waiting,hs.pending,?_,hs.restorable,?_,hs.markersOnce⟩⟩
    · rw [List.map_append]
      exact hs.pages
    · intro channel hch stream rest
      exact hc.streams hch

/-- Whatever the interleaving of the channels, every step succeeds, each snapshot has one marker
released, and every stored state is a consistent cut from which a restored component goes on. -/
theorem storeState_isCut (I : SnapshotInputs ρ γ) (replies : ManagerReplies γ) (start : ρ) (polls : List Poll)
    (hstreams : (inputs I replies start).Along (Streams I none) polls) :
    ∃ h, (inputs I replies start).run polls = .ok h ∧ h.MarkersOnce ∧
      ∀ id states, .storeState id states ∈ h.state.calls → ∃ taken stored, IsCut I start [] h id states taken stored ∧
        ∀ state, captureAt I start [] taken = .ok state →
        ∀ (replies' : ManagerReplies γ) (restorable restored : ρ), replies'.loadState id = .loaded states →
          I.restore restorable state = .ok restored →
        ∀ polls', (inputs I replies' restorable).Along (Streams I (some id)) polls' →
          ∃ h', (inputs I replies' restorable).run polls' = .ok h' ∧
            (h' = new restorable ∨ ∃ waiting, Continues I h id taken stored restored h' waiting) := by
  obtain ⟨h,hrn,waiting,s,hsm⟩ := run_fresh I replies start hstreams
  refine ⟨h,hrn,hsm.markersOnce,?_⟩
  intro id states hs
  obtain ⟨taken,stored,hct⟩ := hsm.isCut hs
  refine ⟨taken,stored,hct,?_⟩
  intro state hc replies' restorable restored hl hr polls' hs'
  exact hct.continues hc hl hr hs'

/-- A component that keeps the pages it has consumed. -/
def recorder (fails : Bool) : SnapshotInputs (List SerializedPage) (List SerializedPage) :=
  ⟨fun pages => if fails then .error "capture failed" else .ok pages,fun _ state => .ok state,
    fun pages page => pages ++ [page],{"a","b"}⟩

private def samplePage (position : Nat) : SerializedPage := ⟨.data [],position,0⟩

private def sampleMarker (id : Int) : SerializedPage := ⟨.marker ⟨id,false⟩,0,0⟩

/-- The second channel sends a page while the snapshot is open; it is kept for later. -/
def twoChannelPolls : List Poll :=
  [⟨false,some ("a",samplePage 1)⟩,⟨false,some ("b",samplePage 2)⟩,⟨false,some ("a",sampleMarker 1)⟩,
    ⟨true,some ("b",samplePage 3)⟩,⟨false,none⟩,⟨false,some ("a",samplePage 4)⟩,⟨false,some ("b",sampleMarker 1)⟩]

theorem storeState_isCut_twoChannels :
    (∃ h, (inputs (recorder false) ⟨fun _ => .missing,fun _ => true⟩ []).run twoChannelPolls = .ok h ∧
      .storeState 1 [.captured [samplePage 1,samplePage 2],.input (samplePage 3)] ∈ h.state.calls) ∧
    ∃ h, (inputs (recorder false) ⟨fun _ => .missing,fun _ => true⟩ []).run twoChannelPolls = .ok h ∧ h.MarkersOnce := by
  refine ⟨exists_ok (by decide +kernel),?_⟩
  obtain ⟨h,hr,ho,-⟩ := storeState_isCut (recorder false) ⟨fun _ => .missing,fun _ => true⟩ [] twoChannelPolls
    (.of_checks (by decide +kernel))
  exact ⟨h,hr,ho⟩

/-- A capture that throws is reported, and the inputs are stored without a captured state. -/
theorem twoChannelPolls_stores_inputs_only :
    (inputs (recorder true) ⟨fun _ => .missing,fun _ => true⟩ []).Along (Streams (recorder true) none) twoChannelPolls ∧
    ∃ h states, (inputs (recorder true) ⟨fun _ => .missing,fun _ => true⟩ []).run twoChannelPolls = .ok h ∧
      .storeState 1 states ∈ h.state.calls ∧ .failedToCapture 1 ∈ h.state.calls ∧
      ∀ state entries, states ≠ .captured state :: entries := by
  refine ⟨.of_checks (by decide +kernel),?_⟩
  obtain ⟨h,hr,hs,hf⟩ : ∃ h,
      (inputs (recorder true) ⟨fun _ => .missing,fun _ => true⟩ []).run twoChannelPolls = .ok h ∧
        .storeState 1 [.input (samplePage 3)] ∈ h.state.calls ∧ .failedToCapture 1 ∈ h.state.calls :=
    exists_ok (by decide +kernel)
  refine ⟨h,_,hr,hs,hf,?_⟩
  intro state entries heq
  cases heq

end InputHistory
end HetuCore.Snapshot
