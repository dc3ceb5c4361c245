import HetuCore.Buffer.BufferThreads
import HetuCore.Buffer.ClientStreams

namespace HetuCore.Buffer
open Foundation Snapshot PageReferences MultiInputSnapshotState List

namespace ArbitraryOutputBuffer
variable {s s' : ArbitraryOutputBuffer}

def markers (s : ArbitraryOutputBuffer) : List SerializedPageReference :=
  s.references.created.filter (·.serializedPage.isMarkerPage)

/-- While pages are exchanged, the streams of the clients are in order. -/
structure Linked (s : ArbitraryOutputBuffer) : Prop where
  routed : Routed s.references.created s.bufferIds s.masterBuffer.entries s.handed
  running : s.stateMachine = .open ∨ (s.stateMachine = .noMoreBuffers ∧ s.outputBuffers.noMoreBufferIds = true)
  snapshots : ∃ m, s.snapshotState = some m ∧ m.pendingPages = []

/-- While buffers can be created, all markers but those of the current call are remembered. -/
def Remembers (s : ArbitraryOutputBuffer) (due : List SerializedPageReference) : Prop :=
  s.stateMachine = .open → s.markersForNewBuffers ++ due = s.markers

/-- Clients and pages are never forgotten. -/
def Grows (s s' : ArbitraryOutputBuffer) : Prop :=
  s.bufferIds ⊆ s'.bufferIds ∧ s.references.created ⊆ s'.references.created

theorem Grows.refl (s : ArbitraryOutputBuffer) : Grows s s := ⟨fun _ hx => hx,fun _ hx => hx⟩

/-- What a step without the lock of the buffer can do: a client may be handed pages. -/
structure Serves (s s' : ArbitraryOutputBuffer) : Prop where
  snapshotState : s'.snapshotState = s.snapshotState
  outputBuffers : s'.outputBuffers = s.outputBuffers
  stateMachine : s'.stateMachine = s.stateMachine
  markersForNewBuffers : s'.markersForNewBuffers = s.markersForNewBuffers
  created : s'.references.created = s.references.created
  bufferIds : s'.bufferIds = s.bufferIds
  served : (s'.masterBuffer.entries = s.masterBuffer.entries ∧ s'.handed = s.handed) ∨
    ∃ client ∈ s.bufferIds, ∃ taken, MasterBuffer.Scanned client s.masterBuffer.entries taken s'.masterBuffer.entries ∧
      s'.handed = s.handed ++ taken.map (client,·)

theorem Serves.refl (s : ArbitraryOutputBuffer) : Serves s s := ⟨rfl,rfl,rfl,rfl,rfl,rfl,.inl ⟨rfl,rfl⟩⟩

theorem bufferIds_setBuffer (s : ArbitraryOutputBuffer) (b : ClientBuffer) : (s.setBuffer b).bufferIds = s.bufferIds := by
  rw [bufferIds,setBuffer,map_map]
  refine map_congr_left fun c _ => ?_
  by_cases h : c.bufferId = b.bufferId
  · simp [h]
  · simp [h]

theorem Serves.setBuffer (s : ArbitraryOutputBuffer) (b : ClientBuffer) (futures : Nat) :
    Serves s ({ s with futures := futures }.setBuffer b) :=
  ⟨rfl,rfl,rfl,rfl,rfl,bufferIds_setBuffer s b,.inl ⟨rfl,rfl⟩⟩

theorem Serves.complete (h : Serves s s') (future : Nat) (r : BufferResult) : Serves s (s'.complete future r) := by
  unfold ArbitraryOutputBuffer.complete
  split
  · exact h
  · exact ⟨h.snapshotState,h.outputBuffers,h.stateMachine,h.markersForNewBuffers,h.created,h.bufferIds,h.served⟩

variable {next : List ClientStep}

theorem withClient_serves {id : Nat} {f : ClientBuffer → Except String (ArbitraryOutputBuffer × List ClientStep)}
    (h : s.withClient id f = .ok (s',next))
    (hf : ∀ b, b.bufferId = id → id ∈ s.bufferIds → f b = .ok (s',next) → Serves s s') : Serves s s' := by
  rw [withClient] at h
  cases hb : s.findBuffer id with
  | none =>
    rw [hb] at h
    cases h
    exact .refl s
  | some b =>
    rw [hb] at h
    obtain ⟨hm,hid⟩ := mem_of_findBuffer hb
    exact hf b hid (hid ▸ mem_map_of_mem hm) h

section
variable (h : Linked s)
include h

theorem Linked.loadStep {b : ClientBuffer} {maxSize : Nat} {answers : Bool} (hb : b.bufferId ∈ s.bufferIds)
    (hl : s.loadStep b answers (s.masterBuffer.getPages s.snapshotState.isSome b.bufferId maxSize) = .ok (s',next)) :
    Serves s s' := by
  rw [ArbitraryOutputBuffer.loadStep] at hl
  split at hl
  · cases hl
    exact .refl s
  · obtain ⟨references,hr,hl⟩ := bind_ok hl
    cases hl
    refine ⟨rfl,rfl,rfl,rfl,addReferences_created hr,bufferIds_setBuffer _ _,.inr ⟨b.bufferId,hb,_,?_,rfl⟩⟩
    obtain ⟨taken,hp,hs,-⟩ := MasterBuffer.scanPages_scanned b.bufferId maxSize 0 [] s.masterBuffer.entries
    obtain ⟨m,hm,-⟩ := h.snapshots
    simp only [hm,Option.isSome_some,MasterBuffer.getPages,if_true,hp]
    exact hs

theorem Linked.clientStep {step : ClientStep} (hs : s.clientStep step = .ok (s',next)) : Serves s s' := by
  cases step with
  | acknowledge id sequenceId =>
    refine withClient_serves hs fun b _ _ hs => ?_
    obtain ⟨⟨b',removed⟩,-,hs⟩ := bind_ok hs
    cases hs
    exact .setBuffer s b' s.futures
  | loadPagesIfNecessary id | answer id =>
    refine withClient_serves hs fun b _ _ hs => ?_
    cases hs
    exact .refl s
  | load id maxSize answers =>
    refine withClient_serves hs fun b hid hm hs => ?_
    subst hid
    exact h.loadStep hm hs
  | processRead id p =>
    refine withClient_serves hs fun b _ _ hs => ?_
    split at hs
    · cases hs
      exact .refl s
    · obtain ⟨result,-,hs⟩ := bind_ok hs
      cases hs
      exact (Serves.refl s).complete _ _
  | readOrWait id sequenceId maxSize =>
    refine withClient_serves hs fun b _ _ hs => ?_
    obtain ⟨⟨b',result,old⟩,-,hs⟩ := bind_ok hs
    cases hs
    cases result with
    | none => exact .setBuffer s b' _
    | some r => exact (Serves.setBuffer s b' _).complete _ r
  | completeWithEmpty p =>
    cases hs
    cases p with
    | none => exact .refl s
    | some p => exact (Serves.refl s).complete _ _
  | dereference pages =>
    cases pages with
    | nil =>
      cases hs
      exact .refl s
    | cons r pages =>
      obtain ⟨references,hr,hs⟩ := bind_ok hs
      cases hs
      have hd : s.references.dereferencePages [r] = .ok references := by
        rw [dereferencePages,foldlM_cons,hr]
        rfl
      exact ⟨rfl,rfl,rfl,rfl,dereferencePages_created hd,rfl,.inl ⟨rfl,rfl⟩⟩
  | destroy id =>
    refine withClient_serves hs fun b _ _ hs => ?_
    cases hs
    exact .setBuffer s _ s.futures
  | checkFlushComplete =>
    have hn : ¬ (s.stateMachine = .flushing ∨ (s.stateMachine = .noMorePages ∧ s.masterBuffer.isEmpty)) := by
      have hr := h.running
      grind
    rw [ArbitraryOutputBuffer.clientStep,ArbitraryOutputBuffer.checkFlushComplete,if_neg hn] at hs
    cases hs
    exact .refl s
  | addInputChannel inputId | setNoMoreInputChannels =>
    obtain ⟨s₁,h₁,hs⟩ := bind_ok hs
    cases hs
    simp only [ArbitraryOutputBuffer.addInputChannel,ArbitraryOutputBuffer.setNoMoreInputChannels] at h₁
    split at h₁
    · cases h₁
    · cases h₁
      exact ⟨rfl,rfl,rfl,rfl,rfl,rfl,.inl ⟨rfl,rfl⟩⟩

theorem Linked.serves (hs : Serves s s') : Linked s' := by
  refine ⟨?_,hs.stateMachine ▸ hs.outputBuffers ▸ h.running,hs.snapshotState ▸ h.snapshots⟩
  rw [hs.created,hs.bufferIds]
  obtain ⟨he,hh⟩ | ⟨client,hc,taken,ht,hh⟩ := hs.served
  · rw [he,hh]
    exact h.routed
  · rw [hh]
    exact h.routed.take hc ht

end

/-- A new client is created in the open state only, where all markers are remembered. -/
theorem Linked.getBuffer {id : Nat} (h : Linked s) (hr : Remembers s []) (hg : s.getBuffer id = .ok s') :
    Linked s' ∧ Remembers s' [] ∧ Grows s s' := by
  rw [ArbitraryOutputBuffer.getBuffer] at hg
  split at hg
  · cases hg
    exact ⟨h,hr,.refl s⟩
  · rename_i hn
    split at hg
    · cases hg
    · rename_i hc
      have ho : s.stateMachine = .open := by
        obtain ho | ⟨hs,hi⟩ := h.running
        · exact ho
        · simp [hs,hi,BufferState.canAddBuffers] at hc
      rw [if_neg (by simp [ho])] at hg
      obtain ⟨references₁,h₁,hg⟩ := bind_ok hg
      obtain ⟨masterBuffer,h₂,hg⟩ := bind_ok hg
      obtain ⟨references,h₃,hg⟩ := bind_ok hg
      rw [if_neg (by simp [ho])] at hg
      cases hg
      obtain ⟨entries,hi,h₂⟩ := bind_ok h₂
      cases h₂
      have hcr : references.created = s.references.created :=
        (addReferences_created h₃).trans (addReferences_created h₁)
      have hm : s.markersForNewBuffers = s.markers := by simpa using hr ho
      have hni : id ∉ s.bufferIds := by
        intro hm
        obtain ⟨b,hb,hid⟩ := mem_map.mp hm
        exact hn (find?_isSome.mpr ⟨b,hb,decide_eq_true hid⟩)
      refine ⟨⟨?_,h.running,h.snapshots⟩,fun _ => by simp [markers,hcr,hm],by simp [bufferIds],by simp [hcr]⟩
      rw [hm] at hi
      have hj := h.routed.join hni hi
      simpa [bufferIds,ClientBuffer.new,hcr] using hj

end ArbitraryOutputBuffer

/-- What holds while a call is at this place with the lock of the buffer. -/
def LockedStep.Good (s : ArbitraryOutputBuffer) : LockedStep → Prop
  | .addPages pages targetClients _ => s.Remembers [] ∧
    ((targetClients = none ∧ ∀ page ∈ pages, page.isMarkerPage = false) ∨
      (targetClients = some s.bufferIds.toFinset ∧ ∀ page ∈ pages, page.isMarkerPage = true))
  | .loadPending _ _ references broadcast => s.Remembers (if broadcast then references else [])
  | .noMoreBuffers => s.stateMachine ≠ .open
  | _ => s.Remembers []

/-- An enqueue passes data pages only, or a single page; and a resume marker restores no pending pages. -/
def LockedStep.markersAlone : LockedStep → Bool
  | .processPages pages _ replies _ => ((∀ page ∈ pages, page.isMarkerPage = false) ∨ pages.length = 1) ∧
    ∀ page ∈ pages, ∀ marker ∈ page.toMarker, marker.isResuming = true →
      (replies.loadState marker.snapshotId).pendingPages = []
  | _ => true

namespace ArbitraryOutputBuffer
variable {s s' : ArbitraryOutputBuffer} {locked : LockedStep} {next : Option LockedStep} {after : List CallStep}

theorem Serves.remembers (hs : Serves s s') {due : List SerializedPageReference} (h : Remembers s due) :
    Remembers s' due := by
  rw [Remembers,hs.stateMachine,hs.markersForNewBuffers,markers,hs.created]
  exact h

theorem Serves.grows (hs : Serves s s') : Grows s s' := by
  rw [Grows,hs.bufferIds,hs.created]
  exact Grows.refl s

theorem Serves.good (hs : Serves s s') (h : locked.Good s) : locked.Good s' := by
  cases locked with
  | addPages pages targetClients order => exact ⟨hs.remembers h.1,hs.bufferIds ▸ h.2⟩
  | noMoreBuffers => exact hs.stateMachine.trans_ne h
  | _ => exact hs.remembers h

/-- What a step with the lock of the buffer leaves. -/
def Leaves (s s' : ArbitraryOutputBuffer) (next : Option LockedStep) : Prop :=
  Linked s' ∧ Grows s s' ∧ next.elim (Remembers s' []) (LockedStep.Good s')

section
variable (h : Linked s)
include h

theorem Linked.processPages {pages : List SerializedPage} {origin : Option String} {replies : ManagerReplies (Nat × Nat)}
    {order : List Nat} (hr : Remembers s []) (ha : (LockedStep.processPages pages origin replies order).markersAlone = true)
    (hs : s.lockedStep (.processPages pages origin replies order) = .ok (s',next,after)) :
    Leaves s s' next := by
  obtain ⟨m,hm,hpn⟩ := h.snapshots
  rw [ArbitraryOutputBuffer.lockedStep,hm] at hs
  obtain ⟨⟨released,m',totals⟩,hp,hs⟩ := bind_ok hs
  cases hs
  obtain ⟨ha,hr'⟩ := of_decide_eq_true ha
  obtain ⟨hsb,hpn⟩ := released_sublist hpn hr' hp
  refine ⟨⟨h.routed,h.running,m',rfl,hpn⟩,.refl s,hr,?_⟩
  by_cases ho : released.length = 1 ∧ released.all SerializedPage.isMarkerPage
  · exact .inr ⟨if_pos ho,all_eq_true.mp ho.2⟩
  · refine .inl ⟨if_neg ho,fun page hpg => ?_⟩
    obtain hd | hl := ha
    · exact hd page (hsb.subset hpg)
    · have hle := hsb.length_le
      have hlt := length_pos_of_mem hpg
      obtain ⟨x,rfl⟩ := length_eq_one_iff.mp (show released.length = 1 by omega)
      simpa [mem_singleton.mp hpg] using ho

theorem Linked.addPages {pages : List SerializedPage} {targetClients : Option (Finset Nat)} {order : List Nat}
    (hg : (LockedStep.addPages pages targetClients order).Good s)
    (hs : s.lockedStep (.addPages pages targetClients order) = .ok (s',next,after)) :
    Leaves s s' next := by
  rw [ArbitraryOutputBuffer.lockedStep] at hs
  split at hs
  · cases hs
  · obtain ⟨references,ha,hs⟩ := bind_ok hs
    cases hs
    set references₀ := s.references.updateMemoryUsage (pages.map SerializedPage.retainedSizeInBytes).sum with h₀
    obtain ⟨hc,hp,hi⟩ := references₀.createAll_spec pages
    rw [← addReferences_created ha,h₀,updateMemoryUsage_created,← h₀] at hc
    rw [h₀,updateMemoryUsage_created,← h₀,← congrArg length hp,length_map] at hi
    generalize (references₀.createAll pages).1 = rs at *
    have hk : ∀ b : Bool, (∀ page ∈ pages, page.isMarkerPage = b) → ∀ r ∈ rs, r.serializedPage.isMarkerPage = b :=
      fun b hb r hr => hb _ (hp ▸ mem_map_of_mem hr)
    refine ⟨⟨?_,h.running,h.snapshots⟩,⟨fun _ hx => hx,by simp [hc]⟩,fun ho => ?_⟩
    · rw [hc]
      exact h.routed.addPages hi (hg.2.imp (And.imp_right (hk false)) (And.imp_right (hk true)))
    · have hm : s.markersForNewBuffers = s.markers := by simpa using hg.1 ho
      rw [markers,hc,filter_append,← markers,← hm]
      obtain ⟨rfl,hd⟩ | ⟨rfl,hd⟩ := hg.2
      · rw [filter_eq_nil_iff.mpr fun r hr => by simp [hk false hd r hr]]
        rfl
      · rw [filter_eq_self.mpr (hk true hd)]
        rfl

/-- The loop over the clients, and after it the markers are remembered. -/
theorem Linked.loadPending {steps : List ClientStep} {order : List Nat} {references : List SerializedPageReference}
    {broadcast : Bool} (hg : Remembers s (if broadcast then references else []))
    (hs : s.lockedStep (.loadPending steps order references broadcast) = .ok (s',next,after)) : Leaves s s' next := by
  match steps,order with
  | step :: steps,_ =>
    obtain ⟨⟨s₁,_⟩,h₁,hs⟩ := bind_ok hs
    cases hs
    have hsv := h.clientStep h₁
    exact ⟨h.serves hsv,hsv.grows,hsv.remembers hg⟩
  | [],id :: order =>
    rw [ArbitraryOutputBuffer.lockedStep] at hs
    split at hs
    · cases hs
      exact ⟨h,.refl s,hg⟩
    · cases hs
      exact ⟨h,.refl s,hg⟩
  | [],[] =>
    rw [ArbitraryOutputBuffer.lockedStep] at hs
    split at hs
    · rename_i hb
      obtain ⟨references',hr,hs⟩ := bind_ok hs
      cases hs
      have hc := addReferences_created hr
      refine ⟨⟨hc ▸ h.routed,h.running,h.snapshots⟩,⟨fun _ hx => hx,by simp [hc]⟩,fun ho => ?_⟩
      have hd := hg ho
      simpa [markers,hc,hb.1] using hd
    · rename_i hb
      cases hs
      refine ⟨h,.refl s,fun ho => ?_⟩
      have hd := hg ho
      cases broadcast with
      | false => exact hd
      | true => exact absurd ⟨rfl,by rw [ho]; rfl⟩ hb

theorem Linked.getBuffers {ids : List Nat} {declared : Bool} (hg : Remembers s [])
    (hs : s.lockedStep (.getBuffers ids declared) = .ok (s',next,after)) : Leaves s s' next := by
  match ids,declared with
  | [],false =>
    cases hs
    exact ⟨h,.refl s,hg⟩
  | [],true =>
    cases hs
    split
    · rename_i hno
      have he : (s.stateMachine.compareAndSet .open .noMoreBuffers).compareAndSet .noMorePages .flushing =
          .noMoreBuffers := by
        obtain ho | ⟨ho,-⟩ := h.running
        · rw [ho]
          rfl
        · rw [ho]
          rfl
      exact ⟨⟨h.routed,.inr ⟨he,hno⟩,h.snapshots⟩,.refl s,fun ho => nomatch he.symm.trans ho⟩
    · exact ⟨h,.refl s,hg⟩
  | id :: ids,_ =>
    cases hs
    refine ⟨h,.refl s,?_⟩
    simp only [Option.elim]
    split
    · exact hg
    · exact hg

theorem Linked.lockedStep (hg : locked.Good s) (ha : locked.markersAlone = true)
    (hs : s.lockedStep locked = .ok (s',next,after)) :
    Leaves s s' next := by
  cases locked with
  | processPages pages origin replies order => exact h.processPages hg ha hs
  | addPages pages targetClients order => exact h.addPages hg hs
  | loadPending steps order references broadcast => exact h.loadPending hg hs
  | setOutputBuffers newOutputBuffers =>
    rw [ArbitraryOutputBuffer.lockedStep] at hs
    split at hs
    · cases hs
      exact ⟨h,.refl s,hg⟩
    · obtain ⟨_,hv,hs⟩ := bind_ok hs
      cases hs
      refine ⟨⟨h.routed,h.running.imp_right fun hno => ⟨hno.1,?_⟩,h.snapshots⟩,.refl s,hg⟩
      -- the last declaration of buffers cannot be changed
      rw [OutputBuffers.checkValidTransition] at hv
      grind
  | getBuffers ids declared => exact h.getBuffers hg hs
  | insertMarkers id ids declared =>
    obtain ⟨s₁,h₁,hs⟩ := bind_ok hs
    cases hs
    obtain ⟨hl,hr,hgr⟩ := h.getBuffer hg h₁
    exact ⟨hl,hgr,hr⟩
  | noMoreBuffers =>
    rw [ArbitraryOutputBuffer.lockedStep] at hs
    split at hs
    · cases hs
    · cases hs
      exact ⟨⟨h.routed,h.running,h.snapshots⟩,.refl s,fun ho => absurd ho hg⟩

end

end ArbitraryOutputBuffer

namespace BufferThreads
variable {t t' : BufferThreads}

structure Good (t : BufferThreads) : Prop where
  linked : t.buffer.Linked
  held : t.held.elim (t.buffer.Remembers []) fun held => held.1.Good t.buffer

/-- Markers come alone, and no client loads pages while markers are being inserted. -/
def undisturbed (t : BufferThreads) : ThreadStep → Bool
  | .call _ => true
  | .proceedLocked => t.held.all fun held => held.1.markersAlone
  | .proceed call | .race call _ _ => match t.calls[call]? with
    | some (.client (.load _ _ _) :: _) => !t.inserting
    | _ => true

theorem enter_good {s : ArbitraryOutputBuffer} {entry : CallStep} {locked : LockedStep} (h : s.Remembers [])
    (he : s.enter entry = some locked) : locked.Good s := by
  cases entry with
  | enqueue pages origin replies order =>
    rw [ArbitraryOutputBuffer.enter] at he
    split at he
    · cases he
      exact h
    · cases he
  | getBuffer id | setOutputBuffers newOutputBuffers =>
    cases he
    exact h
  | noMoreBuffers =>
    rw [ArbitraryOutputBuffer.enter] at he
    split at he
    · cases he
    · rename_i hc
      cases he
      exact fun ho => hc (by rw [ho]; rfl)
  | client step => cases he

theorem Good.step {step : ThreadStep} (h : t.Good) (hu : t.undisturbed step = true) (hs : t.step step = .ok t') :
    t'.Good ∧ t.buffer.Grows t'.buffer := by
  cases step with
  | call action =>
    obtain ⟨steps,-,hs⟩ := bind_ok hs
    cases hs
    exact ⟨⟨h.linked,h.held⟩,.refl _⟩
  | proceed call =>
    rw [BufferThreads.step] at hs
    split at hs
    · cases hs
      exact ⟨h,.refl _⟩
    · cases hs
      exact ⟨h,.refl _⟩
    · obtain ⟨⟨buffer,next⟩,hc,hs⟩ := bind_ok hs
      cases hs
      have hsv := h.linked.clientStep hc
      have hh := h.held
      refine ⟨⟨h.linked.serves hsv,?_⟩,hsv.grows⟩
      cases hd : t.held with
      | none =>
        rw [hd] at hh
        exact hsv.remembers hh
      | some held =>
        rw [hd] at hh
        exact hsv.good hh
    · split at hs
      · cases hs
        exact ⟨h,.refl _⟩
      · rename_i hn
        have hr := h.held
        rw [Option.not_isSome_iff_eq_none.mp hn] at hr
        split at hs
        · cases hs
          exact ⟨⟨h.linked,h.held⟩,.refl _⟩
        · rename_i locked he
          cases hs
          exact ⟨⟨h.linked,enter_good hr he⟩,.refl _⟩
  | proceedLocked =>
    rw [BufferThreads.step] at hs
    split at hs
    · cases hs
      exact ⟨h,.refl _⟩
    · rename_i locked rest hd
      obtain ⟨⟨buffer,next,after⟩,hl,hs⟩ := bind_ok hs
      have hg := h.held
      rw [hd] at hg
      have hn := h.linked.lockedStep hg (by simpa [undisturbed,hd] using hu) hl
      cases next with
      | none | some locked =>
        cases hs
        exact ⟨⟨hn.1,hn.2.2⟩,hn.2.1⟩
  | race call pages entries =>
    rw [BufferThreads.step] at hs
    split at hs
    · rename_i id _ answers rest hc
      rw [if_neg (by simpa [undisturbed,hc] using hu)] at hs
      cases hs
      exact ⟨h,.refl _⟩
    · cases hs
      exact ⟨h,.refl _⟩

section
variable {steps later : List ThreadStep}

theorem good_run (hu : machine.Along (·.undisturbed · = true) steps) (hr : machine.run steps = .ok t) : t.Good :=
  Machine.run_along ⟨⟨routed_nil,.inl rfl,_,rfl,rfl⟩,fun _ => rfl⟩ (fun _ _ _ h hc hs => (h.step hc hs).1) hu hr

theorem grows_run (hu : machine.Along (·.undisturbed · = true) (steps ++ later)) (hr : machine.run steps = .ok t)
    (hl : machine.run (steps ++ later) = .ok t') : t.buffer.Grows t'.buffer := by
  induction later using reverseRecOn generalizing t' with
  | nil =>
    rw [append_nil] at hl
    cases hr.symm.trans hl
    exact .refl _
  | append_singleton later step ih =>
    rw [← append_assoc] at hu hl
    obtain ⟨t₁,h₁,hs⟩ := Machine.run_concat_ok hl
    have hgr := ih hu.left h₁
    have hgr' := ((good_run hu.left h₁).step (hu _ step [] t₁ rfl h₁) hs).2
    exact ⟨fun _ hx => hgr'.1 (hgr.1 hx),fun _ hx => hgr'.2 (hgr.2 hx)⟩

end

end BufferThreads
end HetuCore.Buffer
