import HetuCore.Buffer.ArbitraryOutputBuffer

namespace HetuCore.Buffer
open Foundation Snapshot ClientBuffer Option

namespace ArbitraryOutputBuffer
variable {s s' : ArbitraryOutputBuffer} (s : ArbitraryOutputBuffer)

/-- The whole buffer is aborted; ignored in a terminal state. -/
def abortAll : ArbitraryOutputBuffer :=
  if s.stateMachine.isTerminal then s
  else { s with stateMachine := .aborted, references := s.references.close }

/-- The buffers of the clients are left to the coordinator. -/
def fail : ArbitraryOutputBuffer :=
  if s.stateMachine.isTerminal then s
  else { s with stateMachine := .failed, references := s.references.close }

end ArbitraryOutputBuffer

inductive LifecycleAction where
  | exchange (action : BufferAction)
  | setNoMorePages (order : List Nat)
  | destroy
  | abort
  | fail

namespace ArbitraryOutputBuffer
variable {s s' : ArbitraryOutputBuffer}

def lifecycleStep (s : ArbitraryOutputBuffer) : LifecycleAction → Except String ArbitraryOutputBuffer
  | .exchange action => s.step action
  | .setNoMorePages order => s.setNoMorePages order
  | .destroy => s.destroy
  | .abort => pure s.abortAll
  | .fail => pure s.fail

def lifecycle (snapshots : Bool) : Machine ArbitraryOutputBuffer LifecycleAction := ⟨new snapshots,lifecycleStep⟩

/-- Client buffers count the bytes of their pages, and a future that is still to be handed
out has not been used. -/
structure Answerable (snapshots : Bool) (s : ArbitraryOutputBuffer) : Prop where
  enabled : s.snapshotState.isSome = snapshots
  bytes : ∀ b ∈ s.buffers, b.bufferedBytes = retainedSize b.pages
  waiting : ∀ b ∈ s.buffers, ∀ p ∈ b.pendingRead, p.resultFuture < s.futures
  answered : ∀ x ∈ s.responses, x.1 < s.futures

variable {snapshots : Bool}

theorem answerable_new (snapshots : Bool) : Answerable snapshots (new snapshots) where
  enabled := by cases snapshots <;> rfl
  bytes _ hb := absurd hb List.not_mem_nil
  waiting _ hb := absurd hb List.not_mem_nil
  answered _ hx := absurd hx List.not_mem_nil

namespace Answerable

section
variable (h : Answerable snapshots s)
include h

theorem congr (hs : s'.snapshotState.isSome = s.snapshotState.isSome)
    (hbf : s'.buffers = s.buffers) (hr : s'.responses = s.responses) (hf : s'.futures = s.futures) :
    Answerable snapshots s' where
  enabled := hs.trans h.enabled
  bytes b hb := h.bytes b (hbf ▸ hb)
  waiting b hb p hp := hf ▸ h.waiting b (hbf ▸ hb) p hp
  answered x hx := hf ▸ h.answered x (hr ▸ hx)

theorem setBuffer {b : ClientBuffer} (hb : b.bufferedBytes = retainedSize b.pages)
    (hw : ∀ p ∈ b.pendingRead, p.resultFuture < s.futures) : Answerable snapshots (s.setBuffer b) where
  enabled := h.enabled
  bytes c hc := by
    obtain rfl | hc := mem_setBuffer hc
    · exact hb
    · exact h.bytes c hc
  waiting c hc := by
    obtain rfl | hc := mem_setBuffer hc
    · exact hw
    · exact h.waiting c hc
  answered := h.answered

theorem complete {future : Nat} (hf : future < s.futures) (r : BufferResult) :
    Answerable snapshots (s.complete future r) := by
  unfold ArbitraryOutputBuffer.complete
  split
  · exact h
  · exact ⟨h.enabled,h.bytes,h.waiting,forall_mem_concat.mpr ⟨h.answered,hf⟩⟩

theorem completeWithEmpty {p : Option PendingRead} (hp : ∀ q ∈ p, q.resultFuture < s.futures) :
    Answerable snapshots (s.completeWithEmpty p) := by
  cases p with
  | none => exact h
  | some q => exact h.complete (hp q rfl) _

theorem advance : Answerable snapshots { s with futures := s.futures + 1 } where
  enabled := h.enabled
  bytes := h.bytes
  waiting b hb p hp := Nat.lt_succ_of_lt (h.waiting b hb p hp)
  answered x hx := Nat.lt_succ_of_lt (h.answered x hx)

theorem join {b : ClientBuffer} (hb : b.bufferedBytes = retainedSize b.pages)
    (hw : b.pendingRead = none) : Answerable snapshots { s with buffers := s.buffers ++ [b] } where
  enabled := h.enabled
  bytes := forall_mem_concat.mpr ⟨h.bytes,hb⟩
  waiting := by
    refine forall_mem_concat.mpr ⟨h.waiting,?_⟩
    rw [hw]
    exact fun p hp => absurd hp.symm (some_ne_none p)
  answered := h.answered

end

end Answerable

theorem loadPages_answerable {b : ClientBuffer} {maxSize : Nat} {added : Bool} (h : Answerable snapshots s) (hb : b ∈ s.buffers)
    (hl : s.loadPages b maxSize = .ok (added,s')) : Answerable snapshots s' ∧ s'.futures = s.futures := by
  obtain rfl | ⟨pages,masterBuffer,references₁,references,-,-,-,-,rfl⟩ := loadPages_ok hl
  · exact ⟨h,rfl⟩
  · refine ⟨.setBuffer ?_ ?_ (h.waiting b hb),rfl⟩
    · exact h.congr rfl rfl rfl rfl
    have hby := h.bytes b hb
    simp only [load,addPages,retainedSize_append]
    omega

variable {id : Nat} {order : List Nat} {pages : List SerializedPage} {b b' : ClientBuffer}
  {removed : List SerializedPageReference} {sequenceId : Int}

section
variable (h : Answerable snapshots s)
include h

theorem loadPagesIfNecessary_answerable (hl : s.loadPagesIfNecessary id = .ok s') : Answerable snapshots s' := by
  rw [loadPagesIfNecessary] at hl
  split at hl
  · cases hl
    exact h
  · rename_i b hb
    have hm := (mem_of_findBuffer hb).1
    split at hl
    · cases hl
      exact h
    · rename_i p hp
      obtain ⟨⟨added,s₁⟩,h₁,hl⟩ := bind_ok hl
      obtain ⟨hs₁,hf⟩ := loadPages_answerable h hm h₁
      simp only at hl
      split at hl
      · split at hl
        · cases hl
          exact hs₁
        · obtain ⟨result,-,hl⟩ := bind_ok hl
          cases hl
          exact hs₁.complete (hf ▸ h.waiting b hm p hp) result
      · cases hl
        exact hs₁

theorem loadPending_answerable (hl : s.loadPending order = .ok s') : Answerable snapshots s' := by
  refine foldlM_ok h (fun s₁ id s₂ hs₁ h₂ => ?_) hl
  split at h₂
  · cases h₂
    exact hs₁
  · exact loadPagesIfNecessary_answerable hs₁ h₂

theorem doEnqueue_answerable {targets : Option (Finset Nat)}
    (he : s.doEnqueue pages targets order = .ok s') : Answerable snapshots s' := by
  obtain ⟨references,-,he⟩ := bind_ok he
  obtain ⟨s₁,h₁,he⟩ := bind_ok he
  have hs₁ : Answerable snapshots s₁ := by
    refine loadPending_answerable ?_ h₁
    exact h.congr rfl rfl rfl rfl
  split at he
  · obtain ⟨references₁,-,he⟩ := bind_ok he
    cases he
    exact hs₁.congr rfl rfl rfl rfl
  · cases he
    exact hs₁

theorem enqueue_answerable {origin : Option String} {replies : ManagerReplies (Nat × Nat)}
    (he : s.enqueue pages origin replies order = .ok s') : Answerable snapshots s' := by
  rw [enqueue] at he
  split at he
  · cases he
  · split at he
    · cases he
      exact h
    · split at he
      · exact doEnqueue_answerable h he
      · rename_i hs
        obtain ⟨⟨finalPages,snapshotState,totals⟩,-,he⟩ := bind_ok he
        refine doEnqueue_answerable ?_ he
        exact h.congr (by rw [hs]; rfl) rfl rfl rfl

theorem getBuffer_answerable (hg : s.getBuffer id = .ok s') : Answerable snapshots s' := by
  rw [getBuffer] at hg
  split at hg
  · cases hg
    exact h
  · split at hg
    · cases hg
    · split at hg
      · cases hg
        exact h.join rfl rfl
      · obtain ⟨references₁,-,hg⟩ := bind_ok hg
        obtain ⟨masterBuffer,-,hg⟩ := bind_ok hg
        obtain ⟨references,-,hg⟩ := bind_ok hg
        cases hg
        have hs : Answerable snapshots { s with references := references, masterBuffer := masterBuffer } := h.congr rfl rfl rfl rfl
        apply hs.join
        · split
          · rfl
          · rfl
        · split
          · rfl
          · rfl

end

theorem complete_futures (s : ArbitraryOutputBuffer) (future : Nat) (r : BufferResult) :
    (s.complete future r).futures = s.futures := by
  unfold complete
  split
  · rfl
  · rfl

section
variable (h : Answerable snapshots s)
include h

theorem Answerable.acknowledge (references : PageReferences) (hb : b ∈ s.buffers)
    (ha : b.acknowledgePages sequenceId = .ok (b',removed)) :
    Answerable snapshots ({ s with references := references }.setBuffer b') := by
  obtain ⟨-,hp,hw,hr⟩ := acknowledgePages_ends.ok ha
  have hby := h.bytes b hb
  rw [hp,retainedSize_append] at hby
  dsimp only at hby hr
  have hs : Answerable snapshots { s with references := references } := h.congr rfl rfl rfl rfl
  exact hs.setBuffer (by omega) (hw.symm ▸ h.waiting b hb)

theorem acknowledge_answerable (ha : s.acknowledge id sequenceId = .ok s') : Answerable snapshots s' := by
  obtain ⟨s₁,h₁,ha⟩ := bind_ok ha
  have hs₁ := getBuffer_answerable h h₁
  split at ha
  · cases ha
    exact hs₁
  · rename_i b hb
    obtain ⟨⟨b',removed⟩,h₂,ha⟩ := bind_ok ha
    obtain ⟨references,-,ha⟩ := bind_ok ha
    cases ha
    exact hs₁.acknowledge references (mem_of_findBuffer hb).1 h₂

theorem get_answerable {id maxSize : Nat} {startingSequenceId : Int}
    (hg : s.get id startingSequenceId maxSize = .ok s') : Answerable snapshots s' := by
  rw [get] at hg
  split at hg
  · cases hg
  · obtain ⟨s₁,h₁,hg⟩ := bind_ok hg
    have hs₁ := getBuffer_answerable h h₁
    split at hg
    · cases hg
      exact hs₁
    · rename_i b hb
      have hm := (mem_of_findBuffer hb).1
      obtain ⟨⟨b',removed⟩,h₂,hg⟩ := bind_ok hg
      obtain ⟨references,-,hg⟩ := bind_ok hg
      obtain ⟨⟨added,s₂⟩,h₃,hg⟩ := bind_ok hg
      have hid := (acknowledgePages_ends.ok h₂).1
      obtain ⟨hs₂,-⟩ := loadPages_answerable (hs₁.acknowledge references hm h₂) (mem_setBuffer_self hm hid) h₃
      simp only at hg
      split at hg
      · cases hg
        exact hs₂
      · rename_i c hc
        have hcm := (mem_of_findBuffer hc).1
        obtain ⟨⟨c',result,oldPendingRead⟩,h₄,hg⟩ := bind_ok hg
        cases hg
        obtain ⟨waiting,hs,hn,ho⟩ := readOrWait_ends.ok h₄
        change c' = _ at hs
        have hs₃ : Answerable snapshots ({ s₂ with futures := s₂.futures + 1 }.setBuffer c') := by
          apply hs₂.advance.setBuffer
          · rw [hs]
            exact hs₂.bytes c hcm
          · intro p hp
            rw [hs] at hp
            rw [hn p hp]
            exact Nat.lt_succ_self _
        have hs₄ : ∀ r : Option BufferResult, Answerable snapshots (r.elim ({ s₂ with futures := s₂.futures + 1 }.setBuffer c')
            (({ s₂ with futures := s₂.futures + 1 }.setBuffer c').complete s₂.futures)) := by
          intro r
          cases r with
          | none => exact hs₃
          | some r => exact hs₃.complete (Nat.lt_succ_self _) r
        apply (hs₄ result).completeWithEmpty
        intro p hp
        rw [ho] at hp
        have hlt := Nat.lt_succ_of_lt (hs₂.waiting c hcm p hp)
        cases result with
        | none => exact hlt
        | some r =>
          rw [elim_some,complete_futures]
          exact hlt

theorem noMoreBuffers_answerable (hno : s.noMoreBuffers = .ok s') : Answerable snapshots s' := by
  rw [noMoreBuffers] at hno
  split at hno
  · cases hno
  · obtain ⟨references,-,hno⟩ := bind_ok hno
    cases hno
    exact h.congr rfl rfl rfl rfl

theorem destroyClient_answerable (hd : s.destroyClient id = .ok s') : Answerable snapshots s' := by
  rw [destroyClient] at hd
  split at hd
  · cases hd
    exact h
  · rename_i b hb
    obtain ⟨references,-,hd⟩ := bind_ok hd
    cases hd
    have hs : Answerable snapshots ({ s with references := references }.setBuffer b.destroy.1) :=
      .setBuffer (s := { s with references := references }) (h.congr rfl rfl rfl rfl) rfl
        fun p hp => absurd hp.symm (some_ne_none p)
    exact hs.completeWithEmpty (h.waiting b (mem_of_findBuffer hb).1)

theorem destroy_answerable (hd : s.destroy = .ok s') : Answerable snapshots s' := by
  rw [destroy] at hd
  split at hd
  · cases hd
    exact h
  · obtain ⟨s₁,h₁,hd⟩ := bind_ok hd
    obtain ⟨references,-,hd⟩ := bind_ok hd
    obtain ⟨s₂,h₂,hd⟩ := bind_ok hd
    cases hd
    have hs₁ : Answerable snapshots s₁ := by
      refine noMoreBuffers_answerable ?_ h₁
      exact h.congr rfl rfl rfl rfl
    have hs₂ : Answerable snapshots s₂ := by
      refine foldlM_ok ?_ (fun t id t' ht h' => destroyClient_answerable ht h') h₂
      exact hs₁.congr rfl rfl rfl rfl
    exact hs₂.congr rfl rfl rfl rfl

theorem checkFlushComplete_answerable (hc : s.checkFlushComplete = .ok s') : Answerable snapshots s' := by
  rw [checkFlushComplete] at hc
  split at hc
  · split at hc
    · exact destroy_answerable h hc
    · cases hc
      exact h
  · cases hc
    exact h

theorem abort_answerable (ha : s.abort id = .ok s') : Answerable snapshots s' := by
  obtain ⟨s₁,h₁,ha⟩ := bind_ok ha
  obtain ⟨s₂,h₂,ha⟩ := bind_ok ha
  exact checkFlushComplete_answerable (destroyClient_answerable (getBuffer_answerable h h₁) h₂) ha

theorem forget_answerable
    (hno : (if s.stateMachine.canAddBuffers then pure s else s.noMoreBuffers) = .ok s') : Answerable snapshots s' := by
  split at hno
  · cases hno
    exact h
  · exact noMoreBuffers_answerable h hno

theorem setOutputBuffers_answerable {o : OutputBuffers} (hs : s.setOutputBuffers o = .ok s') :
    Answerable snapshots s' := by
  rw [setOutputBuffers] at hs
  split at hs
  · cases hs
    exact h
  · obtain ⟨_,-,hs⟩ := bind_ok hs
    obtain ⟨s₁,h₁,hs⟩ := bind_ok hs
    obtain ⟨s₂,h₂,hs⟩ := bind_ok hs
    have hs₁ : Answerable snapshots s₁ := by
      refine foldlM_ok ?_ (fun t id t' ht h' => getBuffer_answerable ht h') h₁
      exact h.congr rfl rfl rfl rfl
    refine checkFlushComplete_answerable (forget_answerable ?_ h₂) hs
    split
    · exact hs₁.congr rfl rfl rfl rfl
    · exact hs₁

theorem setNoMorePages_answerable (hs : s.setNoMorePages order = .ok s') : Answerable snapshots s' := by
  rw [setNoMorePages] at hs
  split at hs
  · cases hs
  · obtain ⟨s₁,h₁,hs⟩ := bind_ok hs
    refine checkFlushComplete_answerable ?_ hs
    refine foldlM_ok ?_ (fun t id t' ht h' => loadPagesIfNecessary_answerable ht h') h₁
    exact h.congr rfl rfl rfl rfl

end

theorem lifecycleStep_answerable (a : LifecycleAction) (h : Answerable snapshots s) (hs : s.lifecycleStep a = .ok s') :
    Answerable snapshots s' := by
  cases a with
  | exchange action =>
    cases action with
    | enqueue pages origin replies order => exact enqueue_answerable h hs
    | get id sequenceId maxSize => exact get_answerable h hs
    | acknowledge id sequenceId => exact acknowledge_answerable h hs
    | abort id => exact abort_answerable h hs
    | setOutputBuffers o => exact setOutputBuffers_answerable h hs
    | addInputChannel inputId =>
      rw [lifecycleStep,step,addInputChannel] at hs
      split at hs
      · cases hs
      · cases hs
        exact h.congr rfl rfl rfl rfl
    | setNoMoreInputChannels =>
      rw [lifecycleStep,step,setNoMoreInputChannels] at hs
      split at hs
      · cases hs
      · cases hs
        exact h.congr rfl rfl rfl rfl
  | setNoMorePages order => exact setNoMorePages_answerable h hs
  | destroy => exact destroy_answerable h hs
  | abort =>
    cases hs
    rw [abortAll]
    split
    · exact h
    · exact h.congr rfl rfl rfl rfl
  | fail =>
    cases hs
    rw [fail]
    split
    · exact h
    · exact h.congr rfl rfl rfl rfl

theorem lifecycle_answerable {snapshots : Bool} {actions : List LifecycleAction}
    (hr : (lifecycle snapshots).run actions = .ok s) : Answerable snapshots s :=
  foldlM_ok (answerable_new snapshots) (fun _ a _ h hs => lifecycleStep_answerable a h hs) hr

end ArbitraryOutputBuffer
end HetuCore.Buffer
