import HetuCore.Buffer.ClientExchange

namespace HetuCore.Buffer
open Foundation SerializedPageReference List Option

/-- The buffer holds the pages that were added and not yet acknowledged. -/
structure ClientBuffer.Holds (b : ClientBuffer) (added : List SerializedPageReference) : Prop where
  pages : b.pages = added.drop b.currentSequenceId
  pagesAdded : b.pagesAdded = added.length
  current : b.currentSequenceId ≤ added.length
  bytes : b.bufferedBytes = retainedSize b.pages
  live : b.destroyed = false
  pending : ∀ p ∈ b.pendingRead, p.sequenceId ≤ b.currentSequenceId

/-- A response carries a segment of the added pages, and says complete only at their end. -/
structure BufferResult.Serves (r : BufferResult) (added : List SerializedPageReference) (noMorePages : Bool) : Prop where
  order : r.token ≤ r.nextToken
  bound : r.nextToken ≤ added.length
  pages : r.serializedPages = ((added.take r.nextToken).drop r.token).map serializedPage
  complete : r.bufferComplete = true → noMorePages = true ∧ r.token = added.length

variable {r : BufferResult}

namespace BufferResult.Serves

variable {added : List SerializedPageReference}

theorem emptyResults {token : Nat} (h : token ≤ added.length) (noMorePages : Bool) :
    (emptyResults token false).Serves added noMorePages := by
  refine ⟨Nat.le_refl _,h,?_,fun hc => nomatch hc⟩
  rw [drop_eq_nil_of_le (by rw [length_take]; exact Nat.min_le_left _ _)]
  rfl

theorem append (h : r.Serves added false) (more : List SerializedPageReference) : r.Serves (added ++ more) false := by
  refine ⟨h.order,?_,?_,fun hc => nomatch (h.complete hc).1⟩
  · rw [length_append]
    exact Nat.le_trans h.bound (Nat.le_add_right _ _)
  · rw [take_append_of_le_length h.bound]
    exact h.pages

theorem noMorePages {b : Bool} (h : r.Serves added b) : r.Serves added true :=
  ⟨h.order,h.bound,h.pages,fun hc => ⟨rfl,(h.complete hc).2⟩⟩

end BufferResult.Serves

namespace ClientBuffer.Holds
variable {b : ClientBuffer} {added : List SerializedPageReference}

section
variable (h : b.Holds added)
include h

theorem length : b.currentSequenceId + b.pages.length = b.pagesAdded := by
  have hc := h.current
  rw [h.pages,h.pagesAdded,length_drop]
  omega

theorem withoutPending : ({ b with pendingRead := none } : ClientBuffer).Holds added :=
  ⟨h.pages,h.pagesAdded,h.current,h.bytes,h.live,fun _ hp => nomatch hp⟩

theorem addPages (pages : List SerializedPageReference) : (b.addPages pages).Holds (added ++ pages) where
  pages := by
    rw [ClientBuffer.addPages,drop_append_of_le_length h.current,h.pages]
  pagesAdded := by
    rw [ClientBuffer.addPages,length_append,h.pagesAdded]
  current := by
    rw [length_append]
    exact Nat.le_trans h.current (Nat.le_add_right _ _)
  bytes := by
    have hb := h.bytes
    simp only [ClientBuffer.addPages,retainedSize_append]
    omega
  live := h.live
  pending := h.pending

/-- A read at or before the current position never fails its check. -/
theorem processRead {sequenceId : Nat} (hs : sequenceId ≤ b.currentSequenceId) (maxSize : Nat) :
    ∃ r, b.processRead sequenceId maxSize = .ok r ∧ r.Serves added b.noMorePages := by
  have hcr := h.current
  unfold ClientBuffer.processRead
  by_cases hlt : sequenceId < b.currentSequenceId
  · exact ⟨_,if_pos hlt,.emptyResults (by omega) _⟩
  · rw [if_neg hlt]
    have heq : sequenceId = b.currentSequenceId := by omega
    by_cases he : b.pages = [] ∧ b.noMorePages = true
    · have hl : b.currentSequenceId = added.length := by
        have hn := he.1
        rw [h.pages,drop_eq_nil_iff] at hn
        omega
      obtain ⟨ho,hb,hp,-⟩ := BufferResult.Serves.emptyResults hcr b.noMorePages
      exact ⟨_,if_pos he,ho,hb,hp,fun _ => ⟨he.2,hl⟩⟩
    · obtain ⟨k,hk,hr,-⟩ := readPages_spec maxSize 0 [] b.pages
      rw [if_neg he,if_neg (not_not.mpr heq),hr,nil_append]
      rw [h.pages,length_drop] at hk
      refine ⟨_,rfl,Nat.le_add_right _ _,?_,?_,fun hc => nomatch hc⟩
      · simp only [length_map,length_take]
        omega
      · simp only [length_map,length_take,h.pages,length_drop]
        rw [heq,Nat.min_eq_left hk,drop_take,Nat.add_sub_cancel_left]

/-- Acknowledging up to the end of the added pages never fails a check. -/
theorem acknowledgePages {token : Nat} (ht : token ≤ added.length) :
    ∃ b' removed, b.acknowledgePages token = .ok (b',removed) ∧ b'.Holds added ∧
      b'.currentSequenceId = max b.currentSequenceId token ∧ b'.noMorePages = b.noMorePages := by
  have hl := h.length
  rw [h.pagesAdded] at hl
  unfold ClientBuffer.acknowledgePages
  rw [if_neg (by omega),h.live,if_neg Bool.false_ne_true]
  by_cases hlt : (token : Int) < b.currentSequenceId
  · exact ⟨b,[],if_pos hlt,h,by omega,rfl⟩
  · rw [if_neg hlt]
    have hr : ((token : Int) - b.currentSequenceId).toNat = token - b.currentSequenceId := by omega
    have hs : retainedSize b.pages = retainedSize (b.pages.take (token - b.currentSequenceId)) +
        retainedSize (b.pages.drop (token - b.currentSequenceId)) := by
      rw [← retainedSize_append,take_append_drop]
    have hb := h.bytes
    simp only [hr]
    rw [if_neg (by omega),if_neg (by omega)]
    refine ⟨_,_,rfl,⟨?_,h.pagesAdded,?_,?_,rfl,?_⟩,?_,rfl⟩
    · simp only [h.pages,drop_drop]
    · simp only
      omega
    · simp only
      omega
    · intro p hp
      have hle := h.pending p hp
      simp only
      omega
    · simp only
      omega

/-- The locked block of a read answers properly or waits at the current position. -/
theorem readOrWait {sequenceId : Nat} (hs : sequenceId ≤ b.currentSequenceId) (maxSize future : Nat) :
    ∃ b' result, b.readOrWait sequenceId maxSize future = .ok (b',result,b.pendingRead) ∧ b'.Holds added ∧
      b'.currentSequenceId = b.currentSequenceId ∧ b'.noMorePages = b.noMorePages ∧
      ∀ r ∈ result, r.Serves added b.noMorePages := by
  unfold ClientBuffer.readOrWait
  split
  · obtain ⟨r,hr,hsr⟩ := h.withoutPending.processRead hs maxSize
    refine ⟨{ b with pendingRead := none },some r,?_,h.withoutPending,rfl,rfl,fun x hx => ?_⟩
    · rw [hr]
      rfl
    · rw [← mem_some_iff.mp hx]
      exact hsr
  · refine ⟨_,none,rfl,⟨h.pages,h.pagesAdded,h.current,h.bytes,h.live,fun p hp => ?_⟩,rfl,rfl,fun x hx => nomatch hx⟩
    rw [← mem_some_iff.mp hp]
    exact hs

end

end ClientBuffer.Holds

namespace Exchange
variable {s : Exchange} {added : List SerializedPageReference}

/-- A call in flight reads at or before the current position, or carries a proper response. -/
def TaskGood (b : ClientBuffer) (added : List SerializedPageReference) : ExchangeTask → Prop
  | .read sequenceId _ => sequenceId ≤ b.currentSequenceId
  | .completeWithEmpty p => p.sequenceId ≤ b.currentSequenceId
  | .processRead p => p.sequenceId ≤ b.currentSequenceId
  | .computeResult p => p.sequenceId ≤ b.currentSequenceId
  | .setResult _ r => r.Serves added b.noMorePages

/-- The buffer side of the invariant: what is held, in flight and sent. -/
structure Sound (s : Exchange) (added : List SerializedPageReference) : Prop where
  buffer : s.buffer.Holds added
  tasks : ∀ task ∈ s.tasks, TaskGood s.buffer added task
  results : ∀ x ∈ s.results, x.2.Serves added s.buffer.noMorePages

/-- The client side: what it has accepted and which tokens it may send. -/
structure Client (c : ExchangeClient) (b : ClientBuffer) (added : List SerializedPageReference) : Prop where
  expected : c.expected ≤ added.length
  current : b.currentSequenceId ≤ c.expected
  tokens : ∀ t ∈ c.tokens, t ≤ c.expected
  accepted : c.accepted = (added.take c.expected).map serializedPage
  complete : c.complete = true → b.noMorePages = true ∧ c.expected = added.length

variable {b b' : ClientBuffer} {task : ExchangeTask} {actions : List ExchangeAction}

variable {added' : List SerializedPageReference}

theorem TaskGood.imp (h : TaskGood b added task) (hc : b.currentSequenceId ≤ b'.currentSequenceId)
    (hr : ∀ r : BufferResult, r.Serves added b.noMorePages → r.Serves added' b'.noMorePages) :
    TaskGood b' added' task := by
  cases task with
  | setResult p r => exact hr r h
  | read sequenceId maxSize | completeWithEmpty p | processRead p | computeResult p => exact Nat.le_trans h hc

section
variable (h : s.Sound added)
include h

theorem Sound.imp {b : ClientBuffer} (hb : b.Holds added') (hc : s.buffer.currentSequenceId ≤ b.currentSequenceId)
    (hr : ∀ r : BufferResult, r.Serves added s.buffer.noMorePages → r.Serves added' b.noMorePages) :
    ({ s with buffer := b } : Exchange).Sound added' :=
  ⟨hb,fun task ht => (h.tasks task ht).imp hc hr,fun x hx => hr _ (h.results x hx)⟩

theorem Sound.withBuffer {b : ClientBuffer} (hb : b.Holds added)
    (hc : s.buffer.currentSequenceId ≤ b.currentSequenceId) (hn : b.noMorePages = s.buffer.noMorePages) :
    ({ s with buffer := b } : Exchange).Sound added := h.imp hb hc fun _ hr => hn.symm ▸ hr

theorem Sound.spawn (ht : TaskGood s.buffer added task) : (s.spawn task).Sound added :=
  ⟨h.buffer,forall_mem_concat.mpr ⟨h.tasks,ht⟩,h.results⟩

theorem Sound.complete (future : Nat) (hr : r.Serves added s.buffer.noMorePages) :
    (s.complete future r).Sound added ∧ (s.complete future r).buffer = s.buffer := by
  unfold Exchange.complete
  split
  · exact ⟨h,rfl⟩
  · exact ⟨⟨h.buffer,h.tasks,forall_mem_concat.mpr ⟨h.results,hr⟩⟩,rfl⟩

theorem Sound.dropTask (i : Nat) :
    ({ s with tasks := s.tasks.eraseIdx i } : Exchange).Sound added :=
  ⟨h.buffer,fun task ht => h.tasks task (mem_of_mem_eraseIdx ht),h.results⟩

end

/-- What the blocks after a call leave alone. -/
structure Keeps (s s' : Exchange) : Prop where
  client : s'.client = s.client
  current : s'.buffer.currentSequenceId = s.buffer.currentSequenceId
  noMorePages : s'.buffer.noMorePages = s.buffer.noMorePages

theorem complete_keeps (s : Exchange) (future : Nat) (r : BufferResult) : Keeps s (s.complete future r) := by
  unfold Exchange.complete
  split
  · exact ⟨rfl,rfl,rfl⟩
  · exact ⟨rfl,rfl,rfl⟩

theorem runTask_read (h : s.Sound added) {sequenceId : Nat} (hs : sequenceId ≤ s.buffer.currentSequenceId)
    (maxSize : Nat) : ∃ s', s.runTask (.read sequenceId maxSize) = .ok s' ∧ s'.Sound added ∧ Keeps s s' := by
  obtain ⟨b,result,hrd,hb,hc,hn,hr⟩ := h.buffer.readOrWait hs maxSize s.futures
  have ho := h.buffer.pending
  have hst : ({ s with buffer := b, futures := s.futures + 1 } : Exchange).Sound added :=
    have hm := h.withBuffer hb (Nat.le_of_eq hc.symm) hn
    ⟨hb,hm.tasks,hm.results⟩
  have hrs : ∃ s₁, result.elim ({ s with buffer := b, futures := s.futures + 1 } : Exchange)
      (complete ({ s with buffer := b, futures := s.futures + 1 } : Exchange) s.futures) = s₁ ∧ s₁.Sound added ∧
      s₁.buffer = b ∧ s₁.client = s.client := by
    cases result with
    | none => exact ⟨_,rfl,hst,rfl,rfl⟩
    | some r =>
      obtain ⟨hsn,hbf⟩ := hst.complete s.futures (r := r) (by simpa only [hn] using hr r rfl)
      exact ⟨_,rfl,hsn,hbf,(complete_keeps _ _ _).client⟩
  obtain ⟨s₁,hs₁,hsn,hbf,hcl⟩ := hrs
  refine ⟨s.buffer.pendingRead.elim s₁ fun p => s₁.spawn (.completeWithEmpty p),?_,?_⟩
  · simp only [runTask,hrd,bind,Except.bind,hs₁]
    rfl
  · cases hp : s.buffer.pendingRead with
    | none => exact ⟨hsn,hcl,by rw [elim_none,hbf,hc],by rw [elim_none,hbf,hn]⟩
    | some p =>
      have hsq : p.sequenceId ≤ s₁.buffer.currentSequenceId := by
        rw [hbf,hc]
        exact ho p hp
      exact ⟨hsn.spawn hsq,hcl,by rw [elim_some,spawn,hbf,hc],by rw [elim_some,spawn,hbf,hn]⟩

theorem runTask_spec (h : s.Sound added) (ht : TaskGood s.buffer added task) :
    ∃ s', s.runTask task = .ok s' ∧ s'.Sound added ∧ Keeps s s' := by
  cases task with
  | read sequenceId maxSize => exact runTask_read h ht maxSize
  | completeWithEmpty p =>
    have hs := BufferResult.Serves.emptyResults (Nat.le_trans ht h.buffer.current) s.buffer.noMorePages
    exact ⟨_,rfl,(h.complete _ hs).1,complete_keeps _ _ _⟩
  | processRead p =>
    refine ⟨_,rfl,?_⟩
    split
    · exact ⟨h,rfl,rfl,rfl⟩
    · exact ⟨h.spawn ht,rfl,rfl,rfl⟩
  | computeResult p =>
    obtain ⟨r,hr,hs⟩ := h.buffer.processRead ht p.maxSize
    refine ⟨s.spawn (.setResult p r),?_,h.spawn hs,rfl,rfl,rfl⟩
    rw [runTask,hr]
    rfl
  | setResult p r => exact ⟨_,rfl,(h.complete _ ht).1,complete_keeps _ _ _⟩

variable {c : ExchangeClient}

theorem Client.receive {b : ClientBuffer} (h : Client c b added)
    (hr : r.Serves added b.noMorePages) : Client (c.receive r) b added := by
  unfold ExchangeClient.receive
  split
  · rename_i htk
    have hcr := h.current
    have ho := hr.order
    refine ⟨hr.bound,by simp only; omega,?_,?_,?_⟩
    · intro t ht
      obtain rfl | ht := mem_cons.mp ht
      · exact Nat.le_refl _
      · have := h.tokens t ht
        simp only
        omega
    · simp only [h.accepted,hr.pages,htk,← map_append]
      have hta : added.take c.expected = (added.take r.nextToken).take c.expected := by
        rw [take_take,Nat.min_eq_left (by omega)]
      rw [hta,take_append_drop]
    · intro hc
      have hb := hr.bound
      obtain hc | hc := (Bool.or_eq_true _ _).mp hc
      · obtain ⟨hn,he⟩ := h.complete hc
        exact ⟨hn,by simp only; omega⟩
      · obtain ⟨hn,he⟩ := hr.complete hc
        exact ⟨hn,by simp only; omega⟩
  · exact h

theorem Client.keep (h : Client c b added) (hc : b'.currentSequenceId ≤ c.expected)
    (hn : b'.noMorePages = b.noMorePages) : Client c b' added :=
  ⟨h.expected,hc,h.tokens,h.accepted,fun hcm => hn.symm ▸ h.complete hcm⟩

structure Good (actions : List ExchangeAction) (s : Exchange) : Prop where
  sound : s.Sound (enqueuedPages actions)
  client : Client s.client s.buffer (enqueuedPages actions)
  noMorePages : s.buffer.noMorePages = noMorePagesSet actions

theorem good_new (bufferId : Nat) : Good [] (.new bufferId) :=
  ⟨⟨⟨rfl,rfl,Nat.le_refl _,rfl,rfl,fun _ hp => nomatch hp⟩,fun _ ht => (nomatch ht),fun _ hx => nomatch hx⟩,
    ⟨Nat.le_refl _,Nat.le_refl _,by simp [new,ExchangeClient.new],rfl,fun hc => nomatch hc⟩,rfl⟩

theorem Good.quiet {s' : Exchange} {a : ExchangeAction} (h : Good actions s) (hp : enqueuedPages [a] = [])
    (hs : noMorePagesSet [a] = false) (hsn : s'.Sound (enqueuedPages actions))
    (hc : Client s'.client s'.buffer (enqueuedPages actions)) (hn : s'.buffer.noMorePages = s.buffer.noMorePages) :
    Good (actions ++ [a]) s' := by
  have heq : enqueuedPages (actions ++ [a]) = enqueuedPages actions := by
    rw [enqueuedPages_concat,hp,append_nil,ite_self]
  have hs' : noMorePagesSet (actions ++ [a]) = noMorePagesSet actions := by
    simp only [noMorePagesSet] at hs ⊢
    simp [of_decide_eq_false hs]
  exact ⟨heq ▸ hsn,heq ▸ hc,by rw [hn,h.noMorePages,hs']⟩

theorem Good.acknowledge (h : Good actions s) {token : Nat} (ht : token ∈ s.client.tokens) :
    ∃ b removed, s.buffer.acknowledgePages token = .ok (b,removed) ∧ token ≤ b.currentSequenceId ∧
      ({ s with buffer := b } : Exchange).Sound (enqueuedPages actions) ∧ Client s.client b (enqueuedPages actions) ∧
      b.noMorePages = s.buffer.noMorePages := by
  have htk := h.client.tokens token ht
  have he := h.client.expected
  have hcr := h.client.current
  obtain ⟨b,removed,hb,hh,hc,hn⟩ := h.sound.buffer.acknowledgePages (Nat.le_trans htk he)
  exact ⟨b,removed,hb,by omega,h.sound.withBuffer hh (by omega) hn,h.client.keep (by omega) hn,hn⟩

theorem Sound.elim_spawn (h : s.Sound added) {pending : Option PendingRead}
    (hp : ∀ p ∈ pending, p.sequenceId ≤ s.buffer.currentSequenceId) :
    ∃ s', (pending.elim s fun p => s.spawn (.processRead p)) = s' ∧ s'.Sound added ∧ Keeps s s' := by
  cases pending with
  | none => exact ⟨_,rfl,h,rfl,rfl,rfl⟩
  | some p => exact ⟨_,rfl,h.spawn (hp p rfl),rfl,rfl,rfl⟩

theorem Sound.addPages (h : s.Sound added) (hn : s.buffer.noMorePages = false)
    (pages : List SerializedPageReference) :
    ({ s with buffer := { s.buffer.addPages pages with pendingRead := none } } : Exchange).Sound (added ++ pages) := by
  refine h.imp (h.buffer.addPages pages).withoutPending le_rfl fun r hr => ?_
  simp only [ClientBuffer.addPages,hn] at hr ⊢
  exact hr.append pages

theorem Sound.setNoMorePages (h : s.Sound added) :
    ({ s with buffer := { s.buffer with noMorePages := true, pendingRead := none } } : Exchange).Sound added :=
  h.imp ⟨h.buffer.pages,h.buffer.pagesAdded,h.buffer.current,h.buffer.bytes,h.buffer.live,fun _ hp => nomatch hp⟩
    le_rfl fun _ hr => hr.noMorePages

theorem Client.append {c' : ExchangeClient} (h : Client c b added) (hn : b.noMorePages = false) (hcl : c' = c)
    (hc : b'.currentSequenceId = b.currentSequenceId) (pages : List SerializedPageReference) :
    Client c' b' (added ++ pages) := by
  subst hcl
  refine ⟨?_,by rw [hc]; exact h.current,h.tokens,?_,fun hcm => ?_⟩
  · rw [length_append]
    exact Nat.le_trans h.expected (Nat.le_add_right _ _)
  · rw [take_append_of_le_length h.expected]
    exact h.accepted
  · have he := (h.complete hcm).1
    rw [hn] at he
    exact nomatch he

theorem step_enqueuePages (h : Good actions s) (pages : List SerializedPageReference) :
    ∃ s', s.step (.enqueuePages pages) = .ok s' ∧ Good (actions ++ [.enqueuePages pages]) s' := by
  have hs : noMorePagesSet (actions ++ [.enqueuePages pages]) = noMorePagesSet actions := by simp [noMorePagesSet]
  have ha := enqueuedPages_concat actions (.enqueuePages pages)
  rw [← h.noMorePages,enqueuedPages,enqueuedPages,append_nil] at ha
  by_cases hn : s.buffer.noMorePages = true
  · rw [if_pos hn] at ha
    refine ⟨s,?_,ha ▸ h.sound,ha ▸ h.client,by rw [hs]; exact h.noMorePages⟩
    rw [step,ClientBuffer.enqueuePages,if_pos hn]
    rfl
  · rw [if_neg hn] at ha
    have hn' := Bool.eq_false_iff.mpr hn
    obtain ⟨s',hs',hsn,hk⟩ := (h.sound.addPages hn' pages).elim_spawn h.sound.buffer.pending
    refine ⟨s',?_,ha ▸ hsn,ha ▸ h.client.append hn' hk.client hk.current pages,?_⟩
    · rw [step,ClientBuffer.enqueuePages,if_neg hn,← hs']
      rfl
    · rw [hk.noMorePages,hs]
      exact h.noMorePages

theorem step_setNoMorePages (h : Good actions s) :
    ∃ s', s.step .setNoMorePages = .ok s' ∧ Good (actions ++ [.setNoMorePages]) s' := by
  have hs : noMorePagesSet (actions ++ [.setNoMorePages]) = true := by simp [noMorePagesSet]
  have ha : enqueuedPages (actions ++ [.setNoMorePages]) = enqueuedPages actions := by
    rw [enqueuedPages_concat,enqueuedPages,append_nil,ite_self]
  by_cases hn : s.buffer.noMorePages = true
  · refine ⟨s,?_,ha ▸ h.sound,ha ▸ h.client,by rw [hs]; exact hn⟩
    rw [step,ClientBuffer.setNoMorePages,if_pos hn]
    rfl
  · obtain ⟨s',hs',hsn,hk⟩ := h.sound.setNoMorePages.elim_spawn h.sound.buffer.pending
    have hc := h.client.append (Bool.eq_false_iff.mpr hn) hk.client hk.current []
    rw [append_nil] at hc
    refine ⟨s',?_,ha ▸ hsn,ha ▸ hc,by rw [hk.noMorePages,hs]⟩
    rw [step,ClientBuffer.setNoMorePages,if_neg hn,← hs']
    rfl

theorem step_good (h : Good actions s) (a : ExchangeAction) : ∃ s', s.step a = .ok s' ∧ Good (actions ++ [a]) s' := by
  cases a with
  | enqueuePages pages => exact step_enqueuePages h pages
  | setNoMorePages => exact step_setNoMorePages h
  | acknowledgePages i =>
    cases hi : s.client.tokens[i]? with
    | none => exact ⟨s,by rw [step,hi]; rfl,h.quiet rfl rfl h.sound h.client rfl⟩
    | some token =>
      obtain ⟨b,removed,hb,-,hs,hc,hn⟩ := h.acknowledge (mem_of_getElem? hi)
      exact ⟨{ s with buffer := b },by rw [step,hi]; simp only [hb]; rfl,h.quiet rfl rfl hs hc hn⟩
  | getPages i maxSize =>
    cases hi : s.client.tokens[i]? with
    | none => exact ⟨s,by rw [step,hi]; rfl,h.quiet rfl rfl h.sound h.client rfl⟩
    | some token =>
      obtain ⟨b,removed,hb,hle,hs,hc,hn⟩ := h.acknowledge (mem_of_getElem? hi)
      refine ⟨({ s with buffer := b } : Exchange).spawn (.read token maxSize),by rw [step,hi]; simp only [hb]; rfl,?_⟩
      exact h.quiet rfl rfl (hs.spawn hle) hc hn
  | resume i =>
    cases hi : s.tasks[i]? with
    | none => exact ⟨s,by rw [step,hi]; rfl,h.quiet rfl rfl h.sound h.client rfl⟩
    | some task =>
      have ht := h.sound.tasks task (mem_of_getElem? hi)
      obtain ⟨s',hs',hs,hk⟩ := runTask_spec (h.sound.dropTask i) ht
      refine ⟨s',by rw [step,hi]; exact hs',h.quiet rfl rfl hs ?_ hk.noMorePages⟩
      rw [hk.client]
      exact h.client.keep (by rw [hk.current]; exact h.client.current) hk.noMorePages
  | deliver i =>
    cases hi : s.results[i]? with
    | none => exact ⟨s,by rw [step,hi]; rfl,h.quiet rfl rfl h.sound h.client rfl⟩
    | some x =>
      have hsr := h.sound.results x (mem_of_getElem? hi)
      refine ⟨{ s with client := s.client.receive x.2 },by rw [step,hi]; rfl,?_⟩
      exact h.quiet rfl rfl ⟨h.sound.buffer,h.sound.tasks,h.sound.results⟩ (h.client.receive hsr) rfl

end Exchange

/-- After every run no check has failed, the accepted pages are a prefix of the enqueued
ones, a complete response was accepted only after all of them, and the counters of the
buffer agree with what it holds. -/
theorem exchange_delivers_prefix (bufferId : Nat) (actions : List ExchangeAction) :
    ∃ s, (exchangeMachine bufferId).run actions = .ok s ∧
      s.client.accepted <+: (enqueuedPages actions).map serializedPage ∧ (s.client.complete = true →
        s.client.accepted = (enqueuedPages actions).map serializedPage ∧ .setNoMorePages ∈ actions) ∧
      s.buffer.currentSequenceId + s.buffer.pages.length = s.buffer.pagesAdded ∧
      s.buffer.pagesAdded = (enqueuedPages actions).length ∧
      s.buffer.bufferedBytes = retainedSize s.buffer.pages := by
  obtain ⟨s,hs,hg⟩ := Machine.run_total (m := exchangeMachine bufferId) (Exchange.good_new bufferId)
    (fun _ _ a h => Exchange.step_good h a) actions
  have hcl := hg.client
  refine ⟨s,hs,?_,fun hc => ?_,hg.sound.buffer.length,hg.sound.buffer.pagesAdded,hg.sound.buffer.bytes⟩
  · rw [hcl.accepted]
    exact (List.take_prefix _ _).map _
  · obtain ⟨hn,he⟩ := hcl.complete hc
    rw [hg.noMorePages] at hn
    exact ⟨by rw [hcl.accepted,he,take_length],of_decide_eq_true hn⟩

/-- A read that waits is answered by the page enqueued later, the next one by the end. -/
example : ((exchangeMachine 0).run [.getPages 0 8,.resume 0,.enqueuePages [⟨0,⟨.data [1],1,4⟩⟩],.resume 0,.resume 0,
    .resume 0,.deliver 0,.deliver 0,.setNoMorePages,.getPages 0 8,.resume 0,.deliver 1]).map
      (fun s => (s.client.accepted,s.client.complete)) = .ok ([⟨.data [1],1,4⟩],true) := by
  decide

end HetuCore.Buffer
