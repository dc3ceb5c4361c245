import HetuCore.Buffer.BufferLifecycle

namespace HetuCore.Buffer
open Foundation Snapshot ClientBuffer List

/-- Nothing that is still queued is for the client: no data page, and only markers of others. -/
def MasterBuffer.Drained (m : MasterBuffer) (client : Nat) : Prop :=
  ∀ e ∈ m.entries, e.targetClients.any (client ∉ ·) = true

theorem MasterBuffer.Drained.getPages {m : MasterBuffer} {client : Nat} (h : m.Drained client) (maxBytes : Nat) :
    m.getPages true client maxBytes = ([],m) := by
  have hs : ∀ entries : List MasterEntry, (∀ e ∈ entries, e.targetClients.any (client ∉ ·) = true) →
      scanPages client maxBytes 0 [] entries = ([],entries) := by
    intro entries
    induction entries with
    | nil => exact fun _ => rfl
    | cons e entries ih =>
      intro ha
      rw [scanPages,if_pos (ha e mem_cons_self),ih fun x hx => ha x (mem_cons_of_mem e hx)]
  rw [MasterBuffer.getPages,if_pos rfl,hs m.entries h]

namespace ArbitraryOutputBuffer
variable {s : ArbitraryOutputBuffer} {id maxSize : Nat} {b : ClientBuffer}

theorem findBuffer_setBuffer {b' : ClientBuffer} (hb : s.findBuffer id = some b) (hid : b'.bufferId = id) :
    (s.setBuffer b').findBuffer id = some b' := by
  obtain ⟨hm,hbd⟩ := mem_of_findBuffer hb
  rw [findBuffer,ArbitraryOutputBuffer.setBuffer,find?_map]
  have hs : ((fun c : ClientBuffer => decide (c.bufferId = id)) ∘ fun c => if c.bufferId = b'.bufferId then b' else c) =
      fun c : ClientBuffer => decide (c.bufferId = id) := by
    funext c
    by_cases hc : c.bufferId = id
    · simp [hc,hid]
    · simp [hc,hid]
  rw [hs,show s.buffers.find? (fun c => decide (c.bufferId = id)) = some b from hb,Option.map_some,if_pos (hbd.trans hid.symm)]

theorem acknowledgePages_nothing (hb : b.bufferedBytes = retainedSize b.pages) (hp : b.pages = [])
    (hl : b.destroyed = false) : b.acknowledgePages b.currentSequenceId = .ok (b,[]) := by
  obtain ⟨bufferId,rowsAdded,pagesAdded,bufferedBytes,currentSequenceId,pages,noMorePages,destroyed,pendingRead⟩ := b
  simp only at hb hp hl
  subst hp hl
  subst hb
  simp [acknowledgePages]
  rfl

/-- The client buffer after a load that found nothing. -/
def told (b : ClientBuffer) (m : MasterBuffer) : ClientBuffer := { b with noMorePages := b.noMorePages || m.isEmpty }

theorem loadPages_drained (hs : s.snapshotState.isSome = true) (hd : s.masterBuffer.Drained b.bufferId)
    (hb : s.findBuffer id = some b) (hp : b.pages = []) (he : s.masterBuffer.noMorePages = true) :
    ∃ added s', s.loadPages b maxSize = .ok (added,s') ∧ s'.findBuffer id = some (told b s.masterBuffer) ∧
      s'.responses = s.responses ∧ s'.futures = s.futures := by
  rw [loadPages]
  by_cases ht : b.noMorePages = true
  · rw [if_pos (.inl ht)]
    refine ⟨false,s,rfl,?_,rfl,rfl⟩
    rw [hb,told,ht,Bool.true_or,← ht]
  · have hc : ¬ (b.noMorePages = true ∨ b.pages ≠ []) := by simp [ht,hp]
    rw [if_neg hc,hs,hd.getPages]
    refine ⟨_,_,rfl,?_,rfl,rfl⟩
    have hl : b.load [] s.masterBuffer.mayHaveMorePages = told b s.masterBuffer := by
      simp [load,addPages,told,MasterBuffer.mayHaveMorePages,he]
    rw [hl]
    exact findBuffer_setBuffer hb (mem_of_findBuffer hb).2

variable {future : Nat}

theorem mem_complete {r : BufferResult} {x : Nat × BufferResult} (hn : s.isDone future = false) :
    x ∈ (s.complete future r).responses ↔ x ∈ s.responses ∨ x = (future,r) := by
  rw [complete,hn,if_neg Bool.false_ne_true,mem_append,mem_singleton]

/-- Waiting reads have other futures than a new one. -/
theorem mem_completeWithEmpty {p : Option PendingRead} {r : BufferResult} (hp : ∀ q ∈ p, q.resultFuture < future) :
    (future,r) ∈ (s.completeWithEmpty p).responses ↔ (future,r) ∈ s.responses := by
  cases p with
  | none => exact .rfl
  | some q =>
    rw [completeWithEmpty,Option.elim_some,complete]
    split
    · exact .rfl
    · have hne : future ≠ q.resultFuture := (hp q rfl).ne'
      simp [hne]

/-- A read at the current position by a client without pages: the end, or waiting. -/
theorem readOrWait_nothing (hp : b.pages = []) : b.readOrWait b.currentSequenceId maxSize future =
      .ok (if b.noMorePages then
        ({ b with pendingRead := none },some (emptyResults b.currentSequenceId true),b.pendingRead)
      else ({ b with pendingRead := some ⟨future,b.currentSequenceId,maxSize⟩ },none,b.pendingRead)) := by
  rw [readOrWait]
  cases hno : b.noMorePages with
  | true =>
    rw [if_pos (.inr (.inl rfl)),processRead,if_neg (Nat.lt_irrefl _),if_pos ⟨hp,rfl⟩]
    rfl
  | false =>
    rw [if_neg (by simp [hp])]
    rfl

theorem get_eq {sequenceId : Int} {added : Bool} {s₁ : ArbitraryOutputBuffer} {b₁ b₂ : ClientBuffer}
    {result : Option BufferResult} {old : Option PendingRead} (hm : 0 < maxSize) (hg : s.getBuffer id = .ok s)
    (hb : s.findBuffer id = some b) (ha : b.acknowledgePages sequenceId = .ok (b,[]))
    (hl : (s.setBuffer b).loadPages b maxSize = .ok (added,s₁)) (hb₁ : s₁.findBuffer id = some b₁)
    (hr : b₁.readOrWait sequenceId.toNat maxSize s₁.futures = .ok (b₂,result,old)) :
    s.get id sequenceId maxSize = .ok ((result.elim ({ s₁ with futures := s₁.futures + 1 }.setBuffer b₂)
      (({ s₁ with futures := s₁.futures + 1 }.setBuffer b₂).complete s₁.futures)).completeWithEmpty old) := by
  have hn : s.references.dereferencePages [] = .ok s.references := rfl
  rw [get,if_neg (not_not.mpr hm),hg]
  simp only [bind,Except.bind,hb,ha,hn,hl,hb₁,hr]
  rfl

theorem get_drained (h : Answerable true s) (hb : s.findBuffer id = some b) (hlv : b.destroyed = false)
    (he : s.masterBuffer.noMorePages = true) (hd : s.masterBuffer.Drained id) (hp : b.pages = [])
    (hmx : 0 < maxSize) : ∃ s', s.get id b.currentSequenceId maxSize = .ok s' ∧
      ((s.futures,emptyResults b.currentSequenceId true) ∈ s'.responses ↔
        b.noMorePages = true ∨ s.masterBuffer.entries = []) := by
  obtain ⟨hm,hid⟩ := mem_of_findBuffer hb
  have hg : s.getBuffer id = .ok s := by
    rw [getBuffer,if_pos (by rw [hb]; rfl)]
    rfl
  have ha := acknowledgePages_nothing (h.bytes b hm) hp hlv
  have hfn : ({ s with references := s.references }.setBuffer b).findBuffer id = some b := findBuffer_setBuffer hb hid
  obtain ⟨added,s₁,hl,hb₁,hrs,hf⟩ := @loadPages_drained ({ s with references := s.references }.setBuffer b)
    id maxSize b h.enabled (hid ▸ hd) hfn hp he
  have hrd := @readOrWait_nothing maxSize (told b s.masterBuffer) s₁.futures hp
  have ho : ∀ q ∈ b.pendingRead, q.resultFuture < s.futures := h.waiting b hm
  have hfr : ∀ r, (s.futures,r) ∉ s.responses := fun r hr => Nat.lt_irrefl _ (h.answered _ hr)
  have ht : (told b s.masterBuffer).noMorePages = true ↔ b.noMorePages = true ∨ s.masterBuffer.entries = [] := by
    rw [told,Bool.or_eq_true,MasterBuffer.isEmpty,decide_eq_true_iff]
  rw [← ht]
  cases hno : (told b s.masterBuffer).noMorePages with
  | true =>
    rw [hno] at hrd
    refine ⟨_,get_eq hmx hg hb ha hl hb₁ hrd,iff_of_true ?_ rfl⟩
    have hn : ∀ c, isDone ({ s₁ with futures := s₁.futures + 1 }.setBuffer c) s₁.futures = false := by
      intro c
      rw [isDone,any_eq_false]
      intro x hx hdn
      have hlt := h.answered x (hrs ▸ hx)
      rw [of_decide_eq_true hdn,hf] at hlt
      exact Nat.lt_irrefl _ hlt
    refine (mem_completeWithEmpty ho).mpr ((mem_complete (hn _)).mpr (.inr ?_))
    rw [hf]
    rfl
  | false =>
    rw [hno] at hrd
    refine ⟨_,get_eq hmx hg hb ha hl hb₁ hrd,iff_of_false ?_ Bool.false_ne_true⟩
    intro hm
    have hm := (mem_completeWithEmpty ho).mp hm
    exact hfr _ (hrs ▸ hm)

/-- In every reachable state in which no more pages come, a live client that has acknowledged
what it was handed, and for which nothing is queued, reads the end of the stream if and only
if it has been told before or nothing at all is queued. -/
theorem read_ends_iff (actions : List LifecycleAction) (s : ArbitraryOutputBuffer) (id maxSize : Nat) (b : ClientBuffer)
    (hrun : (lifecycle true).run actions = .ok s) (hb : s.findBuffer id = some b) (hlive : b.destroyed = false)
    (hend : s.masterBuffer.noMorePages = true) (hdrained : s.masterBuffer.Drained id) (hpages : b.pages = [])
    (hmax : 0 < maxSize) : ∃ s', s.get id b.currentSequenceId maxSize = .ok s' ∧
      ((s.futures,emptyResults b.currentSequenceId true) ∈ s'.responses ↔
        b.noMorePages = true ∨ s.masterBuffer.entries = []) :=
  get_drained (lifecycle_answerable hrun) hb hlive hend hdrained hpages hmax

/-- The first client after it has read and acknowledged the marker. -/
def markerReader (noMorePages : Bool) : ClientBuffer := ⟨0,1,1,0,1,[],noMorePages,false,some ⟨0,0,100⟩⟩

def tenByteMarker : SerializedPage := ⟨.marker ⟨1,false⟩,1,10⟩

def noReplies : ManagerReplies (Nat × Nat) := ⟨fun _ => .noState,fun _ => true⟩

/-- Both clients read the marker; then one is aborted and no more pages come. -/
def drainedRun : List LifecycleAction :=
  [.exchange (.get 0 0 100),.exchange (.get 1 0 100),.exchange (.enqueue [tenByteMarker] none noReplies [0,1]),
    .exchange (.abort 1),.exchange (.acknowledge 0 1),.setNoMorePages [0,1]]

theorem read_ends_iff_drainedRun : ∃ s s', (lifecycle true).run drainedRun = .ok s ∧ s.get 0 1 100 = .ok s' ∧
    (s.futures,emptyResults 1 true) ∈ s'.responses := by
  obtain ⟨s,hs,hb,hm⟩ : ∃ s, (lifecycle true).run drainedRun = .ok s ∧
      s.findBuffer 0 = some (markerReader true) ∧ s.masterBuffer = ⟨[],true⟩ := by
    apply exists_ok
    decide +kernel
  have hd : s.masterBuffer.Drained 0 := fun e he => absurd (hm ▸ he) not_mem_nil
  obtain ⟨s',hs',hi⟩ := read_ends_iff drainedRun s 0 100 (markerReader true) hs hb rfl (hm ▸ rfl) hd rfl (by decide)
  exact ⟨s,s',hs,hs',hi.mpr (.inl rfl)⟩

/-- The second client is aborted before it has read the marker. -/
def abortedRun : List LifecycleAction :=
  [.exchange (.get 0 0 100),.exchange (.acknowledge 1 0),.exchange (.enqueue [tenByteMarker] none noReplies [0,1]),
    .exchange (.abort 1),.exchange (.acknowledge 0 1),.setNoMorePages [0,1]]

/-- The live client has read everything, but the marker of the aborted one keeps it waiting. -/
theorem abortedRun_never_ends : ∃ s s', (lifecycle true).run abortedRun = .ok s ∧ s.get 0 1 100 = .ok s' ∧
    s.findBuffer 0 = some (markerReader false) ∧ (s.findBuffer 1).any ClientBuffer.destroyed = true ∧
    s.masterBuffer = ⟨[⟨⟨0,tenByteMarker⟩,some {1}⟩],true⟩ ∧ s.masterBuffer.mayHaveMorePages = true ∧
    s'.isDone s.futures = false := by
  obtain ⟨s,hs,hb,ha,hm,hr⟩ : ∃ s, (lifecycle true).run abortedRun = .ok s ∧
      s.findBuffer 0 = some (markerReader false) ∧ (s.findBuffer 1).any ClientBuffer.destroyed = true ∧
      s.masterBuffer = ⟨[⟨⟨0,tenByteMarker⟩,some {1}⟩],true⟩ ∧
      (s.get 0 1 100).toOption.any (fun s' => decide (s'.isDone s.futures = false)) = true := by
    apply exists_ok
    decide +kernel
  obtain ⟨s',hs',hw⟩ := exists_ok hr
  exact ⟨s,s',hs,hs',hb,ha,hm,hm ▸ rfl,hw⟩

end ArbitraryOutputBuffer
end HetuCore.Buffer
