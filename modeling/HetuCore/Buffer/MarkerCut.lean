import HetuCore.Buffer.EndOfStream
import HetuCore.Buffer.ThreadRouting

namespace HetuCore.Buffer
open Foundation Snapshot ArbitraryOutputBuffer List

variable {created : List SerializedPageReference} {clients : List Nat} {entries : List MasterEntry}
  {handed : List (Nat × SerializedPageReference)} {client : Nat} {page marker : SerializedPageReference}

/-- What a client is handed by several loads in a row. -/
def MasterBuffer.drain (client maxBytes : Nat) : Nat → MasterBuffer → List SerializedPageReference
  | 0,_ => []
  | k + 1,m => (m.getPages true client maxBytes).1 ++ drain client maxBytes k (m.getPages true client maxBytes).2

/-- A client that goes on loading is handed every page that is queued for it. -/
theorem MasterBuffer.mem_drain {m : MasterBuffer} (maxBytes : Nat) (h : page ∈ pagesFor client m.entries) :
    ∃ k, page ∈ m.drain client maxBytes k := by
  obtain ⟨n,hn⟩ : ∃ n, (pagesFor client m.entries).length = n := ⟨_,rfl⟩
  induction n using Nat.strong_induction_on generalizing m with
  | h n ih =>
    obtain ⟨taken,hp,hs,hne⟩ := scanPages_scanned client maxBytes 0 [] m.entries
    have ho : pagesFor client m.entries = taken ++ pagesFor client (m.getPages true client maxBytes).2.entries := hs.own
    have ht : taken ≠ [] := by
      intro ht
      obtain ⟨e,he,hf,-⟩ := mem_pagesFor.mp h
      rw [MasterEntry.isFor,hne rfl ht e he] at hf
      cases hf
    have hl := length_pos_of_ne_nil ht
    rw [ho] at h hn
    rw [length_append] at hn
    obtain h | h := mem_append.mp h
    · exact ⟨1,mem_append_left _ (hp ▸ h)⟩
    · obtain ⟨k,hk⟩ := ih _ (by omega) h rfl
      exact ⟨k + 1,mem_append_right _ hk⟩

/-- The page is handed to the client while the client has not been handed the marker. -/
def HandedBefore (handed : List (Nat × SerializedPageReference)) (client : Nat) (page marker : SerializedPageReference) : Prop :=
  ∃ before after, handed = before ++ (client,page) :: after ∧ (client,marker) ∉ before

/-- Each data page is queued or has been handed to one client, and each client is handed exactly those data pages before
a marker that came before it. -/
structure ArbitraryOutputBuffer.CutsConsistently (s : ArbitraryOutputBuffer) : Prop where
  once : ∀ page ∈ s.references.created, page.serializedPage.isMarkerPage = false →
    (s.masterBuffer.entries.map MasterEntry.page).count page + (s.handed.map Prod.snd).count page = 1
  cut : ∀ client page, (client,page) ∈ s.handed → page.serializedPage.isMarkerPage = false →
    ∀ marker ∈ s.markers, HandedBefore s.handed client page marker ↔ page.id < marker.id

/-- The marker is queued for the client, which has only been handed earlier pages. Its next load hands it some page up
to the marker, and if it goes on loading it gets the marker. -/
structure ArbitraryOutputBuffer.Awaits (s : ArbitraryOutputBuffer) (client : Nat) (marker : SerializedPageReference) :
    Prop where
  queued : marker ∈ pagesFor client s.masterBuffer.entries
  earlier : ∀ page, (client,page) ∈ s.handed → page.id < marker.id
  drained : ∀ maxSize, ∃ k, marker ∈ s.masterBuffer.drain client maxSize k

section
variable (h : Routed created clients entries handed)
include h

/-- A marker of the stream is behind a page that has been handed, or has been handed before it. -/
theorem Routed.cut (hp : (client,page) ∈ handed) (hd : page.serializedPage.isMarkerPage = false) (hm : marker ∈ created)
    (hk : marker.serializedPage.isMarkerPage = true) : HandedBefore handed client page marker ↔ page.id < marker.id := by
  have hc := (h.given _ hp).1
  have ho := h.ordered client hc
  have hr := h.reach client hc marker hm hk
  have hct : ∀ before after, handed = before ++ (client,page) :: after →
      ((client,marker) ∉ before ↔ page.id < marker.id) := by
    rintro before after rfl
    have hs : stream (before ++ (client,page) :: after) entries client =
        (before.filter (·.1 = client)).map Prod.snd ++ page :: stream after entries client := by simp [stream]
    have hb : marker ∈ (before.filter (·.1 = client)).map Prod.snd ↔ (client,marker) ∈ before := by simp
    rw [hs] at ho hr
    obtain ⟨-,hpa,hba⟩ := pairwise_append.mp ho
    rw [← hb]
    constructor
    · intro hn
      obtain rfl | hr := mem_cons.mp ((mem_append.mp hr).resolve_left hn)
      · exact absurd (hd.symm.trans hk) Bool.false_ne_true
      · exact (pairwise_cons.mp hpa).1 marker hr
    · exact fun hlt hm => Nat.lt_asymm hlt (hba marker hm page mem_cons_self)
  constructor
  · rintro ⟨before,after,hs,hn⟩
    exact (hct before after hs).mp hn
  · intro hlt
    obtain ⟨before,after,hs⟩ := append_of_mem hp
    exact ⟨before,after,hs,(hct before after hs).mpr hlt⟩

/-- A marker has been handed to the client, or it is in the stream behind all that has been. -/
theorem Routed.queued (hc : client ∈ clients) (hm : marker ∈ created) (hk : marker.serializedPage.isMarkerPage = true) :
    (client,marker) ∈ handed ∨
      marker ∈ pagesFor client entries ∧ ∀ page, (client,page) ∈ handed → page.id < marker.id := by
  obtain hr | hr := mem_append.mp (h.reach client hc marker hm hk)
  · exact .inl (by simpa using hr)
  · exact .inr ⟨hr,fun page hp => (pairwise_append.mp (h.ordered client hc)).2.2 page (by simpa using hp) marker hr⟩

end

namespace BufferThreads

/-- A call with enough steps to end, if no other call is in its way. -/
def alone (call : Nat) (action : BufferAction) : List ThreadStep :=
  .call action :: (replicate 12 [.proceed call,.proceedLocked]).flatten

/-- Two clients, a snapshot marker between two data pages, and a client that comes later. -/
def snapshotRun : List ThreadStep :=
  alone 0 (.get 0 0 100) ++ alone 1 (.get 1 0 100) ++ alone 2 (.enqueue [⟨.data [],1,1⟩] (some "source") noReplies [0,1]) ++
    alone 3 (.enqueue [tenByteMarker] none noReplies [0,1]) ++
    alone 4 (.enqueue [⟨.data [],1,1⟩] (some "source") noReplies [0,1]) ++ alone 5 (.get 2 0 100)

theorem snapshotRun_undisturbed : machine.Along (·.undisturbed · = true) snapshotRun :=
  .of_checks (by decide +kernel)

/-- The stored state of the snapshot has a page that was under way. -/
def restoringReplies : ManagerReplies (Nat × Nat) :=
  ⟨fun _ => .loaded [.captured (0,0),.input ⟨.data [1],1,1⟩],fun _ => true⟩

def resumeMarker : SerializedPage := ⟨.marker ⟨1,true⟩,1,1⟩

/-- Two clients wait when the resume marker comes. -/
def resumeRun : List ThreadStep :=
  alone 0 (.get 0 0 100) ++ alone 1 (.get 1 0 100) ++ alone 2 (.enqueue [resumeMarker] (some "source") restoringReplies [0,1])

/-- In every such run each marker that has been released reaches each client that was there, however the run goes on. -/
theorem released_markers_reach_clients (steps later : List ThreadStep) (t t' : BufferThreads)
    (hu : machine.Along (·.undisturbed · = true) (steps ++ later)) (hr : machine.run steps = .ok t)
    (hl : machine.run (steps ++ later) = .ok t') : ∀ client ∈ t.buffer.bufferIds, ∀ marker ∈ t.buffer.markers,
      (client,marker) ∈ t'.buffer.handed ∨ t'.buffer.Awaits client marker := by
  intro client hc marker hm
  have hgr := grows_run hu hr hl
  obtain ⟨hm,hk⟩ := mem_filter.mp hm
  refine ((good_run hu hl).linked.routed.queued (hgr.1 hc) (hgr.2 hm) hk).imp_right fun hq => ?_
  exact ⟨hq.1,hq.2,fun maxSize => MasterBuffer.mem_drain maxSize hq.1⟩

theorem released_markers_reach_clients_snapshotRun : ∃ t, machine.run snapshotRun = .ok t ∧
    (∀ client ∈ [0,1,2], (client,⟨1,tenByteMarker⟩) ∈ t.buffer.handed ∨ t.buffer.Awaits client ⟨1,tenByteMarker⟩) ∧
    (0,⟨1,tenByteMarker⟩) ∉ t.buffer.handed := by
  obtain ⟨t,ht,hi,hm,hn⟩ : ∃ t, machine.run snapshotRun = .ok t ∧ t.buffer.bufferIds = [0,1,2] ∧
      t.buffer.markers = [⟨1,tenByteMarker⟩] ∧ (0,⟨1,tenByteMarker⟩) ∉ t.buffer.handed := by
    apply exists_ok
    decide +kernel
  refine ⟨t,ht,fun client hc => ?_,hn⟩
  exact released_markers_reach_clients snapshotRun [] t t (by rw [append_nil snapshotRun]; exact snapshotRun_undisturbed)
    ht ((congrArg machine.run (append_nil snapshotRun)).trans ht) client (hi ▸ hc) _ (by simp [hm])

/-- The second client is never sent the resume marker. -/
theorem resumeRun_skips_client : ∃ t, machine.run resumeRun = .ok t ∧ 1 ∈ t.buffer.bufferIds ∧
    ⟨0,resumeMarker⟩ ∈ t.buffer.markers ∧ (1,⟨0,resumeMarker⟩) ∉ t.buffer.handed ∧
    t.buffer.masterBuffer.entries = [] := by
  apply exists_ok
  decide +kernel

end BufferThreads
end HetuCore.Buffer
