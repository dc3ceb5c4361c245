import HetuCore.Buffer.MasterBuffer
import HetuCore.Foundation.Machine
import Mathlib.Data.List.Count
import Mathlib.Data.List.Nodup

/-! The stream of a client: the pages it has been handed, followed by those that are queued for it.
Taking pages leaves the stream of the client as it is. -/
namespace HetuCore.Buffer
open Foundation MasterEntry List

/-- References are numbered in the order in which their pages come. -/
def Precedes (r r' : SerializedPageReference) : Prop := r.id < r'.id

/-- The client may take the page: it is for any one client, or for this one among others. -/
def MasterEntry.isFor (client : Nat) (e : MasterEntry) : Bool := !e.targetClients.any (client ∉ ·)

/-- The queued pages that the client may take, in order. -/
def pagesFor (client : Nat) (entries : List MasterEntry) : List SerializedPageReference :=
  (entries.filter (isFor client)).map page

/-- The pages that the client has been handed or may still be handed, in order. -/
def stream (handed : List (Nat × SerializedPageReference)) (entries : List MasterEntry) (client : Nat) :
    List SerializedPageReference :=
  (handed.filter (·.1 = client)).map Prod.snd ++ pagesFor client entries

variable {client d : Nat} {e : MasterEntry} {entries entries' rest : List MasterEntry}
  {r : SerializedPageReference} {taken : List SerializedPageReference}

theorem pagesFor_append (client : Nat) (entries more : List MasterEntry) :
    pagesFor client (entries ++ more) = pagesFor client entries ++ pagesFor client more := by
  simp [pagesFor]

theorem pagesFor_cons (client : Nat) (e : MasterEntry) (entries : List MasterEntry) :
    pagesFor client (e :: entries) = (if e.isFor client then [e.page] else []) ++ pagesFor client entries := by
  cases h : e.isFor client with
  | false | true => simp [pagesFor,h]

theorem mem_pagesFor : r ∈ pagesFor client entries ↔ ∃ e ∈ entries, e.isFor client = true ∧ e.page = r := by
  simp [pagesFor,and_assoc]

theorem pagesFor_sublist (client : Nat) (entries : List MasterEntry) : pagesFor client entries <+ entries.map page :=
  filter_sublist.map page

/-- Pages that are for the client go to the end of its stream. -/
theorem stream_addPages (handed : List (Nat × SerializedPageReference)) (entries : List MasterEntry)
    {targets : Option (Finset Nat)} (h : ∀ x, isFor client ⟨x,targets⟩ = true) :
    stream handed (entries ++ taken.map fun x => ⟨x,targets⟩) client = stream handed entries client ++ taken := by
  have hal : pagesFor client (taken.map fun x => ⟨x,targets⟩) = taken := by
    rw [pagesFor,filter_eq_self.mpr (by simp [h])]
    simp [Function.comp_def]
  rw [stream,pagesFor_append,hal,← append_assoc]
  rfl

namespace MasterBuffer

/-- An entry stays for the other clients it was for, if there are any. -/
theorem remaining_cases (client : Nat) (e : MasterEntry) :
    remaining client e = none ∧ (e.targetClients.isSome → ∀ d ≠ client, e.isFor d = false) ∨
      ∃ targets, e.targetClients = some targets ∧ targets.erase client ≠ ∅ ∧
        remaining client e = some ⟨e.page,some (targets.erase client)⟩ := by
  cases ht : e.targetClients with
  | none => exact .inl ⟨by simp [remaining,ht],nofun⟩
  | some targets =>
    by_cases he : targets.erase client = ∅
    · refine .inl ⟨by simp [remaining,ht,he],fun _ d hd => ?_⟩
      have hn : d ∉ targets := fun hm => Finset.notMem_empty d (he ▸ Finset.mem_erase_of_ne_of_mem hd hm)
      simp [isFor,ht,hn]
    · exact .inr ⟨targets,rfl,he,by simp [remaining,ht,he]⟩

namespace Scanned
variable (h : Scanned client entries taken rest)
include h

theorem own : pagesFor client entries = taken ++ pagesFor client rest := by
  induction h with
  | stop entries => rfl
  | @skip e entries rest taken hs h ih =>
    have he : e.isFor client = false := by rw [isFor,hs]; rfl
    simp [pagesFor_cons,he,ih]
  | @take e entries rest taken ht h ih =>
    have he : e.isFor client = true := by rw [isFor,Bool.eq_false_iff.mpr ht]; rfl
    have hn : pagesFor client (remaining client e).toList = [] := by
      obtain ⟨hr,-⟩ | ⟨targets,-,-,hr⟩ := remaining_cases client e
      · simp [hr,pagesFor]
      · simp [hr,pagesFor,isFor]
    simp [pagesFor_append,pagesFor_cons,he,hn,ih]

theorem pages : rest.map page <+ entries.map page := by
  induction h with
  | stop entries => exact .refl _
  | skip hs h ih => exact ih.cons_cons _
  | @take e entries rest taken ht h ih =>
    obtain ⟨hr,-⟩ | ⟨targets,-,-,hr⟩ := remaining_cases client e
    · simp [hr,ih]
    · simp [hr,ih]

/-- Nothing that is queued for another client in particular is lost. -/
theorem others (hd : d ≠ client) : pagesFor d rest <+ pagesFor d entries ∧
    ∀ x ∈ entries, x.targetClients.isSome → x.isFor d = true → x.page ∈ pagesFor d rest := by
  induction h with
  | stop entries => exact ⟨.refl _,fun x hx _ hf => mem_pagesFor.mpr ⟨x,hx,hf,rfl⟩⟩
  | @skip e entries rest taken hs h ih =>
    rw [pagesFor_cons,pagesFor_cons]
    exact ⟨(Sublist.refl _).append ih.1,by grind⟩
  | @take e entries rest taken ht h ih =>
    rw [pagesFor_append,pagesFor_cons]
    obtain ⟨hr,hn⟩ | ⟨targets,he,-,hr⟩ := remaining_cases client e
    · rw [hr]
      exact ⟨ih.1.trans (sublist_append_right _ _),by grind⟩
    · have hs : isFor d ⟨e.page,some (targets.erase client)⟩ = e.isFor d := by simp [isFor,he,hd]
      rw [hr,Option.toList_some,pagesFor_cons,hs,append_assoc]
      exact ⟨(Sublist.refl _).append ih.1,by grind⟩

theorem shrunk : ∀ x ∈ rest, ∃ y ∈ entries, y.page = x.page ∧ (x.targetClients = y.targetClients ∨
    ∃ targets, y.targetClients = some targets ∧ x.targetClients = some (targets.erase client) ∧
      targets.erase client ≠ ∅) := by
  induction h with
  | stop entries => grind
  | skip hs h ih => grind
  | @take e entries rest taken ht h ih =>
    obtain ⟨hr,-⟩ | ⟨targets,he,hne,hr⟩ := remaining_cases client e
    · grind
    · simp only [hr,Option.toList_some,mem_append,mem_singleton]
      grind

/-- A page that is for any one client is taken or stays. -/
theorem once (hr : ∀ x ∈ entries, x.page = r → x.targetClients = none) :
    (entries.map page).count r = taken.count r + (rest.map page).count r := by
  induction h with
  | stop entries => simp
  | skip hs h ih => grind
  | @take e entries rest taken ht h ih =>
    obtain ⟨hn,-⟩ | ⟨targets,he,-,hn⟩ := remaining_cases client e
    · grind
    · grind

end Scanned

/-- A marker that is still queued is queued for one more client, and the rest stays as it is. -/
theorem addTarget_spec (h : addTarget r client entries = .ok entries') : entries'.map page = entries.map page ∧
    (∀ d ≠ client, pagesFor d entries' = pagesFor d entries) ∧ pagesFor client entries ⊆ pagesFor client entries' ∧
    (r ∈ entries.map page → r ∈ pagesFor client entries') ∧ ∀ x ∈ entries', x ∈ entries ∨
      ∃ y ∈ entries, ∃ targets, y.targetClients = some targets ∧ x = ⟨y.page,some (insert client targets)⟩ := by
  induction entries generalizing entries' with
  | nil =>
    cases h
    exact ⟨rfl,fun _ _ => rfl,fun _ hx => hx,nofun,nofun⟩
  | cons e entries ih =>
    rw [addTarget] at h
    split at h
    · split at h
      · cases h
      · rename_i targets ht
        cases h
        have hc : isFor client ⟨e.page,some (insert client targets)⟩ = true := by simp [isFor]
        have hd : ∀ d ≠ client, isFor d ⟨e.page,some (insert client targets)⟩ = e.isFor d := by
          intro d hd
          simp [isFor,ht,hd]
        simp only [pagesFor_cons]
        grind
    · obtain ⟨later,hl,h⟩ := bind_ok h
      cases h
      have hi := ih hl
      simp only [pagesFor_cons]
      grind

end MasterBuffer

/-- The page has been created; a marker, and only a marker, has target clients, which are there. -/
structure Filed (created : List SerializedPageReference) (clients : List Nat) (e : MasterEntry) : Prop where
  page : e.page ∈ created
  kind : e.targetClients = none ↔ e.page.serializedPage.isMarkerPage = false
  targets : ∀ targets ∈ e.targetClients, ∀ c ∈ targets, c ∈ clients

/-- Each client's stream is in the order of the pages and has all the markers. -/
structure Routed (created : List SerializedPageReference) (clients : List Nat) (entries : List MasterEntry)
    (handed : List (Nat × SerializedPageReference)) : Prop where
  ids : created.map SerializedPageReference.id = range created.length
  filed : ∀ e ∈ entries, Filed created clients e
  wanted : clients ≠ [] → ∀ e ∈ entries, ∃ c ∈ clients, e.isFor c = true
  given : ∀ x ∈ handed, x.1 ∈ clients ∧ x.2 ∈ created
  sorted : (entries.map page).Pairwise Precedes
  ordered : ∀ c ∈ clients, (stream handed entries c).Pairwise Precedes
  reach : ∀ c ∈ clients, ∀ m ∈ created, m.serializedPage.isMarkerPage = true → m ∈ stream handed entries c
  unread : clients = [] → ∀ m ∈ created, m.serializedPage.isMarkerPage = true → m ∈ entries.map page
  once : ∀ r ∈ created, r.serializedPage.isMarkerPage = false →
    (entries.map page).count r + (handed.map Prod.snd).count r = 1

theorem routed_nil : Routed [] [] [] [] :=
  ⟨rfl,nofun,nofun,nofun,.nil,nofun,nofun,nofun,nofun⟩

namespace Routed
variable {created rs : List SerializedPageReference} {clients : List Nat} {handed : List (Nat × SerializedPageReference)}
  (h : Routed created clients entries handed)
include h

theorem id_lt (hr : r ∈ created) : r.id < created.length := by
  have hm : r.id ∈ created.map SerializedPageReference.id := mem_map_of_mem hr
  rwa [h.ids,mem_range] at hm

theorem queued_created (hr : r ∈ entries.map page) : r ∈ created := by
  obtain ⟨e,he,rfl⟩ := mem_map.mp hr
  exact (h.filed e he).page

theorem stream_created (hr : r ∈ stream handed entries client) : r ∈ created := by
  obtain hr | hr := mem_append.mp hr
  · obtain ⟨x,hx,rfl⟩ := mem_map.mp hr
    exact (h.given x (mem_of_mem_filter hx)).2
  · exact h.queued_created ((pagesFor_sublist client entries).subset hr)

/-- New pages go to the end of every stream. -/
theorem addPages {targets : Option (Finset Nat)}
    (hids : rs.map SerializedPageReference.id = range' created.length rs.length)
    (hk : (targets = none ∧ ∀ x ∈ rs, x.serializedPage.isMarkerPage = false) ∨
      (targets = some clients.toFinset ∧ ∀ x ∈ rs, x.serializedPage.isMarkerPage = true)) :
    Routed (created ++ rs) clients (entries ++ rs.map fun x => ⟨x,targets⟩) handed := by
  have hmp : (entries ++ rs.map fun x => (⟨x,targets⟩ : MasterEntry)).map page = entries.map page ++ rs := by
    simp [Function.comp_def]
  have hge : ∀ x ∈ rs, created.length ≤ x.id := by
    intro x hx
    have hm : x.id ∈ rs.map SerializedPageReference.id := mem_map_of_mem hx
    rw [hids] at hm
    exact (mem_range'_1.mp hm).1
  have hpw : (rs.map SerializedPageReference.id).Pairwise (· < ·) := hids ▸ pairwise_lt_range'
  rw [pairwise_map] at hpw
  have hap : ∀ l, l.Pairwise Precedes → (∀ x ∈ l, x ∈ created) → (l ++ rs).Pairwise Precedes :=
    fun l hl hc => pairwise_append.mpr ⟨hl,hpw,fun x hx y hy => Nat.lt_of_lt_of_le (h.id_lt (hc x hx)) (hge y hy)⟩
  have hfr : ∀ x, ∀ c ∈ clients, isFor c ⟨x,targets⟩ = true := by
    intro x c hc
    obtain ⟨rfl,-⟩ | ⟨rfl,-⟩ := hk
    · rfl
    · simp [isFor,hc]
  have hst : ∀ c ∈ clients, stream handed (entries ++ rs.map fun x => ⟨x,targets⟩) c = stream handed entries c ++ rs :=
    fun c hc => stream_addPages handed entries fun x => hfr x c hc
  refine ⟨?_,fun e he => ?_,fun hne e he => ?_,fun x hx => ?_,hmp ▸ hap _ h.sorted fun x => h.queued_created,fun c hc => ?_,
    fun c hc m hm hmk => ?_,fun hn m hm hmk => ?_,fun x hx hd => ?_⟩
  · rw [map_append,h.ids,hids,length_append,range_eq_range',range_eq_range',← range'_append_1,Nat.zero_add]
  · obtain he | he := mem_append.mp he
    · exact ⟨mem_append_left _ (h.filed e he).page,(h.filed e he).kind,(h.filed e he).targets⟩
    · obtain ⟨x,hx,rfl⟩ := mem_map.mp he
      obtain ⟨rfl,hd⟩ | ⟨rfl,hd⟩ := hk
      · exact ⟨mem_append_right _ hx,by simp [hd x hx],nofun⟩
      · exact ⟨mem_append_right _ hx,by simp [hd x hx],by simp⟩
  · obtain he | he := mem_append.mp he
    · exact h.wanted hne e he
    · obtain ⟨x,hx,rfl⟩ := mem_map.mp he
      exact ⟨_,head_mem hne,hfr x _ (head_mem hne)⟩
  · exact ⟨(h.given x hx).1,mem_append_left _ (h.given x hx).2⟩
  · exact hst c hc ▸ hap _ (h.ordered c hc) fun x => h.stream_created
  · have hr := h.reach c hc m
    grind
  · have hr := h.unread hn m
    grind
  · have hnw : ∀ x ∈ rs, x ∉ created := fun x hx hc => Nat.not_le.mpr (h.id_lt hc) (hge x hx)
    rw [hmp,count_append]
    obtain hx | hx := mem_append.mp hx
    · have ho := h.once x hx hd
      rwa [count_eq_zero_of_not_mem fun hr => hnw x hr hx]
    · have hh : x ∉ handed.map Prod.snd := fun hm => by
        obtain ⟨y,hy,rfl⟩ := mem_map.mp hm
        exact hnw _ hx (h.given y hy).2
      have hnd : rs.Nodup := .of_map _ (hids ▸ nodup_range')
      rw [count_eq_zero_of_not_mem fun he => hnw x hx (h.queued_created he),count_eq_zero_of_not_mem hh,count_eq_one_of_mem hnd hx]

/-- What a client takes moves along its stream; the other streams lose data pages only. -/
theorem take (hc : client ∈ clients) (hs : MasterBuffer.Scanned client entries taken rest) :
    Routed created clients rest (handed ++ taken.map (client,·)) := by
  have hst : stream (handed ++ taken.map (client,·)) rest client = stream handed entries client := by
    simp [stream,hs.own,filter_map,Function.comp_def]
  have hso : ∀ c ≠ client, stream (handed ++ taken.map (client,·)) rest c =
      (handed.filter (·.1 = c)).map Prod.snd ++ pagesFor c rest := by
    intro c hne
    simp [stream,filter_map,Function.comp_def,hne.symm]
  refine ⟨h.ids,fun x hx => ?_,fun hne x hx => ?_,fun x hx => ?_,h.sorted.sublist hs.pages,fun c hm => ?_,
    fun c hm m hmc hmk => ?_,fun hn => absurd (hn ▸ hc) not_mem_nil,fun x hx hd => ?_⟩
  · obtain ⟨y,hy,hp,ht⟩ := hs.shrunk x hx
    obtain ⟨hpc,hkd,htc⟩ := h.filed y hy
    exact ⟨hp ▸ hpc,by grind,by grind⟩
  · obtain ⟨y,hy,hp,ht | ⟨targets,hty,htx,hnt⟩⟩ := hs.shrunk x hx
    · obtain ⟨c,hm,hf⟩ := h.wanted hne y hy
      exact ⟨c,hm,by rw [isFor,ht]; exact hf⟩
    · obtain ⟨c,hm⟩ := Finset.nonempty_iff_ne_empty.mpr hnt
      exact ⟨c,(h.filed y hy).targets targets hty c (Finset.mem_of_mem_erase hm),by simp [isFor,htx,Finset.mem_erase.mp hm]⟩
  · obtain hx | hx := mem_append.mp hx
    · exact h.given x hx
    · obtain ⟨y,hy,rfl⟩ := mem_map.mp hx
      exact ⟨hc,h.stream_created (mem_append_right _ (hs.own ▸ mem_append_left _ hy))⟩
  · by_cases hcc : c = client
    · rw [hcc,hst]
      exact h.ordered client hc
    · exact hso c hcc ▸ (h.ordered c hm).sublist ((Sublist.refl _).append (hs.others hcc).1)
  · by_cases hcc : c = client
    · rw [hcc,hst]
      exact h.reach client hc m hmc hmk
    · rw [hso c hcc]
      refine mem_append.mpr ((mem_append.mp (h.reach c hm m hmc hmk)).imp_right fun hp => ?_)
      obtain ⟨e,he,hf,rfl⟩ := mem_pagesFor.mp hp
      have hk := (h.filed e he).kind
      exact (hs.others hcc).2 e he (Option.isSome_iff_ne_none.mpr (by grind)) hf
  · have ho := hs.once (r := x) fun e he hp => (h.filed e he).kind.mpr (hp ▸ hd)
    have hx := h.once x hx hd
    simp only [map_append,map_map,Function.comp_def,map_id',count_append]
    omega

end Routed

/-- A new client while its markers are inserted, from the last to the first. -/
structure Joining (created : List SerializedPageReference) (clients : List Nat) (client : Nat)
    (before : List MasterEntry) (done : List SerializedPageReference) (entries : List MasterEntry) : Prop where
  filed : ∀ e ∈ entries, Filed created (clients ++ [client]) e
  sorted : (entries.map page).Pairwise Precedes
  others : ∀ c ≠ client, pagesFor c entries = pagesFor c before
  own : ∀ m ∈ done, m ∈ pagesFor client entries
  kept : before.map page ⊆ entries.map page
  pages : ∀ e ∈ entries, e.page ∈ before.map page ∨ e.page ∈ done
  once : ∀ r : SerializedPageReference, r.serializedPage.isMarkerPage = false →
    (entries.map page).count r = (before.map page).count r

section join
variable {created markers : List SerializedPageReference} {clients : List Nat} {before : List MasterEntry}

theorem Joining.insertMarker {done : List SerializedPageReference} (h : Joining created clients client before done entries)
    (hm : r ∈ created ∧ r.serializedPage.isMarkerPage = true) (hl : ∀ m ∈ done, Precedes r m)
    (hf : r ∉ before.map page → ∀ e ∈ before, Precedes r e.page)
    (hi : MasterBuffer.insertMarker client entries r = .ok entries') :
    Joining created clients client before (r :: done) entries' := by
  obtain ⟨hfl,hs,ho,hw,hk,hp,hn⟩ := h
  rw [MasterBuffer.insertMarker] at hi
  split at hi
  · obtain ⟨hpg,ho',hw',hin,hch⟩ := MasterBuffer.addTarget_spec hi
    have hr : r ∈ entries.map page := by grind
    refine ⟨fun e he => ?_,hpg ▸ hs,by grind,by grind,hpg ▸ hk,by grind,hpg ▸ hn⟩
    obtain he | ⟨y,hy,targets,ht,rfl⟩ := hch e he
    · exact hfl e he
    · obtain ⟨hpc,hkd,htc⟩ := hfl y hy
      exact ⟨hpc,by grind,by grind⟩
  · have hr : r ∉ entries.map page := by grind
    cases hi
    refine ⟨fun e he => ?_,pairwise_cons.mpr ⟨by grind,hs⟩,fun c hc => ?_,fun m hd => ?_,by grind,by grind,by grind⟩
    · obtain rfl | he := mem_cons.mp he
      · exact ⟨hm.1,by simp [hm.2],by simp⟩
      · exact hfl e he
    · simp [pagesFor_cons,← ho c hc,isFor,hc]
    · obtain rfl | hd := mem_cons.mp hd
      · simp [pagesFor_cons,isFor]
      · simp [pagesFor_cons,hw m hd]

theorem Joining.insertMarkers (h : Joining created clients client entries [] entries)
    (hm : ∀ r ∈ markers, r ∈ created ∧ r.serializedPage.isMarkerPage = true) (hs : markers.Pairwise Precedes)
    (hf : ∀ r ∈ markers, r ∉ entries.map page → ∀ e ∈ entries, Precedes r e.page)
    (hi : markers.reverse.foldlM (MasterBuffer.insertMarker client) entries = .ok entries') :
    Joining created clients client entries markers entries' := by
  induction markers generalizing entries' with
  | nil =>
    cases hi
    exact h
  | cons r markers ih =>
    rw [reverse_cons,foldlM_append] at hi
    obtain ⟨entries₁,h₁,hi⟩ := bind_ok hi
    obtain ⟨entries₂,h₂,hi⟩ := bind_ok hi
    cases hi
    obtain ⟨hr,hs⟩ := pairwise_cons.mp hs
    have hj := ih (fun x hx => hm x (mem_cons_of_mem _ hx)) hs (fun x hx => hf x (mem_cons_of_mem _ hx)) h₁
    exact hj.insertMarker (hm r mem_cons_self) hr (hf r mem_cons_self) h₂

variable {handed : List (Nat × SerializedPageReference)} (h : Routed created clients entries handed)
include h

/-- A marker that is no longer queued comes before everything that is. -/
theorem Routed.precedes (hr : r ∈ created) (hm : r.serializedPage.isMarkerPage = true) (hn : r ∉ entries.map page) :
    ∀ e ∈ entries, Precedes r e.page := by
  intro e he
  by_cases hc : clients = []
  · exact absurd (h.unread hc r hr hm) hn
  · obtain ⟨c,hc,hf⟩ := h.wanted hc e he
    obtain hx | hx := mem_append.mp (h.reach c hc r hr hm)
    · exact (pairwise_append.mp (h.ordered c hc)).2.2 r hx e.page (mem_pagesFor.mpr ⟨e,he,hf,rfl⟩)
    · exact absurd ((pagesFor_sublist c entries).subset hx) hn

/-- A new client's stream starts with the markers that are no longer queued. -/
theorem Routed.join (hc : client ∉ clients)
    (hi : (created.filter (·.serializedPage.isMarkerPage)).reverse.foldlM (MasterBuffer.insertMarker client) entries =
      .ok entries') : Routed created (clients ++ [client]) entries' handed := by
  have hcr : (created.map SerializedPageReference.id).Pairwise (· < ·) := h.ids ▸ pairwise_lt_range
  rw [pairwise_map] at hcr
  have hj₀ : Joining created clients client entries [] entries :=
    ⟨fun e he => ⟨(h.filed e he).page,(h.filed e he).kind,fun ts ht c hc => mem_append_left _ ((h.filed e he).targets ts ht c hc)⟩,
      h.sorted,fun _ _ => rfl,nofun,fun _ hx => hx,fun _ he => .inl (mem_map_of_mem he),fun _ _ => rfl⟩
  have hj := hj₀.insertMarkers (fun r hr => mem_filter.mp hr) (hcr.filter _)
    (fun r hr => h.precedes (mem_of_mem_filter hr) (mem_filter.mp hr).2) hi
  have hne : stream handed entries' client = pagesFor client entries' := by
    have hn : handed.filter (·.1 = client) = [] :=
      filter_eq_nil_iff.mpr fun x hx heq => hc (of_decide_eq_true heq ▸ (h.given x hx).1)
    simp [stream,hn]
  have hst : ∀ c ∈ clients, stream handed entries' c = stream handed entries c := by
    intro c hm
    rw [stream,hj.others c fun heq => hc (heq ▸ hm)]
    rfl
  have hcl : ∀ c ∈ clients ++ [client], c ∈ clients ∨ c = client := by simp
  refine ⟨h.ids,hj.filed,fun _ e he => ?_,fun x hx => ⟨mem_append_left _ (h.given x hx).1,(h.given x hx).2⟩,hj.sorted,
    fun c hm => ?_,fun c hm m hmc hmk => ?_,by simp,fun r hr hd => hj.once r hd ▸ h.once r hr hd⟩
  · refine ⟨client,mem_append_right _ mem_cons_self,?_⟩
    cases hk : e.page.serializedPage.isMarkerPage with
    | false => rw [isFor,(hj.filed e he).kind.mpr hk]; rfl
    | true =>
      obtain ⟨x,hx,hf,hp⟩ := mem_pagesFor.mp (hj.own _ (mem_filter.mpr ⟨(hj.filed e he).page,hk⟩))
      have hu : (entries'.map page).Nodup :=
        nodup_iff_pairwise_ne.mpr (hj.sorted.imp fun hlt heq => Nat.ne_of_lt hlt (congrArg _ heq))
      exact inj_on_of_nodup_map hu hx he hp ▸ hf
  · obtain hm | rfl := hcl c hm
    · exact hst c hm ▸ h.ordered c hm
    · exact hne ▸ hj.sorted.sublist (pagesFor_sublist c entries')
  · obtain hm | rfl := hcl c hm
    · exact hst c hm ▸ h.reach c hm m hmc hmk
    · exact hne ▸ hj.own m (mem_filter.mpr ⟨hmc,hmk⟩)

end join
end HetuCore.Buffer
