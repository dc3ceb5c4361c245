import HetuCore.Snapshot.SnapshotReports

namespace HetuCore.Snapshot
open Foundation LinkedMap List
variable {τ : Type}

inductive ManagerAction (τ : Type) where
  | snapshotInitiated (sid : Int)
  | getResumeSnapshotId (saved : Bool)
  | report (r : TaskReport τ)

/-- The manager with the ids initiated so far, the id returned last while its restore has not
succeeded, and the ids from which a restore has succeeded. -/
structure ResumeHistory (τ : Type) where
  manager : QuerySnapshotManager τ
  initiated : List Int
  pending : Option Int
  restored : List Int

namespace ResumeHistory
open QuerySnapshotManager

section History
variable [DecidableEq τ] (h : ResumeHistory τ) (manager : QuerySnapshotManager τ)

def afterRestore : ResumeHistory τ :=
  match h.pending with
  | none => { h with manager := manager }
  | some sid =>
    if manager.restoreSucceeded sid then
      { h with manager := manager, pending := none, restored := sid :: h.restored }
    else { h with manager := manager }

def afterReport : TaskReport τ → ResumeHistory τ
  | .restore .. => h.afterRestore manager
  | _ => { h with manager := manager }

def step : ManagerAction τ → Except String (ResumeHistory τ)
  | .snapshotInitiated sid =>
    pure { h with manager := h.manager.snapshotInitiated sid, initiated := sid :: h.initiated }
  | .getResumeSnapshotId saved =>
    let (result,manager) := h.manager.getResumeSnapshotId saved
    pure { h with manager := manager, pending := result }
  | .report r => do
    let manager ← h.manager.report r
    pure (h.afterReport manager r)

def history (τ : Type) [DecidableEq τ] : Machine (ResumeHistory τ) (ManagerAction τ) :=
  ⟨⟨.new,[0],none,[]⟩,step⟩

/-- Snapshot ids are longs that never decrease, and when the query is resumed once more no snapshot after the one tried
last is in use. Success is reported for captures of snapshots that the query was not resumed from, and for the restore
of the one that it is being resumed from. -/
def Orderly : ManagerAction τ → Prop
  | .snapshotInitiated sid => (∀ earlier ∈ h.initiated, earlier ≤ sid) ∧ sid ≤ longMax
  | .getResumeSnapshotId _ => ∀ tried ∈ h.manager.lastTriedId, ∀ e ∈ h.manager.captureResults.entries,
    tried < e.1 → e.2 = .na
  | .report (.capture _ captureResult) => ∀ entry ∈ captureResult, 0 ≤ entry.1 → entry.2 = .successful →
    entry.1 ∉ h.restored ∧ h.manager.lastTriedId ≠ some entry.1
  | .report (.restore _ _ (some restoreResult)) => 0 ≤ restoreResult.snapshotId →
    restoreResult.snapshotResult = .successful → ∀ tried ∈ h.manager.lastTriedId, restoreResult.snapshotId = tried
  | _ => True

instance (h : ResumeHistory τ) : (a : ManagerAction τ) → Decidable (Orderly h a)
  | .snapshotInitiated _ => inferInstanceAs (Decidable (_ ∧ _))
  | .getResumeSnapshotId _ => inferInstanceAs (Decidable (∀ _ ∈ _, ∀ _ ∈ _, _ → _))
  | .report (.capture _ _) => inferInstanceAs (Decidable (∀ _ ∈ _, _ → _ → _))
  | .report (.restore _ _ (some _)) => inferInstanceAs (Decidable (_ → _ → ∀ _ ∈ _, _))
  | .report (.restore _ _ none) | .report (.newTask _) | .report (.finished _) | .report .invalidateAll
  | .report .restoreStart => inferInstanceAs (Decidable True)

end History

/-- The timeline: usable snapshots are on the list of initiated ones, and one that was resumed from does not become
successful again. -/
structure Timeline (h : ResumeHistory τ) : Prop where
  sorted : h.manager.captureResults.keys.Pairwise (· < ·)
  bounded : ∀ k ∈ h.manager.captureResults.keys, k ∈ h.initiated ∧ k ≤ longMax
  ordered : h.manager.initiatedSnapshotId.Pairwise (· ≤ ·)
  known : ∀ k ∈ h.manager.initiatedSnapshotId, k ∈ h.initiated
  zero : 0 ∈ h.initiated
  live : ∀ e ∈ h.manager.captureResults.entries, e.2 ≠ .na → e.1 ∈ h.manager.initiatedSnapshotId
  tried : ∀ tried ∈ h.manager.lastTriedId,
    tried ∈ h.manager.captureResults.keys ∧ tried ∈ h.manager.initiatedSnapshotId
  pending : ∀ id ∈ h.pending, h.manager.lastTriedId = some id
  restored : ∀ id ∈ h.restored, (id,.successful) ∈ h.manager.captureResults.entries → h.manager.lastTriedId = some id
  capturing : Guarded (fun k => k ∉ h.restored ∧ h.manager.lastTriedId ≠ some k) h.manager.captureComponentCounters
  restoring : Guarded (fun k => ∀ tried ∈ h.manager.lastTriedId, k = tried) h.manager.restoreComponentCounters

variable {h : ResumeHistory τ} {manager : QuerySnapshotManager τ}

section
variable (ht : Timeline h)
include ht

theorem Timeline.reported (hr : Reported (fun k => k ∉ h.restored ∧ h.manager.lastTriedId ≠ some k) h.manager manager) :
    Timeline { h with manager := manager } where
  sorted := by
    rw [hr.keys]
    exact ht.sorted
  bounded := by
    rw [hr.keys]
    exact ht.bounded
  ordered := by
    rw [hr.initiatedSnapshotId]
    exact ht.ordered
  known := by
    rw [hr.initiatedSnapshotId]
    exact ht.known
  zero := ht.zero
  live := by
    intro e he hna
    rw [hr.initiatedSnapshotId]
    obtain he | ⟨-,r,hr,hm⟩ := hr.results e he
    · exact ht.live e he hna
    · exact ht.live (e.1,r) hm hr
  tried := by
    rw [hr.lastTriedId,hr.keys,hr.initiatedSnapshotId]
    exact ht.tried
  pending := by
    rw [hr.lastTriedId]
    exact ht.pending
  restored := by
    rw [hr.lastTriedId]
    intro id hid hm
    obtain hm | ⟨⟨hn,-⟩ | hn,-⟩ := hr.results _ hm
    · exact ht.restored id hid hm
    · exact absurd hid hn
    · exact absurd rfl hn.2
  capturing := by
    rw [hr.lastTriedId]
    exact hr.counters
  restoring := by
    rw [hr.lastTriedId,hr.restoreComponentCounters]
    exact ht.restoring

theorem Timeline.initiate {sid : Int} (hl : ∀ earlier ∈ h.initiated, earlier ≤ sid)
    (hln : sid ≤ longMax) :
    Timeline { h with manager := h.manager.snapshotInitiated sid, initiated := sid :: h.initiated } := by
  refine ⟨?_,?_,?_,?_,mem_cons_of_mem _ ht.zero,?_,?_,ht.pending,?_,ht.capturing,ht.restoring⟩
  · change (h.manager.captureResults.put sid .inProgress).keys.Pairwise (· < ·)
    rw [keys_put]
    split
    · exact ht.sorted
    · rename_i hnw
      refine pairwise_append.mpr ⟨ht.sorted,pairwise_singleton ..,?_⟩
      intro k hk j hj
      cases mem_singleton.mp hj
      have hle := hl k (ht.bounded k hk).1
      have hne : k ≠ sid := fun heq => hnw (heq ▸ hk)
      omega
  · intro k hk
    obtain rfl | hk := mem_keys_put.mp hk
    · exact ⟨mem_cons_self ..,hln⟩
    · exact ⟨mem_cons_of_mem _ (ht.bounded k hk).1,(ht.bounded k hk).2⟩
  · refine pairwise_append.mpr ⟨ht.ordered,pairwise_singleton ..,?_⟩
    intro k hk j hj
    cases mem_singleton.mp hj
    exact hl k (ht.known k hk)
  · exact forall_mem_concat.mpr ⟨fun k hk => mem_cons_of_mem _ (ht.known k hk),mem_cons_self⟩
  · intro e he hna
    obtain rfl | ⟨he,-⟩ := mem_put.mp he
    · exact mem_concat_self
    · exact mem_append_left _ (ht.live e he hna)
  · exact fun tried htr => ⟨mem_keys_put.mpr (.inr (ht.tried tried htr).1),mem_append_left _ (ht.tried tried htr).2⟩
  · intro id hid hm
    obtain heq | ⟨hm,-⟩ := mem_put.mp hm
    · cases heq
    · exact ht.restored id hid hm

theorem Timeline.invalidate : Timeline { h with manager := h.manager.invalidateAllSnapshots } := by
  obtain ⟨results,heq,hk,hna⟩ := h.manager.invalidateAllSnapshots_eq
  rw [heq]
  refine ⟨?_,?_,ht.ordered,ht.known,ht.zero,?_,?_,ht.pending,?_,ht.capturing,ht.restoring⟩
  · rw [hk]
    exact ht.sorted
  · rw [hk]
    exact ht.bounded
  · exact fun e he hne => absurd (hna e he) hne
  · rw [hk]
    exact ht.tried
  · intro id _ hm
    cases hna _ hm

theorem Timeline.restoredFrom {id : Int} (hid : h.manager.lastTriedId = some id) :
    Timeline { h with pending := none, restored := id :: h.restored } where
  sorted := ht.sorted
  bounded := ht.bounded
  ordered := ht.ordered
  known := ht.known
  zero := ht.zero
  live := ht.live
  tried := ht.tried
  pending := by simp
  restored := by
    intro k hk hm
    obtain rfl | hk := mem_cons.mp hk
    · exact hid
    · exact ht.restored k hk hm
  capturing := by
    refine ht.capturing.mono fun k ⟨hn,htr⟩ => ⟨?_,htr⟩
    rintro (_ | ⟨_,hm⟩)
    · exact htr hid
    · exact hn hm
  restoring := ht.restoring

theorem Timeline.giveUp {id : Int} (hid : h.manager.lastTriedId = some id) (hp : h.pending = none)
    (hi : manager.initiatedSnapshotId = h.manager.initiatedSnapshotId)
    (hc : manager.captureComponentCounters = h.manager.captureComponentCounters)
    (hr : manager.captureResults = h.manager.captureResults.put id .failed) (hn : manager.lastTriedId = none) :
    Timeline { h with manager := manager } := by
  obtain ⟨hke,hl⟩ := ht.tried id hid
  have hky : manager.captureResults.keys = h.manager.captureResults.keys := by
    rw [hr,keys_put,if_pos hke]
  have hv {p : Int → Prop} : ∀ k ∈ manager.lastTriedId, p k := by simp [hn]
  refine ⟨?_,?_,?_,?_,ht.zero,?_,hv,?_,?_,?_,fun _ _ => .inl hv⟩
  · rw [hky]
    exact ht.sorted
  · rw [hky]
    exact ht.bounded
  · rw [hi]
    exact ht.ordered
  · rw [hi]
    exact ht.known
  · rw [hr,hi]
    intro e he hna
    obtain rfl | ⟨he,-⟩ := mem_put.mp he
    · exact hl
    · exact ht.live e he hna
  · simp [hp]
  · rw [hr]
    intro k hk hm
    obtain heq | ⟨hm,hne⟩ := mem_put.mp hm
    · cases heq
    · exact absurd (Option.some.inj (hid.symm.trans (ht.restored k hk hm))) (Ne.symm hne)
  · rw [hc,hn]
    exact ht.capturing.mono fun k hk => ⟨hk.1,by simp⟩

/-- Restore reports that change neither the results nor what was tried last. -/
theorem Timeline.keep (hi : manager.initiatedSnapshotId = h.manager.initiatedSnapshotId)
    (hc : manager.captureComponentCounters = h.manager.captureComponentCounters)
    (hrs : manager.captureResults = h.manager.captureResults) (htr : manager.lastTriedId = h.manager.lastTriedId)
    (hr : Guarded (fun k => ∀ tried ∈ h.manager.lastTriedId, k = tried) manager.restoreComponentCounters) :
    Timeline { h with manager := manager } := by
  refine ⟨?_,?_,?_,?_,ht.zero,?_,?_,?_,?_,?_,?_⟩ <;> simp only [hi,hc,hrs,htr]
  exacts [ht.sorted,ht.bounded,ht.ordered,ht.known,ht.live,ht.tried,ht.pending,ht.restored,ht.capturing,hr]

theorem Timeline.restore (hr : Restoring (fun k => ∀ tried ∈ h.manager.lastTriedId, k = tried) h.manager manager) :
    Timeline (h.afterRestore manager) := by
  unfold afterRestore
  obtain ⟨hrs,htr⟩ | ⟨tried,k,htr,hn,hrs,hk,hs⟩ := hr.outcome
  · have hkp := ht.keep hr.initiatedSnapshotId hr.captureComponentCounters hrs htr hr.counters
    split
    · exact hkp
    · rename_i id hp
      split
      · exact hkp.restoredFrom (htr.trans (ht.pending id hp))
      · exact hkp
  · cases hk tried htr
    split
    · rename_i hp
      exact ht.giveUp htr hp hr.initiatedSnapshotId hr.captureComponentCounters hrs hn
    · rename_i id hp
      cases Option.some.inj (htr.symm.trans (ht.pending id hp))
      rw [if_pos hs]
      exact (ht.restoredFrom htr).giveUp htr rfl hr.initiatedSnapshotId hr.captureComponentCounters hrs hn

end

/-- In an ordered list, what is not larger stands before the end of what is cut at the id. -/
private theorem mem_take_indexOf {ids : List Int} (ho : ids.Pairwise (· ≤ ·)) {k id : Int} (hid : id ∈ ids)
    (hk : k ∈ ids) (hle : k ≤ id) : k ∈ ids.take (indexOf ids id + 1).toNat := by
  have hi : (indexOf ids id + 1).toNat = ids.idxOf id + 1 := by simp [indexOf,hid]
  rw [hi]
  have hi' : id ∈ ids.take (ids.idxOf id + 1) := by
    rw [mem_take_iff_idxOf_lt hid]
    omega
  rw [← take_append_drop (ids.idxOf id + 1) ids] at hk ho
  obtain hk | hk := mem_append.mp hk
  · exact hk
  · have hge := (pairwise_append.mp ho).2.2 id hi' k hk
    rwa [show k = id by omega]

theorem Timeline.resume [DecidableEq τ] (ht : Timeline h) {saved : Bool} (ho : Orderly h (.getResumeSnapshotId saved)) :
    Timeline { h with
      manager := (h.manager.getResumeSnapshotId saved).2, pending := (h.manager.getResumeSnapshotId saved).1 } ∧
    ∀ id ∈ (h.manager.getResumeSnapshotId saved).1,
      (h.manager.getResumeSnapshotId saved).2.captureResults.get id = some .successful ∧
      id ∈ h.manager.initiatedSnapshotId ∧ (∀ earlier ∈ h.pending, id < earlier) ∧ id ∉ h.restored := by
  obtain ⟨result,results,heq,hs⟩ := findResumeSnapshotId_eq saved h.manager.lastTriedId ht.sorted
  have hlv : ∀ e ∈ results.entries, e.2 ≠ .na → e ∈ h.manager.captureResults.entries ∧ ∃ id ∈ result, e.1 ≤ id := by
    intro e he hna
    obtain hn' | ⟨hm,hsc⟩ := hs.entries e he
    · exact absurd hn' hna
    · refine ⟨hm,(hsc (mem_keys.mpr ⟨e.2,hm⟩)).resolve_left ?_⟩
      intro hlt
      cases htr : h.manager.lastTriedId with
      | none =>
        rw [htr] at hlt
        have hbn := (ht.bounded e.1 (mem_keys.mpr ⟨e.2,hm⟩)).2
        exact absurd hlt (Int.not_lt.mpr hbn)
      | some tried =>
        rw [htr] at hlt
        exact hna (ho tried htr e hm hlt)
  have hr : ∀ id ∈ h.restored, (id,.successful) ∉ results.entries := by
    intro id hid hm
    obtain ⟨hm',found,hf,hle⟩ := hlv _ hm (by simp)
    have htr := ht.restored id hid hm'
    have hlt := (hs.found found hf).1
    rw [htr] at hlt
    exact absurd hlt (Int.not_lt.mpr hle)
  unfold getResumeSnapshotId
  rw [heq]
  cases result with
  | none =>
    refine ⟨⟨?_,?_,pairwise_singleton ..,?_,ht.zero,?_,by simp,by simp,?_,guarded_empty _,guarded_empty _⟩,by simp⟩
    · exact hs.keys ▸ ht.sorted
    · exact hs.keys ▸ ht.bounded
    · intro k hk
      cases mem_singleton.mp hk
      exact ht.zero
    · intro e he hna
      obtain ⟨-,id,hid,-⟩ := hlv e he hna
      cases hid
    · exact fun id hid hm => absurd hm (hr id hid)
  | some id =>
    obtain ⟨hlt,hb,ha⟩ := hs.found id rfl
    have hl := ht.live _ hb (by simp)
    have hkp : ∀ e ∈ results.entries, e.2 ≠ .na → e.1 ≤ id ∧
        e.1 ∈ h.manager.initiatedSnapshotId.take (indexOf h.manager.initiatedSnapshotId id + 1).toNat := by
      intro e he hna
      obtain ⟨hm,found,hf,hle⟩ := hlv e he hna
      cases hf
      exact ⟨hle,mem_take_indexOf ht.ordered hl (ht.live e hm hna) hle⟩
    refine ⟨⟨?_,?_,?_,?_,ht.zero,?_,?_,by simp,?_,guarded_empty _,guarded_empty _⟩,?_⟩
    · exact hs.keys ▸ ht.sorted
    · exact hs.keys ▸ ht.bounded
    · exact ht.ordered.sublist (take_sublist ..)
    · exact fun k hk => ht.known k (mem_of_mem_take hk)
    · exact fun e he hna => (hkp e he hna).2
    · rintro tried ⟨⟩
      exact ⟨mem_keys.mpr ⟨_,ha⟩,(hkp _ ha (by simp)).2⟩
    · exact fun k hk hm => absurd hm (hr k hk)
    · rintro found ⟨⟩
      refine ⟨get_eq_some.mpr ha,hl,?_,fun hin => hr id hin ha⟩
      intro earlier her
      rw [ht.pending earlier her] at hlt
      exact hlt

variable [DecidableEq τ]

theorem Timeline.init : Timeline (history τ).init := by
  refine ⟨.nil,?_,pairwise_singleton ..,fun _ hk => hk,mem_singleton_self _,?_,?_,?_,?_,guarded_empty _,guarded_empty _⟩
  all_goals simp [history,QuerySnapshotManager.new]

theorem Timeline.report {r : TaskReport τ} (ht : Timeline h) (ho : Orderly h (.report r))
    (hr : h.manager.report r = .ok manager) : Timeline (h.afterReport manager r) := by
  cases r with
  | newTask taskId =>
    cases hr
    exact ht.reported ⟨rfl,rfl,rfl,ht.capturing,fun _ hk => hk,rfl,fun _ he => .inl he⟩
  | capture taskId captureResult => exact ht.reported (reported_updateQueryCapture ht.capturing ho hr)
  | restore recoveryInProgress taskId restoreResult =>
    apply ht.restore
    apply restoring_updateQueryRestore ht.restoring ?_ hr
    rintro r ⟨⟩
    exact ho
  | finished finishedTasks =>
    cases hr
    exact ht.reported (reported_updateCapturedComponents ht.capturing)
  | invalidateAll =>
    cases hr
    exact ht.invalidate
  | restoreStart =>
    cases hr
    apply ht.keep
    all_goals unfold setRestoreStartTime
    all_goals split
    all_goals first | rfl | exact ht.restoring

theorem Timeline.step {a : ManagerAction τ} {h' : ResumeHistory τ} (ht : Timeline h) (ho : Orderly h a)
    (hs : h.step a = .ok h') : Timeline h' := by
  cases a with
  | snapshotInitiated sid =>
    cases hs
    exact ht.initiate ho.1 ho.2
  | getResumeSnapshotId saved =>
    cases hs
    exact (ht.resume ho).1
  | report r =>
    obtain ⟨manager,hm,hr⟩ := bind_ok hs
    cases hr
    exact ht.report ho hm

variable {actions : List (ManagerAction τ)}

theorem timeline_run (hor : (history τ).Along Orderly actions) (hr : (history τ).run actions = .ok h) : Timeline h :=
  Machine.run_along .init (fun _ _ _ ht ho hs => ht.step ho hs) hor hr

/-- In orderly runs a snapshot to resume from is successful, on the timeline, older than the one
whose restore is still pending, and was never restored from. -/
theorem getResumeSnapshotId_timeline {saved : Bool}
    (horderly : (history τ).Along Orderly (actions ++ [.getResumeSnapshotId saved]))
    (hrun : (history τ).run actions = .ok h) {id : Int} (hid : (h.manager.getResumeSnapshotId saved).1 = some id) :
    (h.manager.getResumeSnapshotId saved).2.captureResults.get id = some .successful ∧
      id ∈ h.manager.initiatedSnapshotId ∧ (∀ earlier ∈ h.pending, id < earlier) ∧ id ∉ h.restored := by
  obtain ⟨hor,ho⟩ := (Machine.Along.concat_iff hrun).mp horderly
  exact ((timeline_run hor hrun).resume ho).2 id hid

/-- A snapshot is captured by the only task. -/
def capturedRun : List (ManagerAction Nat) :=
  [.report (.newTask 0),.snapshotInitiated 1,.report (.capture 0 [(1,.successful)])]

/-- The query is resumed from the first snapshot, and the second is initiated before that restore has succeeded; then it
is resumed from the third, and that restore fails. -/
def resumedRun : List (ManagerAction Nat) :=
  capturedRun ++ [.getResumeSnapshotId true,.report (.newTask 0),.snapshotInitiated 2,
    .report (.restore (fun _ => true) 0 (some ⟨1,.successful⟩)),.report (.capture 0 [(2,.successful)]),
    .snapshotInitiated 3,.report (.capture 0 [(3,.successful)]),.getResumeSnapshotId true,.report (.newTask 0),
    .report (.restore (fun _ => true) 0 (some ⟨3,.failed⟩))]

theorem getResumeSnapshotId_timeline_resumedRun : ∃ h, (history Nat).run resumedRun = .ok h ∧ h.pending = some 3 ∧
    h.restored = [1] ∧ (h.manager.getResumeSnapshotId true).1 = some 2 ∧ 2 ∈ h.manager.initiatedSnapshotId := by
  obtain ⟨h,hr,hp,hrs,hid⟩ : ∃ h, (history Nat).run resumedRun = .ok h ∧ h.pending = some 3 ∧ h.restored = [1] ∧
      (h.manager.getResumeSnapshotId true).1 = some 2 := by
    apply exists_ok
    decide +kernel
  have ho : (history Nat).Along Orderly (resumedRun ++ [.getResumeSnapshotId true]) := .of_checks (by decide +kernel)
  exact ⟨h,hr,hp,hrs,hid,(getResumeSnapshotId_timeline ho hr hid).2.1⟩

/-- A second snapshot is initiated and captured while the query is being resumed from the
first; then that restore fails and the query is restarted. -/
def abandonedRun : List (ManagerAction Nat) :=
  capturedRun ++ [.getResumeSnapshotId true,.report (.newTask 0),.snapshotInitiated 2,
    .report (.capture 0 [(2,.successful)]),.report (.restore (fun _ => true) 0 (some ⟨1,.failed⟩)),.getResumeSnapshotId true]

/-- The second snapshot is returned although the restart has cleared the list. -/
theorem abandonedRun_leaves_timeline : ∃ h, (history Nat).run abandonedRun = .ok h ∧
    h.manager.initiatedSnapshotId = [0] ∧ (h.manager.getResumeSnapshotId true).1 = some 2 := by
  apply exists_ok
  decide +kernel

end ResumeHistory
end HetuCore.Snapshot
