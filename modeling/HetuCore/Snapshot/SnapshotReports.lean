import HetuCore.Snapshot.QuerySnapshotManager

namespace HetuCore.Snapshot
open Foundation LinkedMap SnapshotComponentCounter List
variable {τ : Type}

/-- A result that later reports do not make successful. -/
def SnapshotResult.Spoiled (result : SnapshotResult) : Prop := result ≠ .inProgress ∧ result ≠ .successful

theorem spoiled_withState {result : SnapshotResult} {state : ComponentState}
    (h : result.Spoiled ∨ state ≠ .successful) : (withState result state).Spoiled := by
  cases result <;> cases state <;> simp_all [SnapshotResult.Spoiled,withState]

theorem spoiled_doneResult {result : SnapshotResult} (h : result.Spoiled) : (doneResult result).Spoiled := by
  cases result <;> simp_all [SnapshotResult.Spoiled,doneResult]

theorem spoiled_updateComponent [DecidableEq τ] {counter : SnapshotComponentCounter τ} {checkComplete : List τ → Bool}
    {checkFinishedTask : Option (τ → Bool)} {stateId : τ} {state : ComponentState}
    (h : counter.snapshotResult.Spoiled ∨ state ≠ .successful ∧ counter.componentMap.get stateId = none) :
    (counter.updateComponent checkComplete checkFinishedTask stateId state).2.snapshotResult.Spoiled := by
  have hw : (withState counter.snapshotResult state).Spoiled := spoiled_withState (h.imp_right And.left)
  unfold updateComponent
  split
  · rename_i ho
    refine h.resolve_right fun hn => ?_
    simp [hn.2] at ho
  · dsimp only
    split
    · exact spoiled_doneResult hw
    · exact hw

/-- Each counter is of an allowed snapshot, or cannot become successful. -/
def Guarded (allowed : Int → Prop) (counters : LinkedMap Int (SnapshotComponentCounter τ)) : Prop :=
  ∀ e ∈ counters.entries, allowed e.1 ∨ e.2.snapshotResult.Spoiled

theorem guarded_empty (allowed : Int → Prop) : Guarded allowed (.empty : LinkedMap Int (SnapshotComponentCounter τ)) := by
  simp [Guarded]

section
variable {allowed : Int → Prop} {counters : LinkedMap Int (SnapshotComponentCounter τ)} (h : Guarded allowed counters)
include h

theorem Guarded.mono {allowed' : Int → Prop} (ha : ∀ k, allowed k → allowed' k) : Guarded allowed' counters :=
  fun e he => (h e he).imp_left (ha e.1)

theorem Guarded.put {sid : Int} {counter : SnapshotComponentCounter τ}
    (hc : allowed sid ∨ counter.snapshotResult.Spoiled) : Guarded allowed (counters.put sid counter) := by
  intro e he
  obtain rfl | ⟨he,-⟩ := mem_put.mp he
  · exact hc
  · exact h e he

/-- A report of success is allowed if the snapshot is, or if it has a counter. -/
theorem Guarded.updateComponent [DecidableEq τ] {sid : Int} {state : ComponentState}
    (ha : allowed sid ∨ state ≠ .successful ∨ sid ∈ counters.keys) (checkComplete : List τ → Bool)
    (checkFinishedTask : Option (τ → Bool)) (taskId : τ) :
    allowed sid ∨ (((counters.get sid).getD .new).updateComponent checkComplete checkFinishedTask taskId
      state).2.snapshotResult.Spoiled := by
  cases hg : counters.get sid with
  | some counter => exact (h _ (get_eq_some.mp hg)).imp_right fun hs => spoiled_updateComponent (.inl hs)
  | none =>
    refine ha.imp_right fun hs => spoiled_updateComponent (.inr ⟨hs.resolve_right fun hk => ?_,rfl⟩)
    obtain ⟨counter,hm⟩ := mem_keys.mp hk
    cases hg.symm.trans (get_eq_some.mpr hm)

end

namespace QuerySnapshotManager
variable {m m' m'' : QuerySnapshotManager τ}

section Capture

/-- What capture reports do: only statuses of snapshots that are still usable change, and only allowed ones become
successful. -/
structure Reported (allowed : Int → Prop) (m m' : QuerySnapshotManager τ) : Prop where
  lastTriedId : m'.lastTriedId = m.lastTriedId
  initiatedSnapshotId : m'.initiatedSnapshotId = m.initiatedSnapshotId
  restoreComponentCounters : m'.restoreComponentCounters = m.restoreComponentCounters
  counters : Guarded allowed m'.captureComponentCounters
  counted : m.captureComponentCounters.keys ⊆ m'.captureComponentCounters.keys
  keys : m'.captureResults.keys = m.captureResults.keys
  results : ∀ e ∈ m'.captureResults.entries, e ∈ m.captureResults.entries ∨
    (allowed e.1 ∨ e.2.Spoiled) ∧ ∃ r, r ≠ .na ∧ (e.1,r) ∈ m.captureResults.entries

variable {allowed : Int → Prop}

theorem Reported.refl (h : Guarded allowed m.captureComponentCounters) : Reported allowed m m :=
  ⟨rfl,rfl,rfl,h,fun _ hk => hk,rfl,fun _ he => .inl he⟩

theorem Reported.trans (h : Reported allowed m m') (h' : Reported allowed m' m'') : Reported allowed m m'' where
  lastTriedId := h'.lastTriedId.trans h.lastTriedId
  initiatedSnapshotId := h'.initiatedSnapshotId.trans h.initiatedSnapshotId
  restoreComponentCounters := h'.restoreComponentCounters.trans h.restoreComponentCounters
  counters := h'.counters
  counted := fun _ hk => h'.counted (h.counted hk)
  keys := h'.keys.trans h.keys
  results := by
    intro e he
    obtain he | ⟨ha,r,hr,hm⟩ := h'.results e he
    · exact h.results e he
    · refine .inr ⟨ha,?_⟩
      obtain hm | ⟨-,hb⟩ := h.results _ hm
      · exact ⟨r,hr,hm⟩
      · exact hb

/-- A loop of reports about snapshots that have a counter. -/
theorem reported_foldl {α : Type} {f : QuerySnapshotManager τ → α → QuerySnapshotManager τ} {items : List α}
    {sid : α → Int} (h : Guarded allowed m.captureComponentCounters)
    (hi : ∀ a ∈ items, sid a ∈ m.captureComponentCounters.keys)
    (hf : ∀ m, ∀ a ∈ items, Guarded allowed m.captureComponentCounters →
      sid a ∈ m.captureComponentCounters.keys → Reported allowed m (f m a)) :
    Reported allowed m (items.foldl f m) := by
  induction items generalizing m with
  | nil => exact .refl h
  | cons a items ih =>
    obtain ⟨ha,hi⟩ := forall_mem_cons.mp hi
    have hfr := hf m a (mem_cons_self ..) h ha
    exact hfr.trans (ih hfr.counters (fun a ha => hfr.counted (hi a ha)) fun m a ha => hf m a (mem_cons_of_mem _ ha))

variable {sid : Int} {taskId : τ}

section
variable (h : Guarded allowed m.captureComponentCounters)
include h

theorem reported_putCounter {counter : SnapshotComponentCounter τ}
    (hc : allowed sid ∨ counter.snapshotResult.Spoiled) :
    Reported allowed m { m with captureComponentCounters := m.captureComponentCounters.put sid counter } :=
  ⟨rfl,rfl,rfl,h.put hc,fun _ hk => mem_keys_put.mpr (.inr hk),rfl,fun _ he => .inl he⟩

theorem reported_updateSnapshotStatus {status : SnapshotResult} (ha : allowed sid ∨ status.Spoiled)
    (hu : (m.captureResults.get sid).any (· ≠ .na)) :
    Reported allowed m (m.updateSnapshotStatus sid status) := by
  cases hg : m.captureResults.get sid with
  | none => simp [hg] at hu
  | some r =>
    have hna : r ≠ .na := by simpa [hg] using hu
    have hm := get_eq_some.mp hg
    refine ⟨rfl,rfl,rfl,h,fun _ hk => hk,?_,?_⟩
    · exact (keys_put ..).trans (if_pos (mem_keys.mpr ⟨r,hm⟩))
    · intro e he
      obtain rfl | ⟨he,-⟩ := mem_put.mp he
      · exact .inr ⟨ha,r,hna,hm⟩
      · exact .inl he

variable [DecidableEq τ]

theorem reported_updateComponentCapture {componentState : ComponentState}
    (ha : allowed sid ∨ componentState ≠ .successful ∨ sid ∈ m.captureComponentCounters.keys) :
    Reported allowed m (m.updateComponentCapture sid taskId componentState) := by
  have hc := h.updateComponent ha m.complete (some fun task => task ∉ m.unfinishedTasks) taskId
  have hp := reported_putCounter h hc
  unfold updateComponentCapture
  dsimp only
  split
  · rename_i hu
    exact hp.trans (reported_updateSnapshotStatus hp.counters hc hu.2)
  · exact hp

theorem reported_updateTaskCapture {result : SnapshotResult}
    (ha : allowed sid ∨ result ≠ .successful ∨ sid ∈ m.captureComponentCounters.keys) :
    Reported allowed m (m.updateTaskCapture taskId sid result) := by
  cases result with
  | successful => exact reported_updateComponentCapture h (ha.imp_right fun hs => .inr (hs.resolve_left (by simp)))
  | failed => exact reported_updateComponentCapture h (.inr (.inl nofun))
  | _ => exact .refl h

theorem reported_updateCapturedComponents {capturedTasks : List τ} :
    Reported allowed m (m.updateCapturedComponents capturedTasks) := by
  unfold updateCapturedComponents
  split
  · have hr : Reported allowed m
        { m with unfinishedTasks := m.unfinishedTasks.filter fun task => task ∉ capturedTasks } :=
      ⟨rfl,rfl,rfl,h,fun _ hk => hk,rfl,fun _ he => .inl he⟩
    refine hr.trans (reported_foldl h (fun _ hk => hk) fun m₁ sid _ h₁ hk₁ => ?_)
    exact reported_foldl h₁ (fun _ _ => hk₁) fun m₂ taskId _ h₂ hk₂ => reported_updateTaskCapture h₂ (.inr (.inr hk₂))
  · exact .refl h

theorem reported_updateQueryCapture {captureResult : List (Int × SnapshotResult)}
    (ha : ∀ e ∈ captureResult, 0 ≤ e.1 → e.2 = .successful → allowed e.1)
    (hr : m.updateQueryCapture taskId captureResult = .ok m') :
    Reported allowed m m' := by
  induction captureResult generalizing m with
  | nil =>
    cases hr
    exact .refl h
  | cons e captureResult ih =>
    rw [updateQueryCapture,foldlM_cons] at hr
    obtain ⟨m₁,hm₁,hrs⟩ := bind_ok hr
    have hf : Reported allowed m m₁ := by
      split at hm₁
      · split at hm₁
        · cases hm₁
          exact reported_updateCapturedComponents h
        · cases hm₁
      · rename_i hn
        cases hm₁
        refine reported_updateTaskCapture h ?_
        by_cases hs : e.2 = .successful
        · exact .inl (ha e (mem_cons_self ..) (Int.not_lt.mp hn) hs)
        · exact .inr (.inl hs)
    exact hf.trans (ih hf.counters (fun d hd => ha d (mem_cons_of_mem _ hd)) hrs)

end

end Capture

section Restore
variable {allowed : Int → Prop}

/-- All tasks have reported that they restored the snapshot. -/
def restoreSucceeded (m : QuerySnapshotManager τ) (sid : Int) : Bool :=
  (m.restoreComponentCounters.get sid).any fun counter => counter.snapshotResult = .successful

/-- What restore reports do: at most the status of the snapshot tried last changes, when the
restore of an allowed snapshot has succeeded. -/
structure Restoring (allowed : Int → Prop) (m m' : QuerySnapshotManager τ) : Prop where
  initiatedSnapshotId : m'.initiatedSnapshotId = m.initiatedSnapshotId
  captureComponentCounters : m'.captureComponentCounters = m.captureComponentCounters
  counters : Guarded allowed m'.restoreComponentCounters
  outcome : m'.captureResults = m.captureResults ∧ m'.lastTriedId = m.lastTriedId ∨
    ∃ tried k, m.lastTriedId = some tried ∧ m'.lastTriedId = none ∧
      m'.captureResults = m.captureResults.put tried .failed ∧ allowed k ∧ m'.restoreSucceeded k

theorem Restoring.refl (h : Guarded allowed m.restoreComponentCounters) : Restoring allowed m m :=
  ⟨rfl,rfl,h,.inl ⟨rfl,rfl⟩⟩

theorem queryRestoreComplete_cases (m : QuerySnapshotManager τ) (recovering : Bool) :
    m.queryRestoreComplete recovering = m ∨
    m.queryRestoreComplete recovering = { m with restoreInitiated := false } ∨
    m.restoreResult.snapshotResult = .successful ∧ ∃ tried, m.lastTriedId = some tried ∧
      m.queryRestoreComplete recovering =
        { m with restoreInitiated := false, captureResults := m.captureResults.put tried .failed, lastTriedId := none } := by
  unfold queryRestoreComplete
  split
  · exact .inl rfl
  · split
    · rename_i hs
      cases ht : m.lastTriedId with
      | none => exact .inr (.inl rfl)
      | some tried => exact .inr (.inr ⟨hs,tried,rfl,rfl⟩)
    · exact .inl rfl

variable {sid : Int} {taskId : τ} {componentState : ComponentState}

variable (recovering : Bool)

theorem restoring_queryRestoreComplete (h : Guarded allowed m.restoreComponentCounters)
    (hr : (m.restoreComponentCounters.get sid).map (·.snapshotResult) = some m.restoreResult.snapshotResult) :
    Restoring allowed m (m.queryRestoreComplete recovering) := by
  obtain hsm | hsm | ⟨hs,tried,ht,hd⟩ := m.queryRestoreComplete_cases recovering
  · rw [hsm]
    exact .refl h
  · rw [hsm]
    exact ⟨rfl,rfl,h,.inl ⟨rfl,rfl⟩⟩
  · rw [hd]
    obtain ⟨counter,hcn,hc⟩ := Option.map_eq_some_iff.mp hr
    have ha : allowed sid := (h _ (get_eq_some.mp hcn)).resolve_right fun hn => hn.2 (hc.trans hs)
    refine ⟨rfl,rfl,h,.inr ⟨tried,sid,ht,rfl,rfl,ha,?_⟩⟩
    simp only [restoreSucceeded,hcn,Option.any_some,hc,hs,decide_true]

variable [DecidableEq τ]

private theorem updateComponent_successful {counter : SnapshotComponentCounter τ} {checkComplete : List τ → Bool}
    {checkFinishedTask : Option (τ → Bool)} (h : counter.snapshotResult = .successful) :
    (counter.updateComponent checkComplete checkFinishedTask taskId .successful).2.snapshotResult = .successful := by
  have hs : withState counter.snapshotResult .successful = .successful := by
    simp [withState,h]
  unfold updateComponent
  split
  · exact h
  · dsimp only
    rw [hs]
    split
    · rfl
    · rfl

theorem restoreComponentCounters_updateComponentRestore :
    (m.updateComponentRestore recovering sid taskId componentState).restoreComponentCounters =
      m.restoreComponentCounters.put sid (((m.restoreComponentCounters.get sid).getD .new).updateComponent
        m.complete none taskId componentState).2 := by
  have hc (m : QuerySnapshotManager τ) :
      (m.queryRestoreComplete recovering).restoreComponentCounters = m.restoreComponentCounters := by
    obtain hs | hs | ⟨-,tried,-,hs⟩ := m.queryRestoreComplete_cases recovering
    · rw [hs]
    · rw [hs]
    · rw [hs]
  unfold updateComponentRestore
  dsimp only
  split
  · split
    · split
      · exact hc _
      · split
        · exact hc _
        · rfl
    · rfl
  · rfl

theorem succeeded_updateComponentRestore {sid k : Int} (h : m.restoreSucceeded k) :
    restoreSucceeded (m.updateComponentRestore recovering sid taskId .successful) k := by
  cases hc : m.restoreComponentCounters.get k with
  | none => simp [restoreSucceeded,hc] at h
  | some counter =>
    have hs : counter.snapshotResult = .successful := by
      simpa [restoreSucceeded,hc] using h
    rw [restoreSucceeded,restoreComponentCounters_updateComponentRestore,get_put]
    split
    · rename_i hk
      rw [← hk,hc]
      simpa using updateComponent_successful hs
    · exact h

section
variable (h : Guarded allowed m.restoreComponentCounters)
include h

theorem restoring_updateComponentRestore
    (ha : allowed sid ∨ componentState ≠ .successful ∨ sid ∈ m.restoreComponentCounters.keys) :
    Restoring allowed m (m.updateComponentRestore recovering sid taskId componentState) := by
  have hu := h.updateComponent ha m.complete none taskId
  have hk := h.put hu
  have hc (counter : SnapshotComponentCounter τ) (hu : allowed sid ∨ counter.snapshotResult.Spoiled)
      (restoreResult : RestoreResult) (hr : restoreResult.snapshotResult = counter.snapshotResult) :
      Restoring allowed m (queryRestoreComplete
        { m with restoreComponentCounters := m.restoreComponentCounters.put sid counter, restoreResult := restoreResult }
        recovering) := by
    have hg : ((m.restoreComponentCounters.put sid counter).get sid).map (·.snapshotResult) =
        some restoreResult.snapshotResult := by
      simp [get_put,hr]
    have hd := restoring_queryRestoreComplete (m := { m with
      restoreComponentCounters := m.restoreComponentCounters.put sid counter, restoreResult := restoreResult })
      recovering (h.put hu) hg
    exact ⟨hd.1,hd.2,hd.3,hd.4⟩
  unfold updateComponentRestore
  dsimp only
  split
  · split
    · split
      · exact hc _ hu _ rfl
      · split
        · exact hc _ hu _ rfl
        · exact ⟨rfl,rfl,hk,.inl ⟨rfl,rfl⟩⟩
    · exact ⟨rfl,rfl,hk,.inl ⟨rfl,rfl⟩⟩
  · exact ⟨rfl,rfl,hk,.inl ⟨rfl,rfl⟩⟩

theorem restoring_foldl {ids : List Int} (recovering : Int → Bool) (hi : ids ⊆ m.restoreComponentCounters.keys) :
    Restoring allowed m
      (ids.foldl (fun m sid => m.updateComponentRestore (recovering sid) sid taskId .successful) m) := by
  have hkp {k : Int} : ∀ (ids : List Int) (m : QuerySnapshotManager τ), m.restoreSucceeded k → restoreSucceeded
        (ids.foldl (fun m sid => m.updateComponentRestore (recovering sid) sid taskId .successful) m) k := by
    intro ids
    induction ids with
    | nil => exact fun _ hm => hm
    | cons sid ids ih => exact fun m hm => ih _ (succeeded_updateComponentRestore _ hm)
  induction ids generalizing m with
  | nil => exact .refl h
  | cons sid ids ih =>
    have hf : Restoring allowed m (m.updateComponentRestore (recovering sid) sid taskId .successful) :=
      restoring_updateComponentRestore _ h (.inr (.inr (hi (mem_cons_self ..))))
    have hrs := ih hf.counters fun k hk => by
      rw [restoreComponentCounters_updateComponentRestore]
      exact mem_keys_put.mpr (.inr (hi (mem_cons_of_mem _ hk)))
    refine ⟨hrs.1.trans hf.1,hrs.2.trans hf.2,hrs.3,?_⟩
    obtain ⟨hr,ht⟩ | ⟨tried,k,ht,hn,hr,hk,hs⟩ := hf.outcome
    · rw [← hr,← ht]
      exact hrs.outcome
    · obtain ⟨hr',ht'⟩ | ⟨tried',-,hsm,-⟩ := hrs.outcome
      · exact .inr ⟨tried,k,ht,ht'.trans hn,hr'.trans hr,hk,hkp ids _ hs⟩
      · rw [hn] at hsm
        cases hsm

theorem restoring_updateTaskRestore {result : SnapshotResult} (ha : result = .successful → allowed sid) :
    Restoring allowed m (m.updateTaskRestore recovering taskId sid result) := by
  cases result with
  | successful => exact restoring_updateComponentRestore _ h (.inl (ha rfl))
  | failed | failedFatal => exact restoring_updateComponentRestore _ h (.inr (.inl nofun))
  | _ => exact .refl h

theorem restoring_updateQueryRestore {recovering : Int → Bool} {restoreResult : Option RestoreResult}
    (ha : ∀ r ∈ restoreResult, 0 ≤ r.snapshotId → r.snapshotResult = .successful → allowed r.snapshotId)
    (hr : m.updateQueryRestore recovering taskId restoreResult = .ok m') : Restoring allowed m m' := by
  cases restoreResult with
  | none =>
    cases hr
    exact .refl h
  | some r =>
    have hn := ha _ rfl
    rw [updateQueryRestore] at hr
    split at hr
    · split at hr
      · cases hr
        exact restoring_foldl h recovering fun _ hk => hk
      · cases hr
    · rename_i hng
      cases hr
      exact restoring_updateTaskRestore _ h (hn (Int.not_lt.mp hng))

end

end Restore

section Resume

theorem invalidateAllSnapshots_eq (m : QuerySnapshotManager τ) :
    ∃ results, m.invalidateAllSnapshots = { m with captureResults := results } ∧
      results.keys = m.captureResults.keys ∧ ∀ e ∈ results.entries, e.2 = .na := by
  suffices hf : ∀ (ids : List Int) (m : QuerySnapshotManager τ), (∀ k ∈ ids, k ∈ m.captureResults.keys) →
      ∃ results, ids.foldl (fun m sid => m.updateSnapshotStatus sid .na) m =
        { m with captureResults := results } ∧ results.keys = m.captureResults.keys ∧
        ∀ e ∈ results.entries, e.2 = .na ∨ e.1 ∉ ids ∧ e ∈ m.captureResults.entries by
    obtain ⟨results,heq,hky,hr⟩ := hf m.captureResults.keys m fun _ hk => hk
    refine ⟨results,heq,hky,?_⟩
    intro e he
    obtain hna | ⟨hn,hm⟩ := hr e he
    · exact hna
    · exact absurd (mem_keys.mpr ⟨e.2,hm⟩) hn
  intro ids
  induction ids with
  | nil => exact fun m _ => ⟨m.captureResults,rfl,rfl,fun e he => .inr ⟨not_mem_nil,he⟩⟩
  | cons sid ids ih =>
    intro m hi
    have hp : (m.captureResults.put sid .na).keys = m.captureResults.keys :=
      (keys_put ..).trans (if_pos (hi _ (mem_cons_self ..)))
    obtain ⟨results,heq,hky,hr⟩ := ih (m.updateSnapshotStatus sid .na) fun k hk =>
      hp ▸ hi k (mem_cons_of_mem _ hk)
    refine ⟨results,heq,hky.trans hp,?_⟩
    intro e he
    obtain hna | ⟨hn,hm⟩ := hr e he
    · exact .inl hna
    · obtain rfl | ⟨hm,hne⟩ := mem_put.mp hm
      · exact .inl rfl
      · exact .inr ⟨by simp [hne,hn],hm⟩

/-- What the search for a snapshot to resume from does: statuses become unusable down to the
result, and only there. -/
structure Backtracked (beforeThis : Int) (scanned : List Int) (m : QuerySnapshotManager τ) (result : Option Int)
    (results : LinkedMap Int SnapshotResult) : Prop where
  keys : results.keys = m.captureResults.keys
  found : ∀ id ∈ result, id < beforeThis ∧ (id,.successful) ∈ m.captureResults.entries ∧ (id,.successful) ∈ results.entries
  entries : ∀ e ∈ results.entries, e.2 = .na ∨ e ∈ m.captureResults.entries ∧
    (e.1 ∈ scanned → beforeThis < e.1 ∨ ∃ id ∈ result, e.1 ≤ id)

theorem backtrack_eq (beforeThis : Int) {newest : List (Int × SnapshotResult)}
    (hn : newest.Pairwise fun a b => b.1 < a.1) (m : QuerySnapshotManager τ)
    (hm : ∀ e ∈ newest, e ∈ m.captureResults.entries) :
    ∃ result results, m.backtrack beforeThis newest = (result,{ m with captureResults := results }) ∧
      Backtracked beforeThis (newest.map Prod.fst) m result results := by
  induction newest generalizing m with
  | nil => exact ⟨none,m.captureResults,rfl,rfl,by simp,fun e he => .inr ⟨he,by simp⟩⟩
  | cons entry older ih =>
    obtain ⟨sid,snapshotResult⟩ := entry
    obtain ⟨hbl,ho⟩ := pairwise_cons.mp hn
    have het := hm _ (mem_cons_self ..)
    have hr : ∀ e ∈ older, e ∈ (m.captureResults.put sid .na).entries := fun e he =>
      mem_put.mpr (.inr ⟨hm e (mem_cons_of_mem _ he),Int.ne_of_lt (hbl e he)⟩)
    have hp : (m.captureResults.put sid .na).keys = m.captureResults.keys :=
      (keys_put ..).trans (if_pos (mem_keys.mpr ⟨_,het⟩))
    have hsk : ∃ result results,
        (m.updateSnapshotStatus sid .na).backtrack beforeThis older = (result,{ m with captureResults := results }) ∧
        Backtracked beforeThis (sid :: older.map Prod.fst) m result results := by
      obtain ⟨result,results,heq,hk,hf,hen⟩ := ih ho (m.updateSnapshotStatus sid .na) hr
      refine ⟨result,results,heq,hk.trans hp,?_,?_⟩
      · intro id hid
        obtain ⟨hlt,hb,ha⟩ := hf id hid
        obtain heq | ⟨hb,-⟩ := mem_put.mp hb
        · cases heq
        · exact ⟨hlt,hb,ha⟩
      · intro e he
        obtain hna | ⟨hp,hs⟩ := hen e he
        · exact .inl hna
        · obtain rfl | ⟨he,hne⟩ := mem_put.mp hp
          · exact .inl rfl
          · refine .inr ⟨he,fun hin => hs ?_⟩
            exact (mem_cons.mp hin).resolve_left hne
    unfold backtrack
    split
    · exact hsk
    · split
      · split
        · rename_i hlt hsc
          subst hsc
          refine ⟨some sid,m.captureResults,rfl,rfl,?_,?_⟩
          · rintro id ⟨⟩
            exact ⟨hlt,het,het⟩
          · intro e he
            refine .inr ⟨he,fun hin => .inr ⟨sid,rfl,?_⟩⟩
            obtain heq | hin := mem_cons.mp hin
            · exact Int.le_of_eq heq
            · obtain ⟨d,hd,hde⟩ := mem_map.mp hin
              exact hde ▸ Int.le_of_lt (hbl d hd)
        · exact hsk
      · obtain ⟨result,results,heq,hk,hf,hen⟩ := ih ho m fun e he => hm e (mem_cons_of_mem _ he)
        refine ⟨result,results,heq,hk,hf,?_⟩
        intro e he
        obtain hna | ⟨he,hs⟩ := hen e he
        · exact .inl hna
        · refine .inr ⟨he,fun hin => ?_⟩
          obtain heq | hin := mem_cons.mp hin
          · exact .inl (by omega)
          · exact hs hin

theorem findResumeSnapshotId_eq (saved : Bool) (beforeThis : Option Int)
    (hsr : m.captureResults.keys.Pairwise (· < ·)) :
    ∃ result results, m.findResumeSnapshotId saved beforeThis = (result,{ m with captureResults := results }) ∧
      Backtracked (beforeThis.getD longMax) m.captureResults.keys m result results := by
  unfold findResumeSnapshotId
  split
  · rename_i hem
    have hnl : m.captureResults.keys = [] := by simp [LinkedMap.keys,isEmpty_iff.mp hem]
    refine ⟨none,m.captureResults,rfl,rfl,by simp,fun e he => .inr ⟨he,fun hin => ?_⟩⟩
    rw [hnl] at hin
    cases hin
  · have hn : m.captureResults.entries.reverse.Pairwise fun a b => b.1 < a.1 :=
      pairwise_reverse.mpr (pairwise_map.mp hsr)
    obtain ⟨result,results,heq,hs⟩ := backtrack_eq (beforeThis.getD longMax) hn m (by simp)
    rw [heq]
    have hsc : m.captureResults.entries.reverse.map Prod.fst = m.captureResults.keys.reverse := by
      simp [LinkedMap.keys]
    rw [hsc] at hs
    cases saved with
    | true => exact ⟨result,results,rfl,hs.keys,hs.found,by simpa using hs.entries⟩
    | false =>
      obtain ⟨results',he',hk,hna⟩ := invalidateAllSnapshots_eq { m with captureResults := results }
      exact ⟨none,results',by simp [he'],hk.trans hs.keys,by simp,fun e he => .inl (hna e he)⟩

end Resume
end QuerySnapshotManager

end HetuCore.Snapshot
