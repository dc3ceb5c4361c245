import Mathlib.Order.Lattice.Nat
import HetuCore.Snapshot.QuerySnapshotManager

namespace HetuCore.Snapshot.SnapshotComponentCounter
open Foundation List

variable {τ : Type} [DecidableEq τ] (total : Nat)

/-- `updateComponent` of a counter that has no functions to decide completeness: its
components are complete by their number. -/
def updateComponentOf (counter : SnapshotComponentCounter τ) (stateId : τ) (state : ComponentState) :
    Bool × SnapshotComponentCounter τ :=
  if (counter.componentMap.get stateId).any fun oldState => state.ordinal ≤ oldState.ordinal then (false,counter)
  else
    let componentMap := counter.componentMap.put stateId state
    let snapshotResult := withState counter.snapshotResult state
    if componentMap.keys.length = total then (true,⟨componentMap,doneResult snapshotResult⟩)
    else if total < componentMap.keys.length then (true,⟨componentMap,doneResult .failed⟩)
    else (true,⟨componentMap,snapshotResult⟩)

def updateAll (reports : List (τ × ComponentState)) : SnapshotComponentCounter τ :=
  reports.foldl (fun counter report => (counter.updateComponentOf total report.1 report.2).2) new

variable (reports : Finset (τ × ComponentState))

def components : Finset τ := reports.image Prod.fst

def severity : Nat := reports.sup fun report => report.2.ordinal

variable (complete : Bool)

/-- The result that stands for a maximal severity. -/
def resultOf (severity : Nat) : SnapshotResult :=
  let result := match severity with
    | 0 => .inProgress
    | 1 => .inProgressFailed
    | _ => .inProgressFailedFatal
  if complete then doneResult result else result

def overall : SnapshotResult :=
  resultOf (decide ((components reports).card = total)) (severity reports)

theorem isDone_resultOf : ∀ n, (resultOf complete n).isDone = complete
  | 0 | 1 | _ + 2 => by cases complete <;> rfl

theorem eq_zero_of_resultOf {complete : Bool} : ∀ {n}, resultOf complete n = .successful → n = 0
  | 0,_ => rfl
  | 1,h | _ + 2,h => by cases complete <;> cases h

/-- A further state raises the severity. -/
theorem withState_resultOf (state : ComponentState) : ∀ n,
    withState (resultOf false n) state = resultOf false (max n state.ordinal) ∧
      doneResult (withState (resultOf complete n) state) = resultOf true (max n state.ordinal)
  | 0 | 1 | n + 2 => by
    cases complete <;> cases state <;> simp [ComponentState.ordinal,resultOf,withState,doneResult]

/-- The entries of a counter are the most severe reports of the components. -/
structure Records (entries reports : List (τ × ComponentState)) : Prop where
  known : ∀ report ∈ entries, report ∈ reports
  covered : ∀ report ∈ reports, ∃ kept, (report.1,kept) ∈ entries ∧ report.2.ordinal ≤ kept.ordinal

variable {total} {entries reports : List (τ × ComponentState)} {counter : SnapshotComponentCounter τ}

theorem length_keys (m : LinkedMap τ ComponentState) : m.keys.length = (components m.entries.toFinset).card := by
  rw [← toFinset_card_of_nodup (show m.keys.Nodup from m.nodup)]
  congr 1
  ext id
  simp [LinkedMap.keys,components]

variable (report : τ × ComponentState)

theorem severity_append :
    severity (reports ++ [report]).toFinset = max (severity reports.toFinset) report.2.ordinal := by
  simp [severity,max_comm]

theorem components_append :
    (components reports.toFinset).card ≤ (components (reports ++ [report]).toFinset).card := by
  apply Finset.card_le_card
  apply Finset.image_subset_image
  rw [toFinset_append]
  exact Finset.subset_union_left

theorem ordinal_le_severity {report : τ × ComponentState} (h : report ∈ reports) :
    report.2.ordinal ≤ severity reports.toFinset :=
  @Finset.le_sup _ _ _ _ _ (fun report => report.2.ordinal) _ (mem_toFinset.mpr h)

theorem Records.overall_eq (h : Records entries reports) :
    components entries.toFinset = components reports.toFinset ∧ severity entries.toFinset = severity reports.toFinset := by
  constructor
  · ext id
    simp only [components,Finset.mem_image,mem_toFinset]
    constructor
    · rintro ⟨report,hr,rfl⟩
      exact ⟨report,h.known report hr,rfl⟩
    · rintro ⟨report,hr,rfl⟩
      obtain ⟨kept,hk,-⟩ := h.covered report hr
      exact ⟨_,hk,rfl⟩
  · apply le_antisymm
    · exact Finset.sup_mono fun report hr => mem_toFinset.mpr (h.known report (mem_toFinset.mp hr))
    · refine Finset.sup_le fun report hr => ?_
      obtain ⟨kept,hk,hle⟩ := h.covered report (mem_toFinset.mp hr)
      exact hle.trans (ordinal_le_severity hk)

/-- One report, about one of the components that are counted. -/
theorem Records.update (h : Records counter.componentMap.entries reports)
    (hrs : counter.snapshotResult = overall total reports.toFinset) (report : τ × ComponentState)
    (hc : (components (reports ++ [report]).toFinset).card ≤ total) :
    let updated := (counter.updateComponentOf total report.1 report.2).2
    Records updated.componentMap.entries (reports ++ [report]) ∧
      updated.snapshotResult = overall total (reports ++ [report]).toFinset := by
  obtain ⟨stateId,state⟩ := report
  unfold updateComponentOf
  split
  · rename_i hol
    obtain ⟨old,hg,hle⟩ := (Option.any_eq_true _ _).mp hol
    have hk : Records counter.componentMap.entries (reports ++ [(stateId,state)]) := by
      refine ⟨fun report hr => mem_append_left _ (h.known report hr),fun report hr => ?_⟩
      rcases mem_append.mp hr with hr | hr
      · exact h.covered report hr
      · obtain rfl := mem_singleton.mp hr
        exact ⟨old,LinkedMap.get_eq_some.mp hg,of_decide_eq_true hle⟩
    refine ⟨hk,?_⟩
    rw [hrs,overall,overall,← h.overall_eq.1,← h.overall_eq.2,hk.overall_eq.1,hk.overall_eq.2]
  · rename_i hn
    have hk : Records (counter.componentMap.put stateId state).entries (reports ++ [(stateId,state)]) := by
      refine ⟨fun report hr => ?_,fun report hr => ?_⟩
      · rcases LinkedMap.mem_put.mp hr with rfl | ⟨hr,-⟩
        · exact mem_concat_self
        · exact mem_append_left _ (h.known report hr)
      · rcases mem_append.mp hr with hr | hr
        · obtain ⟨kept,hkp,hle⟩ := h.covered report hr
          by_cases hid : report.1 = stateId
          · -- what was recorded for the component is less severe than the new state
            have hlt : ¬ state.ordinal ≤ kept.ordinal := by
              rw [hid,← LinkedMap.get_eq_some] at hkp
              simpa [hkp] using hn
            exact ⟨state,LinkedMap.mem_put.mpr (.inl (by rw [hid])),hle.trans (Nat.le_of_not_le hlt)⟩
          · exact ⟨kept,LinkedMap.mem_put.mpr (.inr ⟨hkp,hid⟩),hle⟩
        · obtain rfl := mem_singleton.mp hr
          exact ⟨state,LinkedMap.mem_put.mpr (.inl rfl),Nat.le_refl _⟩
    have hle := @components_append _ _ reports (stateId,state)
    simp only [length_keys,hk.overall_eq.1,hrs,overall,severity_append]
    split
    · rename_i hf
      exact ⟨hk,by rw [(withState_resultOf ..).2,decide_eq_true hf]⟩
    · rename_i ho
      rw [if_neg (by omega),decide_eq_false ho,decide_eq_false (by omega),(withState_resultOf false ..).1]
      exact ⟨hk,rfl⟩

theorem records_updateAll (hp : 0 < total) : (components reports.toFinset).card ≤ total →
      Records (updateAll total reports).componentMap.entries reports ∧
        (updateAll total reports).snapshotResult = overall total reports.toFinset := by
  induction reports using reverseRecOn with
  | nil =>
    intro _
    refine ⟨⟨fun report hr => (nomatch hr),fun report hr => (nomatch hr)⟩,?_⟩
    rw [overall,decide_eq_false (by simpa [components] using hp.ne)]
    rfl
  | append_singleton reports report ih =>
    intro hc
    obtain ⟨hrc,hrs⟩ := ih ((components_append report).trans hc)
    rw [updateAll,foldl_append]
    exact hrc.update hrs report hc

/-- After any reports about at most as many components as are counted, the result is done
exactly when all have reported, and is that of the most severe state ever reported, which
the states recorded for the components determine. -/
theorem updateAll_result (hpos : 0 < total) (reports : List (τ × ComponentState))
    (hcount : (components reports.toFinset).card ≤ total) :
    let counter := updateAll total reports
    counter.snapshotResult = overall total reports.toFinset ∧
      counter.snapshotResult = overall total counter.componentMap.entries.toFinset ∧
      (counter.snapshotResult.isDone = true ↔ (components reports.toFinset).card = total) ∧
      (∀ id state, (id,state) ∈ counter.componentMap.entries ↔
        (id,state) ∈ reports ∧ ∀ other, (id,other) ∈ reports → other.ordinal ≤ state.ordinal) ∧
      (counter.snapshotResult = .successful → ∀ report ∈ reports, report.2 = .successful) := by
  obtain ⟨hr,hrs⟩ := records_updateAll hpos hcount
  refine ⟨hrs,?_,?_,fun id state => ⟨fun he => ?_,fun ⟨hrp,hm⟩ => ?_⟩,fun hd report hrp => ?_⟩
  · rw [hrs,overall,overall,hr.overall_eq.1,hr.overall_eq.2]
  · rw [hrs,overall,isDone_resultOf,decide_eq_true_eq]
  · refine ⟨hr.known _ he,fun other ho => ?_⟩
    obtain ⟨kept,hk,hle⟩ := hr.covered _ ho
    rw [← LinkedMap.get_eq_some] at he hk
    exact Option.some.inj (hk.symm.trans he) ▸ hle
  · obtain ⟨kept,hk,hle⟩ := hr.covered _ hrp
    have hge := hm kept (hr.known _ hk)
    have heq : kept = state := by
      cases kept <;> cases state <;> simp_all [ComponentState.ordinal]
    exact heq ▸ hk
  · rw [hrs] at hd
    have hle := ordinal_le_severity hrp
    rw [eq_zero_of_resultOf hd] at hle
    cases hs : report.2 <;> simp_all [ComponentState.ordinal]

theorem updateAll_result_fatal :
    (updateAll 2 [(0,.successful),(1,.failed),(0,.failedFatal)]).snapshotResult = .failedFatal :=
  (updateAll_result (by decide) [(0,.successful),(1,.failed),(0,.failedFatal)] (by decide)).1.trans (by decide)

end HetuCore.Snapshot.SnapshotComponentCounter
