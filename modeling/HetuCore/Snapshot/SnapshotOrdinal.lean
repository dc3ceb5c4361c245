import HetuCore.Snapshot.SnapshotReports
import HetuCore.Snapshot.MarkerAnnouncer
import Mathlib.Data.Finset.Card

namespace HetuCore.Snapshot
open Foundation List Finset
variable {τ : Type}

/-- The number of distinct snapshots initiated up to and including the given one, where
snapshot 0 stands for the start of the query. -/
def ordinal (ids : List Int) (snapshotId : Int) : Nat :=
  ((ids.take (ids.idxOf snapshotId + 1)).toFinset.erase 0).card

/-- The writers of a table; the sub-files written between two captures carry an index. -/
structure HiveWriterFactory where
  resumeCount : Int
  snapshotSuffixes : List Int

namespace HiveWriterFactory

variable (w : HiveWriterFactory)

def subFileIndex : Int := w.snapshotSuffixes.length

def capture : HiveWriterFactory :=
  { w with snapshotSuffixes := w.snapshotSuffixes ++ [w.resumeCount] }

def restore (_ : HiveWriterFactory) (captured : List Int) (resumeCount : Int) : HiveWriterFactory :=
  ⟨resumeCount,captured⟩

/-- The writers have captured these snapshots on the way to their current state. -/
inductive Captures : HiveWriterFactory → List Int → Prop where
  | start (resumeCount : Int) : Captures ⟨resumeCount,[]⟩ []
  | capture {w : HiveWriterFactory} {captured : List Int} (snapshotId : Int) (h : Captures w captured) :
    Captures w.capture (captured ++ [snapshotId])
  | restore {w : HiveWriterFactory} {captured : List Int} (w' : HiveWriterFactory) (resumeCount : Int)
    (h : Captures w captured) : Captures (w'.restore w.snapshotSuffixes resumeCount) captured

theorem Captures.subFileIndex_eq {w : HiveWriterFactory} {captured : List Int} (h : Captures w captured) :
    w.subFileIndex = captured.length := by
  induction h with
  | start resumeCount => rfl
  | capture snapshotId h ih =>
    rw [subFileIndex] at ih
    simp [subFileIndex,HiveWriterFactory.capture,ih]
  | restore w' resumeCount h ih => exact ih

end HiveWriterFactory

/-- Whether a sub-file survives the clean-up before a resume. -/
def updatePreviousFiles.keeps (snapshotIndex subFileIndex : Int) : Bool :=
  !(subFileIndex < 0 ∨ subFileIndex ≥ snapshotIndex)

section Positions

/-- The list starts with snapshot 0, and nothing repeated stands before a first occurrence. -/
structure Positional (ids : List Int) : Prop where
  start : ids.head? = some 0
  fresh : ∀ id ∈ ids, (ids.take (ids.idxOf id)).Nodup

variable {ids : List Int} {id : Int}

theorem Positional.zero : Positional [0] := ⟨rfl,by simp⟩

private theorem take_idxOf_append (hid : id ∈ ids) (other : List Int) :
    (ids ++ other).take ((ids ++ other).idxOf id) = ids.take (ids.idxOf id) := by
  rw [idxOf_append_of_mem hid,take_append_of_le_length idxOf_le_length]

theorem Positional.concat (h : Positional ids) (hid : id ∈ ids ∨ ids.Nodup) : Positional (ids ++ [id]) where
  start := by
    rw [head?_append,h.start]
    rfl
  fresh := by
    intro k hk
    by_cases hm : k ∈ ids
    · rw [take_idxOf_append hm [id]]
      exact h.fresh k hm
    · obtain rfl : k = id := by simpa [hm] using hk
      have hn := hid.resolve_left hm
      rw [idxOf_append_of_notMem hm]
      simpa using hn

theorem Positional.take (h : Positional ids) (n : Nat) : Positional (ids.take (n + 1)) where
  start := by
    rw [head?_take,if_neg (Nat.succ_ne_zero n),h.start]
  fresh := by
    intro k hk
    rw [← take_idxOf_append hk (ids.drop (n + 1)),take_append_drop]
    exact h.fresh k (mem_of_mem_take hk)

theorem Positional.zero_mem_take (h : Positional ids) (n : Nat) : 0 ∈ ids.take (n + 1) :=
  mem_of_mem_head? (h.take n).start

private theorem take_idxOf_succ (hid : id ∈ ids) : ids.take (ids.idxOf id + 1) = ids.take (ids.idxOf id) ++ [id] := by
  rw [take_add_one,getElem?_idxOf hid]
  rfl

private theorem notMem_take_idxOf (hid : id ∈ ids) : id ∉ ids.take (ids.idxOf id) := by
  rw [mem_take_iff_idxOf_lt hid]
  exact lt_irrefl _

theorem Positional.ordinal_eq (h : Positional ids) (hid : id ∈ ids) : ordinal ids id = ids.idxOf id := by
  have hn : (ids.take (ids.idxOf id + 1)).Nodup := by
    rw [take_idxOf_succ hid]
    exact (h.fresh id hid).append (nodup_singleton id) (disjoint_singleton.mpr (notMem_take_idxOf hid))
  have hl : (ids.take (ids.idxOf id + 1)).length = ids.idxOf id + 1 := by
    rw [length_take,min_eq_left (idxOf_lt_length_of_mem hid)]
  rw [ordinal,card_erase_of_mem (mem_toFinset.mpr (h.zero_mem_take _)),
    toFinset_card_of_nodup hn,hl,Nat.add_sub_cancel]

/-- The snapshots that writers have captured: each of the snapshots initiated up to some point,
once. -/
structure CapturedUpTo (ids : List Int) (n : Nat) (captured : List Int) : Prop where
  nodup : captured.Nodup
  mem : ∀ k, k ∈ captured ↔ k ∈ ids.take n ∧ k ≠ 0

private theorem CapturedUpTo.length_eq {n : Nat} {captured : List Int} (hc : CapturedUpTo ids n captured) :
    captured.length = ((ids.take n).toFinset.erase 0).card := by
  rw [← toFinset_card_of_nodup hc.nodup]
  congr 1
  ext k
  rw [mem_toFinset,hc.mem,mem_erase,mem_toFinset,and_comm]

/-- Fewer captures than the ordinal of a snapshot means that it is not captured yet. -/
theorem Positional.lt_ordinal_iff (h : Positional ids) (hid : id ∈ ids) {n : Nat} {captured : List Int}
    (hc : CapturedUpTo ids n captured) : captured.length < ordinal ids id ↔ id ∉ 0 :: captured := by
  rw [hc.length_eq,ordinal]
  constructor
  · rintro hlt (_ | ⟨_,hm⟩)
    · have hz : ordinal ids 0 = 0 := by
        rw [h.ordinal_eq hid]
        obtain ⟨rest,rfl⟩ := head?_eq_some_iff.mp h.start
        exact idxOf_cons_self
      rw [ordinal] at hz
      omega
    · have hn : ids.idxOf id < n := (mem_take_iff_idxOf_lt hid).mp ((hc.mem id).mp hm).1
      refine absurd (card_le_card (erase_subset_erase 0 ?_)) (Nat.not_le.mpr hlt)
      exact fun k hk => mem_toFinset.mpr ((take_subset_take_left ids hn) (mem_toFinset.mp hk))
  · intro hnt
    obtain ⟨hz,hcp⟩ : id ≠ 0 ∧ id ∉ captured := by simpa using hnt
    have hn : n ≤ ids.idxOf id := by
      by_contra hlt
      exact hcp ((hc.mem id).mpr ⟨(mem_take_iff_idxOf_lt hid).mpr (Nat.not_le.mp hlt),hz⟩)
    apply card_lt_card
    refine ssubset_iff_of_subset ?_ |>.mpr ⟨id,?_,?_⟩
    · apply erase_subset_erase
      exact fun k hk => mem_toFinset.mpr ((take_subset_take_left ids (Nat.le_succ_of_le hn)) (mem_toFinset.mp hk))
    · rw [take_idxOf_succ hid]
      simp [hz]
    · rw [mem_erase,mem_toFinset,mem_take_iff_idxOf_lt hid]
      omega

end Positions

namespace QuerySnapshotManager
variable {m m' : QuerySnapshotManager τ}

theorem initiatedSnapshotId_backtrack (beforeThis : Int) (newest : List (Int × SnapshotResult))
    (m : QuerySnapshotManager τ) : (m.backtrack beforeThis newest).2.initiatedSnapshotId = m.initiatedSnapshotId := by
  induction newest generalizing m with
  | nil => rfl
  | cons entry older ih =>
    rw [backtrack]
    split
    · exact ih _
    · split
      · split
        · rfl
        · exact ih _
      · exact ih m

theorem initiatedSnapshotId_findResumeSnapshotId (saved : Bool) (beforeThis : Option Int) :
    (m.findResumeSnapshotId saved beforeThis).2.initiatedSnapshotId = m.initiatedSnapshotId := by
  rw [findResumeSnapshotId]
  split
  · rfl
  · have hs := m.initiatedSnapshotId_backtrack (beforeThis.getD longMax) m.captureResults.entries.reverse
    generalize m.backtrack (beforeThis.getD longMax) m.captureResults.entries.reverse = found at hs ⊢
    obtain ⟨result,m'⟩ := found
    cases saved with
    | true => exact hs
    | false =>
      obtain ⟨results,heq,-⟩ := m'.invalidateAllSnapshots_eq
      simp only [heq]
      exact hs

/-- A resume cuts the list after the snapshot resumed from, or starts it again. -/
theorem initiatedSnapshotId_getResumeSnapshotId (saved : Bool) : (m.getResumeSnapshotId saved).2.initiatedSnapshotId =
      match (m.getResumeSnapshotId saved).1 with
      | none => [0]
      | some id => m.initiatedSnapshotId.take (indexOf m.initiatedSnapshotId id + 1).toNat := by
  have hs := m.initiatedSnapshotId_findResumeSnapshotId saved m.lastTriedId
  rw [getResumeSnapshotId]
  generalize m.findResumeSnapshotId saved m.lastTriedId = found at hs ⊢
  obtain ⟨result,m'⟩ := found
  cases result with
  | none => rfl
  | some id =>
    have hs : m'.initiatedSnapshotId = m.initiatedSnapshotId := hs
    simp only [hs]

theorem initiatedSnapshotId_report [DecidableEq τ] {r : TaskReport τ} (h : m.report r = .ok m') :
    m'.initiatedSnapshotId = m.initiatedSnapshotId := by
  cases r with
  | newTask taskId =>
    cases h
    rfl
  | capture taskId captureResult =>
    have hr : Reported (fun _ => True) m m' :=
      reported_updateQueryCapture (fun _ _ => .inl trivial) (fun _ _ _ _ => trivial) h
    exact hr.initiatedSnapshotId
  | restore recoveryInProgress taskId restoreResult =>
    have hrs : Restoring (fun _ => True) m m' :=
      restoring_updateQueryRestore (fun _ _ => .inl trivial) (fun _ _ _ _ => trivial) h
    exact hrs.initiatedSnapshotId
  | finished finishedTasks =>
    cases h
    have hr : Reported (fun _ => True) m (m.updateCapturedComponents finishedTasks) :=
      reported_updateCapturedComponents fun _ _ => .inl trivial
    exact hr.initiatedSnapshotId
  | invalidateAll =>
    cases h
    obtain ⟨results,heq,-⟩ := m.invalidateAllSnapshots_eq
    rw [heq]
  | restoreStart =>
    cases h
    rw [setRestoreStartTime]
    split
    · rfl
    · rfl

end QuerySnapshotManager

/-- The announcer of markers and the snapshot manager that it informs. -/
structure SnapshotCoordinator (τ : Type) where
  announcer : MarkerAnnouncer
  manager : QuerySnapshotManager τ

inductive CoordinatorAction (τ : Type) where
  | createMarkerSplitSource (now : Int) (source nodeId : Nat)
  | shouldGenerateMarker (now : Int) (source : Nat)
  | forceGenerateMarker (now : Int) (source : Nat)
  | deactivateSplitSource (now : Int) (source : Nat)
  | incrementSplitCount (count : Nat)
  | resume (now : Int) (saved : Bool)
  | report (r : TaskReport τ)

namespace SnapshotCoordinator
open QuerySnapshotManager

variable (s : SnapshotCoordinator τ)

def informSnapshotInitiation (announcement : Announcement) : SnapshotCoordinator τ where
  announcer := announcement.announcer
  manager := announcement.initiated.elim s.manager s.manager.snapshotInitiated

def step [DecidableEq τ] (s : SnapshotCoordinator τ) : CoordinatorAction τ → Except String (SnapshotCoordinator τ)
  | .createMarkerSplitSource now source nodeId =>
    pure { s with announcer := s.announcer.createMarkerSplitSource now source nodeId }
  | .shouldGenerateMarker now source => pure (s.informSnapshotInitiation (s.announcer.shouldGenerateMarker now source))
  | .forceGenerateMarker now source => pure (s.informSnapshotInitiation (s.announcer.forceGenerateMarker now source))
  | .deactivateSplitSource now source => pure { s with announcer := s.announcer.deactivateSplitSource now source }
  | .incrementSplitCount count => pure { s with announcer := s.announcer.incrementSplitCount count }
  | .resume now saved =>
    pure ⟨s.announcer.resumeSnapshot now,(s.manager.getResumeSnapshotId saved).2⟩
  | .report r => do
    let manager ← s.manager.report r
    pure { s with manager := manager }

def coordinator (τ : Type) [DecidableEq τ] (interval : SnapshotInterval) (now : Int) :
    Machine (SnapshotCoordinator τ) (CoordinatorAction τ) :=
  ⟨⟨.new interval now,.new⟩,step⟩

/-- A new snapshot is reported only while no snapshot has been reported twice, and the query is
resumed only from a snapshot on the list. -/
def ReportedOnce : CoordinatorAction τ → Prop
  | .shouldGenerateMarker now source => ∀ id ∈ (s.announcer.shouldGenerateMarker now source).initiated,
    id ∈ s.manager.initiatedSnapshotId ∨ s.manager.initiatedSnapshotId.Nodup
  | .forceGenerateMarker now source => ∀ id ∈ (s.announcer.forceGenerateMarker now source).initiated,
    id ∈ s.manager.initiatedSnapshotId ∨ s.manager.initiatedSnapshotId.Nodup
  | .resume _ saved => ∀ id ∈ (s.manager.getResumeSnapshotId saved).1, id ∈ s.manager.initiatedSnapshotId
  | _ => True

instance (s : SnapshotCoordinator τ) : (a : CoordinatorAction τ) → Decidable (ReportedOnce s a)
  | .shouldGenerateMarker _ _ | .forceGenerateMarker _ _ | .resume _ _ => inferInstanceAs (Decidable (∀ _ ∈ _, _))
  | .createMarkerSplitSource _ _ _ | .deactivateSplitSource _ _ | .incrementSplitCount _ | .report _ =>
    inferInstanceAs (Decidable True)

variable {s s' : SnapshotCoordinator τ}

theorem positional_inform {announcement : Announcement} (h : Positional s.manager.initiatedSnapshotId)
    (ho : ∀ id ∈ announcement.initiated, id ∈ s.manager.initiatedSnapshotId ∨ s.manager.initiatedSnapshotId.Nodup) :
    Positional (s.informSnapshotInitiation announcement).manager.initiatedSnapshotId := by
  rw [informSnapshotInitiation]
  cases hi : announcement.initiated with
  | none => exact h
  | some id => exact h.concat (ho id hi)

theorem positional_resume {saved : Bool} (h : Positional s.manager.initiatedSnapshotId)
    (hl : ∀ id ∈ (s.manager.getResumeSnapshotId saved).1, id ∈ s.manager.initiatedSnapshotId) :
    Positional (s.manager.getResumeSnapshotId saved).2.initiatedSnapshotId := by
  rw [initiatedSnapshotId_getResumeSnapshotId]
  cases hid : (s.manager.getResumeSnapshotId saved).1 with
  | none => exact .zero
  | some id =>
    have hi : (indexOf s.manager.initiatedSnapshotId id + 1).toNat = s.manager.initiatedSnapshotId.idxOf id + 1 := by
      simp [indexOf,hl id hid]
    simp only [hi]
    exact h.take _

variable [DecidableEq τ]

theorem positional_step {a : CoordinatorAction τ} (h : Positional s.manager.initiatedSnapshotId)
    (ho : ReportedOnce s a) (hs : s.step a = .ok s') : Positional s'.manager.initiatedSnapshotId := by
  cases a with
  | createMarkerSplitSource now source nodeId =>
    cases hs
    exact h
  | shouldGenerateMarker now source | forceGenerateMarker now source =>
    cases hs
    exact positional_inform h ho
  | deactivateSplitSource now source | incrementSplitCount count =>
    cases hs
    exact h
  | resume now saved =>
    cases hs
    exact positional_resume h ho
  | report r =>
    obtain ⟨manager,hm,hr⟩ := bind_ok hs
    cases hr
    rw [initiatedSnapshotId_report hm]
    exact h

variable {interval : SnapshotInterval} {now : Int} {actions : List (CoordinatorAction τ)}

theorem positional_run (ho : (coordinator τ interval now).Along ReportedOnce actions)
    (hr : (coordinator τ interval now).run actions = .ok s) : Positional s.manager.initiatedSnapshotId := by
  let good (s : SnapshotCoordinator τ) := Positional s.manager.initiatedSnapshotId
  have hi : good (coordinator τ interval now).init := .zero
  exact Machine.run_along hi (fun _ _ _ h hc hs => positional_step h hc hs) ho hr

/-- When no snapshot is reported twice before another one, the index of a snapshot is its
ordinal, and a resume keeps exactly the sub-files written before the snapshot was captured. -/
theorem computeSnapshotIndex_ordinal (honce : (coordinator τ interval now).Along ReportedOnce actions)
    (hrun : (coordinator τ interval now).run actions = .ok s) {id : Int} (hid : id ∈ s.manager.initiatedSnapshotId) :
    s.manager.computeSnapshotIndex (some id) = ordinal s.manager.initiatedSnapshotId id ∧
    ∀ w n captured, HiveWriterFactory.Captures w captured → CapturedUpTo s.manager.initiatedSnapshotId n captured →
      (updatePreviousFiles.keeps (s.manager.computeSnapshotIndex (some id)) w.subFileIndex = true ↔ id ∉ 0 :: captured) := by
  have hp := positional_run honce hrun
  have hi : s.manager.computeSnapshotIndex (some id) = ordinal s.manager.initiatedSnapshotId id := by
    rw [hp.ordinal_eq hid]
    exact if_pos hid
  refine ⟨hi,?_⟩
  intro w n captured hw hc
  rw [hi,hw.subFileIndex_eq,← hp.lt_ordinal_iff hid hc]
  simp [updatePreviousFiles.keeps]

/-- The restore of the second snapshot fails, that of the first succeeds, and two sources send the marker of another. -/
def restoredRun : List (CoordinatorAction Nat) :=
  [.createMarkerSplitSource 0 0 0,.report (.newTask 0),.shouldGenerateMarker 0 0,.report (.capture 0 [(1,.successful)]),
    .shouldGenerateMarker 0 0,.report (.capture 0 [(2,.successful)]),.resume 0 true,.report (.newTask 0),
    .report (.restore (fun _ => true) 0 (some ⟨2,.failed⟩)),.resume 0 true,.report (.newTask 0),
    .report (.restore (fun _ => true) 0 (some ⟨1,.successful⟩)),.createMarkerSplitSource 0 1 1,.shouldGenerateMarker 0 0,
    .shouldGenerateMarker 0 1]

theorem computeSnapshotIndex_ordinal_restoredRun :
    ∃ s, (coordinator Nat (.splitCount 0) 0).run restoredRun = .ok s ∧ s.manager.initiatedSnapshotId = [0,1,5,5] ∧
      s.manager.computeSnapshotIndex (some 5) = ordinal s.manager.initiatedSnapshotId 5 := by
  obtain ⟨s,hr,hi⟩ : ∃ s, (coordinator Nat (.splitCount 0) 0).run restoredRun = .ok s ∧
      s.manager.initiatedSnapshotId = [0,1,5,5] := by
    apply exists_ok
    decide +kernel
  have ho : (coordinator Nat (.splitCount 0) 0).Along ReportedOnce restoredRun := .of_checks (by decide +kernel)
  exact ⟨s,hr,hi,(computeSnapshotIndex_ordinal ho hr (hi ▸ by decide)).1⟩

/-- Two sources send the marker of the first snapshot, then one sends that of the second. -/
def twoSourcesRun : List (CoordinatorAction Nat) :=
  [.createMarkerSplitSource 0 0 0,.createMarkerSplitSource 0 1 1,.shouldGenerateMarker 0 0,.shouldGenerateMarker 0 1,
    .shouldGenerateMarker 0 0]

/-- The first snapshot is counted twice, and a sub-file written after the second is kept. -/
theorem twoSourcesRun_counts_twice : ∃ s, (coordinator Nat (.splitCount 0) 0).run twoSourcesRun = .ok s ∧
      s.manager.initiatedSnapshotId = [0,1,1,2] ∧ s.manager.computeSnapshotIndex (some 2) = 3 ∧
      ordinal s.manager.initiatedSnapshotId 2 = 2 ∧
      updatePreviousFiles.keeps (s.manager.computeSnapshotIndex (some 2)) 2 = true := by
  apply exists_ok
  decide +kernel

end SnapshotCoordinator
end HetuCore.Snapshot
