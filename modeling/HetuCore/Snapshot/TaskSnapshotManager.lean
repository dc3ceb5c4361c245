import HetuCore.Snapshot.QuerySnapshotManager

namespace HetuCore.Snapshot.TaskSnapshotManager
open Foundation List

/-- What a load gives: the state of a component, nothing, or the marker of a component
that no snapshot has a state of. -/
inductive Loaded (σ : Type) where
  | state (value : σ)
  | empty
  | noState
deriving DecidableEq

/-- The recorded snapshots are read from the newest to the oldest; 0 stands for the beginning. -/
def getPreviousSnapshotIdIfComplete (snapshotId : Int) : List (Int × SnapshotResult) → Option Int
  | [] => some 0
  | (sId,snapshotRestoreResult) :: older =>
    if sId < snapshotId then
      if snapshotRestoreResult = .successful then some sId
      else if snapshotRestoreResult ≠ .na then none
      else getPreviousSnapshotIdIfComplete snapshotId older
    else getPreviousSnapshotIdIfComplete snapshotId older

variable {σ : Type} (recorded : LinkedMap Int SnapshotResult) (load : Int → Option σ)

/-- The loop, for so many passes; `load` looks the component up in the map of a snapshot,
where a null state is as good as none. -/
def loadWithBacktrack : Nat → Int → Option (Loaded σ)
  | 0,_ => none
  | passes + 1,snapshotId =>
    match load snapshotId with
    | some state => some (.state state)
    | none =>
      match getPreviousSnapshotIdIfComplete snapshotId recorded.entries.reverse with
      | none => some .empty
      | some prevSnapshotId =>
        if prevSnapshotId = 0 then some .noState else loadWithBacktrack passes prevSnapshotId

/-- A snapshot that the search goes past. -/
def passed (e : Int × SnapshotResult) : Bool := e.2 = .na || (e.2 = .successful && (load e.1).isNone)

/-- What the first snapshot below the given one that is not passed decides. -/
def decided (snapshotId : Int) (newestFirst : List (Int × SnapshotResult)) : Loaded σ :=
  match newestFirst.find? fun e => decide (e.1 < snapshotId) && !passed load e with
  | none => .noState
  | some e => if e.2 = .successful then (load e.1).elim .empty .state else .empty

theorem getPrevious_append {snapshotId : Int} {newer older : List (Int × SnapshotResult)}
    (h : ∀ e ∈ newer, snapshotId ≤ e.1 ∨ e.2 = .na) :
    getPreviousSnapshotIdIfComplete snapshotId (newer ++ older) = getPreviousSnapshotIdIfComplete snapshotId older := by
  induction newer with
  | nil => rfl
  | cons e newer ih =>
    obtain ⟨he,hn⟩ := forall_mem_cons.mp h
    rw [cons_append,getPreviousSnapshotIdIfComplete,ih hn]
    rcases he with he | he
    · rw [if_neg (Int.not_lt.mpr he)]
    · simp [he]

variable {recorded load}

/-- The search among the older snapshots, when the newer ones are behind it. -/
theorem loadWithBacktrack_decided {start : Int} (hps : ∀ id ∈ recorded.keys, 0 < id) :
    ∀ (older newer : List (Int × SnapshotResult)) (snapshotId : Int) (passes : Nat),
      recorded.entries.reverse = newer ++ older → (∀ e ∈ newer, snapshotId ≤ e.1 ∨ e.2 = .na) →
      older.Pairwise (fun e d => d.1 < e.1) → snapshotId ≤ start → (∀ e ∈ older, e.1 < start → e.1 < snapshotId) →
      load snapshotId = none → older.length ≤ passes →
      loadWithBacktrack recorded load (passes + 1) snapshotId = some (decided load start older) := by
  intro older
  induction older with
  | nil =>
    intro newer snapshotId passes ha hn _ _ _ hnn _
    rw [loadWithBacktrack,hnn,ha,getPrevious_append hn]
    rfl
  | cons e older ih =>
    intro newer snapshotId passes ha hn hs hle hbl hnn hp
    rw [append_cons] at ha
    obtain ⟨hf,hs⟩ := pairwise_cons.mp hs
    obtain ⟨he,hbl⟩ := forall_mem_cons.mp hbl
    by_cases hb : snapshotId ≤ e.1 ∨ e.2 = .na
    · rw [decided,find?_cons_of_neg]
      · exact ih _ snapshotId passes ha (forall_mem_concat.mpr ⟨hn,hb⟩) hs hle hbl hnn (Nat.le_of_succ_le hp)
      · rcases hb with hb | hna
        · simp [mt he (Int.not_lt.mpr hb)]
        · simp [passed,hna]
    · obtain ⟨hlt,hna⟩ := not_or.mp hb
      rw [Int.not_le] at hlt
      have hst : e.1 < start := Int.lt_of_lt_of_le hlt hle
      have hm : e.1 ∈ recorded.keys := mem_map_of_mem (mem_reverse.mp (by rw [ha]; simp))
      rw [loadWithBacktrack,hnn,ha,append_assoc,getPrevious_append hn,singleton_append,
        getPreviousSnapshotIdIfComplete,if_pos hlt]
      obtain ⟨passes,rfl⟩ := Nat.exists_eq_add_of_le' (Nat.one_le_of_lt hp)
      by_cases hdn : e.2 = .successful
      · simp only [hdn,if_true,if_neg (Int.ne_of_gt (hps e.1 hm))]
        cases hl : load e.1 with
        | none =>
          rw [decided,find?_cons_of_neg (by simp [passed,hdn,hl])]
          exact ih _ e.1 passes ha (forall_mem_concat.mpr
            ⟨fun d hd => (hn d hd).imp_left hlt.le.trans,.inl (Int.le_refl _)⟩) hs hst.le
            (fun d hd _ => hf d hd) hl (Nat.le_of_succ_le_succ hp)
        | some state =>
          rw [decided,find?_cons_of_pos (by simp [passed,hdn,hl,hst])]
          simp [loadWithBacktrack,hl,hdn]
      · rw [decided,find?_cons_of_pos (by simp [passed,hdn,hna,hst]),if_neg hdn,if_pos hna]
        simp [hdn]

/-- In a list from the newest to the oldest a snapshot is found when all between are passed. -/
theorem find_passed {newestFirst : List (Int × SnapshotResult)} (hs : newestFirst.Pairwise fun e d => d.1 < e.1)
    {start : Int} {e : Int × SnapshotResult} (he : e ∈ newestFirst) (hlt : e.1 < start) (hst : ¬ passed load e)
    (hb : ∀ d ∈ newestFirst, e.1 < d.1 → d.1 < start → passed load d) :
    newestFirst.find? (fun e => decide (e.1 < start) && !passed load e) = some e := by
  obtain ⟨newer,older,rfl⟩ := append_of_mem he
  rw [find?_append,find?_eq_none.mpr,Option.none_or,find?_cons_of_pos]
  · simp [hlt,hst]
  · intro d hd
    by_cases hin : d.1 < start
    · simp [hb d (mem_append_left _ hd) ((pairwise_append.mp hs).2.2 d hd e mem_cons_self) hin]
    · simp [hin]

/-- Among snapshots of increasing positive ids the search ends: with the state of the
greatest one that has it, with nothing when another status comes before, and with the
marker only when there is neither. -/
theorem loadWithBacktrack_correct (recorded : LinkedMap Int SnapshotResult) (hsorted : recorded.keys.Pairwise (· < ·))
    (hpos : ∀ id ∈ recorded.keys, 0 < id) (load : Int → Option σ) (s : Int) :
    ∃ result, (∀ passes ≥ recorded.keys.length, loadWithBacktrack recorded load (passes + 1) s = some result) ∧
      (∀ s' state, s' ≤ s → load s' = some state → (∀ k, s' < k → k ≤ s → load k = none) →
        (∀ e ∈ recorded.entries, s' < e.1 → e.1 < s → e.2 = .successful ∨ e.2 = .na) →
        s' = s ∨ (s',.successful) ∈ recorded.entries → result = .state state) ∧
      (∀ e ∈ recorded.entries, e.1 < s → e.2 ≠ .successful → e.2 ≠ .na → load s = none →
        (∀ d ∈ recorded.entries, e.1 < d.1 → d.1 < s → passed load d) → result = .empty) ∧
      (result = .noState → load s = none ∧ ∀ e ∈ recorded.entries, e.1 < s → passed load e) := by
  have hnw : recorded.entries.reverse.Pairwise fun e d => d.1 < e.1 :=
    pairwise_reverse.mpr (pairwise_map.mp hsorted)
  cases hl : load s with
  | some state =>
    refine ⟨.state state,fun passes _ => by rw [loadWithBacktrack,hl],fun s' state' hle hs hn _ _ => ?_,
      fun _ _ _ _ _ hn => (nomatch hn),fun h => (nomatch h)⟩
    rcases hle.lt_or_eq with hlt | rfl
    · exact absurd (hl.symm.trans (hn s hlt (Int.le_refl _))) nofun
    · rw [Option.some.inj (hl.symm.trans hs)]
  | none =>
    refine ⟨decided load s recorded.entries.reverse,fun passes hp => ?_,
      fun s' state hle hs hn hb hr => ?_,fun e he hlt hf hna _ hb => ?_,
      fun h => ⟨rfl,fun e he hlt => ?_⟩⟩
    · refine loadWithBacktrack_decided hpos _ [] s passes rfl (fun _ h => (nomatch h)) hnw (Int.le_refl _)
        (fun _ _ h => h) hl ?_
      rwa [length_reverse,← length_map Prod.fst]
    · have hne : s' ≠ s := fun h => nomatch (h ▸ hl).symm.trans hs
      have hlt := hle.lt_of_ne hne
      rw [decided,find_passed hnw (mem_reverse.mpr (hr.resolve_left hne)) hlt
        (by simp [passed,hs]) fun d hd hgt hd' => ?_]
      · simp [hs]
      · rcases hb d (mem_reverse.mp hd) hgt hd' with h | h <;> simp [passed,h,hn d.1 hgt hd'.le]
    · rw [decided,find_passed hnw (mem_reverse.mpr he) hlt (by simp [passed,hf,hna])
        fun d hd => hb d (mem_reverse.mp hd)]
      simp [hf]
    · rw [decided] at h
      split at h
      · rename_i hfn
        simpa [hlt] using find?_eq_none.mp hfn e (mem_reverse.mpr he)
      · rename_i e _
        by_cases hdn : e.2 = .successful <;> cases hs : load e.1 <;> simp [hdn,hs] at h

/-- The id 0 is taken for the beginning. -/
theorem loadWithBacktrack_zero :
    loadWithBacktrack (LinkedMap.empty.put 0 .successful) (fun id => if id = 0 then some () else none) 2 1 =
      some .noState := by
  decide

/-- The snapshot before is successful but has no entry. -/
theorem loadWithBacktrack_correct_skip : loadWithBacktrack ((LinkedMap.empty.put 1 .successful).put 2 .successful)
      (fun id => if id = 1 then some () else none) 3 3 = some (.state ()) := by
  obtain ⟨result,he,hs,-⟩ := loadWithBacktrack_correct ((LinkedMap.empty.put 1 .successful).put 2 .successful)
    (by decide) (by decide) (fun id => if id = 1 then some () else none) 3
  rw [he 2 (by decide),hs 1 () (by decide) (by decide) (fun k hk _ => if_neg (by omega)) (by decide)
    (.inr (by decide))]

end HetuCore.Snapshot.TaskSnapshotManager
