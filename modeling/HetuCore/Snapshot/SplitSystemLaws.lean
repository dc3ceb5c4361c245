import HetuCore.Snapshot.SplitReplayLaws

namespace HetuCore.Snapshot
open Foundation MarkerAnnouncer
variable {σ : Type}

/-- The sources of a query with the splits of the wrapped sources. The sources of a union
are told about the whole union, themselves included. -/
structure SourcePlan (σ : Type) where
  sources : List Nat
  nodup : sources.Nodup
  sequence : Nat → List σ
  dependencies : Nat → Finset Nat
  unions : Nat → Finset Nat
  self_mem_unions : ∀ i, unions i ≠ ∅ → i ∈ unions i

namespace SplitSystem
variable {s s' s'' : SplitSystem σ} {i : Nat} {now : Int}

/-- The ids that a source has given to its markers. -/
def used (s : SplitSystem σ) (i : Nat) (id : Int) : Prop :=
  id ≠ 0 ∧ (s.sources i).replay.snapshotBufferPositions.get id ≠ none

/-- A source that has left its union knows the union's last marker. -/
def UnionKnown (b : MarkerSplitSource σ) (i : Nat) : Prop :=
  b.unionSources ≠ ∅ → i ∈ b.remainingUnionSources ∨ b.lastMarkerForUnion.isSome = true

/-- A change of the system that touches no replay and gives out no id. -/
structure Linked (s s' : SplitSystem σ) : Prop where
  replay : ∀ j, (s'.sources j).replay = (s.sources j).replay
  union : ∀ j, UnionKnown (s.sources j) j → UnionKnown (s'.sources j) j
  fresh : ∀ used, s.announcer.Fresh used → s'.announcer.Fresh used

theorem Linked.refl (s : SplitSystem σ) : Linked s s := ⟨fun _ => rfl,fun _ h => h,fun _ h => h⟩

theorem Linked.trans (h : Linked s s') (h' : Linked s' s'') : Linked s s'' :=
  ⟨fun j => (h'.replay j).trans (h.replay j),fun j hj => h'.union j (h.union j hj),fun u hu => h'.fresh u (h.fresh u hu)⟩

variable {f : MarkerSplitSource σ → MarkerSplitSource σ}

theorem forall_modify {p : Nat → MarkerSplitSource σ → Prop} (hs : p i (f (s.sources i)))
    (ho : ∀ j, j ≠ i → p j (s.sources j)) (j : Nat) : p j ((s.modify i f).sources j) := by
  by_cases hj : j = i
  · subst hj
    simpa [modify] using hs
  · simpa [modify,hj] using ho j hj

theorem linked_modify (hr : ∀ b, (f b).replay = b.replay) (hu : ∀ b, UnionKnown b i → UnionKnown (f b) i) :
    Linked s (s.modify i f) where
  replay := forall_modify (p := fun j b => b.replay = (s.sources j).replay) (hr _) fun _ _ => rfl
  union := forall_modify (p := fun j b => UnionKnown (s.sources j) j → UnionKnown b j) (hu _) fun _ _ h => h
  fresh := fun _ h => h

theorem linked_deactivate : Linked s (s.deactivate now i) where
  replay := by
    intro j
    rw [deactivate]
    dsimp only
    split
    · rfl
    · rfl
  union := by
    intro j hk
    rw [deactivate]
    dsimp only
    split
    · exact hk
    · exact hk
  fresh := fun _ h => fresh_deactivateSplitSource now h

theorem linked_finish : Linked s (s.finish now i) := by
  have hs : Linked s (s.modify i fun b => { b with sentFinalMarker := true }) :=
    linked_modify (fun _ => rfl) fun _ h => h
  exact hs.trans linked_deactivate

theorem linked_finishUnionSources {lastMarker : Option Int} : Linked s (s.finishUnionSources i lastMarker) where
  replay := by
    intro j
    rw [finishUnionSources]
    dsimp only
    split
    · rfl
    · rfl
  union := by
    intro j hk
    rw [finishUnionSources]
    dsimp only
    split
    · exact fun _ => .inr rfl
    · exact hk
  fresh := fun _ h => h

theorem linked_updateUnionsources (s : SplitSystem σ) (i : Nat) (sid : Int) (lastBatch : Bool) :
    Linked s (s.updateUnionsources i sid lastBatch).2 ∧
      ((s.updateUnionsources i sid lastBatch).1 = true → lastBatch = true) := by
  rw [updateUnionsources]
  split
  · rename_i hl
    refine ⟨?_,fun _ => hl.1⟩
    split
    · exact linked_finishUnionSources
    · exact .refl s
  · exact ⟨.refl s,id⟩

/-- The replays agree with the logs, and no id that is given out has been used. -/
structure Good (plan : SourcePlan σ) (s : SplitSystem σ) (logs : Nat → SourceLog σ) : Prop where
  replayed : ∀ j, Replayed (plan.sequence j) (s.sources j).replay (logs j)
  union : ∀ j, UnionKnown (s.sources j) j
  fresh : s.announcer.Fresh s.used

variable {plan : SourcePlan σ} {logs : Nat → SourceLog σ}

theorem Good.linked (h : Good plan s logs) (hl : Linked s s') : Good plan s' logs where
  replayed := by
    intro j
    rw [hl.replay]
    exact h.replayed j
  union := fun j => hl.union j (h.union j)
  fresh := by
    apply (hl.fresh _ h.fresh).mono
    intro j id hu
    rw [used,hl.replay] at hu
    exact hu

variable {sid : Int} {announcement : Announcement} {log : SourceLog σ}

theorem Good.move (h : Good plan s logs) (hr : Replayed (plan.sequence i) (f (s.sources i)).replay log)
    (hu : UnionKnown (f (s.sources i)) i) (hf : s.announcer.Fresh (s.modify i f).used) :
    Good plan (s.modify i f) (Function.update logs i log) where
  replayed := forall_modify (p := fun j b => Replayed (plan.sequence j) b.replay (Function.update logs i log j))
    (by simpa using hr) fun j hj => by simpa [hj] using h.replayed j
  union := forall_modify (p := fun j b => UnionKnown b j) hu fun j _ => h.union j
  fresh := hf

theorem used_modify {j : Nat} {id : Int} : (s.modify i f).used j id ↔
    if j = i then id ≠ 0 ∧ (f (s.sources i)).replay.snapshotBufferPositions.get id ≠ none else s.used j id := by
  by_cases hj : j = i
  · subst hj
    simp [used,modify]
  · simp [used,modify,hj]

theorem Good.moved (h : Good plan s logs) (hr : Replayed (plan.sequence i) (f (s.sources i)).replay log)
    (hun : UnionKnown (f (s.sources i)) i)
    (hp : (f (s.sources i)).replay.snapshotBufferPositions = (s.sources i).replay.snapshotBufferPositions) :
    Good plan (s.modify i f) (Function.update logs i log) := by
  refine h.move hr hun (h.fresh.mono fun j id hu => ?_)
  rw [used_modify] at hu
  split at hu
  · rename_i hj
    rw [hj]
    rwa [hp] at hu
  · exact hu

/-- The batch holds only data splits or only one marker, and the last batch comes when all
splits of the wrapped source have been returned. -/
def Proper (sequence : List σ) (log : SourceLog σ) (batch : SplitBatch σ) : Prop :=
  ((∃ splits : List σ, batch.splits = splits.map .data) ∨ ∃ sid resuming, batch.splits = [.marker sid resuming]) ∧
    (batch.lastBatch = true → log.returned = sequence)

def Served (plan : SourcePlan σ) (logs : Nat → SourceLog σ) (i : Nat) (r : Option (SplitBatch σ) × SplitSystem σ) : Prop :=
  Good plan r.2 (Function.update logs i ((logs i).add r.1)) ∧
    ∀ batch ∈ r.1, Proper (plan.sequence i) ((logs i).add r.1) batch

theorem served_quiet {batch : SplitBatch σ} (h : Good plan s logs) (ha : (logs i).add (some batch) = logs i)
    (hp : Proper (plan.sequence i) (logs i) batch) : Served plan logs i (some batch,s) := by
  refine ⟨?_,?_⟩
  · rw [ha,Function.update_eq_self]
    exact h
  · rintro b ⟨⟩
    rw [ha]
    exact hp

theorem served_resumeMarker (now : Int) (i : Nat) (sid : Int) (h : Good plan s logs) :
    Served plan logs i (some (s.recordSnapshot now i true sid (s.sources i).replay.drained).1,
      (s.recordSnapshot now i true sid (s.sources i).replay.drained).2) := by
  obtain ⟨hln,hls⟩ := linked_updateUnionsources s i sid (s.sources i).replay.drained
  apply served_quiet
  · rw [recordSnapshot]
    dsimp only
    split
    · exact h.linked (hln.trans linked_finish)
    · exact h.linked hln
  · simp [SourceLog.add,recordSnapshot,SourceLog.addSplit]
  · exact ⟨.inr ⟨_,_,rfl⟩,fun hl => (h.replayed i).returned_of_drained (hls hl)⟩

section
variable (h : Good plan s logs)
include h

theorem served_marker {lastBatch : Bool} (hp : 0 < sid) (hun : ¬s.used i sid)
    (hf : s.announcer.Fresh (use s.used i sid))
    (hls : lastBatch = true → (s.sources i).replay.drained = true) :
    Served plan logs i (some (s.recordSnapshot now i false sid lastBatch).1,
      (s.recordSnapshot now i false sid lastBatch).2) := by
  obtain ⟨hln,hlc⟩ := linked_updateUnionsources s i sid lastBatch
  have hz : sid ≠ 0 := Int.ne_of_gt hp
  have hg : (s.sources i).replay.snapshotBufferPositions.get sid = none := by
    by_contra hs
    exact hun ⟨hz,hs⟩
  have hrp := (h.replayed i).record hz hg
  have hlg : (logs i).add (some (s.recordSnapshot now i false sid lastBatch).1) =
      (logs i).addSplit (.marker sid false) := rfl
  have hrt : ((logs i).addSplit (.marker sid false)).returned = (logs i).returned := by
    rw [SourceLog.addSplit,if_neg (by simp [hz])]
    rfl
  refine ⟨?_,?_⟩
  · rw [recordSnapshot]
    dsimp only
    have hr : Good plan ((s.updateUnionsources i sid lastBatch).2.modify i fun b =>
        { b with replay := b.replay.record sid }) (Function.update logs i ((logs i).addSplit (.marker sid false))) := by
      apply (h.linked hln).move
      · rw [hln.replay]
        exact hrp
      · exact (h.linked hln).union i
      · apply (hln.fresh _ hf).mono
        intro j id hu
        rw [used_modify] at hu
        split at hu
        · rename_i hj
          subst hj
          rw [hln.replay] at hu
          have hg := hu.2
          simp only [SplitReplay.record,LinkedMap.get_put] at hg
          split at hg
          · rename_i hid
            exact .inr ⟨rfl,hid⟩
          · exact .inl ⟨hu.1,hg⟩
        · rw [used,hln.replay] at hu
          exact .inl hu
    split
    · exact hr.linked linked_finish
    · exact hr
  · rintro batch ⟨⟩
    rw [hlg]
    refine ⟨.inr ⟨_,_,rfl⟩,fun hl => ?_⟩
    rw [hrt]
    exact (h.replayed i).returned_of_drained (hls (hlc hl))

theorem Good.announce (ha : s.announcer.Announced s.used i announcement) :
    Good plan { s with announcer := announcement.announcer } logs := by
  refine ⟨h.replayed,h.union,?_⟩
  rw [Announced] at ha
  split at ha
  · exact ha ▸ h.fresh
  · exact ha.2.2.mono fun _ _ hu => .inl hu

theorem served_announced {lastBatch : Bool} (ha : s.announcer.Announced s.used i announcement)
    (hid : announcement.snapshotId = some sid) (hl : lastBatch = true → (s.sources i).replay.drained = true) :
    Served plan logs i
      (some (recordSnapshot { s with announcer := announcement.announcer } now i false sid lastBatch).1,
        (recordSnapshot { s with announcer := announcement.announcer } now i false sid lastBatch).2) := by
  have hg := h.announce ha
  rw [Announced,hid] at ha
  exact served_marker hg ha.1 ha.2.1 ha.2.2 hl

theorem forceMarker_serves (he : s.captureDisabled = false) (hd : (s.sources i).replay.drained = true) :
    Ends (fun _ => False) (Served plan logs i) (s.forceMarker now i) := by
  have hi : s.announcer.interval ≠ .captureDisabled := by simpa [captureDisabled] using he
  obtain ⟨hs,ha⟩ := announced_forceGenerateMarker now i h.fresh hi
  obtain ⟨sid,hid⟩ := Option.isSome_iff_exists.mp hs
  rw [forceMarker]
  simp only [hid]
  exact served_announced h ha hid fun _ => hd

theorem unionBatch_serves (hu : (s.sources i).unionSources ≠ ∅) (hl : i ∉ (s.sources i).remainingUnionSources)
    (hd : (s.sources i).replay.drained = true) : Ends (fun _ => False) (Served plan logs i) (s.unionBatch now i) := by
  have ha := announced_shouldGenerateMarker now i h.fresh
  have hg := h.announce ha
  have hw (last : Bool) : Served plan logs i (some ⟨[],last⟩,
      if last then finish { s with announcer := (s.announcer.shouldGenerateMarker now i).announcer } now i
      else { s with announcer := (s.announcer.shouldGenerateMarker now i).announcer }) := by
    apply served_quiet
    · split
      · exact hg.linked linked_finish
      · exact hg
    · rfl
    · exact ⟨.inl ⟨[],rfl⟩,fun _ => (h.replayed i).returned_of_drained hd⟩
  rw [unionBatch]
  split
  · exact hw _
  · rename_i hn
    obtain hin | hs := h.union i hu
    · exact absurd hin hl
    · rw [hn] at hs
      cases hs
  · rename_i sid lastMarker hid hls
    split
    · exact served_announced h ha hid fun _ => hd
    · exact hw _

theorem dataBatch_serves (maxSize : Nat) (reply : Option (Nat × Bool)) :
    Ends (fun _ => False) (Served plan logs i) (s.dataBatch (plan.sequence i) now i maxSize reply) := by
  obtain ⟨result,replay,hpr,hp,hr,hls⟩ := (h.replayed i).prepare maxSize reply
  have hm := h.moved (f := fun b => { b with replay := replay }) hr (h.union i) hp
  have hrp : ((s.modify i fun b => { b with replay := replay }).sources i).replay = replay := by simp [modify]
  apply Ends.after hpr
  cases result with
  | none =>
    refine ⟨?_,by simp⟩
    have hs : ({ logs i with since := (logs i).since ++ [] } : SourceLog σ) = (logs i).add none := by
      simp [SourceLog.add]
    exact hs ▸ hm
  | some p =>
    obtain ⟨splits,lastBatch⟩ := p
    have hc : Good plan
        { s.modify i fun b => { b with replay := replay } with
          announcer := (s.modify i fun b => { b with replay := replay }).announcer.incrementSplitCount splits.length }
        (Function.update logs i { logs i with since := (logs i).since ++ splits }) :=
      ⟨hm.replayed,hm.union,fresh_incrementSplitCount hm.fresh⟩
    have ha (last : Bool) := (logs i).add_data splits last
    have hd (last : Bool) {s' : SplitSystem σ}
        (hg : Good plan s' (Function.update logs i { logs i with since := (logs i).since ++ splits }))
        (hal : last = true → lastBatch = true) : Served plan logs i (some ⟨splits.map .data,last⟩,s') := by
      refine ⟨by rw [ha]; exact hg,?_⟩
      rintro batch ⟨⟩
      rw [ha]
      exact ⟨.inl ⟨splits,rfl⟩,fun hl => hr.returned_of_drained (hls _ rfl (hal hl))⟩
    dsimp only
    split
    · rename_i hl
      split
      · rename_i hf
        obtain rfl := List.isEmpty_iff.mp hf.1
        have hs : Function.update logs i { logs i with since := (logs i).since ++ [] } = logs := by simp
        rw [hs] at hc
        refine forceMarker_serves hc (by simpa using hf.2) ?_
        rw [hrp]
        exact hls _ rfl hl
      · refine hd _ ?_ fun _ => hl
        split
        · exact hc.linked linked_finish
        · exact hc
    · exact hd false hc Bool.noConfusion

theorem nextSplits_serves (maxSize : Nat) (reply : Option (Nat × Bool)) :
    Ends (fun _ => False) (Served plan logs i) (s.nextSplits (plan.sequence i) now i maxSize reply) := by
  have ha := announced_shouldGenerateMarker now i h.fresh
  have hg := h.announce ha
  rw [nextSplits]
  dsimp only
  split
  · rename_i sid hid
    exact served_announced h ha hid Bool.noConfusion
  · split
    · exact served_quiet hg rfl ⟨.inl ⟨[],rfl⟩,Bool.noConfusion⟩
    · exact dataBatch_serves hg maxSize reply

end

theorem Served.linked {r : Option (SplitBatch σ) × SplitSystem σ} (h : Served plan logs i r) (hl : Linked r.2 s') :
    Served plan logs i (r.1,s') := ⟨h.1.linked hl,h.2⟩

theorem getNextBatch_serves (now : Int) (i : Nat) (h : Good plan s logs) {maxSize : Nat} (hsz : 0 < maxSize) (reply : Option (Nat × Bool)) :
    Ends (fun _ => False) (Served plan logs i) (s.getNextBatch (plan.sequence i) now i maxSize reply) := by
  rw [getNextBatch]
  rw [if_neg (Nat.ne_of_gt hsz)]
  have hs : Linked s (s.modify i fun b => { b with sentInitialMarker := true }) :=
    linked_modify (fun _ => rfl) fun _ hk => hk
  split
  · rename_i sid hr
    have hm := served_resumeMarker now i sid (h.linked hs)
    rw [hs.replay] at hm
    exact hm.linked (linked_modify (fun _ => rfl) fun _ hk => hk)
  · split
    · exact served_quiet (h.linked hs) rfl ⟨.inr ⟨_,_,rfl⟩,Bool.noConfusion⟩
    · split
      · rename_i hd
        split
        · rename_i hu
          exact unionBatch_serves h hu.1 hu.2 hd
        · split
          · rename_i he
            exact forceMarker_serves h (by simpa using he) hd
          · exact nextSplits_serves h maxSize reply
      · exact nextSplits_serves h maxSize reply

/-- While splits remain and no source is waited for, every batch holds a marker or splits. -/
theorem getNextBatch_ne_nil {maxSize count : Nat} {last : Bool} {r : Option (SplitBatch σ) × SplitSystem σ}
    (h : Good plan s logs) (hn : (logs i).returned ≠ plan.sequence i) (hd : (s.sources i).remainingDependencies = ∅)
    (hs : 0 < maxSize) (hc : 0 < count)
    (hr : s.getNextBatch (plan.sequence i) now i maxSize (some (count,last)) = .ok r) :
    ∃ batch ∈ r.1, batch.splits ≠ [] := by
  have hf : ¬(s.sources i).replay.drained = true := fun hd => hn ((h.replayed i).returned_of_drained hd)
  rw [getNextBatch,if_neg (Nat.ne_of_gt hs)] at hr
  split at hr
  · cases hr
    exact ⟨_,rfl,nofun⟩
  · split at hr
    · cases hr
      exact ⟨_,rfl,nofun⟩
    · rw [nextSplits] at hr
      dsimp only at hr
      split at hr
      · cases hr
        exact ⟨_,rfl,nofun⟩
      · rw [if_neg (not_not.mpr hd),dataBatch] at hr
        obtain ⟨⟨result,replay⟩,hp,hr⟩ := bind_ok hr
        obtain ⟨splits,lastBatch,rfl,hne⟩ := (h.replayed i).prepare_ne_nil hn hs hc hp
        have hm : splits.map Split.data ≠ [] := by simpa using hne
        dsimp only at hr
        split at hr
        · rw [if_neg (by simp [hne])] at hr
          cases hr
          exact ⟨_,rfl,hm⟩
        · cases hr
          exact ⟨_,rfl,hm⟩

theorem resumeSnapshot_good (h : Good plan s logs) (hm : sid = 0 ∨ sid ∈ (logs i).emitted.map Prod.fst) :
    ∃ b, (s.sources i).resumeSnapshot sid = .ok b ∧
      Good plan (s.modify i fun _ => b) (Function.update logs i ((logs i).rewind sid)) := by
  obtain ⟨replay,hrw,hp,hr⟩ := (h.replayed i).rewind hm
  rw [MarkerSplitSource.resumeSnapshot,hrw]
  refine ⟨_,rfl,?_⟩
  refine h.moved hr (fun hu => ?_) hp
  exact (h.union i hu).imp_left (Finset.mem_union_left _)

end SplitSystem

end HetuCore.Snapshot
