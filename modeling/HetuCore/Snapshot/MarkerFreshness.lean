import HetuCore.Snapshot.MarkerAnnouncer

namespace HetuCore.Snapshot
open Foundation List
namespace MarkerAnnouncer
variable {a : MarkerAnnouncer} {used : Nat → Int → Prop} {source : Nat}

/-- What holds of the ids that the sources have used: the current one only if the source is
known to have sent it, and none that is still pending. -/
structure Fresh (a : MarkerAnnouncer) (used : Nat → Int → Prop) : Prop where
  positive : a.interval ≠ .captureDisabled → 0 < a.currentSnapshotId
  sources : (a.allSplitSources.entries.map Prod.snd).Nodup
  active : a.activeSplitSources.Nodup
  past : ∀ i id, used i id → id < a.currentSnapshotId ∨ id = a.currentSnapshotId ∧ i ∈ a.markerSplitSent
  pending : ∀ i, ∀ id ∈ a.pendingSnapshot i, 0 < id ∧ id < a.currentSnapshotId ∧ ¬used i id
  once : ∀ i, (a.pendingSnapshot i).Nodup

/-- The ids used once a source has sent one more. -/
def use (used : Nat → Int → Prop) (source : Nat) (snapshotId : Int) (i : Nat) (id : Int) : Prop :=
  used i id ∨ i = source ∧ id = snapshotId

theorem Fresh.mono {used' : Nat → Int → Prop} (h : Fresh a used) (hi : ∀ i id, used' i id → used i id) :
    Fresh a used' :=
  ⟨h.positive,h.sources,h.active,fun i id hu => h.past i id (hi i id hu),
    fun i id hid => ⟨(h.pending i id hid).1,(h.pending i id hid).2.1,fun hu => (h.pending i id hid).2.2 (hi i id hu)⟩,h.once⟩

variable (now : Int)

section
variable (h : Fresh a used)
include h

theorem fresh_setupNewSnapshotId : Fresh (a.setupNewSnapshotId now) used := by
  rw [setupNewSnapshotId]
  split
  · exact h
  · rename_i he
    refine ⟨fun _ => ?_,h.sources,h.active,fun i id hu => .inl ?_,fun i id hid => ?_,h.once⟩
    · exact Int.lt_add_one_of_le (Int.le_of_lt (h.positive he))
    · obtain hlt | ⟨heq,-⟩ := h.past i id hu
      · exact Int.lt_add_one_of_le (Int.le_of_lt hlt)
      · exact Int.lt_add_one_of_le (Int.le_of_eq heq)
    · obtain ⟨hp,hlt,hn⟩ := h.pending i id hid
      exact ⟨hp,Int.lt_add_one_of_le (Int.le_of_lt hlt),hn⟩

theorem fresh_checkMarkerSplitCompleteness : Fresh (a.checkMarkerSplitCompleteness now) used := by
  rw [checkMarkerSplitCompleteness]
  split
  · exact fresh_setupNewSnapshotId now h
  · exact h

theorem fresh_deactivateSplitSource : Fresh (a.deactivateSplitSource now source) used := by
  rw [deactivateSplitSource]
  split
  · have he : Fresh { a with activeSplitSources := a.activeSplitSources.erase source } used :=
      ⟨h.positive,h.sources,h.active.erase source,h.past,h.pending,h.once⟩
    dsimp only
    split
    · exact he
    · exact fresh_checkMarkerSplitCompleteness now he
  · exact h

theorem fresh_incrementSplitCount {count : Nat} : Fresh (a.incrementSplitCount count) used := by
  rw [incrementSplitCount]
  split
  · exact ⟨h.positive,h.sources,h.active,h.past,h.pending,h.once⟩
  · exact h

theorem fresh_resumeSnapshot : Fresh (a.resumeSnapshot now) used := by
  have ha : Fresh { a with activeSplitSources := a.allSplitSources.entries.map Prod.snd } used :=
    ⟨h.positive,h.sources,h.sources,h.past,h.pending,h.once⟩
  have hn := fresh_setupNewSnapshotId now ha
  exact ⟨hn.positive,hn.sources,hn.active,hn.past,nofun,fun i => nodup_nil⟩

end

/-- What an announcement is: none, which changes nothing, or an id that the source has not used. -/
def Announced (a : MarkerAnnouncer) (used : Nat → Int → Prop) (source : Nat) (announcement : Announcement) : Prop :=
  match announcement.snapshotId with
  | none => announcement.announcer = a
  | some id => 0 < id ∧ ¬used source id ∧ Fresh announcement.announcer (use used source id)

theorem announced_generateMarker (h : Fresh a used) (he : a.interval ≠ .captureDisabled)
    (hsr : source ∉ a.markerSplitSent) : Announced a used source (a.generateMarker now source) := by
  refine ⟨h.positive he,?_,?_⟩
  · intro hu
    obtain hlt | ⟨-,hs⟩ := h.past source _ hu
    · exact absurd hlt (Int.lt_irrefl _)
    · exact hsr hs
  · apply fresh_checkMarkerSplitCompleteness now
    refine ⟨h.positive,h.sources,h.active,?_,?_,h.once⟩
    · rintro i id (hu | ⟨rfl,rfl⟩)
      · obtain hlt | ⟨heq,hs⟩ := h.past i id hu
        · exact .inl hlt
        · exact .inr ⟨heq,mem_append_left _ hs⟩
      · exact .inr ⟨rfl,mem_concat_self⟩
    · intro i id hid
      obtain ⟨hp,hlt,hn⟩ := h.pending i id hid
      refine ⟨hp,hlt,?_⟩
      rintro (hu | ⟨-,rfl⟩)
      · exact hn hu
      · exact absurd hlt (Int.lt_irrefl _)

theorem fresh_pollPending {pendingId : Int} {rest : List Int} (h : Fresh a used)
    (hp : a.pendingSnapshot source = pendingId :: rest) :
    Fresh { a with pendingSnapshot := Function.update a.pendingSnapshot source rest } (use used source pendingId) := by
  have ho := h.once source
  rw [hp,nodup_cons] at ho
  refine ⟨h.positive,h.sources,h.active,?_,?_,?_⟩
  · rintro i id (hu | ⟨rfl,rfl⟩)
    · exact h.past i id hu
    · exact .inl (h.pending i id (hp ▸ mem_cons_self ..)).2.1
  · intro i id hid
    by_cases hi : i = source
    · subst hi
      have hid : id ∈ rest := by simpa using hid
      obtain ⟨hps,hlt,hn⟩ := h.pending i id (hp ▸ mem_cons_of_mem _ hid)
      refine ⟨hps,hlt,?_⟩
      rintro (hu | ⟨-,rfl⟩)
      · exact hn hu
      · exact ho.1 hid
    · have hid : id ∈ a.pendingSnapshot i := by simpa [hi] using hid
      obtain ⟨hps,hlt,hn⟩ := h.pending i id hid
      exact ⟨hps,hlt,fun hu => hn (hu.resolve_right fun heq => hi heq.1)⟩
  · intro i
    by_cases hi : i = source
    · subst hi
      simpa using ho.2
    · simpa [hi] using h.once i

theorem announced_shouldGenerateMarker (source : Nat) (h : Fresh a used) :
    Announced a used source (a.shouldGenerateMarker now source) := by
  rw [shouldGenerateMarker]
  split
  · rfl
  · rename_i he
    split
    · rename_i pendingId rest hp
      obtain ⟨hps,-,hnt⟩ := h.pending source pendingId (hp ▸ mem_cons_self ..)
      exact ⟨hps,hnt,fresh_pollPending h hp⟩
    · split
      · split
        · rfl
        · rename_i hs
          exact announced_generateMarker now h he hs
      · rename_i hem
        have hn : source ∉ a.markerSplitSent := by
          rw [not_not.mp hem]
          exact not_mem_nil
        split
        · exact announced_generateMarker now h he hn
        · rfl

private theorem recordUncompleted_foldl {behind : List Nat} (hb : behind.Nodup) (a : MarkerAnnouncer) :
    behind.foldl (fun a source => { a with
      pendingSnapshot := Function.update a.pendingSnapshot source (a.pendingSnapshot source ++ [a.currentSnapshotId]) }) a =
      { a with
        pendingSnapshot := fun i => if i ∈ behind then a.pendingSnapshot i ++ [a.currentSnapshotId] else a.pendingSnapshot i } := by
  induction behind generalizing a with
  | nil => rfl
  | cons source behind ih =>
    obtain ⟨hn,hr⟩ := nodup_cons.mp hb
    rw [foldl_cons,ih hr]
    congr 1
    funext i
    by_cases hi : i = source
    · subst hi
      simp [hn]
    · simp [hi]

/-- The current id becomes pending for the active sources that have not sent it. -/
theorem recordUncompletedSplitSource_eq (h : a.activeSplitSources.Nodup) :
    a.recordUncompletedSplitSource = { a with
      pendingSnapshot := fun i =>
        if i ∈ a.activeSplitSources ∧ i ∉ a.markerSplitSent then a.pendingSnapshot i ++ [a.currentSnapshotId]
        else a.pendingSnapshot i } := by
  rw [recordUncompletedSplitSource,recordUncompleted_foldl (h.filter _)]
  simp [mem_filter]

theorem fresh_recordUncompleted (h : Fresh a used) (he : a.interval ≠ .captureDisabled) :
    Fresh (a.recordUncompletedSplitSource.setupNewSnapshotId now) used := by
  have hn := fresh_setupNewSnapshotId now h
  rw [setupNewSnapshotId,if_neg he] at hn
  rw [recordUncompletedSplitSource_eq h.active,setupNewSnapshotId,if_neg he]
  refine ⟨hn.positive,hn.sources,hn.active,hn.past,?_,?_⟩
  · intro i id hid
    dsimp only at hid
    split at hid
    · rename_i hb
      obtain hid | hid := mem_append.mp hid
      · exact hn.pending i id hid
      · obtain rfl := mem_singleton.mp hid
        refine ⟨h.positive he,Int.lt_add_one_of_le (Int.le_refl _),?_⟩
        intro hu
        obtain hlt | ⟨-,hs⟩ := h.past i _ hu
        · exact absurd hlt (Int.lt_irrefl _)
        · exact hb.2 hs
    · exact hn.pending i id hid
  · intro i
    dsimp only
    split
    · refine (h.once i).append (nodup_singleton _) (disjoint_singleton.mpr ?_)
      intro hm
      exact absurd (h.pending i _ hm).2.1 (Int.lt_irrefl _)
    · exact h.once i

theorem announced_forceGenerateMarker (source : Nat) (h : Fresh a used) (he : a.interval ≠ .captureDisabled) :
    (a.forceGenerateMarker now source).snapshotId.isSome ∧
      Announced a used source (a.forceGenerateMarker now source) := by
  have hs := announced_shouldGenerateMarker now source h
  rw [forceGenerateMarker]
  split
  · rename_i hsm
    exact ⟨hsm,hs⟩
  · rename_i hnn
    have hsa : (a.shouldGenerateMarker now source).announcer = a := by
      rw [Announced,Option.not_isSome_iff_eq_none.mp hnn] at hs
      exact hs
    rw [hsa]
    dsimp only
    split
    · have hr := fresh_recordUncompleted now h he
      have hn : (a.recordUncompletedSplitSource.setupNewSnapshotId now).interval ≠ .captureDisabled ∧
          source ∉ (a.recordUncompletedSplitSource.setupNewSnapshotId now).markerSplitSent := by
        rw [recordUncompletedSplitSource_eq h.active,setupNewSnapshotId,if_neg he]
        exact ⟨he,not_mem_nil⟩
      exact ⟨rfl,announced_generateMarker now hr hn.1 hn.2⟩
    · rename_i hem
      have hsr : source ∉ a.markerSplitSent := by
        rw [not_not.mp hem]
        exact not_mem_nil
      exact ⟨rfl,announced_generateMarker now h he hsr⟩

variable (interval : SnapshotInterval)

/-- The announcer of the given sources before any of them has sent a marker. -/
def ofSources (now : Int) (sources : List Nat) : MarkerAnnouncer :=
  sources.foldl (fun a source => a.createMarkerSplitSource now source source) (.new interval now)

theorem fresh_createMarkerSplitSource {nodeId : Nat} (h : Fresh a used) (ha : source ∉ a.activeSplitSources)
    (hn : nodeId ∉ a.allSplitSources.keys) (hs : source ∉ a.allSplitSources.entries.map Prod.snd) :
    Fresh (a.createMarkerSplitSource now source nodeId) used := by
  have hc : Fresh { a with
      allSplitSources := a.allSplitSources.put nodeId source
      activeSplitSources := a.activeSplitSources ++ [source]
      pendingSnapshot := Function.update a.pendingSnapshot source [] } used := by
    refine ⟨h.positive,?_,?_,h.past,?_,?_⟩
    · rw [LinkedMap.entries_put_of_notMem hn,map_append]
      exact h.sources.append (nodup_singleton _) (disjoint_singleton.mpr hs)
    · exact h.active.append (nodup_singleton _) (disjoint_singleton.mpr ha)
    · intro i id hid
      by_cases hi : i = source
      · simp [hi] at hid
      · exact h.pending i id (by simpa [hi] using hid)
    · intro i
      by_cases hi : i = source
      · simp [hi]
      · simpa [hi] using h.once i
  rw [createMarkerSplitSource]
  split
  · exact ⟨hc.positive,hc.sources,hc.active,hc.past,hc.pending,hc.once⟩
  · exact hc

theorem fresh_ofSources (now : Int) {sources : List Nat} (hs : sources.Nodup) :
    Fresh (ofSources interval now sources) fun _ _ => False := by
  have hnw : Fresh (.new interval now) fun _ _ => False := by
    refine ⟨fun he => ?_,nodup_nil,nodup_nil,fun _ _ hu => hu.elim,nofun,fun _ => nodup_nil⟩
    have he : interval ≠ .captureDisabled := he
    rw [MarkerAnnouncer.new,if_neg he]
    exact Int.one_pos
  suffices hfl : ∀ a : MarkerAnnouncer, Fresh a (fun _ _ => False) → (∀ i ∈ sources, i ∉ a.activeSplitSources ∧
      i ∉ a.allSplitSources.keys ∧ i ∉ a.allSplitSources.entries.map Prod.snd) →
      Fresh (sources.foldl (fun a source => a.createMarkerSplitSource now source source) a) fun _ _ => False by
    exact hfl _ hnw fun i _ => ⟨not_mem_nil,not_mem_nil,not_mem_nil⟩
  induction sources with
  | nil => exact fun a ha _ => ha
  | cons source sources ih =>
    intro a ha hnt
    obtain ⟨hsr,hr⟩ := nodup_cons.mp hs
    obtain ⟨hac,hn,hvl⟩ := hnt source (mem_cons_self ..)
    refine ih hr _ (fresh_createMarkerSplitSource now ha hac hn hvl) ?_
    intro i hi
    have hne : i ≠ source := fun heq => hsr (heq ▸ hi)
    obtain ⟨hac,hk,hv⟩ := hnt i (mem_cons_of_mem _ hi)
    have hf : (a.createMarkerSplitSource now source source).activeSplitSources = a.activeSplitSources ++ [source] ∧
        (a.createMarkerSplitSource now source source).allSplitSources = a.allSplitSources.put source source := by
      rw [createMarkerSplitSource]
      split
      · exact ⟨rfl,rfl⟩
      · exact ⟨rfl,rfl⟩
    rw [hf.1,hf.2,LinkedMap.mem_keys_put,LinkedMap.entries_put_of_notMem hn]
    exact ⟨by simp [hac,hne],by simp [hk,hne],by simpa [hne] using hv⟩

end MarkerAnnouncer
end HetuCore.Snapshot
