import HetuCore.Foundation.Machine
import HetuCore.Snapshot.MarkerFreshness

/-! The ids that `MarkerAnnouncer` gives to the split sources between two resumes. -/
namespace HetuCore.Snapshot
open Foundation List

inductive AnnouncerCall where
  | shouldGenerateMarker (now : Int) (source : Nat)
  | forceGenerateMarker (now : Int) (source : Nat)
  | deactivateSplitSource (now : Int) (source : Nat)
  | incrementSplitCount (count : Nat)

/-- The announcer and the ids that the sources were given, in order. -/
structure MarkerTimeline where
  announcer : MarkerAnnouncer
  given : List (Nat × Int)

namespace MarkerTimeline
open MarkerAnnouncer

/-- The source that makes the call and the id that it gets. -/
def answer (t : MarkerTimeline) : AnnouncerCall → Option (Nat × Int)
  | .shouldGenerateMarker now source => (t.announcer.shouldGenerateMarker now source).snapshotId.map (source,·)
  | .forceGenerateMarker now source => (t.announcer.forceGenerateMarker now source).snapshotId.map (source,·)
  | _ => none

def next (a : MarkerAnnouncer) : AnnouncerCall → MarkerAnnouncer
  | .shouldGenerateMarker now source => (a.shouldGenerateMarker now source).announcer
  | .forceGenerateMarker now source => (a.forceGenerateMarker now source).announcer
  | .deactivateSplitSource now source => a.deactivateSplitSource now source
  | .incrementSplitCount count => a.incrementSplitCount count

def call (t : MarkerTimeline) (c : AnnouncerCall) : MarkerTimeline := ⟨next t.announcer c,t.given ++ (t.answer c).toList⟩

def run (start : MarkerAnnouncer) (calls : List AnnouncerCall) : MarkerTimeline := calls.foldl call ⟨start,[]⟩

/-- The id is above all that the source was given and, if the source is active, no id in between was given to another. -/
def Follows (active : List Nat) (given : List (Nat × Int)) (source : Nat) (id : Int) : Prop :=
  (∀ old, (source,old) ∈ given → old < id) ∧
    (source ∈ active → ∀ other old, (other,old) ∈ given → old < id → (source,old) ∈ given)

/-- The current id, or one that some source was given. -/
def Known (current : Int) (given : List (Nat × Int)) (id : Int) : Prop := id = current ∨ ∃ other, (other,id) ∈ given

/-- What one timeline keeps: the ids that a source is still to get are in order and above those that it was given,
and an active source was given or is to get every id that is known. -/
structure Kept (current : Int) (active : List Nat) (todo : Nat → List Int) (given : List (Nat × Int)) : Prop where
  past : ∀ i id, (i,id) ∈ given → id ≤ current
  sorted : ∀ i, (todo i).Pairwise (· < ·)
  ahead : ∀ i, ∀ id ∈ todo i, id ≤ current ∧ (∀ old, (i,old) ∈ given → old < id) ∧ Known current given id
  reaches : ∀ i ∈ active, ∀ id, Known current given id → (i,id) ∈ given ∨ id ∈ todo i

namespace Kept
variable {current : Int} {active : List Nat} {todo base : Nat → List Int} {given : List (Nat × Int)}
  (h : Kept current active todo given)
include h

/-- A source gets the first id that it is to get. -/
theorem take {source : Nat} {id : Int} {rest : List Int} (ht : todo source = id :: rest) :
    Follows active given source id ∧ Kept current active (Function.update todo source rest) (given ++ [(source,id)]) := by
  have hs := h.sorted source
  rw [ht,pairwise_cons] at hs
  obtain ⟨hle,hol,hkn⟩ := h.ahead source id (ht ▸ mem_cons_self)
  have hm : ∀ i old, (i,old) ∈ given ++ [(source,id)] ↔ (i,old) ∈ given ∨ i = source ∧ old = id := by simp
  have hsm : ∀ old, Known current (given ++ [(source,id)]) old → Known current given old := by
    rintro old (rfl | ⟨other,ho⟩)
    · exact .inl rfl
    · obtain ho | ⟨-,rfl⟩ := (hm other old).mp ho
      · exact .inr ⟨other,ho⟩
      · exact hkn
  have hmr : ∀ old, Known current given old → Known current (given ++ [(source,id)]) old := fun old hol =>
    hol.imp_right fun ⟨other,ho⟩ => ⟨other,mem_append_left _ ho⟩
  refine ⟨⟨hol,fun ha other old hg hls => ?_⟩,fun i old hg => ?_,fun i => ?_,fun i old hin => ?_,
    fun i hi old hk => ?_⟩
  · obtain hd | hin := h.reaches source ha old (.inr ⟨other,hg⟩)
    · exact hd
    · rw [ht] at hin
      obtain rfl | hin := mem_cons.mp hin
      · omega
      · have := hs.1 old hin
        omega
  · obtain hg | ⟨-,rfl⟩ := (hm i old).mp hg
    · exact h.past i old hg
    · exact hle
  · by_cases hi : i = source
    · simpa [hi] using hs.2
    · simpa [hi] using h.sorted i
  · by_cases hi : i = source
    · subst hi
      rw [Function.update_self] at hin
      obtain ⟨hl,hb,hk⟩ := h.ahead i old (ht ▸ mem_cons_of_mem _ hin)
      refine ⟨hl,fun earlier hg => ?_,hmr old hk⟩
      obtain hg | ⟨-,rfl⟩ := (hm i earlier).mp hg
      · exact hb earlier hg
      · exact hs.1 old hin
    · rw [Function.update_of_ne hi] at hin
      obtain ⟨hl,hb,hk⟩ := h.ahead i old hin
      refine ⟨hl,fun earlier hg => ?_,hmr old hk⟩
      exact hb earlier (((hm i earlier).mp hg).resolve_right fun heq => hi heq.1)
  · obtain hd | hin := h.reaches i hi old (hsm old hk)
    · exact .inl (mem_append_left _ hd)
    · by_cases hi : i = source
      · subst hi
        rw [Function.update_self]
        obtain rfl | hin := mem_cons.mp (ht ▸ hin)
        · exact .inl mem_concat_self
        · exact .inr hin
      · rw [Function.update_of_ne hi]
        exact .inr hin

/-- The next id begins; ids that no source was given are not left over. -/
theorem next (hb : ∀ i, (base i).Sublist (todo i)) (ha : ∀ i ∈ active, base i = todo i)
    (hg : ∀ i, ∀ id ∈ base i, ∃ other, (other,id) ∈ given) :
    Kept (current + 1) active (fun i => base i ++ [current + 1]) given := by
  have hl : ∀ i id, (i,id) ∈ given → id < current + 1 := fun i id hid => Int.lt_add_one_of_le (h.past i id hid)
  refine ⟨fun i id hid => (hl i id hid).le,fun i => ?_,fun i => forall_mem_concat.mpr ⟨fun id hid => ?_,?_⟩,
    fun i hi id hk => ?_⟩
  · rw [pairwise_append]
    refine ⟨(h.sorted i).sublist (hb i),pairwise_singleton _ _,fun id hid last hi' => ?_⟩
    have := (h.ahead i id ((hb i).subset hid)).1
    rw [mem_singleton.mp hi']
    omega
  · obtain ⟨hle,hol,-⟩ := h.ahead i id ((hb i).subset hid)
    exact ⟨by omega,hol,.inr (hg i id hid)⟩
  · exact ⟨le_rfl,hl i,.inl rfl⟩
  · obtain rfl | ⟨other,ho⟩ := hk
    · exact .inr mem_concat_self
    · obtain hd | hin := h.reaches i hi id (.inr ⟨other,ho⟩)
      · exact .inl hd
      · exact .inr (mem_append_left _ (ha i hi ▸ hin))

end Kept

/-- The ids that a source is still to get: those pending, and the current one unless it has sent it. -/
def todo (a : MarkerAnnouncer) (i : Nat) : List Int :=
  a.pendingSnapshot i ++ if i ∈ a.markerSplitSent then [] else [a.currentSnapshotId]

/-- The invariant of an announcer that captures snapshots. -/
structure Keeps (a : MarkerAnnouncer) (given : List (Nat × Int)) : Prop where
  enabled : a.interval ≠ .captureDisabled
  active : a.activeSplitSources.Nodup
  sent : ∀ i ∈ a.markerSplitSent, (i,a.currentSnapshotId) ∈ given
  behind : ∀ i, ∀ id ∈ a.pendingSnapshot i, id < a.currentSnapshotId
  kept : Kept a.currentSnapshotId a.activeSplitSources (todo a) given

/-- An id that is returned follows those given, and the announcer keeps the invariant. -/
def Answers (a : MarkerAnnouncer) (given : List (Nat × Int)) (source : Nat) (announcement : Announcement) : Prop :=
  ∃ id, announcement.snapshotId = some id ∧ Follows a.activeSplitSources given source id ∧
    Keeps announcement.announcer (given ++ [(source,id)])

variable {a : MarkerAnnouncer} {given : List (Nat × Int)} {source : Nat} (now : Int) (h : Keeps a given)
include h

theorem keeps_next (pending : Nat → List Int) (hp : ∀ i, pending i = a.pendingSnapshot i ∨
      pending i = todo a i ∧ ∃ other, (other,a.currentSnapshotId) ∈ given)
    (ha : ∀ i ∈ a.activeSplitSources, pending i = todo a i) :
    Keeps ({ a with pendingSnapshot := pending }.setupNewSnapshotId now) given := by
  rw [setupNewSnapshotId,if_neg h.enabled]
  have hb : ∀ i, (pending i).Sublist (todo a i) := fun i => by
    obtain heq | ⟨heq,-⟩ := hp i
    · exact heq ▸ sublist_append_left _ _
    · exact heq ▸ .refl _
  refine ⟨h.enabled,h.active,by simp,fun i id hid => ?_,?_⟩
  · exact Int.lt_add_one_of_le (h.kept.ahead i id ((hb i).subset hid)).1
  · have hk := h.kept.next hb ha fun i id hid => ?_
    · convert hk using 1
      funext i
      simp [todo]
    · obtain rfl | hg := (h.kept.ahead i id ((hb i).subset hid)).2.2
      · obtain heq | ⟨-,hg⟩ := hp i
        · exact absurd (h.behind i _ (heq ▸ hid)) (lt_irrefl _)
        · exact hg
      · exact hg

theorem keeps_checkMarkerSplitCompleteness : Keeps (a.checkMarkerSplitCompleteness now) given := by
  rw [checkMarkerSplitCompleteness]
  split
  · rename_i ha
    exact keeps_next now h a.pendingSnapshot (fun _ => .inl rfl) fun i hi => by simp [todo,ha.2 i hi]
  · exact h

theorem keeps_recordUncompleted (hsn : a.markerSplitSent ≠ []) :
    Keeps (a.recordUncompletedSplitSource.setupNewSnapshotId now) given := by
  obtain ⟨first,hf⟩ := exists_mem_of_ne_nil _ hsn
  rw [recordUncompletedSplitSource_eq h.active]
  refine keeps_next now h _ (fun i => ?_) fun i hi => ?_
  · split
    · rename_i hb
      exact .inr ⟨by rw [todo,if_neg hb.2],first,h.sent first hf⟩
    · exact .inl rfl
  · by_cases hs : i ∈ a.markerSplitSent <;> simp [todo,hi,hs]

theorem answers_generateMarker (hs : source ∉ a.markerSplitSent) (hp : a.pendingSnapshot source = []) :
    Answers a given source (a.generateMarker now source) := by
  have ht : todo { a with markerSplitSent := a.markerSplitSent ++ [source] } = Function.update (todo a) source [] := by
    funext i
    by_cases hi : i = source <;> simp [todo,hi,hp]
  obtain ⟨hf,hk⟩ := h.kept.take (by rw [todo,hp,if_neg hs]; rfl)
  have hsn : Keeps { a with markerSplitSent := a.markerSplitSent ++ [source] } (given ++ [(source,a.currentSnapshotId)]) :=
    ⟨h.enabled,h.active,forall_mem_concat.mpr ⟨fun i hi => mem_append_left _ (h.sent i hi),mem_concat_self⟩,h.behind,
      ht ▸ hk⟩
  exact ⟨_,rfl,hf,keeps_checkMarkerSplitCompleteness now hsn⟩

theorem answers_pollPending {id : Int} {rest : List Int} (hp : a.pendingSnapshot source = id :: rest) :
    Follows a.activeSplitSources given source id ∧
      Keeps { a with pendingSnapshot := Function.update a.pendingSnapshot source rest } (given ++ [(source,id)]) := by
  have ht : todo { a with pendingSnapshot := Function.update a.pendingSnapshot source rest } =
      Function.update (todo a) source (rest ++ if source ∈ a.markerSplitSent then [] else [a.currentSnapshotId]) := by
    funext i
    by_cases hi : i = source <;> simp [todo,hi]
  obtain ⟨hf,hk⟩ := h.kept.take (by rw [todo,hp]; rfl)
  refine ⟨hf,h.enabled,h.active,fun i hi => mem_append_left _ (h.sent i hi),fun i old ho => ?_,ht ▸ hk⟩
  by_cases hi : i = source
  · exact h.behind i old (hi ▸ hp ▸ mem_cons_of_mem _ (by simpa [hi] using ho))
  · exact h.behind i old (by simpa [hi] using ho)

theorem shouldGenerateMarker_cases (source : Nat) : Answers a given source (a.shouldGenerateMarker now source) ∨
    a.shouldGenerateMarker now source = ⟨none,none,a⟩ ∧ a.pendingSnapshot source = [] ∧
      (a.markerSplitSent ≠ [] → source ∈ a.markerSplitSent) := by
  rw [shouldGenerateMarker,if_neg h.enabled]
  split
  · rename_i id rest hp
    exact .inl ⟨id,rfl,answers_pollPending h hp⟩
  · rename_i hp
    split
    · split
      · rename_i hs
        exact .inr ⟨rfl,hp,fun _ => hs⟩
      · rename_i hs
        exact .inl (answers_generateMarker now h hs hp)
    · rename_i hn
      rw [not_not] at hn
      split
      · exact .inl (answers_generateMarker now h (hn ▸ not_mem_nil) hp)
      · exact .inr ⟨rfl,hp,fun hne => absurd hn hne⟩

theorem answers_forceGenerateMarker : Answers a given source (a.forceGenerateMarker now source) := by
  rw [forceGenerateMarker]
  obtain ha | ⟨heq,hp,hs⟩ := shouldGenerateMarker_cases now h source
  · obtain ⟨id,hid,-⟩ := id ha
    rw [if_pos (by rw [hid]; rfl)]
    exact ha
  · rw [heq,if_neg (by simp)]
    dsimp only
    split
    · rename_i hne
      have hn := keeps_recordUncompleted now h hne
      rw [recordUncompletedSplitSource_eq h.active,setupNewSnapshotId,if_neg h.enabled] at hn ⊢
      exact answers_generateMarker now hn not_mem_nil (by simp [hs hne,hp])
    · rename_i hnn
      exact answers_generateMarker now h (not_not.mp hnn ▸ not_mem_nil) hp

theorem keeps_deactivateSplitSource : Keeps (a.deactivateSplitSource now source) given := by
  have he : Keeps { a with activeSplitSources := a.activeSplitSources.erase source } given :=
    ⟨h.enabled,h.active.erase source,h.sent,h.behind,h.kept.past,h.kept.sorted,h.kept.ahead,
      fun i hi => h.kept.reaches i (mem_of_mem_erase hi)⟩
  rw [deactivateSplitSource]
  split
  · dsimp only
    split
    · exact he
    · exact keeps_checkMarkerSplitCompleteness now he
  · exact h

theorem keeps_incrementSplitCount {count : Nat} : Keeps (a.incrementSplitCount count) given := by
  rw [incrementSplitCount]
  split
  · exact ⟨h.enabled,h.active,h.sent,h.behind,h.kept⟩
  · exact h

omit h

theorem call_spec {t : MarkerTimeline} (h : Keeps t.announcer t.given) (c : AnnouncerCall) :
    (∀ source id, t.answer c = some (source,id) → Follows t.announcer.activeSplitSources t.given source id) ∧
      Keeps (t.call c).announcer (t.call c).given := by
  have ha : ∀ {source announcement}, Answers t.announcer t.given source announcement →
      t.answer c = announcement.snapshotId.map (source,·) → next t.announcer c = announcement.announcer →
      (∀ source id, t.answer c = some (source,id) → Follows t.announcer.activeSplitSources t.given source id) ∧
        Keeps (t.call c).announcer (t.call c).given := by
    rintro source announcement ⟨id,hid,hf,hk⟩ han hn
    rw [call,han,hn,hid]
    refine ⟨?_,hk⟩
    rintro _ _ ⟨⟩
    exact hf
  cases c with
  | shouldGenerateMarker now source =>
    obtain hg | ⟨heq,-⟩ := shouldGenerateMarker_cases now h source
    · exact ha hg rfl rfl
    · simpa [call,answer,next,heq] using h
  | forceGenerateMarker now source => exact ha (answers_forceGenerateMarker now h) rfl rfl
  | deactivateSplitSource now source => simpa [call,answer,next] using keeps_deactivateSplitSource now h
  | incrementSplitCount count => simpa [call,answer,next] using keeps_incrementSplitCount h

/-- A timeline starts when no marker has been sent and none is pending. -/
structure Starts (a : MarkerAnnouncer) : Prop where
  active : a.activeSplitSources.Nodup
  sent : a.markerSplitSent = []
  pending : ∀ i, a.pendingSnapshot i = []

theorem starts_resumeSnapshot (hs : (a.allSplitSources.entries.map Prod.snd).Nodup)
    (he : a.interval ≠ .captureDisabled) : Starts (a.resumeSnapshot now) := by
  rw [resumeSnapshot,setupNewSnapshotId,if_neg he]
  exact ⟨hs,rfl,fun _ => rfl⟩

theorem keeps_run (hs : Starts a) (he : a.interval ≠ .captureDisabled) (calls : List AnnouncerCall) :
    Keeps (run a calls).announcer (run a calls).given := by
  induction calls using reverseRecOn with
  | nil =>
    have ht : ∀ i, todo a i = [a.currentSnapshotId] := fun i => by simp [todo,hs.sent,hs.pending]
    refine ⟨he,hs.active,fun i hi => ?_,fun i id hid => ?_,nofun,fun i => ?_,fun i id hid => ?_,fun i hi id hk => ?_⟩
    · exact absurd (hs.sent ▸ hi) not_mem_nil
    · exact absurd (hs.pending i ▸ hid) not_mem_nil
    · exact ht i ▸ pairwise_singleton _ _
    · obtain rfl := mem_singleton.mp (ht i ▸ hid)
      exact ⟨le_rfl,nofun,.inl rfl⟩
    · obtain rfl | ⟨_,hg⟩ := hk
      · exact .inr (ht i ▸ mem_cons_self)
      · cases hg
  | append_singleton calls c ih =>
    rw [run,foldl_append]
    exact (call_spec ih c).2

/-- Between two resumes the ids given to a source increase, and a source that is still active has been given
every lower id that another source was given. -/
theorem snapshotIds_follow (start : MarkerAnnouncer) (hstart : Starts start) (henabled : start.interval ≠ .captureDisabled)
    (calls : List AnnouncerCall) (c : AnnouncerCall) (source : Nat) (id : Int)
    (h : (run start calls).answer c = some (source,id)) : (∀ old, (source,old) ∈ (run start calls).given → old < id) ∧
      (source ∈ (run start calls).announcer.activeSplitSources →
        ∀ other old, (other,old) ∈ (run start calls).given → old < id → (source,old) ∈ (run start calls).given) :=
  (call_spec (keeps_run hstart henabled calls) c).1 source id h

/-- A source that fell behind is given the id that it missed. -/
theorem snapshotIds_follow_pending :
    let t := run ((ofSources (.splitCount 1) 0 [0,1]).resumeSnapshot 0) [.forceGenerateMarker 0 0,.forceGenerateMarker 0 0]
    t.answer (.shouldGenerateMarker 0 1) = some (1,2) ∧ ∀ old, (1,old) ∈ t.given → old < 2 :=
  ⟨rfl,(snapshotIds_follow _ (starts_resumeSnapshot 0 (by decide) (by decide)) (by decide) _ (.shouldGenerateMarker 0 1) 1 2 rfl).1⟩

/-- An announcer that captures nothing gives the same id twice. -/
theorem snapshotIds_repeat_disabled :
    let t := run (ofSources .captureDisabled 0 [0]) [.forceGenerateMarker 0 0]
    t.given = [(0,0)] ∧ t.answer (.forceGenerateMarker 0 0) = some (0,0) :=
  ⟨rfl,rfl⟩

end MarkerTimeline
end HetuCore.Snapshot
