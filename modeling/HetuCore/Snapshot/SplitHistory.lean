import HetuCore.Snapshot.SplitSystemLaws

namespace HetuCore.Snapshot
open Foundation SplitSystem
variable {σ : Type}

/-- Requests and resumes of single sources, and the resume of the announcer itself. -/
inductive SplitAction where
  | getNextBatch (now : Int) (i maxSize : Nat) (reply : Option (Nat × Bool))
  | resumeSource (i : Nat) (snapshotId : Int)
  | resumeAnnouncer (now : Int)

structure SplitHistory (σ : Type) where
  system : SplitSystem σ
  logs : Nat → SourceLog σ

namespace SplitHistory

def getNextBatch (plan : SourcePlan σ) (h : SplitHistory σ) (now : Int) (i maxSize : Nat) (reply : Option (Nat × Bool)) :
    Except String (Option (SplitBatch σ) × SplitHistory σ) := do
  let (batch,system) ← h.system.getNextBatch (plan.sequence i) now i maxSize reply
  pure (batch,⟨system,Function.update h.logs i ((h.logs i).add batch)⟩)

variable (plan : SourcePlan σ)

def step (h : SplitHistory σ) : SplitAction → Except String (SplitHistory σ)
  | .getNextBatch now i maxSize reply => do
    let (_,h) ← h.getNextBatch plan now i maxSize reply
    pure h
  | .resumeSource i snapshotId => do
    let b ← (h.system.sources i).resumeSnapshot snapshotId
    pure ⟨h.system.modify i fun _ => b,Function.update h.logs i ((h.logs i).rewind snapshotId)⟩
  | .resumeAnnouncer now => pure { h with system := { h.system with announcer := h.system.announcer.resumeSnapshot now } }

def history (interval : SnapshotInterval) (now : Int) : Machine (SplitHistory σ) SplitAction :=
  ⟨⟨⟨.ofSources interval now plan.sources,fun i => .new (plan.dependencies i) (plan.unions i)⟩,fun _ => ⟨[],[],[]⟩⟩,step plan⟩

/-- Batches are asked for with a size, and sources are resumed to the start or to a marker that
they have sent on their current timeline. -/
def Allowed (h : SplitHistory σ) : SplitAction → Prop
  | .getNextBatch _ _ maxSize _ => 0 < maxSize
  | .resumeSource i snapshotId => snapshotId = 0 ∨ snapshotId ∈ (h.logs i).emitted.map Prod.fst
  | .resumeAnnouncer _ => True

instance (h : SplitHistory σ) : (a : SplitAction) → Decidable (Allowed h a)
  | .getNextBatch _ _ _ _ => inferInstanceAs (Decidable (_ < _))
  | .resumeSource _ _ => inferInstanceAs (Decidable (_ ∨ _))
  | .resumeAnnouncer _ => inferInstanceAs (Decidable True)

variable {plan : SourcePlan σ} {interval : SnapshotInterval} {now : Int}

theorem getNextBatch_good (now : Int) (i : Nat) {h : SplitHistory σ} {maxSize : Nat} (hg : Good plan h.system h.logs)
    (hs : 0 < maxSize) (reply : Option (Nat × Bool)) :
    ∃ batch h', h.getNextBatch plan now i maxSize reply = .ok (batch,h') ∧ Good plan h'.system h'.logs ∧
      (∀ b ∈ batch, Proper (plan.sequence i) (h'.logs i) b) ∧
      (∀ count last, reply = some (count,last) → 0 < count → (h.system.sources i).remainingDependencies = ∅ →
        (h.logs i).returned ≠ plan.sequence i → ∃ b ∈ batch, b.splits ≠ []) := by
  obtain ⟨r,hc,hg',hp⟩ := (getNextBatch_serves now i hg hs reply).total
  refine ⟨r.1,⟨r.2,Function.update h.logs i ((h.logs i).add r.1)⟩,by rw [getNextBatch,hc]; rfl,hg',?_,?_⟩
  · simp only [Function.update_self]
    exact hp
  · rintro count last rfl hct hd hn
    exact getNextBatch_ne_nil hg hn hd hs hct hc

theorem init_good : Good plan (history plan interval now).init.system (history plan interval now).init.logs where
  replayed := fun _ => .new
  union := fun j hun => .inl (plan.self_mem_unions j hun)
  fresh := by
    apply (MarkerAnnouncer.fresh_ofSources interval now plan.nodup).mono
    intro j id hu
    refine hu.2 ?_
    exact (LinkedMap.get_put ..).trans (if_neg hu.1)

theorem step_good {h : SplitHistory σ} {a : SplitAction} (hg : Good plan h.system h.logs)
    (ha : Allowed h a) : Ends (fun _ => False) (fun h' => Good plan h'.system h'.logs) (h.step plan a) := by
  cases a with
  | getNextBatch now i maxSize reply =>
    obtain ⟨batch,h',hc,hg',-⟩ := getNextBatch_good now i hg ha reply
    exact .after hc hg'
  | resumeSource i snapshotId =>
    obtain ⟨b,hr,hg'⟩ := resumeSnapshot_good hg ha
    exact .after hr hg'
  | resumeAnnouncer now =>
    exact ⟨hg.replayed,hg.union,MarkerAnnouncer.fresh_resumeSnapshot now hg.fresh⟩

/-- Every run of requests and allowed resumes succeeds, and so does the next request. What a
source has returned since it was resumed, after what it had returned before that marker, is the
beginning of what the wrapped source delivers, and all of it when a batch is the last one. No
batch mixes markers and data, and none is empty while splits remain that the wrapped source delivers
and that no other source holds up. -/
theorem getNextBatch_replays {actions : List SplitAction} (hallowed : (history plan interval now).Along Allowed actions) :
    ∃ h, (history plan interval now).run actions = .ok h ∧
      ∀ now i maxSize reply, 0 < maxSize → ∃ batch h', h.getNextBatch plan now i maxSize reply = .ok (batch,h') ∧
        (h'.logs i).before ++ (h'.logs i).since <+: plan.sequence i ∧
        (∀ b ∈ batch, ((∃ splits : List σ, b.splits = splits.map .data) ∨
            ∃ snapshotId resuming, b.splits = [.marker snapshotId resuming]) ∧
          (b.lastBatch = true → (h'.logs i).before ++ (h'.logs i).since = plan.sequence i)) ∧
        ∀ count last, reply = some (count,last) → 0 < count → (h.system.sources i).remainingDependencies = ∅ →
          (h.logs i).before ++ (h.logs i).since ≠ plan.sequence i → ∃ b ∈ batch, b.splits ≠ [] := by
  have he : Ends (fun _ => False) (fun h => Good plan h.system h.logs)
      ((history plan interval now).run actions) := .run init_good (fun _ _ => step_good) hallowed
  obtain ⟨h,hr,hg⟩ := he.total
  refine ⟨h,hr,fun now i maxSize reply hs => ?_⟩
  obtain ⟨batch,h',hc,hg',hp⟩ := getNextBatch_good now i hg hs reply
  exact ⟨batch,h',hc,(hg'.replayed i).returned_isInitial,hp⟩

def threeSplits : SourcePlan Nat := ⟨[0],by decide,fun _ => [10,20,30],fun _ => ∅,fun _ => ∅,fun _ h => absurd rfl h⟩

/-- Two splits, the marker of snapshot 1, the third split, and a resume to the marker. -/
def resumedRun : List SplitAction :=
  [.getNextBatch 0 0 2 none,.getNextBatch 0 0 2 (some (2,false)),.getNextBatch 0 0 2 none,.getNextBatch 0 0 2 (some (2,true)),
    .resumeSource 0 1,.resumeAnnouncer 0]

theorem getNextBatch_replays_resumedRun : (history threeSplits (.splitCount 2) 0).Along Allowed resumedRun ∧
    ∃ h, (history threeSplits (.splitCount 2) 0).run resumedRun = .ok h ∧
      ∃ batch h', h.getNextBatch threeSplits 0 0 2 none = .ok (batch,h') ∧
        (h'.logs 0).before ++ (h'.logs 0).since <+: [10,20,30] := by
  have ha : (history threeSplits (.splitCount 2) 0).Along Allowed resumedRun :=
    .of_checks (by decide +kernel)
  obtain ⟨h,hrn,hn⟩ := getNextBatch_replays ha
  obtain ⟨batch,h',hc,hr,-⟩ := hn 0 0 2 none (by decide)
  exact ⟨ha,h,hrn,batch,h',hc,hr⟩

end SplitHistory
end HetuCore.Snapshot
