import HetuCore.Grouping.GroupByWorkLaws

namespace HetuCore.Grouping
open Foundation List
variable {V D S : Type} [DecidableEq V] {dictionaries : D → List (Option V)} {groupBy : GroupBy S (Option V)}
  {contract : Contract S (Option V)}

def allValues (blocks : List (Block dictionaries)) : List (Option V) := blocks.flatMap Block.toList

/-- The state of a run: some blocks are finished, one may be open, the others are to come. -/
structure BlockRun.Good (contract : Contract S (Option V)) (blocks finished : List (Block dictionaries))
    (run : BlockRun S dictionaries) : Prop where
  split : blocks = finished ++ (run.work.toList.map Prod.fst ++ run.blocks)
  numbers : numbering (allValues finished) = run.results.flatten
  lengths : run.results.map length = finished.map fun block => block.toList.length
  rep : run.work = none → contract.Rep (allValues finished) run.state
  opened : ∀ block blockBuilder, run.work = some (block,blockBuilder) → blockBuilder.length < block.toList.length ∧
    Put id contract.Rep (allValues finished) block.toList blockBuilder run.state

variable {blocks finished : List (Block dictionaries)} {run : BlockRun S dictionaries}

theorem BlockRun.Good.step (h : Numbers groupBy id contract) (hb : ∀ block ∈ blocks, 0 < block.toList.length)
    (ha : contract.AdmitsAll [] (allValues blocks)) (hg : run.Good contract blocks finished) :
    Ends (contract.Permitted (allValues blocks).eraseDups.length)
      (fun run' => (∃ finished', run'.Good contract blocks finished') ∧
        (run.work.isSome → contract.Granted run.state → run'.work = none)) (run.step groupBy) := by
  obtain ⟨todo,work,results,s⟩ := run
  cases work with
  | none =>
    cases todo with
    | nil => exact ⟨⟨finished,hg⟩,nofun⟩
    | cons block todo =>
      have hbl : 0 < block.toList.length := hb block (by rw [hg.split]; simp)
      refine .pure ⟨⟨finished,?_,hg.numbers,hg.lengths,nofun,?_⟩,nofun⟩
      · rw [hg.split]
        simp
      · rintro block' blockBuilder hw
        cases hw
        exact ⟨hbl,.nil (hg.rep rfl) _⟩
  | some work =>
    obtain ⟨block,blockBuilder⟩ := work
    obtain ⟨hl,hpt⟩ := hg.opened block blockBuilder rfl
    have hsp : allValues blocks = (allValues finished ++ block.toList) ++ allValues todo := by
      rw [hg.split]
      simp [allValues]
    rw [hsp,Contract.admitsAll_append,Contract.admitsAll_append] at ha
    have hp := h.process hpt (by rw [map_id]; exact ha.1.2) hl
    rw [map_id] at hp
    simp only [BlockRun.step]
    rw [if_pos hl,hsp]
    refine .bind (hp.allow fun message hm => h.mono (length_eraseDups_append_le _ _) hm) ?_
    rintro ⟨complete,blockBuilder',s'⟩ ⟨hp',hf,hgr⟩
    cases complete with
    | true =>
      obtain ⟨hn,hr⟩ := hp'.all (hf.mp rfl)
      refine .pure ⟨⟨finished ++ [block],?_,?_,?_,?_,nofun⟩,fun _ _ => rfl⟩
      · rw [hg.split]
        simp
      · rw [hg.numbers] at hn
        simpa [allValues] using hn
      · simpa [hg.lengths] using hf.mp rfl
      · simpa [allValues] using hr
    | false =>
      refine .pure ⟨⟨finished,?_,hg.numbers,hg.lengths,nofun,?_⟩,fun _ hs => absurd (hgr hs) Bool.false_ne_true⟩
      · rw [hg.split]
        simp
      · rintro block' blockBuilder'' hw
        cases hw
        exact ⟨Nat.lt_of_le_of_ne hp'.length_le (hf.not.mp Bool.false_ne_true),hp'⟩

def BlockRun.written (run : BlockRun S dictionaries) : List Nat := run.results.flatten ++ (run.work.map Prod.snd).getD []

theorem BlockRun.Good.written (h : run.Good contract blocks finished) :
    ∃ seen, seen <+: allValues blocks ∧ numbering seen = run.written ∧ contract.Rep seen run.state ∧
      (run.work = none ∧ run.blocks = [] → seen = allValues blocks ∧ run.written = run.results.flatten ∧
        run.results.map length = blocks.map fun block => block.toList.length) := by
  obtain ⟨todo,work,results,s⟩ := run
  have hs := congrArg allValues h.split
  cases work with
  | none =>
    refine ⟨allValues finished,?_,by simpa [BlockRun.written] using h.numbers,h.rep rfl,fun he => ?_⟩
    · rw [hs]
      simp [allValues]
    · have hf : blocks = finished := by simpa [show todo = [] from he.2] using h.split
      exact ⟨hf ▸ rfl,by simp [BlockRun.written],hf ▸ h.lengths⟩
  | some work =>
    obtain ⟨block,blockBuilder⟩ := work
    obtain ⟨-,hp⟩ := h.opened block blockBuilder rfl
    have hn := hp.numbers
    have hr := hp.rep
    rw [map_id] at hn hr
    rw [h.numbers] at hn
    refine ⟨_,?_,hn,hr,nofun⟩
    have hb : allValues blocks = allValues finished ++ block.toList ++ allValues todo := by
      rw [hs]
      simp [allValues]
    rw [hb]
    exact ((prefix_append_right_inj _).mpr (List.take_prefix _ _)).trans (prefix_append _ _)

theorem blockRun_good (h : Numbers groupBy id contract) {blocks : List (Block dictionaries)}
    (hb : ∀ block ∈ blocks, 0 < block.toList.length) (ha : contract.AdmitsAll [] (allValues blocks)) {init : S}
    (hi : contract.Rep [] init) (calls : Nat) : Ends (contract.Permitted (allValues blocks).eraseDups.length)
      (fun run : BlockRun S dictionaries => ∃ finished, run.Good contract blocks finished)
      ((blockMachine groupBy init blocks).run (replicate calls ())) := by
  have hs : (⟨blocks,none,[],init⟩ : BlockRun S dictionaries).Good contract blocks [] := by
    refine ⟨rfl,rfl,rfl,fun _ => hi,fun _ _ hn => ?_⟩
    cases hn
  have hal : (blockMachine groupBy init blocks).Along (fun _ _ => True) (replicate calls ()) :=
    .of_forall fun _ _ _ => trivial
  refine .run ⟨[],hs⟩ ?_ hal
  rintro run - ⟨finished,hg⟩ -
  exact (hg.step h hb ha).mono fun _ h => h.1

end HetuCore.Grouping
