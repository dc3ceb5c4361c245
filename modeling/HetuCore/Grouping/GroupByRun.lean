import HetuCore.Grouping.GroupByWorkLaws

namespace HetuCore.Grouping
open Foundation List
variable {V D S : Type} [DecidableEq V] [DecidableEq D] {dicts : D → List (Option V)}

def dictionaryKey (dicts : D → List (Option V)) (dictionary : D) (id : Fin (dicts dictionary).length) : Key V :=
  [(dicts dictionary).get id]

/-- The look-back remembers the ids of the keys of its dictionary. -/
def LooksBack (dicts : D → List (Option V)) (done : List (Key V)) (state : MultiChannelGroupBy S D) : Prop :=
  ∀ dictionary processed, state.dictionaryLookBack = some ⟨dictionary,processed⟩ →
    Remembers (dictionaryKey dicts dictionary) done processed

theorem updateDictionaryLookBack_groupBy (dictionary : D) (state : MultiChannelGroupBy S D) :
    (updateDictionaryLookBack dictionary state).groupBy = state.groupBy := by
  rw [updateDictionaryLookBack]
  split
  · rfl
  · split
    · rfl
    · rfl

variable {state : MultiChannelGroupBy S D} {pages finished : List (Page dicts)} {run : Run S dicts}

variable {done : List (Key V)}

theorem updateDictionaryLookBack_remembers (h : LooksBack dicts done state) (dictionary : D) :
    ∃ processed, (updateDictionaryLookBack dictionary state).dictionaryLookBack = some ⟨dictionary,processed⟩ ∧
      Remembers (dictionaryKey dicts dictionary) done processed := by
  rw [updateDictionaryLookBack]
  split
  · exact ⟨_,rfl,fun position groupId hp => nomatch hp⟩
  · rename_i lookBack hl
    split
    · subst ‹lookBack.dictionary = dictionary›
      exact ⟨lookBack.processed,hl,h _ _ hl⟩
    · exact ⟨_,rfl,fun position groupId hp => nomatch hp⟩

variable {groupBy : GroupBy S (Key V)} {ct : Contract S (Key V)}

/-- The group-by has seen the keys, and so has its look-back. -/
structure Knows (ct : Contract S (Key V)) (dicts : D → List (Option V)) (done : List (Key V))
    (state : MultiChannelGroupBy S D) : Prop where
  rep : ct.Rep done state.groupBy
  looksBack : LooksBack dicts done state

/-- The work on a page that comes after the keys `done` has been started or stopped. -/
def Work.Open (ct : Contract S (Key V)) (done : List (Key V)) (state : MultiChannelGroupBy S D) :
    Work dicts → Prop
  | .getNonDictionaryGroupIds page bb => bb.length < page.positionCount ∧
      Put id ct.Rep done page.keys bb state.groupBy ∧ LooksBack dicts done state
  | .getDictionaryGroupIds page dictionary ids bb => bb.length < page.positionCount ∧
      page.keys = ids.map (dictionaryKey dicts dictionary) ∧
      ∃ processed, state.dictionaryLookBack = some ⟨dictionary,processed⟩ ∧
        Put (dictionaryKey dicts dictionary) (ct.lookBack (dictionaryKey dicts dictionary)).Rep
          done ids bb (state.groupBy,processed)
  | .getRunLengthEncodedGroupIds page groupId => 0 < page.positionCount ∧ groupId = none ∧
      page.keys = replicate page.positionCount (page.key 0) ∧ Knows ct dicts done state

/-- The work on a page is done: its ids continue the numbering. -/
structure Work.Done (ct : Contract S (Key V)) (done : List (Key V)) (state : MultiChannelGroupBy S D)
    (work : Work dicts) : Prop where
  numbers : numbering (done ++ work.page.keys) = numbering done ++ work.getResult
  knows : Knows ct dicts (done ++ work.page.keys) state

variable {page : Page dicts} (processDictionary : Bool)

theorem getGroupIds_open (hp : 0 < page.positionCount) (h : Knows ct dicts done state) :
    (getGroupIds processDictionary page state).1.page = page ∧
      (getGroupIds processDictionary page state).1.Open ct done (getGroupIds processDictionary page state).2 := by
  have hpl : Put id ct.Rep done page.keys [] state.groupBy := .nil h.rep _
  rw [getGroupIds]
  split
  · exact ⟨rfl,hp,rfl,page.keys_of_isRunLengthEncoded ‹_›,h⟩
  split
  · split
    · rename_i sourceId dictionary ids hc
      obtain ⟨processed,hs,hr⟩ := updateDictionaryLookBack_remembers h.looksBack dictionary
      refine ⟨rfl,hp,page.keys_of_dictionary hc,processed,hs,.nil ?_ _⟩
      rw [updateDictionaryLookBack_groupBy]
      exact ⟨h.rep,hr⟩
    · exact ⟨rfl,hp,hpl,h.looksBack⟩
  · exact ⟨rfl,hp,hpl,h.looksBack⟩

/-- What a call of `process` of an open work ends in. -/
def Processed (ct : Contract S (Key V)) (done : List (Key V)) (page : Page dicts)
    (out : Bool × Work dicts × MultiChannelGroupBy S D) : Prop :=
  out.2.1.page = page ∧ if out.1 then out.2.1.Done ct done out.2.2 else out.2.1.Open ct done out.2.2

section Process
variable (h : Numbers groupBy id ct) {done : List (Key V)} {state : MultiChannelGroupBy S D}
include h

omit [DecidableEq D]

section
variable (had : ct.AdmitsAll done page.keys)
include had

variable {bb : List Nat}

theorem process_nonDictionary (ho : (Work.getNonDictionaryGroupIds page bb).Open ct done state) :
    Ends (ct.Permitted (done ++ page.keys).eraseDups.length) (fun out => Processed ct done page out ∧
      (ct.Granted state.groupBy → out.1 = true))
      ((Work.getNonDictionaryGroupIds page bb).process groupBy state) := by
  obtain ⟨hln,hpt,hl⟩ := ho
  rw [Work.process,if_pos hln.le]
  rw [← page.length_keys] at hln
  have hp := h.process hpt (by rwa [map_id]) hln
  rw [map_id] at hp
  refine .bind hp ?_
  rintro ⟨finished,blockBuilder',s⟩ ⟨hp',hf,hg⟩
  refine .pure ⟨⟨rfl,?_⟩,hg⟩
  cases finished with
  | true =>
    obtain ⟨hn,hr⟩ := hp'.all (hf.mp rfl)
    rw [map_id] at hn hr
    exact ⟨hn,hr,fun dictionary processed hs => (hl dictionary processed hs).append _⟩
  | false =>
    have hlt := Nat.lt_of_le_of_ne hp'.length_le (hf.not.mp Bool.false_ne_true)
    exact ⟨page.length_keys ▸ hlt,hp',hl⟩

theorem process_dictionary {dictionary : D} {ids : List (Fin (dicts dictionary).length)}
    (hop : (Work.getDictionaryGroupIds page dictionary ids bb).Open ct done state) :
    Ends (ct.Permitted (done ++ page.keys).eraseDups.length) (fun out => Processed ct done page out ∧
      (ct.Granted state.groupBy → out.1 = true))
      ((Work.getDictionaryGroupIds page dictionary ids bb).process groupBy state) := by
  obtain ⟨hl,hk,processed,hs,hpt⟩ := hop
  have hc : ids.length = page.positionCount := by rw [← page.length_keys,hk,length_map]
  rw [Work.process,if_pos hl,hs]
  rw [← hc] at hl
  rw [hk] at had
  have hp := (h.lookBack (dictionaryKey dicts dictionary)).process hpt (Contract.admitsAll_lookBack.mpr had) hl
  rw [hk]
  refine .bind hp ?_
  rintro ⟨finished,blockBuilder',s,processed'⟩ ⟨hp',hf,hg⟩
  refine .pure ⟨⟨rfl,?_⟩,hg⟩
  cases finished with
  | true =>
    obtain ⟨hn,hrp,hr⟩ := hp'.all (hf.mp rfl)
    refine ⟨hk ▸ hn,hk ▸ hrp,?_⟩
    rintro other processed'' ho
    cases ho
    exact hk ▸ hr
  | false =>
    have hlt := Nat.lt_of_le_of_ne hp'.length_le (hf.not.mp Bool.false_ne_true)
    exact ⟨hc ▸ hlt,hk,processed',rfl,hp'⟩

theorem process_runLengthEncoded {groupId : Option Nat}
    (ho : (Work.getRunLengthEncodedGroupIds page groupId).Open ct done state) :
    Ends (ct.Permitted (done ++ page.keys).eraseDups.length) (fun out => Processed ct done page out ∧
      (ct.Granted state.groupBy → out.1 = true))
      ((Work.getRunLengthEncodedGroupIds page groupId).process groupBy state) := by
  obtain ⟨hp,rfl,hk,hr,hl⟩ := ho
  obtain ⟨count,hc⟩ := Nat.exists_eq_succ_of_ne_zero hp.ne'
  rw [hc] at hk
  rw [hk] at had
  have hkn : (done ++ page.keys).eraseDups = (done ++ [page.key 0]).eraseDups := by
    rw [hk,eraseDups_append_replicate,eraseDups_concat]
  rw [Work.process,if_neg hp.ne',hkn]
  refine .bind ((h.ensureCapacity hr).allow fun message hm =>
    h.mono (length_eraseDups_append_le _ _) hm) ?_
  rintro ⟨granted,s⟩ ⟨hr',hn,hg⟩
  cases granted with
  | false =>
    exact .pure ⟨⟨rfl,hp,rfl,hc ▸ hk,hr',hl⟩,fun hs => (hg hs).1⟩
  | true =>
    refine .bind (h.put (page.key 0) hr' had.1 (hn rfl)) ?_
    rintro ⟨groupId,s'⟩ ⟨rfl,hr'',-⟩
    refine .pure ⟨⟨rfl,?_,?_,fun dictionary processed hst =>
      (hl dictionary processed hst).append _⟩,fun _ => rfl⟩
    · simp only [Work.page,Work.getResult]
      rw [hk,hc,numbering_append_replicate,id_eq,eraseDups_concat]
    · show ct.Rep (done ++ page.keys) s'
      rw [hk]
      exact h.again_replicate hr'' had

end

theorem process_open {work : Work dicts} (had : ct.AdmitsAll done work.page.keys)
    (ho : work.Open ct done state) :
    Ends (ct.Permitted (done ++ work.page.keys).eraseDups.length) (fun out => Processed ct done work.page out ∧
      (ct.Granted state.groupBy → out.1 = true)) (work.process groupBy state) := by
  cases work with
  | getNonDictionaryGroupIds page bb => exact process_nonDictionary h had ho
  | getDictionaryGroupIds page dictionary ids bb => exact process_dictionary h had ho
  | getRunLengthEncodedGroupIds page groupId => exact process_runLengthEncoded h had ho

end Process

def allKeys (pages : List (Page dicts)) : List (Key V) := pages.flatMap Page.keys

omit [DecidableEq V] [DecidableEq D] in
theorem allKeys_append (pages later : List (Page dicts)) : allKeys (pages ++ later) = allKeys pages ++ allKeys later :=
  flatMap_append

/-- The state of a run: some pages are finished, one may be open, the others are to come. -/
structure Run.Good (ct : Contract S (Key V)) (pages finished : List (Page dicts))
    (run : Run S dicts) : Prop where
  split : pages = finished ++ (run.work.toList.map Work.page ++ run.pages)
  numbers : numbering (allKeys finished) = run.results.flatten
  lengths : run.results.map length = finished.map Page.positionCount
  knows : run.work = none → Knows ct dicts (allKeys finished) run.state
  opened : ∀ work, run.work = some work → work.Open ct (allKeys finished) run.state

theorem Run.Good.step {processDictionary : Bool} (h : Numbers groupBy id ct)
    (hpg : ∀ page ∈ pages, 0 < page.positionCount) (had : ct.AdmitsAll [] (allKeys pages))
    (hg : run.Good ct pages finished) :
    Ends (ct.Permitted (allKeys pages).eraseDups.length) (fun run' => (∃ finished', run'.Good ct pages finished') ∧
      (run.work.isSome → ct.Granted run.state.groupBy → run'.work = none)) (run.step processDictionary groupBy) := by
  obtain ⟨todo,work,results,state⟩ := run
  cases work with
  | none =>
    cases todo with
    | nil => exact ⟨⟨finished,hg⟩,by simp⟩
    | cons page todo =>
      have hp : 0 < page.positionCount := hpg page (by rw [hg.split]; simp)
      obtain ⟨hsm,hop⟩ := getGroupIds_open processDictionary hp (hg.knows rfl)
      have hst : Run.step processDictionary groupBy ⟨page :: todo,none,results,state⟩ =
        .ok ⟨todo,some (getGroupIds processDictionary page state).1,results,(getGroupIds processDictionary page state).2⟩ := rfl
      rw [hst]
      refine .pure ⟨⟨finished,?_,hg.numbers,hg.lengths,by simp,?_⟩,by simp⟩
      · rw [hg.split]
        simp [hsm]
      · rintro work' hw'
        cases hw'
        exact hop
  | some work =>
    have hsp : allKeys pages = (allKeys finished ++ work.page.keys) ++ allKeys todo := by
      rw [hg.split]
      simp [allKeys]
    rw [hsp,Contract.admitsAll_append,Contract.admitsAll_append,nil_append] at had
    rw [hsp]
    refine .bind ((process_open h had.1.2 (hg.opened work rfl)).allow fun message hm =>
      h.mono (length_eraseDups_append_le _ _) hm) ?_
    rintro ⟨complete,work',state'⟩ ⟨⟨hp,ho⟩,hgr⟩
    cases complete with
    | true =>
      refine .pure ⟨⟨finished ++ [work.page],?_,?_,?_,?_,by simp⟩,fun _ _ => rfl⟩
      · rw [hg.split]
        simp
      · have hn := ho.numbers
        rw [hg.numbers,hp] at hn
        simpa [allKeys] using hn
      · have hl := congrArg length ho.numbers
        rw [hp] at hl
        simpa [numbering,hg.lengths] using hl.symm
      · have hk := ho.knows
        rw [hp] at hk
        simpa [allKeys] using hk
    | false =>
      refine .pure ⟨⟨finished,?_,hg.numbers,hg.lengths,by simp,?_⟩,
        fun _ hs => absurd (hgr hs) Bool.false_ne_true⟩
      · rw [hg.split]
        simp [hp]
      · rintro work'' hw''
        cases hw''
        exact ho

def Run.written (run : Run S dicts) : List Nat := run.results.flatten ++ (run.work.map Work.getResult).getD []

omit [DecidableEq D] in
theorem Run.Good.written (h : run.Good ct pages finished) :
    ∃ seen, seen <+: allKeys pages ∧ numbering seen = run.written ∧ ct.Rep seen run.state.groupBy ∧
      (run.work = none ∧ run.pages = [] → seen = allKeys pages ∧ run.written = run.results.flatten ∧
        run.results.map length = pages.map Page.positionCount) := by
  obtain ⟨todo,work,results,state⟩ := run
  have hs := congrArg allKeys h.split
  cases work with
  | none =>
    refine ⟨allKeys finished,?_,by simpa [Run.written] using h.numbers,(h.knows rfl).rep,fun he => ?_⟩
    · rw [hs,allKeys_append]
      exact prefix_append _ _
    · have hf : pages = finished := by simpa [show todo = [] from he.2] using h.split
      exact ⟨hf ▸ rfl,by simp [Run.written],hf ▸ h.lengths⟩
  | some work =>
    have ho := h.opened work rfl
    have hpg : allKeys pages = allKeys finished ++ work.page.keys ++ allKeys todo := by
      rw [hs]
      simp [allKeys]
    have hpr : ∀ n, allKeys finished ++ work.page.keys.take n <+: allKeys pages := by
      intro n
      rw [hpg]
      exact ((prefix_append_right_inj _).mpr (List.take_prefix n _)).trans (prefix_append _ _)
    cases work with
    | getNonDictionaryGroupIds page bb =>
      obtain ⟨-,hp,-⟩ := ho
      have hn := hp.numbers
      have hr := hp.rep
      rw [map_id] at hn hr
      rw [h.numbers] at hn
      exact ⟨_,hpr bb.length,hn,hr,nofun⟩
    | getDictionaryGroupIds page dictionary ids bb =>
      obtain ⟨-,hky,processed,-,hp⟩ := ho
      have hn := hp.numbers
      have hr := hp.rep.1
      rw [map_take,← hky] at hn hr
      rw [h.numbers] at hn
      exact ⟨_,hpr bb.length,hn,hr,nofun⟩
    | getRunLengthEncodedGroupIds page groupId =>
      obtain ⟨-,rfl,-,hk⟩ := ho
      refine ⟨allKeys finished,by simpa using hpr 0,?_,hk.rep,nofun⟩
      simpa [Run.written,Work.getResult] using h.numbers

theorem run_good (h : Numbers groupBy id ct) {pages : List (Page dicts)}
    (hp : ∀ page ∈ pages, 0 < page.positionCount) (had : ct.AdmitsAll [] (allKeys pages)) {init : S}
    (hi : ct.Rep [] init) (calls : Nat) : Ends (ct.Permitted (allKeys pages).eraseDups.length)
      (fun run : Run S dicts => ∃ finished, run.Good ct pages finished)
      ((machine processDictionary groupBy init pages).run (replicate calls ())) := by
  have hs : (⟨pages,none,[],⟨init,none⟩⟩ : Run S dicts).Good ct pages [] := by
    refine ⟨rfl,rfl,rfl,fun _ => ⟨hi,fun _ _ hn => ?_⟩,fun _ hn => ?_⟩
    · cases hn
    · cases hn
  have ha : (machine processDictionary groupBy init pages).Along (fun _ _ => True) (replicate calls ()) :=
    .of_forall fun _ _ _ => trivial
  refine .run ⟨[],hs⟩ ?_ ha
  rintro run - ⟨finished,hg⟩ -
  exact (hg.step h hp had).mono fun _ h => h.1

end HetuCore.Grouping
