import HetuCore.Foundation.Machine
import Mathlib.Data.Fintype.Card

/-! The consumers of a reused table scan in `TableScanOperator`: they read the cached pages in rounds, and the last
one removes the state that they share. -/
namespace HetuCore.TableScan
open Foundation List Function

/-- The pages that a spiller was given, by file. -/
structure Spiller (Page : Type) where
  spills : List (List Page)
  closed : Bool

/-- What `n` consumer nodes share: the `ReuseExchangeTableScanMappingIdState` of their mapping id, whether the map of
the states has it, and the map of their positions. -/
structure TableScans (Page : Type) (n : Nat) where
  pageCaches : List Page
  pagesToSpill : List Page
  sourceNodeModifiedIdList : List (Fin n)
  spiller : Option (Spiller Page)
  pagesWritten : Int
  curConsumerScanNodeRefCount : Int
  mapped : Bool
  positionIndexMap : Fin n → Option Nat

variable {Page : Type} {n : Nat}

def totalPageSize (size : Page → Nat) (pageList : List Page) : Nat :=
  pageList.foldl (fun totalSize page => totalSize + size page) 0

namespace TableScans

/-- Before the first page, with the nodes that have an operator. -/
def new (Page : Type) (created : List (Fin n)) : TableScans Page n := ⟨[],[],created,none,0,n,true,fun _ => none⟩

/-- A page of the producer, with a threshold if spilling is enabled. -/
def setPage (spillThreshold : Option Int) (size : Page → Nat) (s : TableScans Page n) (page : Page) :
    TableScans Page n :=
  match spillThreshold with
  | none => { s with pageCaches := s.pageCaches ++ [page] }
  | some spillThreshold =>
    if totalPageSize size s.pageCaches < spillThreshold.tdiv 2 then { s with pageCaches := s.pageCaches ++ [page] }
    else
      let pageSpilledList := s.pagesToSpill ++ [page]
      if totalPageSize size pageSpilledList ≥ spillThreshold.tdiv 2 then
        let spiller := s.spiller.getD ⟨[],false⟩
        { s with
          spiller := some { spiller with spills := spiller.spills ++ [pageSpilledList] }
          pagesWritten := s.pagesWritten + pageSpilledList.length
          pagesToSpill := [] }
      else { s with pagesToSpill := pageSpilledList }

variable (s : TableScans Page n) (id : Fin n)

/-- The constructor of an operator of a node. -/
def createOperator : Except String (TableScans Page n) :=
  if s.mapped then .ok { s with sourceNodeModifiedIdList := s.sourceNodeModifiedIdList ++ [id] }
  else .error "NullPointerException"

def deleteSpilledFiles : TableScans Page n :=
  if s.mapped then { s with spiller := s.spiller.map fun spiller => { spiller with closed := true } } else s

def getSpilledPages : List (List Page) := s.spiller.elim [] Spiller.spills

/-- The first part of `unSpillData`, with whether pages were read. -/
def readSpilledPages : Except String (TableScans Page n × Bool) :=
  if s.pagesWritten = 0 ∨ s.getSpilledPages = [] then .ok (s,false)
  else
    let pagesRead := s.getSpilledPages.flatten
    if pagesRead.length = 0 then .error "unSpill have no pages"
    else
      let s := { s with pageCaches := pagesRead, pagesWritten := s.pagesWritten - pagesRead.length }
      if s.pagesWritten < 0 then .error "MORE PAGES READ THAN WRITTEN"
      else .ok (if s.pagesWritten = 0 then s.deleteSpilledFiles else s,true)

def unSpillData : Except String (TableScans Page n) := do
  let (s,isUnSpill) ← s.readSpilledPages
  let (s,isUnSpill) :=
    if s.pagesToSpill ≠ [] then ({ s with pageCaches := s.pageCaches ++ s.pagesToSpill, pagesToSpill := [] },true)
    else (s,isUnSpill)
  pure (if isUnSpill then { s with
      positionIndexMap := fun id => if id ∈ s.sourceNodeModifiedIdList then some 0 else s.positionIndexMap id
      curConsumerScanNodeRefCount := n }
    else s)

/-- The position of a consumer, 0 if `initIndex` would put it. -/
def offset : Nat := (s.positionIndexMap id).getD 0

def initIndex : TableScans Page n := { s with positionIndexMap := update s.positionIndexMap id (some (s.offset id)) }

/-- What `getPage` does in its synchronized block, after `initIndex`. -/
def getPage : Except String (TableScans Page n × Option Page) :=
  match s.positionIndexMap id with
  | none => .error "NullPointerException"
  | some offset =>
    match s.pageCaches[offset]? with
    | none => .ok (s,none)
    | some newPage => do
      let s' := { s with positionIndexMap := update s.positionIndexMap id (some (offset + 1)) }
      let count := s.curConsumerScanNodeRefCount - 1
      if offset + 1 ≠ s.pageCaches.length then pure (s',some newPage)
      else if count ≠ 0 then pure ({ s' with curConsumerScanNodeRefCount := count },some newPage)
      else
        let s' ← { s' with curConsumerScanNodeRefCount := count, pageCaches := [] }.unSpillData
        pure (s',some newPage)

def finishStatus : Bool :=
  s.pageCaches = [] ∨ (∃ position ∈ s.positionIndexMap id, position ≥ s.pageCaches.length) ∧ s.pagesWritten = 0 ∧
    s.pagesToSpill = []

/-- The consumer is the last one. -/
def removes : Bool := s.finishStatus id && s.curConsumerScanNodeRefCount ≤ 0

def checkFinished : TableScans Page n :=
  if s.removes id then { s with
    positionIndexMap := fun id => if id ∈ s.sourceNodeModifiedIdList then none else s.positionIndexMap id
    mapped := false }
  else s

def Removed : Prop :=
  s.mapped = false ∧ (∀ id, s.positionIndexMap id = none) ∧ ∀ spiller ∈ s.spiller, spiller.closed = true

/-- The pages that are not in memory yet. -/
def pending : List Page := (if s.pagesWritten = 0 then [] else s.getSpilledPages.flatten) ++ s.pagesToSpill

/-- A node that has a position has an operator. While pages are spilled the spiller has them all, and later it is
closed. -/
structure Shared : Prop where
  ids : ∀ id, s.positionIndexMap id ≠ none → id ∈ s.sourceNodeModifiedIdList
  written : s.pagesWritten ≠ 0 → s.pagesWritten = s.getSpilledPages.flatten.length
  closed : s.pagesWritten = 0 → ∀ spiller ∈ s.spiller, spiller.closed = true

/-- The nodes read pages of a round after those of the rounds before: the count is that of the nodes that have pages
of the round to read, and there are some. -/
structure Reading (pages : List Page) (received : Fin n → List Page) : Prop extends s.Shared where
  mapped : s.mapped = true
  counted : s.curConsumerScanNodeRefCount = (Finset.univ.filter fun id => s.offset id < s.pageCaches.length).card
  unread : 0 < s.curConsumerScanNodeRefCount
  reached : ∃ before, pages = before ++ (s.pageCaches ++ s.pending) ∧
    ∀ id, s.offset id ≤ s.pageCaches.length ∧ received id = before ++ s.pageCaches.take (s.offset id)

structure Drained (pages : List Page) (received : Fin n → List Page) : Prop extends s.Shared where
  empty : s.pageCaches = []
  counted : pages ≠ [] → s.curConsumerScanNodeRefCount = 0
  done : s.pending = []
  reached : ∀ id, received id = pages

/-- Between the calls the nodes are in a round or have read every page. -/
def Consistent (pages : List Page) (received : Fin n → List Page) : Prop :=
  s.Reading pages received ∨ s.Drained pages received

/-- A call that keeps the operators and takes no position away. -/
structure Keeps (s s' : TableScans Page n) : Prop where
  ids : s'.sourceNodeModifiedIdList = s.sourceNodeModifiedIdList
  positions : ∀ id, s.positionIndexMap id ≠ none → s'.positionIndexMap id ≠ none

variable {s id} {pages : List Page} {received : Fin n → List Page}

theorem Shared.pending_eq_nil (h : s.Shared) : s.pending = [] ↔ s.pagesWritten = 0 ∧ s.pagesToSpill = [] := by
  by_cases hw : s.pagesWritten = 0
  · simp [pending,hw]
  · have hl := h.written hw
    simp only [pending,hw,if_false,append_eq_nil_iff,false_and,iff_false,not_and]
    intro hf
    simp [hf] at hl
    exact absurd hl hw

/-- The pages that are not in memory come into memory, and every node starts again. -/
theorem Shared.unSpillData (h : s.Shared) (hm : s.mapped = true) (he : s.pageCaches = []) :
    ∃ spiller : Option (Spiller Page), (∀ x ∈ spiller, x.closed = true) ∧ s.unSpillData = .ok (if s.pending = [] then s
      else { s with
        pageCaches := s.pending
        pagesToSpill := []
        spiller := spiller
        pagesWritten := 0
        positionIndexMap := fun id => if id ∈ s.sourceNodeModifiedIdList then some 0 else s.positionIndexMap id
        curConsumerScanNodeRefCount := n }) := by
  have hp := h.pending_eq_nil
  by_cases hw : s.pagesWritten = 0
  · refine ⟨s.spiller,h.closed hw,?_⟩
    by_cases ht : s.pagesToSpill = []
    · simp [TableScans.unSpillData,readSpilledPages,hp,hw,ht]
    · simp [TableScans.unSpillData,readSpilledPages,pending,hw,ht,he]
  · have hl := h.written hw
    have hr : s.getSpilledPages.flatten.length ≠ 0 := by omega
    have hf : s.getSpilledPages ≠ [] := by
      intro hn
      exact hr (by rw [hn]; rfl)
    have hs : s.readSpilledPages = .ok ({ s with
        pageCaches := s.getSpilledPages.flatten
        pagesWritten := 0
        spiller := s.spiller.map fun spiller => { spiller with closed := true } },true) := by
      rw [readSpilledPages,if_neg (not_or.mpr ⟨hw,hf⟩),if_neg hr,hl]
      simp [deleteSpilledFiles,hm]
    refine ⟨s.spiller.map fun spiller => { spiller with closed := true },by simp,?_⟩
    by_cases ht : s.pagesToSpill = []
    · simp [TableScans.unSpillData,hs,pending,hw,ht,List.ne_nil_of_length_pos (Nat.pos_of_ne_zero hr)]
    · simp [TableScans.unSpillData,hs,pending,hw,ht]

/-- A round begins with every node at the first page. -/
theorem reading_of_start (h : s.Shared) (hm : s.mapped = true) (hc : s.curConsumerScanNodeRefCount = n) (hn : 0 < n)
    (ho : ∀ id, s.offset id = 0) (he : s.pageCaches ≠ []) {before : List Page}
    (hp : pages = before ++ (s.pageCaches ++ s.pending)) (hr : ∀ id, received id = before) : s.Reading pages received := by
  have hl := length_pos_of_ne_nil he
  exact ⟨h,hm,by simp [hc,ho,hl],by omega,before,hp,fun id => by simp [ho,hr]⟩

/-- At the end of a round another one begins, or there are no more pages. -/
theorem Shared.endRound (h : s.Shared) (hm : s.mapped = true) (he : s.pageCaches = [])
    (hc : s.curConsumerScanNodeRefCount = 0) (hn : 0 < n) {before : List Page} (hp : pages = before ++ s.pending)
    (hr : ∀ id, received id = before) :
    ∃ s' : TableScans Page n, s.unSpillData = .ok s' ∧ s.Keeps s' ∧ s'.Consistent pages received := by
  obtain ⟨spiller,hcl,hu⟩ := h.unSpillData hm he
  refine ⟨_,hu,⟨by split <;> rfl,fun i hi => ?_⟩,?_⟩
  · split
    · exact hi
    · exact (if_pos (h.ids i hi)).trans_ne nofun
  split
  · rename_i hd
    exact .inr ⟨h,he,fun _ => hc,hd,fun id => by rw [hr,hp,hd,append_nil]⟩
  · rename_i hd
    have hi : ∀ i, i ∉ s.sourceNodeModifiedIdList → s.positionIndexMap i = none := fun i hi => by
      by_contra hne
      exact hi (h.ids i hne)
    refine .inl (reading_of_start ⟨fun i hne => ?_,nofun,fun _ => hcl⟩ hm rfl hn (fun i => ?_) hd
      (by simpa [pending] using hp) hr)
    · by_contra hl
      simp [hl,hi i hl] at hne
    · by_cases hl : i ∈ s.sourceNodeModifiedIdList
      · simp [offset,hl]
      · simp [offset,hl,hi i hl]

/-- What the nodes have received once one of them was given a page or none. -/
def receive (received : Fin n → List Page) (id : Fin n) (page : Option Page) : Fin n → List Page :=
  update received id (received id ++ page.toList)

theorem offset_update (k : Nat) :
    offset { s with positionIndexMap := update s.positionIndexMap id (some k) } = update s.offset id k := by
  funext i
  by_cases hi : i = id <;> simp [offset,hi]

theorem Shared.move (h : s.Shared) (hid : id ∈ s.sourceNodeModifiedIdList) (k : Nat) (count : Int)
    (pageCaches : List Page) : Shared { s with
      positionIndexMap := update s.positionIndexMap id (some k)
      curConsumerScanNodeRefCount := count
      pageCaches := pageCaches } := by
  refine ⟨fun i hi => ?_,h.written,h.closed⟩
  by_cases he : i = id
  · exact he ▸ hid
  · exact h.ids i (by simpa [he] using hi)

theorem Reading.move (h : s.Reading pages received) (hid : id ∈ s.sourceNodeModifiedIdList) {k : Nat} {count : Int}
    {page : Option Page} (hk : k ≤ s.pageCaches.length)
    (hp : s.pageCaches.take k = s.pageCaches.take (s.offset id) ++ page.toList) (hu : 0 < count)
    (hc : count = (Finset.univ.filter fun i => update s.offset id k i < s.pageCaches.length).card) :
    Reading { s with
      positionIndexMap := update s.positionIndexMap id (some k)
      curConsumerScanNodeRefCount := count } pages (receive received id page) := by
  obtain ⟨before,hb,hr⟩ := h.reached
  refine ⟨h.toShared.move hid k count _,h.mapped,hc.trans (by rw [← offset_update]; rfl),hu,before,hb,fun i => ?_⟩
  by_cases hi : i = id
  · subst hi
    exact ⟨by simpa [offset] using hk,by simpa [offset,receive,(hr i).2] using hp.symm⟩
  · simpa [offset,receive,hi] using hr i

theorem keeps_update (s : TableScans Page n) (id : Fin n) (k : Nat) (count : Int) (pageCaches : List Page) :
    s.Keeps { s with
      positionIndexMap := update s.positionIndexMap id (some k)
      curConsumerScanNodeRefCount := count
      pageCaches := pageCaches } := by
  refine ⟨rfl,fun i hi => ?_⟩
  by_cases he : i = id
  · simp [he]
  · simpa [he] using hi

theorem Consistent.initIndex (h : s.Consistent pages received) (hid : id ∈ s.sourceNodeModifiedIdList) :
    (s.initIndex id).Consistent pages received := by
  obtain hr | hd := h
  · obtain ⟨_,-,hl⟩ := hr.reached
    have hm : (s.initIndex id).Reading pages (receive received id none) :=
      hr.move hid (hl id).1 (by simp) hr.unread (by rw [update_eq_self,hr.counted])
    simp only [receive,Option.toList,append_nil,update_eq_self] at hm
    exact .inl hm
  · exact .inr ⟨hd.toShared.move hid _ _ _,hd.empty,hd.counted,hd.done,hd.reached⟩

/-- In a round a node has read all its pages and waits for one that has not, or it gets the next page. -/
theorem Reading.getPage (h : s.Reading pages received) (hid : s.positionIndexMap id ≠ none) :
    ∃ r, s.getPage id = .ok r ∧ s.Keeps r.1 ∧ r.1.Consistent pages (receive received id r.2) ∧
      (r.2 = none → ∃ i, (received i).length < (received id).length) := by
  have hm := h.ids id hid
  obtain ⟨offset,hid⟩ := Option.ne_none_iff_exists'.mp hid
  have ho : s.offset id = offset := by rw [TableScans.offset,hid]; rfl
  obtain ⟨before,hb,hr⟩ := h.reached
  have hc := h.counted
  have hu := h.unread
  have hle := (hr id).1
  rw [TableScans.getPage,hid]
  dsimp only
  rw [ho] at hle
  split
  · rename_i hn
    refine ⟨_,rfl,⟨rfl,fun _ hi => hi⟩,.inl (by simpa [receive] using h),fun _ => ?_⟩
    obtain ⟨i,hi⟩ := Finset.card_pos.mp (Int.natCast_pos.mp (hc ▸ hu))
    have hl := (Finset.mem_filter.mp hi).2
    refine ⟨i,?_⟩
    rw [(hr i).2,(hr id).2,ho,length_append,length_append,length_take,length_take]
    have := getElem?_eq_none_iff.mp hn
    omega
  · rename_i page hp
    obtain ⟨hlt,hp⟩ := List.getElem?_eq_some_iff.mp hp
    have ht : s.pageCaches.take (offset + 1) = s.pageCaches.take (s.offset id) ++ (some page).toList := by
      rw [take_succ_eq_append_getElem hlt,hp,ho]
      rfl
    split
    · rename_i hn
      refine ⟨_,rfl,keeps_update ..,.inl (h.move hm hlt ht hu ?_),nofun⟩
      rw [hc]
      congr 2
      ext i
      by_cases hi : i = id
      · subst hi
        simp
        omega
      · simp [hi]
    · rename_i hl
      have he : (Finset.univ.filter fun i => update s.offset id (offset + 1) i < s.pageCaches.length) =
          (Finset.univ.filter fun i => s.offset i < s.pageCaches.length).erase id := by
        ext i
        by_cases hi : i = id
        · simp [hi,not_not.mp hl]
        · simp [hi]
      have hcard := Finset.card_erase_add_one
        (show id ∈ Finset.univ.filter (s.offset · < s.pageCaches.length) by simpa [ho] using hlt)
      split
      · rename_i hz
        exact ⟨_,rfl,keeps_update ..,.inl (h.move hm hlt ht (by omega) (by rw [he]; omega)),nofun⟩
      · rename_i hz
        have ha : ∀ i, receive received id (some page) i = before ++ s.pageCaches := by
          intro i
          by_cases hi : i = id
          · subst hi
            rw [receive,update_self,(hr i).2,append_assoc,← ht,not_not.mp hl,take_length]
          · have hn : i ∉ (Finset.univ.filter (s.offset · < s.pageCaches.length)).erase id := fun hm => by
              have := Finset.card_pos.mpr ⟨i,hm⟩
              omega
            rw [receive,update_of_ne hi,(hr i).2,take_of_length_le (by simpa [hi] using hn)]
        have hs := h.toShared.move hm (offset + 1) (s.curConsumerScanNodeRefCount - 1) []
        obtain ⟨s',hs',hk,hg⟩ := hs.endRound h.mapped rfl (not_not.mp hz) id.pos (hb.trans (append_assoc ..).symm) ha
        have hk' := keeps_update s id (offset + 1) (s.curConsumerScanNodeRefCount - 1) []
        exact ⟨(s',some page),by rw [hs']; rfl,⟨hk.ids,fun i hi => hk.positions i (hk'.positions i hi)⟩,hg,nofun⟩

theorem Reading.pageCaches_ne_nil (h : s.Reading pages received) : s.pageCaches ≠ [] := by
  intro hn
  have hu := h.unread
  simp [h.counted,hn] at hu

theorem Reading.checkFinished (h : s.Reading pages received) :
    s.checkFinished id = s ∧ (s.finishStatus id = true → received id = pages) := by
  have hu := h.unread
  refine ⟨if_neg (by simp [removes,hu]),fun hs => ?_⟩
  obtain ⟨before,hb,hr⟩ := h.reached
  obtain ⟨⟨k,hk,hle⟩,hd⟩ : (∃ k ∈ s.positionIndexMap id, k ≥ s.pageCaches.length) ∧ s.pagesWritten = 0 ∧
      s.pagesToSpill = [] := by simpa [finishStatus,h.pageCaches_ne_nil] using hs
  have ho : s.offset id = k := by rw [offset,Option.mem_def.mp hk]; rfl
  rw [(hr id).2,hb,h.toShared.pending_eq_nil.mpr hd,take_of_length_le (ho ▸ hle),append_nil]

theorem Drained.getPage (h : s.Drained pages received) (hid : s.positionIndexMap id ≠ none) :
    s.getPage id = .ok (s,none) := by
  obtain ⟨offset,hid⟩ := Option.ne_none_iff_exists'.mp hid
  simp [TableScans.getPage,hid,h.empty]

/-- A call gives the node the next page, if it has not got them all and no other node has got fewer. -/
theorem Consistent.getPage (h : s.Consistent pages received) (hid : s.positionIndexMap id ≠ none) :
    ∃ r, s.getPage id = .ok r ∧ s.Keeps r.1 ∧ r.1.Consistent pages (receive received id r.2) ∧
      (r.2 = none → received id = pages ∨ ∃ i, (received i).length < (received id).length) := by
  obtain hr | hd := h
  · obtain ⟨r,hp,hk,hc,hn⟩ := hr.getPage hid
    exact ⟨r,hp,hk,hc,fun he => .inr (hn he)⟩
  · exact ⟨_,hd.getPage hid,⟨rfl,fun _ hi => hi⟩,.inr (by simpa [receive] using hd),fun _ => .inl (hd.reached id)⟩

theorem Drained.checkFinished (h : s.Drained pages received) :
    (s.checkFinished id).Drained pages received ∧ (pages ≠ [] → (s.checkFinished id).Removed) := by
  have hs : s.finishStatus id = true := by simp [finishStatus,h.empty]
  rw [TableScans.checkFinished]
  split
  · have hi : ∀ i, (if i ∈ s.sourceNodeModifiedIdList then none else s.positionIndexMap i) = none := fun i => by
      by_contra hn
      exact hn (if_pos (h.ids i (by simp_all)))
    exact ⟨⟨⟨fun i hn => absurd (hi i) hn,h.written,h.closed⟩,h.empty,h.counted,h.done,h.reached⟩,
      fun _ => ⟨rfl,hi,h.closed (h.toShared.pending_eq_nil.mp h.done).1⟩⟩
  · rename_i hn
    exact ⟨h,fun hp => absurd (by simp [removes,hs,h.counted hp]) hn⟩

theorem Consistent.received_prefix (h : s.Consistent pages received) (id : Fin n) : received id <+: pages := by
  obtain hr | hd := h
  · obtain ⟨before,hb,hr⟩ := hr.reached
    rw [hb,(hr id).2,prefix_append_right_inj]
    exact (List.take_prefix _ _).trans (prefix_append _ _)
  · rw [hd.reached]

theorem Shared.create (h : s.Shared) (id : Fin n) :
    Shared { s with sourceNodeModifiedIdList := s.sourceNodeModifiedIdList ++ [id] } :=
  ⟨fun i hi => mem_append_left _ (h.ids i hi),h.written,h.closed⟩

end TableScans

/-- The shared state with the operators that are between `initIndex` and the synchronized block of `getPage`, those
that have reported finished, and what each node was given. -/
structure Consumers (Page : Type) (n : Nat) (ι : Type) extends TableScans Page n where
  entering : ι → Bool
  finished : ι → Bool
  received : Fin n → List Page

/-- The steps of the operators, with a call of `getOutput` in two. -/
inductive ConsumerStep (ι : Type) where
  | create (operator : ι)
  | initIndex (operator : ι)
  | getPage (operator : ι)
  | isFinished (operator : ι)

open TableScans

variable {ι : Type} [DecidableEq ι]

def Consumers.step (node : ι → Fin n) (s : Consumers Page n ι) : ConsumerStep ι → Except String (Consumers Page n ι)
  | .create k => do
    let scans ← s.createOperator (node k)
    pure { s with toTableScans := scans }
  | .initIndex k =>
    pure { s with toTableScans := s.initIndex (node k), entering := update s.entering k true }
  | .getPage k => do
    let (scans,page) ← s.getPage (node k)
    pure { s with
      toTableScans := scans
      entering := update s.entering k false
      received := receive s.received (node k) page }
  | .isFinished k =>
    if s.finished k then pure s
    else pure { s with
      toTableScans := s.checkFinished (node k)
      finished := update s.finished k (s.finishStatus (node k)) }

/-- The driver of an operator makes one call at a time, and `isFinished` does not remove the positions while another
operator is about to read its own. -/
def Consumers.Apart (node : ι → Fin n) (s : Consumers Page n ι) : ConsumerStep ι → Prop
  | .create _ => True
  | .initIndex k => s.entering k = false
  | .getPage k => s.entering k = true
  | .isFinished k => s.entering k = false ∧
    (s.finished k = false → s.removes (node k) = true → ∀ j, s.entering j = false)

/-- An operator is created before it is called, and while the map has the state. -/
def Created (node : ι → Fin n) (s : Consumers Page n ι) (c : ConsumerStep ι) : Prop :=
  s.Apart node c ∧ match c with
    | .create _ => s.mapped = true
    | .initIndex k | .getPage k | .isFinished k => node k ∈ s.sourceNodeModifiedIdList

/-- Each operator is there from the start, and the driver asks none for a page that has reported finished. -/
def Driven (s : Consumers Page n (Fin n)) (c : ConsumerStep (Fin n)) : Prop :=
  s.Apart id c ∧ match c with
    | .create _ => False
    | .initIndex id | .getPage id => s.finished id = false
    | .isFinished _ => True

structure Consumers.Good (pages : List Page) (node : ι → Fin n) (s : Consumers Page n ι) : Prop where
  phase : s.Consistent pages s.received
  entering : ∀ k, s.entering k = true → s.positionIndexMap (node k) ≠ none
  finished : ∀ k, s.finished k = true → s.received (node k) = pages

namespace Consumers
variable {s : Consumers Page n ι} {node : ι → Fin n} {pages : List Page} {k : ι} (h : s.Good pages node)
include h

theorem Good.create (hm : s.mapped = true) : ∃ s', s.step node (.create k) = .ok s' ∧ s'.Good pages node := by
  refine ⟨{ s with sourceNodeModifiedIdList := s.sourceNodeModifiedIdList ++ [node k] },?_,?_,h.entering,h.finished⟩
  · simp [step,createOperator,hm]
  · obtain hr | hd := h.phase
    · exact .inl ⟨hr.toShared.create _,hr.mapped,hr.counted,hr.unread,hr.reached⟩
    · exact .inr ⟨hd.toShared.create _,hd.empty,hd.counted,hd.done,hd.reached⟩

theorem Good.initIndex (hk : node k ∈ s.sourceNodeModifiedIdList) :
    ∃ s', s.step node (.initIndex k) = .ok s' ∧ s'.Good pages node ∧ s'.finished = s.finished ∧
      s'.sourceNodeModifiedIdList = s.sourceNodeModifiedIdList := by
  refine ⟨_,rfl,⟨h.phase.initIndex hk,fun j hj => ?_,h.finished⟩,rfl,rfl⟩
  by_cases he : node j = node k
  · simp [TableScans.initIndex,he]
  · have hj' : j ≠ k := fun hj => he (hj ▸ rfl)
    simpa [TableScans.initIndex,he] using h.entering j (by simpa [hj'] using hj)

/-- The node of the operator gets the next page, if it has not got them all and no other node has got fewer. -/
theorem Good.getPage (hk : s.entering k = true) :
    ∃ s', s.step node (.getPage k) = .ok s' ∧ s'.Good pages node ∧ s'.finished = s.finished ∧
      s'.sourceNodeModifiedIdList = s.sourceNodeModifiedIdList ∧
      (s'.received = s.received → s.received (node k) = pages ∨
        ∃ id, (s.received id).length < (s.received (node k)).length) := by
  obtain ⟨⟨scans,page⟩,hr,hkeep,hg,hn⟩ := h.phase.getPage (h.entering k hk)
  refine ⟨{ s with
    toTableScans := scans
    entering := update s.entering k false
    received := receive s.received (node k) page },?_,⟨hg,fun j hj => ?_,fun j hj => ?_⟩,rfl,hkeep.ids,fun he => hn ?_⟩
  · rw [step,hr]
    rfl
  · have hj' : j ≠ k := by
      rintro rfl
      simp at hj
    exact hkeep.positions _ (h.entering j (by simpa [hj'] using hj))
  · -- a node that has every page has no place for another one
    have hp : s.received (node j) <+: receive s.received (node k) page (node j) := by
      by_cases he : node j = node k <;> simp [receive,he]
    rw [h.finished j hj] at hp
    exact (hg.received_prefix (node j)).eq_of_length_le hp.length_le
  · simpa [receive] using congrFun he (node k)

theorem Good.isFinished (hk : s.Apart node (.isFinished k)) :
    ∃ s', s.step node (.isFinished k) = .ok s' ∧ s'.Good pages node ∧
      s'.sourceNodeModifiedIdList = s.sourceNodeModifiedIdList ∧
      (s' = s ∨ s'.pageCaches ≠ [] ∨ (pages ≠ [] → s'.Removed)) := by
  cases hf : s.finished k with
  | true => exact ⟨s,by simp [step,hf]; rfl,h,rfl,.inl rfl⟩
  | false =>
    have hl : (s.checkFinished (node k)).sourceNodeModifiedIdList = s.sourceNodeModifiedIdList := by
      rw [checkFinished]
      split <;> rfl
    have he (j : ι) (hj : s.entering j = true) : (s.checkFinished (node k)).positionIndexMap (node j) ≠ none := by
      have hr : s.removes (node k) ≠ true := fun hr => absurd hj (by simp [hk.2 hf hr j])
      rw [checkFinished,if_neg hr]
      exact h.entering j hj
    have hn (hi : s.finishStatus (node k) = true → s.received (node k) = pages) (j : ι) :
        update s.finished k (s.finishStatus (node k)) j = true → s.received (node j) = pages := by
      by_cases hj : j = k
      · subst hj
        simpa using hi
      · simpa [hj] using h.finished j
    refine ⟨_,by simp [step,hf]; rfl,?_⟩
    obtain hr | hd := h.phase
    · rw [hr.checkFinished.1] at he ⊢
      exact ⟨⟨.inl hr,he,hn hr.checkFinished.2⟩,rfl,.inr (.inl hr.pageCaches_ne_nil)⟩
    · exact ⟨⟨.inr hd.checkFinished.1,he,hn fun _ => hd.reached _⟩,hl,.inr (.inr hd.checkFinished.2)⟩

omit h in
/-- Without a page in memory an operator reports finished, and nothing is removed while nodes are counted. -/
theorem isFinished_kept (he : s.pageCaches = []) (hc : 0 < s.curConsumerScanNodeRefCount) :
    s.step node (.isFinished k) = .ok { s with finished := update s.finished k true } := by
  rw [step]
  split
  · rename_i hf
    rw [← hf,update_eq_self]
    rfl
  · rw [checkFinished,if_neg (by simp [removes,hc])]
    simp [finishStatus,he]
    rfl

end Consumers

/-- The pages of a producer, with a threshold if spilling is enabled. -/
structure Producer (Page : Type) where
  spillThreshold : Option Int
  size : Page → Nat
  pages : List Page

variable (p : Producer Page)

/-- The operators of the nodes after the pages of the producer, where some nodes had one before. -/
def consumers (node : ι → Fin n) (created : List (Fin n)) : Machine (Consumers Page n ι) (ConsumerStep ι) where
  init := ⟨p.pages.foldl (setPage p.spillThreshold p.size) (.new Page created),fun _ => false,fun _ => false,fun _ => []⟩
  step := Consumers.step node

/-- What the producer leaves: a page is in memory unless there is none, or nothing may be kept there, and the pages
that are not in memory come after those that are. -/
theorem foldl_setPage (created : List (Fin n)) : ∃ (cs ts spilled : List Page) (spiller : Option (Spiller Page)),
    p.pages.foldl (setPage p.spillThreshold p.size) (.new Page created) =
      ⟨cs,ts,created,spiller,spilled.length,n,true,fun _ => none⟩ ∧
      (spiller.elim [] Spiller.spills).flatten = spilled ∧ (spilled = [] → spiller = none) ∧
      (cs = [] ↔ p.pages = [] ∨ ∃ threshold ∈ p.spillThreshold, threshold.tdiv 2 ≤ 0) ∧
      p.pages = cs ++ (spilled ++ ts) ∧
      (spilled ++ ts = [] ∨ ∃ threshold ∈ p.spillThreshold, threshold.tdiv 2 ≤ totalPageSize p.size cs) := by
  obtain ⟨spillThreshold,size,pages⟩ := p
  dsimp only
  induction pages using reverseRecOn with
  | nil => exact ⟨[],[],[],none,rfl,rfl,fun _ => rfl,by simp,rfl,.inl rfl⟩
  | append_singleton pages page ih =>
    obtain ⟨cs,ts,spilled,spiller,hs,hw,hn,hc,hp,hf⟩ := ih
    rw [foldl_append,hs,foldl_cons,foldl_nil]
    cases spillThreshold with
    | none =>
      have hf := hf.resolve_right (by simp)
      exact ⟨_,_,_,_,rfl,hw,hn,by simp,by rw [hp,hf]; simp,.inl hf⟩
    | some threshold =>
      rw [setPage]
      split
      · rename_i hl
        have hf := hf.resolve_right (by simpa using hl)
        exact ⟨_,_,_,_,rfl,hw,hn,by simp; omega,by rw [hp,hf]; simp,.inl hf⟩
      · rename_i hl
        have hc : cs = [] ↔ threshold.tdiv 2 ≤ 0 := by
          refine ⟨?_,fun hle => hc.mpr (.inr ⟨threshold,rfl,hle⟩)⟩
          rintro rfl
          simpa [totalPageSize] using hl
        have hf : ∃ t ∈ some threshold, t.tdiv 2 ≤ totalPageSize size cs := ⟨threshold,rfl,not_lt.mp hl⟩
        dsimp only
        split
        · have hl : ((spilled ++ (ts ++ [page])).length : Int) = spilled.length + (ts ++ [page]).length := by simp
          refine ⟨_,_,spilled ++ (ts ++ [page]),_,by rw [hl],?_,by simp,by simp [hc],?_,.inr hf⟩
          · cases spiller <;> simp_all
          · simp [hp]
        · exact ⟨_,_,_,_,rfl,hw,hn,by simp [hc],by simp [hp],.inr hf⟩

/-- Before the first call the nodes can start to read, if no page is missing from memory. -/
theorem consumers_init (hn : 0 < n) (node : ι → Fin n) (created : List (Fin n))
    (h : p.pages = [] ∨ ∀ threshold ∈ p.spillThreshold, 0 < threshold.tdiv 2) :
    (consumers p node created).init.Good p.pages node := by
  obtain ⟨cs,ts,spilled,spiller,hs,hw,hz,hc,hp,-⟩ := foldl_setPage p created
  rw [consumers,hs]
  have hd : Shared ⟨cs,ts,created,spiller,spilled.length,n,true,fun _ => none⟩ :=
    ⟨nofun,fun _ => by rw [getSpilledPages,hw],fun hl => by simp [hz (length_eq_zero_iff.mp (Int.natCast_eq_zero.mp hl))]⟩
  have he : pending ⟨cs,ts,created,spiller,spilled.length,n,true,fun _ => none⟩ = spilled ++ ts := by
    rw [pending,getSpilledPages,hw]
    split
    · rename_i hl
      rw [length_eq_zero_iff.mp (Int.natCast_eq_zero.mp hl)]
    · rfl
  refine ⟨?_,nofun,nofun⟩
  by_cases hm : cs = []
  · have hn : p.pages = [] := by
      refine h.elim id fun ht => (hc.mp hm).resolve_right ?_
      rintro ⟨t,hmt,hle⟩
      exact absurd (ht t hmt) (not_lt.mpr hle)
    exact .inr ⟨hd,hm,(absurd hn ·),he.trans (append_eq_nil_iff.mp (hp.symm.trans hn)).2,fun _ => hn.symm⟩
  · exact .inl (reading_of_start hd rfl rfl hn (fun _ => rfl) hm (he ▸ hp : p.pages = [] ++ _) fun _ => rfl)

/-- Without a page in memory every node may report finished with nothing removed. -/
theorem run_kept (hn : 0 < n) (h : p.pages = [] ∨ ∃ threshold ∈ p.spillThreshold, threshold.tdiv 2 ≤ 0)
    (node : ι → Fin n) (created : List (Fin n)) (condition : Consumers Page n ι → ConsumerStep ι → Prop)
    (hc : ∀ finished k, condition { (consumers p node created).init with finished } (.isFinished k)) (ks : List ι) :
    (consumers p node created).Along condition (ks.map .isFinished) ∧
      ∃ finished, (consumers p node created).run (ks.map .isFinished) =
        .ok { (consumers p node created).init with finished } ∧ ∀ k ∈ ks, finished k = true := by
  obtain ⟨cs,ts,spilled,spiller,hs,-,-,hm,-⟩ := foldl_setPage p created
  induction ks using reverseRecOn with
  | nil => exact ⟨.of_forall (by simp),_,rfl,by simp⟩
  | append_singleton ks k ih =>
    obtain ⟨ha,finished,hr,hf⟩ := ih
    rw [map_append,map_singleton]
    refine ⟨ha.concat ⟨_,hr,hc finished k⟩,update finished k true,?_,
      forall_mem_concat.mpr ⟨fun i hi => by simp [update_apply,hf i hi],update_self ..⟩⟩
    rw [Machine.run_concat,hr]
    exact Consumers.isFinished_kept (by simp [consumers,hs,hm.mpr h]) (by simpa [consumers,hs] using hn)

/-- Every node gets every page once, none of its operators finishes earlier, and a call gives a page unless the node
has them all or waits for another one, for every interleaving in which the operators are created while the state is
there and `isFinished` takes no position from under a call, if and only if there is no page or one was kept in memory. -/
theorem delivered_iff (node : Nat → Fin n) :
    (∀ created steps, (consumers p node created).Along (Created node) steps →
      ∃ s, (consumers p node created).run steps = .ok s ∧ (∀ id, s.received id <+: p.pages) ∧
        (∀ k, s.finished k = true → s.received (node k) = p.pages) ∧
        ∀ k, s.entering k = true → ∃ s', s.step node (.getPage k) = .ok s' ∧
          (s'.received = s.received → s.received (node k) = p.pages ∨
            ∃ id, (s.received id).length < (s.received (node k)).length)) ↔
    p.pages = [] ∨ ∀ threshold ∈ p.spillThreshold, 0 < threshold.tdiv 2 := by
  constructor
  · intro h
    by_contra hn
    obtain ⟨hp,ht⟩ := not_or.mp hn
    push Not at ht
    obtain ⟨_,_,_,_,hs,-⟩ := foldl_setPage p (finRange n)
    obtain ⟨ha,finished,hr,hf⟩ := run_kept p (node 0).pos (.inr ht) node (finRange n) (Created node)
      (fun _ _ => ⟨⟨rfl,fun _ _ _ => rfl⟩,by simp [consumers,hs]⟩) [0]
    obtain ⟨s,hr',-,hd,-⟩ := h _ _ ha
    cases hr.symm.trans hr'
    exact hp (hd 0 (hf 0 (by simp))).symm
  · intro h created steps hc
    have hst : ∀ (s : Consumers Page n Nat) c, s.Good p.pages node → Created node s c →
        ∃ s', s.step node c = .ok s' ∧ s'.Good p.pages node := by
      intro s c hg hc
      cases c with
      | create k => exact hg.create hc.2
      | initIndex k => exact (hg.initIndex hc.2).imp fun _ hs => ⟨hs.1,hs.2.1⟩
      | getPage k => exact (hg.getPage hc.1).imp fun _ hs => ⟨hs.1,hs.2.1⟩
      | isFinished k => exact (hg.isFinished hc.1).imp fun _ hs => ⟨hs.1,hs.2.1⟩
    obtain ⟨s,hr,hg⟩ := Machine.run_along_total (consumers_init p (node 0).pos node created h) hst hc
    refine ⟨s,hr,hg.phase.received_prefix,hg.finished,fun k hk => ?_⟩
    obtain ⟨s',hs,-,-,-,hn⟩ := hg.getPage hk
    exact ⟨s',hs,hn⟩

/-- A second operator of the only node, created after the first has finished. -/
theorem consumers_late : (consumers ⟨none,fun _ => 1,[7]⟩ (fun _ : Nat => (0 : Fin 1)) [0]).run
    [.initIndex 0,.getPage 0,.isFinished 0,.create 1] = .error "NullPointerException" :=
  rfl

/-- A second operator of the only node, that looks for its position after the first has removed it. -/
example : (consumers ⟨none,fun _ => 1,[7]⟩ (fun _ : Nat => (0 : Fin 1)) [0]).run
    [.create 1,.initIndex 0,.getPage 0,.initIndex 1,.isFinished 0,.getPage 1] = .error "NullPointerException" :=
  rfl

/-- The state of a reused scan is removed, for every interleaving, if and only if there is a consumer and a page was
kept in memory. -/
theorem removed_iff (n : Nat) : (∀ steps, (consumers p id (finRange n)).Along Driven steps →
      ∃ s, (consumers p id (finRange n)).run steps = .ok s ∧ ((∀ id, s.finished id = true) → s.Removed)) ↔
    n ≠ 0 ∧ p.pages ≠ [] ∧ ∀ threshold ∈ p.spillThreshold, 0 < threshold.tdiv 2 := by
  constructor
  · intro h
    obtain ⟨_,_,_,_,hs,-⟩ := foldl_setPage p (finRange n)
    have hk : (consumers p id (finRange n)).init.mapped = true := congrArg TableScans.mapped hs
    have hn : n ≠ 0 := by
      rintro rfl
      obtain ⟨s,hr,hm⟩ := h [] (.of_forall (by simp))
      cases hr
      exact Bool.false_ne_true ((hm nofun).1.symm.trans hk)
    refine ⟨hn,?_⟩
    by_contra hp
    obtain ⟨ha,finished,hr,hf⟩ := run_kept p (Nat.pos_of_ne_zero hn) (by by_contra ht; push Not at ht; exact hp ht) id
      (finRange n) Driven (fun _ _ => ⟨⟨rfl,fun _ _ _ => rfl⟩,trivial⟩) (finRange n)
    obtain ⟨s,hr',hm⟩ := h _ ha
    cases hr.symm.trans hr'
    exact Bool.false_ne_true ((hm fun id => hf id (mem_finRange id)).1.symm.trans hk)
  · rintro ⟨hn,hp,ht⟩ calls hc
    have hg := consumers_init p (Nat.pos_of_ne_zero hn) id (finRange n) (.inr ht)
    obtain ⟨_,_,_,_,hs,-⟩ := foldl_setPage p (finRange n)
    have hst : ∀ (s : Consumers Page n (Fin n)) c,
        (s.Good p.pages id ∧ (∀ id, id ∈ s.sourceNodeModifiedIdList) ∧
          (s.pageCaches = [] → (∀ id, s.finished id = true) → s.Removed)) → Driven s c →
        ∃ s', s.step id c = .ok s' ∧ s'.Good p.pages id ∧ (∀ id, id ∈ s'.sourceNodeModifiedIdList) ∧
          (s'.pageCaches = [] → (∀ id, s'.finished id = true) → s'.Removed) := by
      rintro s c ⟨hg,hl,hm⟩ hd
      cases c with
      | create id => exact hd.2.elim
      | initIndex id =>
        obtain ⟨s',hs,hg',hf,hl'⟩ := hg.initIndex (hl id)
        exact ⟨s',hs,hg',hl' ▸ hl,fun _ ha => absurd (ha id) (by simp [hf,show s.finished id = false from hd.2])⟩
      | getPage id =>
        obtain ⟨s',hs,hg',hf,hl',-⟩ := hg.getPage hd.1
        exact ⟨s',hs,hg',hl' ▸ hl,fun _ ha => absurd (ha id) (by simp [hf,show s.finished id = false from hd.2])⟩
      | isFinished id =>
        obtain ⟨s',hs,hg',hl',rfl | he | hm'⟩ := hg.isFinished hd.1
        · exact ⟨_,hs,hg',hl,hm⟩
        · exact ⟨s',hs,hg',hl' ▸ hl,fun hn => absurd hn he⟩
        · exact ⟨s',hs,hg',hl' ▸ hl,fun _ _ => hm' hp⟩
    obtain ⟨s,hr,hg,-,hm⟩ := Machine.run_along_total
      ⟨hg,by simp [consumers,hs],fun _ ha => absurd (ha ⟨0,Nat.pos_of_ne_zero hn⟩) (by simp [consumers])⟩ hst hc
    refine ⟨s,hr,fun ha => ?_⟩
    obtain hd | hd := hg.phase
    · obtain ⟨id,hid⟩ := Finset.card_pos.mp (Int.natCast_pos.mp (hd.counted ▸ hd.unread))
      obtain ⟨before,hb,hr⟩ := hd.reached
      have hl := congrArg length ((hr id).2.symm.trans ((hg.finished id (ha id)).trans hb))
      have hlt := (Finset.mem_filter.mp hid).2
      simp only [length_append,length_take] at hl
      omega
    · exact hm hd.empty ha

/-- With no page the only consumer reports finished and the state stays in the map. -/
theorem consumers_noPages : ∃ s, (consumers ⟨none,fun _ : Nat => 1,[]⟩ id [(0 : Fin 1)]).run [.isFinished 0] = .ok s ∧
    (∀ id, s.finished id = true) ∧ s.mapped = true :=
  ⟨_,rfl,by decide,rfl⟩

end HetuCore.TableScan
