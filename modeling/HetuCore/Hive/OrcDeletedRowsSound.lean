import Mathlib.Data.List.Basic
import Mathlib.Data.List.TakeWhile
import Mathlib.Data.Prod.Lex
import HetuCore.Hive.OrcDeletedRows

namespace HetuCore.Hive
open Foundation OrcAcidRowId SourcePage List

/-- In a sorted list the first key that is not below `x` is `x` if `x` is there. -/
theorem head?_dropWhile_lt {κ : Type} [LinearOrder κ] {keys : List κ} (h : keys.Pairwise (· ≤ ·)) (x : κ) :
    (keys.dropWhile (decide <| · < x)).head? = some x ↔ x ∈ keys := by
  induction keys with
  | nil => simp
  | cons key keys ih =>
    obtain ⟨hle,hk⟩ := pairwise_cons.mp h
    by_cases hlt : key < x
    · rw [dropWhile_cons_of_pos (by simpa using hlt),ih hk,mem_cons]
      exact ⟨.inr,fun hm => hm.resolve_left hlt.ne'⟩
    · rw [dropWhile_cons_of_neg (by simpa using hlt),head?_cons,Option.some.injEq,mem_cons]
      refine ⟨fun heq => .inl heq.symm,?_⟩
      rintro (rfl | hm)
      · rfl
      · exact le_antisymm (hle x hm) (not_lt.mp hlt)

namespace OrcAcidRowId

variable (row : OrcAcidRowId)

/-- The order of the merged delete rows. -/
def sortKey : Int ×ₗ Int ×ₗ Int := 
  toLex (row.originalTransaction.toInt,toLex (row.bucket.toInt,row.rowId.toInt))

def key : Int ×ₗ Int ×ₗ Int :=
  toLex (row.originalTransaction.toInt,
    toLex (if row.originalTransaction = 0 then 0 else row.bucket.toInt,row.rowId.toInt))

theorem compare_long (a b : Int64) : compare a b = compare a.toInt b.toInt := by
  simp only [compare,compareOfLessAndEq,Int64.lt_iff_toInt_lt,Int64.toInt_inj]

theorem compare_int (a b : Int32) : compare a b = compare a.toInt b.toInt := by
  simp only [compare,compareOfLessAndEq,Int32.lt_iff_toInt_lt,Int32.toInt_inj]

private theorem then_of_ne {a b : Int} (h : a ≠ b) (o : Ordering) : (compare a b).then o = compare a b := by
  have hne : compare a b ≠ .eq := fun heq => h (compare_eq_iff_eq.mp heq)
  cases hc : compare a b with
  | eq => exact absurd hc hne
  | _ => rfl

theorem compareTo_eq (other : OrcAcidRowId) : row.compareTo other = compare row.key other.key := by
  obtain ⟨t,b,r⟩ := row
  obtain ⟨t',b',r'⟩ := other
  have hk : compare (key ⟨t,b,r⟩) (key ⟨t',b',r'⟩) = (compare t.toInt t'.toInt).then
      ((compare (if t = 0 then 0 else b.toInt) (if t' = 0 then 0 else b'.toInt)).then (compare r.toInt r'.toInt)) := rfl
  rw [hk,compareTo]
  simp only [compare_long,compare_int]
  by_cases ht : t = t'
  · subst ht
    by_cases hz : t = 0
    · by_cases hr : r = r' <;> simp [hr,hz]
    · by_cases hb : b = b'
      · by_cases hr : r = r' <;> simp [hb,hr]
      · simp [hb,hz,then_of_ne (mt Int32.toInt_inj.mp hb)]
  · simp [ht,then_of_ne (mt Int64.toInt_inj.mp ht)]

theorem key_le {row other : OrcAcidRowId} (h : row.sortKey ≤ other.sortKey)
    (hb : row.originalTransaction = 0 → other.originalTransaction = 0 → row.bucket = other.bucket) :
    row.key ≤ other.key := by
  rw [sortKey,sortKey,Prod.Lex.toLex_le_toLex,Prod.Lex.toLex_le_toLex] at h
  rw [key,key,Prod.Lex.toLex_le_toLex,Prod.Lex.toLex_le_toLex]
  refine h.imp_right fun ⟨heq,hle⟩ => ⟨heq,?_⟩
  replace heq : row.originalTransaction = other.originalTransaction := Int64.toInt_inj.mp heq
  by_cases hz : row.originalTransaction = 0
  · have ho : other.originalTransaction = 0 := heq ▸ hz
    rw [hb hz ho] at hle
    rw [if_pos hz,if_pos ho]
    exact .inr ⟨rfl,(hle.resolve_left (lt_irrefl _)).2⟩
  · rwa [if_neg hz,if_neg (heq ▸ hz)]

end OrcAcidRowId

variable {c : DeleteCursor}

namespace DeleteCursor
variable (source : OrcAcidRowId)

/-- The delete rows that the cursor has not passed. -/
def remaining (c : DeleteCursor) : List OrcAcidRowId :=
  (c.currentPage.getD []).drop c.currentPageOffset ++ c.sortedRows.flatten

/-- The delete rows from the first one on that is not before a row. -/
def rest (source : OrcAcidRowId) (rows : List OrcAcidRowId) : List OrcAcidRowId :=
  rows.dropWhile fun row => decide (row.key < source.key)

/-- The cursor after a row was looked up. -/
structure LookedUp (source : OrcAcidRowId) (rows : List OrcAcidRowId) (deleted : Bool) (c : DeleteCursor) : Prop where
  remaining : c.remaining = rest source rows
  answer : deleted = true ↔ (rest source rows).head?.map key = some source.key
  pages : ∀ page ∈ c.sortedRows, page ≠ []

variable {page : List OrcAcidRowId} {offset : Nat} {row : OrcAcidRowId}

theorem drop_eq_cons (h : page[offset]? = some row) : page.drop offset = row :: page.drop (offset + 1) := by
  obtain ⟨hlt,rfl⟩ := List.getElem?_eq_some_iff.mp h
  exact drop_eq_getElem_cons hlt

/-- The page is used up, or the scan stops at the first row that is not before the source row. -/
theorem scan_spec (h : offset < page.length) :
    (scan source page offset = .ok (none,page.length) ∧ ∀ row ∈ page.drop offset, row.key < source.key) ∨
    ∃ deleted offset' row, scan source page offset = .ok (some deleted,offset') ∧ page[offset']? = some row ∧
      (deleted = true ↔ row.key = source.key) ∧
      ∀ more, rest source (page.drop offset ++ more) = page.drop offset' ++ more := by
  have hs : ∀ {offset : Nat} {row : OrcAcidRowId}, page[offset]? = some row → ¬ row.key < source.key → ∀ more,
      rest source (page.drop offset ++ more) = page.drop offset ++ more := by
    intro offset row hr hnt more
    rw [drop_eq_cons hr]
    exact dropWhile_cons_of_neg (by simpa using hnt)
  induction offset using scan.induct source page with
  | case1 offset hn => exact absurd (getElem?_eq_none_iff.mp hn) (by omega)
  | case2 offset row hr hc =>
    rw [scan,hr]
    have hk : row.key = source.key := compare_eq_iff_eq.mp (row.compareTo_eq source ▸ hc)
    refine .inr ⟨true,offset,row,by simp only [hc],hr,by simp [hk],hs hr hk.not_lt⟩
  | case3 offset row hr hc =>
    rw [scan,hr]
    have hk : source.key < row.key := compare_gt_iff_gt.mp (row.compareTo_eq source ▸ hc)
    refine .inr ⟨false,offset,row,by simp only [hc],hr,by simp [hk.ne'],hs hr hk.not_gt⟩
  | case4 offset row hr hc hlt ih =>
    have hk : row.key < source.key := compare_lt_iff_lt.mp (row.compareTo_eq source ▸ hc)
    rw [scan,hr,drop_eq_cons hr]
    simp only [hc,if_pos hlt]
    refine (ih hlt).imp (fun he => ⟨he.1,forall_mem_cons.mpr ⟨hk,he.2⟩⟩) ?_
    rintro ⟨deleted,offset',row',hsc,hr',hd,hrs⟩
    refine ⟨deleted,offset',row',hsc,hr',hd,fun more => ?_⟩
    rw [cons_append,rest,dropWhile_cons_of_pos (by simpa using hk)]
    exact hrs more
  | case5 offset row hr hc hlt =>
    have hk : row.key < source.key := compare_lt_iff_lt.mp (row.compareTo_eq source ▸ hc)
    rw [scan,hr,drop_eq_cons hr]
    have he : offset + 1 = page.length := by omega
    simp only [hc,he]
    simpa using hk

variable {source} in
theorem LookedUp.stop {page : List OrcAcidRowId} {offset : Nat} {deleted : Bool}
    {sortedRows : List (List OrcAcidRowId)} {rows : List OrcAcidRowId} (hrw : page[offset]? = some row)
    (hd : deleted = true ↔ row.key = source.key) (hp : ∀ page ∈ sortedRows, page ≠ [])
    (hr : rest source rows = page.drop offset ++ sortedRows.flatten) :
    LookedUp source rows deleted ⟨sortedRows,some page,offset⟩ where
  remaining := hr.symm
  answer := by
    rw [hd,hr,drop_eq_cons hrw]
    simp
  pages := hp

theorem scanPages_spec {sortedRows : List (List OrcAcidRowId)} (h : offset < page.length)
    (hp : ∀ page ∈ sortedRows, page ≠ []) : ∃ deleted c, scanPages source page offset sortedRows = .ok (deleted,c) ∧
      LookedUp source (page.drop offset ++ sortedRows.flatten) deleted c := by
  induction sortedRows generalizing page offset with
  | nil =>
    obtain ⟨hs,hb⟩ | ⟨deleted,offset',row,hs,hr,hd,hrs⟩ := scan_spec source h
    · have hn : rest source (page.drop offset ++ [].flatten) = [] := by
        rw [flatten_nil,append_nil,rest,dropWhile_eq_nil_iff]
        exact fun row hr => decide_eq_true (hb row hr)
      refine ⟨false,_,by rw [scanPages,hs]; rfl,⟨?_,?_,by simp⟩⟩
      · rw [hn]
        simp [remaining]
      · rw [hn]
        simp
    · exact ⟨deleted,_,by rw [scanPages,hs]; rfl,.stop hr hd (by simp) (hrs _)⟩
  | cons next sortedRows ih =>
    obtain ⟨hnx,hp'⟩ := forall_mem_cons.mp hp
    obtain ⟨hs,hb⟩ | ⟨deleted,offset',row,hs,hr,hd,hrs⟩ := scan_spec source h
    · obtain ⟨deleted,c,hc,hl⟩ := ih (length_pos_iff.mpr hnx) hp'
      refine ⟨deleted,c,by rw [scanPages,hs]; exact hc,?_⟩
      have hsk : rest source (page.drop offset ++ (next :: sortedRows).flatten) =
          rest source (next.drop 0 ++ sortedRows.flatten) := by
        rw [rest,dropWhile_append_of_pos fun row hr => decide_eq_true (hb row hr)]
        rfl
      exact ⟨hsk ▸ hl.remaining,hsk ▸ hl.answer,hl.pages⟩
    · exact ⟨deleted,_,by rw [scanPages,hs]; rfl,.stop hr hd hp (hrs _)⟩

theorem isDeleted_spec (hp : ∀ page ∈ c.sortedRows, page ≠ []) :
    ∃ deleted c', c.isDeleted source = .ok (deleted,c') ∧ LookedUp source c.remaining deleted c' := by
  obtain ⟨sortedRows,currentPage,offset⟩ := c
  rw [isDeleted]
  cases hf : currentPage.filter fun page => offset < page.length with
  | some page =>
    obtain ⟨rfl,hlt⟩ := Option.filter_eq_some_iff.mp hf
    exact scanPages_spec source (of_decide_eq_true hlt) hp
  | none =>
    have hr : remaining ⟨sortedRows,currentPage,offset⟩ = sortedRows.flatten := by
      cases currentPage with
      | none => simp [remaining]
      | some page =>
        have hge : page.length ≤ offset := by simpa using hf
        simp [remaining,hge]
    rw [hr]
    cases sortedRows with
    | nil => exact ⟨false,_,rfl,rfl,by simp [rest],by simp⟩
    | cons next sortedRows =>
      obtain ⟨hn,hp'⟩ := forall_mem_cons.mp hp
      exact scanPages_spec source (length_pos_iff.mpr hn) hp'

/-- The rows still to look up find in the remaining delete rows what they find in all of them. -/
structure Tracks (c : DeleteCursor) (deletes sources : List OrcAcidRowId) : Prop where
  sorted : (c.remaining.map key).Pairwise (· ≤ ·)
  pages : ∀ page ∈ c.sortedRows, page ≠ []
  same : ∀ source ∈ sources, source.key ∈ c.remaining.map key ↔ source.key ∈ deletes.map key

variable {source} in
theorem Tracks.isDeleted {deletes sources : List OrcAcidRowId} (h : Tracks c deletes (source :: sources))
    (ha : ∀ later ∈ sources, source.key ≤ later.key) :
    ∃ c', c.isDeleted source = .ok (decide (source.key ∈ deletes.map key),c') ∧ Tracks c' deletes sources := by
  obtain ⟨deleted,c',hc,hl⟩ := isDeleted_spec source h.pages
  have hk : (rest source c.remaining).map key = (c.remaining.map key).dropWhile (decide <| · < source.key) := by
    rw [dropWhile_map]
    rfl
  have hd : deleted = decide (source.key ∈ deletes.map key) := by
    rw [Bool.eq_iff_iff,hl.answer,decide_eq_true_iff,← h.same source mem_cons_self,← head?_map,hk]
    exact head?_dropWhile_lt h.sorted source.key
  refine ⟨c',hd ▸ hc,?_,hl.pages,fun later hlt => ?_⟩
  · rw [hl.remaining,hk]
    exact h.sorted.sublist (dropWhile_sublist _)
  · rw [← h.same later (mem_cons_of_mem _ hlt),hl.remaining,hk]
    refine ⟨fun hm => (dropWhile_sublist _).mem hm,fun hm => ?_⟩
    rw [← takeWhile_append_dropWhile (p := (decide <| · < source.key)) (l := c.remaining.map key),mem_append] at hm
    refine hm.resolve_left fun hp => ?_
    have hb := mem_takeWhile_imp hp
    exact absurd (of_decide_eq_true hb) (not_lt.mpr (ha later hlt))

end DeleteCursor

variable {start : Option Int64} {deletes : List OrcAcidRowId}

/-- The positions whose row ids no delete row has. -/
def keptPositions (deletes : List OrcAcidRowId) (rowId : Nat → OrcAcidRowId) (positions : List Nat) : List Nat :=
  positions.filter fun position => (rowId position).key ∉ deletes.map key

theorem keptPositions_cons (rowId : Nat → OrcAcidRowId) (position : Nat) (positions : List Nat) :
    keptPositions deletes rowId (position :: positions) =
      if (rowId position).key ∈ deletes.map key then keptPositions deletes rowId positions
      else position :: keptPositions deletes rowId positions := by
  split <;> simp_all [keptPositions]

theorem DeleteCursor.Tracks.validPositions {rowId : Nat → OrcAcidRowId} {positions : List Nat}
    {later : List OrcAcidRowId} (h : c.Tracks deletes (positions.map rowId ++ later))
    (ha : (positions.map rowId ++ later).Pairwise fun a b => a.key ≤ b.key) :
    ∃ c', Hive.validPositions rowId positions c = .ok (keptPositions deletes rowId positions,c') ∧ c'.Tracks deletes later := by
  induction positions generalizing c with
  | nil => exact ⟨c,rfl,h⟩
  | cons position positions ih =>
    obtain ⟨hf,hr⟩ := pairwise_cons.mp ha
    obtain ⟨c₁,hc₁,h₁⟩ := h.isDeleted hf
    obtain ⟨c₂,hc₂,h₂⟩ := ih h₁ hr
    refine ⟨c₂,?_,h₂⟩
    rw [Hive.validPositions,hc₁]
    simp only [bind,Except.bind,hc₂,keptPositions_cons,decide_eq_true_iff]
    rfl

def SourcePage.sourceRowIds (start : Option Int64) (page : SourcePage) : List OrcAcidRowId :=
  (range page.positionCount).map (page.sourceRowId start)

/-- The mask keeps the given positions of each block of the page. -/
def Keeps (positionCount : Nat) (kept : List Nat) (mask : MaskDeletedRows) : Prop :=
  mask.positionCount = kept.length ∧ ∀ {β : Type} (block : List β), block.length = positionCount →
    mask.apply block = kept.filterMap (block[·]?)

theorem filterMap_range {β : Type} (block : List β) : (range block.length).filterMap (block[·]?) = block := by
  induction block using reverseRecOn with
  | nil => rfl
  | append_singleton block value ih =>
    rw [length_append,length_singleton,range_succ,filterMap_append]
    have hin : (range block.length).filterMap ((block ++ [value])[·]?) = block := by
      refine Eq.trans (filterMap_congr fun i hi => ?_) ih
      exact getElem?_append_left (mem_range.mp hi)
    rw [hin]
    simp

theorem keeps_all (positionCount : Nat) : Keeps positionCount (range positionCount) ⟨positionCount,none⟩ := by
  refine ⟨length_range.symm,?_⟩
  rintro β block rfl
  rw [filterMap_range,MaskDeletedRows.apply,if_pos (.inl rfl)]

theorem keeps_kept {positionCount : Nat} {kept : List Nat} (h : kept.Sublist (range positionCount)) :
    Keeps positionCount kept ⟨kept.length,some kept⟩ := by
  refine ⟨rfl,?_⟩
  rintro β block rfl
  rw [MaskDeletedRows.apply]
  split
  · rename_i hl
    have ha : kept = range block.length := by
      refine h.eq_of_length ?_
      have hle := h.length_le
      rw [length_range] at hle ⊢
      have hl' : kept.length = block.length ∨ block.length = 0 := hl
      omega
    rw [ha,filterMap_range]
  · rfl

/-- The source row is deleted in some file; rows of an original file have their place only. -/
def Deleted (files : List (List OrcAcidRowId)) (start : Option Int64) (source : OrcAcidRowId) : Prop :=
  ∃ row ∈ files.flatten, if start.isSome then row.originalTransaction = 0 ∧ row.rowId = source.rowId else row = source

instance (files : List (List OrcAcidRowId)) (start : Option Int64) (source : OrcAcidRowId) :
    Decidable (Deleted files start source) := decidableBEx _ _

/-- One bucket value among the rows of transaction 0. -/
def OneBucket (rows : List OrcAcidRowId) : Prop :=
  ∀ row ∈ rows, ∀ other ∈ rows, row.originalTransaction = 0 → other.originalTransaction = 0 → row.bucket = other.bucket

/-- The pages one after the other: each mask has the positions that no delete row has. -/
theorem maskPages_eq {pages : List SourcePage} (h : c.Tracks deletes (pages.flatMap (sourceRowIds start)))
    (ha : (pages.flatMap (sourceRowIds start)).Pairwise fun a b => a.key ≤ b.key) :
    maskPages start pages (some c) = .ok (pages.map fun page =>
      let valid := keptPositions deletes (page.sourceRowId start) (range page.positionCount)
      ⟨valid.length,some valid⟩) := by
  induction pages generalizing c with
  | nil => rfl
  | cons page pages ih =>
    obtain ⟨c',hv,h'⟩ := h.validPositions ha
    rw [maskPages,loadValidPositions,hv]
    simp only [bind,Except.bind,pure,Except.pure,ih h' (pairwise_append.mp ha).2.1]
    rfl

theorem maskPages_none (pages : List SourcePage) :
    maskPages start pages none = .ok (pages.map fun page => ⟨page.positionCount,none⟩) := by
  induction pages with
  | nil => rfl
  | cons page pages ih =>
    rw [maskPages,loadValidPositions]
    simp only [bind,Except.bind,pure,Except.pure,ih]
    rfl

theorem key_eq_iff {row other : OrcAcidRowId} : row.key = other.key ↔
    row.originalTransaction = other.originalTransaction ∧
      (row.originalTransaction ≠ 0 → row.bucket = other.bucket) ∧ row.rowId = other.rowId := by
  simp only [key,EmbeddingLike.apply_eq_iff_eq,Prod.mk.injEq,Int64.toInt_inj]
  refine and_congr_right fun heq => and_congr_left fun _ => ?_
  split <;> simp_all [Int32.toInt_inj]

/-- A row id that compares equal to a delete row is deleted in a file. -/
theorem mem_keys_iff {files : List (List OrcAcidRowId)} {source : OrcAcidRowId} (hrw : ∀ row, row ∈ deletes ↔ row ∈ files.flatten)
    (ho : start.isSome → source.originalTransaction = 0)
    (hbc : start = none → ∀ row ∈ deletes, row.originalTransaction = 0 → source.originalTransaction = 0 →
      row.bucket = source.bucket) : source.key ∈ deletes.map key ↔ Deleted files start source := by
  rw [mem_map]
  refine exists_congr fun row => (and_congr_right fun hro => ?_).trans (and_congr_left fun _ => hrw row)
  rw [key_eq_iff]
  cases start with
  | some start =>
    rw [ho rfl]
    exact ⟨fun h => ⟨h.1,h.2.2⟩,fun h => ⟨h.1,fun hne => absurd h.1 hne,h.2⟩⟩
  | none =>
    constructor
    · rintro ⟨ht,hb,hr⟩
      have hb' : row.bucket = source.bucket := by
        by_cases hz : row.originalTransaction = 0
        · exact hbc rfl row hro hz (ht ▸ hz)
        · exact hb hz
      exact OrcAcidRowId.ext ht hb' hr
    · rintro rfl
      exact ⟨rfl,fun _ => rfl,rfl⟩

/-- The masks keep, in order, exactly the rows that no delete delta file has. -/
theorem maskPages_exact {files sortedRows : List (List OrcAcidRowId)} {pages : List SourcePage}
    (hmerged : sortedRows.flatten.Perm files.flatten)
    (hsorted : sortedRows.flatten.Pairwise fun a b => a.sortKey ≤ b.sortKey) (hpages : ∀ page ∈ sortedRows, page ≠ [])
    (hkind : ∀ page ∈ pages, page.pageRowOffset.isSome = start.isSome)
    (hasc : (pages.flatMap (sourceRowIds start)).Pairwise fun a b => a.sortKey ≤ b.sortKey)
    (hbucket : OneBucket files.flatten)
    (hsame : start = none → OneBucket (files.flatten ++ pages.flatMap (sourceRowIds start))) :
    (∃ maskOf, maskPages start pages (some (.new sortedRows)) = .ok (pages.map maskOf) ∧
      ∀ page ∈ pages, Keeps page.positionCount ((range page.positionCount).filter fun position =>
        ¬ Deleted files start (page.sourceRowId start position)) (maskOf page)) ∧
    ∃ maskOf, maskPages start pages none = .ok (pages.map maskOf) ∧
      ∀ page ∈ pages, Keeps page.positionCount (range page.positionCount) (maskOf page) := by
  refine ⟨?_,_,maskPages_none pages,fun page _ => keeps_all page.positionCount⟩
  have ho : start.isSome → ∀ source ∈ pages.flatMap (sourceRowIds start),
      source.originalTransaction = 0 ∧ source.bucket = 0 := by
    intro hs source hsr
    obtain ⟨page,hpg,hp⟩ := mem_flatMap.mp hsr
    obtain ⟨position,-,rfl⟩ := mem_map.mp hp
    obtain ⟨offset,hof⟩ := Option.isSome_iff_exists.mp ((hkind page hpg).trans hs)
    obtain ⟨first,rfl⟩ := Option.isSome_iff_exists.mp hs
    simp only [sourceRowId,hof,and_self]
  have hon : OneBucket (pages.flatMap (sourceRowIds start)) := by
    intro row hr other hot hz hz'
    cases hst : start with
    | none => exact hsame hst _ (mem_append_right _ hr) _ (mem_append_right _ hot) hz hz'
    | some first =>
      have hs : start.isSome := by rw [hst]; rfl
      rw [(ho hs row hr).2,(ho hs other hot).2]
  have hd : (sortedRows.flatten.map key).Pairwise (· ≤ ·) := by
    refine pairwise_map.mpr (hsorted.imp_of_mem fun ha hb hle => key_le hle ?_)
    exact hbucket _ (hmerged.mem_iff.mp ha) _ (hmerged.mem_iff.mp hb)
  have hsc : (pages.flatMap (sourceRowIds start)).Pairwise fun a b => a.key ≤ b.key :=
    hasc.imp_of_mem fun ha hb hle => key_le hle (hon _ ha _ hb)
  refine ⟨_,maskPages_eq (c := .new sortedRows) ⟨hd,hpages,fun _ _ => .rfl⟩ hsc,fun page hpg => ?_⟩
  have hk : (range page.positionCount).filter (fun position => ¬ Deleted files start (page.sourceRowId start position)) =
      keptPositions sortedRows.flatten (page.sourceRowId start) (range page.positionCount) := by
    refine filter_congr fun position hp => ?_
    have hsr : page.sourceRowId start position ∈ pages.flatMap (sourceRowIds start) :=
      mem_flatMap.mpr ⟨page,hpg,mem_map_of_mem hp⟩
    rw [decide_eq_decide,mem_keys_iff (fun row => hmerged.mem_iff) fun hs => (ho hs _ hsr).1]
    exact fun hn row hr => hsame hn row (mem_append_left _ (hmerged.mem_iff.mp hr)) _ (mem_append_right _ hsr)
  rw [hk]
  exact keeps_kept filter_sublist

def threeRows : SourcePage := ⟨3,fun position => ⟨1,0,Int64.ofNat position⟩,none⟩

/-- The delete rows of two files are in two pages of the merge. -/
theorem maskPages_exact_threeRows : ∃ mask,
    maskPages none [threeRows] (some (.new [[⟨1,0,0⟩],[⟨1,0,2⟩]])) = .ok [mask] ∧ mask.apply ["a","b","c"] = ["b"] := by
  obtain ⟨⟨maskOf,hm,hk⟩,-⟩ := @maskPages_exact none [[⟨1,0,2⟩],[⟨1,0,0⟩]] [[⟨1,0,0⟩],[⟨1,0,2⟩]] [threeRows]
    (by decide) (by decide) (by decide) (by decide) (by decide) (by unfold OneBucket; decide) fun _ => by
      unfold OneBucket; decide
  refine ⟨maskOf threeRows,hm,?_⟩
  rw [(hk threeRows (mem_singleton_self _)).2 ["a","b","c"] rfl]
  decide

end HetuCore.Hive
