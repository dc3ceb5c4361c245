import HetuCore.Foundation.Machine

/-! `OrcDeletedRows`: the rows of a source page that no delete delta names, found with one cursor over
the merged delete rows. -/
namespace HetuCore.Hive

@[ext] structure OrcAcidRowId where
  originalTransaction : Int64
  bucket : Int32
  rowId : Int64
deriving DecidableEq, Repr

/-- The bucket is ignored between rows of original files. -/
def OrcAcidRowId.compareTo (row other : OrcAcidRowId) : Ordering :=
  if row = other then .eq
  else if row.originalTransaction = other.originalTransaction ∧ row.originalTransaction = 0 then
    compare row.rowId other.rowId
  else if row.originalTransaction ≠ other.originalTransaction then
    compare row.originalTransaction other.originalTransaction
  else if row.bucket ≠ other.bucket then compare row.bucket other.bucket
  else compare row.rowId other.rowId

/-- The cursor over the pages of the merged delete rows: those that the iterator still has, and the
current one. -/
structure DeleteCursor where
  sortedRows : List (List OrcAcidRowId)
  currentPage : Option (List OrcAcidRowId)
  currentPageOffset : Nat

namespace DeleteCursor

def new (sortedRows : List (List OrcAcidRowId)) : DeleteCursor := ⟨sortedRows,none,0⟩

/-- The inner loop of `isDeleted`: the offset it stops at, and the answer unless the page is used up. -/
def scan (source : OrcAcidRowId) (page : List OrcAcidRowId) (offset : Nat) : Except String (Option Bool × Nat) :=
  match page[offset]? with
  | none => .error "IndexOutOfBoundsException"
  | some deletedRowId =>
    match deletedRowId.compareTo source with
    | .eq => .ok (some true,offset)
    | .gt => .ok (some false,offset)
    | .lt => if offset + 1 < page.length then scan source page (offset + 1) else .ok (none,offset + 1)
termination_by page.length - offset

/-- The outer loop from a row of the current page on. -/
def scanPages (source : OrcAcidRowId) (page : List OrcAcidRowId) (offset : Nat) :
    List (List OrcAcidRowId) → Except String (Bool × DeleteCursor)
  | [] => do
    let (result,offset) ← scan source page offset
    pure (result.getD false,⟨[],some page,offset⟩)
  | next :: sortedRows => do
    match ← scan source page offset with
    | (some deleted,offset) => pure (deleted,⟨next :: sortedRows,some page,offset⟩)
    | (none,_) => scanPages source next 0 sortedRows

def isDeleted (source : OrcAcidRowId) (c : DeleteCursor) : Except String (Bool × DeleteCursor) :=
  match c.currentPage.filter fun page => c.currentPageOffset < page.length with
  | some page => scanPages source page c.currentPageOffset c.sortedRows
  | none =>
    match c.sortedRows with
    | [] => pure (false,⟨[],none,0⟩)
    | next :: sortedRows => scanPages source next 0 sortedRows

end DeleteCursor

/-- A source page: its row id columns, and its offset in an original file. -/
structure SourcePage where
  positionCount : Nat
  rowId : Nat → OrcAcidRowId
  pageRowOffset : Option Int64

def SourcePage.sourceRowId (page : SourcePage) (startRowOffsetOfFile : Option Int64) (position : Nat) : OrcAcidRowId :=
  match startRowOffsetOfFile, page.pageRowOffset with
  | some start, some offset => ⟨0,0,start + offset + Int64.ofNat position⟩
  | _, _ => page.rowId position

/-- What `loadValidPositions` sets. -/
structure MaskDeletedRows where
  positionCount : Nat
  validPositions : Option (List Nat)

/-- The positions that are not deleted, and the cursor after them. -/
def validPositions (rowId : Nat → OrcAcidRowId) : List Nat → DeleteCursor → Except String (List Nat × DeleteCursor)
  | [], c => pure ([],c)
  | position :: positions, c => do
    let (deleted,c) ← c.isDeleted (rowId position)
    let (valid,c) ← validPositions rowId positions c
    pure (if deleted then valid else position :: valid,c)

/-- There is no cursor if there is no delete delta. -/
def loadValidPositions (startRowOffsetOfFile : Option Int64) (page : SourcePage) :
    Option DeleteCursor → Except String (MaskDeletedRows × Option DeleteCursor)
  | none => pure (⟨page.positionCount,none⟩,none)
  | some c => do
    let (valid,c) ← validPositions (page.sourceRowId startRowOffsetOfFile) (List.range page.positionCount) c
    pure (⟨valid.length,some valid⟩,some c)

def MaskDeletedRows.apply {β : Type} (mask : MaskDeletedRows) (block : List β) : List β :=
  if mask.positionCount = block.length ∨ block.length = 0 then block
  else
    match mask.validPositions with
    | none => block
    | some valid => valid.filterMap (block[·]?)

def maskPages (startRowOffsetOfFile : Option Int64) :
    List SourcePage → Option DeleteCursor → Except String (List MaskDeletedRows)
  | [], _ => pure []
  | page :: pages, c => do
    let (mask,c) ← loadValidPositions startRowOffsetOfFile page c
    let masks ← maskPages startRowOffsetOfFile pages c
    pure (mask :: masks)

end HetuCore.Hive
