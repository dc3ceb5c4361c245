import HetuCore.DynamicFiltering.PartitionFilter
import HetuCore.Foundation.Machine

namespace HetuCore.DynamicFiltering
open Foundation

namespace RowFilter
variable {T Cell Other : Type} [DecidableEq T] [DecidableEq Other]

/-- The values of a column; only some classes of blocks look into a Bloom filter. -/
structure Block (n : Nat) (Cell : Type) where
  cell : Fin n → Cell
  testsBloom : Bool

/-- `getPositions` gives a dictionary block. -/
def Block.getPositions {n : Nat} (block : Block n Cell) (positions : List (Fin n)) : Block positions.length Cell :=
  ⟨fun i => block.cell (positions.get i),false⟩

structure Page (Cell : Type) where
  positionCount : Nat
  blocks : List (Block positionCount Cell)

def Page.getPositions (page : Page Cell) (positions : List (Fin page.positionCount)) : Page Cell :=
  ⟨positions.length,page.blocks.map fun block => block.getPositions positions⟩

def Page.columns (page : Page Cell) : List (List Cell) := page.blocks.map fun block => List.ofFn block.cell

/-- Where a column comes from: from a block of the page of the delegate, or from a fixed value. -/
inductive ColumnSource (Cell : Type)
  | block (index : Nat)
  | prefilled (cell : Cell)

def ColumnSource.index? : ColumnSource Cell → Option Nat
  | .block index => some index
  | .prefilled _ => none

structure ColumnMapping (T Cell : Type) where
  hiveColumnHandle : HiveColumnHandle T
  source : ColumnSource Cell

/-- A page of the delegate has a block for each column that is not prefilled, in the order of the columns. -/
structure DataPage (columnMappings : List (ColumnMapping T Cell)) extends Page Cell where
  channels : columnMappings.filterMap (fun mapping => mapping.source.index?) = List.range blocks.length

/-- What a Bloom filter is asked for when it is asked for a value; objects of other classes cannot be cast. -/
def bloomEntry : Option (NativeValue Other) → Option BloomEntry
  | none => some .null
  | some (.long value) => some (.long value)
  | some (.slice bytes) => some (.bytes bytes)
  | some (.string text) => some (.bytes text.toUTF8.toList)
  | some (.other _) => none

/-- How a type reads a cell, and what a block takes a cell for when it looks into a Bloom filter. -/
structure CellModel (T Cell Other : Type) where
  readNativeValue : T → Cell → Except Thrown (Option (NativeValue Other))
  entry : Cell → BloomEntry
  entry_eq : ∀ type cell value, readNativeValue type cell = .ok value → ∀ asked ∈ bloomEntry value, entry cell = asked

section
variable {columnMappings : List (ColumnMapping T Cell)} (page : DataPage columnMappings)

def DataPage.channelCount : Nat := page.blocks.length

omit [DecidableEq T] in
theorem DataPage.channelCount_le : page.channelCount ≤ columnMappings.length := by
  have hl := congrArg List.length page.channels
  rw [List.length_range] at hl
  exact hl.symm.trans_le (List.length_filterMap_le _ _)

variable (channel : Fin page.channelCount)

/-- `columnMappings.get(channel)`. -/
def DataPage.mapping : ColumnMapping T Cell :=
  columnMappings.get (channel.castLE page.channelCount_le)

def DataPage.block : Block page.positionCount Cell := page.blocks.get channel

variable (H : BloomHash) (M : CellModel T Cell Other) (rowFilteringThreshold : Int)

/-- The channels that a map is looked up for, each with its column. -/
def eligibleColumns (dynamicFilter : FilterMap (HiveColumnHandle T) Other) :
    List (Fin page.channelCount × HiveColumnHandle T) :=
  (List.finRange page.channelCount).filterMap fun channel =>
    let columnHandle := (page.mapping channel).hiveColumnHandle
    match dynamicFilter.lookup columnHandle with
    | some filter =>
      if !columnHandle.isPartitionKey && decide (filter.getSize H ≤ rowFilteringThreshold) then some (channel,columnHandle)
      else none
    | none => none

variable (dynamicFilters : List (FilterMap (HiveColumnHandle T) Other))

def getEligibleColumnsForRowFiltering : List (List (Fin page.channelCount × HiveColumnHandle T)) :=
  let eligibleColumnsList := dynamicFilters.map (eligibleColumns page H rowFilteringThreshold)
  if eligibleColumnsList.any fun eligibleColumns => !eligibleColumns.isEmpty then eligibleColumnsList else []

/-- `filterResult[i] && …` for every row, with the filter of one column. -/
def filterColumn {n : Nat} (type : T) (block : Block n Cell) (dynamicFilter : DynamicFilter Other) (filterResult : Fin n → Bool) :
    Except Thrown (Fin n → Bool) :=
  match dynamicFilter with
  | .bloom _ bloomFilter _ _ =>
    .ok fun i => filterResult i && (!block.testsBloom || H.test bloomFilter (M.entry (block.cell i)))
  | dynamicFilter => forEach fun i =>
    if filterResult i then do
      dynamicFilter.contains H (← M.readNativeValue type (block.cell i))
    else pure false

def filterColumns (dynamicFilter : FilterMap (HiveColumnHandle T) Other) (filterResult : Fin page.positionCount → Bool) :
    List (Fin page.channelCount × HiveColumnHandle T) → Except Thrown (Fin page.positionCount → Bool)
  | [] => .ok filterResult
  | (columnIndex,columnHandle) :: columns =>
    match dynamicFilter.lookup columnHandle with
    | none => .error (.other "NullPointerException")
    | some filter => do
      let type := (page.mapping columnIndex).hiveColumnHandle.type
      let filterResult ← filterColumn H M type (page.block columnIndex) filter filterResult
      filterColumns dynamicFilter filterResult columns

/-- The rows of the maps before and those of this one, once for each of its columns. -/
def union (result filterResult : Fin page.positionCount → Bool)
    (columns : List (Fin page.channelCount × HiveColumnHandle T)) : Fin page.positionCount → Bool :=
  columns.foldl (fun result _ => fun i => result i || filterResult i) result

def filterMaps (result : Fin page.positionCount → Bool) :
    List (FilterMap (HiveColumnHandle T) Other × List (Fin page.channelCount × HiveColumnHandle T)) →
      Except Thrown (Fin page.positionCount → Bool)
  | [] => .ok result
  | (dynamicFilter,columns) :: rest => do
    let filterResult ← filterColumns page H M dynamicFilter (fun _ => true) columns
    filterMaps (union page result filterResult columns) rest

variable (eligibleColumns : List (List (Fin page.channelCount × HiveColumnHandle T)))

def filterRows : Except Thrown (Fin page.positionCount → Bool) :=
  filterMaps page H M (fun _ => false) (dynamicFilters.zip eligibleColumns)

def toPositions {n : Nat} (keep : Fin n → Bool) : List (Fin n) := (List.finRange n).filter keep

def filter : Except Thrown (Page Cell) := do
  let result ← filterRows page H M dynamicFilters eligibleColumns
  let rowsToKeep := toPositions result
  pure (if rowsToKeep.length = page.positionCount then page.toPage else page.getPositions rowsToKeep)

/-- The row filtering of `getNextPage`. -/
def filterPage : Except Thrown (Page Cell) :=
  let eligibleColumns := getEligibleColumnsForRowFiltering page H rowFilteringThreshold dynamicFilters
  if dynamicFilters.isEmpty || eligibleColumns.isEmpty then .ok page.toPage
  else filter page H M dynamicFilters eligibleColumns

end
end RowFilter
end HetuCore.DynamicFiltering
