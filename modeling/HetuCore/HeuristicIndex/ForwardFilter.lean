import HetuCore.HeuristicIndex.ForwardIndexLaws
import HetuCore.HeuristicIndex.SplitSearchLaws

namespace HetuCore.HeuristicIndex
open HetuCore.Relation
variable {S : Signature}

namespace ForwardFilter

structure SplitRange where
  startIndex : Int
  endIndex : Int

section
variable {M : ObjectModel S} {c : M.Class}

/-- The indexes of one kind in the order of their starts. -/
def indexGroup (splitIndices : List (IndexMetadata M c)) (kind : IndexKind) : List (IndexMetadata M c) :=
  SplitSearch.insertAll IndexMetadata.splitStart (splitIndices.filter fun m => decide (m.index.getId = kind))

/-- The part of each group that the split needs. -/
def indicesOfCol (split : SplitRange) (splitIndices : List (IndexMetadata M c)) : List (IndexMetadata M c) :=
  [IndexKind.minMax,IndexKind.bloom].flatMap fun kind =>
    SplitSearch.subArray IndexMetadata.splitStart (indexGroup splitIndices kind) split.startIndex split.endIndex

end

section
variable (config : BloomConfig) {M : ObjectModel S} {columns : Columns S} (referencedColumns : List String)

variable (splitIndices : Indices M columns)

/-- A column without an index is skipped. -/
def allIndices (split : SplitRange) : Indices M columns :=
  fun name =>
    if name ∈ referencedColumns then
      match splitIndices name with
      | none => none
      | some [] => none
      | some indices => some (indicesOfCol split indices)
    else none

def keepsSplit (expression : RowExpression S .boolean) (split : SplitRange) : Except Failure Bool :=
  let indices := allIndices referencedColumns splitIndices split
  if referencedColumns.all fun name => (indices name).isNone then .ok true
  else HeuristicIndexFilter.matches config indices expression

end

abbrev TableRow (columns : Columns S) := (name : String) → Option (S.Value (columns name))

open Classical in
/-- The row as expressions see it: a variable of another type than its column has no value. -/
noncomputable def TableRow.toRow {columns : Columns S} (row : TableRow columns) : Row S :=
  fun t name => if h : columns name = t then h ▸ row name else none

/-- A stripe of a file: where it starts and ends, and its rows. -/
structure DataStripe (columns : Columns S) where
  start : Int
  stop : Int
  nonempty : start < stop
  rows : List (TableRow columns)

/-- The stripes of a file do not overlap. -/
structure DataFile (columns : Columns S) where
  stripes : List (DataStripe columns)
  disjoint : stripes.Pairwise fun a b => a.stop ≤ b.start

variable {columns : Columns S}

/-- Stripes of a file that start at the same place are one stripe; of two others, the first ends before the
second starts. -/
theorem DataFile.stripe_cases (file : DataFile columns) {a b : DataStripe columns} (ha : a ∈ file.stripes)
    (hb : b ∈ file.stripes) : a = b ∨ a.stop ≤ b.start ∨ b.stop ≤ a.start := by
  have : Std.Symm fun a b : DataStripe columns => a = b ∨ a.stop ≤ b.start ∨ b.stop ≤ a.start := ⟨fun _ _ h => by tauto⟩
  exact List.Pairwise.forall_of_forall (R := fun a b : DataStripe columns => a = b ∨ a.stop ≤ b.start ∨ b.stop ≤ a.start)
    (fun _ _ => .inl rfl) (file.disjoint.imp fun h => .inr (.inl h)) ha hb

variable (stripe : DataStripe columns)

/-- The stripe and the split have a byte in common. -/
def DataStripe.Overlaps (split : SplitRange) : Prop :=
  max stripe.start split.startIndex < min stripe.stop split.endIndex

/-- The objects of a column, in the order of the rows. -/
def DataStripe.values (M : ObjectModel S) (name : String) : List (Option (M.Object (M.classOf (columns name)))) :=
  stripe.rows.map fun row => (row name).map (M.actual (columns name))

def DataStripe.keys (M : ObjectModel S) (name : String) : List (M.Object (M.classOf (columns name))) :=
  (stripe.values M name).filterMap id

structure StripeIndex {columns : Columns S} (file : DataFile columns) where
  kind : IndexKind
  stripe : DataStripe columns
  ofFile : stripe ∈ file.stripes

/-- The index is built from exactly the values of the column. -/
def StripeIndex.metadata (config : BloomConfig) (M : ObjectModel S) {columns : Columns S} {file : DataFile columns}
    (name : String) (entry : StripeIndex file) : IndexMetadata M (M.classOf (columns name)) :=
  ⟨entry.stripe.start,ForwardIndex.build config entry.kind (entry.stripe.values M name)⟩

/-- A split with its file, and for each column the list of indexes that is found for it, if any: it covers
the stripes of the file, in any order. -/
structure IndexedSplit (columns : Columns S) where
  range : SplitRange
  file : DataFile columns
  listed : String → Option (List (StripeIndex file))
  covers : ∀ name entries, listed name = some entries → entries ≠ [] →
    ∀ stripe ∈ file.stripes, ∃ entry ∈ entries, entry.stripe = stripe

variable (config : BloomConfig) (M : ObjectModel S) {columns : Columns S}

/-- The indexes that the cache finds. -/
def IndexedSplit.splitIndices (split : IndexedSplit columns) : Indices M columns :=
  fun name => (split.listed name).map (List.map (StripeIndex.metadata config M name))

def filterUsingForwardIndex (expression : RowExpression S .boolean) (referencedColumns : List String) :
    List (IndexedSplit columns) → Except Failure (List (IndexedSplit columns))
  | [] => .ok []
  | split :: inputSplits => do
    let kept ← keepsSplit config referencedColumns (split.splitIndices config M) expression split.range
    let filtered ← filterUsingForwardIndex expression referencedColumns inputSplits
    pure (if kept then split :: filtered else filtered)

end ForwardFilter
end HetuCore.HeuristicIndex
