import HetuCore.Foundation.Machine
import HetuCore.Grouping.KeyPage

/-! The works of `GroupBy.getGroupIds`: they put the rows of a page one after the other, stop when
capacity is refused and are resumed later. -/
namespace HetuCore.Grouping
open Foundation

/-- What a work uses of a group-by. An exception is given by its text. -/
structure GroupBy (S R : Type) where
  needMoreCapacity : S → Bool
  tryToIncreaseCapacity : S → Except String (Bool × S)
  putIfAbsent : S → R → Except String (Nat × S)

namespace GroupBy
variable {S R : Type} (groupBy : GroupBy S R)

/-- The ids of the rows that are put before more capacity is needed. -/
def putRows : List R → S → Except String (List Nat × S)
  | [], s => .ok ([],s)
  | row :: rows, s =>
    if groupBy.needMoreCapacity s then .ok ([],s)
    else do
      let (groupId,s) ← groupBy.putIfAbsent s row
      let (groupIds,s) ← putRows rows s
      pure (groupId :: groupIds,s)

/-- We can only proceed if there is capacity or it could be increased. -/
def ensureCapacity (s : S) : Except String (Bool × S) :=
  if groupBy.needMoreCapacity s then groupBy.tryToIncreaseCapacity s else .ok (true,s)

/-- `process` of a work over the rows; it has written the ids of `blockBuilder`, so that
`lastPosition` is their number. -/
def process (rows : List R) (blockBuilder : List Nat) (s : S) : Except String (Bool × List Nat × S) := do
  let (granted,s) ← groupBy.ensureCapacity s
  if granted then
    let (groupIds,s) ← groupBy.putRows (rows.drop blockBuilder.length) s
    let blockBuilder := blockBuilder ++ groupIds
    pure (blockBuilder.length == rows.length,blockBuilder,s)
  else pure (false,blockBuilder,s)

/-- `getGroupId`: the group-by asked through the ids that were found for the positions of a dictionary. -/
def lookBack {n : Nat} (row : Fin n → R) : GroupBy (S × (Nat → Option Nat)) (Fin n) where
  needMoreCapacity := fun s => groupBy.needMoreCapacity s.1
  tryToIncreaseCapacity := fun s => do
    let (granted,s') ← groupBy.tryToIncreaseCapacity s.1
    pure (granted,s',s.2)
  putIfAbsent := fun s positionInDictionary =>
    match s.2 positionInDictionary with
    | some groupId => .ok (groupId,s)
    | none => do
      let (groupId,s') ← groupBy.putIfAbsent s.1 (row positionInDictionary)
      pure (groupId,s',Function.update s.2 positionInDictionary (some groupId))

end GroupBy

/-- The ids that were found for the positions of a dictionary. -/
structure DictionaryLookBack (D : Type) where
  dictionary : D
  processed : Nat → Option Nat

structure MultiChannelGroupBy (S D : Type) where
  groupBy : S
  dictionaryLookBack : Option (DictionaryLookBack D)

/-- A work of `MultiChannelGroupBy` with the ids that it has written. -/
inductive Work {V D : Type} (dictionaries : D → List (Option V))
  | getNonDictionaryGroupIds (page : Page dictionaries) (blockBuilder : List Nat)
  | getDictionaryGroupIds (page : Page dictionaries) (dictionary : D)
      (ids : List (Fin (dictionaries dictionary).length)) (blockBuilder : List Nat)
  | getRunLengthEncodedGroupIds (page : Page dictionaries) (groupId : Option Nat)

section Works
variable {V D S : Type} [DecidableEq D] {dictionaries : D → List (Option V)} (processDictionary : Bool)
  (groupBy : GroupBy S (Key V))

/-- The look-back is kept for the same dictionary object only. -/
def updateDictionaryLookBack (dictionary : D) (state : MultiChannelGroupBy S D) : MultiChannelGroupBy S D :=
  match state.dictionaryLookBack with
  | none => { state with dictionaryLookBack := some ⟨dictionary,fun _ => none⟩ }
  | some lookBack =>
    if lookBack.dictionary = dictionary then state
    else { state with dictionaryLookBack := some ⟨dictionary,fun _ => none⟩ }

def getGroupIds (page : Page dictionaries) (state : MultiChannelGroupBy S D) : Work dictionaries × MultiChannelGroupBy S D :=
  if page.isRunLengthEncoded then (.getRunLengthEncodedGroupIds page none,state)
  else if page.canProcessDictionary processDictionary then
    match page.channels with
    | [.dictionary _ dictionary ids] =>
      (.getDictionaryGroupIds page dictionary ids [],updateDictionaryLookBack dictionary state)
    | _ => (.getNonDictionaryGroupIds page [],state)
  else (.getNonDictionaryGroupIds page [],state)

def Work.process (work : Work dictionaries) (state : MultiChannelGroupBy S D) :
    Except String (Bool × Work dictionaries × MultiChannelGroupBy S D) :=
  match work with
  | .getNonDictionaryGroupIds page blockBuilder =>
    if blockBuilder.length ≤ page.positionCount then do
      let (finished,blockBuilder,s) ← groupBy.process page.keys blockBuilder state.groupBy
      pure (finished,.getNonDictionaryGroupIds page blockBuilder,{ state with groupBy := s })
    else .error "position count out of bound"
  | .getDictionaryGroupIds page dictionary ids blockBuilder =>
    if blockBuilder.length < page.positionCount then
      match state.dictionaryLookBack with
      | none => .error "NullPointerException"
      | some lookBack => do
        let (finished,blockBuilder,s,processed) ← (groupBy.lookBack fun id => [(dictionaries dictionary).get id]).process
          ids blockBuilder (state.groupBy,lookBack.processed)
        pure (finished,.getDictionaryGroupIds page dictionary ids blockBuilder,⟨s,some { lookBack with processed := processed }⟩)
    else .error "position count out of bound"
  | .getRunLengthEncodedGroupIds page groupId =>
    if page.positionCount = 0 then .ok (true,.getRunLengthEncodedGroupIds page groupId,state)
    else do
      let (granted,s) ← groupBy.ensureCapacity state.groupBy
      if granted then
        -- only needs to process the first row since it is run-length encoded
        let (groupId,s) ← groupBy.putIfAbsent s (page.key 0)
        pure (true,.getRunLengthEncodedGroupIds page (some groupId),{ state with groupBy := s })
      else pure (false,.getRunLengthEncodedGroupIds page groupId,{ state with groupBy := s })

def Work.page : Work dictionaries → Page dictionaries
  | .getNonDictionaryGroupIds page _ => page
  | .getDictionaryGroupIds page _ _ _ => page
  | .getRunLengthEncodedGroupIds page _ => page

def Work.getResult : Work dictionaries → List Nat
  | .getNonDictionaryGroupIds _ blockBuilder => blockBuilder
  | .getDictionaryGroupIds _ _ _ blockBuilder => blockBuilder
  | .getRunLengthEncodedGroupIds page groupId =>
    match groupId with
    | none => []
    | some groupId => List.replicate page.positionCount groupId

/-- A group-by that is given pages one after the other: those that are to come, the work on the
current one and the ids of those that are finished. -/
structure Run (S : Type) (dictionaries : D → List (Option V)) where
  pages : List (Page dictionaries)
  work : Option (Work dictionaries)
  results : List (List Nat)
  state : MultiChannelGroupBy S D

/-- The next page is taken, or the work on the current page is started or resumed. -/
def Run.step (run : Run S dictionaries) : Except String (Run S dictionaries) :=
  match run.work with
  | none =>
    match run.pages with
    | [] => .ok run
    | page :: pages =>
      let (work,state) := getGroupIds processDictionary page run.state
      .ok { run with pages := pages, work := some work, state := state }
  | some work => do
    let (finished,work,state) ← work.process groupBy run.state
    if finished then pure { run with work := none, results := run.results ++ [work.getResult], state := state }
    else pure { run with work := some work, state := state }

def machine (init : S) (pages : List (Page dictionaries)) : Machine (Run S dictionaries) Unit where
  init := ⟨pages,none,[],⟨init,none⟩⟩
  step := fun run _ => run.step processDictionary groupBy

end Works

section BlockWorks
variable {V D S : Type} {dictionaries : D → List (Option V)} (groupBy : GroupBy S (Option V))

/-- A `BigintGroupBy` that is given blocks one after the other. It reads every block by position. -/
structure BlockRun (S : Type) (dictionaries : D → List (Option V)) where
  blocks : List (Block dictionaries)
  /-- The block of the current `GetGroupIdsWork`, with the ids that it has written. -/
  work : Option (Block dictionaries × List Nat)
  results : List (List Nat)
  state : S

def BlockRun.step (run : BlockRun S dictionaries) : Except String (BlockRun S dictionaries) :=
  match run.work with
  | none =>
    match run.blocks with
    | [] => .ok run
    | block :: blocks => .ok { run with blocks := blocks, work := some (block,[]) }
  | some (block,blockBuilder) =>
    if blockBuilder.length < block.toList.length then do
      let (finished,blockBuilder,s) ← groupBy.process block.toList blockBuilder run.state
      if finished then pure { run with work := none, results := run.results ++ [blockBuilder], state := s }
      else pure { run with work := some (block,blockBuilder), state := s }
    else .error "position count out of bound"

def blockMachine (init : S) (blocks : List (Block dictionaries)) : Machine (BlockRun S dictionaries) Unit where
  init := ⟨blocks,none,[],init⟩
  step := fun run _ => run.step groupBy

end BlockWorks
end HetuCore.Grouping
