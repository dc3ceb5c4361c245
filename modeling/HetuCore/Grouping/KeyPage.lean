namespace HetuCore.Grouping
open List

/-- The key of a row: the value of each grouping channel, `none` for NULL. -/
abbrev Key (V : Type) := List (Option V)

variable {V D : Type}

/-- A block of a channel. A dictionary is an object that blocks share: a block names it, and
`dictionaries` gives its values. -/
inductive Block (dictionaries : D → List (Option V))
  | plain (values : List (Option V))
  | dictionary (dictionarySourceId : Nat) (dictionary : D) (ids : List (Fin (dictionaries dictionary).length))
  | runLength (value : Option V) (positionCount : Nat)

namespace Block
variable {dictionaries : D → List (Option V)}

def toList : Block dictionaries → List (Option V)
  | plain values => values
  | dictionary _ _ ids => ids.map (dictionaries _).get
  | runLength value positionCount => replicate positionCount value

def isRunLength : Block dictionaries → Bool
  | runLength _ _ => true
  | _ => false

end Block

/-- The encoding of the channel with the precomputed hashes of the keys. -/
inductive HashBlock
  | plain
  | dictionary (dictionarySourceId : Nat)

/-- What a group-by reads of a page: the blocks of its channels, and its hash channel if it has
one. -/
structure Page (dictionaries : D → List (Option V)) where
  channels : List (Block dictionaries)
  positionCount : Nat
  aligned : ∀ block ∈ channels, block.toList.length = positionCount
  hashBlock : Option HashBlock

namespace Page
variable {dictionaries : D → List (Option V)} (page : Page dictionaries)

def key (position : Nat) : Key V := page.channels.map fun block => block.toList[position]?.join

def keys : List (Key V) := (range page.positionCount).map page.key

@[simp] theorem length_keys : page.keys.length = page.positionCount := by simp [keys]

def isRunLengthEncoded : Bool := page.channels.all Block.isRunLength

theorem keys_of_isRunLengthEncoded (h : page.isRunLengthEncoded) :
    page.keys = replicate page.positionCount (page.key 0) := by
  refine eq_replicate_iff.mpr ⟨page.length_keys,fun key hk => ?_⟩
  obtain ⟨position,hp,rfl⟩ := mem_map.mp hk
  rw [mem_range] at hp
  refine map_congr_left fun block hb => ?_
  have ha := page.aligned block hb
  cases block with
  | plain values => exact absurd (all_eq_true.mp h _ hb) Bool.false_ne_true
  | dictionary sourceId dictionary ids => exact absurd (all_eq_true.mp h _ hb) Bool.false_ne_true
  | runLength value count =>
    rw [Block.toList,length_replicate] at ha
    subst ha
    rw [Block.toList,getElem?_replicate_of_lt hp,getElem?_replicate_of_lt (Nat.zero_lt_of_lt hp)]

/-- The page can be processed by the ids of its dictionary. -/
def canProcessDictionary (processDictionary : Bool) : Bool :=
  processDictionary && match page.channels with
    | [.dictionary dictionarySourceId _ _] =>
      match page.hashBlock with
      | none => true
      | some .plain => false
      | some (.dictionary hashSourceId) => hashSourceId == dictionarySourceId
    | _ => false

theorem keys_of_dictionary {sourceId : Nat} {dictionary : D} {ids : List (Fin (dictionaries dictionary).length)}
    (h : page.channels = [.dictionary sourceId dictionary ids]) :
    page.keys = ids.map fun id => [(dictionaries dictionary).get id] := by
  have ha : ids.length = page.positionCount := by
    simpa [Block.toList] using page.aligned (.dictionary sourceId dictionary ids) (by rw [h]; exact mem_singleton_self _)
  refine ext_getElem? fun position => ?_
  rw [keys,getElem?_map,getElem?_map,← ha]
  by_cases hp : position < ids.length
  · simp [key,h,Block.toList,hp]
  · rw [getElem?_eq_none (Nat.le_of_not_lt hp),getElem?_eq_none (by simpa using hp)]
    rfl

end Page
end HetuCore.Grouping
