import HetuCore.HeuristicIndex.InvertedFilter
import HetuCore.HeuristicIndex.BTreeIndexLaws
import HetuCore.HeuristicIndex.ForwardFilter

namespace HetuCore.HeuristicIndex.InvertedFilter
open HetuCore.Relation Foundation BTreeIndex SequenceUtils List
open ForwardFilter (TableRow DataStripe DataFile)
variable {S : Signature} {columns : Columns S} {Path Partition : Type}

structure TableFile (columns : Columns S) (Path Partition : Type) extends DataFile columns where
  path : Path
  partitionKey : Option Partition
  lastModifiedTime : Int

structure Table (columns : Columns S) (Path Partition : Type) where
  files : List (TableFile columns Path Partition)
  paths : files.Pairwise fun a b => a.path ≠ b.path

def TableFile.symbol (file : TableFile columns Path Partition) (stripe : DataStripe columns) : LookUpResult Path :=
  ⟨file.path,stripe.start,stripe.stop⟩

/-- An index of the partition or of the table has seen the file if it is not newer than the index. -/
def IndexMetadata.HasSeen {M : ObjectModel S} {c : M.Class} (metadata : IndexMetadata M c Path Partition)
    (file : TableFile columns Path Partition) : Prop :=
  (metadata.partitionKey = none ∨ metadata.partitionKey = file.partitionKey) ∧
    file.lastModifiedTime ≤ metadata.maxModifiedTime

variable (M : ObjectModel S)

/-- An index that lists for every key exactly the stripes with the key of the files it has seen. -/
structure TableIndex (table : Table columns Path Partition) (name : String) extends
    IndexMetadata M (M.classOf (columns name)) Path Partition where
  exact : ∀ (key : M.Object (M.classOf (columns name))) (s : LookUpResult Path),
    (∃ entry ∈ index.dataMap, s ∈ entry.2 ∧ M.rank entry.1 = M.rank key) ↔
      ∃ file ∈ table.files, toIndexMetadata.HasSeen file ∧ ∃ stripe ∈ file.stripes, s = file.symbol stripe ∧
        ∃ k ∈ stripe.keys M name, M.rank k = M.rank key

abbrev TableIndices (table : Table columns Path Partition) := (name : String) → List (TableIndex M table name)

variable {M} [LinearOrder (LookUpResult Path)] {table : Table columns Path Partition}

/-- Some index of the column has seen the file, and the stripe has a key that is asked for; or the column
does not restrict the look-up. -/
def ListedFor (indices : TableIndices M table) {t : SqlType S.Base} (varRef : RowExpression S t) (query : Query S)
    (file : TableFile columns Path Partition) (stripe : DataStripe columns) : Prop :=
  match varRef with
  | .variable _ name =>
    (indices name = [] ∨ ∃ ix ∈ indices name, ∃ failure, ix.index.lookUp query = .error failure) ∨
      ∃ ix ∈ indices name, ix.HasSeen file ∧ ∃ k ∈ stripe.keys M name, query.Selects M k
  | _ => True

/-- The look-up lists the stripe, unless it gives up. -/
def Listed (indices : TableIndices M table) (file : TableFile columns Path Partition) (stripe : DataStripe columns) :
    {t : SqlType S.Base} → RowExpression S t → Prop
  | _, .comparison operator _ _ left right => ListedFor indices left (.call (.comparison operator) right) file stripe
  | _, .not argument => ListedFor indices argument .incomplete file stripe
  | _, .cast _ _ argument => ListedFor indices argument .incomplete file stripe
  | _, .betweenCall _ _ value low _ => ListedFor indices value (.call (.other .operator) low) file stripe
  | _, @RowExpression.call _ n _ _ function arguments =>
    if h₀ : n = 0 then True
    else if h₁ : n = 1 then ListedFor indices (arguments ⟨0,Nat.pos_of_ne_zero h₀⟩) .incomplete file stripe
    else ListedFor indices (arguments ⟨0,Nat.pos_of_ne_zero h₀⟩)
      (.call (.other (M.handle function)) (arguments ⟨1,one_lt_of_ne h₀ h₁⟩)) file stripe
  | _, .isIn _ _ target values => ListedFor indices target (.isIn (ofFn values)) file stripe
  | _, .between _ _ value low high => ListedFor indices value (.between low high) file stripe
  | _, .logical .and left right => Listed indices file stripe left ∧ Listed indices file stripe right
  | _, .logical .or left right => Listed indices file stripe left ∨ Listed indices file stripe right
  | _, _ => True

/-- A result that is increasing and holds the symbols of the stripes with a property; the universe holds
all of them. -/
def Lists (table : Table columns Path Partition) (listed : TableFile columns Path Partition → DataStripe columns → Prop) :
    Option (List (LookUpResult Path)) → Prop
  | none => ∀ file stripe, listed file stripe
  | some results => results.Pairwise (· < ·) ∧
      ∀ s, s ∈ results ↔ ∃ file ∈ table.files, ∃ stripe ∈ file.stripes, s = file.symbol stripe ∧ listed file stripe

omit [LinearOrder (LookUpResult Path)] in
theorem Table.eq_of_path (table : Table columns Path Partition) {a b : TableFile columns Path Partition} (ha : a ∈ table.files)
    (hb : b ∈ table.files) (h : a.path = b.path) : a = b := by
  have : Std.Symm fun a b : TableFile columns Path Partition => a.path = b.path → a = b := ⟨fun _ _ h hp => (h hp.symm).symm⟩
  exact List.Pairwise.forall_of_forall (R := fun a b : TableFile columns Path Partition => a.path = b.path → a = b)
    (fun _ _ _ => rfl) (table.paths.imp fun hne hpt => absurd hpt hne) ha hb h

omit [LinearOrder (LookUpResult Path)] in
theorem symbol_injective {a b : TableFile columns Path Partition} (ha : a ∈ table.files) (hb : b ∈ table.files)
    {s t : DataStripe columns} (hs : s ∈ a.stripes) (ht : t ∈ b.stripes) (h : a.symbol s = b.symbol t) : a = b ∧ s = t := by
  obtain ⟨hp,hst,-⟩ : a.path = b.path ∧ s.start = t.start ∧ s.stop = t.stop := by
    simpa [TableFile.symbol] using h
  obtain rfl := table.eq_of_path ha hb hp
  refine ⟨rfl,(a.toDataFile.stripe_cases hs ht).resolve_right ?_⟩
  have := s.nonempty
  have := t.nonempty
  omega

variable {query : Query S} {indices : TableIndices M table} {t : SqlType S.Base} {referencedColumns : List String}
  {result : Option (List (LookUpResult Path))} {p q : TableFile columns Path Partition → DataStripe columns → Prop}

theorem Selects.congr {c : M.Class} {k k' : M.Object c} (hr : M.rank k = M.rank k') :
    query.Selects M k ↔ query.Selects M k' := by
  cases query with
  | call callee right => cases callee <;> simp only [Query.Selects,hr]
  | between low high | isIn values => simp only [Query.Selects,hr]
  | incomplete => exact .rfl

theorem mem_lookUp_iff {name : String} (ix : TableIndex M table name) {symbols : List (LookUpResult Path)}
    (h : ix.index.lookUp query = .ok symbols) (s : LookUpResult Path) :
    s ∈ symbols ↔ ∃ file ∈ table.files, ∃ stripe ∈ file.stripes, s = file.symbol stripe ∧
      ix.HasSeen file ∧ ∃ k ∈ stripe.keys M name, query.Selects M k := by
  rw [(lookUp_spec h).2 s]
  constructor
  · rintro ⟨entry,he,hs,hsl⟩
    obtain ⟨file,hf,hsn,stripe,hst,hsy,k,hk,hr⟩ := (ix.exact entry.1 s).mp ⟨entry,he,hs,rfl⟩
    exact ⟨file,hf,stripe,hst,hsy,hsn,k,hk,(Selects.congr hr).mpr hsl⟩
  · rintro ⟨file,hf,stripe,hst,hsy,hsn,k,hk,hsl⟩
    obtain ⟨entry,he,hs,hr⟩ := (ix.exact k s).mpr ⟨file,hf,hsn,stripe,hst,hsy,k,hk,rfl⟩
    exact ⟨entry,he,hs,(Selects.congr hr).mpr hsl⟩

/-- The B-trees that the filter knows for the referenced columns. -/
def btrees (referencedColumns : List String) (indices : TableIndices M table) : BTrees M columns (LookUpResult Path) :=
  fun name => if name ∈ referencedColumns then
    some (((indices name).map TableIndex.toIndexMetadata).map IndexMetadata.index) else none

theorem lists_union {name : String} {iterators : List (List (LookUpResult Path))} (hne : indices name ≠ [])
    (hok : ∀ ix ∈ indices name, ∃ symbols ∈ iterators, ix.index.lookUp query = .ok symbols)
    (ha : ∀ symbols ∈ iterators, ∃ ix ∈ indices name, ix.index.lookUp query = .ok symbols) :
    Lists table (ListedFor indices (.variable t name) query) (some (union iterators)) := by
  have hsr : ∀ symbols ∈ iterators, symbols.Pairwise (· < ·) := fun symbols hsy => by
    obtain ⟨ix,-,hl⟩ := ha symbols hsy
    exact (lookUp_spec hl).1
  obtain ⟨hi,hm⟩ := union_spec iterators hsr
  refine ⟨hi,fun s => (hm s).trans ⟨?_,?_⟩⟩
  · rintro ⟨symbols,hsy,hs⟩
    obtain ⟨ix,hix,hl⟩ := ha symbols hsy
    obtain ⟨file,hfl,stripe,hst,hsm,hf⟩ := (mem_lookUp_iff ix hl s).mp hs
    exact ⟨file,hfl,stripe,hst,hsm,.inr ⟨ix,hix,hf⟩⟩
  · rintro ⟨file,hfl,stripe,hst,hsm,(hn | ⟨ix,hix,failure,hfs⟩) | ⟨ix,hix,hf⟩⟩
    · exact absurd hn hne
    · obtain ⟨symbols,-,hl⟩ := hok ix hix
      rw [hl] at hfs
      cases hfs
    · obtain ⟨symbols,hsy,hl⟩ := hok ix hix
      exact ⟨symbols,hsy,(mem_lookUp_iff ix hl s).mpr ⟨file,hfl,stripe,hst,hsm,hf⟩⟩

theorem lookUpAll_lists {varRef : RowExpression S t}
    (h : lookUpAll (btrees referencedColumns indices) varRef query = .ok result) :
    Lists table (ListedFor indices varRef query) result := by
  cases varRef with
  | «variable» t name =>
    rw [lookUpAll,btrees] at h
    by_cases hr : name ∈ referencedColumns
    · rw [if_pos hr] at h
      split at h
      · cases h
      · rename_i hn
        cases h
        exact fun _ _ => .inl (.inl (by simpa using hn))
      · rename_i selected hne hs
        cases hs
        split at h
        · rename_i iterators hm
          cases h
          obtain ⟨hok,ha⟩ := mapM_ok hm
          rw [map_map] at hok ha
          refine lists_union (fun hn => hne (by rw [hn]; rfl)) (fun ix hix => hok _ (mem_map_of_mem hix)) ?_
          intro symbols hsy
          obtain ⟨_,hi,hl⟩ := ha symbols hsy
          obtain ⟨ix,hix,rfl⟩ := mem_map.mp hi
          exact ⟨ix,hix,hl⟩
        · rename_i failure hm
          cases h
          obtain ⟨index,hi,hf⟩ := mapM_error hm
          rw [map_map] at hi
          obtain ⟨ix,hix,rfl⟩ := mem_map.mp hi
          exact fun _ _ => .inl (.inr ⟨ix,hix,failure,hf⟩)
    · rw [if_neg hr] at h
      cases h
  | _ =>
    cases h
    exact fun _ _ => trivial

theorem Lists.and {a b : Option (List (LookUpResult Path))} (ha : Lists table p a) (hb : Lists table q b) :
    Lists table (fun file stripe => p file stripe ∧ q file stripe) (intersectUniverse a b) := by
  cases a with
  | none =>
    cases b with
    | none => exact fun file stripe => ⟨ha file stripe,hb file stripe⟩
    | some b =>
      refine ⟨hb.1,fun s => (hb.2 s).trans ?_⟩
      simp only [show ∀ file stripe, p file stripe from ha,true_and]
  | some a =>
    cases b with
    | none =>
      refine ⟨ha.1,fun s => (ha.2 s).trans ?_⟩
      simp only [show ∀ file stripe, q file stripe from hb,and_true]
    | some b =>
      obtain ⟨hi,hm⟩ := intersect_spec [a,b] (by simp) (by simpa using ⟨ha.1,hb.1⟩)
      refine ⟨hi,fun s => (hm s).trans ?_⟩
      rw [forall_mem_cons,forall_mem_singleton,ha.2,hb.2]
      constructor
      · rintro ⟨⟨file,hf,stripe,hst,hs,hp⟩,file',hf',stripe',hst',hs',hq⟩
        obtain ⟨rfl,rfl⟩ := symbol_injective hf hf' hst hst' (hs.symm.trans hs')
        exact ⟨file,hf,stripe,hst,hs,hp,hq⟩
      · rintro ⟨file,hf,stripe,hst,hs,hp,hq⟩
        exact ⟨⟨file,hf,stripe,hst,hs,hp⟩,file,hf,stripe,hst,hs,hq⟩

theorem Lists.or {a b : List (LookUpResult Path)} (ha : Lists table p (some a)) (hb : Lists table q (some b)) :
    Lists table (fun file stripe => p file stripe ∨ q file stripe) (some (union [a,b])) := by
  obtain ⟨hi,hm⟩ := union_spec [a,b] (by simpa using ⟨ha.1,hb.1⟩)
  refine ⟨hi,fun s => (hm s).trans ?_⟩
  rw [exists_mem_cons_iff]
  simp only [mem_singleton,exists_eq_left,ha.2,hb.2]
  constructor
  · rintro (⟨file,hf,stripe,hst,hs,hp⟩ | ⟨file,hf,stripe,hst,hs,hq⟩)
    · exact ⟨file,hf,stripe,hst,hs,.inl hp⟩
    · exact ⟨file,hf,stripe,hst,hs,.inr hq⟩
  · rintro ⟨file,hf,stripe,hst,hs,hp | hq⟩
    · exact .inl ⟨file,hf,stripe,hst,hs,hp⟩
    · exact .inr ⟨file,hf,stripe,hst,hs,hq⟩

theorem lookUp_lists {expression : RowExpression S t}
    (h : lookUp (btrees referencedColumns indices) expression = .ok result) :
    Lists table (fun file stripe => Listed indices file stripe expression) result := by
  induction expression generalizing result with
  | logical form left right ihl ihr =>
    cases form with
    | and =>
      obtain ⟨a,ha,h⟩ := bind_ok h
      obtain ⟨b,hb,h⟩ := bind_ok h
      cases h
      exact (ihl ha).and (ihr hb)
    | or =>
      obtain ⟨a,ha,h⟩ := bind_ok h
      obtain ⟨b,hb,h⟩ := bind_ok h
      cases a with
      | none => cases h
      | some a =>
        cases b with
        | none => cases h
        | some b =>
          cases h
          exact (ihl ha).or (ihr hb)
  | @call n ts t function arguments =>
    rw [lookUp] at h
    simp only [Listed]
    split at h
    · cases h
    · rename_i h₀
      simp only [dif_neg h₀]
      split at h
      · rename_i h₁
        simp only [dif_pos h₁]
        exact lookUpAll_lists h
      · rename_i h₁
        simp only [dif_neg h₁]
        exact lookUpAll_lists h
  | comparison operator t supported left right | not argument | cast s t argument => exact lookUpAll_lists h
  | betweenCall t supported value low high | isIn t supported target values => exact lookUpAll_lists h
  | between t supported value low high => exact lookUpAll_lists h
  | _ => cases h

end HetuCore.HeuristicIndex.InvertedFilter
