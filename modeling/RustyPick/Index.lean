import RustyPick.Record
import RustyPick.Layout

/-!
# RustyPick.Index

One secondary index, as it is held in memory beside the records it describes (`db/index.rs`).

An index maps each value of a dictionary field to the keys of the records that carry it. Lookups
only narrow: a query evaluates every candidate again, so what an index owes its file is `Covers`,
that no record is missing from the posting list of a value it carries.

* `covers_rebuild`: a rebuild establishes it, whatever the postings were.
* `covers_apply`: a maintained write or delete keeps it.
-/

namespace RustyPick

open Lib

/-- Longest an index key may be, in bytes. -/
def MAX_INDEX_KEY : Nat := 512

/-- Marks a key that stands for values too long to index whole. -/
def TRUNCATION_MARK : String := "\u2026"

def isNameChar (c : Char) : Bool :=
  c.isAlphanum ∨ c = '.' ∨ c = '_' ∨ c = '-' ∨ c = '$' ∨ c = '#' ∨ c = '%'

/-- Whether `field` can name an index section. -/
def isValidFieldName (field : String) : Bool :=
  field ≠ "" ∧ (utf8 field).length ≤ 128 ∧ field.toList.all isNameChar ∧ field ≠ "." ∧ field ≠ ".."

/-- The characters that fit whole into the first `limit` bytes. -/
def takeBytes : Nat → List Char → List Char
  | _, [] => []
  | limit, c :: cs => if c.utf8Size ≤ limit then c :: takeBytes (limit - c.utf8Size) cs else []

/-- The key an indexed value is stored under: trimmed, and truncated past `MAX_INDEX_KEY`. -/
def indexKey (value : String) : String :=
  let trimmed := trim value
  if (utf8 trimmed).length ≤ MAX_INDEX_KEY then trimmed
  else String.ofList (takeBytes MAX_INDEX_KEY trimmed.toList) ++ TRUNCATION_MARK

/-- Adds the key of one text, once. -/
def pushKey (out : List String) (text : String) : List String :=
  let key := indexKey text
  if key ∈ out then out else out ++ [key]

/-- The keys of one value: each sub-value's, or the empty text's when it has none. -/
def pushValue (out : List String) (value : Value) : List String :=
  let out := if value.subValues = [] then pushKey out "" else out
  value.subValues.foldl (fun out sub => pushKey out (textOf sub)) out

/-- Every key one record contributes to an index on attribute `attr`. -/
def keysOf (record : Option Record) (attr : Nat) : List String :=
  match record.bind fun record => record.fields[attr]? with
  | none => [""]
  | some field => if field.values = [] then [""] else field.values.foldl pushValue []

/-- The record an index entry is stored as. -/
def postingRecord (keys : Finset String) : Record :=
  { fields := [{ values := (ascending keys).map Value.text }] }

/-- The keys held by a stored index entry. -/
def postingKeys (record : Record) : Finset String :=
  match record.fields.head? with
  | some field => (field.values.filterMap Value.firstText).toFinset
  | none => ∅

/-- What an index section's `state` file says about itself. -/
structure IndexState where
  field : String
  /-- The attribute number, counted from one. -/
  attributeNo : Nat
  /-- `meta.version` of the data section this index was last written against. -/
  dataVersion : Nat
  excluded : Finset String
  deriving DecidableEq

structure FileIndex where
  field : String
  /-- The position in a record's attributes the field resolves to, counted from zero. -/
  attr : Nat
  postings : Map String (Finset String)
  /-- Values this index does not hold, already through `indexKey`. -/
  excluded : Finset String
  dirtyValues : Finset String
  dirtyAll : Bool
  sectionMeta : SectionMeta
  /-- The data version the persisted form matches. -/
  dataVersion : Nat
  needsRebuild : Bool

def normaliseExclusions (values : Finset String) : Finset String := values.image indexKey

namespace FileIndex

/-- An empty index that has not been reconciled with any records yet. -/
def withExclusions (field : String) (attr : Nat) (excluded : Finset String) : FileIndex :=
  { field := field, attr := attr, postings := ∅, excluded := normaliseExclusions excluded,
    dirtyValues := ∅, dirtyAll := true, sectionMeta := SectionMeta.empty, dataVersion := 0,
    needsRebuild := true }

/-- An index read back from disk, trusted only if `state` says it still matches the data and the
field still resolves to the same attribute. -/
def loaded (field : String) (attr : Nat) (entries : Map String Record) (sectionMeta : SectionMeta)
    (state : Option IndexState) (dataVersion : Nat) : FileIndex :=
  let trusted : Bool := match state with
    | some state =>
      state.field = field ∧ state.attributeNo = attr + 1 ∧ state.dataVersion = dataVersion
    | none => false
  { field := field
    attr := attr
    postings := entries.map fun _ record => postingKeys record
    excluded := match state with | some state => state.excluded | none => ∅
    dirtyValues := ∅
    dirtyAll := false
    sectionMeta := sectionMeta
    dataVersion := match state with | some state => state.dataVersion | none => 0
    needsRebuild := !trusted }

/-- Replaces the excluded set, reporting whether it changed. -/
def setExcluded (idx : FileIndex) (values : Finset String) : Bool × FileIndex :=
  let values := normaliseExclusions values
  if values = idx.excluded then (false, idx)
  else (true, { idx with excluded := values, needsRebuild := true })

/-- Adds `key` to the posting list of `value`. -/
def post (key : String) (postings : Map String (Finset String)) (value : String) :
    Map String (Finset String) :=
  postings.insert value (insert key (postings[value]?.getD ∅))

/-- Takes `key` off the posting list of `value`, and the list itself once it is empty. -/
def withdraw (key : String) (postings : Map String (Finset String)) (value : String) :
    Map String (Finset String) :=
  match postings[value]? with
  | some keys =>
    if keys.erase key = ∅ then postings.erase value else postings.insert value (keys.erase key)
  | none => postings

/-- Discards the postings and derives them again from every record. -/
def rebuild (idx : FileIndex) (records : Map String Record) (attr : Nat) : FileIndex :=
  { idx with
    attr := attr
    postings := records.toList.foldl (fun postings entry =>
      (keysOf (some entry.2) attr).foldl (fun postings value =>
        if value ∈ idx.excluded then postings else post entry.1 postings value) postings) ∅
    dirtyValues := ∅
    dirtyAll := true
    needsRebuild := false }

/-- The keys one record contributes to this index, exclusions removed. -/
def retained (idx : FileIndex) (record : Option Record) : List String :=
  match record with
  | none => []
  | some record => (keysOf (some record) idx.attr).filter fun value => value ∉ idx.excluded

/-- One value `key` no longer carries, unless it is one of those kept. -/
def withdrawValue (key : String) (kept : List String) (idx : FileIndex) (value : String) :
    FileIndex :=
  if value ∈ kept then idx
  else { idx with
    postings := withdraw key idx.postings value
    dirtyValues := insert value idx.dirtyValues }

/-- One value `key` now carries, unless it is one of those it already did. -/
def postValue (key : String) (present : List String) (idx : FileIndex) (value : String) :
    FileIndex :=
  if value ∈ present then idx
  else { idx with
    postings := post key idx.postings value
    dirtyValues := insert value idx.dirtyValues }

/-- Applies one record's change: `old` is what the key held before, `new` what it holds now. -/
def apply (idx : FileIndex) (key : String) (old new : Option Record) : FileIndex :=
  let before := idx.retained old
  let after := idx.retained new
  after.foldl (postValue key before) (before.foldl (withdrawValue key after) idx)

/-- The keys carrying `value`, or `none` when this index cannot answer for it. -/
def candidates (idx : FileIndex) (value : String) : Option (Finset String) :=
  if idx.needsRebuild then none
  else if value ∈ idx.excluded then none
  else some (idx.postings[value]?.getD ∅)

def isDirty (idx : FileIndex) : Bool := idx.dirtyAll ∨ idx.dirtyValues ≠ ∅

end FileIndex

/-! ## The keys of a record -/

/-- The texts a query compares one attribute of a record with. -/
def textsOf (record : Option Record) (attr : Nat) : List String :=
  match record.bind fun record => record.fields[attr]? with
  | none => [""]
  | some field =>
    if field.values = [] then [""]
    else field.values.flatMap fun value =>
      if value.subValues = [] then [""] else value.subValues.map textOf

theorem mem_pushKey {out : List String} {text key : String} :
    key ∈ pushKey out text ↔ key ∈ out ∨ key = indexKey text := by
  simp only [pushKey]
  split
  · rename_i h
    constructor
    · exact Or.inl
    · rintro (h' | rfl)
      · exact h'
      · exact h
  · simp

theorem mem_foldl_pushKey (subs : List Bytes) (key : String) : ∀ out : List String,
    key ∈ subs.foldl (fun out sub => pushKey out (textOf sub)) out ↔
      key ∈ out ∨ ∃ sub ∈ subs, key = indexKey (textOf sub) := by
  induction subs with
  | nil => intro out; simp
  | cons sub subs ih => intro out; simp [ih, mem_pushKey, or_assoc]

theorem mem_pushValue {out : List String} {value : Value} {key : String} :
    key ∈ pushValue out value ↔ key ∈ out ∨
      ∃ text ∈ (if value.subValues = [] then [""] else value.subValues.map textOf),
        key = indexKey text := by
  unfold pushValue
  rw [mem_foldl_pushKey]
  split
  · rename_i h
    simp [h, mem_pushKey]
  · simp

theorem mem_foldl_pushValue (values : List Value) (key : String) : ∀ out : List String,
    key ∈ values.foldl pushValue out ↔ key ∈ out ∨
      ∃ text ∈ values.flatMap (fun value =>
        if value.subValues = [] then [""] else value.subValues.map textOf), key = indexKey text := by
  induction values with
  | nil => intro out; simp
  | cons value values ih =>
    intro out
    rw [List.foldl_cons, ih, mem_pushValue, or_assoc]
    simp only [List.flatMap_cons, List.mem_append, or_and_right, exists_or]

/-- An index holds exactly the keys of the texts a query compares with. -/
theorem mem_keysOf {record : Option Record} {attr : Nat} {key : String} :
    key ∈ keysOf record attr ↔ ∃ text ∈ textsOf record attr, key = indexKey text := by
  have hempty : indexKey "" = "" := by decide +kernel
  unfold keysOf textsOf
  split
  · simp [hempty]
  · split
    · simp [hempty]
    · rw [mem_foldl_pushValue]
      simp

/-! ## Posting lists -/

/-- `key` stands in the posting list of `value`. -/
def Posted (postings : Map String (Finset String)) (key value : String) : Prop :=
  key ∈ postings[value]?.getD ∅

theorem posted_post {postings : Map String (Finset String)} {key value k v : String} :
    Posted (FileIndex.post key postings value) k v ↔
      Posted postings k v ∨ (k = key ∧ v = value) := by
  unfold Posted FileIndex.post
  rw [getElem?_insert_eq]
  split
  · rename_i h
    subst h
    simp [or_comm]
  · rename_i h
    constructor
    · exact Or.inl
    · rintro (h' | ⟨_, rfl⟩)
      · exact h'
      · exact absurd rfl h

theorem posted_withdraw {postings : Map String (Finset String)} {key value k v : String} :
    Posted (FileIndex.withdraw key postings value) k v ↔
      Posted postings k v ∧ ¬ (k = key ∧ v = value) := by
  unfold Posted FileIndex.withdraw
  split
  · rename_i keys hkeys
    split
    · rename_i hempty
      rw [getElem?_erase_eq]
      split
      · rename_i h
        subst h
        rw [hkeys]
        have : ∀ j ∈ keys, j = key := by
          intro j hj
          by_contra hne
          exact absurd (Finset.mem_erase.mpr ⟨hne, hj⟩) (by simp [hempty])
        simpa using fun hk => this k hk
      · rename_i h
        simp [Ne.symm h]
    · rw [getElem?_insert_eq]
      split
      · rename_i h
        subst h
        simp [hkeys, and_comm]
      · rename_i h
        simp [Ne.symm h]
  · rename_i hnone
    constructor
    · intro h
      refine ⟨h, ?_⟩
      rintro ⟨_, rfl⟩
      simp [hnone] at h
    · exact And.left

namespace FileIndex

/-- No record is missing from the posting list of a value it carries and the index holds. -/
def Covers (idx : FileIndex) (records : Map String Record) : Prop :=
  ∀ key record, records[key]? = some record →
    ∀ value ∈ idx.retained (some record), Posted idx.postings key value

theorem mem_retained {idx : FileIndex} {record : Record} {value : String} :
    value ∈ idx.retained (some record) ↔
      value ∈ keysOf (some record) idx.attr ∧ value ∉ idx.excluded := by
  simp [retained]

/-! ### Rebuilding -/

/-- The postings one record adds during a rebuild. -/
def postKeys (excluded : Finset String) (key : String) (values : List String)
    (postings : Map String (Finset String)) : Map String (Finset String) :=
  values.foldl (fun postings value =>
    if value ∈ excluded then postings else post key postings value) postings

theorem posted_postKeys (excluded : Finset String) (key k v : String) (values : List String) :
    ∀ postings, Posted (postKeys excluded key values postings) k v ↔
      Posted postings k v ∨ (k = key ∧ v ∈ values ∧ v ∉ excluded) := by
  induction values with
  | nil => intro postings; simp [postKeys]
  | cons value values ih =>
    intro postings
    have := ih (if value ∈ excluded then postings else post key postings value)
    rw [postKeys, List.foldl_cons]
    rw [postKeys] at this
    rw [this]
    split
    · rename_i hex
      grind
    · rename_i hex
      rw [posted_post]
      grind

theorem posted_rebuild (idx : FileIndex) (records : Map String Record) (attr : Nat)
    (key value : String) :
    Posted (idx.rebuild records attr).postings key value ↔
      ∃ record, records[key]? = some record ∧
        value ∈ keysOf (some record) attr ∧ value ∉ idx.excluded := by
  have hfold : ∀ (entries : List (String × Record)) postings,
      Posted (entries.foldl (fun postings entry =>
          postKeys idx.excluded entry.1 (keysOf (some entry.2) attr) postings) postings) key value ↔
        Posted postings key value ∨ ∃ record, (key, record) ∈ entries ∧
          value ∈ keysOf (some record) attr ∧ value ∉ idx.excluded := by
    intro entries
    induction entries with
    | nil => intro postings; simp
    | cons entry entries ih =>
      intro postings
      rw [List.foldl_cons, ih, posted_postKeys]
      grind
  have := hfold records.toList ∅
  simp only [Std.ExtTreeMap.mem_toList_iff_getElem?_eq_some] at this
  refine Iff.trans this ?_
  simp [Posted]

theorem covers_rebuild (idx : FileIndex) (records : Map String Record) (attr : Nat) :
    (idx.rebuild records attr).Covers records := by
  intro key record hrecord value hvalue
  rw [mem_retained] at hvalue
  exact (posted_rebuild idx records attr key value).mpr ⟨record, hrecord, hvalue⟩

/-! ### Maintaining -/

/-- Maintenance changes the postings and what is dirty, and nothing else. -/
def SameShape (idx idx' : FileIndex) : Prop :=
  idx'.field = idx.field ∧ idx'.attr = idx.attr ∧ idx'.excluded = idx.excluded ∧
    idx'.dirtyAll = idx.dirtyAll ∧ idx'.sectionMeta = idx.sectionMeta ∧
    idx'.dataVersion = idx.dataVersion ∧ idx'.needsRebuild = idx.needsRebuild

theorem SameShape.trans {a b c : FileIndex} (h : SameShape a b) (h' : SameShape b c) :
    SameShape a c := by
  unfold SameShape at *
  grind

theorem withdrawValue_fold (key : String) (kept values : List String) : ∀ idx : FileIndex,
    SameShape idx (values.foldl (withdrawValue key kept) idx) ∧
    ∀ k v, Posted (values.foldl (withdrawValue key kept) idx).postings k v ↔
      Posted idx.postings k v ∧ ¬ (k = key ∧ v ∈ values ∧ v ∉ kept) := by
  induction values with
  | nil => intro idx; simp [SameShape]
  | cons value values ih =>
    intro idx
    obtain ⟨hshape, hposted⟩ := ih (withdrawValue key kept idx value)
    rw [List.foldl_cons]
    refine ⟨SameShape.trans ?_ hshape, ?_⟩
    · unfold withdrawValue SameShape
      split <;> simp
    · intro k v
      rw [hposted, withdrawValue]
      split
      · grind
      · rw [posted_withdraw]
        grind

theorem postValue_fold (key : String) (present values : List String) : ∀ idx : FileIndex,
    SameShape idx (values.foldl (postValue key present) idx) ∧
    ∀ k v, Posted (values.foldl (postValue key present) idx).postings k v ↔
      Posted idx.postings k v ∨ (k = key ∧ v ∈ values ∧ v ∉ present) := by
  induction values with
  | nil => intro idx; simp [SameShape]
  | cons value values ih =>
    intro idx
    obtain ⟨hshape, hposted⟩ := ih (postValue key present idx value)
    rw [List.foldl_cons]
    refine ⟨SameShape.trans ?_ hshape, ?_⟩
    · unfold postValue SameShape
      split <;> simp
    · intro k v
      rw [hposted, postValue]
      split
      · grind
      · rw [posted_post]
        grind

theorem apply_sameShape (idx : FileIndex) (key : String) (old new : Option Record) :
    SameShape idx (idx.apply key old new) :=
  (withdrawValue_fold key _ _ idx).1.trans (postValue_fold key _ _ _).1

theorem posted_apply (idx : FileIndex) (key : String) (old new : Option Record) (k v : String) :
    Posted (idx.apply key old new).postings k v ↔
      (Posted idx.postings k v ∧ ¬ (k = key ∧ v ∈ idx.retained old ∧ v ∉ idx.retained new)) ∨
        (k = key ∧ v ∈ idx.retained new ∧ v ∉ idx.retained old) := by
  rw [apply, (postValue_fold key _ _ _).2, (withdrawValue_fold key _ _ idx).2]

theorem SameShape.retained {idx idx' : FileIndex} (h : SameShape idx idx')
    (record : Option Record) : idx'.retained record = idx.retained record := by
  obtain ⟨_, hattr, hexcluded, _⟩ := h
  cases record with
  | none => rfl
  | some record => simp only [FileIndex.retained, hattr, hexcluded]

/-- Two record maps that differ at `key` alone, by what `apply` is told. -/
theorem covers_apply {idx : FileIndex} {records records' : Map String Record} {key : String}
    (h : idx.Covers records) (hne : ∀ k, k ≠ key → records'[k]? = records[k]?) :
    (idx.apply key records[key]? records'[key]?).Covers records' := by
  intro k record hrecord v hv
  rw [(apply_sameShape idx _ _ _).retained] at hv
  rw [posted_apply]
  by_cases hk : k = key
  · subst hk
    rw [hrecord]
    by_cases hold : v ∈ idx.retained records[k]?
    · left
      refine ⟨?_, fun hc => hc.2.2 hv⟩
      cases hr : records[k]? with
      | none => simp [hr, FileIndex.retained] at hold
      | some old => exact h k old hr v (by rwa [hr] at hold)
    · exact Or.inr ⟨rfl, hv, hold⟩
  · left
    rw [hne k hk] at hrecord
    exact ⟨h k record hrecord v hv, fun hc => hk hc.1⟩

end FileIndex

end RustyPick
