import RustyPick.Error
import RustyPick.Index
import RustyPick.Queue

/-!
# RustyPick.Table

A file held in memory (`db/models.rs`): its records and dictionary, the indexes and the queue order
kept beside them, and what a flush still has to write.

Every change to the records goes through `insertRecord` or `removeRecord`, which maintain the
indexes, except the few that edit the map itself.
-/

namespace RustyPick

open Lib

def DICT_FIELD_IDX : Nat := 0
def DICT_CONV_IDX : Nat := 7

structure Table where
  records : Map String Record := ∅
  dictionary : Map String Record := ∅
  /-- Layout and version of the record section on disk. -/
  dataMeta : SectionMeta := SectionMeta.empty
  /-- Set when the records were read from the flat file the next flush converts. -/
  legacyData : Bool := false
  /-- Keys changed since the last flush. -/
  dirtyKeys : Finset String := ∅
  /-- Set when a change cannot be attributed to individual keys. -/
  dirtyAll : Bool := false
  dictDirty : Bool := false
  indexes : Map String FileIndex := ∅
  queue : Option QueueState := none
  autokey : Option Sequence := none

/-- The attribute a dictionary entry defines, counted from zero. -/
def attributeOf (entry : Record) : Option Nat := do
  let field ← entry.fields[DICT_FIELD_IDX]?
  let value ← field.values.head?
  let text ← value.firstText
  match parseU64 text with
  | some idx => if 0 < idx then some (idx - 1) else none
  | none => none

/-- The conversion code of a dictionary entry, when it is text and not empty. -/
def conversionCodeFromDictRecord (entry : Record) : Option String := do
  let field ← entry.fields[DICT_CONV_IDX]?
  let value ← field.values.head?
  let code ← value.subValues.head?
  match fromUtf8? code with
  | some code => if code ≠ "" then some code else none
  | none => none

namespace Table

/-- The attribute of a dictionary field, or `none` when the field is unknown. -/
def fieldIndex (t : Table) (fieldName : String) : Option Nat :=
  if fieldName = "ID" then some 0 else t.dictionary[fieldName]?.bind attributeOf

/-- The attribute and the conversion code of a dictionary field. -/
def fieldIndexAndConversion (t : Table) (fieldName : String) : Option (Nat × Option String) :=
  if fieldName = "ID" then some (0, none)
  else do
    let entry ← t.dictionary[fieldName]?
    let idx ← attributeOf entry
    some (idx, conversionCodeFromDictRecord entry)

def autokeyDirty (t : Table) : Bool :=
  match t.autokey with | some counter => counter.dirty | none => false

def queueDirty (t : Table) : Bool :=
  match t.queue with | some queue => queue.isDirty | none => false

def indexesDirty (t : Table) : Bool :=
  t.indexes.values.any fun idx => idx.isDirty ∨ idx.needsRebuild

def recordsDirty (t : Table) : Bool := t.dirtyAll ∨ t.dirtyKeys ≠ ∅

def isDirty (t : Table) : Bool :=
  t.dirtyAll ∨ t.dictDirty ∨ t.dirtyKeys ≠ ∅ ∨ t.indexesDirty ∨ t.queueDirty ∨ t.autokeyDirty

/-- Brings a queue's order back in line with its records. -/
def reconcileQueue (t : Table) : Table :=
  { t with queue := t.queue.map fun q => q.reconcile t.records }

/-- Marks a single record as changed. -/
def markDirty (t : Table) (key : String) : Table := { t with dirtyKeys := insert key t.dirtyKeys }

def markStale (idx : FileIndex) : FileIndex := { idx with needsRebuild := true }

/-- Marks the whole table as changed, and every index for a rebuild. -/
def touchAll (t : Table) : Table :=
  { t with
    dirtyAll := true
    dictDirty := true
    indexes := t.indexes.map fun _ idx => markStale idx }

/-- Marks an index stale when a dictionary edit has moved its field to a different attribute. -/
def recheckIndexAttributes (t : Table) : Table :=
  let moved := (t.indexes.values.filter fun idx => t.fieldIndex idx.field ≠ some idx.attr).map
    FileIndex.field
  { t with indexes := t.indexes.map fun field idx => if field ∈ moved then markStale idx else idx }

def markDictDirty (t : Table) : Table := ({ t with dictDirty := true }).recheckIndexAttributes

def insertRecord (t : Table) (key : String) (record : Record) : Table :=
  let indexes := t.indexes.map fun _ idx => idx.apply key t.records[key]? (some record)
  ({ t with indexes := indexes, records := t.records.insert key record }).markDirty key

def removeRecord (t : Table) (key : String) : Option Record × Table :=
  let previous := t.records[key]?
  let indexes := t.indexes.map fun _ idx => idx.apply key previous none
  (previous, ({ t with indexes := indexes, records := t.records.erase key }).markDirty key)

def clearDirty (t : Table) : Table :=
  { t with dirtyKeys := ∅, dirtyAll := false, dictDirty := false }

def hasIndex (t : Table) (field : String) : Bool := t.indexes.contains field

/-- Adds an index on `field`, with a set of values it will not hold, and builds it from the
records. -/
def createIndexExcluding (t : Table) (field : String) (excluded : Finset String) :
    Except DbError Table :=
  let field := trim field
  let refuse := fun reason => Except.error (DbError.invalidField field reason)
  if field = "ID" then refuse "it is the record key, already found without a scan"
  else if ¬ isValidFieldName field then
    refuse "an index name may hold only letters, digits and . _ - $ # %"
  else
    match t.fieldIndex field with
    | none => refuse "it is not a dictionary field of this file"
    | some attr =>
      let idx := (FileIndex.withExclusions field attr excluded).rebuild t.records attr
      .ok { t with indexes := t.indexes.insert field idx }

/-- Forgets an index. -/
def dropIndex (t : Table) (field : String) : Bool × Table :=
  (t.indexes.contains (trim field), { t with indexes := t.indexes.erase (trim field) })

/-- Derives one index from the records again. -/
def rebuildIndex (t : Table) (field : String) : Except DbError Table :=
  let field := trim field
  match t.indexes[field]? with
  | none => .error (.invalidField field "it is not indexed on this file")
  | some idx =>
    match t.fieldIndex field with
    | none => .error (.invalidField field "it is not a dictionary field of this file")
    | some attr => .ok { t with indexes := t.indexes.insert field (idx.rebuild t.records attr) }

/-- Rebuilds every index that has fallen behind the records. An index whose field the dictionary no
longer defines stays marked. -/
def rebuildStaleIndexes (t : Table) : Table :=
  { t with indexes := t.indexes.map fun field idx =>
      if idx.needsRebuild then
        match t.fieldIndex field with
        | some attr => idx.rebuild t.records attr
        | none => idx
      else idx }

/-- The keys an index says carry `value`, or `none` when no usable index can answer. -/
def indexCandidates (t : Table) (field value : String) : Option (Finset String) :=
  match t.indexes[field]? with
  | some idx => if t.fieldIndex field = some idx.attr then idx.candidates (indexKey value) else none
  | none => none

end Table

end RustyPick
