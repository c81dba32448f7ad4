import RustyPick.IndexFile
import RustyPick.SectionCrash
import RustyPick.Table

/-!
# RustyPick.TableFile

A file of an account on disk, `load_table` (`db/engine/cache.rs`) and `flush_locked`
(`db/engine/mod.rs`) as the list of steps it performs on the file's directory, in order: the record
section, the dictionary, each index with its `state`, the queue's book, the autokey counter.

Sections and state files are replaced whole. The dictionary is not: it is truncated in place and
written in pieces, and a crash can leave any of them. What the queue's book and the counter hold
is kept as a value; nothing here reads their text.
-/

namespace RustyPick

open Lib

/-! ## The directory -/

/-- The directory of one index. -/
structure IndexDir where
  posts : SectionDir
  stateFile : Option Bytes := none

inductive IndexStep where
  | makeDir
  | posts (step : FileStep)
  | renameState (bytes : Bytes)
  deriving DecidableEq, Repr

namespace IndexDir

def perform (dir : IndexDir) : IndexStep → IndexDir
  | .makeDir => dir
  | .posts step => { dir with posts := dir.posts.perform step }
  | .renameState bytes => { dir with stateFile := some bytes }

def performAll (dir : IndexDir) (steps : List IndexStep) : IndexDir := steps.foldl perform dir

end IndexDir

/-- The directory of one file. `flat` is the record file from before sections existed. -/
structure TableDir where
  path : String
  data : SectionDir
  flat : Option Bytes := none
  dict : Option Bytes := none
  indexes : Map String IndexDir := ∅
  book : Option PersistedQueue := none
  counter : Option Nat := none

inductive TableStep where
  | data (step : FileStep)
  | removeFlat
  | truncateDict
  | appendDict (bytes : Bytes)
  | index (field : String) (step : IndexStep)
  | renameBook (book : PersistedQueue)
  | renameCounter (next : Nat)

namespace TableDir

def dataPath (dir : TableDir) : String := dir.path ++ "/data"

def dictPath (dir : TableDir) : String := dir.path ++ "/dict"

/-- The directory of an index, or a new one. -/
def indexDir (dir : TableDir) (field : String) : IndexDir :=
  dir.indexes[field]?.getD { posts := { path := dir.path ++ "/index." ++ field ++ ".hf" } }

def perform (dir : TableDir) : TableStep → TableDir
  | .data step => { dir with data := dir.data.perform step }
  | .removeFlat => { dir with flat := none }
  | .truncateDict => { dir with dict := some [] }
  | .appendDict bytes => { dir with dict := some (dir.dict.getD [] ++ bytes) }
  | .index field step =>
    { dir with indexes := dir.indexes.insert field ((dir.indexDir field).perform step) }
  | .renameBook book => { dir with book := some book }
  | .renameCounter next => { dir with counter := some next }

def performAll (dir : TableDir) (steps : List TableStep) : TableDir := steps.foldl perform dir

theorem performAll_append (dir : TableDir) (a b : List TableStep) :
    dir.performAll (a ++ b) = (dir.performAll a).performAll b := List.foldl_append

end TableDir

/-! ## Loading -/

/-- `load_section`: frames without a trailer, from a file that may not be there. -/
def loadSection (path : String) (file : Option Bytes) : Except IoError Entries :=
  match file with
  | none => .ok ∅
  | some bytes =>
    match readLoop path (bytes.length + 1) bytes with
    | .error e => .error e
    | .ok frames => .ok (insertAll ∅ frames)

/-- The records of a file: from the section once it has metadata, from the flat file before. -/
structure LoadedData where
  records : Entries
  dataMeta : SectionMeta
  legacyData : Bool

def loadData (dir : TableDir) : Except IoError LoadedData :=
  match dir.data.metaFile with
  | some _ =>
    match load dir.data with
    | .error e => .error e
    | .ok (dataMeta, records) =>
      .ok { records := records, dataMeta := dataMeta, legacyData := false }
  | none =>
    match loadSection dir.dataPath dir.flat with
    | .error e => .error e
    | .ok records =>
      .ok
        { records := records
          dataMeta := .empty
          legacyData := !records.isEmpty || dir.flat.isSome }

/-- One index attached from its directory. One that cannot be read, or whose field the dictionary
does not define, comes back empty and marked for a rebuild. -/
def loadIndex (dir : IndexDir) (field : String) (attr : Option Nat) (dataVersion : Nat) :
    FileIndex :=
  match attr, load dir.posts with
  | some attr, .ok (sectionMeta, entries) =>
    FileIndex.loaded field attr entries sectionMeta (readState dir.stateFile) dataVersion
  | attr, _ => FileIndex.withExclusions field (attr.getD 0) ∅

/-- The fields that have an index directory. -/
def indexedFields (dir : TableDir) : List String := dir.indexes.keys.filter isValidFieldName

/-- Indexes are attached to a table whose records and dictionary are in place, and those that do
not match are rebuilt at once. -/
def loadIndexes (t : Table) (dir : TableDir) : Table :=
  let dataVersion := if t.legacyData then 0 else t.dataMeta.version
  let indexes := insertAll t.indexes ((indexedFields dir).map fun field =>
    (field, loadIndex (dir.indexDir field) field (t.fieldIndex field) dataVersion))
  ({ t with indexes := indexes }).rebuildStaleIndexes

/-- `load_table_for_account`. -/
def loadTable (dir : TableDir) : Except IoError Table :=
  match loadData dir with
  | .error e => .error e
  | .ok data =>
    match loadSection dir.dictPath dir.dict with
    | .error e => .error e
    | .ok dictionary =>
      .ok (loadIndexes
        { records := data.records
          dictionary := dictionary
          dataMeta := data.dataMeta
          legacyData := data.legacyData } dir)

/-! ## Flushing -/

/-- What a flush does not choose: the orders of its saves, and the pieces the dictionary reaches
the disk in. -/
structure FlushOrder extends SaveOrder where
  pieces : Bytes → List Bytes
  pieces_join : ∀ bytes, (pieces bytes).flatten = bytes

/-- Everything in order, the dictionary in one piece. -/
def FlushOrder.plain : FlushOrder where
  toSaveOrder := .ascending
  pieces := fun bytes => [bytes]
  pieces_join := by simp

/-- An index as the section a save reads: each value with its posting list. -/
def FileIndex.source (idx : FileIndex) : Entries := idx.postings.map fun _ keys => postingRecord keys

/-- What an index says of itself once it is written against `dataVersion`. -/
def FileIndex.state (idx : FileIndex) (dataVersion : Nat) : IndexState where
  field := idx.field
  attributeNo := idx.attr + 1
  dataVersion := dataVersion
  excluded := idx.excluded

/-- `FileIndex::save`: the postings if they have changed, then `state` in any case. -/
def FileIndex.save (idx : FileIndex) (order : SaveOrder) (dir : IndexDir)
    (dataVersion perGroup : Nat) : List IndexStep × Option (Except IoError FileIndex) :=
  let finish := [IndexStep.renameState (stateBytes (idx.state dataVersion))]
  if idx.isDirty then
    let dirty := if idx.dirtyAll then none else some idx.dirtyValues
    match saveWithFsync order dir.posts idx.source idx.sectionMeta dirty perGroup with
    | (steps, none) => (.makeDir :: steps.map .posts, none)
    | (steps, some (.error e)) => (.makeDir :: steps.map .posts, some (.error e))
    | (steps, some (.ok sectionMeta)) =>
      (.makeDir :: steps.map .posts ++ finish,
        some (.ok { idx with
          sectionMeta := sectionMeta
          dirtyValues := ∅
          dirtyAll := false
          dataVersion := dataVersion }))
  else (.makeDir :: finish, some (.ok { idx with dataVersion := dataVersion }))

/-- The indexes of a file, one after another. -/
def saveIndexes (order : SaveOrder) (dir : TableDir) (dataVersion perGroup : Nat) :
    List (String × FileIndex) →
      List TableStep × Option (Except IoError (List (String × FileIndex)))
  | [] => ([], some (.ok []))
  | (field, idx) :: rest =>
    match idx.save order (dir.indexDir field) dataVersion perGroup with
    | (steps, none) => (steps.map (.index field), none)
    | (steps, some (.error e)) => (steps.map (.index field), some (.error e))
    | (steps, some (.ok idx)) =>
      match saveIndexes order dir dataVersion perGroup rest with
      | (later, none) => (steps.map (.index field) ++ later, none)
      | (later, some (.error e)) => (steps.map (.index field) ++ later, some (.error e))
      | (later, some (.ok saved)) =>
        (steps.map (.index field) ++ later, some (.ok ((field, idx) :: saved)))

/-- The frames `save_section` writes: every entry, sorted by key. -/
def sectionBytes (map : Entries) : Bytes := frames map.toList

/-- The dictionary, truncated and written. -/
def saveDict (order : FlushOrder) (t : Table) : List TableStep :=
  if t.dictDirty then
    .truncateDict :: (order.pieces (sectionBytes t.dictionary)).map .appendDict
  else []

/-- The queue's book and the autokey counter. -/
def saveBooks (t : Table) : List TableStep × Table :=
  let (book, t) := match t.queue with
    | some q =>
      if q.isDirty then
        ([TableStep.renameBook q.toPersisted], { t with queue := some q.clearDirty })
      else ([], t)
    | none => ([], t)
  match t.autokey with
  | some counter =>
    if counter.dirty then
      (book ++ [.renameCounter counter.next],
        { t with autokey := some { counter with dirty := false } })
    else (book, t)
  | none => (book, t)

/-- The keys a save of the records is told about. -/
def Table.savedKeys (t : Table) : Option (Finset String) :=
  if t.dirtyAll ∨ t.legacyData then none else some t.dirtyKeys

/-- The records, and the flat file they replace. -/
def saveData (order : SaveOrder) (dir : TableDir) (t : Table) (perGroup : Nat) :
    List TableStep × Option (Except IoError Table) :=
  if t.recordsDirty then
    match saveWithFsync order dir.data t.records t.dataMeta t.savedKeys perGroup with
    | (steps, none) => (steps.map .data, none)
    | (steps, some (.error e)) => (steps.map .data, some (.error e))
    | (steps, some (.ok dataMeta)) =>
      (steps.map .data ++ (if t.legacyData then [.removeFlat] else []),
        some (.ok { t with dataMeta := dataMeta, legacyData := false }))
  else ([], some (.ok t))

/-- `flush_locked`: the steps, and the table afterwards. `none` is a flush that does not return. -/
def flushLocked (order : FlushOrder) (dir : TableDir) (t : Table) (perGroup : Nat) :
    List TableStep × Option (Except IoError Table) :=
  if ¬ t.isDirty then ([], some (.ok t))
  else
    let t := t.rebuildStaleIndexes
    match saveData order.toSaveOrder dir t perGroup with
    | (steps, none) => (steps, none)
    | (steps, some (.error e)) => (steps, some (.error e))
    | (steps, some (.ok t)) =>
      let steps := steps ++ saveDict order t
      match saveIndexes order.toSaveOrder dir t.dataMeta.version perGroup t.indexes.toList with
      | (later, none) => (steps ++ later, none)
      | (later, some (.error e)) => (steps ++ later, some (.error e))
      | (later, some (.ok saved)) =>
        let (books, t) := saveBooks { t with indexes := insertAll ∅ saved }
        (steps ++ later ++ books, some (.ok t.clearDirty))

end RustyPick
