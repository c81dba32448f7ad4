import RustyPick.TableEdit

/-!
# RustyPick.Transaction

A set of changes applied to one account so that all of it lands or none does
(`db/engine/transaction.rs`): the intent put on disk first, the files written one after another,
the intent removed, and the replay of what a crash left in the log.

A run on disk is a list of steps. The engine's map of loaded files is the `table` of each file. A
file may also fail to be read: that is the disk's doing and stays as it is.
-/

namespace RustyPick

open Lib

/-! ## The database on disk and in memory -/

/-- What the account's listing says a file is. -/
inductive FileKind where
  | ordinary
  | queue
  | directory
  deriving DecidableEq, Repr

structure AccountFile where
  dir : TableDir
  kind : FileKind := .ordinary
  /-- What reading the file runs into, when the disk fails. -/
  failure : Option IoError := none
  /-- The file as the engine holds it. -/
  table : Option Table := none

abbrev AccountFiles := Map String AccountFile

/-- `resolve_table`: the file in memory, or as it loads. -/
def AccountFile.resolve (file : AccountFile) : Except IoError Table :=
  match file.table, file.failure with
  | some t, _ => .ok t
  | none, some e => .error e
  | none, none => loadTable file.dir

structure Database where
  accounts : Map String AccountFiles
  /-- The intents waiting in the log, by file name. -/
  log : Map String Bytes

/-! ## Staging -/

/-- What to do with a change naming a file that cannot take it. -/
inductive Unusable where
  | refuse
  | skip
  deriving DecidableEq, Repr

def queueRefused (name : String) : DbError :=
  .transactionScope ("'" ++ name ++ "' is a queue file: its records are minted by ENQUEUE and " ++
    "claimed by DEQUEUE, so a transaction cannot write them")

def directoryRefused (name : String) : DbError :=
  .transactionScope ("'" ++ name ++ "' is a directory file: each of its records is committed on " ++
    "its own by the write that renames it, so a transaction cannot hold one back until the rest " ++
    "of the set is ready")

/-- One file of the set: in memory, or the reason it cannot take a change. -/
def usable (account : String) (files : AccountFiles) (name : String) : Except DbError Table :=
  match files[name]? with
  | none => .error (.fileNotFound account name)
  | some file =>
    match file.kind with
    | .queue => .error (queueRefused name)
    | .directory => .error (directoryRefused name)
    | .ordinary =>
      match file.resolve with
      | .ok t => .ok t
      | .error e => .error (.io e)

/-- The files of a set, each once, in the order their locks are taken in. -/
def fileNames (changes : List Change) : List String := ascending (changes.map Change.file).toFinset

/-- The loop of `stage`. -/
def stageLoop (unusable : Unusable) (account : String) (files : AccountFiles) :
    List String → Except DbError (List (String × Table))
  | [] => .ok []
  | name :: rest =>
    match usable account files name, unusable with
    | .ok t, _ =>
      match stageLoop unusable account files rest with
      | .ok staged => .ok ((name, t) :: staged)
      | .error e => .error e
    | .error e, .refuse => .error e
    | .error _, .skip => stageLoop unusable account files rest

def stage (unusable : Unusable) (account : String) (files : AccountFiles) (changes : List Change) :
    Except DbError (List (String × Table)) :=
  stageLoop unusable account files (fileNames changes)

/-! ## Applying -/

/-- The changes of a set to one file, in the order of the set. -/
def changesOf (name : String) (changes : List Change) : List Change :=
  changes.filter fun c => c.file = name

/-- A file with its part of the set applied. -/
def applyTo (name : String) (changes : List Change) (t : Table) : Table :=
  (changesOf name changes).foldl Table.applyChange t

namespace AccountFile

def performAll (file : AccountFile) (steps : List TableStep) : AccountFile :=
  { file with dir := file.dir.performAll steps }

end AccountFile

/-- The steps of a list that are on one file. -/
def stepsOn (name : String) (steps : List (String × TableStep)) : List TableStep :=
  steps.filterMap fun s => if s.1 = name then some s.2 else none

/-- The files after steps on their directories. -/
def AccountFiles.performAll (files : AccountFiles) (steps : List (String × TableStep)) :
    AccountFiles :=
  files.map fun name file => file.performAll (stepsOn name steps)

/-- The files with those just flushed in memory. -/
def AccountFiles.hold (files : AccountFiles) (flushed : List (String × Table)) : AccountFiles :=
  files.map fun name file =>
    match flushed.find? fun e => e.1 = name with
    | some e => { file with table := some e.2 }
    | none => file

/-! ## Replaying -/

end RustyPick
