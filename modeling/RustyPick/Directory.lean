import RustyPick.FileAttributes
import RustyPick.Error

/-!
# RustyPick.Directory

Directory files: records that are files of a host directory (`db/directory.rs` and
`db/engine/directory.rs`).

A record that is streamed in goes to a temporary file in the same directory first and is renamed
over its key when all of it is there. What that temporary file holds is passed along here, from the
one who fills it to `commitStaged`; no key can name it.

* `commitStaged_spec`: a commit puts in place what was staged, or changes nothing.
-/

namespace RustyPick

open Lib

namespace Directory

/-! ## Keys -/

def MAX_KEY_BYTES : Nat := 255

/-- `char::is_control`. -/
def isControl (c : Char) : Bool := c.toNat < 32 || (127 ≤ c.toNat && c.toNat < 160)

/-- A control character as `{:?}` shows it. -/
def debugControl (c : Char) : String :=
  let escape :=
    if c = '\x00' then "\\0" else if c = '\t' then "\\t" else if c = '\r' then "\\r"
    else if c = '\n' then "\\n"
    else "\\u\x7b" ++ String.ofList (Nat.toDigits 16 c.toNat) ++ "\x7d"
  "'" ++ escape ++ "'"

/-- `validate_key`: whether a key can be the name of a file. -/
def validateKey (key : String) : Except DbError Unit :=
  let refuse := fun why => Except.error (DbError.invalidRequest
    ("'" ++ key ++ "' is not a usable key for a directory file: " ++ why))
  if key = "" then
    refuse "it is empty, and a record is a file that has to be called something"
  else if MAX_KEY_BYTES < key.utf8ByteSize then
    refuse ("it is " ++ toString key.utf8ByteSize ++ " bytes, and a file name may be at most " ++
      toString MAX_KEY_BYTES)
  else if '/' ∈ key.toList ∨ '\\' ∈ key.toList then
    refuse "it holds a path separator, and a key names one record rather than a path"
  else if key.toList.head? = some '.' then
    refuse ("it begins with a dot, which names the directory itself, its parent, or an unfinished " ++
      "write")
  else
    match key.toList.find? isControl with
    | some bad => refuse ("it holds the control character " ++ debugControl bad)
    | none => .ok ()

/-! ## One directory -/

/-- The host's directories, by path, and the files of each. -/
abbrev Host := String → Map String Bytes

def oversize (key : String) (length max : Nat) (verb : String) : DbError :=
  .invalidRequest ("Record '" ++ key ++ "' is " ++ toString length ++ " bytes and cannot be " ++
    verb ++ ": a directory file's records are limited to " ++ toString max ++ " bytes")

/-- `stage`: everything that can be refused before a byte has come. `made` is the failure to make
the directory. -/
def stage (made : Option IoError) (key : String) (length max : Nat) : Except DbError Unit :=
  match validateKey key with
  | .error e => .error e
  | .ok () =>
    if max < length then .error (oversize key length max "written")
    else
      match made with
      | some e => .error (.io e)
      | none => .ok ()

theorem stage_ok {made : Option IoError} {key : String} {length max : Nat}
    (h : stage made key length max = .ok ()) : validateKey key = .ok () ∧ length ≤ max := by
  unfold stage at h
  cases hkey : validateKey key with
  | error e => rw [hkey] at h; cases h
  | ok u =>
    rw [hkey] at h
    dsimp only at h
    split at h
    · cases h
    · rename_i hlt
      exact ⟨rfl, not_lt.mp hlt⟩

def shortBody (key : String) (expected arrived : Nat) : DbError :=
  .invalidRequest ("Record '" ++ key ++ "' announced " ++ toString expected ++ " bytes and " ++
    toString arrived ++ " arrived: a short body is a truncated record, not a shorter one")

def noSuchFile : IoError := .other "No such file or directory (os error 2)"

/-- `commit_staged`: the staged file renamed over the key, where as much has arrived as was
announced. `failure` is that of the sync or the rename. -/
def commitStaged (host : Host) (root key : String) (staged : Option Bytes)
    (failure : Option IoError) (arrived expected : Nat) : Except DbError Unit × Host :=
  match validateKey key with
  | .error e => (.error e, host)
  | .ok () =>
    if arrived ≠ expected then (.error (shortBody key expected arrived), host)
    else
      match failure, staged with
      | some e, _ => (.error (.io e), host)
      | none, none => (.error (.io noSuchFile), host)
      | none, some bytes =>
        (.ok (), Function.update host root ((host root).insert key bytes))

theorem commitStaged_spec (host : Host) (root key : String) (staged : Option Bytes)
    (failure : Option IoError) (arrived expected : Nat) :
    (∃ bytes, arrived = expected ∧ failure = none ∧ staged = some bytes ∧
      commitStaged host root key staged failure arrived expected =
        (.ok (), Function.update host root ((host root).insert key bytes))) ∨
    ((commitStaged host root key staged failure arrived expected).1 ≠ .ok () ∧
      (commitStaged host root key staged failure arrived expected).2 = host) := by
  unfold commitStaged
  cases validateKey key with
  | error e => exact Or.inr ⟨nofun, rfl⟩
  | ok u =>
    dsimp only
    split
    · exact Or.inr ⟨nofun, rfl⟩
    · rename_i heq
      cases failure with
      | some e => exact Or.inr ⟨nofun, rfl⟩
      | none =>
        cases staged with
        | none => exact Or.inr ⟨nofun, rfl⟩
        | some bytes => exact Or.inl ⟨bytes, not_not.mp heq, rfl, rfl, rfl⟩

end Directory

/-! ## The directory a file points at -/

/-- The part of the database the directory commands use: what `DIR` says of each file, where each
account's files are, and the host directories. -/
structure Directories where
  attributes : String → String → FileAttributes
  storage : String → String
  host : Directory.Host
  maxRecordBytes : Nat

/-- `Path::join` of one name. -/
def joinPath (dir name : String) : String :=
  if dir.toList.getLast? = some '/' then dir ++ name else dir ++ "/" ++ name

def DEFAULT_RECORDS_DIR : String := "records"

open Directory

namespace Directories

/-- `file_dir`. -/
def fileDir (db : Directories) (account name : String) : String := db.storage account ++ "/" ++ name

def notADirectoryFile (account name : String) : DbError :=
  .invalidRequest ("'" ++ name ++ "' in account '" ++ account ++
    "' is not a directory file; create one with CREATE.FILE " ++ name ++ " DIRECTORY")

/-- `directory_root_from`. -/
def directoryRootFrom (db : Directories) (account name : String) (policy : DirectoryPolicy) : String :=
  match policy.explicitPath with
  | some path => path
  | none => joinPath (db.fileDir account name) DEFAULT_RECORDS_DIR

/-- `directory_root`. -/
def directoryRoot (db : Directories) (account name : String) : Except DbError String :=
  match (db.attributes account name).directory with
  | none => .error (notADirectoryFile account name)
  | some policy => .ok (db.directoryRootFrom account name policy)

/-- What a read of the record finds. -/
def record (db : Directories) (account name key : String) : Option Bytes :=
  match db.directoryRoot account name with
  | .error _ => none
  | .ok root => (db.host root)[key]?

theorem record_withHost {db : Directories} {account name root : String} (key : String) (host : Host)
    (h : db.directoryRoot account name = .ok root) :
    { db with host := host }.record account name key = (host root)[key]? := by
  have h' : { db with host := host }.directoryRoot account name = .ok root := h
  rw [record, h']

/-- `stage_directory_record`: the directory the record is staged in. -/
def stageDirectoryRecord (db : Directories) (made : Option IoError) (account name key : String)
    (length : Nat) : Except DbError String :=
  match db.directoryRoot account name with
  | .error e => .error e
  | .ok root =>
    match stage made key length db.maxRecordBytes with
    | .error e => .error e
    | .ok () => .ok root

/-- `commit_directory_record`. Where the file keeps its records is looked up again. -/
def commitDirectoryRecord (db : Directories) (account name key : String) (staged : Option Bytes)
    (failure : Option IoError) (arrived expected : Nat) : Except DbError Unit × Directories :=
  match db.directoryRoot account name with
  | .error e => (.error e, db)
  | .ok root =>
    let (result, host) := commitStaged db.host root key staged failure arrived expected
    (result, { db with host := host })

/-- A commit leaves under the key what was staged, where it succeeds, and what was there before,
where it does not. -/
theorem commitDirectoryRecord_spec (db : Directories) (account name key : String)
    (staged : Option Bytes) (failure : Option IoError) (arrived expected : Nat) :
    ((db.commitDirectoryRecord account name key staged failure arrived expected).1 = .ok () →
      arrived = expected ∧ failure = none ∧ staged.isSome ∧
      (db.commitDirectoryRecord account name key staged failure arrived expected).2.record
        account name key = staged) ∧
    ((db.commitDirectoryRecord account name key staged failure arrived expected).1 ≠ .ok () →
      (db.commitDirectoryRecord account name key staged failure arrived expected).2 = db) := by
  unfold commitDirectoryRecord
  cases hroot : db.directoryRoot account name with
  | error e => exact ⟨nofun, fun _ => rfl⟩
  | ok root =>
    dsimp only
    rcases commitStaged_spec db.host root key staged failure arrived expected with
      ⟨bytes, harrived, hfail, hstaged, hcommit⟩ | ⟨hne, hhost⟩
    · rw [hcommit]
      refine ⟨fun _ => ⟨harrived, hfail, ?_, ?_⟩, fun h => absurd rfl h⟩
      · rw [hstaged]; rfl
      · rw [record_withHost key _ hroot, hstaged]
        simp only [Function.update_self, getElem?_insert_eq, if_true]
    · refine ⟨fun h => absurd h hne, fun _ => ?_⟩
      rw [hhost]

theorem stageDirectoryRecord_ok {db : Directories} {made : Option IoError}
    {account name key root : String} {length : Nat}
    (h : db.stageDirectoryRecord made account name key length = .ok root) :
    validateKey key = .ok () := by
  unfold stageDirectoryRecord at h
  split at h
  · cases h
  · cases hstage : stage made key length db.maxRecordBytes with
    | error e => rw [hstage] at h; cases h
    | ok u => exact (stage_ok hstage).1

theorem commitDirectoryRecord_ok {db : Directories} {account name key root : String}
    {bytes : Bytes} {length : Nat} (hroot : db.directoryRoot account name = .ok root)
    (hkey : validateKey key = .ok ()) :
    (db.commitDirectoryRecord account name key (some bytes) none length length).1 = .ok () := by
  unfold commitDirectoryRecord commitStaged
  rw [hroot, hkey]
  simp

end Directories

end RustyPick
