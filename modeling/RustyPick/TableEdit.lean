import RustyPick.Intent
import RustyPick.TableFile
import RustyPick.QueueFile

/-!
# RustyPick.TableEdit

The commands that change a file under its write guard: the record write path
(`db/engine/write.rs`), the changes of a transaction (`db/engine/transaction.rs`), the index
commands and the administration of `$CLIENTS` (`db/engine/mod.rs`).

The digest a conditional write compares versions by is a parameter: SHA-256 of the stored bytes.
-/

namespace RustyPick

open Lib

/-! ## Writing and deleting one record -/

/-- What has to be true of a key before a write or a delete is applied. -/
inductive Condition where
  | always
  | ifAbsent
  | ifMatch (version : String)
  deriving DecidableEq, Repr

def Condition.check (digest : Record → String) (condition : Condition) (existing : Option Record)
    (file key : String) : Except DbError Unit :=
  match condition, existing with
  | .always, _ => .ok ()
  | .ifAbsent, none => .ok ()
  | .ifAbsent, some _ => .error (.preconditionFailed ("Record '" ++ key ++ "' in file '" ++ file ++
      "' already exists, and if_absent asked for it not to"))
  | .ifMatch _, none => .error (.preconditionFailed ("Record '" ++ key ++ "' in file '" ++ file ++
      "' does not exist, so it cannot match the version if_match named"))
  | .ifMatch wanted, some record =>
    let current := digest record
    if current = wanted then .ok ()
    else .error (.preconditionFailed ("Record '" ++ key ++ "' in file '" ++ file ++
      "' has version " ++ current ++ ", not the " ++ wanted ++
      " if_match named: it was changed since it was read"))

/-- A write that was applied. -/
structure Written where
  key : String
  version : String
  minted : Bool
  deriving DecidableEq, Repr

def keylessWriteRefused (name : String) : DbError :=
  .invalidRequest ("'" ++ name ++
    "' does not mint keys, so a write to it has to name one. Create it with CREATE.FILE " ++ name ++
    " AUTOKEY, or use SET.FILE to turn minting on")

namespace Table

/-- Attaches the counter of an autokey file, past every key already in it. -/
def attachAutokey (t : Table) (persisted : Option UInt64) : Table :=
  match t.autokey with
  | some _ => t
  | none =>
    let next := persisted.getD 0
    have hle : next.toNat ≤ u64Max := Nat.le_pred_of_lt next.toNat_lt
    { t with
      autokey := some (t.records.keys.foldl Sequence.raisePast (Sequence.restored next.toNat hle)) }

/-- The key a write goes under, and the table with its counter moved on. -/
def writeKey (t : Table) (name : String) (key : Option String) (autokey : Bool)
    (persisted : Option UInt64) (now : Nat) : Except DbError (String × Table) :=
  match key with
  | some key => .ok (key, { t with autokey := t.autokey.map fun counter => counter.raisePast key })
  | none =>
    if ¬ autokey then .error (keylessWriteRefused name)
    else
      let t := t.attachAutokey persisted
      match t.autokey with
      | none => .error (keylessWriteRefused name)
      | some counter =>
        let (minted, counter) := counter.mint now
        .ok (formatKey minted, { t with autokey := some counter })

/-- `write_record_in`: the section under the guard. -/
def writeRecord (digest : Record → String) (t : Table) (name : String) (key : Option String)
    (record : Record) (isDict : Bool) (condition : Condition) (autokey : Bool)
    (persisted : Option UInt64) (now : Nat) : Except DbError Written × Table :=
  if isDict then
    match key with
    | none => (.error (.invalidRequest ("A dictionary entry of '" ++ name ++
        "' is keyed by the field name it defines, so there is no key to mint")), t)
    | some key =>
      match condition.check digest t.dictionary[key]? name key with
      | .error e => (.error e, t)
      | .ok () =>
        (.ok { key := key, version := digest record, minted := false },
          ({ t with dictionary := t.dictionary.insert key record }).markDictDirty)
  else
    match t.writeKey name key autokey persisted now with
    | .error e => (.error e, t)
    | .ok (target, t) =>
      match condition.check digest t.records[target]? name target with
      | .error e => (.error e, t)
      | .ok () =>
        (.ok { key := target, version := digest record, minted := key.isNone && autokey },
          t.insertRecord target record)

/-- `delete_record_in`: the section under the guard. -/
def deleteRecord (digest : Record → String) (t : Table) (name key : String) (isDict : Bool)
    (condition : Condition) : Except DbError Bool × Table :=
  if isDict then
    match condition.check digest t.dictionary[key]? name key with
    | .error e => (.error e, t)
    | .ok () =>
      (.ok (t.dictionary.contains key),
        ({ t with dictionary := t.dictionary.erase key }).markDictDirty)
  else
    match condition.check digest t.records[key]? name key with
    | .error e => (.error e, t)
    | .ok () => (.ok (t.removeRecord key).1.isSome, (t.removeRecord key).2)

/-- One change of a transaction, in the file it names. -/
def applyChange (t : Table) (change : Change) : Table :=
  match change.op, change.isDict with
  | .write record, false => t.insertRecord change.key record
  | .write record, true =>
    ({ t with dictionary := t.dictionary.insert change.key record }).markDictDirty
  | .delete, false => (t.removeRecord change.key).2
  | .delete, true => ({ t with dictionary := t.dictionary.erase change.key }).markDictDirty

/-! ## Index commands -/

/-- `create_index_excluding` of the engine: an index that is there is not created again. -/
def createIndexCommand (t : Table) (file field : String) (exclude : Finset String) :
    Except DbError Table :=
  if t.hasIndex (trim field) then .error (.indexExists file (trim field))
  else t.createIndexExcluding field exclude

/-- `set_index_exclusions`: a changed set rebuilds the index there and then, on the attribute it had
when the dictionary no longer defines the field. -/
def setIndexExclusions (t : Table) (file field : String) (values : Finset String) :
    Except DbError Table :=
  let field := trim field
  match t.indexes[field]? with
  | none => .error (.indexNotFound file field)
  | some idx =>
    match idx.setExcluded values with
    | (false, _) => .ok t
    | (true, idx) =>
      let attr := (t.fieldIndex field).getD idx.attr
      .ok { t with indexes := t.indexes.insert field (idx.rebuild t.records attr) }

/-! ## `$CLIENTS` -/

def SYS_CLIENTS_THUMBPRINT_IDX : Nat := 0
def SYS_CLIENTS_ACCOUNTS_IDX : Nat := 1
def SYS_CLIENTS_ADMIN_IDX : Nat := 2
def SYS_CLIENTS_CAPABILITIES_IDX : Nat := 3
def SYS_CLIENTS_EXPIRES_IDX : Nat := 4
def SYS_CLIENTS_ENQUEUE_IDX : Nat := 5

/-- What a client is granted. -/
structure ClientGrant where
  allowedAccounts : List String
  isAdmin : Bool
  capabilities : List String
  expiresAt : Option String
  enqueueFiles : List String
  deriving DecidableEq, Repr

def textField (values : List String) : Field := { values := values.map Value.text }

/-- The record of a client, with its thumbprint in lower case. An administrator's capabilities and
enqueue grants are left empty. -/
def clientRecord (thumbprint : String) (grant : ClientGrant) : Record :=
  { fields :=
      [textField [thumbprint], textField grant.allowedAccounts,
        textField [if grant.isAdmin then "Y" else ""],
        textField (if grant.isAdmin then [] else grant.capabilities),
        textField grant.expiresAt.toList,
        textField (if grant.isAdmin then [] else grant.enqueueFiles)] }

def addAuthorizedClient (t : Table) (name thumbprint : String) (grant : ClientGrant) : Table :=
  t.insertRecord name (clientRecord thumbprint grant)

/-- Empty fields up to and including position `idx`. -/
def padFields (fields : List Field) (idx : Nat) : List Field :=
  fields ++ List.replicate (idx + 1 - fields.length) { values := [] }

/-- The record with one more account, and whether it is one more. The fields are filled up either
way. -/
def withAccount (record : Record) (account : String) : Bool × Record :=
  let fields := padFields record.fields SYS_CLIENTS_ACCOUNTS_IDX
  let field := fields[SYS_CLIENTS_ACCOUNTS_IDX]?.getD {}
  if field.values.any fun v => v.firstBytes = utf8 account then (false, { fields := fields })
  else
    (true,
      { fields := fields.set SYS_CLIENTS_ACCOUNTS_IDX
          { values := field.values ++ [Value.text account] } })

/-- `add_client_account`: the record is edited where it stands in the map. -/
def addClientAccount (t : Table) (name account : String) : Bool × Table :=
  match t.records[name]? with
  | none => (false, t)
  | some record =>
    let (added, edited) := withAccount record account
    let t := { t with records := t.records.insert name edited }
    (added, if added then t.markDirty name else t)

/-- The record without an account, and whether it had it. -/
def withoutAccount (record : Record) (account : String) : Bool × Record :=
  match record.fields[SYS_CLIENTS_ACCOUNTS_IDX]? with
  | none => (false, record)
  | some field =>
    let kept := field.values.filter fun v => v.firstBytes ≠ utf8 account
    (decide (kept.length < field.values.length),
      { fields := record.fields.set SYS_CLIENTS_ACCOUNTS_IDX { values := kept } })

/-- `remove_client_account`, in place as well. -/
def removeClientAccount (t : Table) (name account : String) : Bool × Table :=
  match t.records[name]? with
  | none => (false, t)
  | some record =>
    let (removed, edited) := withoutAccount record account
    let t := { t with records := t.records.insert name edited }
    (removed, if removed then t.markDirty name else t)

/-- `remove_authorized_client`. -/
def removeAuthorizedClient (t : Table) (name : String) : Bool × Table :=
  ((t.removeRecord name).1.isSome, (t.removeRecord name).2)

end Table

end RustyPick
