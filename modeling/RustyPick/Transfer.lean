import RustyPick.Lib.Feed
import RustyPick.Lib.Outlet
import RustyPick.Authority
import RustyPick.Directory
import RustyPick.Archive

/-!
# RustyPick.Transfer

The commands that carry raw bytes on the connection (`server/transfer.rs`), with the halves of them
that the handler does (`server/handler.rs`).

`PUT.BYTES` and `IMPORT.BYTES` announce a length in the request line, and that many bytes follow it.
`GET.BYTES` and `EXPORT.BYTES` announce one in the response line, and send that many.

What can go wrong around a transfer is given to it: the socket ends, fails or stalls after any
bytes; a write of the response takes a part of it; the disk fails at making the directory, at
creating the file, at any write, or at the rename; and the blocking pool may not run what it is
handed.
-/

namespace RustyPick

open Lib

variable {J : Type}

namespace Transfer

/-! ## The socket -/

/-- Why a read of the socket fails: an error, or no bytes within the stall timeout. -/
inductive Stop where
  | failed
  | stalled
  deriving DecidableEq, Repr

structure Socket where
  reader : Feed UInt8 Stop
  writer : Outlet UInt8

/-- What the connection is to do next. -/
structure Outcome where
  close : Bool
  failed : Bool
  deriving DecidableEq, Repr

def Outcome.done : Outcome := { close := false, failed := false }
def Outcome.refused : Outcome := { close := false, failed := true }
def Outcome.torn : Outcome := { close := true, failed := true }

def CHUNK : Nat := 64 * 1024

/-- `drain`: `length` bytes read and dropped, or how far it got. -/
def drain (reader : Feed UInt8 Stop) (length : Nat) : Except Nat Unit × Feed UInt8 Stop :=
  match reader.take CHUNK length with
  | (none, _, reader) => (.ok (), reader)
  | (some _, taken, reader) => (.error taken.length, reader)

/-- `write_response`. -/
def writeResponse (encode : Response J → Option String) (writer : Outlet UInt8)
    (response : Response J) : Bool × Outlet UInt8 :=
  writer.writeAll (responseLine encode response)

/-- `blocking`: the work, or a response where the pool did not run it. -/
def blocking {α : Type} (pool : Option String) (work : Except (Response J) α) :
    Except (Response J) α :=
  match pool with
  | some e => .error (refusal .ioError ("Request failed: " ++ e))
  | none => work

/-! ## Receiving a body -/

/-- Where a transfer stopped, and how much had come: with the bytes not stored and the socket fine,
or with the socket at an unknown offset. -/
inductive TransferError where
  | body (arrived : Nat)
  | socket (arrived : Nat)
  deriving DecidableEq, Repr

/-- What becomes of a write to the staging file. -/
inductive WriteFate where
  | stored
  /-- It fails, and this much of the file is kept. -/
  | lost (kept : Nat)
  /-- The blocking pool does not take it. -/
  | refused
  deriving DecidableEq, Repr

/-- A `tokio::fs::File`. A write is handed to the blocking pool and answered at once; that it failed
is told at the next write, or at the flush. -/
structure StagingFile where
  bytes : Bytes := []
  /-- The last write failed, and nobody has been told. -/
  lost : Bool := false
  writes : List WriteFate := []

/-- `write_all` of a chunk, which is one write: none is larger than what the file buffers. -/
def StagingFile.writeAll (file : StagingFile) (chunk : Bytes) : Bool × StagingFile :=
  if file.lost then (false, { file with lost := false })
  else
    match file.writes with
    | .lost kept :: writes =>
      (true, { bytes := (file.bytes ++ chunk).take kept, lost := true, writes := writes })
    | .refused :: writes => (false, { file with writes := writes })
    | _ => (true, { bytes := file.bytes ++ chunk, writes := file.writes.tail })

/-- How the file a body is streamed into fares. -/
structure Disk where
  /-- The file could not be created, and this is what is there in its place. -/
  create : Option (Option Bytes) := none
  /-- What becomes of each write to come. Past the list all are stored. -/
  writes : List WriteFate := []

/-- The disk gave out with `taken` bytes come: the rest of the body is still on the socket. -/
def drainOwed (taken owed : Nat) (reader : Feed UInt8 Stop) : TransferError × Feed UInt8 Stop :=
  match drain reader owed with
  | (.ok (), reader) => (.body taken, reader)
  | (.error further, reader) => (.socket (taken + further), reader)

/-- The loop of `receive_into`. Each read takes at least one byte, so `owed` reads are enough. -/
def receiveLoop : Nat → Nat → Nat → StagingFile → Feed UInt8 Stop →
    Except TransferError Nat × StagingFile × Feed UInt8 Stop
  | _, taken, 0, file, reader => (.ok taken, file, reader)
  | 0, taken, _ + 1, file, reader => (.error (.socket taken), file, reader)
  | fuel + 1, taken, owed + 1, file, reader =>
    match reader.read (min CHUNK (owed + 1)) with
    | (.error _, reader) => (.error (.socket taken), file, reader)
    | (.ok [], reader) => (.error (.socket taken), file, reader)
    | (.ok got, reader) =>
      match file.writeAll got with
      | (false, file) =>
        let (e, reader) := drainOwed (taken + got.length) (owed + 1 - got.length) reader
        (.error e, file, reader)
      | (true, file) =>
        receiveLoop fuel (taken + got.length) (owed + 1 - got.length) file reader

/-- `receive_into`: how much arrived, what the file holds, and the reader after it. -/
def receiveInto (disk : Disk) (length : Nat) (reader : Feed UInt8 Stop) :
    Except TransferError Nat × Option Bytes × Feed UInt8 Stop :=
  match disk.create with
  | some left =>
    let (e, reader) := drainOwed 0 length reader
    (.error e, left, reader)
  | none =>
    match receiveLoop length 0 length { writes := disk.writes } reader with
    | (.ok taken, file, reader) =>
      -- the flush tells what became of the last write
      if file.lost then (.error (.body taken), some file.bytes, reader)
      else (.ok taken, some file.bytes, reader)
    | (.error e, file, reader) => (.error e, some file.bytes, reader)

def arrivedOf : Except TransferError Nat → Nat
  | .ok arrived => arrived
  | .error (.body arrived) => arrived
  | .error (.socket arrived) => arrived

def tornBy : Except TransferError Nat → Bool
  | .error (.socket _) => true
  | _ => false

/-- What the two uploads do with a request refused before its body: the response, and the body read
off the socket where it is not too much. -/
def refuseUpload (encode : Response J → Option String) (announced : Option Nat) (limit : Nat)
    (socket : Socket) (response : Response J) : Outcome × Socket :=
  let drainable := announced.any fun length => length ≤ limit
  let (_, writer) := writeResponse encode socket.writer response
  if drainable then
    match drain socket.reader (announced.getD 0) with
    | (.ok (), reader) => (.refused, { reader := reader, writer := writer })
    | (.error _, reader) => (.torn, { reader := reader, writer := writer })
  else (.torn, { socket with writer := writer })

/-- And what they do once the body has come. -/
def concludeUpload (encode : Response J → Option String) (received : Except TransferError Nat)
    (response : Response J) (socket : Socket) : Outcome × Socket :=
  let (written, writer) := writeResponse encode socket.writer response
  let outcome :=
    if tornBy received || !written then Outcome.torn
    else if response.status = .ok then .done
    else .refused
  (outcome, { socket with writer := writer })

/-! ## `PUT.BYTES` -/

/-- `transfer_account`. -/
def transferAccount (req : Request) (client : ClientInfo) : Except (Response J) String :=
  match allowedAccount req client with
  | some account => .ok account
  | none =>
    match req.account with
    | some account => .error (refusal .accessDenied
        ("Access denied for account " ++ account ++ ": Not in allowed list"))
    | none => .error (refusal .accountNotSpecified "Account not specified")

structure StagedWrite where
  account : String
  file : String
  key : String
  length : Nat
  deriving DecidableEq, Repr

/-- `stage_bytes`: everything a `PUT.BYTES` can be refused for before its body. -/
def stageBytes (req : Request) (db : Directories) (client : ClientInfo) (made : Option IoError) :
    Except (Response J) StagedWrite := do
  let account ← transferAccount req client
  let file ← requestedFile req
  let some key := req.key.filter fun key => key ≠ ""
    | .error (refusal .missingField "Key not specified")
  let some length := req.length
    | .error (refusal .missingField
        "length not specified: PUT.BYTES announces how many bytes of body follow it")
  if (db.attributes account file).isDirectory then
    match db.stageDirectoryRecord made account file key length with
    | .ok _ => .ok { account := account, file := file, key := key, length := length }
    | .error e => .error (dbError e)
  else
    .error (refusal .invalidRequest ("'" ++ file ++
      "' is not a directory file: PUT.BYTES stores a record that is its bytes, and an ordinary " ++
      "file's records are fields inside a hashed section"))

/-- `commit_bytes`. -/
def commitBytes (staged : StagedWrite) (arrived : Nat) (db : Directories) (left : Option Bytes)
    (failure : Option IoError) : Response J × Directories :=
  match db.commitDirectoryRecord staged.account staged.file staged.key left failure arrived
      staged.length with
  | (.ok (), db) => ({ status := .ok, length := some arrived }, db)
  | (.error e, db) => (dbError e, db)

/-- What goes wrong around an upload. -/
structure Mishaps where
  stagePool : Option String := none
  /-- The directory could not be made. -/
  made : Option IoError := none
  disk : Disk := {}
  commitPool : Option String := none
  /-- The file could not be synced, or renamed over its key. -/
  rename : Option IoError := none

/-- A transfer when it is over. -/
structure Transferred (J D : Type) where
  outcome : Outcome
  response : Response J
  db : D
  socket : Socket

/-- `put_bytes`. `meanwhile` is what the other connections do to the database while the body is on
its way. -/
def putBytes (encode : Response J → Option String) (req : Request) (db : Directories)
    (client : ClientInfo) (maxRecordBytes : Nat) (mishaps : Mishaps)
    (meanwhile : Directories → Directories) (socket : Socket) : Transferred J Directories :=
  match blocking mishaps.stagePool (stageBytes req db client mishaps.made) with
  | .error response =>
    let (outcome, socket) := refuseUpload encode req.length maxRecordBytes socket response
    { outcome := outcome, response := response, db := db, socket := socket }
  | .ok staged =>
    let (received, left, reader) := receiveInto mishaps.disk staged.length socket.reader
    let db := meanwhile db
    let (response, db) :=
      match mishaps.commitPool with
      | some e => (refusal .ioError ("Request failed: " ++ e), db)
      | none => commitBytes staged (arrivedOf received) db left mishaps.rename
    let (outcome, socket) := concludeUpload encode received response { socket with reader := reader }
    { outcome := outcome, response := response, db := db, socket := socket }

/-! ## `IMPORT.BYTES` -/

/-- `import_plan`. -/
def importPlan (req : Request) : Archive.ImportPlan :=
  { intoAccount := req.targetAccount.filter fun name => trim name ≠ ""
    overwrite := req.overwrite.getD false
    dryRun := req.dryRun.getD false }

structure StagedArchive where
  length : Nat
  plan : Archive.ImportPlan
  deriving DecidableEq, Repr

/-- `stage_archive`. `made` is the failure to make the spool directory. -/
def stageArchive (req : Request) (client : ClientInfo) (made : Option IoError) :
    Except (Response J) StagedArchive :=
  if client.isAdmin then
    match req.length with
    | none => .error (refusal .missingField
        "length not specified: IMPORT.BYTES announces how many bytes of archive follow it")
    | some length =>
      match made with
      | some e => .error (dbErrorIn "Import failed" (.io e))
      | none => .ok { length := length, plan := importPlan req }
  else .error (refusal .adminRequired "Admin privileges required")

variable {D : Type}

/-- What an import makes of a spool file: the number of records and a report, and the database
after it. -/
abbrev Importer (J D : Type) :=
  Option Bytes → Archive.ImportPlan → D → Except DbError (Nat × J) × D

/-- `commit_archive`. -/
def commitArchive (importer : Importer J D) (staged : StagedArchive) (arrived : Nat) (db : D)
    (spool : Option Bytes) : Response J × D :=
  if arrived ≠ staged.length then
    (refusal .invalidData ("The archive was announced as " ++ toString staged.length ++
      " bytes and " ++ toString arrived ++ " arrived, so nothing was imported"), db)
  else
    match importer spool staged.plan db with
    | (.ok (records, report), db) =>
      ({ status := .ok, count := some records, archive := some report }, db)
    | (.error e, db) => (dbErrorIn "Import failed" e, db)

def archiveTooLarge (length limit : Nat) : Response J :=
  refusal .invalidData ("The archive is " ++ toString length ++ " bytes, past the " ++
    toString limit ++ " this server accepts on a connection. Write it to a path on the" ++
    "                  server host and use IMPORT instead")

/-- `import_bytes`. -/
def importBytes (encode : Response J → Option String) (importer : Importer J D) (req : Request)
    (db : D) (client : ClientInfo) (maxArchiveBytes : Nat) (mishaps : Mishaps)
    (meanwhile : D → D) (socket : Socket) : Transferred J D :=
  match blocking mishaps.stagePool (stageArchive req client mishaps.made) with
  | .error response =>
    let (outcome, socket) := refuseUpload encode req.length maxArchiveBytes socket response
    { outcome := outcome, response := response, db := db, socket := socket }
  | .ok staged =>
    if maxArchiveBytes < staged.length then
      let response := archiveTooLarge staged.length maxArchiveBytes
      let (_, writer) := writeResponse encode socket.writer response
      { outcome := .torn, response := response, db := db,
        socket := { socket with writer := writer } }
    else
      let (received, spool, reader) := receiveInto mishaps.disk staged.length socket.reader
      let db := meanwhile db
      let (response, db) :=
        match mishaps.commitPool with
        | some e => (refusal .ioError ("Request failed: " ++ e), db)
        | none => commitArchive importer staged (arrivedOf received) db spool
      let (outcome, socket) :=
        concludeUpload encode received response { socket with reader := reader }
      { outcome := outcome, response := response, db := db, socket := socket }

/-! ## Sending a body -/

/-- The loop of `get_bytes` and of `send_archive`: chunks of the file until `owed` bytes are sent. A
pool that fails ends it as a read that fails does. -/
def sendLoop : Nat → Nat → Feed UInt8 IoError → Outlet UInt8 → Outcome × Outlet UInt8
  | _, 0, _, writer => (.done, writer)
  | 0, _ + 1, _, writer => (.torn, writer)
  | fuel + 1, owed + 1, file, writer =>
    let want := min (owed + 1) CHUNK
    match file.take want want with
    | (some (.failed _), _, _) => (.torn, writer)
    | (_, [], _) => (.torn, writer)
    | (_, chunk, file) =>
      match writer.writeAll chunk with
      | (false, writer) => (.torn, writer)
      | (true, writer) => sendLoop fuel (owed + 1 - chunk.length) file writer

/-- What is announced and then sent. -/
structure Opened where
  file : Feed UInt8 IoError
  length : Nat

/-- The OK line, and the body after it. -/
def sendBody (encode : Response J → Option String) (opened : Opened) (report : Option J)
    (writer : Outlet UInt8) : Outcome × Outlet UInt8 :=
  match writeResponse encode writer
      { status := .ok, length := some opened.length, archive := report } with
  | (false, writer) => (.torn, writer)
  | (true, writer) => sendLoop opened.length opened.length opened.file writer

/-- A request for a body that is refused, which leaves nothing on the socket. -/
def refuseDownload (encode : Response J → Option String) (writer : Outlet UInt8)
    (response : Response J) : Outcome × Outlet UInt8 :=
  match writeResponse encode writer response with
  | (true, writer) => (.refused, writer)
  | (false, writer) => (.torn, writer)

/-- `open_bytes`. `found` is what opening the record finds. -/
def openBytes (req : Request) (db : Directories) (client : ClientInfo)
    (found : String → String → Except DbError (Option Opened)) : Except (Response J) Opened := do
  let account ← transferAccount req client
  let file ← requestedFile req
  let some key := req.key.filter fun key => key ≠ ""
    | .error (refusal .missingField "Key not specified")
  if (db.attributes account file).isDirectory then
    match db.directoryRoot account file with
    | .error e => .error (dbError e)
    | .ok root =>
      match Directory.validateKey key with
      | .error e => .error (dbError e)
      | .ok () =>
        match found root key with
        | .error e => .error (dbError e)
        | .ok none => .error (refusal .recordNotFound "Record not found")
        | .ok (some opened) =>
          if db.maxRecordBytes < opened.length then
            .error (dbError (Directory.oversize key opened.length db.maxRecordBytes "read"))
          else .ok opened
  else
    .error (refusal .invalidRequest ("'" ++ file ++
      "' is not a directory file: GET.BYTES sends a record that is its bytes, and an ordinary " ++
      "file's records are fields inside a hashed section"))

/-- `get_bytes`. -/
def getBytes (encode : Response J → Option String) (req : Request) (db : Directories)
    (client : ClientInfo) (pool : Option String)
    (found : String → String → Except DbError (Option Opened)) (writer : Outlet UInt8) :
    Outcome × Outlet UInt8 :=
  match blocking pool (openBytes req db client found) with
  | .error response => refuseDownload encode writer response
  | .ok opened => sendBody encode opened none writer

/-- `export_source`, for `EXPORT.BYTES`: a file if it names one, an account if it names one,
everything otherwise. -/
def exportSource (req : Request) (account : String) : Except (Response J) Archive.Source :=
  if req.file.any fun file => trim file ≠ "" then
    (requestedFile req).map (Archive.Source.file account)
  else if req.targetAccount.any fun name => trim name ≠ "" then
    .ok (.account ((req.targetAccount.filter fun name => trim name ≠ "").getD account))
  else .ok .all

/-- `open_archive`. `produce` is the export into a spool file: what opening it finds, and its
report. -/
def openArchive (req : Request) (client : ClientInfo)
    (produce : Archive.Source → Except DbError (Opened × J)) : Except (Response J) (Opened × J) := do
  if client.isAdmin then
    let account := (transferAccount (J := J) req client).toOption.getD ""
    let source ← exportSource req account
    match produce source with
    | .error e => .error (dbErrorIn "Export failed" e)
    | .ok found => .ok found
  else .error (refusal .adminRequired "Admin privileges required")

/-- `export_bytes`. -/
def exportBytes (encode : Response J → Option String) (req : Request) (client : ClientInfo)
    (pool : Option String) (produce : Archive.Source → Except DbError (Opened × J))
    (writer : Outlet UInt8) : Outcome × Outlet UInt8 :=
  match blocking pool (openArchive req client produce) with
  | .error response => refuseDownload encode writer response
  | .ok (opened, report) => sendBody encode opened (some report) writer

end Transfer

end RustyPick
