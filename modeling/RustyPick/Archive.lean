import RustyPick.FileAttributes
import RustyPick.GroupFile
import RustyPick.Error
import RustyPick.Lib.Feed

/-!
# RustyPick.Archive

The archive format (`db/archive.rs`): a writer that is told of the files one after the other, and a
reader that hands what it reads to a sink.

The two documents in it, the manifest and the trailer, are JSON, and what turns them into bytes and
back is not part of the repository: `Documents` stands for it. A sink reads the body of a record as
it likes, so it is a `Reading`, and the reader takes what it leaves.
-/

namespace RustyPick

open Lib

namespace Archive

def MAGIC : Bytes := [0x53, 0x52, 0x50, 0x41, 0x52, 0x43, 0x30, 0x31]

def CURRENT : Nat := 1

def OLDEST_SUPPORTED : Nat := 1

def CHUNK : Nat := 64 * 1024

def MAX_DOCUMENT_BYTES : Nat := 64 * 1024 * 1024

def MAX_KEY_BYTES : Nat := 255

def TAG_RECORD : UInt8 := 1
def TAG_DICT : UInt8 := 2
def TAG_END_OF_FILE : UInt8 := 0
def TAG_END_OF_ARCHIVE : UInt8 := 0xFF

inductive RecordKind where
  | data
  | dictionary
  deriving DecidableEq, Repr

def RecordKind.tag : RecordKind → UInt8
  | .data => TAG_RECORD
  | .dictionary => TAG_DICT

inductive Source where
  | file (account file : String)
  | account (account : String)
  | all
  deriving DecidableEq, Repr

inductive Kind where
  | file
  | queue
  | directory
  deriving DecidableEq, Repr

structure IndexEntry where
  field : String
  excluded : List String := []
  deriving DecidableEq, Repr

/-- A file's shape: everything about it that is not one of its records. -/
structure FileEntry where
  account : String
  name : String
  kind : Kind
  durable : Bool := false
  autokey : Bool := false
  visibilityTimeout : Option Nat := none
  maxDeliveries : Option Nat := none
  path : Option String := none
  indexes : List IndexEntry := []
  deriving DecidableEq, Repr

namespace FileEntry

/-- The file's shape for creating it on restore. A directory file's path stays behind. -/
def attributes (entry : FileEntry) : FileAttributes :=
  match entry.kind with
  | .directory => { directory := some {} }
  | .queue =>
    let policy : QueuePolicy := {}
    { durable := entry.durable
      queue := some
        { visibility := (entry.visibilityTimeout.map fun seconds => seconds * 1000).getD
            policy.visibility
          maxDeliveries := entry.maxDeliveries.getD policy.maxDeliveries }
      autokey := entry.autokey }
  | .file => { durable := entry.durable, autokey := entry.autokey }

/-- The archive's description of a file the engine has. -/
def of (account name : String) (a : FileAttributes) (indexes : List IndexEntry) : FileEntry :=
  { account := account
    name := name
    kind := if a.directory.isSome then .directory else if a.queue.isSome then .queue else .file
    durable := a.durable
    autokey := a.autokey
    visibilityTimeout := a.queue.map QueuePolicy.visibilitySeconds
    maxDeliveries := a.queue.map QueuePolicy.maxDeliveries
    path := a.directory.bind DirectoryPolicy.explicitPath
    indexes := indexes }

def isDirectory (entry : FileEntry) : Bool := entry.kind = .directory

end FileEntry

structure Manifest where
  archiveFormat : Nat
  storageFormat : Nat
  takenMillis : Nat
  source : Source
  files : List FileEntry
  deriving DecidableEq, Repr

structure FileCounts where
  account : String
  name : String
  records : Nat := 0
  dictionary : Nat := 0
  bytes : Nat := 0
  deriving DecidableEq, Repr

structure Trailer where
  files : List FileCounts
  deriving DecidableEq, Repr

structure Summary where
  manifest : Manifest
  trailer : Trailer
  archiveBytes : Nat
  deriving DecidableEq, Repr

/-- What an import is asked to do. -/
structure ImportPlan where
  intoAccount : Option String := none
  overwrite : Bool := false
  dryRun : Bool := false
  deriving DecidableEq, Repr

/-- Bytes in memory. No buffer is longer than a length can say. -/
structure Buffer where
  bytes : Bytes
  fits : bytes.length < 2 ^ 64

/-- The JSON library: documents to bytes, and bytes to documents. -/
structure Documents where
  writeManifest : Manifest → Except String Buffer
  writeTrailer : Trailer → Except String Buffer
  readManifest : Bytes → Except String Manifest
  readTrailer : Bytes → Except String Trailer

def refused (detail : String) : DbError := .invalidRequest ("Not a usable archive: " ++ detail)

/-! ## Writing -/

structure Writer where
  /-- What the writer has put into its sink. -/
  sink : Bytes := []
  crc : UInt32 := 0xFFFFFFFF
  written : Nat := 0
  manifest : Manifest
  opened : Option Nat := none
  next : Nat := 0
  counts : List FileCounts := []

namespace Writer

def put (w : Writer) (bytes : Bytes) : Writer :=
  { w with
    sink := w.sink ++ bytes
    crc := bytes.foldl crcByte w.crc
    written := w.written + bytes.length }

def putBlob (w : Writer) (bytes : Bytes) : Writer := (w.put (toLE 8 bytes.length)).put bytes

/-- `Writer::begin`: the magic and the manifest. -/
def begin (docs : Documents) (manifest : Manifest) : Except DbError Writer :=
  match docs.writeManifest manifest with
  | .error e => .error (.invalidRequest ("The manifest cannot be written: " ++ e))
  | .ok document => .ok (({ manifest := manifest : Writer }.put MAGIC).putBlob document.bytes)

def beginFile (w : Writer) : Except DbError Writer :=
  if w.opened.isSome then .error (refused "a file's records were left open")
  else
    match w.manifest.files[w.next]? with
    | none => .error (refused "more files were written than the manifest describes")
    | some entry => .ok { w with
        counts := w.counts ++ [{ account := entry.account, name := entry.name }]
        opened := some w.next }

def openRecord (w : Writer) (kind : RecordKind) (key : String) (len : Nat) :
    Except DbError Writer :=
  if w.opened.isNone then .error (refused "a record was written outside any file")
  else .ok (((w.put [kind.tag]).putBlob (utf8 key)).put (toLE 8 len))

/-- One more record, in the counts of the file being written. -/
def noted (kind : RecordKind) (len : Nat) (counts : FileCounts) : FileCounts :=
  match kind with
  | .data => { counts with records := counts.records + 1, bytes := counts.bytes + len }
  | .dictionary => { counts with dictionary := counts.dictionary + 1, bytes := counts.bytes + len }

def note (w : Writer) (kind : RecordKind) (len : Nat) : Writer :=
  match w.counts.getLast? with
  | none => w
  | some counts => { w with counts := w.counts.dropLast ++ [noted kind len counts] }

/-- One record whose bytes are in hand. -/
def record (w : Writer) (kind : RecordKind) (key : String) (bytes : Bytes) :
    Except DbError Writer :=
  match w.openRecord kind key bytes.length with
  | .error e => .error e
  | .ok w => .ok ((w.put bytes).note kind bytes.length)

/-- One record streamed out of `body`, which is put as it is read. -/
def recordFrom (w : Writer) (kind : RecordKind) (key : String) (len : Nat)
    (body : Feed UInt8 IoError) : Except DbError Writer :=
  match w.openRecord kind key len with
  | .error e => .error e
  | .ok w =>
    match body.take (min (max len 1) CHUNK) len with
    | (none, got, _) => .ok ((w.put got).note kind len)
    | (some .ended, got, _) => .error (refused ("record '" ++ key ++ "' announced " ++
        toString len ++ " bytes and ran out " ++ toString (len - got.length) ++ " short"))
    | (some (.failed e), _, _) => .error (.io e)

def endFile (w : Writer) : Except DbError Writer :=
  if w.opened.isNone then .error (refused "a file's records were ended without being begun")
  else .ok { ({ w with opened := none } : Writer).put [TAG_END_OF_FILE] with next := w.next + 1 }

/-- `Writer::finish`: the trailer and the checksum, which is over every byte before it. -/
def finish (docs : Documents) (w : Writer) : Except DbError (Trailer × Bytes) :=
  if w.opened.isSome then
    .error (refused "the archive was finished with a file's records still open")
  else if w.next ≠ w.manifest.files.length then
    .error (refused ("the manifest describes " ++ toString w.manifest.files.length ++
      " files and " ++ toString w.next ++ " were written"))
  else
    let trailer : Trailer := { files := w.counts }
    match docs.writeTrailer trailer with
    | .error e => .error (.invalidRequest ("The trailer cannot be written: " ++ e))
    | .ok document =>
      let w := (w.put [TAG_END_OF_ARCHIVE]).putBlob document.bytes
      .ok (trailer, w.sink ++ toLE 4 (~~~ w.crc).toNat)

end Writer

/-- A record as an export comes by it: in hand, or to be streamed at a length that was found out
before. -/
inductive Body where
  | inHand (buffer : Buffer)
  | streamed (len : UInt64) (body : Feed UInt8 IoError)

structure Entry where
  kind : RecordKind
  key : String
  body : Body
  keyFits : (utf8 key).length < 2 ^ 64

def Writer.entry (w : Writer) (e : Entry) : Except DbError Writer :=
  match e.body with
  | .inHand buffer => w.record e.kind e.key buffer.bytes
  | .streamed len body => w.recordFrom e.kind e.key len.toNat body

def Writer.entries (w : Writer) : List Entry → Except DbError Writer
  | [] => .ok w
  | e :: rest =>
    match w.entry e with
    | .error e => .error e
    | .ok w => w.entries rest

/-- The files of an export, one after the other. -/
def Writer.files (w : Writer) : List (List Entry) → Except DbError Writer
  | [] => .ok w
  | file :: rest =>
    match w.beginFile with
    | .error e => .error e
    | .ok w =>
      match w.entries file with
      | .error e => .error e
      | .ok w =>
        match w.endFile with
        | .error e => .error e
        | .ok w => w.files rest

/-- The body of `export`: the manifest, every file's entries, and the end. -/
def write (docs : Documents) (manifest : Manifest) (files : List (List Entry)) :
    Except DbError (Trailer × Bytes) :=
  match Writer.begin docs manifest with
  | .error e => .error e
  | .ok w =>
    match w.files files with
    | .error e => .error e
    | .ok w => w.finish docs

/-! ## Reading -/

/-- Where an archive's records go as it is read. `record` reads the body it is given, and is bounded
to it. -/
structure Sink (σ : Type) where
  beginFile : σ → Nat → FileEntry → Except DbError Unit × σ
  record : σ → FileEntry → RecordKind → String → Nat →
    Reading UInt8 IoError (Except DbError Unit × σ)
  endFile : σ → FileEntry → Except DbError Unit × σ

/-- `Discard`: the verify pass. -/
def discard : Sink Unit where
  beginFile := fun st _ _ => (.ok (), st)
  record := fun st _ _ _ _ => .done (.ok (), st)
  endFile := fun st _ => (.ok (), st)

/-- An archive that stops early. -/
def short (what : String) : Short IoError → DbError
  | .ended => refused ("it ends part way through " ++ what ++ ". It is truncated")
  | .failed e => .io e

structure Reader where
  source : Feed UInt8 IoError
  crc : UInt32 := 0xFFFFFFFF
  read : Nat := 0

namespace Reader

/-- Exactly `n` bytes, into the checksum. -/
def exactly (r : Reader) (n : Nat) (what : String) : Except DbError (Bytes × Reader) :=
  match r.source.readExact n with
  | (.error e, _) => .error (short what e)
  | (.ok bytes, source) =>
    .ok (bytes, { source := source, crc := bytes.foldl crcByte r.crc, read := r.read + n })

def byte (r : Reader) : Except DbError (UInt8 × Reader) :=
  (r.exactly 1 "a record tag").map fun (bytes, r) => (bytes.headD 0, r)

def length (r : Reader) (what : String) : Except DbError (Nat × Reader) :=
  (r.exactly 8 ("the length of " ++ what)).map fun (bytes, r) => (ofLE bytes, r)

def key (r : Reader) : Except DbError (String × Reader) :=
  match r.length "a key" with
  | .error e => .error e
  | .ok (len, r) =>
    if MAX_KEY_BYTES < len then
      .error (refused ("a key of " ++ toString len ++ " bytes, past the " ++
        toString MAX_KEY_BYTES ++ " a key may be"))
    else
      match r.exactly len "a key" with
      | .error e => .error e
      | .ok (bytes, r) =>
        match fromUtf8? bytes with
        | none => .error (refused "a key that is not text")
        | some key => .ok (key, r)

/-- A document, bounded before it is read. -/
def document {T : Type} (r : Reader) (parse : Bytes → Except String T) (what : String) :
    Except DbError (T × Reader) :=
  match r.length what with
  | .error e => .error e
  | .ok (len, r) =>
    if MAX_DOCUMENT_BYTES < len then
      .error (refused ("its " ++ what ++ " claims to be " ++ toString len ++ " bytes, past the " ++
        toString MAX_DOCUMENT_BYTES ++ " one may be. It is damaged"))
    else
      match r.exactly len what with
      | .error e => .error e
      | .ok (bytes, r) =>
        match parse bytes with
        | .error e => .error (refused ("its " ++ what ++ " does not decode: " ++ e))
        | .ok document => .ok (document, r)

/-- The next `len` bytes given to a sink, and what it leaves of them taken: the sink's own failure
is the one reported. -/
def bounded {σ : Type} (r : Reader) (len : Nat)
    (body : Reading UInt8 IoError (Except DbError Unit × σ)) : Except DbError Reader × σ :=
  let ((outcome, st), taken, left, source) := body.run len r.source
  let (stopped, drained, source) := source.take CHUNK left
  match outcome, stopped with
  | .error e, _ => (.error e, st)
  | .ok (), some e => (.error (short "a record" e), st)
  | .ok (), none =>
    (.ok
      { source := source
        crc := (taken ++ drained).foldl crcByte r.crc
        read := r.read + (taken ++ drained).length }, st)

end Reader

def kindOf (tag : UInt8) : Option RecordKind :=
  if tag = TAG_RECORD then some .data else if tag = TAG_DICT then some .dictionary else none

def hexDigits (n width : Nat) : String :=
  let digits := Nat.toDigits 16 n
  String.ofList (List.replicate (width - digits.length) '0' ++ digits)

/-- One pass of the loop over a file's entries: `true` where it ends. -/
def readEntry {σ : Type} (sink : Sink σ) (entry : FileEntry) (st : σ) (r : Reader) :
    Except DbError (Bool × Reader) × σ :=
  match r.byte with
  | .error e => (.error e, st)
  | .ok (tag, r) =>
    if tag = TAG_END_OF_FILE then (.ok (true, r), st)
    else
      match kindOf tag with
      | none => (.error (refused ("an unknown record tag 0x" ++ hexDigits tag.toNat 2 ++
          " inside file '" ++ entry.name ++ "'")), st)
      | some kind =>
        match r.key with
        | .error e => (.error e, st)
        | .ok (key, r) =>
          match r.length "a record" with
          | .error e => (.error e, st)
          | .ok (len, r) =>
            match r.bounded len (sink.record st entry kind key len) with
            | (.error e, st) => (.error e, st)
            | (.ok r, st) => (.ok (false, r), st)

end Archive

end RustyPick
