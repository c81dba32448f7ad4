import RustyPick.Error

/-!
# RustyPick.Protocol

A request line and the line that answers it (`server/models.rs`), with the fields the commands
modelled here read and fill in.

`J` is what a JSON value is; nothing here looks into one.
-/

namespace RustyPick

/-- The classification a client branches on. -/
inductive ErrorCode where
  | missingField
  | invalidData
  | invalidQuery
  | invalidJson
  | unknownCommand
  | adminRequired
  | accessDenied
  | deauthorized
  | accountNotSpecified
  | accountNotFound
  | accountExists
  | accountProtected
  | fileNotFound
  | fileExists
  | recordNotFound
  | selectListNotFound
  | clientNotFound
  | indexNotFound
  | indexExists
  | invalidField
  | invalidRequest
  | preconditionFailed
  | transactionScope
  | corruptData
  | permissionDenied
  | ioError
  | unavailable
  deriving DecidableEq, Repr

def ErrorCode.ofIo : IoError → ErrorCode
  | .permissionDenied _ => .permissionDenied
  | .invalidData _ => .corruptData
  | .invalidInput _ => .invalidData
  | .unexpectedEof => .ioError
  | .other _ => .ioError

def ErrorCode.ofDb : DbError → ErrorCode
  | .noAccount => .accountNotSpecified
  | .accountNotFound _ => .accountNotFound
  | .accountExists _ => .accountExists
  | .accountProtected _ => .accountProtected
  | .fileNotFound _ _ => .fileNotFound
  | .fileExists _ _ => .fileExists
  | .indexExists _ _ => .indexExists
  | .indexNotFound _ _ => .indexNotFound
  | .invalidField _ _ => .invalidField
  | .invalidRequest _ => .invalidRequest
  | .transactionScope _ => .transactionScope
  | .preconditionFailed _ => .preconditionFailed
  | .io error => .ofIo error

inductive Status where
  | ok
  | eof
  | error
  deriving DecidableEq, Repr

/-- Where in an exploded field a row comes from. -/
structure ValuePosition where
  value : Nat
  subValue : Option Nat := none
  deriving DecidableEq, Repr

structure Response (J : Type) where
  status : Status
  message : Option String := none
  code : Option ErrorCode := none
  results : Option (List (String × J)) := none
  count : Option Nat := none
  positions : Option (List (Option ValuePosition)) := none
  length : Option Nat := none
  archive : Option J := none
  deriving DecidableEq, Repr

structure Request where
  command : String := ""
  account : Option String := none
  targetAccount : Option String := none
  file : Option String := none
  key : Option String := none
  length : Option Nat := none
  path : Option String := none
  overwrite : Option Bool := none
  dryRun : Option Bool := none
  isDict : Option Bool := none
  listName : Option String := none
  batchSize : Option Nat := none
  deriving DecidableEq, Repr

variable {J : Type}

/-- `error`: a refusal with its code. -/
def refusal (code : ErrorCode) (message : String) : Response J :=
  { status := .error, message := some message, code := some code }

/-- `db_error`. -/
def dbError (e : DbError) : Response J := refusal (.ofDb e) e.text

/-- `db_error_in`: with what was attempted in front. -/
def dbErrorIn (context : String) (e : DbError) : Response J :=
  refusal (.ofDb e) (context ++ ": " ++ e.text)

/-- `requested_file`. -/
def requestedFile (req : Request) : Except (Response J) String :=
  match req.file with
  | some file => .ok file
  | none => .error (refusal .missingField "File not specified")

/-! ## A response on the wire -/

/-- What stands for a response that does not encode. -/
def unencodable : String :=
  "\x7b\"status\":\"ERROR\",\"message\":\"Response could not be encoded\"\x7d"

/-- The bytes of a response: its text, and a newline. -/
def responseLine (encode : Response J → Option String) (response : Response J) : Bytes :=
  utf8 ((encode response).getD unencodable) ++ [10]

/-- One line: a newline at its end and nowhere else. -/
def IsLine (bytes : Bytes) : Prop := ∃ text : Bytes, bytes = text ++ [10] ∧ 10 ∉ text

/-- The encoder writes no newline: within a string it is escaped, and between values there is
none. -/
def Compact (encode : Response J → Option String) : Prop :=
  ∀ response text, encode response = some text → 10 ∉ utf8 text

theorem isLine_responseLine {encode : Response J → Option String} (h : Compact encode)
    (response : Response J) : IsLine (responseLine encode response) := by
  refine ⟨_, rfl, ?_⟩
  cases he : encode response with
  | none => decide +kernel
  | some text => exact h response text he

end RustyPick
