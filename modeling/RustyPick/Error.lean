import RustyPick.Text

/-!
# RustyPick.Error

What the engine says went wrong (`db/error.rs`), with the I/O failures it passes on.
-/

namespace RustyPick

/-- An `io::Error`: its kind and, where the engine made it, its text. -/
inductive IoError where
  | invalidData (detail : String)
  | invalidInput (detail : String)
  | permissionDenied (detail : String)
  | unexpectedEof
  | other (detail : String)
  deriving DecidableEq, Repr

inductive DbError where
  | noAccount
  | accountNotFound (account : String)
  | accountExists (account : String)
  | accountProtected (account : String)
  | fileNotFound (account file : String)
  | fileExists (account file : String)
  | indexExists (file field : String)
  | indexNotFound (file field : String)
  | invalidField (field reason : String)
  | invalidRequest (detail : String)
  | transactionScope (detail : String)
  | preconditionFailed (detail : String)
  | io (error : IoError)
  deriving DecidableEq, Repr

def IoError.text : IoError → String
  | .invalidData detail => detail
  | .invalidInput detail => detail
  | .permissionDenied detail => detail
  | .unexpectedEof => "failed to fill whole buffer"
  | .other detail => detail

/-- The error as it is shown. -/
def DbError.text : DbError → String
  | .noAccount => "Not logged into an account"
  | .accountNotFound name => "Account '" ++ name ++ "' not found"
  | .accountExists name => "Account '" ++ name ++ "' already exists"
  | .accountProtected name => "Cannot delete " ++ name ++ " account"
  | .fileNotFound account file =>
    "Table '" ++ file ++ "' not found in account '" ++ account ++ "'"
  | .fileExists account file =>
    "Table '" ++ file ++ "' already exists in account '" ++ account ++ "'"
  | .indexExists file field => "'" ++ field ++ "' is already indexed on file '" ++ file ++ "'"
  | .indexNotFound file field => "'" ++ field ++ "' is not indexed on file '" ++ file ++ "'"
  | .invalidField field reason => "'" ++ field ++ "' cannot be indexed: " ++ reason
  | .invalidRequest detail => detail
  | .transactionScope detail => detail
  | .preconditionFailed detail => detail
  | .io error => error.text

end RustyPick
