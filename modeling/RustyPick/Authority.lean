import RustyPick.Protocol
import RustyPick.Clients

/-!
# RustyPick.Authority

What a request may do, by the description of the client that sends it (`server/handler.rs`).

* `access_refused`: a request that names an account its client may not reach is refused, unless it
  is an `ENQUEUE` or a `FILE.STATS` of a file the client has a grant for.
-/

namespace RustyPick

/-! ## Accounts -/

/-- `may_reach`. -/
def ClientInfo.mayReach (client : ClientInfo) (account : String) : Bool :=
  client.isAdmin || client.allowedAccounts.contains account

/-- `allowed_account`: the account a request runs in, where the client may reach it. -/
def allowedAccount (req : Request) (client : ClientInfo) : Option String :=
  match req.account with
  | some account => if client.mayReach account then some account else none
  | none =>
    match client.allowedAccounts with
    | [account] => some account
    | _ => none

/-- `may_enqueue`. -/
def ClientInfo.mayEnqueue (client : ClientInfo) (account file : String) : Bool :=
  client.enqueueFiles.any fun grant => grant.account = account && grant.file = file

/-- `can`: an administrator has every capability. -/
def ClientInfo.can (client : ClientInfo) (capability : Capability) : Bool :=
  client.isAdmin || client.capabilities.contains capability

/-- What is decided about a request before its command runs: the account it runs in, if any. -/
inductive Access where
  | refused (code : ErrorCode) (message : String)
  | granted (account : Option String)
  deriving DecidableEq, Repr

def accessDenied (account : String) : Access :=
  .refused .accessDenied ("Access denied for account " ++ account ++ ": Not in allowed list")

def accountNotSpecified : Access := .refused .accountNotSpecified "Account not specified"

def adminRequired : Access := .refused .adminRequired "Admin privileges required"

/-! ## Ordinary commands -/

def Capability.asStr : Capability → String
  | .accountsManage => "accounts:manage"
  | .clientsManage => "clients:manage"
  | .serverObserve => "server:observe"

/-- `capability_required`. -/
def capabilityRequired (capability : Capability) : Access :=
  .refused .adminRequired ("Not authorized: this command requires ADMIN or the '" ++
    capability.asStr ++ "' capability")

/-- The commands that run without an account. -/
def needsNoCurrentAccount (command : String) : Bool :=
  command ∈ ["GET.NEXT", "CREATE.ACCOUNT", "DELETE.ACCOUNT", "CREATE.TEST.ACCOUNT",
    "AUTHORIZE.CONN", "DEAUTHORIZE.CONN", "ADD.CLIENT.ACCOUNT", "REMOVE.CLIENT.ACCOUNT",
    "GENERATE.CERT", "LIST.CONNS", "SERVER.STATS"]

/-- The commands whose arm refuses a request without an account. -/
def insistsOnAccount (command : String) : Bool :=
  command ∈ ["READ", "WRITE", "DELETE", "QUERY", "TRANSACT", "ENQUEUE", "DEQUEUE", "ACK", "NACK",
    "PEEK", "SELECT", "CREATE.FILE", "SET.FILE", "DELETE.FILE", "CREATE.INDEX",
    "SET.INDEX.EXCLUDE", "INDEX.STATS", "REBUILD.INDEX", "DELETE.INDEX", "LIST.INDEXES",
    "LIST.FILES", "FILE.STATS", "LIST.DICT", "SET.DICT"]

/-- The capability a command asks for. -/
def requiredCapability (command : String) : Option Capability :=
  if command ∈ ["CREATE.ACCOUNT", "CREATE.TEST.ACCOUNT", "DELETE.ACCOUNT"] then
    some .accountsManage
  else if command ∈ ["AUTHORIZE.CONN", "DEAUTHORIZE.CONN", "ADD.CLIENT.ACCOUNT",
      "REMOVE.CLIENT.ACCOUNT", "GENERATE.CERT"] then
    some .clientsManage
  else if command ∈ ["LIST.CONNS", "SERVER.STATS"] then some .serverObserve
  else none

def requiresAdmin (command : String) : Bool :=
  command ∈ ["EXPORT.FILE", "EXPORT.ACCOUNT", "EXPORT.ALL", "IMPORT"]

/-- `enqueue_grant_target`: the account a grant lets the request into. -/
def enqueueGrantTarget (command : String) (req : Request) (client : ClientInfo) : Option String :=
  if command ∈ ["ENQUEUE", "FILE.STATS"] then
    match req.account, req.file with
    | some account, some file =>
      if !client.mayReach account && client.mayEnqueue account file then some account else none
    | _, _ => none
  else none

/-- What the arm of a command checks of its client, the account being settled. `lists` is the
account each held select list was made in. -/
def commandAccess (lists : String → Option String) (command : String) (req : Request)
    (client : ClientInfo) (account : Option String) : Access :=
  match requiredCapability command with
  | some capability =>
    if client.can capability then .granted account else capabilityRequired capability
  | none =>
    if requiresAdmin command && !client.isAdmin then adminRequired
    else if insistsOnAccount command && account.isNone then accountNotSpecified
    else if command = "GET.NEXT" then
      match lists (req.listName.getD "DEFAULT") with
      | none => .refused .selectListNotFound "Select list not found"
      | some held => if client.mayReach held then .granted (some held) else accessDenied held
    else .granted account

/-- The account check of `handle_request_locked`, and what the arm checks after it. A record command
that `handle_request` takes itself runs in the same account. -/
def lockedAccess (lists : String → Option String) (command : String) (req : Request)
    (client : ClientInfo) : Access :=
  match req.account with
  | some account =>
    if client.mayReach account then commandAccess lists command req client (some account)
    else accessDenied account
  | none =>
    match client.allowedAccounts with
    | [account] => commandAccess lists command req client (some account)
    | _ =>
      if client.isAdmin || needsNoCurrentAccount command then
        commandAccess lists command req client none
      else accountNotSpecified

def ordinaryAccess (lists : String → Option String) (command : String) (req : Request)
    (client : ClientInfo) : Access :=
  match enqueueGrantTarget command req client with
  | some account => .granted (some account)
  | none => lockedAccess lists command req client

/-! ## Transfers -/

/-- `is_transfer_command`. -/
def isTransferCommand (command : String) : Bool :=
  command ∈ ["PUT.BYTES", "GET.BYTES", "EXPORT.BYTES", "IMPORT.BYTES"]

/-- What the four transfers check of their client. -/
def transferAccess (command : String) (req : Request) (client : ClientInfo) : Access :=
  if command ∈ ["PUT.BYTES", "GET.BYTES"] then
    match allowedAccount req client with
    | some account => .granted (some account)
    | none =>
      match req.account with
      | some account => accessDenied account
      | none => accountNotSpecified
  else if client.isAdmin then .granted (allowedAccount req client)
  else adminRequired

def access (lists : String → Option String) (command : String) (req : Request)
    (client : ClientInfo) : Access :=
  if isTransferCommand command then transferAccess command req client
  else ordinaryAccess lists command req client

/-- Only two commands are let in by a grant, and only on the file they name. -/
theorem enqueueGrantTarget_none {command : String} {req : Request} {client : ClientInfo}
    {account : String} (haccount : req.account = some account)
    (h : command ∉ ["ENQUEUE", "FILE.STATS"] ∨
      ∀ file, req.file = some file → client.mayEnqueue account file = false) :
    enqueueGrantTarget command req client = none := by
  unfold enqueueGrantTarget
  rcases h with hcommand | hgrant
  · exact if_neg hcommand
  · rw [haccount]
    split
    · cases hfile : req.file with
      | none => rfl
      | some file => simp [hgrant file hfile]
    · rfl

theorem access_refused {lists : String → Option String} {command : String} {req : Request}
    {client : ClientInfo} {account : String} (haccount : req.account = some account)
    (hreach : client.mayReach account = false)
    (hgrant : enqueueGrantTarget command req client = none) :
    ∃ code message, access lists command req client = .refused code message := by
  have hallowed : allowedAccount req client = none := by simp [allowedAccount, haccount, hreach]
  have hadmin : client.isAdmin = false := by
    unfold ClientInfo.mayReach at hreach
    exact (Bool.or_eq_false_iff.mp hreach).1
  unfold access
  split
  · unfold transferAccess
    rw [hallowed, haccount, hadmin]
    dsimp only
    split
    · exact ⟨_, _, rfl⟩
    · exact ⟨_, _, rfl⟩
  · unfold ordinaryAccess lockedAccess
    rw [hgrant, haccount]
    dsimp only
    rw [hreach]
    exact ⟨_, _, rfl⟩

end RustyPick
