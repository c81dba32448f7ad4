import RustyPick.Sequence

/-!
# RustyPick.Queue

The order and the claims of one queue file (`db/queue.rs`).

Every record of a queue is in one of three collections: `available`, in key order; `claims`, with
who holds it and until when; `held`, not yet due, earliest first. `deliveries` and `due` are two
side maps. Claims are in memory only; the sequence number, the delivery counts and the due times
are what `PersistedQueue` writes down.

A `BTreeSet` is a `Finset` whose `first` is what the code pops; a `Duration` is its number of
milliseconds.
-/

namespace RustyPick

open Lib

def DEAD_LETTER_SUFFIX : String := ".DEAD"

/-- True when `name` names a dead-letter file rather than a live queue. -/
def isDeadLetterName (name : String) : Bool := DEAD_LETTER_SUFFIX.toList.isSuffixOf name.toList

def u32Max : Nat := 2 ^ 32 - 1

/-- How long a claim lasts, in milliseconds, and how many deliveries a record gets. -/
structure QueuePolicy where
  visibility : Nat := 60000
  maxDeliveries : Nat := 5
  deriving DecidableEq, Repr

/-- A claim one consumer holds on one record. -/
structure Claim where
  owner : String
  expiresMillis : Nat
  deriving DecidableEq, Repr

def Claim.hasLapsed (c : Claim) (nowMillis : Nat) : Bool := c.expiresMillis ≤ nowMillis

/-- What a sweep of the expired claims decided. -/
structure Expired where
  returned : List String := []
  dead : List String := []
  deriving DecidableEq, Repr

/-- Why a record could not be acknowledged or returned. -/
inductive ClaimError where
  | notFound
  | notClaimed
  | heldBy (holder : String)
  deriving DecidableEq, Repr

/-- A due time with the key it belongs to, ordered by time and then by key. -/
abbrev DueEntry := Nat ×ₗ String

def dueEntry (millis : Nat) (key : String) : DueEntry := toLex (millis, key)

/-- The part of a queue's state that outlives the process. -/
structure PersistedQueue where
  nextSequence : Nat := 0
  next_le : nextSequence ≤ u64Max := by decide
  deliveries : List (String × Nat) := []
  due : List (String × Nat) := []

/-- What is read where there is no `queue` file. -/
def PersistedQueue.absent : PersistedQueue := {}

structure QueueState where
  /-- The counter this queue's keys are minted from. -/
  sequence : Sequence := {}
  /-- Keys nobody is holding, in arrival order. -/
  available : Finset String := ∅
  /-- Keys somebody is holding, and who. -/
  claims : Map String Claim := ∅
  /-- How many times each record has been delivered. -/
  deliveries : Map String Nat := ∅
  /-- When each record that was held back became, or becomes, claimable. -/
  due : Map String Nat := ∅
  /-- The records not yet due, earliest first. -/
  held : Finset DueEntry := ∅
  dirty : Bool := false

namespace QueueState

/-- The order over records that have just been read, with what the `queue` file remembered. -/
def attach {R : Type} (records : Map String R) (persisted : PersistedQueue) : QueueState :=
  let due := retain (fun key => records.contains key) (Std.ExtTreeMap.ofList persisted.due)
  { sequence := records.keys.foldl Sequence.raisePast 
      (Sequence.restored persisted.nextSequence persisted.next_le)
    available := (dom records).filter fun key => due[key]? = none
    held := (dom records).biUnion fun key =>
      match due[key]? with
      | some millis => {dueEntry millis key}
      | none => ∅
    claims := ∅
    deliveries :=
      retain (fun key => records.contains key) (Std.ExtTreeMap.ofList persisted.deliveries)
    due := due
    dirty := false }

/-- Takes `key` out of the held set, leaving its due time recorded. -/
def unhold (q : QueueState) (key : String) : QueueState :=
  match q.due[key]? with
  | some millis =>
    if dueEntry millis key ∈ q.held then
      { q with held := q.held.erase (dueEntry millis key), dirty := true }
    else q
  | none => q

/-- Holds `key` out of the order until `dueMillis`. -/
def hold (q : QueueState) (key : String) (dueMillis : Nat) : QueueState :=
  let q := q.unhold key
  { q with
    due := q.due.insert key dueMillis
    held := insert (dueEntry dueMillis key) q.held
    dirty := true }

/-- Puts a newly written record at the back of the queue. -/
def enqueue (q : QueueState) (key : String) : QueueState :=
  let q := { q with claims := q.claims.erase key }
  let q := q.unhold key
  { q with available := insert key q.available, dirty := true }

/-- Puts a newly written record in the queue, not to be claimed before `dueMillis`. -/
def enqueueHeld (q : QueueState) (key : String) (dueMillis : Nat) : QueueState :=
  let q := { q with claims := q.claims.erase key, available := q.available.erase key }
  q.hold key dueMillis

/-- Forgets a record entirely: acknowledged, deleted, or moved to the dead-letter file. -/
def forget (q : QueueState) (key : String) : QueueState :=
  let q := { q with
    available := q.available.erase key
    claims := q.claims.erase key
    deliveries := q.deliveries.erase key }
  let q := q.unhold key
  { q with due := q.due.erase key, dirty := true }

/-- The loop of `release_due`: one entry off the front while the front is due. The fuel is the
number of held entries. -/
def releaseDueLoop (nowMillis : Nat) : Nat → QueueState → Nat × QueueState
  | 0, q => (0, q)
  | fuel + 1, q =>
    match first q.held with
    | some entry =>
      if (ofLex entry).1 ≤ nowMillis then
        let q := { q with
          held := q.held.erase entry
          available := insert (ofLex entry).2 q.available }
        let (released, q) := releaseDueLoop nowMillis fuel q
        (released + 1, q)
      else (0, q)
    | none => (0, q)

/-- Lets every held record that is due by `nowMillis` into the order. -/
def releaseDue (q : QueueState) (nowMillis : Nat) : Nat × QueueState :=
  let (released, q) := releaseDueLoop nowMillis q.held.card q
  (released, if 0 < released then { q with dirty := true } else q)

/-- Whether a held record has come due and is waiting to be let in. -/
def hasDueRecord (q : QueueState) (nowMillis : Nat) : Bool :=
  match first q.held with
  | some entry => (ofLex entry).1 ≤ nowMillis
  | none => false

/-- When the earliest held record comes due. -/
def nextDue (q : QueueState) : Option Nat := (first q.held).map fun entry => (ofLex entry).1

/-- When `key` becomes claimable, if it is being held back. -/
def heldUntil (q : QueueState) (key : String) : Option Nat :=
  q.due[key]?.filter fun millis => dueEntry millis key ∈ q.held

/-- One lapsed claim: back into the order, or onto the dead list once its deliveries are used up. -/
def expireOne (policy : QueuePolicy) (acc : QueueState × Expired) (key : String) :
    QueueState × Expired :=
  let q := { acc.1 with claims := acc.1.claims.erase key, dirty := true }
  if policy.maxDeliveries ≤ q.deliveries[key]?.getD 0 then
    (q, { acc.2 with dead := acc.2.dead ++ [key] })
  else
    ({ q with available := insert key q.available },
      { acc.2 with returned := acc.2.returned ++ [key] })

/-- Returns every claim that has lapsed to the queue, and names the records that have now used up
their deliveries. The lapsed claims are visited in key order, so both lists come out sorted. -/
def expire (q : QueueState) (nowMillis : Nat) (policy : QueuePolicy) : QueueState × Expired :=
  let q := (q.releaseDue nowMillis).2
  let lapsed := (q.claims.filter fun _ claim => claim.hasLapsed nowMillis).keys
  lapsed.foldl (expireOne policy) (q, {})

/-- Claims the oldest available record for `owner`, returning its key and the delivery count this
claim is. -/
def claim (q : QueueState) (owner : String) (nowMillis : Nat) (policy : QueuePolicy) :
    Option (String × Nat) × QueueState :=
  match first q.available with
  | none => (none, q)
  | some key =>
    let deliveries := (q.deliveries[key]?.getD 0 + 1) % 2 ^ 32
    (some (key, deliveries),
      { q with
        available := q.available.erase key
        deliveries := q.deliveries.insert key deliveries
        claims := q.claims.insert key
          { owner := owner, expiresMillis := satAdd nowMillis (policy.visibility % 2 ^ 64) }
        dirty := true })

/-- Whether any claim has lapsed and is waiting to be swept. -/
def hasLapsedClaim (q : QueueState) (nowMillis : Nat) : Bool :=
  q.claims.values.any fun claim => claim.hasLapsed nowMillis

/-- The oldest available key, without claiming it. -/
def head (q : QueueState) : Option String := first q.available

/-- The claim held on `key`, if any. -/
def claimOn (q : QueueState) (key : String) : Option Claim := q.claims[key]?

/-- How many times `key` has been delivered. -/
def deliveriesOf (q : QueueState) (key : String) : Nat := q.deliveries[key]?.getD 0

/-- Takes in a record moved from another queue, with the delivery count that killed it. -/
def adopt (q : QueueState) (key : String) (deliveries : Nat) : QueueState :=
  { q with
    available := insert key q.available
    deliveries := if 0 < deliveries then q.deliveries.insert key deliveries else q.deliveries
    dirty := true }

/-- Checks that `owner` is the one holding `key`. -/
def verify (q : QueueState) (key owner : String) (present : Bool) : Except ClaimError Unit :=
  if ¬ present then .error .notFound
  else
    match q.claims[key]? with
    | none => .error .notClaimed
    | some claim => if claim.owner ≠ owner then .error (.heldBy claim.owner) else .ok ()

/-- Gives a claimed record back, held until `dueMillis` when one is given. `true` when the record
has used up its deliveries and is to be dead lettered instead. -/
def releaseUntil (q : QueueState) (key : String) (policy : QueuePolicy) (dueMillis : Option Nat) :
    Bool × QueueState :=
  let q := { q with claims := q.claims.erase key, dirty := true }
  if policy.maxDeliveries ≤ q.deliveries[key]?.getD 0 then (true, q)
  else
    match dueMillis with
    | some millis => (false, q.hold key millis)
    | none => (false, { q with available := insert key q.available })

/-- Brings the order back in line with the records after something other than a queue command
changed them. -/
def reconcile {R : Type} (q : QueueState) (records : Map String R) : QueueState :=
  let entries := q.held.filter fun entry => (ofLex entry).2 ∈ records
  let held := entries.image fun entry => (ofLex entry).2
  let kept := q.available.filter fun key => key ∈ records ∧ key ∉ q.claims ∧ key ∉ held
  let missing := (dom records).filter fun key => key ∉ q.claims ∧ key ∉ held
  { sequence := records.keys.foldl Sequence.raisePast q.sequence
    available := kept ∪ missing
    claims := retain (fun key => records.contains key) q.claims
    deliveries := retain (fun key => records.contains key) q.deliveries
    due := retain (fun key => records.contains key) q.due
    held := entries
    dirty := true }

/-- Records this queue is tracking, claimed or not. -/
def tracked (q : QueueState) : Nat := q.available.card + q.claims.size + q.held.card

/-- Records available to be claimed. -/
def depth (q : QueueState) : Nat := q.available.card

/-- Records claimed and not yet acknowledged. -/
def inFlight (q : QueueState) : Nat := q.claims.size

/-- How long ago the oldest record still in the queue became available, in seconds. A record that
was held back is measured from when it came due, any other from the millisecond its key carries. -/
def oldestUnacknowledgedSeconds (q : QueueState) (nowMillis : Nat) : Option Nat :=
  let oldestWaiting :=
    ((ascending q.available).filter fun key => key ∉ q.due).findSome? keyMillis
  let oldestReleased :=
    ((q.due.toList.filter fun entry => entry.1 ∈ q.available ∨ entry.1 ∈ q.claims).map Prod.snd).min?
  let oldestClaimed := ((q.claims.keys.filter fun key => key ∉ q.due).filterMap keyMillis).min?
  ([oldestWaiting, oldestReleased, oldestClaimed].filterMap id).min?.map
    fun oldest => (nowMillis - oldest) / 1000

/-- What the `queue` file has to say. -/
def toPersisted (q : QueueState) : PersistedQueue :=
  { nextSequence := q.sequence.peek, next_le := q.sequence.next_le,
    deliveries := q.deliveries.toList, due := q.due.toList }

def isDirty (q : QueueState) : Bool := q.dirty ∨ q.sequence.dirty

def clearDirty (q : QueueState) : QueueState :=
  { q with dirty := false, sequence := { q.sequence with dirty := false } }

/-- The next sequence number, with the counter advanced. -/
def mint (q : QueueState) (nowMillis : Nat) : Nat × QueueState :=
  ((q.sequence.mint nowMillis).1, { q with sequence := (q.sequence.mint nowMillis).2 })

end QueueState

end RustyPick
