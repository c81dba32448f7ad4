import RustyPick.Table

/-!
# RustyPick.QueueFile

The queue commands (`db/engine/queue.rs`) over a file's table.

A command is two things to the table: `queueFile`, which brings the order in line with the records
before anything uses it, and one critical section under the table's write guard. The sections are
the functions below; each returns `none` where the code's `expect` fails, on a table no order is
attached to.

Dead letters leave a section in hand, and `adoptLetters` is what the dead-letter file does with
them.
-/

namespace RustyPick

open Lib

/-- One record handed to a consumer, with what the queue knows about it. -/
structure QueueDelivery where
  key : String
  record : Record
  deliveries : Nat
  enqueuedMillis : Option Nat
  expiresMillis : Option Nat
  owner : Option String
  dueMillis : Option Nat
  deriving DecidableEq, Repr

/-- A record on its way to the dead-letter file. -/
structure DeadLetter where
  key : String
  record : Record
  deliveries : Nat
  deriving DecidableEq, Repr

/-- What a queue is doing, short of the number of its dead letters. -/
structure QueueStats where
  depth : Nat
  inFlight : Nat
  held : Nat
  nextDueMillis : Option Nat
  oldestUnacknowledgedSeconds : Option Nat
  nextSequence : Nat
  visibilityTimeoutSeconds : Nat
  maxDeliveries : Nat
  deadLetter : Bool
  deriving DecidableEq, Repr

/-- What `queueFile` has to do before the order can be used. -/
inductive Readiness where
  | ready
  | reconcile
  | unattached
  deriving DecidableEq, Repr

/-- The policy a file is run under: its own, except that a dead-letter file never dead letters. -/
def effectivePolicy (name : String) (policy : QueuePolicy) : QueuePolicy :=
  if isDeadLetterName name then { policy with maxDeliveries := u32Max } else policy

namespace Table

/-- Whether a loaded queue file's order can be used as it stands. Only the counts are compared. -/
def queueReadiness (t : Table) : Readiness :=
  match t.queue with
  | none => .unattached
  | some q => if q.tracked ≠ t.records.size then .reconcile else .ready

/-- Attaches an order to a table that has none. -/
def attachQueue (t : Table) (persisted : PersistedQueue) : Table :=
  match t.queue with
  | some _ => t
  | none => { t with queue := some (QueueState.attach t.records persisted) }

/-- The queue file a command names, with its order ready. `persisted` is what the `queue` file
beside the records says, the default when it says nothing. -/
def queueFile (t : Table) (persisted : PersistedQueue) : Table :=
  match t.queueReadiness with
  | .ready => t
  | .reconcile => t.reconcileQueue
  | .unattached => t.attachQueue persisted

/-- ENQUEUE: mint a key, store the record under it, and put it in the order. -/
def enqueueDue (t : Table) (record : Record) (dueMillis : Option Nat) (now : Nat) :
    Option (String × Table) :=
  t.queue.map fun q =>
    let (sequence, q) := q.mint now
    let key := formatKey sequence
    let t := ({ t with queue := some q }).insertRecord key record
    let q := match dueMillis with
      | some millis => q.enqueueHeld key millis
      | none => q.enqueue key
    (key, { t with queue := some q })

/-- One record out of deliveries: out of the order, then out of the table. -/
def takeDead (acc : List DeadLetter × Table) (key : String) : List DeadLetter × Table :=
  match acc.2.queue with
  | none => acc
  | some q =>
    let letter : DeadLetter :=
      { key := key, record := acc.2.records[key]?.getD {}, deliveries := q.deliveriesOf key }
    (acc.1 ++ [letter],
      ({ acc.2 with
        queue := some (q.forget key), records := acc.2.records.erase key }).markDirty key)

/-- Sweeps the claims that have lapsed, taking out of the table the records that have now been
delivered as often as the policy allows. -/
def takeExpired (t : Table) (now : Nat) (policy : QueuePolicy) : List DeadLetter × Table :=
  match t.queue with
  | none => ([], t)
  | some q =>
    let (q, expired) := q.expire now policy
    expired.dead.foldl takeDead ([], { t with queue := some q })

/-- DEQUEUE: sweep, then claim the oldest available record. -/
def dequeue (t : Table) (name owner : String) (visibility : Option Nat) (policy : QueuePolicy)
    (now : Nat) : Option (Option QueueDelivery × List DeadLetter × Table) :=
  let policy := { effectivePolicy name policy with visibility := visibility.getD policy.visibility }
  let (dead, t) := t.takeExpired now policy
  t.queue.map fun q =>
    let (claimed, q) := q.claim owner now policy
    let delivery := claimed.map fun (key, deliveries) =>
      { key := key
        record := t.records[key]?.getD {}
        deliveries := deliveries
        enqueuedMillis := keyMillis key
        expiresMillis := (q.claimOn key).map Claim.expiresMillis
        owner := some owner
        dueMillis := none : QueueDelivery }
    (delivery, dead, { t with queue := some q })

/-- A failed ownership check as the error the caller sends back. -/
def claimError (key name : String) : ClaimError → DbError
  | .notFound => .invalidRequest s!"No record {key} in queue {name}"
  | .notClaimed => .invalidRequest
      s!"Record {key} in queue {name} is not claimed: the claim lapsed, or it was never dequeued"
  | .heldBy holder => .invalidRequest s!"Record {key} in queue {name} is claimed by {holder}"

/-- ACK: the record leaves the queue for good. -/
def ack (t : Table) (name key owner : String) : Option (Except DbError Unit × Table) :=
  t.queue.map fun q =>
    match q.verify key owner (t.records.contains key) with
    | .error e => (.error (claimError key name e), t)
    | .ok () => (.ok (), { (t.removeRecord key).2 with queue := some (q.forget key) })

/-- NACK: the record goes back, or to the dead letters once its deliveries are used up. -/
def nackUntil (t : Table) (name key owner : String) (policy : QueuePolicy)
    (dueMillis : Option Nat) : Option (Except DbError (List DeadLetter) × Table) :=
  let policy := effectivePolicy name policy
  t.queue.map fun q =>
    match q.verify key owner (t.records.contains key) with
    | .error e => (.error (claimError key name e), t)
    | .ok () =>
      match q.releaseUntil key policy dueMillis with
      | (true, q) =>
        let letter : DeadLetter :=
          { key := key, record := t.records[key]?.getD {}, deliveries := q.deliveriesOf key }
        (.ok [letter],
          ({ t with
            queue := some (q.forget key), records := t.records.erase key }).markDirty key)
      | (false, q) => (.ok [], { t with queue := some q })

/-- One delivery read out of the table: the record under `key`, or the head of the queue. -/
def deliveryIn (t : Table) (key : Option String) : Option (Option QueueDelivery) :=
  t.queue.map fun q => do
    let wanted ← key <|> q.head
    let record ← t.records[wanted]?
    some
      { key := wanted
        record := record
        deliveries := q.deliveriesOf wanted
        enqueuedMillis := keyMillis wanted
        expiresMillis := (q.claimOn wanted).map Claim.expiresMillis
        owner := (q.claimOn wanted).map Claim.owner
        dueMillis := q.heldUntil wanted }

/-- PEEK under the shared guard: an answer only when nothing has lapsed or come due. -/
def peekShared (t : Table) (key : Option String) (now : Nat) :
    Option (Option (Option QueueDelivery)) :=
  t.queue.bind fun q =>
    if ¬ q.hasLapsedClaim now ∧ ¬ q.hasDueRecord now then some (t.deliveryIn key) else some none

/-- PEEK under the exclusive guard, once the shared one has found something to sweep. -/
def peekSweep (t : Table) (name : String) (key : Option String) (policy : QueuePolicy) (now : Nat) :
    Option (Option QueueDelivery × List DeadLetter × Table) :=
  let (dead, t) := t.takeExpired now (effectivePolicy name policy)
  (t.deliveryIn key).map fun delivery => (delivery, dead, t)

/-- PEEK: read a record without claiming it. -/
def peek (t : Table) (name : String) (key : Option String) (policy : QueuePolicy) (now : Nat) :
    Option (Option QueueDelivery × List DeadLetter × Table) :=
  match t.peekShared key now with
  | none => none
  | some (some delivery) => some (delivery, [], t)
  | some none => t.peekSweep name key policy now

/-- What a queue is doing, after a sweep. -/
def queueStatistics (t : Table) (name : String) (policy : QueuePolicy) (now : Nat) :
    Option (QueueStats × List DeadLetter × Table) :=
  let (dead, t) := t.takeExpired now (effectivePolicy name policy)
  t.queue.map fun q =>
    ({ depth := q.depth
       inFlight := q.inFlight
       held := q.held.card
       nextDueMillis := q.nextDue
       oldestUnacknowledgedSeconds := q.oldestUnacknowledgedSeconds now
       nextSequence := q.sequence.peek
       visibilityTimeoutSeconds := policy.visibility / 1000
       maxDeliveries := policy.maxDeliveries
       deadLetter := isDeadLetterName name }, dead, t)

/-- One dead letter taken in by the dead-letter file. -/
def adoptLetter (t : Table) (letter : DeadLetter) : Table :=
  let t := t.insertRecord letter.key letter.record
  { t with queue := t.queue.map fun q => q.adopt letter.key letter.deliveries }

/-- The dead letters of another queue taken in by this file, its dead-letter file. -/
def adoptLetters (t : Table) (dead : List DeadLetter) : Table := dead.foldl adoptLetter t

end Table

end RustyPick
