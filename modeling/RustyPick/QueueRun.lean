import RustyPick.QueueReady

/-!
# RustyPick.QueueRun

Runs of many consumers on one queue file.

Everything a command does to the file happens in sections under its guard, and between two
sections of one client any other client's may run. So a run is a sequence of sections, in the
order in which the guard was held, each with the clock as it ran and the reading of the clock it
was given: DEQUEUE and the sweeps take theirs before they wait for the guard. The repair that
`queueFile` asks for is a section of its own, and nothing is assumed about the counts when it runs,
since the comparison was made under an earlier guard.

`Effect` says once what a section can do to the places and the records, and `perform_effect` that
nothing else happens.

* `filed_effect`: without plain deletes, every section keeps the records filed, each in one place,
  and the counter past every key it could mint again.
-/

namespace RustyPick

open Lib

/-- One section of one client, under the file's guard. `peek` holds the shared guard and sweeps
nothing; `delete` is the plain command. -/
inductive QueueAction where
  | attach (persisted : PersistedQueue)
  | reconcile
  | enqueue (record : Record) (due : Option Nat)
  | dequeue (owner : String) (visibility : Option Nat) (policy : QueuePolicy)
  | ack (key owner : String)
  | nack (key owner : String) (policy : QueuePolicy) (due : Option Nat)
  | peek (key : Option String)
  | peekSweep (key : Option String) (policy : QueuePolicy)
  | statistics (policy : QueuePolicy)
  | delete (key : String)

/-- What the client that ran a section learns. -/
inductive QueueOutcome where
  | done
  | enqueued (key : String)
  | delivered (delivery : Option QueueDelivery)
  | settled
  | refused (error : DbError)
  deriving DecidableEq

def QueueOutcome.ofResult {α : Type} : Except DbError α → QueueOutcome
  | .ok _ => .settled
  | .error e => .refused e

/-- A section, run at a reading of the clock. `none` where no order is attached and the code's
`expect` fails. -/
def QueueAction.perform (name : String) (t : Table) (now : Nat) :
    QueueAction → Option (QueueOutcome × Table)
  | .attach persisted => some (.done, t.attachQueue persisted)
  | .reconcile => some (.done, t.reconcileQueue)
  | .enqueue record due => (t.enqueueDue record due now).map fun r => (.enqueued r.1, r.2)
  | .dequeue owner visibility policy =>
    (t.dequeue name owner visibility policy now).map fun r => (.delivered r.1, r.2.2)
  | .ack key owner => (t.ack name key owner).map fun r => (.ofResult r.1, r.2)
  | .nack key owner policy due =>
    (t.nackUntil name key owner policy due).map fun r => (.ofResult r.1, r.2)
  | .peek _ => some (.done, t)
  | .peekSweep key policy => (t.peekSweep name key policy now).map fun r => (.done, r.2.2)
  | .statistics policy => (t.queueStatistics name policy now).map fun r => (.done, r.2.2)
  | .delete key => some (.done, (t.removeRecord key).2)

/-- A section as it ran: when, with what reading of the clock, and what came of it. What follows the
section, the dead letters and the flush, may fail, and the client is then told of that instead. -/
structure QueueEvent where
  clock : Nat
  reading : Nat
  action : QueueAction
  outcome : QueueOutcome
  failure : Option DbError := none

/-- A section yet to run, at a moment that is also its reading of the clock. -/
def QueueEvent.at (clock : Nat) (action : QueueAction) : QueueEvent :=
  { clock := clock, reading := clock, action := action, outcome := .done }

/-- What the client is told: a refusal comes before anything that could fail, any other outcome
after it. -/
def QueueEvent.reported (e : QueueEvent) : QueueOutcome :=
  match e.outcome, e.failure with
  | .refused error, _ => .refused error
  | out, none => out
  | _, some error => .refused error

/-- A run from one table to another, every step of which meets `ok`. -/
inductive Run (name : String) (ok : Table → QueueEvent → Prop) :
    Table → List QueueEvent → Table → Prop where
  | nil (t : Table) : Run name ok t [] t
  | cons {t t' t'' : Table} {e : QueueEvent} {es : List QueueEvent} :
      ok t e →
      e.action.perform name t e.reading = some (e.outcome, t') →
      Run name ok t' es t'' → Run name ok t (e :: es) t''

theorem QueueEvent.reported_eq {e : QueueEvent} {out : QueueOutcome} (h : e.reported = out)
    (hout : ∀ error, out ≠ .refused error) : e.outcome = out ∧ e.failure = none := by
  unfold QueueEvent.reported at h
  split at h
  · exact absurd h.symm (hout _)
  · rename_i hfail _
    exact ⟨h, hfail⟩
  · exact absurd h.symm (hout _)

theorem run_append {name : String} {ok : Table → QueueEvent → Prop} :
    ∀ {es es' : List QueueEvent} {t t'' : Table}, Run name ok t (es ++ es') t'' →
      ∃ t', Run name ok t es t' ∧ Run name ok t' es' t'' := by
  intro es
  induction es with
  | nil => intro es' t t'' h; exact ⟨t, Run.nil t, h⟩
  | cons e es ih =>
    intro es' t t'' h
    cases h with
    | cons hok hstep hrest =>
      obtain ⟨t', h1, h2⟩ := ih hrest
      exact ⟨t', Run.cons hok hstep h1, h2⟩

/-- Runs sections one after another, for the outcome of each, as long as each passes `check`. The
outcomes given are ignored. -/
def performAll (name : String) (check : Table → QueueEvent → Bool) (t : Table) :
    List QueueEvent → Option (List QueueOutcome)
  | [] => some []
  | e :: es =>
    if check t e then
      match e.action.perform name t e.reading with
      | none => none
      | some (out, t') => (performAll name check t' es).map fun outs => out :: outs
    else none

/-- The events of a run, with the outcomes it was found to have. -/
def withOutcomes (es : List QueueEvent) (outs : List QueueOutcome) : List QueueEvent :=
  List.zipWith (fun e out => { e with outcome := out }) es outs

/-- Outcomes computed by `performAll` are those of a run. -/
theorem run_of_outcomes {name : String} (ok : Table → QueueEvent → Prop)
    {check : Table → QueueEvent → Bool} :
    ∀ {es : List QueueEvent} {outs : List QueueOutcome} {t : Table},
      (∀ t, ∀ e ∈ es, ∀ out, check t e → ok t { e with outcome := out }) →
      performAll name check t es = some outs →
      ∃ t', Run name ok t (withOutcomes es outs) t' := by
  intro es
  induction es with
  | nil => intro outs t _ h; cases h; exact ⟨t, Run.nil t⟩
  | cons e es ih =>
    intro outs t hok h
    unfold performAll at h
    split at h
    · rename_i hcheck
      split at h
      · cases h
      · rename_i out t' hp
        obtain ⟨outs', houts, rfl⟩ := Option.map_eq_some_iff.mp h
        obtain ⟨t'', hrun⟩ := ih (fun t e' he' => hok t e' (List.mem_cons_of_mem _ he')) houts
        exact ⟨t'', Run.cons (hok t e List.mem_cons_self out hcheck) hp hrun⟩
    · cases h

/-! ## What a section can do -/

section

variable {name key owner : String} {t t' : Table} {now : Nat} {out : QueueOutcome}

theorem perform_enqueue {record : Record} {due : Option Nat}
    (hp : (QueueAction.enqueue record due).perform name t now = some (out, t')) :
    ∃ q q', t.queue = some q ∧ out = .enqueued (formatKey (q.mint now).1) ∧
      ((due = none ∧ q' = (q.mint now).2.enqueue (formatKey (q.mint now).1)) ∨
        ∃ millis, due = some millis ∧
          q' = (q.mint now).2.enqueueHeld (formatKey (q.mint now).1) millis) ∧
      t' = { ({ t with queue := some (q.mint now).2 } : Table).insertRecord
        (formatKey (q.mint now).1) record with queue := some q' } := by
  obtain ⟨r, hr, heq⟩ := Option.map_eq_some_iff.mp hp
  obtain ⟨q, hq, rfl⟩ := Option.map_eq_some_iff.mp hr
  cases heq
  cases due with
  | none => exact ⟨q, _, hq, rfl, Or.inl ⟨rfl, rfl⟩, rfl⟩
  | some millis => exact ⟨q, _, hq, rfl, Or.inr ⟨millis, rfl, rfl⟩, rfl⟩

theorem perform_dequeue {visibility : Option Nat} {policy : QueuePolicy}
    (hp : (QueueAction.dequeue owner visibility policy).perform name t now = some (out, t')) :
    ∃ q, (t.takeExpired now (dequeuePolicy name policy visibility)).2.queue = some q ∧
      t' = { (t.takeExpired now (dequeuePolicy name policy visibility)).2 with
        queue := some (q.claim owner now (dequeuePolicy name policy visibility)).2 } := by
  obtain ⟨r, hr, heq⟩ := Option.map_eq_some_iff.mp hp
  obtain ⟨q, hq, rfl⟩ := Option.map_eq_some_iff.mp hr
  cases heq
  exact ⟨q, hq, rfl⟩

theorem perform_ack (hp : (QueueAction.ack key owner).perform name t now = some (out, t')) :
    ∃ q, t.queue = some q ∧
      ((∃ e, q.verify key owner (t.records.contains key) = .error e ∧
          out = .refused (Table.claimError key name e) ∧ t' = t) ∨
        (q.verify key owner (t.records.contains key) = .ok () ∧ out = .settled ∧
          t' = { (t.removeRecord key).2 with queue := some (q.forget key) })) := by
  obtain ⟨r, hr, heq⟩ := Option.map_eq_some_iff.mp hp
  obtain ⟨q, hq, rfl⟩ := Option.map_eq_some_iff.mp hr
  refine ⟨q, hq, ?_⟩
  cases hverify : q.verify key owner (t.records.contains key) with
  | error e =>
    simp only [hverify, Prod.mk.injEq] at heq
    exact Or.inl ⟨e, rfl, heq.1.symm, heq.2.symm⟩
  | ok u =>
    simp only [hverify, Prod.mk.injEq] at heq
    exact Or.inr ⟨rfl, heq.1.symm, heq.2.symm⟩

theorem perform_nack {policy : QueuePolicy} {due : Option Nat}
    (hp : (QueueAction.nack key owner policy due).perform name t now = some (out, t')) :
    ∃ q, t.queue = some q ∧
      ((∃ e, q.verify key owner (t.records.contains key) = .error e ∧
          out = .refused (Table.claimError key name e) ∧ t' = t) ∨
        (q.verify key owner (t.records.contains key) = .ok () ∧ out = .settled ∧
          ∃ q', (q.releaseUntil key (effectivePolicy name policy) due = (true, q') ∧
              t' = ({ t with queue := some (q'.forget key),
                             records := t.records.erase key } : Table).markDirty key) ∨
            (q.releaseUntil key (effectivePolicy name policy) due = (false, q') ∧
              t' = { t with queue := some q' }))) := by
  obtain ⟨r, hr, heq⟩ := Option.map_eq_some_iff.mp hp
  obtain ⟨q, hq, rfl⟩ := Option.map_eq_some_iff.mp hr
  refine ⟨q, hq, ?_⟩
  cases hverify : q.verify key owner (t.records.contains key) with
  | error e =>
    simp only [hverify, Prod.mk.injEq] at heq
    exact Or.inl ⟨e, rfl, heq.1.symm, heq.2.symm⟩
  | ok u =>
    obtain ⟨spent, q', hrelease⟩ : ∃ spent q', q.releaseUntil key (effectivePolicy name policy) due =
        (spent, q') := ⟨_, _, rfl⟩
    cases spent with
    | true =>
      simp only [hverify, hrelease, Prod.mk.injEq] at heq
      exact Or.inr ⟨rfl, heq.1.symm, q', Or.inl ⟨hrelease, heq.2.symm⟩⟩
    | false =>
      simp only [hverify, hrelease, Prod.mk.injEq] at heq
      exact Or.inr ⟨rfl, heq.1.symm, q', Or.inr ⟨hrelease, heq.2.symm⟩⟩

theorem perform_peekSweep {wanted : Option String} {policy : QueuePolicy}
    (hp : (QueueAction.peekSweep wanted policy).perform name t now = some (out, t')) :
    ∃ q, (t.takeExpired now (effectivePolicy name policy)).2.queue = some q ∧ out = .done ∧
      t' = (t.takeExpired now (effectivePolicy name policy)).2 := by
  obtain ⟨r, hr, heq⟩ := Option.map_eq_some_iff.mp hp
  obtain ⟨delivery, hd, rfl⟩ := Option.map_eq_some_iff.mp hr
  obtain ⟨q, hq, -⟩ := Option.map_eq_some_iff.mp hd
  cases heq
  exact ⟨q, hq, rfl, rfl⟩

theorem perform_statistics {policy : QueuePolicy}
    (hp : (QueueAction.statistics policy).perform name t now = some (out, t')) :
    ∃ q, (t.takeExpired now (effectivePolicy name policy)).2.queue = some q ∧ out = .done ∧
      t' = (t.takeExpired now (effectivePolicy name policy)).2 := by
  obtain ⟨r, hr, heq⟩ := Option.map_eq_some_iff.mp hp
  obtain ⟨q, hq, rfl⟩ := Option.map_eq_some_iff.mp hr
  cases heq
  exact ⟨q, hq, rfl, rfl⟩

/-- With no order attached, only four sections run. -/
theorem perform_without_order {a : QueueAction} (h : t.queue = none)
    (hp : a.perform name t now = some (out, t')) :
    out = .done ∧ ((∃ persisted, a = .attach persisted ∧ t' = t.attachQueue persisted) ∨
      ((a = .reconcile ∨ ∃ wanted, a = .peek wanted) ∧ t' = t) ∨
      ∃ key, a = .delete key ∧ t' = (t.removeRecord key).2) := by
  have hsweep : ∀ policy, t.takeExpired now policy = ([], t) := by
    intro policy
    rw [Table.takeExpired, h]
  cases a with
  | attach persisted => cases hp; exact ⟨rfl, Or.inl ⟨persisted, rfl, rfl⟩⟩
  | reconcile =>
    simp only [QueueAction.perform, Table.reconcileQueue, h, Option.map_none] at hp
    cases hp
    exact ⟨rfl, Or.inr (Or.inl ⟨Or.inl rfl, by rw [← h]⟩)⟩
  | peek wanted => cases hp; exact ⟨rfl, Or.inr (Or.inl ⟨Or.inr ⟨wanted, rfl⟩, rfl⟩)⟩
  | delete key => cases hp; exact ⟨rfl, Or.inr (Or.inr ⟨key, rfl, rfl⟩)⟩
  | enqueue record due =>
    obtain ⟨q, -, hq, -⟩ := perform_enqueue hp
    cases h.symm.trans hq
  | dequeue owner visibility policy =>
    obtain ⟨q, hq, -⟩ := perform_dequeue hp
    rw [hsweep] at hq
    cases h.symm.trans hq
  | ack key owner =>
    obtain ⟨q, hq, -⟩ := perform_ack hp
    cases h.symm.trans hq
  | nack key owner policy due =>
    obtain ⟨q, hq, -⟩ := perform_nack hp
    cases h.symm.trans hq
  | peekSweep wanted policy =>
    obtain ⟨q, hq, -⟩ := perform_peekSweep hp
    rw [hsweep] at hq
    cases h.symm.trans hq
  | statistics policy =>
    obtain ⟨q, hq, -⟩ := perform_statistics hp
    rw [hsweep] at hq
    cases h.symm.trans hq

end

/-- The effect of one section on the places, the order and the records. -/
inductive Effect (name : String) (f : String → Place) (q : QueueState) (t : Table) (now : Nat) :
    QueueAction → QueueOutcome → (String → Place) → QueueState → Table → Prop where
  | idle {a : QueueAction} {out : QueueOutcome} :
      (out = .done ∨ ∃ e, out = .refused e) → Effect name f q t now a out f q t
  | repair {q' : QueueState} {t' : Table} :
      t'.records = t.records → q' = q.reconcile t.records →
      Effect name f q t now .reconcile .done (repaired f t) q' t'
  | enqueue {q' : QueueState} {t' : Table} (record : Record) (due : Option Nat) :
      t'.records = t.records.insert (formatKey (q.sequence.upcoming now)) record →
      q'.sequence = (q.sequence.mint now).2 →
      Effect name f q t now (.enqueue record due) (.enqueued (formatKey (q.sequence.upcoming now)))
        (Function.update f (formatKey (q.sequence.upcoming now)) (Place.enqueued due)) q' t'
  | sweep {a : QueueAction} {out : QueueOutcome} {q' : QueueState} {t' : Table}
      (policy : QueuePolicy) :
      (out = .done ∨ out = .delivered none) → q'.sequence = q.sequence →
      t'.records = (t.takeExpired now policy).2.records →
      Effect name f q t now a out (swept f q policy now) q' t'
  | claim {q' : QueueState} {t' : Table} (owner : String) (visibility : Option Nat)
      (own policy : QueuePolicy) (delivery : QueueDelivery) :
      policy = dequeuePolicy name own visibility →
      q'.sequence = q.sequence → t'.records = (t.takeExpired now policy).2.records →
      swept f q policy now delivery.key = .available →
      (∀ k, swept f q policy now k = .available → delivery.key ≤ k) →
      delivery.owner = some owner →
      delivery.expiresMillis = some (newClaim owner now policy).expiresMillis →
      Effect name f q t now (.dequeue owner visibility own) (.delivered (some delivery))
        (Function.update (swept f q policy now) delivery.key
          (.claimed (newClaim owner now policy))) q' t'
  | ack {q' : QueueState} {t' : Table} (key owner : String) :
      Held f t key owner → t'.records = t.records.erase key → q'.sequence = q.sequence →
      Effect name f q t now (.ack key owner) .settled (Function.update f key .absent) q' t'
  | nack {q' : QueueState} {t' : Table} (key owner : String) (policy : QueuePolicy)
      (due : Option Nat) :
      Held f t key owner →
      t'.records = (if (effectivePolicy name policy).maxDeliveries ≤ q.deliveriesOf key then
        t.records.erase key else t.records) →
      q'.sequence = q.sequence →
      Effect name f q t now (.nack key owner policy due) .settled
        (Function.update f key
          (Place.nacked (effectivePolicy name policy) (q.deliveriesOf key) due)) q' t'
  | delete {t' : Table} (key : String) :
      t'.records = t.records.erase key → Effect name f q t now (.delete key) .done f q t'

/-- A sweep on its own, as PEEK and the statistics make it. -/
theorem sweep_effect {name : String} {f : String → Place} {q : QueueState} {t : Table}
    (h : Ordered f q t) (a : QueueAction) (now : Nat) (policy : QueuePolicy) :
    ∃ f' q', Ordered f' q' (t.takeExpired now policy).2 ∧
      Effect name f q t now a .done f' q' (t.takeExpired now policy).2 := by
  obtain ⟨q', hord, hseq, _⟩ := takeExpired_spec h now policy
  exact ⟨_, q', hord, Effect.sweep policy (Or.inl rfl) hseq rfl⟩

theorem perform_effect {name : String} {f : String → Place} {q : QueueState} {t t' : Table}
    {now : Nat} {a : QueueAction} {out : QueueOutcome} (h : Ordered f q t)
    (hp : a.perform name t now = some (out, t')) :
    ∃ f' q', Ordered f' q' t' ∧ Effect name f q t now a out f' q' t' := by
  cases a with
  | attach persisted =>
    simp only [QueueAction.perform, Table.attachQueue, h.queue] at hp
    cases hp
    exact ⟨f, q, h, Effect.idle (Or.inl rfl)⟩
  | reconcile =>
    cases hp
    exact ⟨_, _, h.reconcile, Effect.repair rfl rfl⟩
  | peek key =>
    cases hp
    exact ⟨f, q, h, Effect.idle (Or.inl rfl)⟩
  | delete key =>
    cases hp
    exact ⟨f, q, ⟨h.queue, h.places, h.due⟩, Effect.delete key rfl⟩
  | enqueue record due =>
    obtain ⟨q', t₁, hrun, hord, hrec, hseq⟩ := enqueueDue_spec h record due now
    simp only [QueueAction.perform, hrun, Option.map_some] at hp
    cases hp
    exact ⟨_, q', hord, Effect.enqueue record due hrec hseq⟩
  | dequeue owner visibility policy =>
    obtain ⟨q', d, dead, t₁, hrun, hseq, hrec, hcase⟩ :=
      dequeue_spec h name owner visibility policy now
    simp only [QueueAction.perform, hrun, Option.map_some] at hp
    cases hp
    rcases hcase with ⟨rfl, hord, _⟩ | ⟨delivery, rfl, havail, hleast, howner, _, hexp, hord⟩
    · exact ⟨_, q', hord, Effect.sweep _ (Or.inr rfl) hseq hrec⟩
    · exact ⟨_, q', hord,
        Effect.claim owner visibility policy _ delivery rfl hseq hrec havail hleast howner hexp⟩
  | ack key owner =>
    rcases ack_spec h name key owner with ⟨hheld, q', t₁, hrun, hord, hrec, hseq⟩ | ⟨_, e, hrun⟩
    · simp only [QueueAction.perform, hrun, Option.map_some] at hp
      cases hp
      exact ⟨_, q', hord, Effect.ack key owner hheld hrec hseq⟩
    · simp only [QueueAction.perform, hrun, Option.map_some] at hp
      cases hp
      exact ⟨f, q, h, Effect.idle (Or.inr ⟨e, rfl⟩)⟩
  | nack key owner policy due =>
    rcases nackUntil_spec h name key owner policy due with
      ⟨hheld, q', letters, t₁, hrun, hord, hrec, hseq⟩ | ⟨_, e, hrun⟩
    · simp only [QueueAction.perform, hrun, Option.map_some] at hp
      cases hp
      exact ⟨_, q', hord, Effect.nack key owner policy due hheld hrec hseq⟩
    · simp only [QueueAction.perform, hrun, Option.map_some] at hp
      cases hp
      exact ⟨f, q, h, Effect.idle (Or.inr ⟨e, rfl⟩)⟩
  | peekSweep key policy =>
    obtain ⟨f', q', hord, heff⟩ := sweep_effect h (.peekSweep key policy) now
      (effectivePolicy name policy)
    obtain ⟨-, -, rfl, rfl⟩ := perform_peekSweep hp
    exact ⟨f', q', hord, heff⟩
  | statistics policy =>
    obtain ⟨f', q', hord, heff⟩ := sweep_effect h (.statistics policy) now
      (effectivePolicy name policy)
    obtain ⟨-, -, rfl, rfl⟩ := perform_statistics hp
    exact ⟨f', q', hord, heff⟩

/-- A table no order is attached to takes no queue command. -/
theorem perform_unattached {name : String} {t t' : Table} {now : Nat} {a : QueueAction}
    {out : QueueOutcome} (h : t.queue = none) (hp : a.perform name t now = some (out, t')) :
    out = .done ∧ (t'.queue = none ∨
      ∃ persisted, t' = t.attachQueue persisted) := by
  obtain ⟨hout, ⟨persisted, -, rfl⟩ | ⟨-, rfl⟩ | ⟨key, -, rfl⟩⟩ := perform_without_order h hp
  · exact ⟨hout, Or.inr ⟨persisted, rfl⟩⟩
  · exact ⟨hout, Or.inl h⟩
  · exact ⟨hout, Or.inl h⟩

/-! ## Sections keep the records filed -/

/-- The counter stands past every record that carries a sequence number. -/
def Passed (q : QueueState) (t : Table) : Prop :=
  ∀ k n, k ∈ t.records → keySequence k = some n → satAdd n 1 ≤ q.sequence.next

structure Filed (f : String → Place) (q : QueueState) (t : Table) : Prop where
  ordered : Ordered f q t
  files : Files f t
  passed : Passed q t

/-- No order yet, or one that files the records. -/
def Standing (t : Table) : Prop := t.queue = none ∨ ∃ f q, Filed f q t

theorem filed_attach {t : Table} (h : t.queue = none) (persisted : PersistedQueue) :
    Filed (attachedPlace t.records persisted) (QueueState.attach t.records persisted)
      (t.attachQueue persisted) := by
  have hrec : (t.attachQueue persisted).records = t.records := by
    simp [Table.attachQueue, h]
  refine ⟨attachQueue_spec h persisted, ?_, ?_⟩
  · intro k
    rw [hrec]
    exact files_attached t persisted k
  · intro k n hk hn
    rw [hrec] at hk
    exact Sequence.satAdd_le_foldl_raisePast hn _ _ (Std.ExtTreeMap.mem_keys.mpr hk)

theorem Loaded.standing {t : Table} (h : Loaded t) : Standing t := by
  rcases h with h | ⟨persisted, h⟩
  · exact Or.inl h
  · have hatt := filed_attach (t := { t with queue := none }) rfl persisted
    have hsame : ({ t with queue := none } : Table).attachQueue persisted = t := by
      simp only [Table.attachQueue, ← h]
    rw [hsame] at hatt
    exact Or.inr ⟨_, _, hatt⟩

/-- A sweep takes a record away exactly when it takes its key out of the order. -/
theorem files_swept {f : String → Place} {q : QueueState} {t t' : Table} {now : Nat}
    {policy : QueuePolicy} (h : Ordered f q t) (hf : Files f t)
    (hrec : t'.records = (t.takeExpired now policy).2.records) :
    Files (swept f q policy now) t' ∧ ∀ k, k ∈ t'.records → k ∈ t.records := by
  obtain ⟨_, _, _, hrecs⟩ := takeExpired_spec h now policy
  have hiff : ∀ k, k ∈ t'.records ↔
      k ∈ t.records ∧ ¬ (f k ≠ .absent ∧ swept f q policy now k = .absent) := by
    intro k
    rw [hrec, mem_iff_exists, mem_iff_exists]
    simp only [hrecs]
    split <;> simp [*]
  constructor
  · intro k
    rw [hiff, ← hf]
    by_cases habs : f k = .absent
    · simp [habs, swept, Place.sweep]
    · simp [habs]
  · intro k hk
    exact ((hiff k).mp hk).1

theorem files_update {f : String → Place} {t t' : Table} {key : String} {place : Place}
    (hf : Files f t) (hkey : place ≠ .absent ↔ key ∈ t'.records)
    (hother : ∀ k, k ≠ key → (k ∈ t'.records ↔ k ∈ t.records)) :
    Files (Function.update f key place) t' := by
  intro k
  by_cases hk : k = key
  · subst hk
    simpa using hkey
  · rw [Function.update_of_ne hk, hother k hk]
    exact hf k

theorem Passed.mono {q q' : QueueState} {t t' : Table} (h : Passed q t)
    (hseq : q.sequence.next ≤ q'.sequence.next) (hrec : ∀ k, k ∈ t'.records → k ∈ t.records) :
    Passed q' t' :=
  fun k n hk hn => le_trans (h k n (hrec k hk) hn) hseq

theorem filed_effect {name : String} {f f' : String → Place} {q q' : QueueState} {t t' : Table}
    {now : Nat} {a : QueueAction} {out : QueueOutcome} (h : Filed f q t) (hord : Ordered f' q' t')
    (heff : Effect name f q t now a out f' q' t') (hdel : ∀ key, a ≠ .delete key) :
    Filed f' q' t' := by
  cases heff with
  | idle => exact h
  | repair hrec hq =>
    refine ⟨hord, ?_, ?_⟩
    · intro k
      rw [hrec]
      exact files_repaired f t k
    · refine h.passed.mono ?_ (by rw [hrec]; exact fun _ hk => hk)
      rw [hq]
      exact Sequence.next_le_foldl_raisePast _ _
  | enqueue record due hrec hseq =>
    refine ⟨hord, files_update h.files ?_ ?_, ?_⟩
    · simp [hrec, Place.enqueued_ne_absent]
    · intro k hk
      simp [hrec, Ne.symm hk]
    · intro k n hk hn
      have hle := Sequence.next_le_upcoming q.sequence now
      have hmax := Sequence.upcoming_le q.sequence now
      rw [hseq, Sequence.mint_next]
      rw [hrec, Std.ExtTreeMap.mem_insert, Std.compare_eq_iff_eq] at hk
      rcases hk with rfl | hk
      · rw [keySequence_formatKey hmax] at hn
        cases hn
        exact le_refl _
      · have := h.passed k n hk hn
        unfold satAdd at this ⊢
        omega
  | sweep policy _ hseq hrec =>
    obtain ⟨hfiles, hsub⟩ := files_swept h.ordered h.files hrec
    exact ⟨hord, hfiles, h.passed.mono (by rw [hseq]) hsub⟩
  | claim owner visibility own policy delivery _ hseq hrec havail =>
    obtain ⟨hfiles, hsub⟩ := files_swept h.ordered h.files hrec
    refine ⟨hord, files_update hfiles ?_ (fun _ _ => Iff.rfl), h.passed.mono (by rw [hseq]) hsub⟩
    have := (hfiles delivery.key).mp (by simp [havail])
    simpa using this
  | ack key owner _ hrec hseq =>
    refine ⟨hord, files_update h.files ?_ ?_, h.passed.mono (by rw [hseq]) ?_⟩
    · simp [hrec]
    · intro k hk
      simp [hrec, Ne.symm hk]
    · intro k hk
      rw [hrec] at hk
      exact (Std.ExtTreeMap.mem_erase.mp hk).2
  | nack key owner policy due hheld hrec hseq =>
    by_cases hmax : (effectivePolicy name policy).maxDeliveries ≤ q.deliveriesOf key
    · rw [if_pos hmax] at hrec
      refine ⟨hord, files_update h.files ?_ ?_, h.passed.mono (by rw [hseq]) ?_⟩
      · simp [hrec, Place.nacked, hmax]
      · intro k hk
        simp [hrec, Ne.symm hk]
      · intro k hk
        rw [hrec] at hk
        exact (Std.ExtTreeMap.mem_erase.mp hk).2
    · rw [if_neg hmax] at hrec
      refine ⟨hord, files_update h.files ?_ ?_, h.passed.mono (by rw [hseq]) ?_⟩
      · simp [hrec, Place.nacked, hmax, Place.enqueued_ne_absent, hheld.1]
      · intro k _
        rw [hrec]
      · intro k hk
        rwa [hrec] at hk
  | delete key _ => exact absurd rfl (hdel key)

/-- The sections of the queue commands alone. -/
def NoDelete (_ : Table) (e : QueueEvent) : Prop := ∀ key, e.action ≠ .delete key

theorem standing_step {name : String} {t t' : Table} {now : Nat} {a : QueueAction}
    {out : QueueOutcome} (h : Standing t) (hdel : ∀ key, a ≠ .delete key)
    (hp : a.perform name t now = some (out, t')) : Standing t' := by
  rcases h with h | ⟨f, q, h⟩
  · obtain ⟨_, h' | ⟨persisted, rfl⟩⟩ := perform_unattached h hp
    · exact Or.inl h'
    · exact Or.inr ⟨_, _, filed_attach h persisted⟩
  · obtain ⟨f', q', hord, heff⟩ := perform_effect h.ordered hp
    exact Or.inr ⟨f', q', filed_effect h hord heff hdel⟩

theorem standing_run {name : String} {ok : Table → QueueEvent → Prop}
    (hok : ∀ t e, ok t e → NoDelete t e) {t t' : Table} {es : List QueueEvent}
    (h : Standing t) (hrun : Run name ok t es t') : Standing t' := by
  induction hrun with
  | nil => exact h
  | cons hstep hp _ ih => exact ih (standing_step h (hok _ _ hstep) hp)

end RustyPick
