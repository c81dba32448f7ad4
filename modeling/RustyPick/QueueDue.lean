import RustyPick.QueueStore
import RustyPick.QueueClaim

/-!
# RustyPick.QueueDue

Held records are never early: over every run of queue commands, flushes and clean restarts.

A due time is in two places, the map that is written down and the ordered set the sweeps pop. A
record with time still to wait is in both, under the same time, as long as the order is attached;
over a restart it is in the map alone, and the next attachment puts it back into the set. Every
sweep reads a clock that has not passed the time, so nothing else lets it in.

* `never_early`.
-/

namespace RustyPick

open Lib

/-- What a step says about due times: ENQUEUE gives its record one or none, NACK may give it
another. -/
def noteDue (given : String → Option Nat) (e : StoreEvent) : String → Option Nat :=
  match e.action, e.outcome with
  | .command (.enqueue _ due), .enqueued key => Function.update given key due
  | .command (.nack key _ _ (some millis)), .settled => Function.update given key (some millis)
  | _, _ => given

/-- The due time each record was most recently given, those in the book to begin with. -/
def lastDue (s : QueueStore) (es : List StoreEvent) : String → Option Nat := es.foldl noteDue s.dueOf

/-- The record under `key` is among the held ones and nowhere else. -/
def CountedHeld (q : QueueState) (key : String) (millis : Nat) : Prop :=
  dueEntry millis key ∈ q.held ∧ key ∉ q.available ∧ key ∉ q.claims

/-- Times fit a `u64`, and no reading of the clock is ahead of the clock. -/
def Timely (_ : QueueStore) (e : StoreEvent) : Prop := TimesFit e ∧ e.reading ≤ e.clock

/-- No DEQUEUE hands out a record before the time it was last given, and whenever the counts are
reported every such record is in `held`, and in neither `depth` nor `in_flight`. -/
structure NeverEarly (name : String) (s : QueueStore) (es : List StoreEvent) : Prop where
  delivered : ∀ pre e post delivery, es = pre ++ e :: post →
    e.outcome = .delivered (some delivery) →
    ∀ millis, lastDue s pre delivery.key = some millis → millis ≤ e.clock
  counted : ∀ pre e post policy, es = pre ++ e :: post →
    e.action = .command (.statistics policy) →
    ∃ s₁ stats dead t q, StoreRun name Timely s pre s₁ ∧
      s₁.table.queueStatistics name policy e.reading = some (stats, dead, t) ∧
      t.queue = some q ∧ stats.depth = q.available.card ∧ stats.inFlight = q.claims.size ∧
      stats.held = q.held.card ∧
      ∀ key millis, lastDue s pre key = some millis → e.clock < millis → key ∈ t.records →
        CountedHeld q key millis

/-! ## One step -/

theorem countedHeld_iff {f : String → Place} {q : QueueState} (h : Represents f q) {key : String}
    {millis : Nat} : CountedHeld q key millis ↔ f key = .held millis := by
  constructor
  · intro hc
    exact (h.held key millis).mp hc.1
  · intro hf
    refine ⟨(h.held key millis).mpr hf, ?_, ?_⟩
    · rw [h.available, hf]
      simp
    · rw [h.mem_claims, hf]
      simp

/-- A record with time still to wait is held, or will be once the order is attached. -/
def Waits (clock : Nat) (given : String → Option Nat) (s : QueueStore) : Prop :=
  ∀ key millis, given key = some millis → clock < millis → key ∈ s.table.records →
    s.dueOf key = some millis ∧ ∀ q, s.table.queue = some q → CountedHeld q key millis

theorem Waits.mono {clock clock' : Nat} {given : String → Option Nat} {s : QueueStore}
    (h : Waits clock given s) (hle : clock ≤ clock') : Waits clock' given s :=
  fun key millis hg hlt hk => h key millis hg (lt_of_le_of_lt hle hlt) hk

section

variable {s : QueueStore} {clock : Nat} {given : String → Option Nat}

theorem Waits.attach (h : Waits clock given s) : Waits clock given s.attach := by
  cases hq : s.table.queue with
  | some q => rw [attach_of_some hq]; exact h
  | none =>
    have ht := attach_of_none hq
    intro key millis hg hlt hk
    have hk' : key ∈ s.table.records := by
      rw [ht] at hk
      exact hk
    have hdue := (attach_kept hk').2.trans (h key millis hg hlt hk').1
    refine ⟨hdue, fun q hq' => ?_⟩
    have hatt : q = QueueState.attach s.table.records s.persisted := by
      rw [ht] at hq'
      exact (Option.some.inj hq').symm
    rw [hatt, countedHeld_iff (represents_attach s.table.records s.persisted)]
    simp only [QueueStore.dueOf, ht] at hdue
    simp only [attachedPlace, if_pos hk', hdue]

theorem Waits.flush (h : Waits clock given s) : Waits clock given s.flush := by
  intro key millis hg hlt hk
  rw [flush_records] at hk
  obtain ⟨hdue, hheld⟩ := h key millis hg hlt hk
  refine ⟨(flush_kept s key).2.trans hdue, fun q hq => ?_⟩
  cases hq₀ : s.table.queue with
  | none =>
    rw [flush_of_none hq₀] at hq
    simp [Table.clearDirty, hq₀] at hq
  | some q₀ =>
    cases hd : q₀.isDirty with
    | false =>
      rw [flush_of_clean hq₀ hd] at hq
      exact hheld q hq
    | true =>
      rw [flush_of_dirty hq₀ hd] at hq
      simp only [Table.clearDirty, Option.some.injEq] at hq
      rw [← hq]
      exact hheld q₀ hq₀

theorem Waits.restart (hkept : Kept s) (h : Waits clock given s) : Waits clock given s.restart := by
  intro key millis hg hlt hk
  rw [mem_restart] at hk
  refine ⟨(restart_kept hkept hk).2.trans (h key millis hg hlt hk).1, fun q hq => ?_⟩
  cases hq

end

/-- The places a sweep leaves alone: those with time still to wait. -/
theorem swept_held {f : String → Place} {q : QueueState} {key : String} {millis now : Nat}
    (hf : f key = .held millis) (hlt : now < millis) (policy : QueuePolicy) :
    swept f q policy now key = .held millis := by
  simp [swept, hf, Place.sweep, Nat.not_le.mpr hlt]

/-- One command, place by place. -/
theorem waits_effect {name : String} {clock : Nat} {given : String → Option Nat} {e : StoreEvent}
    {a : QueueAction} {f f' : String → Place} {q q' : QueueState} {t t' : Table}
    (hstep : CommandStep name e.reading a e.outcome f f' q q' t t') (ha : e.action = .command a)
    (hle : clock ≤ e.clock) (hread : e.reading ≤ e.clock)
    (h : ∀ key millis, given key = some millis → clock < millis → key ∈ t.records →
      f key = .held millis) :
    ∀ key millis, noteDue given e key = some millis → e.clock < millis → key ∈ t'.records →
      f' key = .held millis := by
  intro key millis hg hlt hk
  have hold : given key = some millis → key ∈ t.records → f key = .held millis := fun hg hk =>
    h key millis hg (lt_of_le_of_lt hle hlt) hk
  have hwait : e.reading < millis := lt_of_le_of_lt hread hlt
  have hbefore := hstep.before
  have heff := hstep.effect
  generalize ho : e.outcome = out at heff
  cases heff with
  | idle hout =>
    have hnote : noteDue given e = given := by
      rcases hout with rfl | ⟨error, rfl⟩ <;> simp [noteDue, ha, ho]
    rw [hnote] at hg
    exact hold hg hk
  | repair hrec _ =>
    simp only [noteDue, ha, ho] at hg
    rw [hrec] at hk
    simp [repaired, hk, hold hg hk]
  | enqueue record due hrec _ =>
    simp only [noteDue, ha, ho] at hg
    by_cases hkey : key = formatKey (q.sequence.upcoming e.reading)
    · subst hkey
      rw [Function.update_self] at hg ⊢
      simp [hg, Place.enqueued]
    · rw [Function.update_of_ne hkey] at hg ⊢
      rw [hrec, Std.ExtTreeMap.mem_insert, Std.compare_eq_iff_eq] at hk
      exact hold hg (hk.resolve_left (Ne.symm hkey))
  | sweep policy hout _ hrec =>
    have hnote : noteDue given e = given := by
      rcases hout with rfl | rfl <;> simp [noteDue, ho]
    rw [hnote] at hg
    exact swept_held (hold hg ((files_swept hbefore.ordered hbefore.files hrec).2 key hk)) hwait
      policy
  | claim owner visibility own policy delivery _ _ hrec havail =>
    simp only [noteDue, ha, ho] at hg
    have hheld := swept_held (q := q)
      (hold hg ((files_swept hbefore.ordered hbefore.files hrec).2 key hk)) hwait policy
    have hne : key ≠ delivery.key := by
      intro hkey
      rw [hkey, havail] at hheld
      cases hheld
    rw [Function.update_of_ne hne]
    exact hheld
  | ack k owner hheld hrec _ =>
    simp only [noteDue, ha, ho] at hg
    rw [hrec, Std.ExtTreeMap.mem_erase, ne_eq, Std.compare_eq_iff_eq] at hk
    rw [Function.update_of_ne (Ne.symm hk.1)]
    exact hold hg hk.2
  | nack k owner policy due hheld hrec _ =>
    by_cases hkey : key = k
    · subst hkey
      rw [Function.update_self]
      by_cases hmax : (effectivePolicy name policy).maxDeliveries ≤ q.deliveriesOf key
      · -- out of deliveries, the record is on its way to the dead letters
        rw [hrec, if_pos hmax] at hk
        simp at hk
      · rw [Place.nacked, if_neg hmax]
        cases due with
        | some m =>
          simp only [noteDue, ha, ho, Function.update_self] at hg
          cases hg
          rfl
        | none =>
          simp only [noteDue, ha, ho] at hg
          obtain ⟨hrecord, expires, hclaimed⟩ := hheld
          rw [hold hg hrecord] at hclaimed
          cases hclaimed
    · rw [Function.update_of_ne hkey]
      have hk' : key ∈ t.records := by
        rw [hrec] at hk
        split at hk
        · exact (Std.ExtTreeMap.mem_erase.mp hk).2
        · exact hk
      refine hold ?_ hk'
      cases due with
      | some m => simpa [noteDue, ha, ho, Function.update_of_ne hkey] using hg
      | none => simpa [noteDue, ha, ho] using hg
  | delete k hrec =>
    simp only [noteDue, ha, ho] at hg
    rw [hrec] at hk
    exact hold hg (Std.ExtTreeMap.mem_erase.mp hk).2

theorem Waits.places {s : QueueStore} {clock : Nat} {given : String → Option Nat}
    (h : Waits clock given s) {f : String → Place} {q : QueueState} (hf : Filed f q s.table) :
    ∀ key millis, given key = some millis → clock < millis → key ∈ s.table.records →
      f key = .held millis :=
  fun key millis hg hlt hk =>
    (countedHeld_iff hf.ordered.places).mp ((h key millis hg hlt hk).2 q hf.ordered.queue)

theorem noteDue_of_done {given : String → Option Nat} {e : StoreEvent} (h : e.outcome = .done) :
    noteDue given e = given := by
  simp [noteDue, h]

theorem waits_step {name : String} {s s' : QueueStore} {clock : Nat} {given : String → Option Nat}
    {e : StoreEvent} (hkept : Kept s) (h : Waits clock given s) (hle : clock ≤ e.clock)
    (hread : e.reading ≤ e.clock)
    (hp : e.action.perform name s e.reading = some (e.outcome, s')) :
    Waits e.clock (noteDue given e) s' := by
  rcases store_step hp with ⟨a, t', ha, hcmd, hrun, rfl⟩ | ⟨hout, hcase⟩
  · cases hq : s.table.queue with
    | none =>
      obtain ⟨hout, rfl⟩ := perform_of_none hq hcmd hrun
      rw [noteDue_of_done hout]
      exact h.mono hle
    | some q =>
      obtain ⟨f, f', q', hstep⟩ := command_step hkept hq hcmd hrun
      have hplaces := waits_effect hstep ha hle hread (h.places hstep.before)
      have hq' := hstep.after.ordered.queue
      have hrep := hstep.after.ordered.places
      intro key millis hg hlt hk
      have hf := hplaces key millis hg hlt hk
      refine ⟨?_, fun q₁ hq₁ => ?_⟩
      · simp only [QueueStore.dueOf, hq']
        exact hrep.due key millis hf
      · obtain rfl : q' = q₁ := by simpa [hq'] using hq₁
        exact (countedHeld_iff hrep).mpr hf
  · rw [noteDue_of_done hout]
    rcases hcase with ⟨-, rfl⟩ | ⟨-, rfl⟩ | ⟨-, rfl⟩
    · exact (h.mono hle).attach
    · exact (h.mono hle).flush
    · exact (h.mono hle).restart hkept

/-- What a DEQUEUE hands out has no time still to wait. -/
theorem delivered_due {name : String} {s s' : QueueStore} {clock : Nat}
    {given : String → Option Nat} {e : StoreEvent} {delivery : QueueDelivery} (hkept : Kept s)
    (h : Waits clock given s) (hle : clock ≤ e.clock) (hread : e.reading ≤ e.clock)
    (hp : e.action.perform name s e.reading = some (e.outcome, s'))
    (hout : e.outcome = .delivered (some delivery)) :
    ∀ millis, given delivery.key = some millis → millis ≤ e.clock := by
  intro millis hg
  by_contra hlt
  rw [Nat.not_le] at hlt
  rcases store_step hp with ⟨a, t', ha, hcmd, hrun, rfl⟩ | ⟨hdone, -⟩
  · cases hq : s.table.queue with
    | none =>
      have := (perform_of_none hq hcmd hrun).1
      rw [hout] at this
      cases this
    | some q =>
      obtain ⟨f, f', q', hstep⟩ := command_step hkept hq hcmd hrun
      have heff := hstep.effect
      rw [hout] at heff
      cases heff with
      | idle hidle => rcases hidle with hidle | ⟨error, hidle⟩ <;> cases hidle
      | sweep _ hsweep _ _ => rcases hsweep with hsweep | hsweep <;> cases hsweep
      | claim owner visibility own policy _ _ _ _ havail =>
        have hrecord : delivery.key ∈ s.table.records := by
          apply (hstep.before.files _).mp
          intro habs
          simp [swept, habs, Place.sweep] at havail
        have hheld := h.places hstep.before delivery.key millis hg (lt_of_le_of_lt hle hlt) hrecord
        rw [swept_held hheld (lt_of_le_of_lt hread hlt) policy] at havail
        cases havail
  · rw [hout] at hdone
    cases hdone

/-! ## Whole runs -/

theorem waits_opened (s : QueueStore) (h : Opened s) : Waits 0 s.dueOf s := by
  intro key millis hg _ _
  refine ⟨hg, fun q hq => ?_⟩
  rw [h.queue] at hq
  cases hq

/-- The moment of the last event. -/
def lastClock (clock : Nat) (es : List StoreEvent) : Nat := es.foldl (fun _ e => e.clock) clock

theorem waits_run {name : String} : ∀ {es : List StoreEvent} {s s' : QueueStore} {clock : Nat}
    {given : String → Option Nat}, StoreRun name Timely s es s' →
    es.Pairwise (fun a b => a.clock ≤ b.clock) → (∀ e ∈ es, clock ≤ e.clock) → Kept s →
    Waits clock given s → Kept s' ∧ Waits (lastClock clock es) (es.foldl noteDue given) s' := by
  intro es
  induction es with
  | nil => intro s s' clock given hrun _ _ hkept h; cases hrun; exact ⟨hkept, h⟩
  | cons e es ih =>
    intro s s' clock given hrun hsorted hle hkept h
    rw [List.pairwise_cons] at hsorted
    cases hrun with
    | cons hok hp hrest =>
      exact ih hrest hsorted.2 hsorted.1 (hkept.step hok.1 hp)
        (waits_step hkept h (hle e List.mem_cons_self) hok.2 hp)

theorem lastClock_le {clock bound : Nat} : ∀ {es : List StoreEvent}, clock ≤ bound →
    (∀ e ∈ es, e.clock ≤ bound) → lastClock clock es ≤ bound := by
  intro es
  induction es generalizing clock with
  | nil => intro h _; exact h
  | cons e es ih =>
    intro _ hes
    exact ih (hes e List.mem_cons_self) fun e' he' => hes e' (List.mem_cons_of_mem _ he')

/-- The file just before an event of a run. -/
theorem waits_before {name : String} {s s' : QueueStore} {es pre post : List StoreEvent}
    {e : StoreEvent} (h : Opened s) (hrun : StoreRun name Timely s es s')
    (hclock : es.Pairwise fun a b => a.clock ≤ b.clock) (hes : es = pre ++ e :: post) :
    ∃ s₁ s₂ clock, StoreRun name Timely s pre s₁ ∧ Kept s₁ ∧ Waits clock (lastDue s pre) s₁ ∧
      clock ≤ e.clock ∧ Timely s₁ e ∧
      e.action.perform name s₁ e.reading = some (e.outcome, s₂) := by
  subst hes
  obtain ⟨s₁, hpre, hrest⟩ := hrun.append
  rw [List.pairwise_append] at hclock
  have hzero : ∀ e ∈ pre, 0 ≤ e.clock := fun _ _ => Nat.zero_le _
  obtain ⟨hkept, hwaits⟩ := waits_run hpre hclock.1 hzero h.kept (waits_opened s h)
  cases hrest with
  | cons hok hp _ =>
    exact ⟨s₁, _, _, hpre, hkept, hwaits, lastClock_le (Nat.zero_le _) fun e' he' =>
      hclock.2.2 e' he' e List.mem_cons_self, hok, hp⟩

/-- Over every run of queue commands, flushes and clean restarts with a clock that does not go
back. A run of commands one at a time is one whose readings are the clock itself. -/
theorem never_early (name : String) {s s' : QueueStore} {es : List StoreEvent} (h : Opened s)
    (hrun : StoreRun name Timely s es s') (hclock : es.Pairwise fun a b => a.clock ≤ b.clock) :
    NeverEarly name s es := by
  constructor
  · intro pre e post delivery hes hout
    obtain ⟨s₁, s₂, clock, -, hkept, hwaits, hle, hok, hp⟩ := waits_before h hrun hclock hes
    exact delivered_due hkept hwaits hle hok.2 hp hout
  · intro pre e post policy hes ha
    obtain ⟨s₁, s₂, clock, hpre, hkept, hwaits, hle, hok, hp⟩ := waits_before h hrun hclock hes
    have hafter := waits_step hkept hwaits hle hok.2 hp
    rcases store_step hp with ⟨a, t', ha', hcmd, hperform, rfl⟩ | ⟨-, hcase⟩
    · obtain rfl : a = .statistics policy := by
        rw [ha] at ha'
        exact (StoreAction.command.inj ha').symm
      obtain ⟨⟨stats, dead, t⟩, hstats, heq⟩ := Option.map_eq_some_iff.mp hperform
      simp only [Prod.mk.injEq] at heq
      obtain ⟨hdone, rfl⟩ := heq
      rw [noteDue_of_done hdone.symm] at hafter
      have hreport := hstats
      unfold Table.queueStatistics at hreport
      simp only at hreport
      obtain ⟨q, hq, heq⟩ := Option.map_eq_some_iff.mp hreport
      simp only [Prod.mk.injEq] at heq
      obtain ⟨rfl, rfl, rfl⟩ := heq
      exact ⟨s₁, _, _, _, q, hpre, hstats, hq, rfl, rfl, rfl, fun key millis hg hlt hk =>
        (hafter key millis hg hlt hk).2 q hq⟩
    · rw [ha] at hcase
      rcases hcase with ⟨hc, -⟩ | ⟨hc, -⟩ | ⟨hc, -⟩ <;> cases hc

/-- A new queue file: no records, no book. -/
def newQueue : QueueStore := { table := {} }

theorem newQueue_opened : Opened newQueue := ⟨rfl, fun _ hk => absurd hk (by simp [newQueue])⟩

/-- Held until 100 and over a restart: counted as held at 8, handed out at 100. -/
theorem never_early_over_restart :
    ∃ es s, StoreRun "JOBS" Timely newQueue es s ∧ es.length = 6 ∧
      (∃ e ∈ es, e.clock = 100 ∧ e.outcome.key = some "00000000000005000000") ∧
      NeverEarly "JOBS" newQueue es := by
  have houts : storeOutcomes "JOBS" (fun _ _ => true) newQueue
      [.at 4 .attach, .at 5 (.command (.enqueue (Record.text "later") (some 100))),
        .at 6 .restart, .at 7 .attach, .at 8 (.command (.statistics {})),
        .at 100 (.command (.dequeue "A" none {}))] =
      some [.done, .enqueued "00000000000005000000", .done, .done, .done,
        deliveryOf "00000000000005000000" "A" (Record.text "later") 1 60100] := by
    decide +kernel
  obtain ⟨s, hrun⟩ := storeRun_of_outcomes Timely (by
    intro s e he out _
    simp only [List.mem_cons, List.not_mem_nil, or_false] at he
    rcases he with rfl | rfl | rfl | rfl | rfl | rfl
    all_goals
      refine ⟨fun a m ha hm => ?_, le_refl _⟩
      simp only [StoreEvent.at, StoreAction.command.injEq, reduceCtorEq] at ha
    all_goals
      subst ha
      simp [QueueAction.dueMillis] at hm
    subst hm
    decide) houts
  exact ⟨_, s, hrun, rfl, ⟨_, List.getLast_mem (by simp [StoreEvent.withOutcomes]), rfl, rfl⟩,
    never_early "JOBS" newQueue_opened hrun (by decide)⟩

end RustyPick
