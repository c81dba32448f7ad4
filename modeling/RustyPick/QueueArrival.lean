import RustyPick.QueueClaim

/-!
# RustyPick.QueueArrival

First come, first served: over every run, whatever the clock does.

A record waits under the key it was minted, and as long as nobody is handed that key it stays
available there: releases, sweeps, backoffs and repairs move other keys. A later ENQUEUE mints a
larger number, the text of a larger number is larger, and DEQUEUE takes the least available key.

* `arrival_order`: a record is not handed out before one that was enqueued ahead of it, in every
  run in which no ENQUEUE mints the last sequence number over a record and no DEQUEUE fails after
  it has claimed one.
-/

namespace RustyPick

open Lib

/-- The ENQUEUE would mint the last sequence number while there is a record under that key. -/
def MintsRecord (t : Table) (e : QueueEvent) : Prop :=
  ∃ record due q, e.action = .enqueue record due ∧ t.queue = some q ∧
    q.sequence.upcoming e.reading = u64Max ∧ formatKey u64Max ∈ t.records

/-- What follows a DEQUEUE fails, and there was a record to claim. -/
def FailsDequeue (name : String) (t : Table) (e : QueueEvent) : Prop :=
  e.failure ≠ none ∧ ∃ owner visibility policy q, e.action = .dequeue owner visibility policy ∧
    (t.takeExpired e.reading (dequeuePolicy name policy visibility)).2.queue = some q ∧
    q.head ≠ none

def KeepsArrival (name : String) (t : Table) (e : QueueEvent) : Prop :=
  ¬ MintsRecord t e ∧ ¬ FailsDequeue name t e

/-- The event hands out `key`. -/
def QueueEvent.Delivers (e : QueueEvent) (key : String) : Prop :=
  ∃ delivery, e.reported = .delivered (some delivery) ∧ delivery.key = key

/-- Of two records enqueued one after the other and not held back, the second is handed out only
once the first has been, or has been deleted. -/
def ArrivalOrder (es : List QueueEvent) : Prop :=
  ∀ (pre : List QueueEvent) (e₁ : QueueEvent) (mid₁ : List QueueEvent) (e₂ : QueueEvent)
      (mid₂ : List QueueEvent) (e₃ : QueueEvent) (post : List QueueEvent) (r₁ r₂ : Record)
      (k₁ k₂ : String),
    es = pre ++ e₁ :: (mid₁ ++ e₂ :: (mid₂ ++ e₃ :: post)) →
    e₁.action = .enqueue r₁ none → e₁.reported = .enqueued k₁ →
    e₂.action = .enqueue r₂ none → e₂.reported = .enqueued k₂ →
    e₃.Delivers k₂ →
    ∃ e ∈ mid₁ ++ mid₂, e.Delivers k₁ ∨ e.action = .delete k₁

/-! ## One record waiting -/

/-- The record under `key` waits in the order, and the counter has passed its number. -/
structure Waiting (f : String → Place) (q : QueueState) (t : Table) (key : String) (n : Nat) :
    Prop where
  ordered : Ordered f q t
  place : f key = .available
  record : key ∈ t.records
  minted : key = formatKey n
  bound : n ≤ u64Max
  past : satAdd n 1 ≤ q.sequence.next

section

variable {name : String} {f f' : String → Place} {q q' : QueueState} {t t' : Table}
  {key : String} {n : Nat} {e : QueueEvent}

theorem swept_available (hf : f key = .available) (policy : QueuePolicy) (now : Nat) :
    swept f q policy now key = .available := by
  simp [swept, hf, Place.sweep]

theorem swept_record (h : Ordered f q t) (hf : f key = .available) (hrec : key ∈ t.records)
    (policy : QueuePolicy) (now : Nat) : key ∈ (t.takeExpired now policy).2.records := by
  obtain ⟨_, _, _, hrecs⟩ := takeExpired_spec h now policy
  obtain ⟨record, hr⟩ := mem_iff_exists.mp hrec
  refine mem_of_getElem? (v := record) ?_
  rw [hrecs, swept_available hf]
  simpa using hr

/-- A later mint is a larger number, unless it is the last one over the waiting record. -/
theorem Waiting.lt_upcoming (h : Waiting f q t key n) (hok : KeepsArrival name t e)
    {record : Record} {due : Option Nat} (ha : e.action = .enqueue record due) :
    n < q.sequence.upcoming e.reading := by
  have hle := Sequence.next_le_upcoming q.sequence e.reading
  have hmax := Sequence.upcoming_le q.sequence e.reading
  have hpast := h.past
  unfold satAdd at hpast
  rcases Nat.lt_or_ge n (q.sequence.upcoming e.reading) with hlt | hge
  · exact hlt
  · have hlast : q.sequence.upcoming e.reading = u64Max := by omega
    have hn : n = u64Max := le_antisymm h.bound (by omega)
    exact absurd ⟨record, due, q, ha, h.ordered.queue, hlast, by rw [← hn, ← h.minted]; exact h.record⟩
      hok.1

/-- A record that is neither handed out nor deleted goes on waiting. -/
theorem waiting_effect (h : Waiting f q t key n) (hord : Ordered f' q' t')
    (heff : Effect name f q t e.reading e.action e.outcome f' q' t')
    (hok : KeepsArrival name t e) (hdeliv : ¬ e.Delivers key) (hdel : e.action ≠ .delete key) :
    Waiting f' q' t' key n := by
  have hpast : satAdd n 1 ≤ q'.sequence.next := le_trans h.past (next_le_effect heff)
  have hnext := @Waiting.lt_upcoming _ _ _ _ _ _ e h hok
  suffices hkeep : f' key = .available ∧ key ∈ t'.records from
    ⟨hord, hkeep.1, hkeep.2, h.minted, h.bound, hpast⟩
  have hheld : ∀ k o, Held f t k o → k ≠ key := by
    rintro k o ⟨_, x, hc⟩ rfl
    rw [h.place] at hc
    cases hc
  generalize ha : e.action = a at heff hnext
  generalize ho : e.outcome = out at heff
  cases heff with
  | idle _ => exact ⟨h.place, h.record⟩
  | repair hrec _ =>
    exact ⟨by simp [repaired, h.record, h.place], by rw [hrec]; exact h.record⟩
  | enqueue record due hrec _ =>
    have hne : key ≠ formatKey (q.sequence.upcoming e.reading) := by
      rw [h.minted]
      intro hk
      have := formatKey_injective h.bound (Sequence.upcoming_le q.sequence e.reading) hk
      have hlt := hnext rfl
      omega
    rw [Function.update_of_ne hne, hrec]
    exact ⟨h.place, Std.ExtTreeMap.mem_insert.mpr (Or.inr h.record)⟩
  | sweep policy _ _ hrec =>
    rw [hrec]
    exact ⟨swept_available h.place policy _, swept_record h.ordered h.place h.record policy _⟩
  | claim owner visibility own policy delivery hpolicy _ hrec havail _ _ _ =>
    have hne : key ≠ delivery.key := by
      rintro rfl
      by_cases hfail : e.failure = none
      · exact hdeliv ⟨delivery, by simp [QueueEvent.reported, ho, hfail], rfl⟩
      · obtain ⟨q₁, hord₁, _⟩ := takeExpired_spec h.ordered e.reading policy
        refine hok.2 ⟨hfail, owner, visibility, own, q₁, ha, by rw [← hpolicy]; exact hord₁.queue, ?_⟩
        intro hnone
        have hin := (hord₁.places.available delivery.key).mpr havail
        rw [first_eq_none.mp hnone] at hin
        exact absurd hin (Finset.notMem_empty _)
    rw [Function.update_of_ne hne, hrec]
    exact ⟨swept_available h.place policy _, swept_record h.ordered h.place h.record policy _⟩
  | ack k o hk hrec _ =>
    have hne := hheld k o hk
    rw [Function.update_of_ne (Ne.symm hne), hrec]
    exact ⟨h.place, by simp [h.record, hne]⟩
  | nack k o policy due hk hrec _ =>
    have hne := hheld k o hk
    rw [Function.update_of_ne (Ne.symm hne), hrec]
    refine ⟨h.place, ?_⟩
    split
    · simp [h.record, hne]
    · exact h.record
  | delete k hrec =>
    have hne : k ≠ key := fun hk => hdel (by rw [ha, hk])
    rw [hrec]
    exact ⟨h.place, by simp [h.record, hne]⟩

end

theorem waiting_run {name : String} {key : String} {n : Nat} :
    ∀ {es : List QueueEvent} {t t' : Table} {f : String → Place} {q : QueueState},
      Run name (KeepsArrival name) t es t' → Waiting f q t key n →
      (∀ e ∈ es, ¬ (e.Delivers key ∨ e.action = .delete key)) →
      ∃ f' q', Waiting f' q' t' key n := by
  intro es
  induction es with
  | nil => intro t t' f q hrun h _; cases hrun; exact ⟨f, q, h⟩
  | cons e es ih =>
    intro t t' f q hrun h hes
    cases hrun with
    | cons hok hp hrest =>
      obtain ⟨f', q', hord, heff⟩ := perform_effect h.ordered hp
      have he := hes e List.mem_cons_self
      rw [not_or] at he
      exact ih hrest (waiting_effect h hord heff hok he.1 he.2)
        (fun e' he' => hes e' (List.mem_cons_of_mem _ he'))

/-! ## Whole runs -/

/-- No order yet, or one that spells out places. -/
def Attached (t : Table) : Prop := t.queue = none ∨ ∃ f q, Ordered f q t

theorem attached_run {name : String} {ok : Table → QueueEvent → Prop} {t t' : Table}
    {es : List QueueEvent} (h : Attached t) (hrun : Run name ok t es t') : Attached t' := by
  induction hrun with
  | nil => exact h
  | cons _ hp _ ih =>
    refine ih ?_
    rcases h with h | ⟨f, q, h⟩
    · obtain ⟨_, h' | ⟨persisted, rfl⟩⟩ := perform_unattached h hp
      · exact Or.inl h'
      · exact Or.inr ⟨_, _, attachQueue_spec h persisted⟩
    · obtain ⟨f', q', hord, _⟩ := perform_effect h hp
      exact Or.inr ⟨f', q', hord⟩

/-- An ENQUEUE reports the key it minted. -/
theorem enqueued_key {name : String} {f : String → Place} {q : QueueState} {t t' : Table}
    {e : QueueEvent} {record : Record} {due : Option Nat} {key : String} (h : Ordered f q t)
    (hp : e.action.perform name t e.reading = some (e.outcome, t'))
    (ha : e.action = .enqueue record due) (hout : e.outcome = .enqueued key) :
    key = formatKey (q.sequence.upcoming e.reading) ∧
      ∃ q', Ordered (Function.update f key (Place.enqueued due)) q' t' ∧
        t'.records = t.records.insert key record ∧
        q'.sequence = (q.sequence.mint e.reading).2 := by
  obtain ⟨q', t₁, hrun, hord, hrec, hseq⟩ := enqueueDue_spec h record due e.reading
  rw [ha, QueueAction.perform, hrun, Option.map_some, hout, Option.some.injEq, Prod.mk.injEq,
    QueueOutcome.enqueued.injEq] at hp
  obtain ⟨hkey, rfl⟩ := hp
  simp only at hkey
  rw [hkey] at hord hrec
  exact ⟨hkey.symm, q', hord, hrec, hseq⟩

/-- An ENQUEUE leaves its record waiting under the key it reports. -/
theorem waiting_of_enqueued {name : String} {t t' : Table} {e : QueueEvent} {record : Record}
    {key : String} (h : Attached t) (hp : e.action.perform name t e.reading = some (e.outcome, t'))
    (ha : e.action = .enqueue record none) (hout : e.outcome = .enqueued key) :
    ∃ f' q' n, Waiting f' q' t' key n := by
  rcases h with h | ⟨f, q, h⟩
  · have := (perform_unattached h hp).1
    rw [hout] at this
    cases this
  · obtain ⟨hkey, q', hord, hrec, hseq⟩ := enqueued_key h hp ha hout
    refine ⟨_, q', q.sequence.upcoming e.reading, hord, by simp [Place.enqueued], by simp [hrec],
      hkey, Sequence.upcoming_le _ _, ?_⟩
    rw [hseq, Sequence.mint_next]

theorem Loaded.attached {t : Table} (h : Loaded t) : Attached t := by
  rcases h.standing with h | ⟨f, q, h⟩
  · exact Or.inl h
  · exact Or.inr ⟨f, q, h.ordered⟩

/-- The order of a queue is the order of arrival, in every run in which no ENQUEUE mints the last
sequence number over a record and no DEQUEUE fails after it has claimed one. -/
theorem arrival_order (name : String) {t t' : Table} {es : List QueueEvent} (h : Loaded t)
    (hrun : Run name (KeepsArrival name) t es t') : ArrivalOrder es := by
  intro pre e₁ mid₁ e₂ mid₂ e₃ post r₁ r₂ k₁ k₂ hes ha₁ hrep₁ ha₂ hrep₂ hdeliv
  by_contra hcon
  have hquiet : ∀ e ∈ mid₁ ++ mid₂, ¬ (e.Delivers k₁ ∨ e.action = .delete k₁) := by
    intro e he hbad
    exact hcon ⟨e, he, hbad⟩
  have hout₁ := (e₁.reported_eq hrep₁ (by simp)).1
  have hout₂ := (e₂.reported_eq hrep₂ (by simp)).1
  subst hes
  obtain ⟨t₁, hpre, hrest⟩ := run_append hrun
  cases hrest with
  | cons hok₁ hp₁ hrest =>
    obtain ⟨f, q, n, hwait⟩ :=
      waiting_of_enqueued (attached_run h.attached hpre) hp₁ ha₁ hout₁
    obtain ⟨t₂, hmid₁, hrest⟩ := run_append hrest
    obtain ⟨f, q, hwait⟩ := waiting_run hmid₁ hwait
      (fun e he => hquiet e (List.mem_append_left _ he))
    cases hrest with
    | cons hok₂ hp₂ hrest =>
      have hlt := hwait.lt_upcoming hok₂ ha₂
      -- the second key is the text of a larger number
      have hkey : k₁ < k₂ := by
        rw [(enqueued_key hwait.ordered hp₂ ha₂ hout₂).1, hwait.minted]
        exact formatKey_strictMono hlt (Sequence.upcoming_le _ _)
      obtain ⟨f', q', hord, heff⟩ := perform_effect hwait.ordered hp₂
      have hwait := waiting_effect hwait hord heff hok₂
        (by rintro ⟨d, hd, _⟩; rw [hrep₂] at hd; exact QueueOutcome.noConfusion hd)
        (by rw [ha₂]; simp)
      obtain ⟨t₄, hmid₂, hrest⟩ := run_append hrest
      obtain ⟨f, q, hwait⟩ := waiting_run hmid₂ hwait
        (fun e he => hquiet e (List.mem_append_right _ he))
      cases hrest with
      | cons _ hp₃ _ =>
        obtain ⟨delivery, hrep₃, rfl⟩ := hdeliv
        have hout₃ := (e₃.reported_eq hrep₃ (by simp)).1
        obtain ⟨f', q', _, heff⟩ := perform_effect hwait.ordered hp₃
        generalize e₃.action = a at heff
        rw [hout₃] at heff
        cases heff with
        | idle hout => rcases hout with hout | ⟨error, hout⟩ <;> cases hout
        | sweep _ hout _ _ => rcases hout with hout | hout <;> cases hout
        | claim _ _ _ policy _ _ _ _ _ hleast _ _ =>
          have := hleast k₁ (swept_available hwait.place policy _)
          exact absurd hkey (not_lt.mpr this)

/-- With the clock past the last millisecond a key can carry, both records are minted the same key:
the second is handed out and the first is lost. -/
theorem last_millisecond_overwrites :
    ∃ es t, Loaded emptyQueue ∧ Run "JOBS" (fun _ _ => True) emptyQueue es t ∧
      (∀ e ∈ es, e.failure = none) ∧ ¬ ArrivalOrder es := by
  have houts : performAll "JOBS" (fun _ _ => true) emptyQueue
      [.at 18446744073710 (.enqueue (Record.text "first") none),
        .at 18446744073710 (.enqueue (Record.text "second") none),
        .at 18446744073711 (.dequeue "A" none {})] =
      some [.enqueued "18446744073709551615", .enqueued "18446744073709551615",
        deliveryOf "18446744073709551615" "A" (Record.text "second") 1 18446744133711] := by
    decide +kernel
  obtain ⟨t, hrun⟩ := run_of_outcomes (fun _ _ => True) (by simp) houts
  refine ⟨_, t, emptyQueue_loaded, hrun, by simp [withOutcomes, QueueEvent.at], ?_⟩
  intro h
  obtain ⟨e, he, _⟩ := h [] _ [] _ [] _ [] _ _ _ _ rfl rfl rfl rfl rfl ⟨_, rfl, rfl⟩
  cases he

/-- The counter would not mint the last number. -/
def belowLast (t : Table) (e : QueueEvent) : Bool :=
  match t.queue with
  | some q => q.sequence.upcoming e.reading ≠ u64Max
  | none => true

theorem arrival_order_of_two :
    ∃ es t, Loaded emptyQueue ∧ Run "JOBS" (KeepsArrival "JOBS") emptyQueue es t ∧
      es.length = 4 ∧ ArrivalOrder es := by
  have houts : performAll "JOBS" belowLast emptyQueue
      [.at 7 (.enqueue (Record.text "first") none), .at 5 (.enqueue (Record.text "second") none),
        .at 8 (.dequeue "A" none {}), .at 8 (.dequeue "B" none {})] =
      some [.enqueued "00000000000007000000", .enqueued "00000000000007000001",
        deliveryOf "00000000000007000000" "A" (Record.text "first") 1 60008,
        deliveryOf "00000000000007000001" "B" (Record.text "second") 1 60008] := by
    decide +kernel
  obtain ⟨t, hrun⟩ := run_of_outcomes (KeepsArrival "JOBS") (by
    intro t e he out hbelow
    have hnone : e.failure = none := by
      simp only [List.mem_cons, List.not_mem_nil, or_false] at he
      rcases he with rfl | rfl | rfl | rfl <;> rfl
    refine ⟨?_, fun hfail => hfail.1 hnone⟩
    rintro ⟨record, due, q, _, hq, hlast, _⟩
    simp [belowLast, hq, hlast] at hbelow) houts
  exact ⟨_, t, emptyQueue_loaded, hrun, rfl, arrival_order "JOBS" emptyQueue_loaded hrun⟩

end RustyPick
