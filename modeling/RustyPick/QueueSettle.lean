import RustyPick.QueueClaim

/-!
# RustyPick.QueueSettle

What it takes to settle a claim.

ACK and NACK look the key up in the claim book and compare the owner. A claim that has lapsed stays
in the book until some command sweeps, so the two disagree with the history of the file in one
case, and `settle_iff` says it is the only one: the book still holds the caller's own lapsed claim.
-/

namespace RustyPick

open Lib

/-- Who was last handed `key` and until when, after one more section: nobody once it is settled. -/
def claimAfter (key : String) (last : Option (String × Nat)) (e : QueueEvent) :
    Option (String × Nat) :=
  match e.outcome with
  | .delivered (some delivery) =>
    if delivery.key = key then
      delivery.owner.bind fun owner => delivery.expiresMillis.map fun expires => (owner, expires)
    else last
  | .settled => if e.action.settles.map Prod.fst = some key then none else last
  | _ => last

/-- The most recent claim on `key` in a history, unless it was released or acknowledged since. -/
def lastClaim (es : List QueueEvent) (key : String) : Option (String × Nat) :=
  es.foldl (claimAfter key) none

/-- `owner` holds the most recent claim on `key`, it was not settled since, and it has not lapsed. -/
def HoldsClaim (es : List QueueEvent) (key owner : String) (now : Nat) : Prop :=
  ∃ expires, lastClaim es key = some (owner, expires) ∧ now < expires

/-- A settlement succeeds only for the holder of a standing claim, and otherwise is refused and
leaves the file as it was. -/
def SettlesRightly (es : List QueueEvent) (e : QueueEvent) (t t' : Table) (key owner : String) :
    Prop :=
  (e.reported = .settled → HoldsClaim es key owner e.clock) ∧
    (¬ HoldsClaim es key owner e.clock → (∃ error, e.reported = .refused error) ∧ t' = t)

/-- The claim book still holds a claim of `owner` on `key` that has lapsed. -/
def LapsedInBook (t : Table) (key owner : String) (now : Nat) : Prop :=
  ∃ q expires, t.queue = some q ∧ q.claims[key]? = some ⟨owner, expires⟩ ∧ expires ≤ now

/-! ## The book and the history -/

/-- Every claim in the book is the last one in the history. -/
def Booked (f : String → Place) (last : String → Option (String × Nat)) : Prop :=
  ∀ key owner expires, f key = .claimed ⟨owner, expires⟩ → last key = some (owner, expires)

section

variable {name : String} {f f' : String → Place} {q q' : QueueState} {t t' : Table}
  {last : String → Option (String × Nat)}

/-- A change that makes no claims keeps the book, as long as the history of what stays is kept. -/
theorem Booked.mono (h : Booked f last) {last' : String → Option (String × Nat)}
    (hsub : ∀ key claim, f' key = .claimed claim → f key = .claimed claim ∧ last' key = last key) :
    Booked f' last' := by
  intro key owner expires hc
  obtain ⟨hf, hl⟩ := hsub key _ hc
  rw [hl]
  exact h key owner expires hf

theorem swept_eq_claimed {policy : QueuePolicy} {now : Nat} {key : String} {claim : Claim}
    (h : swept f q policy now key = .claimed claim) : f key = .claimed claim := by
  unfold swept Place.sweep at h
  split at h
  · split at h <;> cases h
  · rename_i c hc
    split at h
    · split at h <;> cases h
    · rw [hc, h]
  · cases h
  · cases h

theorem booked_effect {e : QueueEvent} (h : Booked f last)
    (heff : Effect name f q t e.reading e.action e.outcome f' q' t') :
    Booked f' fun key => claimAfter key (last key) e := by
  unfold claimAfter
  generalize ha : e.action = a at heff ⊢
  generalize ho : e.outcome = out at heff ⊢
  cases heff with
  | idle hout =>
    refine h.mono ?_
    rcases hout with rfl | ⟨error, rfl⟩
    · exact fun key claim hc => ⟨hc, rfl⟩
    · exact fun key claim hc => ⟨hc, rfl⟩
  | repair _ _ =>
    refine h.mono ?_
    intro key claim hc
    unfold repaired at hc
    split at hc
    · split at hc
      · cases hc
      · exact ⟨hc, rfl⟩
    · cases hc
  | enqueue record due _ _ =>
    refine h.mono ?_
    intro key claim hc
    by_cases hk : key = formatKey (q.sequence.upcoming e.reading)
    · subst hk
      rw [Function.update_self] at hc
      cases due <;> cases hc
    · rw [Function.update_of_ne hk] at hc
      exact ⟨hc, rfl⟩
  | sweep policy hout _ _ =>
    refine h.mono ?_
    rcases hout with rfl | rfl
    · exact fun key claim hc => ⟨swept_eq_claimed hc, rfl⟩
    · exact fun key claim hc => ⟨swept_eq_claimed hc, rfl⟩
  | claim owner visibility own policy delivery _ _ _ _ _ howner hexp =>
    intro key owner' expires hc
    simp only
    by_cases hk : key = delivery.key
    · subst hk
      rw [Function.update_self] at hc
      cases hc
      simp [howner, hexp, newClaim]
    · rw [Function.update_of_ne hk] at hc
      rw [if_neg (Ne.symm hk)]
      exact h key owner' expires (swept_eq_claimed hc)
  | ack k o _ _ _ =>
    refine h.mono ?_
    intro key claim hc
    by_cases hk : key = k
    · subst hk
      rw [Function.update_self] at hc
      cases hc
    · rw [Function.update_of_ne hk] at hc
      exact ⟨hc, by simp [QueueAction.settles, Ne.symm hk]⟩
  | nack k o policy due _ _ _ =>
    refine h.mono ?_
    intro key claim hc
    by_cases hk : key = k
    · subst hk
      rw [Function.update_self] at hc
      unfold Place.nacked at hc
      split at hc
      · cases hc
      · cases due <;> cases hc
    · rw [Function.update_of_ne hk] at hc
      exact ⟨hc, by simp [QueueAction.settles, Ne.symm hk]⟩
  | delete k _ => exact h.mono fun key claim hc => ⟨hc, rfl⟩

/-- Loading makes no claims. -/
theorem booked_attached (persisted : PersistedQueue) :
    Booked (attachedPlace t.records persisted) last := by
  intro key owner expires hc
  unfold attachedPlace at hc
  split at hc
  · split at hc <;> cases hc
  · cases hc

/-- No order yet, or one that files the records and agrees with the history. -/
def InBook (t : Table) (last : String → Option (String × Nat)) : Prop :=
  t.queue = none ∨ ∃ f q, Filed f q t ∧ Booked f last

theorem inBook_run : ∀ {es : List QueueEvent} {t t' : Table}
    {last : String → Option (String × Nat)}, Run name NoDelete t es t' → InBook t last →
    InBook t' fun key => es.foldl (claimAfter key) (last key) := by
  intro es
  induction es with
  | nil => intro t t' last hrun h; cases hrun; exact h
  | cons e es ih =>
    intro t t' last hrun h
    cases hrun with
    | cons hok hp hrest =>
      rename_i t₁
      have hnext : InBook t₁ fun key => claimAfter key (last key) e := by
        rcases h with h | ⟨f, q, hfiled, hbook⟩
        · obtain ⟨_, h' | ⟨persisted, rfl⟩⟩ := perform_unattached h hp
          · exact Or.inl h'
          · exact Or.inr ⟨_, _, filed_attach h persisted, booked_attached persisted⟩
        · obtain ⟨f', q', hord, heff⟩ := perform_effect hfiled.ordered hp
          exact Or.inr ⟨f', q', filed_effect hfiled hord heff hok, booked_effect hbook heff⟩
      exact ih hrest hnext

theorem Loaded.inBook (h : Loaded t) : InBook t last := by
  rcases h with h | ⟨persisted, h⟩
  · exact Or.inl h
  · have hatt := filed_attach (t := { t with queue := none }) rfl persisted
    have hsame : ({ t with queue := none } : Table).attachQueue persisted = t := by
      simp only [Table.attachQueue, ← h]
    rw [hsame] at hatt
    exact Or.inr ⟨_, _, hatt, booked_attached persisted⟩

end

/-! ## One settlement -/

/-- A settlement is made exactly when the book has the claim in the caller's name, and then takes
it out of the book. -/
theorem settle_cases {name : String} {f : String → Place} {q : QueueState} {t t' : Table}
    {e : QueueEvent} {key owner : String} (h : Ordered f q t)
    (hp : e.action.perform name t e.reading = some (e.outcome, t'))
    (ha : e.action.settles = some (key, owner)) :
    (e.outcome = .settled ∧ Held f t key owner ∧ t' ≠ t) ∨
      ((∃ error, e.outcome = .refused error) ∧ ¬ Held f t key owner ∧ t' = t) := by
  have hmoved : ∀ {place : Place} {q' : QueueState} {t'' : Table}, Held f t key owner →
      (∀ claim, place ≠ .claimed claim) → Ordered (Function.update f key place) q' t'' →
      t'' ≠ t := by
    rintro place q' t'' ⟨_, expires, hc⟩ hplace hord rfl
    have hq := hord.queue
    rw [h.queue] at hq
    cases hq
    have := (hord.places.claims key _).mp ((h.places.claims key _).mpr hc)
    rw [Function.update_self] at this
    exact hplace _ this
  generalize e.action = a at hp ha
  generalize e.outcome = out at hp ⊢
  cases a with
  | ack k o =>
    cases ha
    rcases ack_spec h name key owner with ⟨hheld, q', t₁, hrun, hord, _⟩ | ⟨hheld, error, hrun⟩
    · simp only [QueueAction.perform, hrun, Option.map_some] at hp
      cases hp
      exact Or.inl ⟨rfl, hheld, hmoved hheld (by simp) hord⟩
    · simp only [QueueAction.perform, hrun, Option.map_some] at hp
      cases hp
      exact Or.inr ⟨⟨error, rfl⟩, hheld, rfl⟩
  | nack k o policy due =>
    cases ha
    rcases nackUntil_spec h name key owner policy due with
      ⟨hheld, q', letters, t₁, hrun, hord, _⟩ | ⟨hheld, error, hrun⟩
    · simp only [QueueAction.perform, hrun, Option.map_some] at hp
      cases hp
      refine Or.inl ⟨rfl, hheld, hmoved hheld ?_ hord⟩
      intro claim hc
      unfold Place.nacked at hc
      split at hc
      · cases hc
      · cases due <;> cases hc
    · simp only [QueueAction.perform, hrun, Option.map_some] at hp
      cases hp
      exact Or.inr ⟨⟨error, rfl⟩, hheld, rfl⟩
  | _ => cases ha

/-- In every run, an ACK or NACK is right exactly when the claim book does not still hold the
caller's own lapsed claim. -/
theorem settle_iff (name : String) {t₀ t t' : Table} {es : List QueueEvent} {e : QueueEvent}
    {key owner : String} (h : Loaded t₀) (hrun : Run name NoDelete t₀ es t)
    (hp : e.action.perform name t e.reading = some (e.outcome, t'))
    (ha : e.action.settles = some (key, owner)) :
    SettlesRightly es e t t' key owner ↔ ¬ LapsedInBook t key owner e.clock := by
  have hbook : InBook t (lastClaim es) := inBook_run hrun h.inBook
  rcases hbook with hnone | ⟨f, q, hfiled, hbooked⟩
  · -- a section that settles does not run without an order
    generalize e.action = a at hp ha
    obtain ⟨-, ⟨persisted, rfl, -⟩ | ⟨rfl | ⟨wanted, rfl⟩, -⟩ | ⟨key, rfl, -⟩⟩ :=
      perform_without_order hnone hp
    all_goals cases ha
  · have hclaim : ∀ expires, q.claims[key]? = some ⟨owner, expires⟩ ↔
        f key = .claimed ⟨owner, expires⟩ := fun expires => hfiled.ordered.places.claims key _
    rcases settle_cases hfiled.ordered hp ha with
      ⟨hout, ⟨hrec, expires, hc⟩, hmoved⟩ | ⟨⟨error, hout⟩, hheld, rfl⟩
    · have hlast := hbooked key owner expires hc
      have hholds : HoldsClaim es key owner e.clock ↔ e.clock < expires := by
        unfold HoldsClaim
        rw [hlast]
        simp
      have hlapsed : LapsedInBook t key owner e.clock ↔ expires ≤ e.clock := by
        unfold LapsedInBook
        rw [hfiled.ordered.queue]
        simp only [Option.some.injEq]
        constructor
        · rintro ⟨_, x, rfl, hx, hle⟩
          rw [hclaim, hc] at hx
          cases hx
          exact hle
        · intro hle
          exact ⟨q, expires, rfl, (hclaim expires).mpr hc, hle⟩
      rw [hlapsed, not_le]
      unfold SettlesRightly
      rw [hholds]
      constructor
      · rintro ⟨_, hunchanged⟩
        by_contra hle
        exact hmoved (hunchanged hle).2
      · intro hlt
        exact ⟨fun _ => hlt, fun hnot => absurd hlt hnot⟩
    · have hnot : ¬ LapsedInBook t' key owner e.clock := by
        rintro ⟨q', x, hq', hx, _⟩
        rw [hfiled.ordered.queue] at hq'
        cases hq'
        rw [hclaim] at hx
        exact hheld ⟨(hfiled.files key).mp (by simp [hx]), x, hx⟩
      have hrep : e.reported = .refused error := by
        simp [QueueEvent.reported, hout]
      simp only [hnot, not_false_eq_true, iff_true]
      refine ⟨?_, fun _ => ⟨⟨error, hrep⟩, rfl⟩⟩
      intro hset
      rw [hrep] at hset
      cases hset

/-- A minute after the claim, nobody has swept: the holder of the lapsed claim acknowledges it. -/
theorem lapsed_claim_acknowledged :
    ∃ es e t t', Loaded oneRecordQueue ∧ Run "JOBS" NoDelete oneRecordQueue es t ∧
      Clocked (es ++ [e]) ∧ e.action.perform "JOBS" t e.reading = some (e.outcome, t') ∧
      e.action.settles = some ("1", "A") ∧ ¬ SettlesRightly es e t t' "1" "A" := by
  have houts : performAll "JOBS" (fun _ _ => true) oneRecordQueue
      ([.at 1000 (.dequeue "A" none {})] ++ [.at 61000 (.ack "1" "A")]) =
      some [deliveryOf "1" "A" (Record.text "job") 1 61000, .settled] := by
    decide +kernel
  obtain ⟨t'', hrun⟩ := run_of_outcomes NoDelete (by simp [NoDelete, QueueEvent.at]) houts
  have hsplit : Run "JOBS" NoDelete oneRecordQueue ([_] ++ [_]) t'' := hrun
  obtain ⟨t, hrun₁, hrun₂⟩ := run_append hsplit
  cases hrun₂ with
  | cons _ hp _ =>
    refine ⟨_, _, t, _, oneRecordQueue_loaded, hrun₁, ?_, hp, rfl, ?_⟩
    · simp [Clocked, QueueEvent.at]
    · rintro ⟨hsettled, _⟩
      obtain ⟨expires, hlast, hlt⟩ := hsettled rfl
      cases hlast
      exact absurd hlt (by decide)

theorem settle_iff_at_ack :
    ∃ es e t t', Loaded oneRecordQueue ∧ Run "JOBS" NoDelete oneRecordQueue es t ∧
      e.action.perform "JOBS" t e.reading = some (e.outcome, t') ∧
      e.action.settles = some ("1", "A") ∧ e.outcome = .settled ∧
      (SettlesRightly es e t t' "1" "A" ↔ ¬ LapsedInBook t "1" "A" e.clock) := by
  have houts : performAll "JOBS" (fun _ _ => true) oneRecordQueue
      ([.at 1000 (.dequeue "A" none {})] ++ [.at 2000 (.ack "1" "A")]) =
      some [deliveryOf "1" "A" (Record.text "job") 1 61000, .settled] := by
    decide +kernel
  obtain ⟨t'', hrun⟩ := run_of_outcomes NoDelete (by simp [NoDelete, QueueEvent.at]) houts
  have hsplit : Run "JOBS" NoDelete oneRecordQueue ([_] ++ [_]) t'' := hrun
  obtain ⟨t, hrun₁, hrun₂⟩ := run_append hsplit
  cases hrun₂ with
  | cons _ hp _ =>
    exact ⟨_, _, t, _, oneRecordQueue_loaded, hrun₁, hp, rfl, rfl,
      settle_iff "JOBS" oneRecordQueue_loaded hrun₁ hp rfl⟩

end RustyPick
