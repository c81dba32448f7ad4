import RustyPick.QueueRun

/-!
# RustyPick.QueueClaim

Claims over whole runs: who may settle one, and how long it keeps a key from being handed out
again.

* `claims_exclusive`: a key that was handed out is not handed out again before its claim is settled
  by its owner or lapses, in every run in which no ENQUEUE mints the last sequence number over a
  claimed key and no settlement is reported failed after it was made.
* `settle_iff`: an ACK or NACK settles only the standing claim of its caller, and changes nothing
  otherwise, exactly when the claim book does not still hold that caller's lapsed claim.
-/

namespace RustyPick

open Lib

/-- The key and the owner a section would settle a claim of. -/
def QueueAction.settles : QueueAction → Option (String × String)
  | .ack key owner => some (key, owner)
  | .nack key owner _ _ => some (key, owner)
  | _ => none

/-- The event is `owner`'s own ACK or NACK of `key`, and it succeeded. -/
def QueueEvent.Settles (e : QueueEvent) (key owner : String) : Prop :=
  e.reported = .settled ∧ e.action.settles = some (key, owner)

/-- The clock never steps back, and no reading is ahead of it. -/
def Clocked (es : List QueueEvent) : Prop :=
  es.Pairwise (fun e e' => e.clock ≤ e'.clock) ∧ ∀ e ∈ es, e.reading ≤ e.clock

/-- The ENQUEUE would mint the last sequence number while the record under that key is claimed. -/
def MintsClaimed (t : Table) (e : QueueEvent) : Prop :=
  ∃ record due q, e.action = .enqueue record due ∧ t.queue = some q ∧
    q.sequence.upcoming e.reading = u64Max ∧ formatKey u64Max ∈ q.claims

/-- What follows the section fails, and the section was a NACK, or an ACK of the one key that can
be minted again. -/
def FailsSettling (e : QueueEvent) : Prop :=
  e.failure ≠ none ∧ ((∃ key owner policy due, e.action = .nack key owner policy due) ∨
    ∃ owner, e.action = .ack (formatKey u64Max) owner)

/-- The steps a claim is safe under. -/
def KeepsClaims (t : Table) (e : QueueEvent) : Prop :=
  NoDelete t e ∧ ¬ MintsClaimed t e ∧ ¬ FailsSettling e

/-- Between two deliveries of one key the first one's owner settled it, or its claim lapsed. -/
def ExclusiveClaims (es : List QueueEvent) : Prop :=
  ∀ (pre : List QueueEvent) (e : QueueEvent) (mid : List QueueEvent) (e' : QueueEvent)
      (post : List QueueEvent) (delivery delivery' : QueueDelivery) (owner : String)
      (expires : Nat),
    es = pre ++ e :: (mid ++ e' :: post) →
    e.reported = .delivered (some delivery) → e'.reported = .delivered (some delivery') →
    delivery'.key = delivery.key → delivery.owner = some owner →
    delivery.expiresMillis = some expires →
    (∃ s ∈ mid, s.Settles delivery.key owner) ∨ expires ≤ e'.clock

/-! ## One key under a claim -/

section Guarded

variable {name : String} {f f' : String → Place} {q q' : QueueState} {t t' : Table} {now : Nat}
  {a : QueueAction} {out : QueueOutcome} {key owner : String} {expires : Nat}

/-- A claim that has not lapsed is left alone by a sweep. -/
theorem swept_claimed (hf : f key = .claimed ⟨owner, expires⟩) (hnow : now < expires)
    (policy : QueuePolicy) : swept f q policy now key = .claimed ⟨owner, expires⟩ := by
  have hl : ¬ expires ≤ now := by omega
  simp [swept, hf, Place.sweep, Claim.hasLapsed, hl]

/-- The counter has passed every record, so a minted key that is already a record is the last. -/
theorem mints_last (h : Filed f q t) {now : Nat}
    (hrec : formatKey (q.sequence.upcoming now) ∈ t.records) :
    q.sequence.upcoming now = u64Max := by
  have hle := Sequence.upcoming_le q.sequence now
  have hpast := h.passed _ _ hrec (keySequence_formatKey hle)
  exact Sequence.upcoming_of_passed hpast rfl

/-- Out of the queue for good: the counter has passed the key, if it carries a number at all. -/
def Gone (f : String → Place) (q : QueueState) (key : String) : Prop :=
  f key = .absent ∧ key ≠ formatKey u64Max ∧
    ∀ n, keySequence key = some n → satAdd n 1 ≤ q.sequence.next

/-- Nobody else can be handed the key: it is under this claim, or it is gone. -/
def Barred (f : String → Place) (q : QueueState) (key owner : String) (expires : Nat) : Prop :=
  f key = .claimed ⟨owner, expires⟩ ∨ Gone f q key

theorem next_le_effect (heff : Effect name f q t now a out f' q' t') :
    q.sequence.next ≤ q'.sequence.next := by
  cases heff with
  | idle _ => exact le_refl _
  | repair _ hq => rw [hq]; exact Sequence.next_le_foldl_raisePast _ _
  | enqueue _ _ _ hseq =>
    have h1 := Sequence.next_le_upcoming q.sequence now
    have h2 := Sequence.upcoming_le q.sequence now
    rw [hseq, Sequence.mint_next, satAdd]
    omega
  | sweep _ _ hseq _ => rw [hseq]
  | claim _ _ _ _ _ _ hseq => rw [hseq]
  | ack _ _ _ _ hseq => rw [hseq]
  | nack _ _ _ _ _ _ hseq => rw [hseq]
  | delete _ _ => exact le_refl _

/-- A key that is gone stays gone, and is not handed out. -/
theorem gone_effect (h : Filed f q t) (heff : Effect name f q t now a out f' q' t')
    (hg : Gone f q key) :
    Gone f' q' key ∧ ∀ delivery, out = .delivered (some delivery) → delivery.key ≠ key := by
  obtain ⟨habs, hlast, hpast⟩ := hg
  have hpast' : ∀ n, keySequence key = some n → satAdd n 1 ≤ q'.sequence.next :=
    fun n hn => le_trans (hpast n hn) (next_le_effect heff)
  have hrec : key ∉ t.records := fun hk => (h.files key).mpr hk habs
  have hheld : ∀ k o, Held f t k o → k ≠ key := by
    rintro k o ⟨hk, _⟩ rfl
    exact hrec hk
  have hswept : ∀ policy, swept f q policy now key = .absent := by
    intro policy
    simp [swept, habs, Place.sweep]
  cases heff with
  | idle hout =>
    refine ⟨⟨habs, hlast, hpast'⟩, ?_⟩
    rintro delivery rfl
    rcases hout with hout | ⟨e, hout⟩ <;> cases hout
  | repair _ _ => exact ⟨⟨by simp [repaired, hrec], hlast, hpast'⟩, by simp⟩
  | enqueue record due _ _ =>
    have hne : formatKey (q.sequence.upcoming now) ≠ key := by
      intro hk
      have hle := Sequence.upcoming_le q.sequence now
      have := Sequence.upcoming_of_passed (hpast _ (hk ▸ keySequence_formatKey hle)) rfl
      rw [this] at hk
      exact hlast hk.symm
    exact ⟨⟨by rw [Function.update_of_ne (Ne.symm hne)]; exact habs, hlast, hpast'⟩, by simp⟩
  | sweep policy hout _ _ =>
    refine ⟨⟨hswept policy, hlast, hpast'⟩, ?_⟩
    rintro delivery rfl
    rcases hout with hout | hout <;> cases hout
  | claim owner' visibility own policy delivery _ _ _ havail _ _ _ =>
    have hne : delivery.key ≠ key := by
      intro hk
      rw [hk, hswept] at havail
      cases havail
    refine ⟨⟨by rw [Function.update_of_ne (Ne.symm hne)]; exact hswept policy, hlast, hpast'⟩, ?_⟩
    rintro d hd
    cases hd
    exact hne
  | ack k o hk _ _ =>
    have hne := hheld k o hk
    exact ⟨⟨by rw [Function.update_of_ne (Ne.symm hne)]; exact habs, hlast, hpast'⟩, by simp⟩
  | nack k o policy due hk _ _ =>
    have hne := hheld k o hk
    exact ⟨⟨by rw [Function.update_of_ne (Ne.symm hne)]; exact habs, hlast, hpast'⟩, by simp⟩
  | delete k _ => exact ⟨⟨habs, hlast, hpast'⟩, by simp⟩

/-- A standing claim survives every section but its owner's own settlement, and its key is not
handed out. -/
theorem claimed_effect {e : QueueEvent} (h : Filed f q t)
    (heff : Effect name f q t e.reading e.action e.outcome f' q' t')
    (hf : f key = .claimed ⟨owner, expires⟩) (hnow : e.reading < expires)
    (hok : KeepsClaims t e) (hsettle : ¬ e.Settles key owner) :
    Barred f' q' key owner expires ∧
      ∀ delivery, e.outcome = .delivered (some delivery) → delivery.key ≠ key := by
  obtain ⟨_, hmint, hfail⟩ := hok
  have hrec : key ∈ t.records := (h.files key).mp (by simp [hf])
  have hother : ∀ k o, Held f t k o → k = key → o = owner := by
    rintro k o ⟨_, e, hc⟩ rfl
    rw [hf] at hc
    cases hc
    rfl
  -- settling the key with this owner is either reported so, or fails afterwards
  have hfailed : ∀ o, e.action.settles = some (key, o) → o = owner → e.outcome = .settled →
      e.failure ≠ none := by
    rintro o ha rfl hout hnone
    exact hsettle ⟨by simp [QueueEvent.reported, hout, hnone], ha⟩
  generalize ha : e.action = a at heff
  generalize ho : e.outcome = out at heff ⊢
  cases heff with
  | idle hout =>
    refine ⟨Or.inl hf, ?_⟩
    rintro delivery rfl
    rcases hout with hout | ⟨e, hout⟩ <;> cases hout
  | repair _ _ => exact ⟨Or.inl (by simp [repaired, hrec, hf]), by simp⟩
  | enqueue record due _ _ =>
    have hne : formatKey (q.sequence.upcoming e.reading) ≠ key := by
      rintro rfl
      have hlast := mints_last h hrec
      refine hmint ⟨record, due, q, ha, h.ordered.queue, hlast, ?_⟩
      rw [← hlast]
      exact h.ordered.places.mem_claims.mpr ⟨_, hf⟩
    exact ⟨Or.inl (by rw [Function.update_of_ne (Ne.symm hne)]; exact hf), by simp⟩
  | sweep policy hout _ _ =>
    refine ⟨Or.inl (swept_claimed hf hnow policy), ?_⟩
    rintro delivery rfl
    rcases hout with hout | hout <;> cases hout
  | claim owner' visibility own policy delivery _ _ _ havail _ _ _ =>
    have hne : delivery.key ≠ key := by
      intro hk
      rw [hk, swept_claimed hf hnow] at havail
      cases havail
    refine ⟨Or.inl
      (by rw [Function.update_of_ne (Ne.symm hne)]; exact swept_claimed hf hnow policy), ?_⟩
    rintro d hd
    cases hd
    exact hne
  | ack k o hk _ hseq =>
    by_cases hkey : k = key
    · subst hkey
      have hlost := hfailed o (by simp [ha, QueueAction.settles]) (hother k o hk rfl) ho
      refine ⟨Or.inr ⟨by simp, ?_, ?_⟩, by simp⟩
      · rintro rfl
        exact hfail ⟨hlost, Or.inr ⟨o, ha⟩⟩
      · intro n hn
        rw [hseq]
        exact h.passed _ n hrec hn
    · exact ⟨Or.inl (by rw [Function.update_of_ne (Ne.symm hkey)]; exact hf), by simp⟩
  | nack k o policy due hk _ _ =>
    by_cases hkey : k = key
    · subst hkey
      have hlost := hfailed o (by simp [ha, QueueAction.settles]) (hother k o hk rfl) ho
      exact absurd ⟨hlost, Or.inl ⟨k, o, policy, due, ha⟩⟩ hfail
    · exact ⟨Or.inl (by rw [Function.update_of_ne (Ne.symm hkey)]; exact hf), by simp⟩
  | delete k _ => exact ⟨Or.inl hf, by simp⟩

theorem barred_effect {e : QueueEvent} (h : Filed f q t)
    (heff : Effect name f q t e.reading e.action e.outcome f' q' t')
    (hb : Barred f q key owner expires) (hnow : e.reading < expires)
    (hok : KeepsClaims t e) (hsettle : ¬ e.Settles key owner) :
    Barred f' q' key owner expires ∧
      ∀ delivery, e.outcome = .delivered (some delivery) → delivery.key ≠ key := by
  rcases hb with hf | hg
  · exact claimed_effect h heff hf hnow hok hsettle
  · obtain ⟨hg', hout⟩ := gone_effect h heff hg
    exact ⟨Or.inr hg', hout⟩

/-- The key stays barred through every stretch of a run that neither settles its claim nor outlasts
it. -/
theorem barred_run : ∀ {es : List QueueEvent} {t t' : Table} {f : String → Place} {q : QueueState},
    Run name KeepsClaims t es t' → Filed f q t → Barred f q key owner expires →
    (∀ e ∈ es, e.reading < expires) → (∀ e ∈ es, ¬ e.Settles key owner) →
    ∃ f' q', Filed f' q' t' ∧ Barred f' q' key owner expires := by
  intro es
  induction es with
  | nil => intro t t' f q hrun h hf _ _; cases hrun; exact ⟨f, q, h, hf⟩
  | cons e es ih =>
    intro t t' f q hrun h hf hread hsettle
    cases hrun with
    | cons hok hp hrest =>
      obtain ⟨f₁, q₁, hord, heff⟩ := perform_effect h.ordered hp
      have hkeep := (barred_effect h heff hf (hread e List.mem_cons_self) hok
        (hsettle e List.mem_cons_self)).1
      exact ih hrest (filed_effect h hord heff hok.1) hkeep
        (fun e' he' => hread e' (List.mem_cons_of_mem _ he'))
        (fun e' he' => hsettle e' (List.mem_cons_of_mem _ he'))

/-- What a delivery leaves: its key under a claim in the name it was delivered to. -/
theorem delivered_claimed (heff : Effect name f q t now a out f' q' t') {delivery : QueueDelivery}
    (hout : out = .delivered (some delivery)) (howner : delivery.owner = some owner)
    (hexp : delivery.expiresMillis = some expires) :
    f' delivery.key = .claimed ⟨owner, expires⟩ := by
  cases heff with
  | idle h => rcases h with h | ⟨e, h⟩ <;> rw [hout] at h <;> cases h
  | sweep policy h _ _ => rcases h with h | h <;> rw [hout] at h <;> cases h
  | claim owner' visibility own policy delivery' _ _ _ _ _ howner' hexp' =>
    cases hout
    rw [howner] at howner'
    rw [hexp] at hexp'
    cases howner'
    cases hexp'
    simp [newClaim]
  | repair _ _ => cases hout
  | enqueue record due _ _ => cases hout
  | ack k o _ _ _ => cases hout
  | nack k o policy due _ _ _ => cases hout
  | delete k _ => cases hout

end Guarded

/-- A delivered key comes from a table with an order. -/
theorem filed_of_delivered {name : String} {t t' : Table} {now : Nat} {a : QueueAction}
    {d : Option QueueDelivery} (h : Standing t)
    (hp : a.perform name t now = some (.delivered d, t')) : ∃ f q, Filed f q t := by
  rcases h with h | h
  · exact absurd (perform_unattached h hp).1 (by simp)
  · exact h

/-- No two consumers hold one key: in every run in which no ENQUEUE mints the last sequence number
over a claimed key and no settlement fails once made, a delivered key is delivered again only after
its owner has settled it or its claim has lapsed. -/
theorem claims_exclusive (name : String) {t t' : Table} {es : List QueueEvent} (h : Loaded t)
    (hrun : Run name KeepsClaims t es t') (hclock : Clocked es) : ExclusiveClaims es := by
  intro pre e mid e' post delivery delivery' owner expires hes hrep hrep' hkey howner hexp
  by_contra hcon
  rw [not_or, not_exists] at hcon
  obtain ⟨hnone, hlapse⟩ := hcon
  have hout := (e.reported_eq hrep (by simp)).1
  have hout' := (e'.reported_eq hrep' (by simp)).1
  subst hes
  obtain ⟨t₁, hpre, hrest⟩ := run_append hrun
  have hstand := standing_run (fun _ _ hok => hok.1) h.standing hpre
  cases hrest with
  | cons hok hp hrest =>
    rw [hout] at hp
    obtain ⟨f, q, hfiled⟩ := filed_of_delivered hstand hp
    obtain ⟨f₁, q₁, hord, heff⟩ := perform_effect hfiled.ordered hp
    have hclaimed := delivered_claimed heff rfl howner hexp
    have hfiled₁ := filed_effect hfiled hord heff hok.1
    obtain ⟨t₂, hmid, hlast⟩ := run_append hrest
    -- readings up to the second delivery are behind its clock, which the claim outlasts
    have hread : ∀ s ∈ mid ++ [e'], s.reading < expires := by
      have hpair : (mid ++ e' :: post).Pairwise fun e e' => e.clock ≤ e'.clock :=
        ((List.pairwise_append.mp hclock.1).2.1).tail
      intro s hs
      have hle : s.clock ≤ e'.clock := by
        rcases List.mem_append.mp hs with hs | hs
        · exact (List.pairwise_append.mp hpair).2.2 s hs e' List.mem_cons_self
        · rw [List.mem_singleton.mp hs]
      have hmem : s ∈ pre ++ e :: (mid ++ e' :: post) := by
        simp only [List.mem_append, List.mem_cons, List.not_mem_nil, or_false] at hs ⊢
        tauto
      have := hclock.2 s hmem
      omega
    obtain ⟨f₂, q₂, hfiled₂, hbarred⟩ := barred_run hmid hfiled₁ (Or.inl hclaimed)
      (fun s hs => hread s (List.mem_append_left _ hs)) (fun s hs hset => hnone s ⟨hs, hset⟩)
    cases hlast with
    | cons hok' hp' _ =>
      obtain ⟨f₃, q₃, _, heff'⟩ := perform_effect hfiled₂.ordered hp'
      refine (barred_effect hfiled₂ heff' hbarred (hread e' (by simp)) hok' ?_).2
        delivery' hout' hkey
      rintro ⟨hset, _⟩
      rw [hrep'] at hset
      cases hset

/-- A queue file whose one record, written by hand, stands under the last sequence number. -/
def lastKeyQueue : Table :=
  { records := Std.ExtTreeMap.ofList [("18446744073709551615", Record.text "old")]
    queue := some (QueueState.attach
      (Std.ExtTreeMap.ofList [("18446744073709551615", Record.text "old")]) .absent) }

theorem lastKeyQueue_loaded : Loaded lastKeyQueue := Or.inr ⟨.absent, rfl⟩

/-- What DEQUEUE hands out. -/
def deliveryOf (key owner : String) (record : Record) (deliveries expires : Nat) : QueueOutcome :=
  .delivered (some
    { key := key
      record := record
      deliveries := deliveries
      enqueuedMillis := keyMillis key
      expiresMillis := some expires
      owner := some owner
      dueMillis := none })

/-- The counter is stuck at the last number, so the ENQUEUE overwrites the record `A` is working on
and drops the claim: `B` is handed the same key a millisecond later. -/
theorem last_key_delivered_twice :
    ∃ es t, Loaded lastKeyQueue ∧ Run "JOBS" NoDelete lastKeyQueue es t ∧ Clocked es ∧
      (∀ e ∈ es, e.failure = none) ∧ ¬ ExclusiveClaims es := by
  have houts : performAll "JOBS" (fun _ _ => true) lastKeyQueue
      [.at 1000 (.dequeue "A" none {}), .at 1001 (.enqueue (Record.text "new") none),
        .at 1002 (.dequeue "B" none {})] =
      some [deliveryOf "18446744073709551615" "A" (Record.text "old") 1 61000,
        .enqueued "18446744073709551615",
        deliveryOf "18446744073709551615" "B" (Record.text "new") 2 61002] := by
    decide +kernel
  obtain ⟨t, hrun⟩ := run_of_outcomes NoDelete (by simp [NoDelete, QueueEvent.at]) houts
  refine ⟨_, t, lastKeyQueue_loaded, hrun, ?_, ?_, ?_⟩
  · simp [Clocked, withOutcomes, QueueEvent.at]
  · simp [withOutcomes, QueueEvent.at]
  · intro h
    have := h [] _ [_] _ [] _ _ "A" 61000 rfl rfl rfl rfl rfl rfl
    simp [QueueEvent.Settles, QueueAction.settles, QueueEvent.at] at this

theorem claims_exclusive_over_nack :
    ∃ es t, Loaded oneRecordQueue ∧ Run "JOBS" KeepsClaims oneRecordQueue es t ∧ Clocked es ∧
      es.length = 3 ∧ ExclusiveClaims es := by
  have houts : performAll "JOBS" (fun _ _ => true) oneRecordQueue
      [.at 1000 (.dequeue "A" none {}), .at 1001 (.nack "1" "A" {} none),
        .at 1002 (.dequeue "B" none {})] =
      some [deliveryOf "1" "A" (Record.text "job") 1 61000, .settled,
        deliveryOf "1" "B" (Record.text "job") 2 61002] := by
    decide +kernel
  obtain ⟨t, hrun⟩ := run_of_outcomes KeepsClaims
    (by simp [KeepsClaims, NoDelete, MintsClaimed, FailsSettling, QueueEvent.at]) houts
  refine ⟨_, t, oneRecordQueue_loaded, hrun, ?_, rfl, ?_⟩
  · simp [Clocked, withOutcomes, QueueEvent.at]
  · exact claims_exclusive "JOBS" oneRecordQueue_loaded hrun
      (by simp [Clocked, withOutcomes, QueueEvent.at])

end RustyPick
