import RustyPick.QueueDue
import RustyPick.FileAttributes

/-!
# RustyPick.QueueDeliveries

How often one record is handed out.

The count of a record is compared with the policy when its claim lapses or is given back, and at no
other time. A restart ends every claim without that comparison, and so returns to the order a record
that has been delivered as often as it may be.

* `delivery_bound`: no record is handed out more often than the policy says, in every run in which
  no restart ends such a claim.
-/

namespace RustyPick

open Lib

theorem fromAttributes_pos (timeout deliveries : String) :
    0 < (QueuePolicy.fromAttributes timeout deliveries).maxDeliveries := by
  unfold QueuePolicy.fromAttributes
  cases h : (parseU32 (trim deliveries)).filter fun count => 0 < count with
  | none => simp
  | some count =>
    have hpos : 0 < count := by simpa using (Option.filter_eq_some_iff.mp h).2
    exact lt_min hpos (by decide)

/-- The policy a command is run under. -/
def QueueAction.policy : QueueAction → Option QueuePolicy
  | .dequeue _ _ policy | .nack _ _ policy _ | .peekSweep _ policy | .statistics policy => some policy
  | _ => none

/-- Every command runs under the one policy. -/
def FixedPolicy (policy : QueuePolicy) (_ : QueueStore) (e : StoreEvent) : Prop :=
  TimesFit e ∧ ∀ a p, e.action = .command a → a.policy = some p → p = policy

/-- A restart ends no claim on a record that has been delivered as often as it may be, and no count
stands at the last `u32`. -/
def Spares (policy : QueuePolicy) (s : QueueStore) (e : StoreEvent) : Prop :=
  (e.action = .restart → ∀ q, s.table.queue = some q → ∀ k, k ∈ q.claims →
    q.deliveriesOf k < policy.maxDeliveries) ∧
  ∀ k, k ∈ s.table.records → s.deliveriesOf k < u32Max

def noteDelivery (counts : String → Nat) (e : StoreEvent) : String → Nat :=
  match e.outcome with
  | .enqueued key => Function.update counts key 0
  | .delivered (some delivery) => Function.update counts delivery.key (counts delivery.key + 1)
  | _ => counts

/-- How often the record under each key has been handed out since it was enqueued. -/
def handedOut (es : List StoreEvent) : String → Nat := es.foldl noteDelivery fun _ => 0

/-! ## Claims that end -/

section

variable {name : String} {f : String → Place} {q q' : QueueState} {t t' : Table} {now : Nat}

/-- A sweep gives back only a record with deliveries to go. -/
theorem swept_returned {policy : QueuePolicy} {k : String} {c : Claim} (hf : f k = .claimed c)
    (hlive : swept f q policy now k ≠ .absent) (hnot : ∀ c, swept f q policy now k ≠ .claimed c) :
    q.deliveriesOf k < policy.maxDeliveries := by
  by_contra hmax
  rw [Nat.not_lt] at hmax
  by_cases hl : c.hasLapsed now = true
  · exact hlive (by simp [swept, hf, Place.sweep, hl, hmax])
  · exact hnot c (by simp [swept, hf, Place.sweep, hl])

theorem takeExpired_returned {policy : QueuePolicy} {k : String} (h : Filed f q t)
    (hq' : (t.takeExpired now policy).2.queue = some q')
    (hk : k ∈ (t.takeExpired now policy).2.records) (hc : k ∈ q.claims) (hnot : k ∉ q'.claims) :
    q.deliveriesOf k < policy.maxDeliveries := by
  obtain ⟨q₁, hord, -, -⟩ := takeExpired_spec h.ordered now policy
  obtain rfl : q₁ = q' := by simpa [hord.queue] using hq'
  obtain ⟨c, hf⟩ := h.ordered.places.mem_claims.mp hc
  refine @swept_returned f q now policy k c hf ?_ ?_
  · exact ((files_swept h.ordered h.files rfl).1 k).mpr hk
  · intro c' hc'
    exact hnot (hord.places.mem_claims.mpr ⟨c', hc'⟩)

theorem not_mem_forget_claims {key k : String} (hc : k ∈ q.claims) (hnot : k ∉ (q.forget key).claims) :
    key = k := by
  by_contra hne
  exact hnot (by simp [QueueState.forget, hc, hne])

theorem maxDeliveries_of_live (hname : isDeadLetterName name = false) (policy : QueuePolicy) :
    effectivePolicy name policy = policy := by
  simp [effectivePolicy, hname]

/-- A command ends the claim on a record that stays only when the record is enqueued anew or has
deliveries to go. -/
theorem claim_returned {a : QueueAction} {out : QueueOutcome} {policy : QueuePolicy} {k : String}
    (hname : isDeadLetterName name = false) (h : Filed f q t) (hcmd : a.isCommand = true)
    (hpolicy : ∀ p, a.policy = some p → p = policy)
    (hp : a.perform name t now = some (out, t')) (hq' : t'.queue = some q')
    (hk : k ∈ t'.records) (hc : k ∈ q.claims) (hnot : k ∉ q'.claims) :
    out = .enqueued k ∨ q.deliveriesOf k < policy.maxDeliveries := by
  cases a with
  | attach persisted => cases hcmd
  | delete key => cases hcmd
  | reconcile =>
    cases hp
    rw [h.ordered.reconcile.queue] at hq'
    cases hq'
    refine absurd ?_ hnot
    simp only [QueueState.reconcile, mem_retain, Std.ExtTreeMap.contains_iff_mem]
    exact ⟨hk, hc⟩
  | peek key =>
    cases hp
    rw [h.ordered.queue] at hq'
    cases hq'
    exact absurd hc hnot
  | enqueue record due =>
    obtain ⟨q₁, q₂, hq₁, rfl, hplaced, rfl⟩ := perform_enqueue hp
    obtain rfl := Option.some.inj (h.ordered.queue.symm.trans hq₁)
    obtain rfl := Option.some.inj hq'
    generalize formatKey (q.mint now).1 = key at hk hplaced ⊢
    left
    by_contra hne
    have hne' : key ≠ k := fun he => hne (by rw [he])
    refine absurd ?_ hnot
    rcases hplaced with ⟨-, rfl⟩ | ⟨millis, -, rfl⟩
    · simp [QueueState.enqueue, QueueState.mint, hc, hne']
    · simp [QueueState.enqueueHeld, QueueState.hold, QueueState.mint, hc, hne']
  | ack key owner =>
    right
    obtain ⟨q₁, hq₁, ⟨-, -, -, rfl⟩ | ⟨-, -, rfl⟩⟩ := perform_ack hp
    · rw [h.ordered.queue] at hq'
      cases hq'
      exact absurd hc hnot
    · obtain rfl := Option.some.inj (h.ordered.queue.symm.trans hq₁)
      obtain rfl := Option.some.inj hq'
      have hkey := not_mem_forget_claims hc hnot
      subst hkey
      simp at hk
  | nack key owner p due =>
    obtain rfl : p = policy := hpolicy p rfl
    right
    rcases nackUntil_spec h.ordered name key owner p due with
      ⟨-, q₁, letters, t₁, hrun, hord, hrec, -⟩ | ⟨-, e, hrun⟩
    · simp only [QueueAction.perform, hrun, Option.map_some, Option.some.injEq, Prod.mk.injEq] at hp
      obtain ⟨-, rfl⟩ := hp
      obtain rfl : q₁ = q' := by simpa [hord.queue] using hq'
      obtain ⟨c, hf⟩ := h.ordered.places.mem_claims.mp hc
      rw [maxDeliveries_of_live hname] at hrec
      have hkey : k = key := by
        by_contra hne
        refine hnot (hord.places.mem_claims.mpr ⟨c, ?_⟩)
        rw [Function.update_of_ne hne, hf]
      subst hkey
      by_contra hmax
      rw [Nat.not_lt] at hmax
      rw [hrec, if_pos hmax] at hk
      simp at hk
    · simp only [QueueAction.perform, hrun, Option.map_some, Option.some.injEq, Prod.mk.injEq] at hp
      obtain ⟨-, rfl⟩ := hp
      rw [h.ordered.queue] at hq'
      cases hq'
      exact absurd hc hnot
  | dequeue owner visibility p =>
    obtain rfl : p = policy := hpolicy p rfl
    right
    obtain ⟨q₁, d, dead, t₁, hrun, -, hrec, hcase⟩ :=
      dequeue_spec h.ordered name owner visibility p now
    simp only [QueueAction.perform, hrun, Option.map_some, Option.some.injEq, Prod.mk.injEq] at hp
    obtain ⟨-, rfl⟩ := hp
    have hmax : (dequeuePolicy name p visibility).maxDeliveries = p.maxDeliveries := by
      simp [dequeuePolicy, maxDeliveries_of_live hname]
    rw [← hmax]
    obtain ⟨c, hf⟩ := h.ordered.places.mem_claims.mp hc
    have hlive := ((files_swept h.ordered h.files hrec).1 k).mpr hk
    refine swept_returned hf hlive ?_
    intro c' hc'
    rcases hcase with ⟨-, hord, -⟩ | ⟨delivery, -, havail, -, -, -, -, hord⟩
    · obtain rfl : q₁ = q' := by simpa [hord.queue] using hq'
      exact hnot (hord.places.mem_claims.mpr ⟨c', hc'⟩)
    · obtain rfl : q₁ = q' := by simpa [hord.queue] using hq'
      have hne : k ≠ delivery.key := by
        rintro rfl
        rw [havail] at hc'
        cases hc'
      refine hnot (hord.places.mem_claims.mpr ⟨c', ?_⟩)
      rw [Function.update_of_ne hne]
      exact hc'
  | peekSweep key p =>
    obtain rfl : p = policy := hpolicy p rfl
    right
    obtain ⟨-, -, -, rfl⟩ := perform_peekSweep hp
    rw [← maxDeliveries_of_live hname p]
    exact takeExpired_returned h hq' hk hc hnot
  | statistics p =>
    obtain rfl : p = policy := hpolicy p rfl
    right
    obtain ⟨-, -, -, rfl⟩ := perform_statistics hp
    rw [← maxDeliveries_of_live hname p]
    exact takeExpired_returned h hq' hk hc hnot

end

/-! ## The bound -/

/-- No record has been handed out more than `n` times, and one that nobody holds fewer. -/
structure Within (n : Nat) (counts : String → Nat) (s : QueueStore) : Prop where
  bound : ∀ k, counts k ≤ n
  counted : ∀ k, k ∈ s.table.records → counts k ≤ s.deliveriesOf k
  unclaimed : ∀ k, k ∈ s.table.records → (∀ q, s.table.queue = some q → k ∉ q.claims) → counts k < n

section

variable {s : QueueStore} {n : Nat} {counts : String → Nat}

theorem Within.attach (h : Within n counts s) : Within n counts s.attach := by
  cases hq : s.table.queue with
  | some q => rw [attach_of_some hq]; exact h
  | none =>
    have ht := attach_of_none hq
    have hmem : ∀ k, k ∈ s.attach.table.records → k ∈ s.table.records := by
      intro k hk
      rw [ht] at hk
      exact hk
    refine ⟨h.bound, ?_, ?_⟩
    · intro k hk
      rw [(attach_kept (hmem k hk)).1]
      exact h.counted k (hmem k hk)
    · intro k hk _
      refine h.unclaimed k (hmem k hk) fun q hq' => ?_
      rw [hq] at hq'
      cases hq'

theorem Within.flush (h : Within n counts s) : Within n counts s.flush := by
  refine ⟨h.bound, ?_, ?_⟩
  · intro k hk
    rw [(flush_kept s k).1]
    rw [flush_records] at hk
    exact h.counted k hk
  · intro k hk hnot
    rw [flush_records] at hk
    refine h.unclaimed k hk fun q hq hc => ?_
    cases hd : q.isDirty with
    | false =>
      rw [flush_of_clean hq hd] at hnot
      exact hnot q hq hc
    | true =>
      rw [flush_of_dirty hq hd] at hnot
      exact hnot q.clearDirty rfl hc

/-- A claim a restart ends was on a record with deliveries to go. -/
theorem Within.restart (hkept : Kept s) (h : Within n counts s)
    (hspares : ∀ q, s.table.queue = some q → ∀ k, k ∈ q.claims → q.deliveriesOf k < n) :
    Within n counts s.restart := by
  refine ⟨h.bound, ?_, ?_⟩
  · intro k hk
    rw [mem_restart] at hk
    rw [(restart_kept hkept hk).1]
    exact h.counted k hk
  · intro k hk _
    rw [mem_restart] at hk
    by_cases hclaimed : ∃ q, s.table.queue = some q ∧ k ∈ q.claims
    · obtain ⟨q, hq, hc⟩ := hclaimed
      have hcount := h.counted k hk
      simp only [QueueStore.deliveriesOf, hq] at hcount
      exact lt_of_le_of_lt hcount (hspares q hq k hc)
    · exact h.unclaimed k hk fun q hq hc => hclaimed ⟨q, hq, hc⟩

/-- What a DEQUEUE hands out had been handed out fewer than `n` times. -/
theorem delivered_unclaimed {name : String} {policy : QueuePolicy} {now : Nat} {a : QueueAction}
    {delivery : QueueDelivery} {f f' : String → Place} {q q' : QueueState} {t' : Table}
    (hname : isDeadLetterName name = false) (hpolicy : ∀ p, a.policy = some p → p = policy)
    (h : Within policy.maxDeliveries counts s)
    (hstep : CommandStep name now a (.delivered (some delivery)) f f' q q' s.table t') :
    delivery.key ∈ s.table.records ∧ counts delivery.key < policy.maxDeliveries ∧
      delivery.key ∈ q'.claims := by
  have hq := hstep.before.ordered.queue
  have hrep := hstep.before.ordered.places
  have heff := hstep.effect
  have hafter := hstep.after.ordered.places
  cases heff with
  | idle hout => rcases hout with hout | ⟨error, hout⟩ <;> cases hout
  | sweep _ hout _ _ => rcases hout with hout | hout <;> cases hout
  | claim owner visibility own policy' _ hp _ _ havail =>
    obtain rfl : own = policy := hpolicy own rfl
    have hmax : policy'.maxDeliveries = own.maxDeliveries := by
      rw [hp]
      simp [dequeuePolicy, maxDeliveries_of_live hname]
    have hrecord : delivery.key ∈ s.table.records := by
      apply (hstep.before.files _).mp
      intro habs
      simp [swept, habs, Place.sweep] at havail
    refine ⟨hrecord, ?_, hafter.mem_claims.mpr ⟨_, Function.update_self _ _ _⟩⟩
    by_cases hclaimed : ∃ c, f delivery.key = .claimed c
    · obtain ⟨c, hc⟩ := hclaimed
      have hlt := @swept_returned f q now policy' delivery.key c hc (by simp [havail])
        (by simp [havail])
      have hcount := h.counted _ hrecord
      simp only [QueueStore.deliveriesOf, hq] at hcount
      rw [hmax] at hlt
      exact lt_of_le_of_lt hcount hlt
    · refine h.unclaimed _ hrecord fun q₁ hq₁ hc => ?_
      obtain rfl : q = q₁ := by simpa [hq] using hq₁
      exact hclaimed (hrep.mem_claims.mp hc)

theorem within_command {name : String} {policy : QueuePolicy} {e : StoreEvent} {a : QueueAction}
    {f f' : String → Place} {q q' : QueueState} {t' : Table}
    (hname : isDeadLetterName name = false) (hcmd : a.isCommand = true)
    (hpos : 0 < policy.maxDeliveries) (hpolicy : ∀ p, a.policy = some p → p = policy)
    (hlast : ∀ k, k ∈ s.table.records → s.deliveriesOf k < u32Max)
    (hp : a.perform name s.table e.reading = some (e.outcome, t'))
    (h : Within policy.maxDeliveries counts s)
    (hstep : CommandStep name e.reading a e.outcome f f' q q' s.table t') :
    Within policy.maxDeliveries (noteDelivery counts e) { s with table := t' } := by
  have hq := hstep.before.ordered.queue
  have hq' := hstep.after.ordered.queue
  have hdel : ∀ k, s.deliveriesOf k = q.deliveriesOf k := fun k => by
    simp only [QueueStore.deliveriesOf, hq]
  have hdel' : ∀ k, ({ s with table := t' } : QueueStore).deliveriesOf k = q'.deliveriesOf k :=
    fun k => by simp only [QueueStore.deliveriesOf, hq']
  have hold : ∀ k, k ∈ t'.records → e.outcome ≠ .enqueued k → k ∈ s.table.records := by
    intro k hk hne
    rcases effect_records hstep.before hstep.effect k hk with hk | ⟨hk, -⟩
    · exact hk
    · exact absurd hk hne
  -- a record nobody holds after the command, and neither enqueued nor handed out by it
  have hquiet : ∀ k, k ∈ t'.records → e.outcome ≠ .enqueued k → k ∉ q'.claims →
      counts k < policy.maxDeliveries := by
    intro k hk hne hnot
    by_cases hc : k ∈ q.claims
    · have hcount := h.counted k (hold k hk hne)
      rw [hdel] at hcount
      rcases claim_returned hname hstep.before hcmd hpolicy hp hq' hk hc hnot with hout | hlt
      · exact absurd hout hne
      · exact lt_of_le_of_lt hcount hlt
    · refine h.unclaimed k (hold k hk hne) fun q₁ hq₁ => ?_
      obtain rfl : q = q₁ := by simpa [hq] using hq₁
      exact hc
  have hcount := hstep.book.count
  have hidle : noteDelivery counts e = counts → (∀ k, e.outcome ≠ .enqueued k) →
      e.outcome.key = none → Within policy.maxDeliveries counts { s with table := t' } := by
    intro hnote hne hkey
    refine ⟨h.bound, fun k hk => ?_, fun k hk hnot => hquiet k hk (hne k) (hnot q' hq')⟩
    rw [hdel', hcount k hk, hkey]
    simpa [hdel] using h.counted k (hold k hk (hne k))
  cases hout : e.outcome with
  | enqueued key =>
    have hnote : noteDelivery counts e = Function.update counts key 0 := by
      simp [noteDelivery, hout]
    rw [hnote]
    refine ⟨fun k => ?_, fun k hk => ?_, fun k hk hnot => ?_⟩
    · by_cases hk : k = key
      · simp [hk]
      · simpa [hk] using h.bound k
    · by_cases hkey : k = key
      · simp [hkey]
      · have hne : e.outcome ≠ .enqueued k := by
          rw [hout]
          simpa using Ne.symm hkey
        rw [Function.update_of_ne hkey, hdel', hcount k hk, hout]
        simpa [QueueOutcome.key, hdel] using h.counted k (hold k hk hne)
    · by_cases hkey : k = key
      · simpa [hkey] using hpos
      · rw [Function.update_of_ne hkey]
        refine hquiet k hk ?_ (hnot q' hq')
        rw [hout]
        simpa using Ne.symm hkey
  | delivered d =>
    have hne : ∀ k, e.outcome ≠ .enqueued k := fun k => by simp [hout]
    cases d with
    | none =>
      have hnote : noteDelivery counts e = counts := by simp [noteDelivery, hout]
      rw [hnote]
      exact hidle hnote hne (by rw [hout]; rfl)
    | some delivery =>
      have hnote : noteDelivery counts e =
          Function.update counts delivery.key (counts delivery.key + 1) := by
        simp [noteDelivery, hout]
      rw [hout] at hstep
      obtain ⟨hrecord, hlt, hclaimed⟩ := delivered_unclaimed hname hpolicy h hstep
      rw [hnote]
      refine ⟨fun k => ?_, fun k hk => ?_, fun k hk hnot => ?_⟩
      · by_cases hk : k = delivery.key
        · rw [hk, Function.update_self]
          exact hlt
        · rw [Function.update_of_ne hk]
          exact h.bound k
      · rw [hdel', hcount k hk, hout]
        by_cases hkey : k = delivery.key
        · subst hkey
          have hsmall := hlast _ hrecord
          have hle := h.counted _ hrecord
          rw [hdel] at hsmall hle
          have hmod : (q.deliveriesOf delivery.key + 1) % 2 ^ 32 =
              q.deliveriesOf delivery.key + 1 := by
            unfold u32Max at hsmall
            omega
          simp only [QueueOutcome.key, if_true, Function.update_self, hmod]
          omega
        · rw [Function.update_of_ne hkey]
          have hkey' : (QueueOutcome.delivered (some delivery)).key ≠ some k := by
            simpa [QueueOutcome.key] using Ne.symm hkey
          rw [if_neg hkey', ← hdel]
          exact h.counted k (hold k hk (hne k))
      · have hkey : k ≠ delivery.key := by
          rintro rfl
          exact hnot q' hq' hclaimed
        rw [Function.update_of_ne hkey]
        exact hquiet k hk (hne k) (hnot q' hq')
  | _ =>
    have hne : ∀ k, e.outcome ≠ .enqueued k := fun k => by simp [hout]
    have hnote : noteDelivery counts e = counts := by simp [noteDelivery, hout]
    rw [hnote]
    exact hidle hnote hne (by rw [hout]; rfl)

theorem noteDelivery_of_done {e : StoreEvent} (h : e.outcome = .done) :
    noteDelivery counts e = counts := by
  simp [noteDelivery, h]

theorem within_step {name : String} {policy : QueuePolicy} {s' : QueueStore} {e : StoreEvent}
    (hname : isDeadLetterName name = false) (hpos : 0 < policy.maxDeliveries) (hkept : Kept s)
    (hfixed : FixedPolicy policy s e) (hspares : Spares policy s e)
    (h : Within policy.maxDeliveries counts s)
    (hp : e.action.perform name s e.reading = some (e.outcome, s')) :
    Within policy.maxDeliveries (noteDelivery counts e) s' := by
  rcases store_step hp with ⟨a, t', ha, hcmd, hrun, rfl⟩ | ⟨hout, hcase⟩
  · cases hq : s.table.queue with
    | none =>
      obtain ⟨hout, rfl⟩ := perform_of_none hq hcmd hrun
      rw [noteDelivery_of_done hout]
      exact h
    | some q =>
      obtain ⟨f, f', q', hstep⟩ := command_step hkept hq hcmd hrun
      exact within_command hname hcmd hpos (fun p hp => hfixed.2 a p ha hp) hspares.2 hrun h hstep
  · rw [noteDelivery_of_done hout]
    rcases hcase with ⟨-, rfl⟩ | ⟨-, rfl⟩ | ⟨ha, rfl⟩
    · exact h.attach
    · exact h.flush
    · exact h.restart hkept (hspares.1 ha)

end

theorem within_run {name : String} {policy : QueuePolicy} (hname : isDeadLetterName name = false)
    (hpos : 0 < policy.maxDeliveries) : ∀ {es : List StoreEvent} {s s' : QueueStore}
    {counts : String → Nat},
    StoreRun name (fun s e => FixedPolicy policy s e ∧ Spares policy s e) s es s' → Kept s →
    Within policy.maxDeliveries counts s →
    Within policy.maxDeliveries (es.foldl noteDelivery counts) s' := by
  intro es
  induction es with
  | nil => intro s s' counts hrun _ h; cases hrun; exact h
  | cons e es ih =>
    intro s s' counts hrun hkept h
    cases hrun with
    | cons hok hp hrest =>
      exact ih hrest (hkept.step hok.1.1 hp) (within_step hname hpos hkept hok.1 hok.2 h hp)

/-- In every run in which no restart ends a claim on a record that has been delivered as often as
it may be, no record is handed out more often than that. -/
theorem delivery_bound (name timeout deliveries : String) (hname : isDeadLetterName name = false)
    {s s' : QueueStore} {es : List StoreEvent} (h : Opened s)
    (hrun : StoreRun name (fun s e =>
      FixedPolicy (.fromAttributes timeout deliveries) s e ∧
        Spares (.fromAttributes timeout deliveries) s e) s es s') :
    ∀ pre, pre <+: es → ∀ key,
      handedOut pre key ≤ (QueuePolicy.fromAttributes timeout deliveries).maxDeliveries := by
  rintro pre ⟨post, rfl⟩ key
  obtain ⟨s₁, hpre, -⟩ := hrun.append
  have hpos := fromAttributes_pos timeout deliveries
  have hstart : Within (QueuePolicy.fromAttributes timeout deliveries).maxDeliveries
      (fun _ => 0) s := ⟨fun _ => Nat.zero_le _, fun _ _ => Nat.zero_le _, fun _ _ _ => hpos⟩
  exact (within_run hname hpos hpre h.kept hstart).bound key

/-- Delivered once, of once, and in hand when the file is reloaded: the next DEQUEUE delivers it
again. -/
theorem restart_delivers_again :
    ∃ es s, Opened newQueue ∧
      StoreRun "JOBS" (FixedPolicy (.fromAttributes "60" "1")) newQueue es s ∧
      (QueuePolicy.fromAttributes "60" "1").maxDeliveries = 1 ∧
      handedOut es "00000000000005000000" = 2 := by
  have hpolicy :
      QueuePolicy.fromAttributes "60" "1" = { visibility := 60000, maxDeliveries := 1 } := by
    decide +kernel
  have houts : storeOutcomes "JOBS" (fun _ _ => true) newQueue
      [.at 4 .attach, .at 5 (.command (.enqueue (Record.text "job") none)),
        .at 6 (.command (.dequeue "A" none { visibility := 60000, maxDeliveries := 1 })),
        .at 7 .restart, .at 8 .attach,
        .at 9 (.command (.dequeue "B" none { visibility := 60000, maxDeliveries := 1 }))] =
      some [.done, .enqueued "00000000000005000000",
        deliveryOf "00000000000005000000" "A" (Record.text "job") 1 60006, .done, .done,
        deliveryOf "00000000000005000000" "B" (Record.text "job") 2 60009] := by
    decide +kernel
  rw [hpolicy]
  obtain ⟨s, hrun⟩ := storeRun_of_outcomes
    (FixedPolicy { visibility := 60000, maxDeliveries := 1 }) (by
    intro s e he out _
    simp only [List.mem_cons, List.not_mem_nil, or_false] at he
    rcases he with rfl | rfl | rfl | rfl | rfl | rfl
    all_goals
      refine ⟨fun a m ha hm => ?_, fun a p ha hp => ?_⟩
      all_goals simp only [StoreEvent.at, StoreAction.command.injEq, reduceCtorEq] at ha
    all_goals subst ha
    all_goals simp_all [QueueAction.dueMillis, QueueAction.policy]) houts
  exact ⟨_, s, newQueue_opened, hrun, rfl, by decide +kernel⟩

/-- Every claim is on a record with deliveries to go, and no count stands at the last `u32`. -/
def sparesAll (policy : QueuePolicy) (s : QueueStore) : Bool :=
  (match s.table.queue with
    | some q => q.claims.keys.all fun k => q.deliveriesOf k < policy.maxDeliveries
    | none => true) &&
  s.table.records.keys.all fun k => s.deliveriesOf k < u32Max

theorem spares_of_all {policy : QueuePolicy} {s : QueueStore} (h : sparesAll policy s = true)
    (e : StoreEvent) : Spares policy s e := by
  simp only [sparesAll, Bool.and_eq_true, List.all_eq_true, Std.ExtTreeMap.mem_keys,
    decide_eq_true_eq] at h
  refine ⟨fun _ q hq k hk => ?_, h.2⟩
  have hclaims := h.1
  rw [hq] at hclaims
  simp only [List.all_eq_true, Std.ExtTreeMap.mem_keys, decide_eq_true_eq] at hclaims
  exact hclaims k hk

theorem delivery_bound_over_restart :
    ∃ es s, Opened newQueue ∧
      StoreRun "JOBS" (fun s e => FixedPolicy (.fromAttributes "60" "2") s e ∧
        Spares (.fromAttributes "60" "2") s e) newQueue es s ∧
      handedOut es "00000000000005000000" = 2 ∧
      handedOut es "00000000000005000000" ≤ (QueuePolicy.fromAttributes "60" "2").maxDeliveries := by
  have hpolicy :
      QueuePolicy.fromAttributes "60" "2" = { visibility := 60000, maxDeliveries := 2 } := by
    decide +kernel
  have houts : storeOutcomes "JOBS"
      (fun s _ => sparesAll { visibility := 60000, maxDeliveries := 2 } s) newQueue
      [.at 4 .attach, .at 5 (.command (.enqueue (Record.text "job") none)),
        .at 6 (.command (.dequeue "A" none { visibility := 60000, maxDeliveries := 2 })),
        .at 7 .restart, .at 8 .attach,
        .at 9 (.command (.dequeue "B" none { visibility := 60000, maxDeliveries := 2 }))] =
      some [.done, .enqueued "00000000000005000000",
        deliveryOf "00000000000005000000" "A" (Record.text "job") 1 60006, .done, .done,
        deliveryOf "00000000000005000000" "B" (Record.text "job") 2 60009] := by
    decide +kernel
  obtain ⟨s, hrun⟩ := storeRun_of_outcomes (fun s e =>
    FixedPolicy (.fromAttributes "60" "2") s e ∧ Spares (.fromAttributes "60" "2") s e) (by
    intro s e he out hcheck
    rw [hpolicy]
    refine ⟨?_, spares_of_all hcheck _⟩
    simp only [List.mem_cons, List.not_mem_nil, or_false] at he
    rcases he with rfl | rfl | rfl | rfl | rfl | rfl
    all_goals
      refine ⟨fun a m ha hm => ?_, fun a p ha hp => ?_⟩
      all_goals simp only [StoreEvent.at, StoreAction.command.injEq, reduceCtorEq] at ha
    all_goals subst ha
    all_goals simp_all [QueueAction.dueMillis, QueueAction.policy]) houts
  exact ⟨_, s, newQueue_opened, hrun, by decide +kernel,
    delivery_bound "JOBS" "60" "2" (by decide) newQueue_opened hrun _ (List.prefix_refl _) _⟩

end RustyPick
