import RustyPick.QueueOrder
import RustyPick.QueueFile

/-!
# RustyPick.QueueSpec

What each critical section of the queue commands does to a file, place by place.

`Ordered f q t` says that the order `q` attached to the table `t` spells out the places `f`. Each
lemma below takes it to the table a section leaves, with the new places as a function of the old,
and says what became of the records. Runs are reasoned about with these alone.
-/

namespace RustyPick

open Lib

/-- The order attached to `t` is `q`, and it spells out the places `f`. -/
structure Ordered (f : String → Place) (q : QueueState) (t : Table) : Prop where
  queue : t.queue = some q
  places : Represents f q
  due : ∀ k, k ∈ q.due → f k ≠ .absent

/-- Every record is in the order and nothing else is. -/
def Files (f : String → Place) (t : Table) : Prop := ∀ k, f k ≠ .absent ↔ k ∈ t.records

/-- Where ENQUEUE puts its record. -/
def Place.enqueued : Option Nat → Place
  | some millis => .held millis
  | none => .available

theorem Place.enqueued_ne_absent (due : Option Nat) : Place.enqueued due ≠ .absent := by
  cases due <;> simp [Place.enqueued]

namespace Table

@[simp] theorem insertRecord_records (t : Table) (key : String) (record : Record) :
    (t.insertRecord key record).records = t.records.insert key record := rfl

@[simp] theorem insertRecord_queue (t : Table) (key : String) (record : Record) :
    (t.insertRecord key record).queue = t.queue := rfl

@[simp] theorem removeRecord_records (t : Table) (key : String) :
    (t.removeRecord key).2.records = t.records.erase key := rfl

@[simp] theorem removeRecord_queue (t : Table) (key : String) :
    (t.removeRecord key).2.queue = t.queue := rfl

end Table

section Sections

variable {f : String → Place} {q : QueueState} {t : Table}

/-- A place given to a key in the order keeps every due time in the order. -/
theorem due_update {due due' : Map String Nat} {key : String} {place : Place}
    (h : ∀ k, k ∈ due → f k ≠ .absent) (hplace : place ≠ .absent)
    (hdue : ∀ k, k ∈ due' → k ∈ due ∨ k = key) :
    ∀ k, k ∈ due' → Function.update f key place k ≠ .absent := by
  intro k hk
  by_cases hkey : k = key
  · subst hkey
    simpa using hplace
  · rw [Function.update_of_ne hkey]
    rcases hdue k hk with hk | hk
    · exact h k hk
    · exact absurd hk hkey

theorem enqueueDue_spec (h : Ordered f q t) (record : Record) (due : Option Nat) (now : Nat) :
    ∃ q' t', t.enqueueDue record due now = some (formatKey (q.sequence.upcoming now), t') ∧
      Ordered (Function.update f (formatKey (q.sequence.upcoming now)) (Place.enqueued due)) q' t' ∧
      t'.records = t.records.insert (formatKey (q.sequence.upcoming now)) record ∧
      q'.sequence = (q.sequence.mint now).2 := by
  have hmint : Represents f (q.mint now).2 := h.places.congr rfl rfl rfl rfl
  have hrun : t.enqueueDue record due now = some (formatKey (q.sequence.upcoming now),
      { ({ t with queue := some (q.mint now).2 }).insertRecord
          (formatKey (q.sequence.upcoming now)) record with
        queue := some (match due with
          | some millis => (q.mint now).2.enqueueHeld (formatKey (q.sequence.upcoming now)) millis
          | none => (q.mint now).2.enqueue (formatKey (q.sequence.upcoming now))) }) := by
    unfold Table.enqueueDue
    rw [h.queue]
    rfl
  generalize formatKey (q.sequence.upcoming now) = key at hrun ⊢
  refine ⟨_, _, hrun, ⟨rfl, ?_, ?_⟩, rfl, ?_⟩
  · cases due with
    | none => exact represents_enqueue hmint key
    | some millis => exact represents_enqueueHeld hmint key millis
  · refine due_update h.due (Place.enqueued_ne_absent due) ?_
    intro k hk
    cases due with
    | none =>
      have hk' : k ∈ (q.mint now).2.due := by simpa [QueueState.enqueue] using hk
      exact Or.inl hk'
    | some millis =>
      simp only [QueueState.enqueueHeld, QueueState.hold, QueueState.unhold_due,
        Std.ExtTreeMap.mem_insert, Std.compare_eq_iff_eq] at hk
      exact hk.symm.imp id Eq.symm
  · cases due with
    | none => simp [QueueState.enqueue, QueueState.mint]
    | some millis => simp [QueueState.enqueueHeld, QueueState.hold, QueueState.mint]

/-! ## Sweeping -/

/-- The places a sweep leaves. -/
def swept (f : String → Place) (q : QueueState) (policy : QueuePolicy) (now : Nat) (k : String) :
    Place := (f k).sweep policy now (q.deliveriesOf k)

/-- One dead record after another, none of them in the order any more. -/
theorem takeDead_fold : ∀ (keys : List String) (letters : List DeadLetter) (t : Table)
    (q : QueueState), t.queue = some q → Represents f q → (∀ k ∈ keys, f k = .absent) →
    ∃ q', (keys.foldl Table.takeDead (letters, t)).2.queue = some q' ∧ Represents f q' ∧
      q'.sequence = q.sequence ∧
      (∀ k, q'.due[k]? = if k ∈ keys then none else q.due[k]?) ∧
      ∀ k, (keys.foldl Table.takeDead (letters, t)).2.records[k]? =
        if k ∈ keys then none else t.records[k]? := by
  intro keys
  induction keys with
  | nil => intro letters t q hq h _; exact ⟨q, hq, h, rfl, by simp, by simp⟩
  | cons key keys ih =>
    intro letters t q hq h habs
    have hstep : ∃ letters', Table.takeDead (letters, t) key = (letters',
        ({ t with queue := some (q.forget key), records := t.records.erase key }).markDirty key) := by
      unfold Table.takeDead
      simp only [hq]
      exact ⟨_, rfl⟩
    obtain ⟨letters', hstep⟩ := hstep
    have hforget : Represents f (q.forget key) := by
      have := represents_forget h key
      rwa [← habs key List.mem_cons_self, Function.update_eq_self] at this
    obtain ⟨q', hq', hrep, hseq, hdue, hrec⟩ := ih letters'
      (({ t with queue := some (q.forget key), records := t.records.erase key }).markDirty key)
      (q.forget key) rfl hforget (fun k hk => habs k (List.mem_cons_of_mem _ hk))
    rw [List.foldl_cons, hstep]
    refine ⟨q', hq', hrep, ?_, ?_, ?_⟩
    · rw [hseq]
      simp [QueueState.forget]
    · intro k
      rw [hdue]
      simp only [QueueState.forget, QueueState.unhold_due, getElem?_erase_eq]
      by_cases hk : k = key
      · simp [hk]
      · simp [hk, Ne.symm hk]
    · intro k
      rw [hrec]
      simp only [Table.markDirty, getElem?_erase_eq]
      by_cases hk : k = key
      · simp [hk]
      · simp [hk, Ne.symm hk]

theorem takeExpired_spec (h : Ordered f q t) (now : Nat) (policy : QueuePolicy) :
    ∃ q', Ordered (swept f q policy now) q' (t.takeExpired now policy).2 ∧
      q'.sequence = q.sequence ∧
      ∀ k, (t.takeExpired now policy).2.records[k]? =
        if f k ≠ .absent ∧ swept f q policy now k = .absent then none else t.records[k]? := by
  obtain ⟨hrep, hbook, hdead⟩ := represents_expire h.places now policy
  have hdead' : ∀ k, k ∈ (q.expire now policy).2.dead ↔
      f k ≠ .absent ∧ swept f q policy now k = .absent := by
    intro k
    rw [hdead]
    cases hf : f k with
    | claimed c => by_cases hl : c.hasLapsed now <;> simp [swept, hf, Place.sweep, hl]
    | held m => by_cases hm : m ≤ now <;> simp [swept, hf, Place.sweep, hm]
    | available => simp [swept, hf, Place.sweep]
    | absent => simp
  have hexp : t.takeExpired now policy =
      (q.expire now policy).2.dead.foldl Table.takeDead
        ([], { t with queue := some (q.expire now policy).1 }) := by
    unfold Table.takeExpired
    rw [h.queue]
  rw [hexp]
  obtain ⟨q', hq', hrep', hseq, hdue, hrec⟩ := takeDead_fold (q.expire now policy).2.dead []
    { t with queue := some (q.expire now policy).1 } (q.expire now policy).1 rfl hrep
    (fun k hk => ((hdead' k).mp hk).2)
  refine ⟨q', ⟨hq', hrep', ?_⟩, hseq.trans hbook.2.2, ?_⟩
  · intro k hk
    obtain ⟨m, hm⟩ := mem_iff_exists.mp hk
    rw [hdue, hbook.2.1] at hm
    split at hm
    · cases hm
    · rename_i hnot
      intro habs
      exact hnot ((hdead' k).mpr ⟨h.due k (mem_of_getElem? hm), habs⟩)
  · intro k
    rw [hrec]
    simp only [hdead']

/-! ## Claiming and settling -/

/-- The policy a DEQUEUE sweeps and claims under. -/
def dequeuePolicy (name : String) (policy : QueuePolicy) (visibility : Option Nat) : QueuePolicy :=
  { effectivePolicy name policy with visibility := visibility.getD policy.visibility }

/-- A DEQUEUE finds nothing, or claims the least key the sweep left available. -/
theorem dequeue_spec (h : Ordered f q t) (name owner : String) (visibility : Option Nat)
    (policy : QueuePolicy) (now : Nat) :
    ∃ q' d dead t', t.dequeue name owner visibility policy now = some (d, dead, t') ∧
      q'.sequence = q.sequence ∧
      t'.records = (t.takeExpired now (dequeuePolicy name policy visibility)).2.records ∧
      ((d = none ∧ Ordered (swept f q (dequeuePolicy name policy visibility) now) q' t' ∧
          ∀ k, swept f q (dequeuePolicy name policy visibility) now k ≠ .available) ∨
        ∃ delivery, d = some delivery ∧
          swept f q (dequeuePolicy name policy visibility) now delivery.key = .available ∧
          (∀ k, swept f q (dequeuePolicy name policy visibility) now k = .available →
            delivery.key ≤ k) ∧
          delivery.owner = some owner ∧
          delivery.record = t'.records[delivery.key]?.getD {} ∧
          delivery.expiresMillis =
            some (newClaim owner now (dequeuePolicy name policy visibility)).expiresMillis ∧
          Ordered (Function.update (swept f q (dequeuePolicy name policy visibility) now)
            delivery.key (.claimed (newClaim owner now (dequeuePolicy name policy visibility))))
            q' t') := by
  obtain ⟨q₁, hord, hseq, -⟩ := takeExpired_spec h now (dequeuePolicy name policy visibility)
  have hrun : t.dequeue name owner visibility policy now =
      (t.takeExpired now (dequeuePolicy name policy visibility)).2.queue.map fun q =>
        ((q.claim owner now (dequeuePolicy name policy visibility)).1.map fun claimed =>
          { key := claimed.1
            record := (t.takeExpired now
              (dequeuePolicy name policy visibility)).2.records[claimed.1]?.getD {}
            deliveries := claimed.2
            enqueuedMillis := keyMillis claimed.1
            expiresMillis := ((q.claim owner now
              (dequeuePolicy name policy visibility)).2.claimOn claimed.1).map Claim.expiresMillis
            owner := some owner
            dueMillis := none : QueueDelivery },
          (t.takeExpired now (dequeuePolicy name policy visibility)).1,
          { (t.takeExpired now (dequeuePolicy name policy visibility)).2 with
            queue := some (q.claim owner now (dequeuePolicy name policy visibility)).2 }) := rfl
  generalize dequeuePolicy name policy visibility = policy' at *
  rw [hord.queue] at hrun
  cases hfirst : first q₁.available with
  | none =>
    have hclaim : q₁.claim owner now policy' = (none, q₁) := by
      simp [QueueState.claim, hfirst]
    have hnone : ∀ k, swept f q policy' now k ≠ .available := by
      intro k hk
      rw [← hord.places.available, first_eq_none.mp hfirst] at hk
      exact absurd hk (Finset.notMem_empty k)
    rw [Option.map_some, hclaim] at hrun
    exact ⟨q₁, none, _, _, hrun, hseq, rfl, Or.inl ⟨rfl, ⟨rfl, hord.places, hord.due⟩, hnone⟩⟩
  | some key =>
    have hclaim : (q₁.claim owner now policy').1 =
        some (key, (q₁.deliveries[key]?.getD 0 + 1) % 2 ^ 32) := by
      simp [QueueState.claim, hfirst]
    have hrep := represents_claim hord.places hfirst owner now policy'
    rw [Option.map_some, hclaim, Option.map_some] at hrun
    refine ⟨(q₁.claim owner now policy').2, _, _, _, hrun, ?_, rfl, Or.inr ⟨_, rfl, ?_, ?_, rfl,
      rfl, ?_, rfl, hrep, ?_⟩⟩
    · rw [← hseq]
      simp [QueueState.claim, hfirst]
    · exact (hord.places.available key).mp (first_mem hfirst)
    · intro k hk
      exact first_le hfirst ((hord.places.available k).mpr hk)
    · have hc := (hrep.claims key (newClaim owner now policy')).mpr (by simp)
      simp only [QueueState.claimOn, hc, Option.map_some]
    · refine due_update hord.due (by simp) ?_
      intro k hk
      simp only [QueueState.claim, hfirst] at hk
      exact Or.inl hk

/-- What settling a claim needs: a record, and the claim standing in the caller's name. -/
def Held (f : String → Place) (t : Table) (key owner : String) : Prop :=
  key ∈ t.records ∧ ∃ expires, f key = .claimed { owner := owner, expiresMillis := expires }

theorem verify_spec (h : Ordered f q t) (key owner : String) :
    (q.verify key owner (t.records.contains key) = .ok () ∧ Held f t key owner) ∨
      ∃ e, q.verify key owner (t.records.contains key) = .error e ∧ ¬ Held f t key owner := by
  unfold QueueState.verify Held
  split
  · rename_i habs
    rw [Std.ExtTreeMap.contains_iff_mem] at habs
    exact Or.inr ⟨_, rfl, fun hc => habs hc.1⟩
  · rename_i hpres
    rw [not_not, Std.ExtTreeMap.contains_iff_mem] at hpres
    split
    · rename_i hnone
      refine Or.inr ⟨_, rfl, ?_⟩
      rintro ⟨_, e, hc⟩
      rw [(h.places.claims _ _).mpr hc] at hnone
      cases hnone
    · rename_i c hc
      split
      · rename_i howner
        refine Or.inr ⟨_, rfl, ?_⟩
        rintro ⟨_, e, hc'⟩
        rw [(h.places.claims _ _).mpr hc'] at hc
        cases hc
        exact howner rfl
      · rename_i howner
        rw [ne_eq, not_not] at howner
        subst howner
        exact Or.inl ⟨rfl, hpres, c.expiresMillis, (h.places.claims _ _).mp hc⟩

theorem ack_spec (h : Ordered f q t) (name key owner : String) :
    (Held f t key owner ∧ ∃ q' t', t.ack name key owner = some (.ok (), t') ∧
        Ordered (Function.update f key .absent) q' t' ∧ t'.records = t.records.erase key ∧
        q'.sequence = q.sequence) ∨
      (¬ Held f t key owner ∧ ∃ e, t.ack name key owner = some (.error e, t)) := by
  unfold Table.ack
  rw [h.queue, Option.map_some]
  rcases verify_spec h key owner with ⟨hv, hheld⟩ | ⟨e, hv, hheld⟩
  · rw [hv]
    refine Or.inl ⟨hheld, q.forget key, _, rfl, ⟨rfl, represents_forget h.places key, ?_⟩, rfl, ?_⟩
    · intro k hk
      simp only [QueueState.forget, QueueState.unhold_due, Std.ExtTreeMap.mem_erase, ne_eq,
        Std.compare_eq_iff_eq] at hk
      rw [Function.update_of_ne (Ne.symm hk.1)]
      exact h.due k hk.2
    · simp [QueueState.forget]
  · rw [hv]
    exact Or.inr ⟨hheld, _, rfl⟩

/-- Where NACK puts the record it gives back. -/
def Place.nacked (policy : QueuePolicy) (deliveries : Nat) (due : Option Nat) : Place :=
  if policy.maxDeliveries ≤ deliveries then .absent else Place.enqueued due

theorem nackUntil_spec (h : Ordered f q t) (name key owner : String) (policy : QueuePolicy)
    (due : Option Nat) :
    (Held f t key owner ∧ ∃ q' letters t',
        t.nackUntil name key owner policy due = some (.ok letters, t') ∧
        Ordered (Function.update f key
          (Place.nacked (effectivePolicy name policy) (q.deliveriesOf key) due)) q' t' ∧
        t'.records = (if (effectivePolicy name policy).maxDeliveries ≤ q.deliveriesOf key then
          t.records.erase key else t.records) ∧
        q'.sequence = q.sequence) ∨
      (¬ Held f t key owner ∧ ∃ e, t.nackUntil name key owner policy due = some (.error e, t)) := by
  unfold Table.nackUntil
  simp only
  rw [h.queue, Option.map_some]
  rcases verify_spec h key owner with ⟨hv, hheld⟩ | ⟨e, hv, hheld⟩
  · rw [hv]
    generalize effectivePolicy name policy = policy'
    obtain ⟨_, expires, hclaimed⟩ := id hheld
    have hun := represents_unclaim h.places ⟨_, hclaimed⟩ true
    refine Or.inl ⟨hheld, ?_⟩
    by_cases hmax : policy'.maxDeliveries ≤ q.deliveriesOf key
    · have hrel : q.releaseUntil key policy' due =
          (true, { q with claims := q.claims.erase key, dirty := true }) := if_pos hmax
      have hrep := represents_forget hun key
      rw [Function.update_idem] at hrep
      rw [hrel, if_pos hmax, Place.nacked, if_pos hmax]
      refine ⟨_, _, _, rfl, ⟨rfl, hrep, ?_⟩, rfl, ?_⟩
      · intro k hk
        simp only [QueueState.forget, QueueState.unhold_due, Std.ExtTreeMap.mem_erase, ne_eq,
          Std.compare_eq_iff_eq] at hk
        rw [Function.update_of_ne (Ne.symm hk.1)]
        exact h.due k hk.2
      · simp [QueueState.forget]
    · rw [if_neg hmax, Place.nacked, if_neg hmax]
      cases due with
      | none =>
        have hrel : q.releaseUntil key policy' none =
            (false, { q with
              claims := q.claims.erase key, dirty := true
              available := insert key q.available }) := if_neg hmax
        have hrep := represents_insert hun key (by simp)
        rw [Function.update_idem] at hrep
        rw [hrel]
        exact ⟨_, _, _, rfl, ⟨rfl, hrep, due_update h.due (Place.enqueued_ne_absent none)
          (fun k hk => Or.inl hk)⟩, rfl, rfl⟩
      | some millis =>
        have hrel : q.releaseUntil key policy' (some millis) =
            (false, QueueState.hold { q with claims := q.claims.erase key, dirty := true } key
              millis) := if_neg hmax
        have hrep := represents_hold hun key (by simp) (by simp) millis
        rw [Function.update_idem] at hrep
        rw [hrel]
        refine ⟨_, _, _, rfl, ⟨rfl, hrep,
          due_update h.due (Place.enqueued_ne_absent (some millis)) ?_⟩, rfl, ?_⟩
        · intro k hk
          simp only [QueueState.hold, QueueState.unhold_due, Std.ExtTreeMap.mem_insert,
            Std.compare_eq_iff_eq] at hk
          exact hk.symm.imp id Eq.symm
        · simp [QueueState.hold]
  · rw [hv]
    exact Or.inr ⟨hheld, _, rfl⟩

/-! ## Loading and repairing -/

/-- Where a repair moves a key that has a place already. -/
def repaired (f : String → Place) (t : Table) (k : String) : Place :=
  if k ∈ t.records then (if f k = .absent then .available else f k) else .absent

theorem files_repaired (f : String → Place) (t : Table) : Files (repaired f t) t := by
  intro k
  unfold repaired
  split
  · split <;> simp_all
  · simp_all

theorem reconcileQueue_spec (h : t.queue = some q) (hs : q.Sound) :
    Ordered (q.repairedPlace t.records) (q.reconcile t.records) t.reconcileQueue := by
  refine ⟨?_, represents_reconcile hs t.records, ?_⟩
  · simp [Table.reconcileQueue, h]
  · intro k hk
    simp only [QueueState.reconcile, mem_retain, Std.ExtTreeMap.contains_iff_mem] at hk
    unfold QueueState.repairedPlace
    rw [if_pos hk.1]
    split
    · simp
    · split <;> simp

theorem Ordered.reconcile (h : Ordered f q t) :
    Ordered (repaired f t) (q.reconcile t.records) t.reconcileQueue := by
  have := reconcileQueue_spec h.queue (h.places.sound h.due)
  have hplaces : q.repairedPlace t.records = repaired f t := by
    funext k
    exact h.places.repairedPlace t.records k
  rwa [hplaces] at this

theorem attachQueue_spec (h : t.queue = none) (persisted : PersistedQueue) :
    Ordered (attachedPlace t.records persisted) (QueueState.attach t.records persisted)
      (t.attachQueue persisted) := by
  refine ⟨?_, represents_attach t.records persisted, ?_⟩
  · simp [Table.attachQueue, h]
  · intro k hk
    simp only [QueueState.attach, mem_retain, Std.ExtTreeMap.contains_iff_mem] at hk
    unfold attachedPlace
    rw [if_pos hk.1]
    split <;> simp

theorem files_attached (t : Table) (persisted : PersistedQueue) :
    Files (attachedPlace t.records persisted) t := by
  intro k
  unfold attachedPlace
  split
  · split <;> simp_all
  · simp_all

end Sections

end RustyPick
