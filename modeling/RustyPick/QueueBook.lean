import RustyPick.QueueRun

/-!
# RustyPick.QueueBook

What a section does to the part of the order that is written down: the delivery counts and the due
times.

* `perform_book`: of the records a section leaves, only the one it hands out has its count changed,
  by one; a due time is only ever the one it had or the one the section was given; and an order that
  is not marked for the next flush is as it was.
-/

namespace RustyPick

open Lib

/-! ## Sweeping -/

theorem releaseDueLoop_zero {now : Nat} : ∀ {fuel : Nat} {q : QueueState},
    (q.releaseDueLoop now fuel).1 = 0 → (q.releaseDueLoop now fuel).2 = q := by
  intro fuel
  cases fuel with
  | zero => intro q _; rfl
  | succ fuel =>
    intro q h
    rw [QueueState.releaseDueLoop] at h ⊢
    split
    · split
      · rename_i hentry hdue
        simp only [hentry, if_pos hdue] at h
        omega
      · rfl
    · rfl

theorem releaseDue_dirty (q : QueueState) (now : Nat) :
    (q.releaseDue now).2.dirty = true ∨ (q.releaseDue now).2 = q := by
  by_cases h : 0 < (q.releaseDueLoop now q.held.card).1
  · exact Or.inl (by simp [QueueState.releaseDue, h])
  · refine Or.inr ?_
    simp only [QueueState.releaseDue, if_neg h]
    exact releaseDueLoop_zero (by omega)

theorem expireOne_dirty (policy : QueuePolicy) (acc : QueueState × Expired) (key : String) :
    (QueueState.expireOne policy acc key).1.dirty = true := by
  unfold QueueState.expireOne
  simp only
  split <;> rfl

theorem expireOne_fold_dirty (policy : QueuePolicy) : ∀ (keys : List String)
    (acc : QueueState × Expired), acc.1.dirty = true →
    (keys.foldl (QueueState.expireOne policy) acc).1.dirty = true := by
  intro keys
  induction keys with
  | nil => intro acc h; exact h
  | cons key keys ih => intro acc _; exact ih _ (expireOne_dirty policy acc key)

/-- A sweep that has anything to do marks the order. -/
theorem expire_dirty (q : QueueState) (now : Nat) (policy : QueuePolicy) :
    (q.expire now policy).1.dirty = true ∨ q.expire now policy = (q, {}) := by
  unfold QueueState.expire
  simp only
  generalize ((q.releaseDue now).2.claims.filter fun _ claim => claim.hasLapsed now).keys = lapsed
  cases lapsed with
  | nil =>
    rcases releaseDue_dirty q now with h | h
    · exact Or.inl h
    · exact Or.inr (by rw [h]; rfl)
  | cons key keys =>
    exact Or.inl (expireOne_fold_dirty policy keys _ (expireOne_dirty policy _ key))

theorem takeDead_fold_book : ∀ (keys : List String) (letters : List DeadLetter) (t : Table)
    (q : QueueState), t.queue = some q →
    ∃ q', (keys.foldl Table.takeDead (letters, t)).2.queue = some q' ∧
      (∀ k, q'.deliveries[k]? = if k ∈ keys then none else q.deliveries[k]?) ∧
      (∀ k, q'.due[k]? = if k ∈ keys then none else q.due[k]?) ∧
      (q.dirty = true → q'.dirty = true) := by
  intro keys
  induction keys with
  | nil => intro letters t q hq; exact ⟨q, hq, by simp, by simp, id⟩
  | cons key keys ih =>
    intro letters t q hq
    have hstep : ∃ letters', Table.takeDead (letters, t) key = (letters',
        ({ t with queue := some (q.forget key), records := t.records.erase key }).markDirty key) := by
      unfold Table.takeDead
      simp only [hq]
      exact ⟨_, rfl⟩
    obtain ⟨letters', hstep⟩ := hstep
    obtain ⟨q', hq', hdel, hdue, hdirty⟩ := ih letters'
      (({ t with queue := some (q.forget key), records := t.records.erase key }).markDirty key)
      (q.forget key) rfl
    rw [List.foldl_cons, hstep]
    refine ⟨q', hq', ?_, ?_, fun _ => hdirty rfl⟩
    · intro k
      rw [hdel]
      simp only [QueueState.forget, QueueState.unhold_deliveries, getElem?_erase_eq]
      by_cases hk : k = key
      · simp [hk]
      · simp [hk, Ne.symm hk]
    · intro k
      rw [hdue]
      simp only [QueueState.forget, QueueState.unhold_due, getElem?_erase_eq]
      by_cases hk : k = key
      · simp [hk]
      · simp [hk, Ne.symm hk]

/-! ## One section -/

/-- The delivery counts and due times after a section: `delivered` is the key it handed out, `given`
the due time it was given and for which key. -/
structure BookKept (q q' : QueueState) (t t' : Table) (delivered : Option String)
    (given : Option (String × Nat)) : Prop where
  count : ∀ k, k ∈ t'.records → q'.deliveriesOf k =
    if delivered = some k then (q.deliveriesOf k + 1) % 2 ^ 32 else q.deliveriesOf k
  counted : ∀ k n, q'.deliveries[k]? = some n →
    q.deliveries[k]? = some n ∨ (k ∈ t.records ∧ n < 2 ^ 32)
  due : ∀ k m, q'.due[k]? = some m → q.due[k]? = some m ∨ given = some (k, m)
  written : q'.isDirty = true ∨ (q' = q ∧ t'.records = t.records)

theorem BookKept.refl (q : QueueState) (t : Table) : BookKept q q t t none none :=
  ⟨fun _ _ => by simp, fun _ _ h => Or.inl h, fun _ _ h => Or.inl h, Or.inr ⟨rfl, rfl⟩⟩

theorem BookKept.weaken {q q' : QueueState} {t t' : Table} {delivered : Option String}
    (h : BookKept q q' t t' delivered none) (given : Option (String × Nat)) :
    BookKept q q' t t' delivered given := by
  refine ⟨h.count, h.counted, fun k m hm => ?_, h.written⟩
  rcases h.due k m hm with hm | hm
  · exact Or.inl hm
  · cases hm

/-- The key a section handed out. -/
def QueueOutcome.key : QueueOutcome → Option String
  | .delivered (some delivery) => some delivery.key
  | _ => none

/-- The due time a section gave, and the key it gave it to. -/
def QueueAction.gives : QueueAction → QueueOutcome → Option (String × Nat)
  | .enqueue _ due, .enqueued key => due.map fun m => (key, m)
  | .nack key _ _ due, .settled => due.map fun m => (key, m)
  | _, _ => none

section

variable {f : String → Place} {q : QueueState} {t : Table}

theorem takeExpired_book (h : Ordered f q t) (now : Nat) (policy : QueuePolicy) :
    ∃ q', (t.takeExpired now policy).2.queue = some q' ∧
      BookKept q q' t (t.takeExpired now policy).2 none none := by
  obtain ⟨-, hbook, hdead⟩ := represents_expire h.places now policy
  obtain ⟨-, -, -, hrecs⟩ := takeExpired_spec h now policy
  have hexp : t.takeExpired now policy =
      (q.expire now policy).2.dead.foldl Table.takeDead
        ([], { t with queue := some (q.expire now policy).1 }) := by
    unfold Table.takeExpired
    rw [h.queue]
  obtain ⟨q', hq', hdel, hdue, hdirty⟩ := takeDead_fold_book (q.expire now policy).2.dead []
    { t with queue := some (q.expire now policy).1 } (q.expire now policy).1 rfl
  rw [hexp]
  refine ⟨q', hq', ⟨?_, ?_, ?_, ?_⟩⟩
  · intro k hk
    -- a record that is still there is not among the dead
    have hlive : k ∉ (q.expire now policy).2.dead := by
      intro hin
      obtain ⟨c, hc, hl, hmax⟩ := (hdead k).mp hin
      obtain ⟨record, hr⟩ := mem_iff_exists.mp hk
      rw [← hexp, hrecs, if_pos ⟨by simp [hc], by simp [swept, hc, Place.sweep, hl, hmax]⟩] at hr
      cases hr
    simp [QueueState.deliveriesOf, hdel, hlive, hbook.1]
  · intro k n hn
    rw [hdel, hbook.1] at hn
    split at hn
    · cases hn
    · exact Or.inl hn
  · intro k m hm
    rw [hdue, hbook.2.1] at hm
    split at hm
    · cases hm
    · exact Or.inl hm
  · rcases expire_dirty q now policy with hd | hsame
    · exact Or.inl (by simp [QueueState.isDirty, hdirty hd])
    · refine Or.inr ?_
      rw [hsame] at hq' ⊢
      have hqq : q' = q := by
        simp only [List.foldl_nil, Option.some.injEq] at hq'
        exact hq'.symm
      exact ⟨hqq, rfl⟩

theorem enqueueDue_book (h : Ordered f q t) (record : Record) (due : Option Nat) (now : Nat)
    {key : String} {t' : Table} (hrun : t.enqueueDue record due now = some (key, t')) :
    ∃ q', t'.queue = some q' ∧ BookKept q q' t t' none (due.map fun m => (key, m)) := by
  unfold Table.enqueueDue at hrun
  rw [h.queue] at hrun
  simp only [Option.map_some, Option.some.injEq, Prod.mk.injEq] at hrun
  obtain ⟨rfl, rfl⟩ := hrun
  generalize formatKey (q.mint now).1 = key
  refine ⟨_, rfl, ?_⟩
  cases due with
  | none =>
    refine ⟨fun k _ => ?_, fun k n hn => Or.inl ?_, fun k m hm => Or.inl ?_, Or.inl ?_⟩
    · simp [QueueState.enqueue, QueueState.deliveriesOf, QueueState.mint]
    · simpa [QueueState.enqueue, QueueState.mint] using hn
    · simpa [QueueState.enqueue, QueueState.mint] using hm
    · simp [QueueState.enqueue, QueueState.isDirty]
  | some millis =>
    refine ⟨fun k _ => ?_, fun k n hn => Or.inl ?_, fun k m hm => ?_, Or.inl ?_⟩
    · simp [QueueState.enqueueHeld, QueueState.hold, QueueState.deliveriesOf, QueueState.mint]
    · simpa [QueueState.enqueueHeld, QueueState.hold, QueueState.mint] using hn
    · simp only [QueueState.enqueueHeld, QueueState.hold, QueueState.unhold_due, QueueState.mint,
        getElem?_insert_eq] at hm
      split at hm
      · rename_i hk
        cases hm
        exact Or.inr (by simp [hk])
      · exact Or.inl hm
    · simp [QueueState.enqueueHeld, QueueState.hold, QueueState.isDirty]

theorem forget_book (q : QueueState) (t : Table) (key : String) {t' : Table}
    (hrec : t'.records = t.records.erase key) : BookKept q (q.forget key) t t' none none := by
  refine ⟨?_, ?_, ?_, Or.inl ?_⟩
  · intro k hk
    rw [hrec] at hk
    have hne : key ≠ k := by
      intro he
      subst he
      simp at hk
    simp [QueueState.forget, QueueState.deliveriesOf, getElem?_erase_eq, hne]
  · intro k n hn
    simp only [QueueState.forget, QueueState.unhold_deliveries, getElem?_erase_eq] at hn
    split at hn
    · cases hn
    · exact Or.inl hn
  · intro k m hm
    simp only [QueueState.forget, QueueState.unhold_due, getElem?_erase_eq] at hm
    split at hm
    · cases hm
    · exact Or.inl hm
  · simp [QueueState.forget, QueueState.isDirty]

theorem nackUntil_book (h : Ordered f q t) (name key owner : String) (policy : QueuePolicy)
    (due : Option Nat) {out : Except DbError (List DeadLetter)} {t' : Table}
    (hrun : t.nackUntil name key owner policy due = some (out, t')) :
    ∃ q', t'.queue = some q' ∧
      BookKept q q' t t' none ((QueueAction.nack key owner policy due).gives (.ofResult out)) := by
  unfold Table.nackUntil at hrun
  simp only at hrun
  rw [h.queue, Option.map_some] at hrun
  generalize effectivePolicy name policy = policy' at hrun
  cases hv : q.verify key owner (t.records.contains key) with
  | error e =>
    simp only [hv, Option.some.injEq, Prod.mk.injEq] at hrun
    obtain ⟨rfl, rfl⟩ := hrun
    exact ⟨q, h.queue, BookKept.refl q t⟩
  | ok u =>
    simp only [hv] at hrun
    by_cases hmax : policy'.maxDeliveries ≤ q.deliveriesOf key
    · have hrel : q.releaseUntil key policy' due =
          (true, { q with claims := q.claims.erase key, dirty := true }) := if_pos hmax
      simp only [hrel, Option.some.injEq, Prod.mk.injEq] at hrun
      obtain ⟨rfl, rfl⟩ := hrun
      have hrec : (({ t with
          queue := some (QueueState.forget { q with claims := q.claims.erase key, dirty := true } key)
          records := t.records.erase key } : Table).markDirty key).records =
            t.records.erase key := rfl
      have hk := forget_book { q with claims := q.claims.erase key, dirty := true } t key hrec
      have hkept : BookKept q
          (QueueState.forget { q with claims := q.claims.erase key, dirty := true } key) t _ none
          none := ⟨hk.count, hk.counted, hk.due, Or.inl (by simp [QueueState.forget,
            QueueState.isDirty])⟩
      exact ⟨_, rfl, hkept.weaken _⟩
    · cases due with
      | none =>
        have hrel : q.releaseUntil key policy' none =
            (false, { q with
              claims := q.claims.erase key, dirty := true
              available := insert key q.available }) := if_neg hmax
        simp only [hrel, Option.some.injEq, Prod.mk.injEq] at hrun
        obtain ⟨rfl, rfl⟩ := hrun
        exact ⟨_, rfl, ⟨fun _ _ => by simp [QueueState.deliveriesOf], fun _ _ hn => Or.inl hn,
          fun _ _ hm => Or.inl hm, Or.inl (by simp [QueueState.isDirty])⟩⟩
      | some millis =>
        have hrel : q.releaseUntil key policy' (some millis) =
            (false, QueueState.hold { q with claims := q.claims.erase key, dirty := true } key
              millis) := if_neg hmax
        simp only [hrel, Option.some.injEq, Prod.mk.injEq] at hrun
        obtain ⟨rfl, rfl⟩ := hrun
        refine ⟨_, rfl, ⟨fun k _ => ?_, fun k n hn => Or.inl ?_, fun k m hm => ?_, Or.inl ?_⟩⟩
        · simp [QueueState.hold, QueueState.deliveriesOf]
        · simpa [QueueState.hold] using hn
        · simp only [QueueState.hold, QueueState.unhold_due, getElem?_insert_eq] at hm
          split at hm
          · rename_i hk
            cases hm
            exact Or.inr (by rw [hk]; rfl)
          · exact Or.inl hm
        · simp [QueueState.hold, QueueState.isDirty]

theorem reconcile_book (q : QueueState) (t : Table) {t' : Table} (hrec : t'.records = t.records) :
    BookKept q (q.reconcile t.records) t t' none none := by
  refine ⟨?_, ?_, ?_, Or.inl ?_⟩
  · intro k hk
    rw [hrec, ← Std.ExtTreeMap.contains_iff_mem] at hk
    simp [QueueState.reconcile, QueueState.deliveriesOf, getElem?_retain, hk]
  · intro k n hn
    simp only [QueueState.reconcile, getElem?_retain] at hn
    split at hn
    · exact Or.inl hn
    · cases hn
  · intro k m hm
    simp only [QueueState.reconcile, getElem?_retain] at hm
    split at hm
    · exact Or.inl hm
    · cases hm
  · simp [QueueState.reconcile, QueueState.isDirty]

theorem claim_book (q : QueueState) (t : Table) (owner : String) (now : Nat)
    (policy : QueuePolicy) (hrec : ∀ k, first q.available = some k → k ∈ t.records) {t' : Table}
    (hsame : t'.records = t.records) :
    BookKept q (q.claim owner now policy).2 t t' ((q.claim owner now policy).1.map Prod.fst)
      none := by
  cases hfirst : first q.available with
  | none =>
    have hclaim : q.claim owner now policy = (none, q) := by simp [QueueState.claim, hfirst]
    rw [hclaim]
    exact ⟨fun _ _ => by simp, fun _ _ h => Or.inl h, fun _ _ h => Or.inl h, Or.inr ⟨rfl, hsame⟩⟩
  | some key =>
    simp only [QueueState.claim, hfirst, Option.map_some]
    refine ⟨fun k _ => ?_, fun k n hn => ?_, fun k m hm => Or.inl hm, Or.inl ?_⟩
    · by_cases hk : key = k
      · simp [QueueState.deliveriesOf, hk]
      · simp [QueueState.deliveriesOf, getElem?_insert_eq, hk]
    · rw [getElem?_insert_eq] at hn
      split at hn
      · rename_i hk
        cases hn
        subst hk
        exact Or.inr ⟨hrec key hfirst, Nat.mod_lt _ (by decide)⟩
      · exact Or.inl hn
    · simp [QueueState.isDirty]

end

theorem BookKept.trans {q q₁ q₂ : QueueState} {t t₁ t₂ : Table} {delivered : Option String}
    {given : Option (String × Nat)} (h : BookKept q q₁ t t₁ none none)
    (h' : BookKept q₁ q₂ t₁ t₂ delivered given) (hrec : t₂.records = t₁.records)
    (hsub : ∀ k, k ∈ t₁.records → k ∈ t.records) : BookKept q q₂ t t₂ delivered given := by
  refine ⟨?_, ?_, ?_, ?_⟩
  · intro k hk
    have hfirst := h.count k (by rw [← hrec]; exact hk)
    rw [h'.count k hk, hfirst]
    simp
  · intro k n hn
    rcases h'.counted k n hn with hn | ⟨hk, hn⟩
    · exact h.counted k n hn
    · exact Or.inr ⟨hsub k hk, hn⟩
  · intro k m hm
    rcases h'.due k m hm with hm | hm
    · rcases h.due k m hm with hm | hm
      · exact Or.inl hm
      · cases hm
    · exact Or.inr hm
  · rcases h'.written with hd | ⟨hq, hr⟩
    · exact Or.inl hd
    · subst hq
      rcases h.written with hd | ⟨hq, hr'⟩
      · exact Or.inl hd
      · exact Or.inr ⟨hq, hr.trans hr'⟩

theorem perform_book {name : String} {f : String → Place} {q : QueueState} {t t' : Table}
    {now : Nat} {a : QueueAction} {out : QueueOutcome} (h : Filed f q t)
    (hdel : ∀ key, a ≠ .delete key) (hp : a.perform name t now = some (out, t')) :
    ∃ q', t'.queue = some q' ∧ BookKept q q' t t' out.key (a.gives out) := by
  have hsweep : ∀ policy, ∃ q', (t.takeExpired now policy).2.queue = some q' ∧
      BookKept q q' t (t.takeExpired now policy).2 none none :=
    takeExpired_book h.ordered now
  cases a with
  | attach persisted =>
    simp only [QueueAction.perform, Table.attachQueue, h.ordered.queue] at hp
    cases hp
    exact ⟨q, h.ordered.queue, BookKept.refl q t⟩
  | reconcile =>
    cases hp
    exact ⟨_, h.ordered.reconcile.queue, reconcile_book q t rfl⟩
  | peek key =>
    cases hp
    exact ⟨q, h.ordered.queue, BookKept.refl q t⟩
  | delete key => exact absurd rfl (hdel key)
  | enqueue record due =>
    obtain ⟨⟨key, t₁⟩, hrun, heq⟩ := Option.map_eq_some_iff.mp hp
    simp only [Prod.mk.injEq] at heq
    obtain ⟨rfl, rfl⟩ := heq
    exact enqueueDue_book h.ordered record due now hrun
  | ack key owner =>
    obtain ⟨q₁, hq₁, ⟨e, -, rfl, rfl⟩ | ⟨-, rfl, rfl⟩⟩ := perform_ack hp
    · exact ⟨q, h.ordered.queue, BookKept.refl q _⟩
    · obtain rfl := Option.some.inj (h.ordered.queue.symm.trans hq₁)
      exact ⟨_, rfl, forget_book q t key rfl⟩
  | nack key owner policy due =>
    obtain ⟨⟨res, t₁⟩, hrun, heq⟩ := Option.map_eq_some_iff.mp hp
    simp only [Prod.mk.injEq] at heq
    obtain ⟨rfl, rfl⟩ := heq
    have hkey : (QueueOutcome.ofResult res).key = none := by cases res <;> rfl
    rw [hkey]
    exact nackUntil_book h.ordered name key owner policy due hrun
  | dequeue owner visibility policy =>
    obtain ⟨q₁, hord, -, -⟩ := takeExpired_spec h.ordered now (dequeuePolicy name policy visibility)
    obtain ⟨q₂, hq₂, hkept⟩ := hsweep (dequeuePolicy name policy visibility)
    have hsame : (t.takeExpired now (dequeuePolicy name policy visibility)).2.records =
        (t.takeExpired now (dequeuePolicy name policy visibility)).2.records := rfl
    obtain ⟨hfiles, hsub⟩ := files_swept h.ordered h.files hsame
    obtain rfl : q₁ = q₂ := by simpa [hord.queue] using hq₂
    have hrun : (QueueAction.dequeue owner visibility policy).perform name t now =
        (t.takeExpired now (dequeuePolicy name policy visibility)).2.queue.map fun q =>
          (.delivered ((q.claim owner now (dequeuePolicy name policy visibility)).1.map fun claimed =>
            { key := claimed.1
              record := (t.takeExpired now
                (dequeuePolicy name policy visibility)).2.records[claimed.1]?.getD {}
              deliveries := claimed.2
              enqueuedMillis := keyMillis claimed.1
              expiresMillis := ((q.claim owner now
                (dequeuePolicy name policy visibility)).2.claimOn claimed.1).map Claim.expiresMillis
              owner := some owner
              dueMillis := none : QueueDelivery }),
            { (t.takeExpired now (dequeuePolicy name policy visibility)).2 with
              queue := some (q.claim owner now (dequeuePolicy name policy visibility)).2 }) := by
      rw [QueueAction.perform, Table.dequeue, Option.map_map]
      rfl
    rw [hrun, hord.queue] at hp
    simp only [Option.map_some, Option.some.injEq, Prod.mk.injEq] at hp
    obtain ⟨rfl, rfl⟩ := hp
    refine ⟨_, rfl, ?_⟩
    have havail : ∀ k, first q₁.available = some k →
        k ∈ (t.takeExpired now (dequeuePolicy name policy visibility)).2.records := by
      intro k hk
      apply (hfiles k).mp
      rw [(hord.places.available k).mp (first_mem hk)]
      simp
    have hclaimed : ({ (t.takeExpired now (dequeuePolicy name policy visibility)).2 with
        queue := some (q₁.claim owner now (dequeuePolicy name policy visibility)).2 } :
          Table).records =
          (t.takeExpired now (dequeuePolicy name policy visibility)).2.records := rfl
    have hclaim := claim_book q₁ (t.takeExpired now (dequeuePolicy name policy visibility)).2 owner
      now (dequeuePolicy name policy visibility) havail hclaimed
    have hboth := hkept.trans hclaim rfl hsub
    cases hc : (q₁.claim owner now (dequeuePolicy name policy visibility)).1 with
    | none =>
      rw [hc] at hboth
      exact hboth
    | some claimed =>
      rw [hc] at hboth
      exact hboth
  | peekSweep key policy =>
    obtain ⟨q', hq', hkept⟩ := hsweep (effectivePolicy name policy)
    obtain ⟨-, -, rfl, rfl⟩ := perform_peekSweep hp
    exact ⟨q', hq', hkept⟩
  | statistics policy =>
    obtain ⟨q', hq', hkept⟩ := hsweep (effectivePolicy name policy)
    obtain ⟨-, -, rfl, rfl⟩ := perform_statistics hp
    exact ⟨q', hq', hkept⟩

end RustyPick
