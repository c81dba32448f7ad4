import RustyPick.Queue

/-!
# RustyPick.QueueOrder

What the three collections of a queue are for: every key is in one place.

`Place` is the abstract queue, one value a key. `Represents f q` says that the collections of `q`
spell out the places `f`, and each operation of `QueueState` is then an update of `f`: the
`represents_*` lemmas are the simulation, one for each operation, and the proofs about commands
and runs use only them.

`Sound` is the weaker thing a `reconcile` can start from, since a dead letter adopted onto a key
that is claimed or held leaves that key in two collections.
-/

namespace RustyPick

open Lib

/-- Where a key stands in a queue. -/
inductive Place where
  | absent
  | available
  | claimed (claim : Claim)
  | held (dueMillis : Nat)
  deriving DecidableEq

/-- What a sweep does to one place, given how often its record has been delivered. -/
def Place.sweep (policy : QueuePolicy) (now deliveries : Nat) : Place → Place
  | .held millis => if millis ≤ now then .available else .held millis
  | .claimed claim =>
    if claim.hasLapsed now then
      if policy.maxDeliveries ≤ deliveries then .absent else .available
    else .claimed claim
  | .available => .available
  | .absent => .absent

/-- The collections of `q` spell out the places `f`. -/
structure Represents (f : String → Place) (q : QueueState) : Prop where
  available : ∀ k, k ∈ q.available ↔ f k = .available
  claims : ∀ k c, q.claims[k]? = some c ↔ f k = .claimed c
  held : ∀ k m, dueEntry m k ∈ q.held ↔ f k = .held m
  due : ∀ k m, f k = .held m → q.due[k]? = some m

@[simp] theorem dueEntry_inj {m m' : Nat} {k k' : String} :
    dueEntry m k = dueEntry m' k' ↔ m = m' ∧ k = k' := by
  simp [dueEntry]

theorem Represents.mem_claims {f : String → Place} {q : QueueState} (h : Represents f q)
    {k : String} : k ∈ q.claims ↔ ∃ c, f k = .claimed c := by
  rw [mem_iff_exists]
  simp only [h.claims]

namespace QueueState

/-! ## Operations on one key -/

/-- After `unhold` the key has no held entry, and every other entry is still there. -/
theorem mem_held_unhold {q : QueueState} {key : String}
    (hdue : ∀ m, dueEntry m key ∈ q.held → q.due[key]? = some m) (k : String) (m : Nat) :
    dueEntry m k ∈ (q.unhold key).held ↔ dueEntry m k ∈ q.held ∧ k ≠ key := by
  unfold unhold
  split
  · rename_i millis hm
    split
    · simp only [Finset.mem_erase, ne_eq, dueEntry_inj, not_and]
      constructor
      · rintro ⟨hne, hin⟩
        refine ⟨hin, ?_⟩
        rintro rfl
        have := hdue m hin
        rw [hm] at this
        cases this
        exact hne rfl rfl
      · rintro ⟨hin, hne⟩
        exact ⟨fun _ => hne, hin⟩
    · rename_i hnot
      constructor
      · intro hin
        refine ⟨hin, ?_⟩
        rintro rfl
        have := hdue m hin
        rw [hm] at this
        cases this
        exact hnot hin
      · exact And.left
  · rename_i hnone
    constructor
    · intro hin
      refine ⟨hin, ?_⟩
      rintro rfl
      have := hdue m hin
      rw [hnone] at this
      cases this
    · exact And.left

@[simp] theorem unhold_available (q : QueueState) (key : String) :
    (q.unhold key).available = q.available := by
  unfold unhold; split <;> [split; skip] <;> rfl

@[simp] theorem unhold_claims (q : QueueState) (key : String) :
    (q.unhold key).claims = q.claims := by
  unfold unhold; split <;> [split; skip] <;> rfl

@[simp] theorem unhold_due (q : QueueState) (key : String) : (q.unhold key).due = q.due := by
  unfold unhold; split <;> [split; skip] <;> rfl

@[simp] theorem unhold_deliveries (q : QueueState) (key : String) :
    (q.unhold key).deliveries = q.deliveries := by
  unfold unhold; split <;> [split; skip] <;> rfl

@[simp] theorem unhold_sequence (q : QueueState) (key : String) :
    (q.unhold key).sequence = q.sequence := by
  unfold unhold; split <;> [split; skip] <;> rfl

end QueueState

section Simulation

variable {f : String → Place} {q : QueueState}

theorem Represents.heldDue (h : Represents f q) (key : String) :
    ∀ m, dueEntry m key ∈ q.held → q.due[key]? = some m :=
  fun m hm => h.due key m ((h.held key m).mp hm)

/-- The places are all that is read of the collections, so a change that leaves them alone leaves
the places alone. -/
theorem Represents.congr {q' : QueueState} (h : Represents f q) (ha : q'.available = q.available)
    (hc : q'.claims = q.claims) (hh : q'.held = q.held) (hd : q'.due = q.due) :
    Represents f q' :=
  ⟨by rw [ha]; exact h.available, by rw [hc]; exact h.claims, by rw [hh]; exact h.held,
    by rw [hd]; exact h.due⟩

theorem represents_enqueue (h : Represents f q) (key : String) :
    Represents (Function.update f key .available) (q.enqueue key) := by
  have hh := QueueState.mem_held_unhold (q := { q with claims := q.claims.erase key })
    (h.heldDue key)
  constructor
  · intro k
    by_cases hk : k = key
    · simp [QueueState.enqueue, hk]
    · simp [QueueState.enqueue, hk, h.available]
  · intro k c
    by_cases hk : k = key
    · subst hk
      simp [QueueState.enqueue]
    · simp only [QueueState.enqueue, QueueState.unhold_claims]
      rw [getElem?_erase_ne _ (Ne.symm hk), Function.update_of_ne hk]
      exact h.claims k c
  · intro k m
    simp only [QueueState.enqueue]
    rw [hh]
    by_cases hk : k = key
    · simp [hk]
    · simp [hk, h.held]
  · intro k m
    by_cases hk : k = key
    · simp [hk]
    · rw [Function.update_of_ne hk]
      simpa [QueueState.enqueue] using h.due k m

/-- Holding a key that is in no other collection. -/
theorem represents_hold (h : Represents f q) (key : String) (ha : f key ≠ .available)
    (hc : ∀ c, f key ≠ .claimed c) (m : Nat) :
    Represents (Function.update f key (.held m)) (q.hold key m) := by
  have hh := QueueState.mem_held_unhold (h.heldDue key)
  constructor
  · intro k
    by_cases hk : k = key
    · simp [QueueState.hold, hk, h.available, ha]
    · simp [QueueState.hold, hk, h.available]
  · intro k c
    by_cases hk : k = key
    · simp [QueueState.hold, hk, h.claims, hc]
    · simp [QueueState.hold, hk, h.claims]
  · intro k n
    simp only [QueueState.hold, Finset.mem_insert, hh, dueEntry_inj]
    by_cases hk : k = key
    · simp [hk, eq_comm]
    · simp [hk, h.held]
  · intro k n hn
    simp only [QueueState.hold, QueueState.unhold_due]
    rw [getElem?_insert_eq]
    by_cases hk : k = key
    · subst hk
      simp at hn
      simp [hn]
    · rw [if_neg (Ne.symm hk)]
      rw [Function.update_of_ne hk] at hn
      exact h.due k n hn

/-- Taking a key out of the claims. -/
theorem represents_unclaim (h : Represents f q) {key : String} (hc : ∃ c, f key = .claimed c)
    (dirty : Bool) :
    Represents (Function.update f key .absent)
      { q with claims := q.claims.erase key, dirty := dirty } := by
  obtain ⟨c, hc⟩ := hc
  constructor
  · intro k
    by_cases hk : k = key
    · simp [hk, h.available, hc]
    · simp [hk, h.available]
  · intro k c'
    simp only [getElem?_erase_eq]
    by_cases hk : k = key
    · simp [hk]
    · simp [Ne.symm hk, hk, h.claims]
  · intro k m
    by_cases hk : k = key
    · simp [hk, h.held, hc]
    · simp [hk, h.held]
  · intro k m hm
    by_cases hk : k = key
    · simp [hk] at hm
    · rw [Function.update_of_ne hk] at hm
      exact h.due k m hm

/-- Putting a key that is nowhere into the order. -/
theorem represents_insert (h : Represents f q) (key : String) (hk : f key = .absent) :
    Represents (Function.update f key .available)
      { q with available := insert key q.available } := by
  constructor
  · intro k
    by_cases hk : k = key
    · simp [hk]
    · simp [hk, h.available]
  · intro k c
    by_cases hkk : k = key
    · simp [hkk, h.claims, hk]
    · simp [hkk, h.claims]
  · intro k m
    by_cases hkk : k = key
    · simp [hkk, h.held, hk]
    · simp [hkk, h.held]
  · intro k m hm
    by_cases hkk : k = key
    · simp [hkk] at hm
    · rw [Function.update_of_ne hkk] at hm
      exact h.due k m hm

theorem represents_forget (h : Represents f q) (key : String) :
    Represents (Function.update f key .absent) (q.forget key) := by
  have hh := QueueState.mem_held_unhold
    (q := { q with
      available := q.available.erase key
      claims := q.claims.erase key
      deliveries := q.deliveries.erase key }) (h.heldDue key)
  constructor
  · intro k
    by_cases hk : k = key
    · simp [QueueState.forget, hk]
    · simp [QueueState.forget, hk, h.available]
  · intro k c
    simp only [QueueState.forget, QueueState.unhold_claims, getElem?_erase_eq]
    by_cases hk : k = key
    · simp [hk]
    · simp [Ne.symm hk, hk, h.claims]
  · intro k m
    simp only [QueueState.forget]
    rw [hh]
    by_cases hk : k = key
    · simp [hk]
    · simp [hk, h.held]
  · intro k m hm
    simp only [QueueState.forget, QueueState.unhold_due, getElem?_erase_eq]
    by_cases hk : k = key
    · simp [hk] at hm
    · rw [Function.update_of_ne hk] at hm
      rw [if_neg (Ne.symm hk)]
      exact h.due k m hm

theorem represents_enqueueHeld (h : Represents f q) (key : String) (m : Nat) :
    Represents (Function.update f key (.held m)) (q.enqueueHeld key m) := by
  have hh := QueueState.mem_held_unhold
    (q := { q with claims := q.claims.erase key, available := q.available.erase key })
    (h.heldDue key)
  constructor
  · intro k
    by_cases hk : k = key
    · simp [QueueState.enqueueHeld, QueueState.hold, hk]
    · simp [QueueState.enqueueHeld, QueueState.hold, hk, h.available]
  · intro k c
    simp only [QueueState.enqueueHeld, QueueState.hold, QueueState.unhold_claims, getElem?_erase_eq]
    by_cases hk : k = key
    · simp [hk]
    · simp [Ne.symm hk, hk, h.claims]
  · intro k n
    simp only [QueueState.enqueueHeld, QueueState.hold, Finset.mem_insert, hh, dueEntry_inj]
    by_cases hk : k = key
    · simp [hk, eq_comm]
    · simp [hk, h.held]
  · intro k n hn
    simp only [QueueState.enqueueHeld, QueueState.hold, QueueState.unhold_due, getElem?_insert_eq]
    by_cases hk : k = key
    · subst hk
      simp at hn
      simp [hn]
    · rw [if_neg (Ne.symm hk)]
      rw [Function.update_of_ne hk] at hn
      exact h.due k n hn

/-- The claim a `claim` records. -/
def newClaim (owner : String) (now : Nat) (policy : QueuePolicy) : Claim :=
  { owner := owner, expiresMillis := satAdd now (policy.visibility % 2 ^ 64) }

theorem represents_claim (h : Represents f q) {key : String} (hfirst : first q.available = some key)
    (owner : String) (now : Nat) (policy : QueuePolicy) :
    Represents (Function.update f key (.claimed (newClaim owner now policy)))
      (q.claim owner now policy).2 := by
  have hkey : f key = .available := (h.available key).mp (first_mem hfirst)
  simp only [QueueState.claim, hfirst]
  constructor
  · intro k
    by_cases hk : k = key
    · simp [hk]
    · simp [hk, h.available]
  · intro k c
    simp only [getElem?_insert_eq]
    by_cases hk : k = key
    · simp [hk, newClaim]
    · simp [Ne.symm hk, hk, h.claims]
  · intro k m
    by_cases hk : k = key
    · simp [hk, h.held, hkey]
    · simp [hk, h.held]
  · intro k m hm
    by_cases hk : k = key
    · simp [hk] at hm
    · rw [Function.update_of_ne hk] at hm
      exact h.due k m hm

/-! ## The sweep -/

/-- What the loop of `release_due` leaves: the entries that are not due, the others let in. -/
def QueueState.released (q : QueueState) (now : Nat) : QueueState :=
  { q with
    held := q.held.filter fun entry => ¬ (ofLex entry).1 ≤ now
    available := q.available ∪
      (q.held.filter fun entry => (ofLex entry).1 ≤ now).image fun entry => (ofLex entry).2 }

theorem released_of_none_due {now : Nat} (hnone : ∀ e ∈ q.held, ¬ (ofLex e).1 ≤ now) :
    q.released now = q := by
  have h1 : q.held.filter (fun e => (ofLex e).1 ≤ now) = ∅ :=
    Finset.filter_eq_empty_iff.mpr hnone
  have h2 : q.held.filter (fun e => ¬ (ofLex e).1 ≤ now) = q.held :=
    Finset.filter_eq_self.mpr hnone
  simp only [QueueState.released, h1, h2, Finset.image_empty, Finset.union_empty]

theorem releaseDueLoop_eq (now : Nat) : ∀ (fuel : Nat) (q : QueueState), q.held.card ≤ fuel →
    (QueueState.releaseDueLoop now fuel q).2 = q.released now := by
  intro fuel
  induction fuel with
  | zero =>
    intro q hq
    have hnil : q.held = ∅ := by simpa using hq
    have hnone : ∀ e ∈ q.held, ¬ (ofLex e).1 ≤ now := by simp [hnil]
    exact (released_of_none_due hnone).symm
  | succ fuel ih =>
    intro q hq
    unfold QueueState.releaseDueLoop
    split
    · rename_i entry hentry
      have hmem := first_mem hentry
      split
      · rename_i hdue
        have hcard : (q.held.erase entry).card ≤ fuel := by
          rw [Finset.card_erase_of_mem hmem]
          omega
        simp only
        rw [ih _ hcard]
        simp only [QueueState.released, QueueState.mk.injEq, true_and, and_true]
        constructor
        · ext k
          simp only [Finset.mem_union, Finset.mem_insert, Finset.mem_image, Finset.mem_filter,
            Finset.mem_erase]
          constructor
          · rintro ((rfl | hk) | ⟨e, ⟨⟨_, he⟩, hle⟩, rfl⟩)
            · exact Or.inr ⟨entry, ⟨hmem, hdue⟩, rfl⟩
            · exact Or.inl hk
            · exact Or.inr ⟨e, ⟨he, hle⟩, rfl⟩
          · rintro (hk | ⟨e, ⟨he, hle⟩, rfl⟩)
            · exact Or.inl (Or.inr hk)
            · by_cases hee : e = entry
              · exact Or.inl (Or.inl (by rw [hee]))
              · exact Or.inr ⟨e, ⟨⟨hee, he⟩, hle⟩, rfl⟩
        · ext e
          simp only [Finset.mem_filter, Finset.mem_erase]
          constructor
          · rintro ⟨⟨_, he⟩, hle⟩
            exact ⟨he, hle⟩
          · rintro ⟨he, hle⟩
            refine ⟨⟨?_, he⟩, hle⟩
            rintro rfl
            exact hle hdue
      · rename_i hdue
        -- the front is the earliest, so nothing behind it is due either
        have hnone : ∀ e ∈ q.held, ¬ (ofLex e).1 ≤ now := by
          intro e he hle
          have := first_le hentry he
          rw [Prod.Lex.le_iff] at this
          rcases this with hlt | ⟨heq, _⟩
          · exact hdue (le_trans (le_of_lt hlt) hle)
          · exact hdue (heq ▸ hle)
        exact (released_of_none_due hnone).symm
    · rename_i hnone
      have hnil : q.held = ∅ := first_eq_none.mp hnone
      exact (released_of_none_due (by simp [hnil])).symm

/-- `release_due` moves exactly the entries that are due, whatever it does to the dirty flag. -/
theorem releaseDue_eq (q : QueueState) (now : Nat) :
    ∃ dirty, (q.releaseDue now).2 = { q.released now with dirty := dirty } := by
  unfold QueueState.releaseDue
  simp only
  rw [releaseDueLoop_eq now q.held.card q (le_refl _)]
  split
  · exact ⟨true, rfl⟩
  · exact ⟨(q.released now).dirty, rfl⟩

def Place.release (now : Nat) : Place → Place
  | .held millis => if millis ≤ now then .available else .held millis
  | place => place

theorem represents_released (h : Represents f q) (now : Nat) :
    Represents (fun k => (f k).release now) (q.released now) := by
  have hrel : ∀ k, (f k).release now = .available ↔
      f k = .available ∨ ∃ m, f k = .held m ∧ m ≤ now := by
    intro k
    cases hk : f k <;> simp [Place.release]
  constructor
  · intro k
    rw [hrel, ← h.available]
    simp only [QueueState.released, Finset.mem_union, Finset.mem_image, Finset.mem_filter]
    constructor
    · rintro (hk | ⟨e, ⟨he, hle⟩, rfl⟩)
      · exact Or.inl hk
      · exact Or.inr ⟨(ofLex e).1, (h.held _ _).mp he, hle⟩
    · rintro (hk | ⟨m, hm, hle⟩)
      · exact Or.inl hk
      · exact Or.inr ⟨dueEntry m k, ⟨(h.held k m).mpr hm, hle⟩, rfl⟩
  · intro k c
    simp only [QueueState.released]
    rw [h.claims]
    cases hk : f k <;> simp [Place.release]
    split <;> simp
  · intro k m
    simp only [QueueState.released, Finset.mem_filter, h.held]
    cases hk : f k <;> simp [Place.release, dueEntry]
    rename_i m'
    by_cases hm : m' ≤ now
    · simp [hm]
      rintro rfl
      exact hm
    · simp [hm]
      rintro rfl
      omega
  · intro k m hm
    simp only [QueueState.released]
    cases hk : f k <;> simp [Place.release, hk] at hm
    rename_i m'
    split at hm
    · cases hm
    · cases hm
      exact h.due k m hk

/-- Where a lapsed claim's key goes. -/
def Place.afterLapse (policy : QueuePolicy) (deliveries : Nat) : Place :=
  if policy.maxDeliveries ≤ deliveries then .absent else .available

/-- One lapsed claim, as an update of the places. -/
theorem represents_expireOne (policy : QueuePolicy) (h : Represents f q) {key : String}
    (hc : ∃ c, f key = .claimed c) (out : Expired) :
    Represents (Function.update f key (Place.afterLapse policy (q.deliveriesOf key)))
      (QueueState.expireOne policy (q, out) key).1 ∧
    (QueueState.expireOne policy (q, out) key).2.dead =
      out.dead ++ [key].filter fun k => policy.maxDeliveries ≤ q.deliveriesOf k := by
  have hun := represents_unclaim h hc true
  by_cases hmax : policy.maxDeliveries ≤ q.deliveriesOf key
  · have hone : QueueState.expireOne policy (q, out) key =
        ({ q with claims := q.claims.erase key, dirty := true },
          { out with dead := out.dead ++ [key] }) := if_pos hmax
    rw [hone, Place.afterLapse, if_pos hmax]
    exact ⟨hun, by simp [hmax]⟩
  · have hone : QueueState.expireOne policy (q, out) key =
        ({ q with
            claims := q.claims.erase key, dirty := true, available := insert key q.available },
          { out with returned := out.returned ++ [key] }) := if_neg hmax
    have hin := represents_insert hun key (by simp)
    rw [Function.update_idem] at hin
    rw [hone, Place.afterLapse, if_neg hmax]
    exact ⟨hin, by simp [hmax]⟩

/-- The parts of a queue a sweep does not touch. -/
def SameBook (q q' : QueueState) : Prop :=
  q'.deliveries = q.deliveries ∧ q'.due = q.due ∧ q'.sequence = q.sequence

theorem sameBook_expireOne (policy : QueuePolicy) (q : QueueState) (out : Expired) (key : String) :
    SameBook q (QueueState.expireOne policy (q, out) key).1 := by
  simp only [QueueState.expireOne]
  split <;> exact ⟨rfl, rfl, rfl⟩

theorem SameBook.deliveriesOf {q q' : QueueState} (h : SameBook q q') (k : String) :
    q'.deliveriesOf k = q.deliveriesOf k := by
  simp [QueueState.deliveriesOf, h.1]

/-- One lapsed claim after another. -/
theorem expireOne_fold (policy : QueuePolicy) : ∀ (keys : List String) (f : String → Place)
    (q : QueueState) (out : Expired), keys.Nodup → (∀ k ∈ keys, ∃ c, f k = .claimed c) →
    Represents f q → ∀ res, keys.foldl (QueueState.expireOne policy) (q, out) = res →
    Represents (fun k => if k ∈ keys then Place.afterLapse policy (q.deliveriesOf k) else f k) res.1 ∧
      SameBook q res.1 ∧
      res.2.dead = out.dead ++ keys.filter fun k => policy.maxDeliveries ≤ q.deliveriesOf k := by
  intro keys
  induction keys with
  | nil =>
    rintro f q out _ _ h _ rfl
    exact ⟨by simpa using h, ⟨rfl, rfl, rfl⟩, by simp⟩
  | cons key keys ih =>
    rintro f q out hnodup hclaimed h _ rfl
    rw [List.nodup_cons] at hnodup
    obtain ⟨hrep, hdead⟩ := represents_expireOne policy h (hclaimed key List.mem_cons_self) out
    have hbook := sameBook_expireOne policy q out key
    have hrest : ∀ k ∈ keys, ∃ c,
        Function.update f key (Place.afterLapse policy (q.deliveriesOf key)) k = .claimed c := by
      intro k hk
      have hne : k ≠ key := fun he => hnodup.1 (he ▸ hk)
      rw [Function.update_of_ne hne]
      exact hclaimed k (List.mem_cons_of_mem _ hk)
    obtain ⟨hrep', hbook', hdead'⟩ := ih _ _ (QueueState.expireOne policy (q, out) key).2
      hnodup.2 hrest hrep _ rfl
    simp only [hbook.deliveriesOf] at hrep' hdead'
    refine ⟨?_, ⟨hbook'.1.trans hbook.1, hbook'.2.1.trans hbook.2.1,
      hbook'.2.2.trans hbook.2.2⟩, ?_⟩
    · have hplaces : (fun k => if k ∈ key :: keys then
          Place.afterLapse policy (q.deliveriesOf k) else f k) =
          fun k => if k ∈ keys then Place.afterLapse policy (q.deliveriesOf k) else
            Function.update f key (Place.afterLapse policy (q.deliveriesOf key)) k := by
        funext k
        by_cases hk : k = key
        · subst hk
          simp [hnodup.1]
        · simp [hk]
      rw [hplaces]
      exact hrep'
    · rw [List.foldl_cons, hdead', hdead, List.append_assoc, ← List.filter_append]
      rfl

/-- A sweep, place by place. The dead are the keys it takes out of the claims for good. -/
theorem represents_expire (h : Represents f q) (now : Nat) (policy : QueuePolicy) :
    Represents (fun k => (f k).sweep policy now (q.deliveriesOf k)) (q.expire now policy).1 ∧
    SameBook q (q.expire now policy).1 ∧
    ∀ k, k ∈ (q.expire now policy).2.dead ↔
      ∃ c, f k = .claimed c ∧ c.hasLapsed now ∧ policy.maxDeliveries ≤ q.deliveriesOf k := by
  obtain ⟨dirty, hrel⟩ := releaseDue_eq q now
  have hrep : Represents (fun k => (f k).release now) (q.releaseDue now).2 := by
    rw [hrel]
    exact (represents_released h now).congr rfl rfl rfl rfl
  have hkeep : (q.releaseDue now).2.deliveries = q.deliveries ∧
      (q.releaseDue now).2.due = q.due ∧ (q.releaseDue now).2.sequence = q.sequence ∧
      (q.releaseDue now).2.claims = q.claims := by
    rw [hrel]
    exact ⟨rfl, rfl, rfl, rfl⟩
  obtain ⟨hdel, hdue, hseq, hclaims⟩ := hkeep
  have hlapsed : ∀ k, k ∈ (((q.releaseDue now).2.claims.filter
      fun _ claim => claim.hasLapsed now).keys) ↔ ∃ c, f k = .claimed c ∧ c.hasLapsed now := by
    intro k
    rw [Std.ExtTreeMap.mem_keys, mem_iff_exists]
    simp only [Std.ExtTreeMap.getElem?_filter', Option.filter_eq_some_iff, hclaims, h.claims]
  have hdeliv : ∀ k, (q.releaseDue now).2.deliveriesOf k = q.deliveriesOf k := by
    intro k
    simp [QueueState.deliveriesOf, hdel]
  obtain ⟨hrep', hbook, hdead⟩ := expireOne_fold policy _ _ (q.releaseDue now).2 {}
    Std.ExtTreeMap.nodup_keys
    (by
      intro k hk
      obtain ⟨c, hc, _⟩ := (hlapsed k).mp hk
      exact ⟨c, by simp [hc, Place.release]⟩) hrep (q.expire now policy) rfl
  refine ⟨?_, ⟨hbook.1.trans hdel, hbook.2.1.trans hdue, hbook.2.2.trans hseq⟩, ?_⟩
  · have hplaces : (fun k => (f k).sweep policy now (q.deliveriesOf k)) = fun k =>
        if k ∈ ((q.releaseDue now).2.claims.filter fun _ claim => claim.hasLapsed now).keys then
          Place.afterLapse policy ((q.releaseDue now).2.deliveriesOf k)
        else (f k).release now := by
      funext k
      rw [hdeliv]
      split
      · rename_i hin
        obtain ⟨c, hc, hl⟩ := (hlapsed k).mp hin
        simp [hc, Place.sweep, Place.afterLapse, hl]
      · rename_i hout
        rw [hlapsed] at hout
        cases hk : f k with
        | claimed c =>
          have hl : ¬ c.hasLapsed now := fun hl => hout ⟨c, hk, hl⟩
          simp [Place.sweep, Place.release, hl]
        | _ => rfl
    rw [hplaces]
    exact hrep'
  · intro k
    rw [hdead]
    simp only [List.nil_append, List.mem_filter, hlapsed, decide_eq_true_eq, hdeliv]
    constructor
    · rintro ⟨⟨c, hc, hl⟩, hm⟩
      exact ⟨c, hc, hl, hm⟩
    · rintro ⟨c, hc, hl, hm⟩
      exact ⟨⟨c, hc, hl⟩, hm⟩

end Simulation

/-! ## Loading and repairing -/

namespace QueueState

/-- The key is in one of the three collections. -/
def Tracks (q : QueueState) (k : String) : Prop :=
  k ∈ q.available ∨ k ∈ q.claims ∨ ∃ m, dueEntry m k ∈ q.held

/-- What holds of the order between any two commands: a held entry is filed under its key's due
time, nothing is claimed and held at once, and a due time belongs to a key of the queue. -/
structure Sound (q : QueueState) : Prop where
  heldDue : ∀ k m, dueEntry m k ∈ q.held → q.due[k]? = some m
  claimHeld : ∀ k m, k ∈ q.claims → dueEntry m k ∉ q.held
  dueTracked : ∀ k, k ∈ q.due → q.Tracks k

theorem heldUntil_eq_some {q : QueueState} {k : String} {m : Nat} :
    q.heldUntil k = some m ↔ q.due[k]? = some m ∧ dueEntry m k ∈ q.held := by
  simp [heldUntil, Option.filter_eq_some_iff]

/-- Where a repair puts a key. -/
def repairedPlace {R : Type} (q : QueueState) (records : Map String R) (k : String) : Place :=
  if k ∈ records then
    match q.claims[k]? with
    | some c => .claimed c
    | none =>
      match q.heldUntil k with
      | some m => .held m
      | none => .available
  else .absent

end QueueState

theorem Represents.tracks {f : String → Place} {q : QueueState} (h : Represents f q) (k : String) :
    q.Tracks k ↔ f k ≠ .absent := by
  unfold QueueState.Tracks
  rw [h.available, h.mem_claims]
  simp only [h.held]
  cases f k <;> simp

theorem Represents.sound {f : String → Place} {q : QueueState} (h : Represents f q)
    (hdue : ∀ k, k ∈ q.due → f k ≠ .absent) : q.Sound := by
  refine ⟨h.heldDue, ?_, fun k hk => (h.tracks k).mpr (hdue k hk)⟩
  intro k m hc hm
  obtain ⟨c, hc⟩ := h.mem_claims.mp hc
  rw [h.held, hc] at hm
  cases hm

section Repair

variable {R : Type} {f : String → Place} {q : QueueState}

/-- A repair files every record and drops everything else, from any sound order. -/
theorem represents_reconcile (h : q.Sound) (records : Map String R) :
    Represents (q.repairedPlace records) (q.reconcile records) := by
  have hheld : ∀ k, k ∈ (q.held.filter fun entry => (ofLex entry).2 ∈ records).image
      (fun entry => (ofLex entry).2) ↔ k ∈ records ∧ ∃ m, q.heldUntil k = some m := by
    intro k
    simp only [Finset.mem_image, Finset.mem_filter, QueueState.heldUntil_eq_some]
    constructor
    · rintro ⟨e, ⟨he, hr⟩, rfl⟩
      exact ⟨hr, (ofLex e).1, h.heldDue _ _ he, he⟩
    · rintro ⟨hr, m, _, hm⟩
      exact ⟨dueEntry m k, ⟨hm, hr⟩, rfl⟩
  constructor
  · intro k
    simp only [QueueState.reconcile, Finset.mem_union, Finset.mem_filter, mem_dom, hheld]
    unfold QueueState.repairedPlace
    split
    · rename_i hr
      cases hc : q.claims[k]? with
      | some c => simp [mem_of_getElem? hc]
      | none =>
        have hnc : k ∉ q.claims := by
          intro hk
          obtain ⟨c, hc'⟩ := mem_iff_exists.mp hk
          rw [hc] at hc'
          cases hc'
        cases hu : q.heldUntil k <;> simp [hr, hnc]
    · rename_i hr
      simp [hr]
  · intro k c
    simp only [QueueState.reconcile, getElem?_retain, QueueState.repairedPlace]
    by_cases hr : k ∈ records
    · simp only [Std.ExtTreeMap.contains_iff_mem, hr, if_true]
      cases hc : q.claims[k]? with
      | some c' => simp
      | none => cases hu : q.heldUntil k <;> simp
    · simp [hr]
  · intro k m
    simp only [QueueState.reconcile, Finset.mem_filter, QueueState.repairedPlace]
    have hkey : (ofLex (dueEntry m k)).2 = k := rfl
    rw [hkey]
    by_cases hr : k ∈ records
    · simp only [hr, and_true, if_true]
      cases hc : q.claims[k]? with
      | some c =>
        simp only [reduceCtorEq, iff_false]
        exact h.claimHeld k m (mem_of_getElem? hc)
      | none =>
        cases hu : q.heldUntil k with
        | some m' =>
          obtain ⟨hd, hm'⟩ := QueueState.heldUntil_eq_some.mp hu
          simp only [Place.held.injEq]
          constructor
          · intro hm
            have := h.heldDue k m hm
            rw [hd] at this
            exact Option.some.inj this
          · rintro rfl
            exact hm'
        | none =>
          simp only [reduceCtorEq, iff_false]
          intro hm
          have := QueueState.heldUntil_eq_some.mpr ⟨h.heldDue k m hm, hm⟩
          rw [hu] at this
          cases this
    · simp [hr]
  · intro k m hm
    unfold QueueState.repairedPlace at hm
    split at hm
    · rename_i hr
      simp only [QueueState.reconcile, getElem?_retain, Std.ExtTreeMap.contains_iff_mem, hr, if_true]
      split at hm
      · cases hm
      · split at hm
        · rename_i m' hu
          cases hm
          exact (QueueState.heldUntil_eq_some.mp hu).1
        · cases hm
    · cases hm

/-- In an order that already spells out places, a repair moves only what is out of line. -/
theorem Represents.repairedPlace (h : Represents f q) (records : Map String R) (k : String) :
    q.repairedPlace records k =
      if k ∈ records then (if f k = .absent then .available else f k) else .absent := by
  have hclaim : ∀ c, q.claims[k]? = some c ↔ f k = .claimed c := h.claims k
  have hheld : ∀ m, q.heldUntil k = some m ↔ f k = .held m := by
    intro m
    rw [QueueState.heldUntil_eq_some, h.held]
    constructor
    · exact And.right
    · intro hm
      exact ⟨h.due k m hm, hm⟩
  unfold QueueState.repairedPlace
  split
  · cases hc : q.claims[k]? with
    | some c => simp [(hclaim c).mp hc]
    | none =>
      cases hu : q.heldUntil k with
      | some m => simp [(hheld m).mp hu]
      | none =>
        cases hf : f k with
        | absent => simp
        | available => simp
        | claimed c => rw [(hclaim c).mpr hf] at hc; cases hc
        | held m => rw [(hheld m).mpr hf] at hu; cases hu
  · rfl

/-- Where a load puts a key. -/
def attachedPlace (records : Map String R) (persisted : PersistedQueue) (k : String) : Place :=
  if k ∈ records then
    match (QueueState.attach records persisted).due[k]? with
    | some m => .held m
    | none => .available
  else .absent

theorem represents_attach (records : Map String R) (persisted : PersistedQueue) :
    Represents (attachedPlace records persisted) (QueueState.attach records persisted) := by
  constructor
  · intro k
    unfold attachedPlace
    by_cases hr : k ∈ records
    · simp only [QueueState.attach, hr, if_true, Finset.mem_filter, mem_dom, true_and]
      split <;> simp_all
    · simp [QueueState.attach, hr]
  · intro k c
    unfold attachedPlace
    split
    · split <;> simp [QueueState.attach]
    · simp [QueueState.attach]
  · intro k m
    unfold attachedPlace
    have hmem : dueEntry m k ∈ (QueueState.attach records persisted).held ↔
        k ∈ records ∧ (QueueState.attach records persisted).due[k]? = some m := by
      simp only [QueueState.attach, Finset.mem_biUnion, mem_dom]
      constructor
      · rintro ⟨j, hj, hin⟩
        split at hin
        · rename_i m' hm'
          rw [Finset.mem_singleton, dueEntry_inj] at hin
          obtain ⟨rfl, rfl⟩ := hin
          exact ⟨hj, hm'⟩
        · simp at hin
      · rintro ⟨hr, hm⟩
        refine ⟨k, hr, ?_⟩
        rw [hm]
        exact Finset.mem_singleton_self _
    rw [hmem]
    by_cases hr : k ∈ records
    · simp only [hr, true_and, if_true]
      split <;> simp_all
    · simp [hr]
  · intro k m hm
    unfold attachedPlace at hm
    split at hm
    · split at hm
      · rename_i m' hd
        cases hm
        exact hd
      · cases hm
    · cases hm

end Repair

/-! ## Counting -/

namespace QueueState

/-- The keys of the held entries. -/
def heldKeys (q : QueueState) : Finset String := q.held.image fun entry => (ofLex entry).2

theorem mem_heldKeys {q : QueueState} {k : String} :
    k ∈ q.heldKeys ↔ ∃ m, dueEntry m k ∈ q.held := by
  simp only [heldKeys, Finset.mem_image]
  constructor
  · rintro ⟨e, he, rfl⟩
    exact ⟨(ofLex e).1, he⟩
  · rintro ⟨m, hm⟩
    exact ⟨dueEntry m k, hm, rfl⟩

theorem Sound.card_heldKeys {q : QueueState} (h : q.Sound) : q.heldKeys.card = q.held.card := by
  refine Finset.card_image_of_injOn ?_
  intro e he e' he' hk
  have h1 := h.heldDue _ _ (show dueEntry (ofLex e).1 (ofLex e).2 ∈ q.held from he)
  have h2 := h.heldDue _ _ (show dueEntry (ofLex e').1 (ofLex e').2 ∈ q.held from he')
  simp only at hk
  rw [hk, h2] at h1
  exact congrArg toLex (Prod.ext (Option.some.inj h1).symm hk)

/-- The keys of the queue, each once. -/
def trackedKeys (q : QueueState) : Finset String := q.available ∪ (dom q.claims ∪ q.heldKeys)

theorem mem_trackedKeys {q : QueueState} {k : String} : k ∈ q.trackedKeys ↔ q.Tracks k := by
  simp [trackedKeys, Tracks, mem_heldKeys]

/-- The place of a key, reading the collections in turn. -/
def placeOf (q : QueueState) (k : String) : Place :=
  if k ∈ q.available then .available
  else
    match q.claims[k]? with
    | some c => .claimed c
    | none =>
      match q.heldUntil k with
      | some m => .held m
      | none => .absent

/-- A sound order whose collections share no key spells out places. -/
theorem Sound.represents {q : QueueState} (h : q.Sound)
    (hdisj : ∀ k ∈ q.available, k ∉ q.claims ∧ k ∉ q.heldKeys) : Represents q.placeOf q := by
  have hheld : ∀ k m, dueEntry m k ∈ q.held ↔ q.heldUntil k = some m := by
    intro k m
    rw [heldUntil_eq_some]
    constructor
    · intro hm
      exact ⟨h.heldDue k m hm, hm⟩
    · exact And.right
  have hclaim : ∀ k c, q.claims[k]? = some c → k ∉ q.available := by
    intro k c hc hk
    exact (hdisj k hk).1 (mem_of_getElem? hc)
  constructor
  · intro k
    unfold placeOf
    split
    · simp [*]
    · split
      · simp [*]
      · split <;> simp [*]
  · intro k c
    unfold placeOf
    constructor
    · intro hc
      simp [hclaim k c hc, hc]
    · intro hc
      split at hc
      · cases hc
      · split at hc
        · rename_i c' hc'
          cases hc
          exact hc'
        · split at hc <;> cases hc
  · intro k m
    rw [hheld]
    unfold placeOf
    constructor
    · intro hm
      have hin := (hheld k m).mpr hm
      have hna : k ∉ q.available := fun hk => (hdisj k hk).2 (mem_heldKeys.mpr ⟨m, hin⟩)
      have hnc : q.claims[k]? = none := by
        cases hc : q.claims[k]? with
        | none => rfl
        | some c => exact absurd hin (h.claimHeld k m (mem_of_getElem? hc))
      simp [hna, hnc, hm]
    · intro hm
      split at hm
      · cases hm
      · split at hm
        · cases hm
        · split at hm
          · rename_i m' hu
            cases hm
            exact hu
          · cases hm
  · intro k m hm
    unfold placeOf at hm
    split at hm
    · cases hm
    · split at hm
      · cases hm
      · split at hm
        · rename_i m' hu
          cases hm
          exact (heldUntil_eq_some.mp hu).1
        · cases hm

/-- When the counts agree and no record is missing from the order, the collections share no key and
name no key without a record: there is no room left for either. -/
theorem Sound.counts {R : Type} {q : QueueState} (h : q.Sound) {records : Map String R}
    (hcount : q.tracked = records.size) (hall : ∀ k ∈ records, q.Tracks k) :
    Represents q.placeOf q ∧ ∀ k, q.Tracks k ↔ k ∈ records := by
  have hsub : dom records ⊆ q.trackedKeys := by
    intro k hk
    exact mem_trackedKeys.mpr (hall k (mem_dom.mp hk))
  have hsum : q.available.card + (dom q.claims).card + q.heldKeys.card = (dom records).card := by
    rw [card_dom, card_dom, h.card_heldKeys]
    exact hcount
  have hle := Finset.card_le_card hsub
  have hunion := Finset.card_union_add_card_inter q.available (dom q.claims ∪ q.heldKeys)
  have hunion' := Finset.card_union_le (dom q.claims) q.heldKeys
  have hcard : (q.available ∪ (dom q.claims ∪ q.heldKeys)).card = q.trackedKeys.card := rfl
  have hinter : (q.available ∩ (dom q.claims ∪ q.heldKeys)) = ∅ := by
    rw [← Finset.card_eq_zero]
    omega
  have heq : dom records = q.trackedKeys := Finset.eq_of_subset_of_card_le hsub (by omega)
  constructor
  · refine h.represents ?_
    intro k hk
    have hnot : k ∉ dom q.claims ∪ q.heldKeys := by
      intro hk'
      have : k ∈ q.available ∩ (dom q.claims ∪ q.heldKeys) := Finset.mem_inter.mpr ⟨hk, hk'⟩
      rw [hinter] at this
      exact absurd this (Finset.notMem_empty k)
    simpa using hnot
  · intro k
    rw [← mem_trackedKeys, ← heq, mem_dom]

end QueueState

end RustyPick
