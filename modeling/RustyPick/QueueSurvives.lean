import RustyPick.QueueStore
import RustyPick.TableEdit

/-!
# RustyPick.QueueSurvives

What of a queue's order is in the `queue` file it is written to (`db/queue.rs`), when its records
may also be written and deleted by hand.

The file has one line for a count or a due time, and a key stands in it as it is. A key that holds
a line break is therefore not read back, and it is the only one: `survives_iff`.

* `survives_of_run`: no order has such a key in a run that writes none.
-/

namespace RustyPick

open Lib
open PersistedQueue (KeyText sorted written_readState)

/-- The book reads back as what was written, and attached to any records restores what they had. -/
def QueueState.Survives (q : QueueState) : Prop :=
  ∃ p, PersistedQueue.readState (some q.toPersisted.writeState) = some p ∧
    p.nextSequence = q.sequence.peek ∧
    Std.ExtTreeMap.ofList p.deliveries compare = q.deliveries ∧
    Std.ExtTreeMap.ofList p.due compare = q.due ∧
    ∀ records : Map String Record,
      (attach records p).deliveries = retain (fun key => records.contains key) q.deliveries ∧
      (attach records p).due = retain (fun key => records.contains key) q.due

/-- Counts and times within the types they have in the code. -/
structure QueueState.Fits (q : QueueState) : Prop where
  deliveries : ∀ (k : String) (n : Nat), q.deliveries[k]? = some n → n ≤ u32Max
  due : ∀ (k : String) (m : Nat), q.due[k]? = some m → m ≤ u64Max

theorem ofList_sorted (m : Map String Nat) :
    Std.ExtTreeMap.ofList (sorted m.toList) compare = m :=
  Std.ExtTreeMap.ext_getElem? fun k => getElem?_ofList_sorted m k

/-- A key that comes out of a list is on one line when the list's keys are. -/
theorem keyText_of_ofList {l : List (String × Nat)} {m : Map String Nat} {k : String}
    (hl : ∀ e ∈ l, KeyText e.1) (heq : Std.ExtTreeMap.ofList l compare = m) (hk : k ∈ m) :
    KeyText k := by
  obtain ⟨n, hn⟩ := mem_iff_exists.mp hk
  rw [← heq] at hn
  exact hl _ (mem_of_getElem?_ofList hn)

/-- What is read back was on a line. -/
theorem QueueState.Survives.keyText {q : QueueState} (h : q.Survives) {k : String}
    (hk : k ∈ q.deliveries ∨ k ∈ q.due) : KeyText k := by
  obtain ⟨p, hread, -, hdeliveries, hdue, -⟩ := h
  have hwritten := written_readState (some q.toPersisted.writeState)
  rw [hread, Option.getD_some] at hwritten
  rcases hk with hk | hk
  · exact keyText_of_ofList (fun e he => (hwritten.deliveries e he).1) hdeliveries hk
  · exact keyText_of_ofList (fun e he => (hwritten.due e he).1) hdue hk

/-- An order comes back exactly when every key with a count or a due time fits on a line. -/
theorem survives_iff {q : QueueState} (hfits : q.Fits) :
    q.Survives ↔ ∀ k, k ∈ q.deliveries ∨ k ∈ q.due → KeyText k := by
  refine ⟨fun h _ hk => h.keyText hk, fun hkeys => ?_⟩
  have hlegible : Legible q :=
    ⟨fun k n hn => ⟨hkeys k (.inl (mem_of_getElem? hn)), hfits.deliveries k n hn⟩,
      fun k m hm => ⟨hkeys k (.inr (mem_of_getElem? hm)), hfits.due k m hm⟩⟩
  refine ⟨_, readState_toPersisted hlegible, rfl, ofList_sorted _, ofList_sorted _,
    fun records => ?_⟩
  simp only [QueueState.attach, ofList_sorted, and_self]

/-! ## Every key on one line -/

/-- An order over keys that fit on a line, with counts and times that fit their types. -/
structure QueueState.Lined (q : QueueState) : Prop where
  available : ∀ k ∈ q.available, KeyText k
  claims : ∀ k ∈ q.claims, KeyText k
  held : ∀ e ∈ q.held, KeyText (ofLex e).2
  deliveries : ∀ (k : String) (n : Nat), q.deliveries[k]? = some n → KeyText k ∧ n ≤ u32Max
  due : ∀ (k : String) (m : Nat), q.due[k]? = some m → KeyText k ∧ m ≤ u64Max

namespace QueueState

/-- An order that has nothing but what an order over such keys had. -/
structure Under (q' q : QueueState) : Prop where
  available : q'.available ⊆ q.available
  claims : ∀ k ∈ q'.claims, k ∈ q.claims
  held : q'.held ⊆ q.held
  deliveries : ∀ (k : String) (n : Nat), q'.deliveries[k]? = some n → q.deliveries[k]? = some n
  due : ∀ (k : String) (m : Nat), q'.due[k]? = some m → q.due[k]? = some m

theorem Lined.survives {q : QueueState} (h : q.Lined) : q.Survives := by
  rw [survives_iff ⟨fun k n hn => (h.deliveries k n hn).2, fun k m hm => (h.due k m hm).2⟩]
  rintro k (hk | hk)
  · obtain ⟨n, hn⟩ := mem_iff_exists.mp hk
    exact (h.deliveries k n hn).1
  · obtain ⟨m, hm⟩ := mem_iff_exists.mp hk
    exact (h.due k m hm).1

theorem Lined.under {q q' : QueueState} (h : q.Lined) (hu : q'.Under q) : q'.Lined :=
  ⟨fun k hk => h.available k (hu.available hk), fun k hk => h.claims k (hu.claims k hk),
    fun e he => h.held e (hu.held he), fun k n hn => h.deliveries k n (hu.deliveries k n hn),
    fun k m hm => h.due k m (hu.due k m hm)⟩

section

variable {q : QueueState} {key : String} (h : q.Lined)

include h

theorem Lined.mint (now : Nat) : (q.mint now).2.Lined :=
  ⟨h.available, h.claims, h.held, h.deliveries, h.due⟩

theorem Lined.clearDirty : q.clearDirty.Lined :=
  ⟨h.available, h.claims, h.held, h.deliveries, h.due⟩

theorem Lined.unhold (key : String) : (q.unhold key).Lined := by
  unfold QueueState.unhold
  split
  · split
    · exact h.under ⟨subset_rfl, fun _ => id, Finset.erase_subset _ _, fun _ _ => id, fun _ _ => id⟩
    · exact h
  · exact h

/-- Taking a key out of the order, wherever it stands. -/
theorem Lined.dropped (key : String) (available : Finset String) (hsub : available ⊆ q.available)
    (dirty : Bool) :
    Lined { q with claims := q.claims.erase key, available := available, dirty := dirty } :=
  h.under ⟨hsub, fun _ hk => (Std.ExtTreeMap.mem_erase.mp hk).2, subset_rfl, fun _ _ => id,
    fun _ _ => id⟩

theorem Lined.queued (hkey : KeyText key) (dirty : Bool) :
    Lined { q with available := insert key q.available, dirty := dirty } where
  available k hk := by
    rcases Finset.mem_insert.mp hk with rfl | hk
    · exact hkey
    · exact h.available k hk
  claims := h.claims
  held := h.held
  deliveries := h.deliveries
  due := h.due

theorem Lined.hold (hkey : KeyText key) {dueMillis : Nat} (hdue : dueMillis ≤ u64Max) :
    (q.hold key dueMillis).Lined := by
  have hfree := h.unhold key
  refine ⟨hfree.available, hfree.claims, fun e he => ?_, hfree.deliveries, fun k m hm => ?_⟩
  · rcases Finset.mem_insert.mp he with rfl | he
    · exact hkey
    · exact hfree.held e he
  · simp only [QueueState.hold, getElem?_insert_eq] at hm
    split at hm
    · rename_i hsame
      cases hm
      subst hsame
      exact ⟨hkey, hdue⟩
    · exact hfree.due k m hm

theorem Lined.enqueue (hkey : KeyText key) : (q.enqueue key).Lined :=
  ((h.dropped key q.available subset_rfl q.dirty).unhold key).queued hkey true

theorem Lined.enqueueHeld (hkey : KeyText key) {dueMillis : Nat} (hdue : dueMillis ≤ u64Max) :
    (q.enqueueHeld key dueMillis).Lined :=
  (h.dropped key _ (Finset.erase_subset _ _) q.dirty).hold hkey hdue

theorem Lined.forget (key : String) : (q.forget key).Lined := by
  have hdropped := h.dropped key _ (Finset.erase_subset key _) q.dirty
  have hcounted : Lined { q with
      available := q.available.erase key
      claims := q.claims.erase key
      deliveries := q.deliveries.erase key } := by
    refine ⟨hdropped.available, hdropped.claims, hdropped.held, fun k n hn => ?_, hdropped.due⟩
    rw [getElem?_erase_eq] at hn
    split at hn
    · cases hn
    · exact h.deliveries k n hn
  have hfree := hcounted.unhold key
  refine ⟨hfree.available, hfree.claims, hfree.held, hfree.deliveries, fun k m hm => ?_⟩
  simp only [QueueState.forget, getElem?_erase_eq] at hm
  split at hm
  · cases hm
  · exact hfree.due k m hm

/-- Whatever comes due was held under such a key. -/
theorem Lined.releaseDueLoop (now fuel : Nat) : (releaseDueLoop now fuel q).2.Lined := by
  induction fuel generalizing q with
  | zero => exact h
  | succ fuel ih =>
    unfold QueueState.releaseDueLoop
    split
    · rename_i entry hfirst
      split
      · have hrest : Lined { q with held := q.held.erase entry } :=
          h.under ⟨subset_rfl, fun _ => id, Finset.erase_subset _ _, fun _ _ => id, fun _ _ => id⟩
        exact ih (hrest.queued (h.held entry (first_mem hfirst)) q.dirty)
      · exact h
    · exact h

theorem Lined.dirtied (dirty : Bool) : Lined { q with dirty := dirty } :=
  ⟨h.available, h.claims, h.held, h.deliveries, h.due⟩

theorem Lined.releaseDue (now : Nat) : (q.releaseDue now).2.Lined := by
  have hloop := h.releaseDueLoop now q.held.card
  unfold QueueState.releaseDue
  dsimp only
  split
  · exact hloop.dirtied true
  · exact hloop

theorem Lined.expireOne (policy : QueuePolicy) (expired : Expired) {key : String}
    (hkey : KeyText key) : (expireOne policy (q, expired) key).1.Lined := by
  have hdropped := h.dropped key q.available subset_rfl true
  unfold QueueState.expireOne
  dsimp only
  split
  · exact hdropped
  · exact hdropped.queued hkey true

theorem Lined.expireFold (policy : QueuePolicy) (keys : List String)
    (hkeys : ∀ key ∈ keys, KeyText key) (expired : Expired) :
    (keys.foldl (QueueState.expireOne policy) (q, expired)).1.Lined := by
  induction keys generalizing q expired with
  | nil => exact h
  | cons key keys ih =>
    rw [List.foldl_cons]
    exact ih (h.expireOne policy expired (hkeys key List.mem_cons_self))
      (fun k hk => hkeys k (List.mem_cons_of_mem _ hk)) _

theorem Lined.expire (now : Nat) (policy : QueuePolicy) : (q.expire now policy).1.Lined := by
  have hreleased := h.releaseDue now
  refine hreleased.expireFold policy _ (fun key hkey => ?_) {}
  apply hreleased.claims key
  have hmem := Std.ExtTreeMap.mem_keys.mp hkey
  exact Std.ExtTreeMap.mem_of_mem_filter hmem

theorem Lined.counted (hkey : KeyText key) {n : Nat} (hn : n ≤ u32Max) (dirty : Bool) :
    Lined { q with deliveries := q.deliveries.insert key n, dirty := dirty } where
  available := h.available
  claims := h.claims
  held := h.held
  deliveries k m hm := by
    rw [getElem?_insert_eq] at hm
    split at hm
    · rename_i hsame
      cases hm
      subst hsame
      exact ⟨hkey, hn⟩
    · exact h.deliveries k m hm
  due := h.due

theorem Lined.claim (owner : String) (now : Nat) (policy : QueuePolicy) :
    (q.claim owner now policy).2.Lined := by
  unfold QueueState.claim
  split
  · exact h
  · rename_i key hfirst
    have hkey := h.available key (first_mem hfirst)
    have hcount : (q.deliveries[key]?.getD 0 + 1) % 2 ^ 32 ≤ u32Max :=
      Nat.le_sub_one_of_lt (Nat.mod_lt _ (by omega))
    have hcounted := h.counted hkey hcount true
    refine ⟨fun k hk => h.available k (Finset.mem_of_mem_erase hk), fun k hk => ?_,
      hcounted.held, hcounted.deliveries, hcounted.due⟩
    rcases Std.ExtTreeMap.mem_insert.mp hk with hsame | hk
    · rw [Std.compare_eq_iff_eq] at hsame
      exact hsame ▸ hkey
    · exact h.claims k hk

theorem Lined.adopt (hkey : KeyText key) {deliveries : Nat} (hn : deliveries ≤ u32Max) :
    (q.adopt key deliveries).Lined := by
  have hqueued := h.queued hkey true
  unfold QueueState.adopt
  split
  · exact hqueued.counted hkey hn true
  · exact hqueued

theorem Lined.releaseUntil (hkey : KeyText key) (policy : QueuePolicy) (due : Option Nat)
    (hdue : ∀ m, due = some m → m ≤ u64Max) : (q.releaseUntil key policy due).2.Lined := by
  have hdropped := h.dropped key q.available subset_rfl true
  unfold QueueState.releaseUntil
  dsimp only
  split
  · exact hdropped
  · split
    · exact hdropped.hold hkey (hdue _ rfl)
    · exact hdropped.queued hkey true

theorem Lined.reconcile {R : Type} (records : Map String R) (hrecords : ∀ k ∈ records, KeyText k) :
    (q.reconcile records).Lined where
  available k hk := by
    simp only [QueueState.reconcile, Finset.mem_union, Finset.mem_filter, mem_dom] at hk
    rcases hk with hk | hk
    · exact hrecords k hk.2.1
    · exact hrecords k hk.1
  claims k hk := h.claims k (mem_retain.mp hk).2
  held e he := h.held e (Finset.mem_filter.mp he).1
  deliveries k n hn := by
    simp only [QueueState.reconcile, getElem?_retain] at hn
    split at hn
    · exact h.deliveries k n hn
    · cases hn
  due k m hm := by
    simp only [QueueState.reconcile, getElem?_retain] at hm
    split at hm
    · exact h.due k m hm
    · cases hm

end

/-- A book holds only what is on its lines, so an order attached from any book is one of these. -/
theorem lined_attach (records : Map String Record) (hrecords : ∀ k ∈ records, KeyText k)
    (book : Option Bytes) :
    (attach records ((PersistedQueue.readState book).getD .absent)).Lined := by
  have hlegible := legible_attach records book
  refine ⟨fun k hk => ?_, fun k hk => ?_, fun e he => ?_, hlegible.1, hlegible.2⟩
  · simp only [QueueState.attach, Finset.mem_filter, mem_dom] at hk
    exact hrecords k hk.1
  · exact absurd hk Std.ExtTreeMap.not_mem_empty
  · simp only [QueueState.attach, Finset.mem_biUnion, mem_dom] at he
    obtain ⟨k, hk, he⟩ := he
    split at he
    · rw [Finset.mem_singleton] at he
      rw [he]
      exact hrecords k hk
    · cases he

end QueueState

/-! ## The sections of the commands -/

/-- A queue file over such keys, with an order over them when one is attached. -/
structure Table.Lined (t : Table) : Prop where
  records : ∀ k ∈ t.records, KeyText k
  queue : ∀ q, t.queue = some q → q.Lined

namespace Table

variable {t : Table} {key : String} (h : t.Lined)

include h

theorem Lined.of_queue {q : QueueState} (hq : q.Lined) : Lined { t with queue := some q } :=
  ⟨h.records, fun _ heq => Option.some.inj heq ▸ hq⟩

theorem Lined.insertRecord (hkey : KeyText key) (record : Record) :
    (t.insertRecord key record).Lined where
  records k hk := by
    rcases Std.ExtTreeMap.mem_insert.mp hk with hsame | hk
    · rw [Std.compare_eq_iff_eq] at hsame
      exact hsame ▸ hkey
    · exact h.records k hk
  queue := h.queue

theorem Lined.removeRecord (key : String) : (t.removeRecord key).2.Lined where
  records k hk := h.records k (Std.ExtTreeMap.mem_erase.mp hk).2
  queue := h.queue

theorem Lined.reconcileQueue : t.reconcileQueue.Lined where
  records := h.records
  queue q hq := by
    obtain ⟨q₀, hq₀, rfl⟩ := Option.map_eq_some_iff.mp hq
    exact (h.queue q₀ hq₀).reconcile t.records h.records

theorem Lined.attachQueue (book : Option Bytes) :
    (t.attachQueue ((PersistedQueue.readState book).getD .absent)).Lined := by
  unfold Table.attachQueue
  split
  · exact h
  · exact h.of_queue (QueueState.lined_attach t.records h.records book)

theorem Lined.takeDead (letters : List DeadLetter) (key : String) :
    (takeDead (letters, t) key).2.Lined := by
  unfold Table.takeDead
  split
  · exact h
  · rename_i q hq
    exact ⟨fun k hk => h.records k (Std.ExtTreeMap.mem_erase.mp hk).2,
      fun _ heq => Option.some.inj heq ▸ (h.queue q hq).forget key⟩

theorem Lined.takeDeadFold (keys : List String) (letters : List DeadLetter) :
    (keys.foldl Table.takeDead (letters, t)).2.Lined := by
  induction keys generalizing t letters with
  | nil => exact h
  | cons key keys ih =>
    rw [List.foldl_cons]
    exact ih (h.takeDead letters key) _

theorem Lined.takeExpired (now : Nat) (policy : QueuePolicy) :
    (t.takeExpired now policy).2.Lined := by
  unfold Table.takeExpired
  split
  · exact h
  · rename_i q hq
    exact (h.of_queue ((h.queue q hq).expire now policy)).takeDeadFold _ _

theorem Lined.adoptLetter {letter : DeadLetter} (hkey : KeyText letter.key)
    (hn : letter.deliveries ≤ u32Max) : (t.adoptLetter letter).Lined where
  records := (h.insertRecord hkey letter.record).records
  queue q hq := by
    obtain ⟨q₀, hq₀, rfl⟩ := Option.map_eq_some_iff.mp hq
    exact (h.queue q₀ hq₀).adopt hkey hn

theorem Lined.adoptLetters {letters : List DeadLetter}
    (hletters : ∀ letter ∈ letters, KeyText letter.key ∧ letter.deliveries ≤ u32Max) :
    (t.adoptLetters letters).Lined := by
  unfold Table.adoptLetters
  induction letters generalizing t with
  | nil => exact h
  | cons letter letters ih =>
    rw [List.foldl_cons]
    obtain ⟨hkey, hn⟩ := hletters letter List.mem_cons_self
    exact ih (h.adoptLetter hkey hn) fun l hl => hletters l (List.mem_cons_of_mem _ hl)

theorem Lined.enqueueDue {record : Record} {due : Option Nat} {now : Nat} {out : String × Table}
    (hdue : ∀ m, due = some m → m ≤ u64Max) (hrun : t.enqueueDue record due now = some out) :
    out.2.Lined := by
  obtain ⟨q, hq, rfl⟩ := Option.map_eq_some_iff.mp hrun
  have hkey : KeyText (formatKey (q.mint now).1) :=
    Minted.keyText ⟨_, Sequence.upcoming_le _ _, rfl⟩
  have hminted := (h.queue q hq).mint now
  refine ((h.of_queue hminted).insertRecord hkey record).of_queue ?_
  cases due with
  | none => exact hminted.enqueue hkey
  | some m => exact hminted.enqueueHeld hkey (hdue m rfl)

theorem Lined.dequeue {name owner : String} {visibility : Option Nat} {policy : QueuePolicy}
    {now : Nat} {out : Option QueueDelivery × List DeadLetter × Table}
    (hrun : t.dequeue name owner visibility policy now = some out) : out.2.2.Lined := by
  obtain ⟨q, hq, rfl⟩ := Option.map_eq_some_iff.mp hrun
  have hswept := h.takeExpired now
    { effectivePolicy name policy with visibility := visibility.getD policy.visibility }
  exact hswept.of_queue ((hswept.queue q hq).claim owner now _)

theorem Lined.ack {name key owner : String} {out : Except DbError Unit × Table}
    (hrun : t.ack name key owner = some out) : out.2.Lined := by
  obtain ⟨q, hq, rfl⟩ := Option.map_eq_some_iff.mp hrun
  split
  · exact h
  · exact (h.removeRecord key).of_queue ((h.queue q hq).forget key)

theorem Lined.nackUntil {name key owner : String} {policy : QueuePolicy} {due : Option Nat}
    {out : Except DbError (List DeadLetter) × Table} (hdue : ∀ m, due = some m → m ≤ u64Max)
    (hrun : t.nackUntil name key owner policy due = some out) : out.2.Lined := by
  obtain ⟨q, hq, rfl⟩ := Option.map_eq_some_iff.mp hrun
  have hqueue := h.queue q hq
  split
  · exact h
  · rename_i hverify
    have hkey : KeyText key := by
      unfold QueueState.verify at hverify
      split at hverify
      · cases hverify
      · rename_i hpresent
        exact h.records key (by simpa using hpresent)
    have hreleased := hqueue.releaseUntil hkey (effectivePolicy name policy) due hdue
    split
    · rename_i q' hrelease
      rw [hrelease] at hreleased
      exact ⟨fun k hk => h.records k (Std.ExtTreeMap.mem_erase.mp hk).2,
        fun _ heq => Option.some.inj heq ▸ hreleased.forget key⟩
    · rename_i q' hrelease
      rw [hrelease] at hreleased
      exact h.of_queue hreleased

/-- Every section of a queue command keeps the keys on their lines. -/
theorem Lined.perform {name : String} {now : Nat} {a : QueueAction} {out : QueueOutcome}
    {t' : Table} (hcmd : a.isCommand = true) (hdue : ∀ m, a.dueMillis = some m → m ≤ u64Max)
    (hrun : a.perform name t now = some (out, t')) : t'.Lined := by
  cases a with
  | attach persisted => cases hcmd
  | delete key => cases hcmd
  | reconcile =>
    cases hrun
    exact h.reconcileQueue
  | enqueue record due =>
    obtain ⟨r, hr, heq⟩ := Option.map_eq_some_iff.mp hrun
    cases heq
    exact h.enqueueDue hdue hr
  | dequeue owner visibility policy =>
    obtain ⟨r, hr, heq⟩ := Option.map_eq_some_iff.mp hrun
    cases heq
    exact h.dequeue hr
  | ack key owner =>
    obtain ⟨r, hr, heq⟩ := Option.map_eq_some_iff.mp hrun
    cases heq
    exact h.ack hr
  | nack key owner policy due =>
    obtain ⟨r, hr, heq⟩ := Option.map_eq_some_iff.mp hrun
    cases heq
    exact h.nackUntil hdue hr
  | peek key =>
    cases hrun
    exact h
  | peekSweep key policy =>
    obtain ⟨r, hr, heq⟩ := Option.map_eq_some_iff.mp hrun
    cases heq
    obtain ⟨_, _, rfl⟩ := Option.map_eq_some_iff.mp hr
    exact h.takeExpired now (effectivePolicy name policy)
  | statistics policy =>
    obtain ⟨r, hr, heq⟩ := Option.map_eq_some_iff.mp hrun
    cases heq
    obtain ⟨_, _, rfl⟩ := Option.map_eq_some_iff.mp hr
    exact h.takeExpired now (effectivePolicy name policy)

end Table

/-! ## Runs with plain writes and deletes -/

/-- What may happen to a queue file: a step of its commands, a plain WRITE or DELETE, and, where it
is a dead-letter file, the letters of its queue. -/
inductive FileAction where
  | store (a : StoreAction)
  | write (key : Option String) (record : Record) (isDict : Bool) (condition : Condition)
  | delete (key : String) (isDict : Bool) (condition : Condition)
  | adopt (letters : List DeadLetter)

def FileAction.perform (digest : Record → String) (name : String) (s : QueueStore) (now : Nat) :
    FileAction → Option QueueStore
  | .store a => (a.perform name s now).map Prod.snd
  | .write key record isDict condition => some { s with
      table := (s.table.writeRecord digest name key record isDict condition false none now).2 }
  | .delete key isDict condition => some { s with
      table := (s.table.deleteRecord digest name key isDict condition).2 }
  | .adopt letters => some { s with table := s.table.adoptLetters letters }

/-- Actions one after another, each at its reading of the clock. -/
def runFile (digest : Record → String) (name : String) (s : QueueStore) :
    List (Nat × FileAction) → Option QueueStore
  | [] => some s
  | (now, a) :: rest => (a.perform digest name s now).bind fun s' => runFile digest name s' rest

/-- The numbers of an action fit their types: a due time is a `u64`, a count a `u32`. -/
def FileAction.Typed : FileAction → Prop
  | .store (.command a) => ∀ m, a.dueMillis = some m → m ≤ u64Max
  | .adopt letters => ∀ letter ∈ letters, letter.deliveries ≤ u32Max
  | _ => True

/-- No record is put under a key that holds a line break. -/
def FileAction.OneLine : FileAction → Prop
  | .write (some key) _ false _ => KeyText key
  | .adopt letters => ∀ letter ∈ letters, KeyText letter.key
  | _ => True

section

variable {digest : Record → String} {name : String} {s s' : QueueStore}

theorem lined_clearDirty {t : Table} (h : t.Lined) : t.clearDirty.Lined := ⟨h.records, h.queue⟩

theorem lined_markDictDirty {t : Table} (h : t.Lined) (dictionary : Map String Record) :
    ({ t with dictionary := dictionary }).markDictDirty.Lined := ⟨h.records, h.queue⟩

theorem lined_flush (h : s.table.Lined) : s.flush.table.Lined := by
  unfold QueueStore.flush
  split
  · rename_i q hq
    split
    · exact lined_clearDirty (h.of_queue (h.queue q hq).clearDirty)
    · exact lined_clearDirty h
  · exact lined_clearDirty h

theorem lined_restart (h : s.table.Lined) : s.restart.table.Lined where
  records k hk := (lined_flush h).records k (Std.ExtTreeMap.mem_map.mp hk)
  queue _ hq := by cases hq

theorem lined_store {a : StoreAction} {now : Nat} {out : QueueOutcome} (h : s.table.Lined)
    (htyped : (FileAction.store a).Typed) (hrun : a.perform name s now = some (out, s')) :
    s'.table.Lined := by
  cases a with
  | command a =>
    simp only [StoreAction.perform] at hrun
    split at hrun
    · rename_i hcmd
      obtain ⟨r, hr, heq⟩ := Option.map_eq_some_iff.mp hrun
      cases heq
      exact h.perform hcmd htyped hr
    · cases hrun
  | attach =>
    cases hrun
    exact h.attachQueue s.book
  | flush =>
    cases hrun
    exact lined_flush h
  | restart =>
    cases hrun
    exact lined_restart h

theorem lined_write {key : Option String} {record : Record} {isDict : Bool} {condition : Condition}
    {now : Nat} (h : s.table.Lined)
    (hline : (FileAction.write key record isDict condition).OneLine) :
    (s.table.writeRecord digest name key record isDict condition false none now).2.Lined := by
  unfold Table.writeRecord
  cases isDict with
  | true =>
    rw [if_pos rfl]
    cases key with
    | none => exact h
    | some key =>
      dsimp only
      split
      · exact h
      · exact lined_markDictDirty h _
  | false =>
    rw [if_neg Bool.false_ne_true]
    cases key with
    | none => exact h
    | some key =>
      have hraised : Table.Lined { s.table with
          autokey := s.table.autokey.map fun counter => counter.raisePast key } :=
        ⟨h.records, h.queue⟩
      simp only [Table.writeKey]
      split
      · exact hraised
      · exact hraised.insertRecord hline record

theorem lined_delete {key : String} {isDict : Bool} {condition : Condition} (h : s.table.Lined) :
    (s.table.deleteRecord digest name key isDict condition).2.Lined := by
  unfold Table.deleteRecord
  cases isDict with
  | true =>
    rw [if_pos rfl]
    split
    · exact h
    · exact lined_markDictDirty h _
  | false =>
    rw [if_neg Bool.false_ne_true]
    split
    · exact h
    · exact h.removeRecord key

theorem lined_step {now : Nat} {a : FileAction} (h : s.table.Lined) (htyped : a.Typed)
    (hline : a.OneLine) (hrun : a.perform digest name s now = some s') : s'.table.Lined := by
  cases a with
  | store a =>
    obtain ⟨⟨out, s''⟩, hr, heq⟩ := Option.map_eq_some_iff.mp hrun
    cases heq
    exact lined_store h htyped hr
  | write key record isDict condition =>
    cases hrun
    exact lined_write h hline
  | delete key isDict condition =>
    cases hrun
    exact lined_delete h
  | adopt letters =>
    cases hrun
    exact h.adoptLetters fun letter hl => ⟨hline letter hl, htyped letter hl⟩

theorem lined_run {actions : List (Nat × FileAction)} (h : s.table.Lined)
    (htyped : ∀ a ∈ actions, a.2.Typed) (hline : ∀ a ∈ actions, a.2.OneLine)
    (hrun : runFile digest name s actions = some s') : s'.table.Lined := by
  induction actions generalizing s with
  | nil =>
    cases hrun
    exact h
  | cons action rest ih =>
    obtain ⟨s'', hstep, hrest⟩ := Option.bind_eq_some_iff.mp hrun
    exact ih
      (lined_step h (htyped action List.mem_cons_self) (hline action List.mem_cons_self) hstep)
      (fun a ha => htyped a (List.mem_cons_of_mem _ ha))
      (fun a ha => hline a (List.mem_cons_of_mem _ ha)) hrest

/-- In a run that puts no record under a key with a line break, from a file that is loaded with no
such key, every order there ever is comes back from its book. -/
theorem survives_of_run {actions : List (Nat × FileAction)} {q : QueueState}
    (hloaded : s.table.queue = none) (hkeys : ∀ k ∈ s.table.records, KeyText k)
    (htyped : ∀ a ∈ actions, a.2.Typed) (hline : ∀ a ∈ actions, a.2.OneLine)
    (hrun : runFile digest name s actions = some s') (hq : s'.table.queue = some q) :
    q.Survives := by
  have hstart : s.table.Lined := ⟨hkeys, fun q hq => by
    rw [hloaded] at hq
    cases hq⟩
  exact ((lined_run hstart htyped hline hrun).queue q hq).survives

end

/-- A record written by hand under `key`, and delivered once. -/
def handWritten (key : String) : List (Nat × FileAction) :=
  [(1, .store .attach), (2, .write (some key) {} false .always), (3, .store (.command .reconcile)),
    (4, .store (.command (.dequeue "A" none {})))]

/-- The order a run ends with. -/
def orderAfter (actions : List (Nat × FileAction)) : Option QueueState :=
  (runFile (fun _ => "") "JOBS" { table := {} } actions).bind fun s => s.table.queue

theorem orderAfter_eq {actions : List (Nat × FileAction)} {q : QueueState}
    (h : orderAfter actions = some q) :
    ∃ s, runFile (fun _ => "") "JOBS" { table := {} } actions = some s ∧ s.table.queue = some q :=
  Option.bind_eq_some_iff.mp h

theorem handWritten_typed (key : String) : ∀ a ∈ handWritten key, a.2.Typed := by
  simp [handWritten, FileAction.Typed, QueueAction.dueMillis]

theorem handWritten_survives : ∃ q, orderAfter (handWritten "A-1") = some q ∧
    q.deliveries["A-1"]? = some 1 ∧ q.Survives := by
  have hcount : (orderAfter (handWritten "A-1")).any
      (fun q => q.deliveries["A-1"]? == some 1) = true := by decide +kernel
  obtain ⟨q, hq, hone⟩ := (Option.any_eq_true _ _).mp hcount
  obtain ⟨s, hrun, hqueue⟩ := orderAfter_eq hq
  have hline : ∀ a ∈ handWritten "A-1", a.2.OneLine := by
    have hkey : KeyText "A-1" := by
      unfold KeyText
      decide
    simp [handWritten, FileAction.OneLine, hkey]
  exact ⟨q, hq, eq_of_beq hone,
    survives_of_run rfl (fun k hk => absurd hk Std.ExtTreeMap.not_mem_empty)
      (handWritten_typed "A-1") hline hrun hqueue⟩

/-- A key of two lines: its count is written and never read. -/
theorem brokenKey_lost : ¬ ∀ (actions : List (Nat × FileAction)) (q : QueueState),
    (∀ a ∈ actions, a.2.Typed) → orderAfter actions = some q → q.Survives := by
  intro hall
  have hcount : (orderAfter (handWritten "A\nB")).any
      (fun q => q.deliveries.contains "A\nB") = true := by decide +kernel
  obtain ⟨q, hq, hcontains⟩ := (Option.any_eq_true _ _).mp hcount
  have hline := (hall _ q (handWritten_typed "A\nB") hq).keyText (.inl hcontains)
  exact hline (by simp)

end RustyPick
