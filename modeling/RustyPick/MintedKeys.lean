import RustyPick.StateFile
import RustyPick.TableEdit
import RustyPick.QueueStore

/-!
# RustyPick.MintedKeys

The keys a file mints, over every order of minting, writing by hand, transactions, deletes and
clean reloads, whatever the clock says.

A queue mints from its order, an autokey file from its counter; both are a `Sequence` with a state
file beside the records. A write by hand into an autokey file pulls the counter past its key. A
write by hand into a queue and a transaction into an autokey file do not, and nothing notices until
the order is attached or reconciled: should the counter and the clock come to the number of a key
they have left there, it is minted again, over the record.

* `Ahead`: the counter, and the state file behind it, stay past every number minted.
* `Covered`: it stays past every twenty-digit key in the file, too, but for those left there.
* `minted_fresh_and_ordered`: every key minted is new and larger than every key minted before, in
  every run in which no mint comes to a key that was left there, or starts at `u64::MAX`.
-/

namespace RustyPick

open Lib

/-- How a file comes by its keys: by ENQUEUE, or by a WRITE that names none. -/
inductive MintKind where
  | queue
  | autokey
  deriving DecidableEq

/-- A file that mints keys, with its two state files. -/
structure MintFile where
  table : Table
  book : Option Bytes := none
  counterFile : Option Bytes := none

namespace MintFile

def persistedQueue (s : MintFile) : PersistedQueue := (PersistedQueue.readState s.book).getD .absent

def persistedCounter (s : MintFile) : Option UInt64 := (readAutokey s.counterFile).map UInt64.ofNat

/-- A flush, as far as the counters are concerned. -/
def flush (s : MintFile) : MintFile :=
  let (queue, book) := match s.table.queue with
    | some q =>
      if q.isDirty then (some q.clearDirty, some q.toPersisted.writeState) else (some q, s.book)
    | none => (none, s.book)
  let (autokey, counterFile) := match s.table.autokey with
    | some counter =>
      if counter.dirty then (some { counter with dirty := false }, some (writeAutokey counter.next))
      else (some counter, s.counterFile)
    | none => (none, s.counterFile)
  { table := ({ s.table with queue := queue, autokey := autokey }).clearDirty
    book := book
    counterFile := counterFile }

/-- A flush, and the file as it is loaded again. -/
def reload (s : MintFile) : MintFile :=
  { s.flush with
    table := { s.flush.table with
      records := s.flush.table.records.map fun _ record => record.stored
      dictionary := s.flush.table.dictionary.map fun _ record => record.stored
      queue := none
      autokey := none } }

/-- The counter in memory. -/
def counter (s : MintFile) : MintKind → Option Sequence
  | .queue => s.table.queue.map QueueState.sequence
  | .autokey => s.table.autokey

/-- The counter a key would be minted from now. -/
def minter (s : MintFile) : MintKind → Option Sequence
  | .queue => s.table.queue.map QueueState.sequence
  | .autokey => (s.table.attachAutokey s.persistedCounter).autokey

/-- The counter on disk, zero when there is none. -/
def written (s : MintFile) : MintKind → Nat
  | .queue => s.persistedQueue.nextSequence
  | .autokey => (readAutokey s.counterFile).getD 0

/-- Whether the next flush writes the counter. -/
def marked (s : MintFile) : MintKind → Bool
  | .queue => s.table.queueDirty
  | .autokey => s.table.autokeyDirty

end MintFile

inductive MintAction where
  | attach
  | reconcile
  | enqueue (record : Record) (due : Option Nat)
  | write (key : Option String) (record : Record) (isDict : Bool) (condition : Condition)
  | transact (changes : List Change)
  | delete (key : String) (isDict : Bool) (condition : Condition)
  | flush
  | reload

/-- Whether an action asks for a key. -/
def MintAction.mints : MintKind → MintAction → Bool
  | .queue, .enqueue _ _ => true
  | .autokey, .write none _ false _ => true
  | _, _ => false

/-- An action, with the key it minted. `none` is an action the file's kind refuses. -/
def MintAction.perform (digest : Record → String) (kind : MintKind) (name : String) (s : MintFile)
    (now : Nat) (a : MintAction) : Option (Option String × MintFile) :=
  match kind, a with
  | .queue, .attach => some (none, { s with table := s.table.attachQueue s.persistedQueue })
  | .queue, .reconcile => some (none, { s with table := s.table.reconcileQueue })
  | .queue, .enqueue record due =>
    (s.table.enqueueDue record due now).map fun r => (some r.1, { s with table := r.2 })
  | _, .write key record isDict condition =>
    let minted := match key, isDict,
        s.table.writeKey name key (kind = .autokey) s.persistedCounter now with
      | none, false, .ok (minted, _) => some minted
      | _, _, _ => none
    some (minted, { s with
      table := (s.table.writeRecord digest name key record isDict condition (kind = .autokey)
        s.persistedCounter now).2 })
  | .autokey, .transact changes =>
    some (none, { s with
      table := (changes.filter fun change => change.file = name).foldl Table.applyChange s.table })
  | _, .delete key isDict condition =>
    some (none, { s with table := (s.table.deleteRecord digest name key isDict condition).2 })
  | _, .flush => some (none, s.flush)
  | _, .reload => some (none, s.reload)
  | _, _ => none

/-- A twenty-digit key at or past the counter in memory. -/
def MintFile.isPast (s : MintFile) (kind : MintKind) (key : String) : Bool :=
  match s.counter kind, keySequence key with
  | some counter, some n => counter.next ≤ n
  | _, _ => false

/-- The record a change of a transaction writes. -/
def Change.written (change : Change) : Option String :=
  match change.op, change.isDict with
  | .write _, false => some change.key
  | _, _ => none

/-- The keys a step writes at or past the counter, which it does not pull past them. -/
def MintAction.leaves (kind : MintKind) (name : String) (s : MintFile) :
    MintAction → List String
  | .write (some key) _ false _ => if kind = .queue then [key].filter (s.isPast kind) else []
  | .transact changes =>
    ((changes.filter fun change => change.file = name).filterMap Change.written).filter
      (s.isPast kind)
  | _ => []

/-- An action as it ran, at some reading of the clock, with the key it minted. -/
structure MintEvent where
  reading : Nat
  action : MintAction
  minted : Option String

/-- A run, with the keys that have been left at or past the counter up to each of its steps. -/
inductive MintRun (digest : Record → String) (kind : MintKind) (name : String)
    (ok : List String → MintFile → MintEvent → Prop) :
    List String → MintFile → List MintEvent → List String → MintFile → Prop where
  | nil (left : List String) (s : MintFile) : MintRun digest kind name ok left s [] left s
  | cons {left left' : List String} {s s' s'' : MintFile} {e : MintEvent} {es : List MintEvent} :
      ok left s e →
      e.action.perform digest kind name s e.reading = some (e.minted, s') →
      MintRun digest kind name ok (left ++ e.action.leaves kind name s) s' es left' s'' →
      MintRun digest kind name ok left s (e :: es) left' s''

/-- The due times given fit a `u64`. -/
def MintEvent.TimesFit (e : MintEvent) : Prop :=
  ∀ record millis, e.action = .enqueue record (some millis) → millis ≤ u64Max

/-- A mint starts short of `u64::MAX`, and of the records that were left at or past the counter none
stands where the counter and the clock come to. -/
def MintsClear (kind : MintKind) (left : List String) (s : MintFile) (e : MintEvent) : Prop :=
  e.action.mints kind = true → ∀ counter, s.minter kind = some counter →
    counter.next < u64Max ∧ ∀ key ∈ left, key ∈ s.table.records →
      keySequence key ≠ some (counter.upcoming e.reading)

/-- Each key minted is the key of no record there is, and larger than each minted before it, as a
number and as text. -/
structure FreshAndOrdered (digest : Record → String) (kind : MintKind) (name : String) (s : MintFile)
    (es : List MintEvent) : Prop where
  fresh : ∀ pre e post key, es = pre ++ e :: post → e.minted = some key →
    ∃ left s₁ s₂, MintRun digest kind name (fun _ _ _ => True) [] s pre left s₁ ∧
      e.action.perform digest kind name s₁ e.reading = some (some key, s₂) ∧
      key ∉ s₁.table.records
  ordered : ∀ pre e₁ mid e₂ post key₁ key₂, es = pre ++ e₁ :: (mid ++ e₂ :: post) →
    e₁.minted = some key₁ → e₂.minted = some key₂ →
    key₁ < key₂ ∧ ∃ n₁ n₂, keySequence key₁ = some n₁ ∧ keySequence key₂ = some n₂ ∧ n₁ < n₂

/-! ## The counter never comes back -/

/-- A counter that will not hand out `n` again short of `u64::MAX`. -/
def Past (n next : Nat) : Prop := n < next ∨ next = u64Max

theorem Past.mono {n a b : Nat} (h : Past n a) (hab : a ≤ b) (hb : b ≤ u64Max) : Past n b := by
  rcases h with h | h
  · exact Or.inl (lt_of_lt_of_le h hab)
  · exact Or.inr (le_antisymm hb (by omega))

theorem Past.mint {n : Nat} {counter : Sequence} (h : Past n counter.next) (now : Nat) :
    Past n (counter.mint now).2.next := by
  refine h.mono ?_ (counter.mint now).2.next_le
  have hle := Sequence.next_le_upcoming counter now
  have hmax := Sequence.upcoming_le counter now
  rw [Sequence.mint_next]
  unfold satAdd
  omega

theorem past_upcoming (counter : Sequence) (now : Nat) :
    Past (counter.upcoming now) (counter.mint now).2.next := by
  have hmax := Sequence.upcoming_le counter now
  rw [Sequence.mint_next]
  unfold Past satAdd
  omega

/-- The numbers minted so far are behind the counter in memory, and behind the one on disk unless the
next flush writes it. -/
structure Ahead (kind : MintKind) (ns : List Nat) (s : MintFile) : Prop where
  legible : ∀ q, s.table.queue = some q → Legible q
  memory : ∀ counter, s.counter kind = some counter → ∀ n ∈ ns, Past n counter.next
  disk : s.marked kind = false → ∀ n ∈ ns, Past n (s.written kind)

theorem attachAutokey_of_none {t : Table} (h : t.autokey = none) (persisted : Option UInt64) :
    ∃ counter, (t.attachAutokey persisted).autokey = some counter ∧
      (persisted.getD 0).toNat ≤ counter.next ∧ counter.dirty = false := by
  have hdirty : ∀ (keys : List String) (c : Sequence), (keys.foldl Sequence.raisePast c).dirty =
      c.dirty := by
    intro keys
    induction keys with
    | nil => intro c; rfl
    | cons key keys ih =>
      intro c
      rw [List.foldl_cons, ih]
      unfold Sequence.raisePast
      split <;> rfl
  simp only [Table.attachAutokey, h]
  refine ⟨_, rfl, ?_, ?_⟩
  · exact Sequence.next_le_foldl_raisePast _ (Sequence.restored _ _)
  · rw [hdirty]
    rfl

theorem attachAutokey_of_some {t : Table} {counter : Sequence} (h : t.autokey = some counter)
    (persisted : Option UInt64) : t.attachAutokey persisted = t := by
  simp only [Table.attachAutokey, h]

theorem readAutokey_le {file : Option Bytes} {n : Nat} (h : readAutokey file = some n) :
    n ≤ u64Max := by
  unfold readAutokey at h
  simp only [Option.bind_eq_bind] at h
  obtain ⟨body, -, h⟩ := Option.bind_eq_some_iff.mp h
  obtain ⟨text, -, h⟩ := Option.bind_eq_some_iff.mp h
  exact parseU64_le h

theorem persistedCounter_toNat (s : MintFile) :
    (s.persistedCounter.getD 0).toNat = s.written .autokey := by
  unfold MintFile.persistedCounter MintFile.written
  cases h : readAutokey s.counterFile with
  | none => rfl
  | some n =>
    have hle := readAutokey_le h
    simp only [Option.map_some, Option.getD_some, UInt64.toNat_ofNat']
    unfold u64Max at hle
    omega

section

variable {kind : MintKind} {ns : List Nat} {s : MintFile}

/-- The counter a key would be minted from is past everything minted, too. -/
theorem Ahead.minter (h : Ahead kind ns s) {counter : Sequence} (hm : s.minter kind = some counter) :
    ∀ n ∈ ns, Past n counter.next := by
  cases kind with
  | queue => exact h.memory counter hm
  | autokey =>
    cases ha : s.table.autokey with
    | some c =>
      simp only [MintFile.minter, attachAutokey_of_some ha] at hm
      exact h.memory counter hm
    | none =>
      obtain ⟨c, hc, hle, -⟩ := attachAutokey_of_none ha s.persistedCounter
      obtain rfl : c = counter := by simpa [MintFile.minter, hc] using hm
      rw [persistedCounter_toNat] at hle
      intro n hn
      have hmarked : s.marked .autokey = false := by simp [MintFile.marked, Table.autokeyDirty, ha]
      exact (h.disk hmarked n hn).mono hle c.next_le

/-- A step that mints nothing, keeps both files and moves the counter forward if at all. -/
theorem Ahead.quiet (h : Ahead kind ns s) {t : Table} (hq : ∀ q, t.queue = some q → Legible q)
    (hmarked : s.marked kind = true → ({ s with table := t } : MintFile).marked kind = true)
    (hmemory : ∀ counter, ({ s with table := t } : MintFile).counter kind = some counter →
      s.written kind ≤ counter.next ∧ s.marked kind = false ∨
        ∃ before, s.counter kind = some before ∧ before.next ≤ counter.next) :
    Ahead kind ns { s with table := t } := by
  refine ⟨hq, ?_, ?_⟩
  · intro counter hc n hn
    rcases hmemory counter hc with ⟨hle, hclean⟩ | ⟨before, hb, hle⟩
    · exact (h.disk hclean n hn).mono hle counter.next_le
    · exact (h.memory before hb n hn).mono hle counter.next_le
  · intro hclean n hn
    have hclean' : s.marked kind = false := by
      by_contra hm
      rw [Bool.not_eq_false] at hm
      rw [hmarked hm] at hclean
      cases hclean
    exact h.disk hclean' n hn

/-- A table whose counters are as they were. -/
theorem Ahead.same (h : Ahead kind ns s) {t : Table} (hq : t.queue = s.table.queue)
    (ha : t.autokey = s.table.autokey) : Ahead kind ns { s with table := t } := by
  have hmarked : ({ s with table := t } : MintFile).marked kind = s.marked kind := by
    cases kind <;> simp [MintFile.marked, Table.queueDirty, Table.autokeyDirty, hq, ha]
  have hcounter : ({ s with table := t } : MintFile).counter kind = s.counter kind := by
    cases kind <;> simp [MintFile.counter, hq, ha]
  refine h.quiet (by rw [hq]; exact h.legible) (fun hm => hmarked.trans hm) ?_
  intro counter hc
  rw [hcounter] at hc
  exact Or.inr ⟨counter, hc, le_refl _⟩

theorem Ahead.attach (h : Ahead .queue ns s) :
    Ahead .queue ns { s with table := s.table.attachQueue s.persistedQueue } := by
  cases hq : s.table.queue with
  | some q =>
    have hsame : s.table.attachQueue s.persistedQueue = s.table := by simp [Table.attachQueue, hq]
    rw [hsame]
    exact h
  | none =>
    have ht : s.table.attachQueue s.persistedQueue =
        { s.table with queue := some (QueueState.attach s.table.records s.persistedQueue) } := by
      simp [Table.attachQueue, hq]
    have hclean : s.marked .queue = false := by simp [MintFile.marked, Table.queueDirty, hq]
    rw [ht]
    refine h.quiet ?_ (fun hm => by rw [hclean] at hm; cases hm) ?_
    · intro q hq'
      cases hq'
      exact legible_attach _ _
    · intro counter hc
      cases hc
      exact Or.inl ⟨Sequence.next_le_foldl_raisePast _
        (Sequence.restored s.persistedQueue.nextSequence s.persistedQueue.next_le), hclean⟩

theorem Ahead.reconcile (h : Ahead .queue ns s) :
    Ahead .queue ns { s with table := s.table.reconcileQueue } := by
  cases hq : s.table.queue with
  | none =>
    have hsame : s.table.reconcileQueue = s.table := by
      simp only [Table.reconcileQueue, hq, Option.map_none]
      rw [← hq]
    rw [hsame]
    exact h
  | some q =>
    have ht : s.table.reconcileQueue =
        { s.table with queue := some (q.reconcile s.table.records) } := by
      simp [Table.reconcileQueue, hq]
    rw [ht]
    refine h.quiet ?_ (fun _ => by simp [MintFile.marked, Table.queueDirty, QueueState.isDirty,
      QueueState.reconcile]) ?_
    · intro q' hq'
      cases hq'
      obtain ⟨hcount, hdue⟩ := h.legible q hq
      constructor
      · intro k n hn
        simp only [QueueState.reconcile, getElem?_retain] at hn
        split at hn
        · exact hcount k n hn
        · cases hn
      · intro k m hm
        simp only [QueueState.reconcile, getElem?_retain] at hm
        split at hm
        · exact hdue k m hm
        · cases hm
    · intro counter hc
      cases hc
      exact Or.inr ⟨q.sequence, by simp [MintFile.counter, hq],
        Sequence.next_le_foldl_raisePast _ _⟩

/-- A mint adds its number to those behind the counter. -/
theorem Ahead.minted (h : Ahead kind ns s) {t : Table} {counter : Sequence} (now : Nat)
    (hm : s.minter kind = some counter) (hq : ∀ q, t.queue = some q → Legible q)
    (hc : ({ s with table := t } : MintFile).counter kind = some (counter.mint now).2)
    (hmarked : ({ s with table := t } : MintFile).marked kind = true) :
    Ahead kind (ns ++ [counter.upcoming now]) { s with table := t } := by
  refine ⟨hq, ?_, ?_⟩
  · intro c hc' n hn
    obtain rfl : (counter.mint now).2 = c := by simpa [hc] using hc'
    rcases List.mem_append.mp hn with hn | hn
    · exact (h.minter hm n hn).mint now
    · rw [List.mem_singleton.mp hn]
      exact past_upcoming counter now
  · intro hclean
    rw [hmarked] at hclean
    cases hclean

theorem flush_counter {counter : Sequence} (h : s.flush.counter kind = some counter) :
    ∃ before, s.counter kind = some before ∧ before.next = counter.next := by
  cases kind with
  | queue =>
    cases hq : s.table.queue with
    | none => simp [MintFile.counter, MintFile.flush, hq, Table.clearDirty] at h
    | some q =>
      refine ⟨q.sequence, by simp [MintFile.counter, hq], ?_⟩
      cases hd : q.isDirty <;>
        simp [MintFile.counter, MintFile.flush, hq, hd, Table.clearDirty] at h <;> rw [← h]
      rfl
  | autokey =>
    cases ha : s.table.autokey with
    | none => simp [MintFile.counter, MintFile.flush, ha, Table.clearDirty] at h
    | some c =>
      refine ⟨c, by simp [MintFile.counter, ha], ?_⟩
      cases hd : c.dirty <;>
        simp [MintFile.counter, MintFile.flush, ha, hd, Table.clearDirty] at h <;> rw [← h]

/-- After a flush the disk holds the counter, unless it did already. -/
theorem flush_written (kind : MintKind) (h : ∀ q, s.table.queue = some q → Legible q) :
    (s.marked kind = false ∧ s.flush.written kind = s.written kind) ∨
      ∃ counter, s.counter kind = some counter ∧ s.flush.written kind = counter.next := by
  cases kind with
  | queue =>
    cases hq : s.table.queue with
    | none =>
      exact Or.inl ⟨by simp [MintFile.marked, Table.queueDirty, hq],
        by simp [MintFile.written, MintFile.persistedQueue, MintFile.flush, hq]⟩
    | some q =>
      cases hd : q.isDirty with
      | false =>
        exact Or.inl ⟨by simp [MintFile.marked, Table.queueDirty, hq, hd],
          by simp [MintFile.written, MintFile.persistedQueue, MintFile.flush, hq, hd]⟩
      | true =>
        refine Or.inr ⟨q.sequence, by simp [MintFile.counter, hq], ?_⟩
        simp only [MintFile.written, MintFile.persistedQueue, MintFile.flush, hq, hd, if_true,
          readState_toPersisted (h q hq), Option.getD_some]
        rfl
  | autokey =>
    cases ha : s.table.autokey with
    | none =>
      exact Or.inl ⟨by simp [MintFile.marked, Table.autokeyDirty, ha],
        by simp [MintFile.written, MintFile.flush, ha]⟩
    | some c =>
      cases hd : c.dirty with
      | false =>
        exact Or.inl ⟨by simp [MintFile.marked, Table.autokeyDirty, ha, hd],
          by simp [MintFile.written, MintFile.flush, ha, hd]⟩
      | true =>
        refine Or.inr ⟨c, by simp [MintFile.counter, ha], ?_⟩
        simp only [MintFile.written, MintFile.flush, ha, hd, if_true,
          readAutokey_writeAutokey c.next_le, Option.getD_some]

theorem flush_legible (h : ∀ q, s.table.queue = some q → Legible q) :
    ∀ q, s.flush.table.queue = some q → Legible q := by
  intro q hq
  cases hq₀ : s.table.queue with
  | none => simp [MintFile.flush, hq₀, Table.clearDirty] at hq
  | some q₀ =>
    have hl := h q₀ hq₀
    simp only [MintFile.flush, hq₀, Table.clearDirty] at hq
    split at hq
    · cases hq
      exact hl
    · cases hq
      exact hl

/-- What is on disk after a flush is past everything minted. -/
theorem Ahead.flushed (h : Ahead kind ns s) : ∀ n ∈ ns, Past n (s.flush.written kind) := by
  intro n hn
  rcases flush_written kind h.legible with ⟨hclean, hw⟩ | ⟨counter, hc, hw⟩
  · rw [hw]
    exact h.disk hclean n hn
  · rw [hw]
    exact h.memory counter hc n hn

theorem Ahead.flush (h : Ahead kind ns s) : Ahead kind ns s.flush := by
  refine ⟨flush_legible h.legible, ?_, fun _ => h.flushed⟩
  intro counter hc n hn
  obtain ⟨before, hb, hnext⟩ := flush_counter hc
  rw [← hnext]
  exact h.memory before hb n hn

theorem Ahead.reload (h : Ahead kind ns s) : Ahead kind ns s.reload := by
  have hnone : ∀ counter, s.reload.counter kind ≠ some counter := by
    intro counter hc
    cases kind <;> cases hc
  have hwritten : s.reload.written kind = s.flush.written kind := by cases kind <;> rfl
  refine ⟨fun q hq => (by cases hq), fun counter hc => absurd hc (hnone counter), fun _ => ?_⟩
  rw [hwritten]
  exact h.flushed

end

/-! ## One step -/

section

variable {digest : Record → String} {kind : MintKind} {name : String} {ns : List Nat}
  {s s' : MintFile}

theorem applyChange_counters (t : Table) (change : Change) :
    (t.applyChange change).queue = t.queue ∧ (t.applyChange change).autokey = t.autokey := by
  unfold Table.applyChange
  split <;> exact ⟨rfl, rfl⟩

theorem foldl_applyChange_counters : ∀ (changes : List Change) (t : Table),
    (changes.foldl Table.applyChange t).queue = t.queue ∧
      (changes.foldl Table.applyChange t).autokey = t.autokey := by
  intro changes
  induction changes with
  | nil => intro t; exact ⟨rfl, rfl⟩
  | cons change changes ih =>
    intro t
    obtain ⟨hq, ha⟩ := ih (t.applyChange change)
    obtain ⟨hq', ha'⟩ := applyChange_counters t change
    exact ⟨hq.trans hq', ha.trans ha'⟩

theorem deleteRecord_counters (t : Table) (key : String) (isDict : Bool) (condition : Condition) :
    (t.deleteRecord digest name key isDict condition).2.queue = t.queue ∧
      (t.deleteRecord digest name key isDict condition).2.autokey = t.autokey := by
  unfold Table.deleteRecord
  split
  · split <;> exact ⟨rfl, rfl⟩
  · split <;> exact ⟨rfl, rfl⟩

/-- Past the choice of the key, a write leaves the counters alone. -/
theorem writeRecord_counters (t : Table) (key : Option String) (record : Record)
    (condition : Condition) (autokey : Bool) (persisted : Option UInt64) (now : Nat) :
    (t.writeRecord digest name key record false condition autokey persisted now).2.queue = t.queue ∧
      (t.writeRecord digest name key record false condition autokey persisted now).2.autokey =
        match t.writeKey name key autokey persisted now with
        | .error _ => t.autokey
        | .ok (_, t') => t'.autokey := by
  have hqueue : ∀ target t', t.writeKey name key autokey persisted now = .ok (target, t') →
      t'.queue = t.queue := by
    intro target t' hw
    unfold Table.writeKey at hw
    split at hw
    · cases hw
      rfl
    · split at hw
      · cases hw
      · simp only at hw
        split at hw
        · cases hw
        · simp only [Except.ok.injEq, Prod.mk.injEq] at hw
          rw [← hw.2]
          simp only [Table.attachAutokey]
          split <;> rfl
  simp only [Table.writeRecord, Bool.false_eq_true, if_false]
  cases hw : t.writeKey name key autokey persisted now with
  | error e => exact ⟨rfl, rfl⟩
  | ok r =>
    obtain ⟨target, t'⟩ := r
    simp only
    split
    · exact ⟨hqueue target t' hw, rfl⟩
    · exact ⟨hqueue target t' hw, rfl⟩

theorem writeRecord_dict_counters (t : Table) (key : Option String) (record : Record)
    (condition : Condition) (autokey : Bool) (persisted : Option UInt64) (now : Nat) :
    (t.writeRecord digest name key record true condition autokey persisted now).2.queue = t.queue ∧
      (t.writeRecord digest name key record true condition autokey persisted now).2.autokey =
        t.autokey := by
  simp only [Table.writeRecord, if_true]
  split
  · exact ⟨rfl, rfl⟩
  · split <;> exact ⟨rfl, rfl⟩

/-- A write by hand pulls the counter of an autokey file past its key. -/
theorem Ahead.raised (h : Ahead kind ns s) {t : Table} (key : String)
    (hq : t.queue = s.table.queue)
    (ha : t.autokey = s.table.autokey.map fun counter => counter.raisePast key) :
    Ahead kind ns { s with table := t } := by
  refine h.quiet (by rw [hq]; exact h.legible) ?_ ?_
  · intro hm
    cases kind with
    | queue =>
      simp only [MintFile.marked, Table.queueDirty, hq] at hm ⊢
      exact hm
    | autokey =>
      cases hc : s.table.autokey with
      | none => simp [MintFile.marked, Table.autokeyDirty, hc] at hm
      | some c =>
        have hdirty : (c.raisePast key).dirty = c.dirty := by
          unfold Sequence.raisePast
          split <;> rfl
        simp only [MintFile.marked, Table.autokeyDirty, hc] at hm
        simp [MintFile.marked, Table.autokeyDirty, ha, hc, hdirty, hm]
  · intro counter hc
    right
    cases kind with
    | queue =>
      simp only [MintFile.counter, hq] at hc
      exact ⟨counter, hc, le_refl _⟩
    | autokey =>
      simp only [MintFile.counter, ha] at hc
      obtain ⟨before, hb, rfl⟩ := Option.map_eq_some_iff.mp hc
      exact ⟨before, hb, Sequence.next_le_raisePast before key⟩

/-- What a keyless write of an autokey file mints, and the counter it leaves. -/
theorem writeKey_minted {t t' : Table} {persisted : Option UInt64} {now : Nat} {key : String}
    (h : t.writeKey name none true persisted now = .ok (key, t')) :
    ∃ counter, (t.attachAutokey persisted).autokey = some counter ∧
      key = formatKey (counter.upcoming now) ∧ t'.autokey = some (counter.mint now).2 := by
  simp only [Table.writeKey, not_true_eq_false, if_false] at h
  cases hc : (t.attachAutokey persisted).autokey with
  | none =>
    rw [hc] at h
    cases h
  | some counter =>
    rw [hc] at h
    simp only [Except.ok.injEq, Prod.mk.injEq] at h
    obtain ⟨hkey, ht⟩ := h
    exact ⟨counter, rfl, hkey.symm, by rw [← ht]⟩

/-- What ENQUEUE mints, and the order it leaves. -/
theorem enqueueDue_minted {t t' : Table} {record : Record} {due : Option Nat} {now : Nat}
    {key : String} (h : t.enqueueDue record due now = some (key, t'))
    (hfit : ∀ millis, due = some millis → millis ≤ u64Max) :
    ∃ q q', t.queue = some q ∧ t'.queue = some q' ∧ key = formatKey (q.sequence.upcoming now) ∧
      q'.sequence = (q.sequence.mint now).2 ∧ q'.isDirty = true ∧ (Legible q → Legible q') := by
  unfold Table.enqueueDue at h
  obtain ⟨q, hq, hr⟩ := Option.map_eq_some_iff.mp h
  simp only [Prod.mk.injEq] at hr
  obtain ⟨hkey, ht⟩ := hr
  have hkey : key = formatKey (q.sequence.upcoming now) := hkey.symm
  have htext : PersistedQueue.KeyText (formatKey (q.sequence.upcoming now)) :=
    Minted.keyText ⟨_, Sequence.upcoming_le _ _, rfl⟩
  cases due with
  | none =>
    refine ⟨q, (q.mint now).2.enqueue (formatKey (q.sequence.upcoming now)), hq, by rw [← ht]; rfl,
      hkey, ?_, ?_, ?_⟩
    · simp [QueueState.enqueue, QueueState.mint]
    · simp [QueueState.enqueue, QueueState.isDirty]
    · intro hl
      constructor
      · intro k n hn
        exact hl.1 k n (by simpa [QueueState.enqueue, QueueState.mint] using hn)
      · intro k m hm
        exact hl.2 k m (by simpa [QueueState.enqueue, QueueState.mint] using hm)
  | some millis =>
    refine ⟨q, (q.mint now).2.enqueueHeld (formatKey (q.sequence.upcoming now)) millis, hq,
      by rw [← ht]; rfl, hkey, ?_, ?_, ?_⟩
    · simp [QueueState.enqueueHeld, QueueState.hold, QueueState.mint]
    · simp [QueueState.enqueueHeld, QueueState.hold, QueueState.isDirty]
    · intro hl
      constructor
      · intro k n hn
        exact hl.1 k n (by simpa [QueueState.enqueueHeld, QueueState.hold, QueueState.mint] using hn)
      · intro k m hm
        simp only [QueueState.enqueueHeld, QueueState.hold, QueueState.unhold_due, QueueState.mint,
          getElem?_insert_eq] at hm
        split at hm
        · rename_i hk
          cases hm
          exact ⟨hk ▸ htext, hfit millis rfl⟩
        · exact hl.2 k m hm

/-- A step mints nothing, or it mints the upcoming number of the counter. -/
def Mints (kind : MintKind) (s : MintFile) (e : MintEvent) (number : Nat) : Prop :=
  e.action.mints kind = true ∧ ∃ counter, s.minter kind = some counter ∧
    number = counter.upcoming e.reading ∧ e.minted = some (formatKey number)

theorem Ahead.enqueue (h : Ahead .queue ns s) {record : Record} {due : Option Nat} {now : Nat}
    {key : String} {t : Table} (hstep : s.table.enqueueDue record due now = some (key, t))
    (hfit : ∀ millis, due = some millis → millis ≤ u64Max) :
    ∃ counter, s.minter .queue = some counter ∧ key = formatKey (counter.upcoming now) ∧
      Ahead .queue (ns ++ [counter.upcoming now]) { s with table := t } := by
  obtain ⟨q, q', hq, hq', hkey, hseq, hdirty, hlegible⟩ := enqueueDue_minted hstep hfit
  have hminter : s.minter .queue = some q.sequence := by simp [MintFile.minter, hq]
  refine ⟨q.sequence, hminter, hkey, h.minted now hminter ?_ ?_ ?_⟩
  · intro q'' hq''
    rw [hq', Option.some.injEq] at hq''
    rw [← hq'']
    exact hlegible (h.legible q hq)
  · simp [MintFile.counter, hq', hseq]
  · simp [MintFile.marked, Table.queueDirty, hq', hdirty]

theorem Ahead.writeKeyless (h : Ahead .autokey ns s) {record : Record} {condition : Condition}
    {now : Nat} {key : String} {t : Table}
    (hkey : s.table.writeKey name none true s.persistedCounter now = .ok (key, t)) :
    ∃ counter, s.minter .autokey = some counter ∧ key = formatKey (counter.upcoming now) ∧
      Ahead .autokey (ns ++ [counter.upcoming now]) { s with
        table := (s.table.writeRecord digest name none record false condition true
          s.persistedCounter now).2 } := by
  obtain ⟨counter, hc, htext, ht⟩ := writeKey_minted hkey
  obtain ⟨hq, ha⟩ := @writeRecord_counters digest name s.table none record condition true
    s.persistedCounter now
  rw [hkey] at ha
  simp only [ht] at ha
  refine ⟨counter, hc, htext, h.minted now hc ?_ ?_ ?_⟩
  · rw [hq]
    exact h.legible
  · simp only [MintFile.counter, ha]
  · simp only [MintFile.marked, Table.autokeyDirty, ha]
    rfl

/-- The write actions, by whether they mint. -/
theorem Ahead.write (h : Ahead kind ns s) {e : MintEvent} {key : Option String} {record : Record}
    {isDict : Bool} {condition : Condition} (he : e.action = .write key record isDict condition)
    (hstep : e.action.perform digest kind name s e.reading = some (e.minted, s')) :
    e.minted = none ∧ Ahead kind ns s' ∨
      ∃ number, Mints kind s e number ∧ Ahead kind (ns ++ [number]) s' := by
  rw [he] at hstep
  cases isDict with
  | true =>
    left
    obtain ⟨hq, ha⟩ := @writeRecord_dict_counters digest name s.table key record condition
      (kind = .autokey) s.persistedCounter e.reading
    have hs := h.same hq ha
    cases kind <;>
    · simp only [MintAction.perform, Option.some.injEq, Prod.mk.injEq] at hstep
      obtain ⟨hm, rfl⟩ := hstep
      refine ⟨?_, hs⟩
      rw [← hm]
  | false =>
    obtain ⟨hq, ha⟩ := @writeRecord_counters digest name s.table key record condition
      (kind = .autokey) s.persistedCounter e.reading
    cases key with
    | some key =>
      left
      have hs := h.raised key hq ha
      cases kind <;>
      · simp only [MintAction.perform, Option.some.injEq, Prod.mk.injEq] at hstep
        obtain ⟨hm, rfl⟩ := hstep
        exact ⟨hm.symm, hs⟩
    | none =>
      cases kind with
      | queue =>
        left
        have hs := h.same hq ha
        simp only [MintAction.perform, Option.some.injEq, Prod.mk.injEq] at hstep
        obtain ⟨hm, rfl⟩ := hstep
        exact ⟨hm.symm, hs⟩
      | autokey =>
        simp only [MintAction.perform, Option.some.injEq, Prod.mk.injEq] at hstep
        obtain ⟨hm, rfl⟩ := hstep
        cases hw : s.table.writeKey name none true s.persistedCounter e.reading with
        | error err =>
          left
          simp only [decide_true] at hm ha hq ⊢
          rw [hw] at hm ha
          exact ⟨hm.symm, h.same hq ha⟩
        | ok r =>
          obtain ⟨minted, t⟩ := r
          right
          simp only [decide_true] at hm ⊢
          rw [hw] at hm
          obtain ⟨counter, hc, hkey, hahead⟩ :=
            @Ahead.writeKeyless digest name ns s h record condition e.reading minted t hw
          refine ⟨_, ⟨?_, counter, hc, rfl, ?_⟩, hahead⟩
          · rw [he]
            rfl
          · rw [← hm, hkey]

/-- One step keeps the counter ahead of everything minted, its own number included. -/
theorem Ahead.step (h : Ahead kind ns s) {e : MintEvent} (hfit : e.TimesFit)
    (hstep : e.action.perform digest kind name s e.reading = some (e.minted, s')) :
    e.minted = none ∧ Ahead kind ns s' ∨
      ∃ number, Mints kind s e number ∧ Ahead kind (ns ++ [number]) s' := by
  cases he : e.action with
  | write key record isDict condition => exact h.write he hstep
  | enqueue record due =>
    rw [he] at hstep
    cases kind with
    | autokey => cases hstep
    | queue =>
      right
      obtain ⟨r, hr, hs⟩ := Option.map_eq_some_iff.mp hstep
      simp only [Prod.mk.injEq] at hs
      obtain ⟨hm, rfl⟩ := hs
      obtain ⟨counter, hc, hkey, hahead⟩ := h.enqueue hr fun millis hmillis =>
        hfit record millis (by rw [he, hmillis])
      refine ⟨_, ⟨?_, counter, hc, rfl, ?_⟩, hahead⟩
      · rw [he]
        rfl
      · rw [← hm, hkey]
  | attach =>
    rw [he] at hstep
    cases kind with
    | autokey => cases hstep
    | queue =>
      simp only [MintAction.perform, Option.some.injEq, Prod.mk.injEq] at hstep
      obtain ⟨hm, rfl⟩ := hstep
      exact Or.inl ⟨hm.symm, h.attach⟩
  | reconcile =>
    rw [he] at hstep
    cases kind with
    | autokey => cases hstep
    | queue =>
      simp only [MintAction.perform, Option.some.injEq, Prod.mk.injEq] at hstep
      obtain ⟨hm, rfl⟩ := hstep
      exact Or.inl ⟨hm.symm, h.reconcile⟩
  | transact changes =>
    rw [he] at hstep
    cases kind with
    | queue => cases hstep
    | autokey =>
      simp only [MintAction.perform, Option.some.injEq, Prod.mk.injEq] at hstep
      obtain ⟨hm, rfl⟩ := hstep
      obtain ⟨hq, ha⟩ := foldl_applyChange_counters
        (changes.filter fun change => change.file = name) s.table
      exact Or.inl ⟨hm.symm, h.same hq ha⟩
  | delete key isDict condition =>
    rw [he] at hstep
    obtain ⟨hq, ha⟩ := @deleteRecord_counters digest name s.table key isDict condition
    have hs := h.same hq ha
    cases kind <;>
    · simp only [MintAction.perform, Option.some.injEq, Prod.mk.injEq] at hstep
      obtain ⟨hm, rfl⟩ := hstep
      exact Or.inl ⟨hm.symm, hs⟩
  | flush =>
    rw [he] at hstep
    have hs := h.flush
    cases kind <;>
    · simp only [MintAction.perform, Option.some.injEq, Prod.mk.injEq] at hstep
      obtain ⟨hm, rfl⟩ := hstep
      exact Or.inl ⟨hm.symm, hs⟩
  | reload =>
    rw [he] at hstep
    have hs := h.reload
    cases kind <;>
    · simp only [MintAction.perform, Option.some.injEq, Prod.mk.injEq] at hstep
      obtain ⟨hm, rfl⟩ := hstep
      exact Or.inl ⟨hm.symm, hs⟩

end

/-! ## What the counter does not cover -/

theorem past_satAdd {n : Nat} (h : n ≤ u64Max) : Past n (satAdd n 1) := by
  unfold Past satAdd
  omega

theorem keySequence_le {key : String} {n : Nat} (h : keySequence key = some n) : n ≤ u64Max := by
  unfold keySequence at h
  split at h
  · cases h
  · exact parseU64_le h

/-- Every twenty-digit key in the file is behind the counter in memory, but for those left there. -/
def Covered (kind : MintKind) (left : List String) (s : MintFile) : Prop :=
  ∀ counter, s.counter kind = some counter → ∀ key n, key ∈ s.table.records →
    keySequence key = some n → Past n counter.next ∨ key ∈ left

theorem past_foldl_raisePast {keys : List String} {key : String} {n : Nat} (hin : key ∈ keys)
    (hkey : keySequence key = some n) (counter : Sequence) :
    Past n (keys.foldl Sequence.raisePast counter).next :=
  (past_satAdd (keySequence_le hkey)).mono
    (Sequence.satAdd_le_foldl_raisePast hkey keys counter hin)
    (keys.foldl Sequence.raisePast counter).next_le

section

variable {digest : Record → String} {kind : MintKind} {name : String} {left more : List String}
  {s s' : MintFile}

/-- A step that moves the counter forward, if at all. What it adds to the records is behind the
counter, or it is left there. -/
theorem Covered.grow (h : Covered kind left s)
    (hcounter : ∀ counter, s'.counter kind = some counter →
      ∃ before, s.counter kind = some before ∧ before.next ≤ counter.next)
    (hrecords : ∀ key ∈ s'.table.records, key ∈ s.table.records ∨
      ∀ counter n, s'.counter kind = some counter → keySequence key = some n →
        Past n counter.next ∨ key ∈ more) :
    Covered kind (left ++ more) s' := by
  intro counter hc key n hin hkey
  rcases hrecords key hin with hold | hnew
  · obtain ⟨before, hb, hle⟩ := hcounter counter hc
    rcases h before hb key n hold hkey with hpast | hleft
    · exact Or.inl (hpast.mono hle counter.next_le)
    · exact Or.inr (List.mem_append_left _ hleft)
  · rcases hnew counter n hc hkey with hpast | hmore
    · exact Or.inl hpast
    · exact Or.inr (List.mem_append_right _ hmore)

/-- A counter that has just been pulled past every key in the file. -/
theorem covered_of_swept (start : Sequence)
    (hc : ∀ counter, s.counter kind = some counter →
      counter = s.table.records.keys.foldl Sequence.raisePast start) : Covered kind left s := by
  intro counter hcounter key n hin hkey
  rw [hc counter hcounter]
  exact Or.inl (past_foldl_raisePast (Std.ExtTreeMap.mem_keys.mpr hin) hkey start)

/-- Nothing attached, nothing to fall behind. -/
theorem covered_of_detached (h : s.counter kind = none) : Covered kind left s := by
  intro counter hc
  rw [h] at hc
  cases hc

theorem Covered.weaken (h : Covered kind left s) : Covered kind (left ++ more) s :=
  fun counter hc key n hin hkey => (h counter hc key n hin hkey).imp_right
    (List.mem_append_left _)

/-- A step that leaves the counter alone and adds no key. -/
theorem Covered.still (h : Covered kind left s) (hcounter : s'.counter kind = s.counter kind)
    (hrecords : ∀ key ∈ s'.table.records, key ∈ s.table.records) :
    Covered kind (left ++ more) s' :=
  h.grow (fun counter hc => ⟨counter, hcounter ▸ hc, le_refl _⟩)
    fun key hin => Or.inl (hrecords key hin)

/-- The counter a key would be minted from covers the file, too. -/
theorem Covered.minter (h : Covered kind left s) {counter : Sequence}
    (hm : s.minter kind = some counter) {key : String} {n : Nat} (hin : key ∈ s.table.records)
    (hkey : keySequence key = some n) : Past n counter.next ∨ key ∈ left := by
  cases kind with
  | queue => exact h counter hm key n hin hkey
  | autokey =>
    cases ha : s.table.autokey with
    | some c =>
      simp only [MintFile.minter, attachAutokey_of_some ha] at hm
      exact h counter hm key n hin hkey
    | none =>
      simp only [MintFile.minter, Table.attachAutokey, ha, Option.some.injEq] at hm
      rw [← hm]
      exact Or.inl (past_foldl_raisePast (Std.ExtTreeMap.mem_keys.mpr hin) hkey _)

/-! ## One step keeps the file covered -/

theorem mem_insertRecord {t : Table} {key k : String} {record : Record}
    (h : k ∈ (t.insertRecord key record).records) : k = key ∨ k ∈ t.records := by
  rcases Std.ExtTreeMap.mem_insert.mp h with heq | hin
  · exact Or.inl (Std.LawfulEqCmp.eq_of_compare heq).symm
  · exact Or.inr hin

theorem mem_removeRecord {t : Table} {key k : String}
    (h : k ∈ (t.removeRecord key).2.records) : k ∈ t.records :=
  (Std.ExtTreeMap.mem_erase.mp h).2

theorem mem_applyChange {t : Table} {change : Change} {k : String}
    (h : k ∈ (t.applyChange change).records) : k ∈ t.records ∨ change.written = some k := by
  obtain ⟨file, key, isDict, op⟩ := change
  cases op with
  | write record =>
    cases isDict with
    | false =>
      rcases mem_insertRecord h with rfl | hin
      · exact Or.inr rfl
      · exact Or.inl hin
    | true => exact Or.inl h
  | delete =>
    cases isDict with
    | false => exact Or.inl (mem_removeRecord h)
    | true => exact Or.inl h

theorem mem_foldl_applyChange {k : String} : ∀ (changes : List Change) {t : Table},
    k ∈ (changes.foldl Table.applyChange t).records →
      k ∈ t.records ∨ k ∈ changes.filterMap Change.written := by
  intro changes
  induction changes with
  | nil => exact fun h => Or.inl h
  | cons change changes ih =>
    intro t h
    rw [List.filterMap_cons]
    rcases ih h with hin | hin
    · rcases mem_applyChange hin with hin | hwritten
      · exact Or.inl hin
      · rw [hwritten]
        exact Or.inr List.mem_cons_self
    · right
      split
      · exact hin
      · exact List.mem_cons_of_mem _ hin

theorem mem_deleteRecord {t : Table} {key k : String} {isDict : Bool} {condition : Condition}
    (h : k ∈ (t.deleteRecord digest name key isDict condition).2.records) : k ∈ t.records := by
  unfold Table.deleteRecord at h
  split at h
  · split at h <;> exact h
  · split at h
    · exact h
    · exact mem_removeRecord h

/-- A write adds the key it goes under, if any. -/
theorem mem_writeRecord {t : Table} {key : Option String} {record : Record} {condition : Condition}
    {autokey : Bool} {persisted : Option UInt64} {now : Nat} {k : String}
    (h : k ∈ (t.writeRecord digest name key record false condition autokey persisted
      now).2.records) :
    k ∈ t.records ∨ ∃ t', t.writeKey name key autokey persisted now = .ok (k, t') := by
  have hrecords : ∀ target t', t.writeKey name key autokey persisted now = .ok (target, t') →
      t'.records = t.records := by
    intro target t' hw
    unfold Table.writeKey at hw
    split at hw
    · cases hw
      rfl
    · split at hw
      · cases hw
      · simp only at hw
        split at hw
        · cases hw
        · simp only [Except.ok.injEq, Prod.mk.injEq] at hw
          rw [← hw.2]
          simp only [Table.attachAutokey]
          split <;> rfl
  simp only [Table.writeRecord, Bool.false_eq_true, if_false] at h
  cases hw : t.writeKey name key autokey persisted now with
  | error e =>
    rw [hw] at h
    exact Or.inl h
  | ok r =>
    obtain ⟨target, t'⟩ := r
    rw [hw] at h
    simp only at h
    have hsame := hrecords target t' hw
    split at h
    · exact Or.inl (hsame ▸ h)
    · rcases mem_insertRecord h with rfl | hin
      · exact Or.inr ⟨t', rfl⟩
      · exact Or.inl (hsame ▸ hin)

/-- A key at or past the counter is left there; any other is behind it. -/
theorem past_or_isPast {counter : Sequence} {key : String} {n : Nat}
    (hc : s.counter kind = some counter) (hkey : keySequence key = some n) :
    Past n counter.next ∨ s.isPast kind key = true := by
  simp only [MintFile.isPast, hc, hkey, decide_eq_true_eq]
  unfold Past
  omega

/-- ENQUEUE puts its record behind the order. -/
theorem Covered.enqueue (h : Covered .queue left s) {record : Record} {due : Option Nat} {now : Nat}
    {key : String} {t : Table} (hstep : s.table.enqueueDue record due now = some (key, t))
    (hfit : ∀ millis, due = some millis → millis ≤ u64Max) :
    Covered .queue (left ++ more) { s with table := t } := by
  obtain ⟨q, q', hq, hq', hkey, hseq, -, -⟩ := enqueueDue_minted hstep hfit
  have hcounter : ({ s with table := t } : MintFile).counter .queue =
      some (q.sequence.mint now).2 := by
    simp [MintFile.counter, hq', hseq]
  have hbefore : s.counter .queue = some q.sequence := by simp [MintFile.counter, hq]
  refine h.grow (fun counter hc => ⟨q.sequence, hbefore, ?_⟩) fun k hin => ?_
  · obtain rfl : (q.sequence.mint now).2 = counter := by simpa [hcounter] using hc
    have hle := Sequence.next_le_upcoming q.sequence now
    have hmax := Sequence.upcoming_le q.sequence now
    rw [Sequence.mint_next]
    unfold satAdd
    omega
  · have hrecords : t.records = (s.table.records.insert key record) := by
      simp only [Table.enqueueDue, hq, Option.map_some, Option.some.injEq, Prod.mk.injEq] at hstep
      rw [← hstep.1, ← hstep.2]
      rfl
    have hin : k ∈ t.records := hin
    rw [hrecords] at hin
    rcases Std.ExtTreeMap.mem_insert.mp hin with heq | hin
    · right
      intro counter n hc hn
      obtain rfl : key = k := Std.LawfulEqCmp.eq_of_compare heq
      obtain rfl : (q.sequence.mint now).2 = counter := by simpa [hcounter] using hc
      rw [hkey, keySequence_formatKey (Sequence.upcoming_le _ _), Option.some.injEq] at hn
      exact Or.inl (hn ▸ past_upcoming q.sequence now)
    · exact Or.inl hin

/-- A write that names its key: behind the counter of an autokey file once that is pulled past it,
and left past a queue's where it is. -/
theorem Covered.writeKeyed (h : Covered kind left s) (key : String) (record : Record)
    (condition : Condition) (now : Nat) :
    Covered kind
      (left ++ (MintAction.write (some key) record false condition).leaves kind name s)
      { s with
        table := (s.table.writeRecord digest name (some key) record false condition
          (kind = .autokey) s.persistedCounter now).2 } := by
  obtain ⟨hq, ha⟩ := @writeRecord_counters digest name s.table (some key) record condition
    (kind = .autokey) s.persistedCounter now
  simp only [Table.writeKey] at ha
  have hadded : ∀ k ∈ (s.table.writeRecord digest name (some key) record false condition
      (kind = .autokey) s.persistedCounter now).2.records, k ∈ s.table.records ∨ k = key := by
    intro k hin
    refine (mem_writeRecord hin).imp_right fun hw => ?_
    obtain ⟨t', hw⟩ := hw
    cases hw
    rfl
  cases kind with
  | queue =>
    have hcounter : ({ s with
        table := (s.table.writeRecord digest name (some key) record false condition
          (MintKind.queue = .autokey) s.persistedCounter now).2 } : MintFile).counter .queue =
        s.counter .queue := by
      simp only [MintFile.counter, hq]
    refine h.grow (fun counter hc => ⟨counter, hcounter ▸ hc, le_refl _⟩) fun k hin => ?_
    refine (hadded k hin).imp_right fun hk counter n hc hn => ?_
    rw [hcounter] at hc
    refine (past_or_isPast hc hn).imp_right fun hpast => ?_
    rw [hk] at hpast ⊢
    simp [MintAction.leaves, hpast]
  | autokey =>
    refine h.grow (fun counter hc => ?_) fun k hin => ?_
    · obtain ⟨before, hb, rfl⟩ := Option.map_eq_some_iff.mp (ha.symm.trans hc)
      exact ⟨before, hb, Sequence.next_le_raisePast before key⟩
    · refine (hadded k hin).imp_right fun hk counter n hc hn => Or.inl ?_
      obtain ⟨before, -, rfl⟩ := Option.map_eq_some_iff.mp (ha.symm.trans hc)
      rw [hk] at hn
      exact past_foldl_raisePast (List.mem_singleton.mpr rfl) hn before

/-- A keyless write of an autokey file, minted or refused. -/
theorem Covered.writeKeyless (h : Covered .autokey left s) (record : Record)
    (condition : Condition) (now : Nat) :
    Covered .autokey (left ++ more) { s with
      table := (s.table.writeRecord digest name none record false condition true
        s.persistedCounter now).2 } := by
  obtain ⟨-, ha⟩ := @writeRecord_counters digest name s.table none record condition true
    s.persistedCounter now
  cases hw : s.table.writeKey name none true s.persistedCounter now with
  | error e =>
    rw [hw] at ha
    refine h.still (by simp only [MintFile.counter, ha]) fun k hin => ?_
    refine (mem_writeRecord hin).resolve_right fun hminted => ?_
    obtain ⟨t', ht'⟩ := hminted
    rw [hw] at ht'
    cases ht'
  | ok r =>
    obtain ⟨key, t⟩ := r
    obtain ⟨counter, hminter, hkey, ht⟩ := writeKey_minted hw
    rw [hw] at ha
    simp only [ht] at ha
    intro counter' hc k n hin hn
    simp only [MintFile.counter, ha, Option.some.injEq] at hc
    rw [← hc]
    rcases mem_writeRecord hin with hold | ⟨t', ht'⟩
    · exact (h.minter hminter hold hn).imp (Past.mint · now) (List.mem_append_left _)
    · rw [hw] at ht'
      cases ht'
      rw [hkey, keySequence_formatKey (Sequence.upcoming_le _ _), Option.some.injEq] at hn
      exact Or.inl (hn ▸ past_upcoming counter now)

/-- A write of any kind. -/
theorem Covered.write (h : Covered kind left s) {key : Option String} {record : Record}
    {isDict : Bool} {condition : Condition} {now : Nat} {minted : Option String}
    (hstep : (MintAction.write key record isDict condition).perform digest kind name s now =
      some (minted, s')) :
    Covered kind (left ++ (MintAction.write key record isDict condition).leaves kind name s) s' := by
  have hs' : s' = { s with
      table := (s.table.writeRecord digest name key record isDict condition (kind = .autokey)
        s.persistedCounter now).2 } := by
    cases kind <;>
    · simp only [MintAction.perform, Option.some.injEq, Prod.mk.injEq] at hstep
      exact hstep.2.symm
  subst hs'
  cases isDict with
  | true =>
    obtain ⟨hq, ha⟩ := @writeRecord_dict_counters digest name s.table key record condition
      (kind = .autokey) s.persistedCounter now
    refine h.still ?_ fun k hin => ?_
    · cases kind with
      | queue => simp only [MintFile.counter, hq]
      | autokey => exact ha
    · simp only [Table.writeRecord, if_true] at hin
      split at hin
      · exact hin
      · split at hin <;> exact hin
  | false =>
    cases key with
    | some key => exact h.writeKeyed key record condition now
    | none =>
      cases kind with
      | autokey => exact h.writeKeyless record condition now
      | queue => exact h.weaken

/-- One step. -/
theorem Covered.step (h : Covered kind left s) {e : MintEvent} (hfit : e.TimesFit)
    (hstep : e.action.perform digest kind name s e.reading = some (e.minted, s')) :
    Covered kind (left ++ e.action.leaves kind name s) s' := by
  cases he : e.action with
  | write key record isDict condition =>
    rw [he] at hstep
    exact h.write hstep
  | enqueue record due =>
    rw [he] at hstep
    cases kind with
    | autokey => cases hstep
    | queue =>
      obtain ⟨r, hr, hs⟩ := Option.map_eq_some_iff.mp hstep
      simp only [Prod.mk.injEq] at hs
      obtain ⟨-, rfl⟩ := hs
      exact h.enqueue hr fun millis hmillis => hfit record millis (by rw [he, hmillis])
  | attach =>
    rw [he] at hstep
    cases kind with
    | autokey => cases hstep
    | queue =>
      simp only [MintAction.perform, Option.some.injEq, Prod.mk.injEq] at hstep
      obtain ⟨-, rfl⟩ := hstep
      cases hq : s.table.queue with
      | some q =>
        have hsame : s.table.attachQueue s.persistedQueue = s.table := by
          simp [Table.attachQueue, hq]
        rw [hsame]
        exact h.weaken
      | none =>
        refine covered_of_swept (Sequence.restored s.persistedQueue.nextSequence
          s.persistedQueue.next_le) fun counter hc => ?_
        simp only [MintFile.counter, Table.attachQueue, hq, Option.map_some,
          Option.some.injEq] at hc ⊢
        exact hc.symm
  | reconcile =>
    rw [he] at hstep
    cases kind with
    | autokey => cases hstep
    | queue =>
      simp only [MintAction.perform, Option.some.injEq, Prod.mk.injEq] at hstep
      obtain ⟨-, rfl⟩ := hstep
      cases hq : s.table.queue with
      | none => exact covered_of_detached (by simp [MintFile.counter, Table.reconcileQueue, hq])
      | some q =>
        refine covered_of_swept q.sequence fun counter hc => ?_
        simp only [MintFile.counter, Table.reconcileQueue, hq, Option.map_some,
          Option.some.injEq] at hc ⊢
        exact hc.symm
  | transact changes =>
    rw [he] at hstep
    cases kind with
    | queue => cases hstep
    | autokey =>
      simp only [MintAction.perform, Option.some.injEq, Prod.mk.injEq] at hstep
      obtain ⟨-, rfl⟩ := hstep
      obtain ⟨-, ha⟩ := foldl_applyChange_counters
        (changes.filter fun change => change.file = name) s.table
      have hcounter : ({ s with
          table := (changes.filter fun change => change.file = name).foldl Table.applyChange
            s.table } : MintFile).counter .autokey = s.counter .autokey := ha
      refine h.grow (fun counter hc => ⟨counter, hcounter ▸ hc, le_refl _⟩) fun k hin => ?_
      refine (mem_foldl_applyChange _ hin).imp_right fun hwritten counter n hc hn => ?_
      rw [hcounter] at hc
      exact (past_or_isPast hc hn).imp_right fun hpast => List.mem_filter.mpr ⟨hwritten, hpast⟩
  | delete key isDict condition =>
    rw [he] at hstep
    obtain ⟨hq, ha⟩ := @deleteRecord_counters digest name s.table key isDict condition
    have hs' : s' = { s with
        table := (s.table.deleteRecord digest name key isDict condition).2 } := by
      cases kind <;>
      · simp only [MintAction.perform, Option.some.injEq, Prod.mk.injEq] at hstep
        exact hstep.2.symm
    subst hs'
    refine h.still ?_ fun k hin => mem_deleteRecord hin
    cases kind <;> simp only [MintFile.counter, hq, ha]
  | flush =>
    rw [he] at hstep
    have hs' : s' = s.flush := by
      cases kind <;>
      · simp only [MintAction.perform, Option.some.injEq, Prod.mk.injEq] at hstep
        exact hstep.2.symm
    subst hs'
    refine h.grow (fun counter hc => ?_) fun k hin => Or.inl hin
    obtain ⟨before, hb, hnext⟩ := flush_counter hc
    exact ⟨before, hb, hnext.le⟩
  | reload =>
    rw [he] at hstep
    have hs' : s' = s.reload := by
      cases kind <;>
      · simp only [MintAction.perform, Option.some.injEq, Prod.mk.injEq] at hstep
        exact hstep.2.symm
    subst hs'
    exact covered_of_detached (by cases kind <;> rfl)

end


/-! ## Whole runs -/

section

variable {digest : Record → String} {kind : MintKind} {name : String} {ns : List Nat}
  {left left' : List String} {s s' : MintFile} {ok : List String → MintFile → MintEvent → Prop}

theorem MintRun.split {pre post : List MintEvent} :
    MintRun digest kind name ok left s (pre ++ post) left' s' →
    ∃ left₁ s₁, MintRun digest kind name ok left s pre left₁ s₁ ∧
      MintRun digest kind name ok left₁ s₁ post left' s' := by
  induction pre generalizing left s with
  | nil =>
    intro h
    exact ⟨left, s, .nil left s, h⟩
  | cons e pre ih =>
    intro h
    cases h with
    | cons hok hstep hrest =>
      obtain ⟨left₁, s₁, hpre, hpost⟩ := ih hrest
      exact ⟨left₁, s₁, .cons hok hstep hpre, hpost⟩

theorem MintRun.weaken {es : List MintEvent} (h : MintRun digest kind name ok left s es left' s') :
    MintRun digest kind name (fun _ _ _ => True) left s es left' s' := by
  induction h with
  | nil left s => exact .nil left s
  | cons _ hstep _ ih => exact .cons trivial hstep ih

/-- The counter is past what has been minted, and past every key but those left. -/
structure Guarded (kind : MintKind) (ns : List Nat) (left : List String) (s : MintFile) :
    Prop where
  ahead : Ahead kind ns s
  covered : Covered kind left s

/-- A mint that comes to no key left in its way is of a key that no record has. -/
theorem Mints.fresh {e : MintEvent} {number : Nat} (h : Mints kind s e number)
    (hclear : MintsClear kind left s e) (hcovered : Covered kind left s) :
    formatKey number ∉ s.table.records := by
  obtain ⟨hmints, counter, hc, hnumber, -⟩ := h
  obtain ⟨hlt, hnone⟩ := hclear hmints counter hc
  intro hmem
  have hmax : number ≤ u64Max := hnumber ▸ Sequence.upcoming_le counter e.reading
  have hkey := keySequence_formatKey hmax
  rcases hcovered.minter hc hmem hkey with hpast | hleft
  · have hle := Sequence.next_le_upcoming counter e.reading
    unfold Past at hpast
    omega
  · exact hnone _ hleft hmem (hnumber ▸ hkey)

/-- A mint short of `u64::MAX` is larger than everything minted before. -/
theorem Mints.larger {e : MintEvent} {number n : Nat} (h : Mints kind s e number)
    (hclear : MintsClear kind left s e) (hs : Ahead kind ns s) (hn : n ∈ ns) : n < number := by
  obtain ⟨hmints, counter, hc, hnumber, -⟩ := h
  have hlt := (hclear hmints counter hc).1
  have hle := Sequence.next_le_upcoming counter e.reading
  rcases hs.minter hc n hn with hpast | hpast
  · omega
  · omega

/-- The step of a run that minted a key. -/
theorem Ahead.mintStep {e : MintEvent} {key : String} (h : Ahead kind ns s) (hfit : e.TimesFit)
    (hstep : e.action.perform digest kind name s e.reading = some (e.minted, s'))
    (hkey : e.minted = some key) :
    ∃ number, number ≤ u64Max ∧ key = formatKey number ∧ Mints kind s e number ∧
      Ahead kind (ns ++ [number]) s' := by
  rcases h.step hfit hstep with ⟨hnone, -⟩ | ⟨number, hmints, h'⟩
  · rw [hkey] at hnone
    cases hnone
  · obtain ⟨-, counter, -, hnumber, htext⟩ := id hmints
    rw [hkey, Option.some.injEq] at htext
    exact ⟨number, hnumber ▸ Sequence.upcoming_le counter e.reading, htext, hmints, h'⟩

/-- What has been minted stays behind the counter to the end of the run, and the file covered. -/
theorem Guarded.run {es : List MintEvent} (h : Guarded kind ns left s)
    (hrun : MintRun digest kind name (fun left s e => e.TimesFit ∧ MintsClear kind left s e) left s
      es left' s') :
    ∃ ms, Guarded kind ms left' s' ∧ ∀ n ∈ ns, n ∈ ms := by
  induction hrun generalizing ns with
  | nil left s => exact ⟨ns, h, fun n hn => hn⟩
  | cons hok hstep _ ih =>
    have hcovered := h.covered.step hok.1 hstep
    rcases h.ahead.step hok.1 hstep with ⟨-, hahead⟩ | ⟨number, -, hahead⟩
    · exact ih ⟨hahead, hcovered⟩
    · obtain ⟨ms, hms, hsub⟩ := ih ⟨hahead, hcovered⟩
      exact ⟨ms, hms, fun n hn => hsub n (List.mem_append_left _ hn)⟩

/-- In every run, from a file just loaded, in which no mint comes to a key left at or past the
counter, every key minted is fresh and larger than those before it. -/
theorem minted_fresh_and_ordered {es : List MintEvent} (hqueue : s.table.queue = none)
    (hautokey : s.table.autokey = none)
    (hrun : MintRun digest kind name (fun left s e => e.TimesFit ∧ MintsClear kind left s e) [] s
      es left' s') :
    FreshAndOrdered digest kind name s es := by
  have hstart : Guarded kind [] [] s := by
    refine ⟨⟨fun q hq => ?_, fun _ _ n hn => ?_, fun _ n hn => ?_⟩, covered_of_detached ?_⟩
    · rw [hqueue] at hq
      cases hq
    · cases hn
    · cases hn
    · cases kind <;> simp [MintFile.counter, hqueue, hautokey]
  constructor
  · intro pre e post key hes hkey
    subst hes
    obtain ⟨left₁, s₁, hpre, hrest⟩ := hrun.split
    obtain ⟨ms, hs₁, -⟩ := hstart.run hpre
    cases hrest with
    | cons hok hstep _ =>
      obtain ⟨number, -, htext, hmints, -⟩ := hs₁.ahead.mintStep hok.1 hstep hkey
      rw [hkey] at hstep
      exact ⟨left₁, s₁, _, hpre.weaken, hstep, htext ▸ hmints.fresh hok.2 hs₁.covered⟩
  · intro pre e₁ mid e₂ post key₁ key₂ hes hkey₁ hkey₂
    subst hes
    obtain ⟨left₁, s₁, hpre, hrest⟩ := hrun.split
    obtain ⟨ms, hs₁, -⟩ := hstart.run hpre
    cases hrest with
    | cons hok₁ hstep₁ hrest =>
      obtain ⟨n₁, hmax₁, htext₁, -, hahead⟩ := hs₁.ahead.mintStep hok₁.1 hstep₁ hkey₁
      have hs₂ : Guarded kind _ _ _ := ⟨hahead, hs₁.covered.step hok₁.1 hstep₁⟩
      obtain ⟨left₃, s₃, hmid, hrest⟩ := hrest.split
      obtain ⟨ms₃, hs₃, hsub⟩ := hs₂.run hmid
      cases hrest with
      | cons hok₂ hstep₂ _ =>
        obtain ⟨n₂, hmax₂, htext₂, hmints₂, -⟩ := hs₃.ahead.mintStep hok₂.1 hstep₂ hkey₂
        have hlt : n₁ < n₂ := hmints₂.larger hok₂.2 hs₃.ahead
          (hsub n₁ (List.mem_append_right _ List.mem_cons_self))
        subst htext₁ htext₂
        exact ⟨formatKey_strictMono hlt hmax₂, n₁, n₂, keySequence_formatKey hmax₁,
          keySequence_formatKey hmax₂, hlt⟩

end

/-! ## Runs that can be evaluated -/

/-- A run of given events, each from a state that passes a check. -/
def mintAll (digest : Record → String) (kind : MintKind) (name : String)
    (check : List String → MintFile → MintEvent → Bool) :
    List String → MintFile → List MintEvent → Option MintFile
  | _, s, [] => some s
  | left, s, e :: es =>
    if check left s e then
      match e.action.perform digest kind name s e.reading with
      | some (minted, s') =>
        if minted = e.minted then
          mintAll digest kind name check (left ++ e.action.leaves kind name s) s' es
        else none
      | none => none
    else none

section

variable {digest : Record → String} {kind : MintKind} {name : String}

theorem mintAll_of_run {left left' : List String} {s s' : MintFile} {es : List MintEvent}
    (h : MintRun digest kind name (fun _ _ _ => True) left s es left' s') :
    mintAll digest kind name (fun _ _ _ => true) left s es = some s' := by
  induction h with
  | nil left s => rfl
  | cons _ hstep _ ih => simp only [mintAll, if_true, hstep, ih]

theorem mintRun_of_all {check : List String → MintFile → MintEvent → Bool}
    {ok : List String → MintFile → MintEvent → Prop} :
    ∀ {es : List MintEvent} {left : List String} {s s' : MintFile},
    (∀ left s e, e ∈ es → check left s e = true → ok left s e) →
    mintAll digest kind name check left s es = some s' →
    ∃ left', MintRun digest kind name ok left s es left' s' := by
  intro es
  induction es with
  | nil =>
    intro left s s' _ h
    cases h
    exact ⟨left, .nil left s⟩
  | cons e es ih =>
    intro left s s' hok h
    simp only [mintAll] at h
    split at h
    · rename_i hcheck
      split at h
      · rename_i minted s₁ hstep
        split at h
        · rename_i hm
          rw [hm] at hstep
          obtain ⟨left', hrest⟩ := ih
            (fun left s e he => hok left s e (List.mem_cons_of_mem _ he)) h
          exact ⟨left', .cons (hok left s e List.mem_cons_self hcheck) hstep hrest⟩
        · cases h
      · cases h
    · cases h

end

/-- `MintsClear`, whatever the action. -/
def clearNow (kind : MintKind) (left : List String) (s : MintFile) (e : MintEvent) : Bool :=
  match s.minter kind with
  | none => true
  | some counter =>
    counter.next < u64Max && left.all fun key =>
      !s.table.records.contains key || keySequence key ≠ some (counter.upcoming e.reading)

theorem mintsClear_of_now {kind : MintKind} {left : List String} {s : MintFile} {e : MintEvent}
    (h : clearNow kind left s e = true) : MintsClear kind left s e := by
  intro _ counter hc
  simp only [clearNow, hc, Bool.and_eq_true, decide_eq_true_eq, List.all_eq_true,
    Bool.or_eq_true, Bool.not_eq_true'] at h
  refine ⟨h.1, fun key hleft hmem => ?_⟩
  refine (h.2 key hleft).resolve_left fun habsent => ?_
  rw [Std.ExtTreeMap.contains_iff_mem.mpr hmem] at habsent
  cases habsent

/-- A file with nothing in it. -/
def emptyFile : MintFile := { table := {} }

def keylessWrite (reading : Nat) (key : String) : MintEvent :=
  { reading := reading, action := .write none { fields := [] } false .always, minted := some key }

/-- A transaction writes the next key the counter will mint. -/
def transactNext : MintEvent :=
  { reading := 5
    action := .transact [{
      file := "F", key := "00000000000005000001", isDict := false, op := .write { fields := [] } }]
    minted := none }

/-- A transaction leaves a record where the counter stands, but the clock moves on before the next
mint; then a key is chosen by hand, the file is reloaded and the clock goes back. -/
def handWriteRun : List MintEvent :=
  [keylessWrite 5 "00000000000005000000",
    transactNext,
    keylessWrite 6 "00000000000006000000",
    { reading := 6, action := .write (some "00000000000006000003") { fields := [] } false .always,
      minted := none },
    keylessWrite 6 "00000000000006000004",
    { reading := 6, action := .reload, minted := none },
    keylessWrite 4 "00000000000006000005"]

theorem minted_over_hand_write :
    FreshAndOrdered (fun _ => "") .autokey "F" emptyFile handWriteRun := by
  have hall : ((mintAll (fun _ => "") .autokey "F" (clearNow .autokey) [] emptyFile
      handWriteRun).isSome) = true := by
    decide +kernel
  obtain ⟨s, hs⟩ := Option.isSome_iff_exists.mp hall
  have hfit : ∀ e ∈ handWriteRun, e.TimesFit := by
    intro e he record millis hc
    simp only [handWriteRun, keylessWrite, transactNext, List.mem_cons, List.not_mem_nil,
      or_false] at he
    rcases he with rfl | rfl | rfl | rfl | rfl | rfl | rfl <;> cases hc
  obtain ⟨left', hrun⟩ := mintRun_of_all
    (fun left s e he hcheck => (⟨hfit e he, mintsClear_of_now hcheck⟩ :
      e.TimesFit ∧ MintsClear .autokey left s e)) hs
  exact minted_fresh_and_ordered rfl rfl hrun

/-- The same transaction, and the clock stands still. -/
def transactRun : List MintEvent :=
  [keylessWrite 5 "00000000000005000000", transactNext, keylessWrite 5 "00000000000005000001"]

theorem transact_then_minted_again :
    ∃ left s, MintRun (fun _ => "") .autokey "F" (fun _ _ e => e.TimesFit) [] emptyFile transactRun
        left s ∧
      ¬ FreshAndOrdered (fun _ => "") .autokey "F" emptyFile transactRun := by
  have hall : ((mintAll (fun _ => "") .autokey "F" (fun _ _ _ => true) [] emptyFile
      transactRun).isSome) = true := by
    decide +kernel
  obtain ⟨s, hs⟩ := Option.isSome_iff_exists.mp hall
  have hfit : ∀ e ∈ transactRun, e.TimesFit := by
    intro e he record millis hc
    simp only [transactRun, keylessWrite, transactNext, List.mem_cons, List.not_mem_nil,
      or_false] at he
    rcases he with rfl | rfl | rfl <;> cases hc
  obtain ⟨left, hrun⟩ := mintRun_of_all
    (fun _ _ e he _ => (hfit e he : e.TimesFit)) hs
  refine ⟨left, s, hrun, fun h => ?_⟩
  obtain ⟨left₁, s₁, s₂, hrun, -, hfresh⟩ := h.fresh (transactRun.take 2)
    (keylessWrite 5 "00000000000005000001") [] "00000000000005000001" rfl rfl
  have hthere : ((mintAll (fun _ => "") .autokey "F" (fun _ _ _ => true) [] emptyFile
      (transactRun.take 2)).map fun s => s.table.records.contains "00000000000005000001") =
      some true := by
    decide +kernel
  rw [mintAll_of_run hrun, Option.map_some, Option.some.injEq] at hthere
  exact hfresh (Std.ExtTreeMap.contains_iff_mem.mp hthere)

end RustyPick
