import RustyPick.QueueSpec

/-!
# RustyPick.QueueReady

Sequences of commands on one queue file, plain writes and deletes among them.

Plain writes and deletes change the records behind the order's back, and `queueFile` repairs the
order only when the number of keys it tracks differs from the number of records. `Unmasked` is the
state in which that comparison can be relied on: it does not agree while some record is in none of
the three collections.

* `partitioned_iff`: over every sequence of commands, the order is a partition of the records each
  time a command finds it ready exactly when every command finds its file `Unmasked`.
-/

namespace RustyPick

open Lib

/-- What can be asked of a queue file. `write` and `delete` are the plain commands; `adopt` is what
the dead-letter file does when another queue buries its dead in it. -/
inductive QueueCommand where
  | enqueue (record : Record) (due : Option Nat)
  | dequeue (owner : String) (visibility : Option Nat)
  | ack (key owner : String)
  | nack (key owner : String) (due : Option Nat)
  | peek (key : Option String)
  | statistics
  | adopt (letters : List DeadLetter)
  | write (key : String) (record : Record)
  | delete (key : String)

/-- A command with what it finds around it: the clock, the file's policy, and the `queue` file that
is read when the table has no order yet. -/
structure QueueStep where
  command : QueueCommand
  now : Nat := 0
  policy : QueuePolicy := {}
  persisted : PersistedQueue := .absent

/-- Whether the command goes through `queueFile`. -/
def QueueCommand.usesOrder : QueueCommand → Bool
  | .write _ _ => false
  | .delete _ => false
  | _ => true

/-- The table a section leaves. A section that fails its `expect` leaves the table as it was. -/
def leaves {α : Type} (t : Table) : Option (α × Table) → Table
  | some (_, t') => t'
  | none => t

/-- One command, from `queueFile` to the end of its critical section. -/
def Table.execute (name : String) (t : Table) (s : QueueStep) : Table :=
  let ready := t.queueFile s.persisted
  match s.command with
  | .enqueue record due => leaves ready (ready.enqueueDue record due s.now)
  | .dequeue owner visibility =>
    leaves ready ((ready.dequeue name owner visibility s.policy s.now).map fun r => (r.1, r.2.2))
  | .ack key owner => leaves ready (ready.ack name key owner)
  | .nack key owner due => leaves ready (ready.nackUntil name key owner s.policy due)
  | .peek key => leaves ready ((ready.peek name key s.policy s.now).map fun r => (r.1, r.2.2))
  | .statistics =>
    leaves ready ((ready.queueStatistics name s.policy s.now).map fun r => (r.1, r.2.2))
  | .adopt letters => ready.adoptLetters letters
  | .write key record => t.insertRecord key record
  | .delete key => (t.removeRecord key).2

def Table.executeAll (name : String) (t : Table) (steps : List QueueStep) : Table :=
  steps.foldl (Table.execute name) t

/-- A queue file as a load leaves it: the order not attached yet, or derived from the records. -/
def Loaded (t : Table) : Prop :=
  t.queue = none ∨ ∃ persisted, t.queue = some (QueueState.attach t.records persisted)

/-- Every record key is in exactly one collection, no other key is in any, and the held keys are
those with a due time in neither of the other two. -/
def Partitioned (t : Table) : Prop :=
  ∃ q, t.queue = some q ∧
    (∀ k, k ∈ t.records →
      (k ∈ q.available ∧ k ∉ q.claims ∧ k ∉ q.heldKeys) ∨
      (k ∉ q.available ∧ k ∈ q.claims ∧ k ∉ q.heldKeys) ∨
      (k ∉ q.available ∧ k ∉ q.claims ∧ k ∈ q.heldKeys)) ∧
    (∀ k, k ∈ q.available ∨ k ∈ q.claims ∨ k ∈ q.heldKeys → k ∈ t.records) ∧
    ∀ k, k ∈ q.heldKeys ↔ k ∈ q.due ∧ k ∉ q.available ∧ k ∉ q.claims

/-- Every DEQUEUE from this state hands out a record of the file, under its own key. -/
def DeliversRecords (name : String) (t : Table) : Prop :=
  ∀ owner visibility policy now delivery dead t',
    t.dequeue name owner visibility policy now = some (some delivery, dead, t') →
      t.records[delivery.key]? = some delivery.record

/-- The readiness check is not deceived: the counts do not agree while a record is untracked. -/
def Unmasked (t : Table) : Prop :=
  ∀ q, t.queue = some q → q.tracked = t.records.size → ∀ k, k ∈ t.records → q.Tracks k

/-- An order a repair can start from, or none. -/
def Sane (t : Table) : Prop := ∀ q, t.queue = some q → q.Sound

theorem Loaded.sane {t : Table} (h : Loaded t) : Sane t := by
  intro q hq
  rcases h with h | ⟨persisted, h⟩
  · rw [h] at hq; cases hq
  · rw [h] at hq
    cases hq
    refine (represents_attach t.records persisted).sound ?_
    intro k hk
    simp only [QueueState.attach, mem_retain, Std.ExtTreeMap.contains_iff_mem] at hk
    unfold attachedPlace
    rw [if_pos hk.1]
    split <;> simp

theorem Ordered.sane {f : String → Place} {q : QueueState} {t : Table} (h : Ordered f q t) :
    Sane t := by
  intro q' hq'
  rw [h.queue] at hq'
  cases hq'
  exact h.places.sound h.due

/-! ## What a command finds -/

/-- From a sane table the check is not deceived about, a command finds the records filed. -/
theorem queueFile_spec {t : Table} (hs : Sane t) (hu : Unmasked t) (persisted : PersistedQueue) :
    ∃ f q, Ordered f q (t.queueFile persisted) ∧ Files f (t.queueFile persisted) := by
  unfold Table.queueFile Table.queueReadiness
  cases hq : t.queue with
  | none =>
    refine ⟨_, _, attachQueue_spec hq persisted, ?_⟩
    have hfiles := files_attached t persisted
    simpa [Files, Table.attachQueue, hq] using hfiles
  | some q =>
    by_cases hcount : q.tracked = t.records.size
    · obtain ⟨hrep, hall⟩ := (hs q hq).counts hcount (hu q hq hcount)
      simp only [hcount, ne_eq, not_true, if_false]
      refine ⟨q.placeOf, q, ⟨hq, hrep, ?_⟩, ?_⟩
      · intro k hk
        exact (hrep.tracks k).mp ((hs q hq).dueTracked k hk)
      · intro k
        rw [← hrep.tracks, hall]
    · simp only [ne_eq, hcount, not_false_eq_true, if_true]
      refine ⟨_, _, reconcileQueue_spec hq (hs q hq), ?_⟩
      intro k
      unfold QueueState.repairedPlace
      simp only [Table.reconcileQueue]
      split
      · rename_i hk
        simp only [hk, iff_true]
        split
        · simp
        · split <;> simp
      · rename_i hk
        simp [hk]

theorem queueFile_sane {t : Table} (hs : Sane t) (hu : Unmasked t) (persisted : PersistedQueue) :
    Sane (t.queueFile persisted) := by
  obtain ⟨f, q, hord, _⟩ := queueFile_spec hs hu persisted
  exact hord.sane

theorem Ordered.partitioned {f : String → Place} {q : QueueState} {t : Table} (h : Ordered f q t)
    (hf : Files f t) : Partitioned t := by
  have hheld : ∀ k, k ∈ q.heldKeys ↔ ∃ m, f k = .held m := by
    intro k
    rw [QueueState.mem_heldKeys]
    simp only [h.places.held]
  refine ⟨q, h.queue, ?_, ?_, ?_⟩
  · intro k hk
    rw [← hf] at hk
    rw [h.places.available, h.places.mem_claims, hheld]
    cases hfk : f k <;> simp_all
  · intro k hk
    rw [h.places.available, h.places.mem_claims, hheld] at hk
    rw [← hf]
    rcases hk with hk | ⟨c, hk⟩ | ⟨m, hk⟩ <;> rw [hk] <;> simp
  · intro k
    rw [h.places.available, h.places.mem_claims, hheld]
    constructor
    · rintro ⟨m, hm⟩
      exact ⟨mem_of_getElem? (h.places.due k m hm), by simp [hm]⟩
    · rintro ⟨hdue, hna, hnc⟩
      have hne := h.due k hdue
      cases hfk : f k with
      | absent => exact absurd hfk hne
      | available => exact absurd hfk hna
      | claimed c => exact absurd ⟨c, hfk⟩ hnc
      | held m => exact ⟨m, rfl⟩

/-- A key the sweep leaves in the order keeps its record, since a record only goes with its place. -/
theorem Ordered.delivers {f : String → Place} {q : QueueState} {t : Table} (h : Ordered f q t)
    (hf : Files f t) (name : String) : DeliversRecords name t := by
  intro owner visibility policy now delivery dead t' hrun
  obtain ⟨q', d, dead', t'', hrun', _, hrec, hcase⟩ := dequeue_spec h name owner visibility policy now
  rw [hrun'] at hrun
  cases hrun
  rcases hcase with ⟨hnone, _⟩ | ⟨delivery', hd, havail, _, _, hrecord, _⟩
  · cases hnone
  · cases hd
    obtain ⟨_, _, _, hswept⟩ := takeExpired_spec h now (dequeuePolicy name policy visibility)
    have hne : f delivery.key ≠ .absent := by
      intro habs
      simp [swept, habs, Place.sweep] at havail
    have hkeep := hswept delivery.key
    rw [if_neg (by simp [havail])] at hkeep
    obtain ⟨record, hr⟩ := mem_iff_exists.mp ((hf delivery.key).mp hne)
    rw [hrecord, hrec, hkeep, hr]
    rfl

/-! ## What a command leaves -/

theorem adoptLetters_sane : ∀ (letters : List DeadLetter) (t : Table), Sane t →
    Sane (t.adoptLetters letters) := by
  intro letters
  induction letters with
  | nil => intro t h; exact h
  | cons letter letters ih =>
    intro t h
    refine ih (t.adoptLetter letter) ?_
    intro q' hq'
    simp only [Table.adoptLetter, Table.insertRecord_queue, Option.map_eq_some_iff] at hq'
    obtain ⟨q, hq, rfl⟩ := hq'
    obtain ⟨hheld, hclaim, hdue⟩ := h q hq
    refine ⟨hheld, hclaim, ?_⟩
    intro k hk
    rcases hdue k hk with hk | hk
    · exact Or.inl (Finset.mem_insert_of_mem hk)
    · exact Or.inr hk

theorem peek_sane {f : String → Place} {q : QueueState} {t : Table} (h : Ordered f q t)
    (name : String) (key : Option String) (policy : QueuePolicy) (now : Nat) :
    Sane (leaves t ((t.peek name key policy now).map fun r => (r.1, r.2.2))) := by
  have hsweep : Sane (leaves t ((t.peekSweep name key policy now).map fun r => (r.1, r.2.2))) := by
    obtain ⟨q', hord, _⟩ := takeExpired_spec h now (effectivePolicy name policy)
    unfold Table.peekSweep Table.deliveryIn
    simp only [hord.queue, Option.map_some, leaves]
    exact hord.sane
  unfold Table.peek
  split
  · exact h.sane
  · exact h.sane
  · exact hsweep

theorem execute_sane {t : Table} {s : QueueStep} (name : String) (hs : Sane t)
    (hu : s.command.usesOrder → Unmasked t) : Sane (t.execute name s) := by
  have hready : s.command.usesOrder → ∃ f q, Ordered f q (t.queueFile s.persisted) := by
    intro huse
    obtain ⟨f, q, hord, _⟩ := queueFile_spec hs (hu huse) s.persisted
    exact ⟨f, q, hord⟩
  unfold Table.execute
  cases hc : s.command with
  | write key record => exact hs
  | delete key => exact hs
  | adopt letters => exact adoptLetters_sane _ _ (queueFile_sane hs (hu (by rw [hc]; rfl)) _)
  | peek key =>
    obtain ⟨f, q, hord⟩ := hready (by rw [hc]; rfl)
    exact peek_sane hord name key s.policy s.now
  | enqueue record due =>
    obtain ⟨f, q, hord⟩ := hready (by rw [hc]; rfl)
    obtain ⟨q', t', hrun, hord', _⟩ := enqueueDue_spec hord record due s.now
    simp only [hrun, leaves]
    exact hord'.sane
  | dequeue owner visibility =>
    obtain ⟨f, q, hord⟩ := hready (by rw [hc]; rfl)
    obtain ⟨q', d, dead, t', hrun, _, _, hcase⟩ :=
      dequeue_spec hord name owner visibility s.policy s.now
    simp only [hrun, Option.map_some, leaves]
    rcases hcase with ⟨_, hord', _⟩ | ⟨_, _, _, _, _, _, _, hord'⟩
    · exact hord'.sane
    · exact hord'.sane
  | ack key owner =>
    obtain ⟨f, q, hord⟩ := hready (by rw [hc]; rfl)
    rcases ack_spec hord name key owner with ⟨_, q', t', hrun, hord', _⟩ | ⟨_, e, hrun⟩
    · simp only [hrun, leaves]
      exact hord'.sane
    · simp only [hrun, leaves]
      exact hord.sane
  | nack key owner due =>
    obtain ⟨f, q, hord⟩ := hready (by rw [hc]; rfl)
    rcases nackUntil_spec hord name key owner s.policy due with
      ⟨_, q', letters, t', hrun, hord', _⟩ | ⟨_, e, hrun⟩
    · simp only [hrun, leaves]
      exact hord'.sane
    · simp only [hrun, leaves]
      exact hord.sane
  | statistics =>
    obtain ⟨f, q, hord⟩ := hready (by rw [hc]; rfl)
    obtain ⟨q', hord', _⟩ := takeExpired_spec hord s.now (effectivePolicy name s.policy)
    simp only [Table.queueStatistics, hord'.queue, Option.map_some, leaves]
    exact hord'.sane

/-- Every order along a sequence can be repaired, as long as no command was deceived before. -/
theorem executeAll_sane {t : Table} (name : String) (h : Sane t) : ∀ steps : List QueueStep,
    (∀ pre s post, steps = pre ++ s :: post → s.command.usesOrder →
      Unmasked (t.executeAll name pre)) →
    Sane (t.executeAll name steps) := by
  intro steps
  induction steps using List.reverseRecOn with
  | nil => intro _; exact h
  | append_singleton steps s ih =>
    intro hu
    have hbefore : Sane (t.executeAll name steps) := by
      refine ih ?_
      intro pre s' post hsteps huse
      exact hu pre s' (post ++ [s]) (by simp [hsteps]) huse
    have hlast : t.executeAll name (steps ++ [s]) = (t.executeAll name steps).execute name s := by
      simp [Table.executeAll]
    rw [hlast]
    exact execute_sane name hbefore (fun huse => hu steps s [] rfl huse)

/-- Each time a command of the sequence finds the file ready, the order partitions the records, and
a DEQUEUE would hand out one of them. -/
def ReadyPartitioned (name : String) (t : Table) (steps : List QueueStep) : Prop :=
  ∀ pre s post, steps = pre ++ s :: post → s.command.usesOrder →
    Partitioned ((t.executeAll name pre).queueFile s.persisted) ∧
      DeliversRecords name ((t.executeAll name pre).queueFile s.persisted)

/-- Agreeing counts leave the table as it is, so a partition found there is one of that very
order, and it tracks every record. -/
theorem ReadyPartitioned.unmasked {name : String} {t : Table} {steps : List QueueStep}
    (hready : ReadyPartitioned name t steps) (pre : List QueueStep) (s : QueueStep)
    (post : List QueueStep) (hsteps : steps = pre ++ s :: post) (huse : s.command.usesOrder) :
    Unmasked (t.executeAll name pre) := by
  intro q hq hcount k hk
  obtain ⟨⟨q', hq', hone, _⟩, _⟩ := hready pre s post hsteps huse
  have hsame : (t.executeAll name pre).queueFile s.persisted = t.executeAll name pre := by
    simp [Table.queueFile, Table.queueReadiness, hq, hcount]
  rw [hsame] at hq' hone
  rw [hq] at hq'
  cases hq'
  rw [← QueueState.mem_trackedKeys]
  simp only [QueueState.trackedKeys, Finset.mem_union, mem_dom]
  rcases hone k hk with ⟨hk, _⟩ | ⟨_, hk, _⟩ | ⟨_, _, hk⟩
  · exact Or.inl hk
  · exact Or.inr (Or.inl hk)
  · exact Or.inr (Or.inr hk)

/-- The order is a partition of the records at every command of a sequence exactly when no command
of it finds the counts agreeing while a record is untracked. -/
theorem partitioned_iff (name : String) (t : Table) (h : Loaded t) (steps : List QueueStep) :
    ReadyPartitioned name t steps ↔
      ∀ pre s post, steps = pre ++ s :: post → s.command.usesOrder →
        Unmasked (t.executeAll name pre) := by
  constructor
  · intro hready pre s post hsteps huse
    exact hready.unmasked pre s post hsteps huse
  · intro hu pre s post hsteps huse
    have hsane : Sane (t.executeAll name pre) := by
      refine executeAll_sane name h.sane pre ?_
      intro pre' s' post' hpre huse'
      exact hu pre' s' (post' ++ s :: post) (by simp [hsteps, hpre]) huse'
    obtain ⟨f, q, hord, hfiles⟩ := queueFile_spec hsane (hu pre s post hsteps huse) s.persisted
    exact ⟨hord.partitioned hfiles, hord.delivers hfiles name⟩

/-- A queue file of one record, as it is loaded. -/
def oneRecordQueue : Table :=
  { records := Std.ExtTreeMap.ofList [("1", Record.text "job")]
    queue := some (QueueState.attach (Std.ExtTreeMap.ofList [("1", Record.text "job")])
      .absent) }

theorem oneRecordQueue_loaded : Loaded oneRecordQueue := Or.inr ⟨.absent, rfl⟩

/-- A new queue file. -/
def emptyQueue : Table := { queue := some (QueueState.attach (∅ : Map String Record) .absent) }

theorem emptyQueue_loaded : Loaded emptyQueue := Or.inr ⟨.absent, rfl⟩

/-- `Unmasked`, decided. -/
def unmaskedNow (t : Table) : Bool :=
  match t.queue with
  | none => true
  | some q => q.tracked ≠ t.records.size || t.records.keys.all fun k => decide (k ∈ q.trackedKeys)

theorem unmasked_of_now {t : Table} (h : unmaskedNow t = true) : Unmasked t := by
  intro q hq hcount k hk
  rw [unmaskedNow, hq] at h
  simp only [hcount, ne_eq, not_true_eq_false, decide_false, Bool.false_or, List.all_eq_true,
    decide_eq_true_eq] at h
  exact QueueState.mem_trackedKeys.mp (h k (Std.ExtTreeMap.mem_keys.mpr hk))

/-- A record is written as to any file, and two are handed out. -/
def writtenAndDequeued : List QueueStep :=
  [{ command := .write "2" (Record.text "new") }, { command := .dequeue "A" none },
    { command := .dequeue "B" none }]

/-- The first of them finds the counts apart, and the order is made anew. -/
theorem partitioned_at_dequeue :
    ReadyPartitioned "JOBS" oneRecordQueue writtenAndDequeued := by
  refine (partitioned_iff "JOBS" oneRecordQueue oneRecordQueue_loaded _).mpr ?_
  intro pre s post hsteps huse
  have hpre : pre <+: writtenAndDequeued := ⟨s :: post, hsteps.symm⟩
  have hall : ∀ n < 4, unmaskedNow
      (oneRecordQueue.executeAll "JOBS" (writtenAndDequeued.take n)) = true := by
    decide +kernel
  have hlt : pre.length < 4 := Nat.lt_succ_of_le hpre.length_le
  rw [List.prefix_iff_eq_take.mp hpre]
  exact unmasked_of_now (hall _ hlt)

/-- One plain WRITE of a new key and one plain DELETE of a tracked one leave the counts agreeing:
the DEQUEUE that follows hands out the deleted key with an empty record. -/
theorem not_partitioned_after_write_and_delete :
    Loaded oneRecordQueue ∧
    ¬ ReadyPartitioned "JOBS" oneRecordQueue
      [{ command := .write "2" (Record.text "new") },
        { command := .delete "1" }, { command := .dequeue "A" none }] ∧
    ((oneRecordQueue.executeAll "JOBS"
      [{ command := .write "2" (Record.text "new") }, { command := .delete "1" }]).dequeue
        "JOBS" "A" none {} 0).map (fun r => r.1.map fun d => (d.key, d.record)) =
      some (some ("1", {})) := by
  refine ⟨oneRecordQueue_loaded, ?_, by decide +kernel⟩
  intro hready
  have hu := hready.unmasked
    [{ command := .write "2" (Record.text "new") }, { command := .delete "1" }]
    { command := .dequeue "A" none } [] rfl rfl
  have htracks := hu _ rfl (by decide +kernel) "2" (by decide +kernel)
  rw [← QueueState.mem_trackedKeys] at htracks
  revert htracks
  decide +kernel

end RustyPick
