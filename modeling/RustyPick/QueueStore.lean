import RustyPick.QueueBook
import RustyPick.StateFile
import RustyPick.Lib.Layers

/-!
# RustyPick.QueueStore

A queue file over restarts: the table in memory and the `queue` file beside the records.

A clean restart is a flush and a load. The flush writes the book only when the order is marked; the
load brings the records back as they were stored, and no order: the next command attaches one from
what `read_state` makes of the book. Claims are not in it.

`Kept` is what holds between any two steps: an order that is not marked agrees with the book on
every record there is. So the delivery counts and due times of the records, `deliveriesOf` and
`dueOf`, come through a restart, and a claim does not.
-/

namespace RustyPick

open Lib

structure QueueStore where
  table : Table
  book : Option Bytes := none

namespace QueueStore

/-- What `queue_file` reads of the book, the default when there is nothing to read. -/
def persisted (s : QueueStore) : PersistedQueue := (PersistedQueue.readState s.book).getD .absent

/-- The order attached from the book. -/
def attach (s : QueueStore) : QueueStore := { s with table := s.table.attachQueue s.persisted }

/-- A flush, as far as the order is concerned. -/
def flush (s : QueueStore) : QueueStore :=
  match s.table.queue with
  | some q =>
    if q.isDirty then
      { table := ({ s.table with queue := some q.clearDirty }).clearDirty
        book := some q.toPersisted.writeState }
    else { s with table := s.table.clearDirty }
  | none => { s with table := s.table.clearDirty }

/-- A flush, and the file as the next process loads it. -/
def restart (s : QueueStore) : QueueStore :=
  { s.flush with
    table := { s.flush.table with
      records := s.flush.table.records.map fun _ record => record.stored
      dictionary := s.flush.table.dictionary.map fun _ record => record.stored
      queue := none
      autokey := none } }

/-- How often the record under `key` has been delivered. -/
def deliveriesOf (s : QueueStore) (key : String) : Nat :=
  match s.table.queue with
  | some q => q.deliveriesOf key
  | none => (Std.ExtTreeMap.ofList s.persisted.deliveries compare)[key]?.getD 0

/-- When the record under `key` became, or becomes, claimable. -/
def dueOf (s : QueueStore) (key : String) : Option Nat :=
  match s.table.queue with
  | some q => q.due[key]?
  | none => (Std.ExtTreeMap.ofList s.persisted.due compare)[key]?

end QueueStore

/-- A section of a queue command, the attachment of the order, a flush or a clean restart. -/
inductive StoreAction where
  | command (a : QueueAction)
  | attach
  | flush
  | restart

/-- Whether an action belongs to a queue command: the order is attached from the book alone, and a
plain DELETE is none. -/
def QueueAction.isCommand : QueueAction → Bool
  | .attach _ | .delete _ => false
  | _ => true

def StoreAction.perform (name : String) (s : QueueStore) (now : Nat) :
    StoreAction → Option (QueueOutcome × QueueStore)
  | .command a =>
    if a.isCommand then (a.perform name s.table now).map fun r => (r.1, { s with table := r.2 })
    else none
  | .attach => some (.done, s.attach)
  | .flush => some (.done, s.flush)
  | .restart => some (.done, s.restart)

/-- An action as it ran: when, with what reading of the clock, and what came of it. -/
structure StoreEvent where
  clock : Nat
  reading : Nat
  action : StoreAction
  outcome : QueueOutcome

inductive StoreRun (name : String) (ok : QueueStore → StoreEvent → Prop) :
    QueueStore → List StoreEvent → QueueStore → Prop where
  | nil (s : QueueStore) : StoreRun name ok s [] s
  | cons {s s' s'' : QueueStore} {e : StoreEvent} {es : List StoreEvent} :
      ok s e →
      e.action.perform name s e.reading = some (e.outcome, s') →
      StoreRun name ok s' es s'' → StoreRun name ok s (e :: es) s''

theorem StoreRun.append {name : String} {ok : QueueStore → StoreEvent → Prop} :
    ∀ {es es' : List StoreEvent} {s s'' : QueueStore}, StoreRun name ok s (es ++ es') s'' →
      ∃ s', StoreRun name ok s es s' ∧ StoreRun name ok s' es' s'' := by
  intro es
  induction es with
  | nil => intro es' s s'' h; exact ⟨s, StoreRun.nil s, h⟩
  | cons e es ih =>
    intro es' s s'' h
    cases h with
    | cons hok hstep hrest =>
      obtain ⟨s', h1, h2⟩ := ih hrest
      exact ⟨s', StoreRun.cons hok hstep h1, h2⟩

/-- An action yet to run, at a moment that is also its reading of the clock. -/
def StoreEvent.at (clock : Nat) (action : StoreAction) : StoreEvent :=
  { clock := clock, reading := clock, action := action, outcome := .done }

/-- Runs actions one after another, for the outcome of each, as long as each passes `check`. -/
def storeOutcomes (name : String) (check : QueueStore → StoreEvent → Bool) (s : QueueStore) :
    List StoreEvent → Option (List QueueOutcome)
  | [] => some []
  | e :: es =>
    if check s e then
      match e.action.perform name s e.reading with
      | none => none
      | some (out, s') => (storeOutcomes name check s' es).map fun outs => out :: outs
    else none

def StoreEvent.withOutcomes (es : List StoreEvent) (outs : List QueueOutcome) : List StoreEvent :=
  List.zipWith (fun e out => { e with outcome := out }) es outs

theorem storeRun_of_outcomes {name : String} (ok : QueueStore → StoreEvent → Prop)
    {check : QueueStore → StoreEvent → Bool} :
    ∀ {es : List StoreEvent} {outs : List QueueOutcome} {s : QueueStore},
      (∀ s, ∀ e ∈ es, ∀ out, check s e → ok s { e with outcome := out }) →
      storeOutcomes name check s es = some outs →
      ∃ s', StoreRun name ok s (StoreEvent.withOutcomes es outs) s' := by
  intro es
  induction es with
  | nil => intro outs s _ h; cases h; exact ⟨s, StoreRun.nil s⟩
  | cons e es ih =>
    intro outs s hok h
    unfold storeOutcomes at h
    split at h
    · rename_i hcheck
      split at h
      · cases h
      · rename_i out s' hp
        obtain ⟨outs', houts, rfl⟩ := Option.map_eq_some_iff.mp h
        obtain ⟨s'', hrun⟩ := ih (fun s e' he' => hok s e' (List.mem_cons_of_mem _ he')) houts
        exact ⟨s'', StoreRun.cons (hok s e List.mem_cons_self out hcheck) hp hrun⟩
    · cases h

/-! ## The book read back -/

/-- Entries of a map, written in any order, read back as the map. -/
theorem getElem?_ofList_sorted (m : Map String Nat) (k : String) :
    (Std.ExtTreeMap.ofList (PersistedQueue.sorted m.toList) compare)[k]? = m[k]? := by
  have hperm : (PersistedQueue.sorted m.toList).Perm m.toList := List.perm_insertionSort _ _
  have hdistinct : (PersistedQueue.sorted m.toList).Pairwise
      fun a b => ¬ compare a.1 b.1 = .eq :=
    hperm.symm.pairwise Std.ExtTreeMap.distinct_keys_toList
      fun h hc => h (by rw [Std.compare_eq_iff_eq] at hc ⊢; exact hc.symm)
  cases hk : m[k]? with
  | some v =>
    have hmem : (k, v) ∈ PersistedQueue.sorted m.toList :=
      hperm.mem_iff.mpr (Std.ExtTreeMap.mem_toList_iff_getElem?_eq_some.mpr hk)
    exact Std.ExtTreeMap.getElem?_ofList_of_mem (by simp) hdistinct hmem
  | none =>
    apply Std.ExtTreeMap.getElem?_ofList_of_contains_eq_false
    rw [Bool.eq_false_iff]
    intro hc
    obtain ⟨e, he, rfl⟩ := List.mem_map.mp (List.contains_iff_mem.mp hc)
    have := Std.ExtTreeMap.mem_toList_iff_getElem?_eq_some.mp (hperm.mem_iff.mp he)
    rw [hk] at this
    cases this

/-- A lookup in the map a list makes is an entry of the list. -/
theorem mem_of_getElem?_ofList {l : List (String × Nat)} {k : String} {n : Nat}
    (h : (Std.ExtTreeMap.ofList l compare)[k]? = some n) : (k, n) ∈ l := by
  rw [Std.ExtTreeMap.ofList_eq_insertMany_empty, Std.ExtTreeMap.getElem?_insertMany_list] at h
  rw [Std.ExtTreeMap.getElem?_empty, Option.or_none, List.findSomeRev?_eq_findSome?_reverse] at h
  obtain ⟨e, he, h⟩ := List.exists_of_findSome?_eq_some h
  simp only [Std.compare_eq_iff_eq, Option.ite_none_right_eq_some, Option.some.injEq] at h
  rw [← h.1, ← h.2]
  exact List.mem_reverse.mp he

/-! ## What holds between steps -/

/-- A key the counter handed out. -/
def Minted (key : String) : Prop := ∃ n, n ≤ u64Max ∧ key = formatKey n

theorem Minted.keyText {key : String} (h : Minted key) : PersistedQueue.KeyText key := by
  obtain ⟨n, -, rfl⟩ := h
  intro hc
  rw [formatKey, String.toList_ofList] at hc
  exact absurd (isDigit_padDigits _ _ _ hc) (by simp)

/-- A queue file as it is loaded, every record under a minted key. -/
structure Opened (s : QueueStore) : Prop where
  queue : s.table.queue = none
  minted : ∀ k, k ∈ s.table.records → Minted k

structure Kept (s : QueueStore) : Prop where
  minted : ∀ k, k ∈ s.table.records → Minted k
  filed : ∀ q, s.table.queue = some q → ∃ f, Filed f q s.table
  counts : ∀ q, s.table.queue = some q → ∀ (k : String) (n : Nat), q.deliveries[k]? = some n →
    PersistedQueue.KeyText k ∧ n ≤ u32Max
  dues : ∀ q, s.table.queue = some q → ∀ (k : String) (m : Nat), q.due[k]? = some m → m ≤ u64Max
  agrees : ∀ q, s.table.queue = some q → q.isDirty = false → ∀ k, k ∈ s.table.records →
    (Std.ExtTreeMap.ofList s.persisted.deliveries compare)[k]? = q.deliveries[k]? ∧
      (Std.ExtTreeMap.ofList s.persisted.due compare)[k]? = q.due[k]?

theorem Opened.kept {s : QueueStore} (h : Opened s) : Kept s := by
  have hnone : ∀ q, s.table.queue ≠ some q := fun q hq => by
    rw [h.queue] at hq
    cases hq
  exact ⟨h.minted, fun q hq => absurd hq (hnone q), fun q hq => absurd hq (hnone q),
    fun q hq => absurd hq (hnone q), fun q hq => absurd hq (hnone q)⟩

/-- An order whose counts and due times can be written down. -/
def Legible (q : QueueState) : Prop :=
  (∀ (k : String) (n : Nat), q.deliveries[k]? = some n →
    PersistedQueue.KeyText k ∧ n ≤ u32Max) ∧
  ∀ (k : String) (m : Nat), q.due[k]? = some m → PersistedQueue.KeyText k ∧ m ≤ u64Max

/-- What a flush writes of the order reads back. -/
theorem readState_toPersisted {q : QueueState} (h : Legible q) :
    PersistedQueue.readState (some q.toPersisted.writeState) = some
      { nextSequence := q.sequence.peek
        next_le := q.sequence.next_le
        deliveries := PersistedQueue.sorted q.deliveries.toList
        due := PersistedQueue.sorted q.due.toList } := by
  have hwritten : q.toPersisted.Written := by
    constructor
    · intro e he
      exact h.1 e.1 e.2 (Std.ExtTreeMap.mem_toList_iff_getElem?_eq_some.mp he)
    · intro e he
      exact h.2 e.1 e.2 (Std.ExtTreeMap.mem_toList_iff_getElem?_eq_some.mp he)
  exact PersistedQueue.readState_writeState hwritten

theorem legible_attach {R : Type} (records : Map String R) (file : Option Bytes) :
    Legible (QueueState.attach records ((PersistedQueue.readState file).getD .absent)) := by
  have hread := PersistedQueue.written_readState file
  constructor
  · intro k n hn
    simp only [QueueState.attach, getElem?_retain] at hn
    split at hn
    · exact hread.deliveries _ (mem_of_getElem?_ofList hn)
    · cases hn
  · intro k m hm
    simp only [QueueState.attach, getElem?_retain] at hm
    split at hm
    · exact hread.due _ (mem_of_getElem?_ofList hm)
    · cases hm

section

variable {s : QueueStore}

theorem attach_of_none (h : s.table.queue = none) :
    s.attach.table =
      { s.table with queue := some (QueueState.attach s.table.records s.persisted) } := by
  simp [QueueStore.attach, Table.attachQueue, h]

theorem attach_of_some {q : QueueState} (h : s.table.queue = some q) : s.attach = s := by
  simp [QueueStore.attach, Table.attachQueue, h]

theorem Kept.attach (h : Kept s) : Kept s.attach := by
  cases hq : s.table.queue with
  | some q => rw [attach_of_some hq]; exact h
  | none =>
    have ht := attach_of_none hq
    have hlegible := legible_attach s.table.records s.book
    have hpers : s.attach.persisted = s.persisted := rfl
    refine ⟨?_, ?_, ?_, ?_, ?_⟩
    · rw [ht]
      exact h.minted
    · intro q' hq'
      rw [ht] at hq'
      cases hq'
      exact ⟨_, filed_attach hq s.persisted⟩
    · intro q' hq'
      rw [ht] at hq'
      cases hq'
      exact hlegible.1
    · intro q' hq' k m hm
      rw [ht] at hq'
      cases hq'
      exact (hlegible.2 k m hm).2
    · intro q' hq' _ k hk
      rw [ht] at hq' hk
      cases hq'
      rw [← Std.ExtTreeMap.contains_iff_mem] at hk
      simp [QueueState.attach, getElem?_retain, hk, hpers]

theorem Kept.keyText_due (h : Kept s) {q : QueueState} (hq : s.table.queue = some q) :
    ∀ (k : String) (m : Nat), q.due[k]? = some m → PersistedQueue.KeyText k ∧ m ≤ u64Max := by
  intro k m hm
  obtain ⟨f, hf⟩ := h.filed q hq
  have hk := (hf.files k).mp (hf.ordered.due k (mem_of_getElem? hm))
  exact ⟨(h.minted k hk).keyText, h.dues q hq k m hm⟩

theorem flush_records (s : QueueStore) : s.flush.table.records = s.table.records := by
  unfold QueueStore.flush
  split
  · split <;> rfl
  · rfl

theorem flush_of_none (h : s.table.queue = none) :
    s.flush = { s with table := s.table.clearDirty } := by
  simp [QueueStore.flush, h]

theorem flush_of_dirty {q : QueueState} (h : s.table.queue = some q) (hd : q.isDirty = true) :
    s.flush =
      { table := ({ s.table with queue := some q.clearDirty }).clearDirty
        book := some q.toPersisted.writeState } := by
  simp [QueueStore.flush, h, hd]

theorem flush_of_clean {q : QueueState} (h : s.table.queue = some q) (hd : q.isDirty = false) :
    s.flush = { s with table := s.table.clearDirty } := by
  simp [QueueStore.flush, h, hd]

theorem Kept.clearDirty (h : Kept s) : Kept { s with table := s.table.clearDirty } := by
  refine ⟨h.minted, ?_, h.counts, h.dues, h.agrees⟩
  intro q hq
  obtain ⟨f, hf⟩ := h.filed q hq
  exact ⟨f, ⟨hq, hf.ordered.places, hf.ordered.due⟩, hf.files, hf.passed⟩

theorem Kept.flush (h : Kept s) : Kept s.flush := by
  cases hq : s.table.queue with
  | none =>
    rw [flush_of_none hq]
    exact h.clearDirty
  | some q =>
    cases hd : q.isDirty with
    | false =>
      rw [flush_of_clean hq hd]
      exact h.clearDirty
    | true =>
      rw [flush_of_dirty hq hd]
      obtain ⟨f, hf⟩ := h.filed q hq
      have hread := readState_toPersisted ⟨h.counts q hq, h.keyText_due hq⟩
      refine ⟨h.minted, ?_, ?_, ?_, ?_⟩
      · intro q' hq'
        cases hq'
        exact ⟨f, ⟨rfl, hf.ordered.places.congr rfl rfl rfl rfl, hf.ordered.due⟩, hf.files,
          hf.passed⟩
      · intro q' hq'
        cases hq'
        exact h.counts q hq
      · intro q' hq'
        cases hq'
        exact h.dues q hq
      · intro q' hq' _ k _
        cases hq'
        rw [QueueStore.persisted, hread]
        exact ⟨getElem?_ofList_sorted _ _, getElem?_ofList_sorted _ _⟩

theorem Kept.restart (h : Kept s) : Kept s.restart := by
  have hnone : ∀ q, s.restart.table.queue ≠ some q := fun q hq => by cases hq
  refine ⟨?_, fun q hq => absurd hq (hnone q), fun q hq => absurd hq (hnone q),
    fun q hq => absurd hq (hnone q), fun q hq => absurd hq (hnone q)⟩
  intro k hk
  apply h.minted
  rw [QueueStore.restart, Std.ExtTreeMap.mem_map, flush_records] at hk
  exact hk

/-! ## Counts and due times over a restart -/

theorem mem_restart {k : String} : k ∈ s.restart.table.records ↔ k ∈ s.table.records := by
  rw [QueueStore.restart, Std.ExtTreeMap.mem_map, flush_records]

theorem attach_kept {k : String} (hk : k ∈ s.table.records) :
    s.attach.deliveriesOf k = s.deliveriesOf k ∧ s.attach.dueOf k = s.dueOf k := by
  cases hq : s.table.queue with
  | some q => rw [attach_of_some hq]; exact ⟨rfl, rfl⟩
  | none =>
    have ht := attach_of_none hq
    rw [← Std.ExtTreeMap.contains_iff_mem] at hk
    simp only [QueueStore.deliveriesOf, QueueStore.dueOf, ht, hq, QueueState.deliveriesOf,
      QueueState.attach, getElem?_retain, hk, if_true, and_self]

theorem flush_kept (s : QueueStore) (k : String) :
    s.flush.deliveriesOf k = s.deliveriesOf k ∧ s.flush.dueOf k = s.dueOf k := by
  cases hq : s.table.queue with
  | none =>
    rw [flush_of_none hq]
    exact ⟨rfl, rfl⟩
  | some q =>
    cases hd : q.isDirty with
    | false =>
      rw [flush_of_clean hq hd]
      exact ⟨rfl, rfl⟩
    | true =>
      rw [flush_of_dirty hq hd]
      simp only [QueueStore.deliveriesOf, QueueStore.dueOf, hq]
      exact ⟨rfl, rfl⟩

/-- A restart keeps the delivery count and the due time of every record. -/
theorem restart_kept (h : Kept s) {k : String} (hk : k ∈ s.table.records) :
    s.restart.deliveriesOf k = s.deliveriesOf k ∧ s.restart.dueOf k = s.dueOf k := by
  have hpers : s.restart.persisted = s.flush.persisted := rfl
  have hnone : s.restart.table.queue = none := rfl
  have hflush := flush_kept s k
  rw [← hflush.1, ← hflush.2]
  cases hq : s.flush.table.queue with
  | none =>
    simp only [QueueStore.deliveriesOf, QueueStore.dueOf, hnone, hq, hpers, and_self]
  | some q =>
    -- what a flush leaves is not marked, so the book agrees with it
    have hclean : q.isDirty = false := by
      cases hq₀ : s.table.queue with
      | none =>
        rw [flush_of_none hq₀] at hq
        simp [Table.clearDirty, hq₀] at hq
      | some q₀ =>
        cases hd : q₀.isDirty with
        | false =>
          rw [flush_of_clean hq₀ hd] at hq
          simp only [Table.clearDirty, hq₀, Option.some.injEq] at hq
          rw [← hq]
          exact hd
        | true =>
          rw [flush_of_dirty hq₀ hd] at hq
          simp only [Table.clearDirty, Option.some.injEq] at hq
          rw [← hq]
          simp [QueueState.isDirty, QueueState.clearDirty]
    obtain ⟨hcount, hdue⟩ := h.flush.agrees q hq hclean k (by rw [flush_records]; exact hk)
    simp only [QueueStore.deliveriesOf, QueueStore.dueOf, hnone, hq, hpers, hcount, hdue,
      QueueState.deliveriesOf, and_self]

/-! ## Commands -/

/-- The due time a command was given, whether or not it went through. -/
def QueueAction.dueMillis : QueueAction → Option Nat
  | .enqueue _ due => due
  | .nack _ _ _ due => due
  | _ => none

theorem gives_dueMillis {a : QueueAction} {out : QueueOutcome} {k : String} {m : Nat}
    (h : a.gives out = some (k, m)) : a.dueMillis = some m := by
  unfold QueueAction.gives at h
  split at h
  · obtain ⟨m', hm, heq⟩ := Option.map_eq_some_iff.mp h
    cases heq
    exact hm
  · obtain ⟨m', hm, heq⟩ := Option.map_eq_some_iff.mp h
    cases heq
    exact hm
  · cases h

/-- With no order attached, a command that goes through changes nothing. -/
theorem perform_of_none {name : String} {t t' : Table} {now : Nat} {a : QueueAction}
    {out : QueueOutcome} (h : t.queue = none) (hcmd : a.isCommand = true)
    (hp : a.perform name t now = some (out, t')) : out = .done ∧ t' = t := by
  obtain ⟨hout, ⟨persisted, rfl, -⟩ | ⟨-, hsame⟩ | ⟨key, rfl, -⟩⟩ := perform_without_order h hp
  · cases hcmd
  · exact ⟨hout, hsame⟩
  · cases hcmd

theorem isCommand_ne_delete {a : QueueAction} (h : a.isCommand = true) :
    ∀ key, a ≠ .delete key := by
  rintro key rfl
  cases h

/-- Every record after a section was there before it, or is under the key it minted. -/
theorem effect_records {name : String} {f f' : String → Place} {q q' : QueueState} {t t' : Table}
    {now : Nat} {a : QueueAction} {out : QueueOutcome} (h : Filed f q t)
    (heff : Effect name f q t now a out f' q' t') :
    ∀ k, k ∈ t'.records → k ∈ t.records ∨ out = .enqueued k ∧ Minted k := by
  intro k hk
  cases heff with
  | idle _ => exact Or.inl hk
  | repair hrec _ => rw [hrec] at hk; exact Or.inl hk
  | enqueue record due hrec _ =>
    rw [hrec, Std.ExtTreeMap.mem_insert, Std.compare_eq_iff_eq] at hk
    rcases hk with rfl | hk
    · exact Or.inr ⟨rfl, _, Sequence.upcoming_le _ _, rfl⟩
    · exact Or.inl hk
  | sweep policy _ _ hrec => exact Or.inl ((files_swept h.ordered h.files hrec).2 k hk)
  | claim owner visibility own policy delivery _ _ hrec =>
    exact Or.inl ((files_swept h.ordered h.files hrec).2 k hk)
  | ack key owner _ hrec _ =>
    rw [hrec] at hk
    exact Or.inl (Std.ExtTreeMap.mem_erase.mp hk).2
  | nack key owner policy due _ hrec _ =>
    rw [hrec] at hk
    split at hk
    · exact Or.inl (Std.ExtTreeMap.mem_erase.mp hk).2
    · exact Or.inl hk
  | delete key hrec =>
    rw [hrec] at hk
    exact Or.inl (Std.ExtTreeMap.mem_erase.mp hk).2

/-- Everything a command does to a file whose order is attached. -/
structure CommandStep (name : String) (now : Nat) (a : QueueAction) (out : QueueOutcome)
    (f f' : String → Place) (q q' : QueueState) (t t' : Table) : Prop where
  before : Filed f q t
  after : Filed f' q' t'
  effect : Effect name f q t now a out f' q' t'
  book : BookKept q q' t t' out.key (a.gives out)

theorem command_step {name : String} {now : Nat} {a : QueueAction} {out : QueueOutcome}
    {q : QueueState} {t' : Table} (h : Kept s) (hq : s.table.queue = some q)
    (hcmd : a.isCommand = true) (hp : a.perform name s.table now = some (out, t')) :
    ∃ f f' q', CommandStep name now a out f f' q q' s.table t' := by
  obtain ⟨f, hf⟩ := h.filed q hq
  obtain ⟨f', q', hord, heff⟩ := perform_effect hf.ordered hp
  obtain ⟨q'', hq'', hbook⟩ := perform_book hf (isCommand_ne_delete hcmd) hp
  obtain rfl : q' = q'' := by simpa [hord.queue] using hq''
  exact ⟨f, f', q', hf, filed_effect hf hord heff (isCommand_ne_delete hcmd), heff, hbook⟩

theorem Kept.command {name : String} {now : Nat} {a : QueueAction} {out : QueueOutcome} {t' : Table}
    (h : Kept s) (hcmd : a.isCommand = true) (hdue : ∀ m, a.dueMillis = some m → m ≤ u64Max)
    (hp : a.perform name s.table now = some (out, t')) : Kept { s with table := t' } := by
  cases hq : s.table.queue with
  | none =>
    obtain ⟨-, rfl⟩ := perform_of_none hq hcmd hp
    exact h
  | some q =>
    obtain ⟨f, f', q', hstep⟩ := command_step h hq hcmd hp
    have hq' := hstep.after.ordered.queue
    refine ⟨?_, ?_, ?_, ?_, ?_⟩
    · intro k hk
      rcases effect_records hstep.before hstep.effect k hk with hk | hk
      · exact h.minted k hk
      · exact hk.2
    · intro q₁ hq₁
      obtain rfl : q' = q₁ := by simpa [hq'] using hq₁
      exact ⟨f', hstep.after⟩
    · intro q₁ hq₁ k n hn
      obtain rfl : q' = q₁ := by simpa [hq'] using hq₁
      rcases hstep.book.counted k n hn with hn | ⟨hk, hn⟩
      · exact h.counts q hq k n hn
      · exact ⟨(h.minted k hk).keyText, Nat.le_sub_one_of_lt hn⟩
    · intro q₁ hq₁ k m hm
      obtain rfl : q' = q₁ := by simpa [hq'] using hq₁
      rcases hstep.book.due k m hm with hm | hm
      · exact h.dues q hq k m hm
      · exact hdue m (gives_dueMillis hm)
    · intro q₁ hq₁ hclean k hk
      obtain rfl : q' = q₁ := by simpa [hq'] using hq₁
      rcases hstep.book.written with hd | ⟨heq, hrec⟩
      · rw [hclean] at hd
        cases hd
      · subst heq
        exact h.agrees q' hq hclean k (by rw [← hrec]; exact hk)

/-- The times a run is given fit a `u64`. -/
def TimesFit (e : StoreEvent) : Prop :=
  ∀ a m, e.action = .command a → a.dueMillis = some m → m ≤ u64Max

/-- What a step can be. -/
theorem store_step {name : String} {s' : QueueStore} {e : StoreEvent}
    (hp : e.action.perform name s e.reading = some (e.outcome, s')) :
    (∃ a t', e.action = .command a ∧ a.isCommand = true ∧
        a.perform name s.table e.reading = some (e.outcome, t') ∧ s' = { s with table := t' }) ∨
      (e.outcome = .done ∧ ((e.action = .attach ∧ s' = s.attach) ∨
        (e.action = .flush ∧ s' = s.flush) ∨ (e.action = .restart ∧ s' = s.restart))) := by
  generalize ha : e.action = action at hp
  generalize e.outcome = out at hp
  cases action with
  | command a =>
    simp only [StoreAction.perform] at hp
    split at hp
    · rename_i hcmd
      obtain ⟨⟨out', t'⟩, hrun, heq⟩ := Option.map_eq_some_iff.mp hp
      simp only [Prod.mk.injEq] at heq
      obtain ⟨rfl, rfl⟩ := heq
      exact Or.inl ⟨a, t', rfl, hcmd, hrun, rfl⟩
    · cases hp
  | attach => cases hp; exact Or.inr ⟨rfl, Or.inl ⟨rfl, rfl⟩⟩
  | flush => cases hp; exact Or.inr ⟨rfl, Or.inr (Or.inl ⟨rfl, rfl⟩)⟩
  | restart => cases hp; exact Or.inr ⟨rfl, Or.inr (Or.inr ⟨rfl, rfl⟩)⟩

theorem Kept.step {name : String} {s' : QueueStore} {e : StoreEvent} (h : Kept s) (hfit : TimesFit e)
    (hp : e.action.perform name s e.reading = some (e.outcome, s')) : Kept s' := by
  rcases store_step hp with ⟨a, t', ha, hcmd, hrun, rfl⟩ | ⟨-, ⟨-, rfl⟩ | ⟨-, rfl⟩ | ⟨-, rfl⟩⟩
  · exact h.command hcmd (fun m hm => hfit a m ha hm) hrun
  · exact h.attach
  · exact h.flush
  · exact h.restart

end

end RustyPick
