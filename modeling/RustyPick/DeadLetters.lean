import RustyPick.QueueRun
import RustyPick.Readback

/-!
# RustyPick.DeadLetters

A record on its way from a queue to `<name>.DEAD`.

The move is made under two guards, one after the other. The sweep or the NACK takes the record out
of the queue, the client carries it as a letter, and `bury` puts it into the other file. Each file
is flushed when its own turn comes. Between the two steps the record is in no file; and when `bury`
returns an error, the letters it was given are gone.

* `perform_letters`: a section that takes a record away without settling it hands it out as a
  letter, as it was.
* `letters_kept`: over every run in which no letter is refused, and in which the queue is not
  flushed while a record its disk still has is on its way, every record once on disk and not settled
  since is in one of the two files, in memory and after a crash.
-/

namespace RustyPick

open Lib

/-! ## The two files and the hands -/

/-- One of the two files: as the engine holds it, and its records on disk. -/
structure LetterFile where
  table : Table
  disk : SectionDir

structure LetterStore where
  queue : LetterFile
  /-- What the listing says `<name>.DEAD` is, `none` before it is created. -/
  kind : Option FileKind
  /-- The dead-letter file, before it is created as creation will leave it. -/
  dead : LetterFile
  /-- The letters a client has taken out of the queue and not buried yet. -/
  hands : Map String (List DeadLetter) := ∅

inductive LetterSide where
  | queue
  | dead
  deriving DecidableEq, Repr

namespace LetterStore

def file (s : LetterStore) : LetterSide → LetterFile
  | .queue => s.queue
  | .dead => s.dead

def setFile (s : LetterStore) (side : LetterSide) (f : LetterFile) : LetterStore :=
  match side with
  | .queue => { s with queue := f }
  | .dead => { s with dead := f }

/-- A client is carrying the letter. -/
def InHand (s : LetterStore) (letter : DeadLetter) : Prop :=
  ∃ (client : String) (letters : List DeadLetter),
    s.hands[client]? = some letters ∧ letter ∈ letters

end LetterStore

/-- The letters a section leaves in hand. -/
def QueueAction.letters (name : String) (t : Table) (now : Nat) : QueueAction → List DeadLetter
  | .dequeue owner visibility policy =>
    ((t.dequeue name owner visibility policy now).map fun r => r.2.1).getD []
  | .nack key owner policy due =>
    match t.nackUntil name key owner policy due with
    | some (.ok letters, _) => letters
    | _ => []
  | .peekSweep key policy => ((t.peekSweep name key policy now).map fun r => r.2.1).getD []
  | .statistics policy => ((t.queueStatistics name policy now).map fun r => r.2.1).getD []
  | _ => []

def notAQueue (name : String) : DbError :=
  .invalidRequest (name ++ " is not a queue file. Create it with CREATE.FILE " ++ name ++
    " QUEUE, or use SET.FILE to convert it")

def directoryHasNoOrder (name : String) : DbError :=
  .invalidRequest ("'" ++ name ++ "' is a directory file: its records are host files, with no " ++
    "order to claim from - create a separate queue file if the work needs claiming")

def deadLetterName (queue : String) : String := queue ++ DEAD_LETTER_SUFFIX

/-- `bury`, short of the flush it ends with. `failure` is what creating or loading the file runs
into. Whatever comes of it, the client's hands are empty afterwards. -/
def LetterStore.bury (name : String) (s : LetterStore) (client : String)
    (persisted : PersistedQueue) (failure : Option DbError) : Except DbError Unit × LetterStore :=
  match s.hands[client]? with
  | none => (.ok (), s)
  | some letters =>
    let s := { s with hands := s.hands.erase client }
    match s.kind with
    | some .directory => (.error (directoryHasNoOrder (deadLetterName name)), s)
    | some .ordinary => (.error (notAQueue (deadLetterName name)), s)
    | _ =>
      match failure with
      | some e => (.error e, s)
      | none =>
        (.ok (), { s with
          kind := some .queue
          dead := { s.dead with table := (s.dead.table.queueFile persisted).adoptLetters letters } })

/-! ## Flushes -/

namespace LetterFile

/-- What a flush does to the records on disk, one step after another. -/
def saveSteps (f : LetterFile) (order : SaveOrder) (perGroup : Nat) :
    List FileStep × Option (Except IoError SectionMeta) :=
  if f.table.recordsDirty then
    saveWithFsync order f.disk f.table.records f.table.dataMeta f.table.savedKeys perGroup
  else ([], some (.ok f.table.dataMeta))

/-- A flush that succeeds, as far as the records are concerned. -/
def flush (f : LetterFile) (order : SaveOrder) (perGroup : Nat) : Option LetterFile :=
  match f.saveSteps order perGroup with
  | (steps, some (.ok written)) =>
    some
      { table := ({ f.table with dataMeta := written, legacyData := false }).clearDirty
        disk := f.disk.performAll steps }
  | _ => none

/-- The records on disk when a flush has come as far as `steps`. -/
def cut (f : LetterFile) (order : SaveOrder) (perGroup steps : Nat) : SectionDir :=
  f.disk.performAll ((f.saveSteps order perGroup).1.take steps)

/-- A flush that comes as far as `steps` and then returns an error. The metadata in memory follows
the disk's once the records are all written; the marks stay. -/
def failFlush (f : LetterFile) (order : SaveOrder) (perGroup steps : Nat) : LetterFile :=
  match f.saveSteps order perGroup with
  | (all, some (.ok written)) =>
    if all.length ≤ steps then
      { table := { f.table with dataMeta := written, legacyData := false }
        disk := f.disk.performAll all }
    else { f with disk := f.cut order perGroup steps }
  | _ => { f with disk := f.cut order perGroup steps }

/-- The record a load finds under `k`. -/
def onDisk (f : LetterFile) (k : String) : Option Record :=
  match load f.disk with
  | .ok (_, map) => map[k]?
  | .error _ => none

end LetterFile

/-! ## Runs -/

inductive LetterAction where
  /-- A section of a queue command. -/
  | command (client : String) (a : QueueAction)
  | bury (client : String) (persisted : PersistedQueue) (failure : Option DbError)
  | flush (side : LetterSide) (order : SaveOrder) (perGroup : Nat)
  | flushFails (side : LetterSide) (order : SaveOrder) (perGroup steps : Nat)

/-- A step. A client runs no section while it still carries letters. -/
def LetterAction.perform (name : String) (s : LetterStore) (now : Nat) :
    LetterAction → Option (QueueOutcome × LetterStore)
  | .command client a =>
    if client ∈ s.hands then none
    else
      (a.perform name s.queue.table now).map fun r =>
        let letters := a.letters name s.queue.table now
        (r.1, { s with
          queue := { s.queue with table := r.2 }
          hands := if letters.isEmpty then s.hands else s.hands.insert client letters })
  | .bury client persisted failure =>
    let r := s.bury name client persisted failure
    some (.ofResult r.1, r.2)
  | .flush side order perGroup =>
    ((s.file side).flush order perGroup).map fun f => (.done, s.setFile side f)
  | .flushFails side order perGroup steps =>
    some (.done, s.setFile side ((s.file side).failFlush order perGroup steps))

structure LetterEvent where
  reading : Nat
  action : LetterAction
  outcome : QueueOutcome

inductive LetterRun (name : String) (ok : LetterStore → LetterEvent → Prop) :
    LetterStore → List LetterEvent → LetterStore → Prop where
  | nil (s : LetterStore) : LetterRun name ok s [] s
  | cons {s s' s'' : LetterStore} {e : LetterEvent} {es : List LetterEvent} :
      ok s e →
      e.action.perform name s e.reading = some (e.outcome, s') →
      LetterRun name ok s' es s'' → LetterRun name ok s (e :: es) s''

/-- The section acknowledges or deletes the record under `k`, or puts another in its place. -/
def QueueAction.disposes : QueueAction → QueueOutcome → String → Prop
  | .ack key _, .settled, k => key = k
  | .delete key, _, k => key = k
  | .enqueue _ _, .enqueued key, k => key = k
  | _, _, _ => False

def LetterEvent.settles (e : LetterEvent) (k : String) : Prop :=
  match e.action with
  | .command _ a => a.disposes e.outcome k
  | _ => False

/-! ## When nothing is lost -/

/-- A record on its way: carried by a client, or in the dead-letter file and not yet on its disk. -/
def LetterStore.Crossing (s : LetterStore) (k : String) : Prop :=
  (∃ letter, s.InHand letter ∧ letter.key = k) ∨
    s.dead.table.dirtyAll = true ∨ k ∈ s.dead.table.dirtyKeys

/-- The queue's disk has no record that is on its way. -/
def LetterStore.NoneCrossing (s : LetterStore) : Prop :=
  ∀ k, s.queue.onDisk k ≠ none → ¬ s.Crossing k

/-- What a flush writes can be read back. -/
def LetterFile.Readable (f : LetterFile) : Prop :=
  AllFit f.table.records ∧ f.table.records.size < 2 ^ 64

/-- What each step has to meet: no letter is refused, the queue is flushed when nothing its disk has
is on its way, and what is written can be read; a flush that fails is not one that changes the
number of groups. -/
def Careful (s : LetterStore) (e : LetterEvent) : Prop :=
  match e.action with
  | .command _ _ => True
  | .bury client _ failure =>
    client ∈ s.hands → s.kind ≠ some .ordinary ∧ s.kind ≠ some .directory ∧ failure = none
  | .flush side _ _ => (s.file side).Readable ∧ (side = .queue → s.NoneCrossing)
  | .flushFails side _ perGroup _ => (s.file side).Readable ∧ (side = .queue → s.NoneCrossing) ∧
    ((s.file side).table.recordsDirty = true →
      planModulus (s.file side).table.dataMeta.modulus (s.file side).table.records.size perGroup =
        some (s.file side).table.dataMeta.modulus)

/-! ## What a section marks -/

/-- Every record that differs is marked, and nothing else about the save has changed. -/
structure Marks (t t' : Table) : Prop where
  dirtyAll : t'.dirtyAll = t.dirtyAll
  legacyData : t'.legacyData = t.legacyData
  dataMeta : t'.dataMeta = t.dataMeta
  keys : t.dirtyKeys ⊆ t'.dirtyKeys
  changed : ∀ k, t'.records[k]? ≠ t.records[k]? → k ∈ t'.dirtyKeys

theorem Marks.refl (t : Table) : Marks t t :=
  ⟨rfl, rfl, rfl, Finset.Subset.refl _, fun _ h => absurd rfl h⟩

theorem Marks.trans {t t₁ t₂ : Table} (h : Marks t t₁) (h' : Marks t₁ t₂) : Marks t t₂ := by
  refine ⟨h'.dirtyAll.trans h.dirtyAll, h'.legacyData.trans h.legacyData,
    h'.dataMeta.trans h.dataMeta, h.keys.trans h'.keys, fun k hk => ?_⟩
  by_cases hne : t₁.records[k]? = t.records[k]?
  · exact h'.changed k (by rw [hne]; exact hk)
  · exact h'.keys (h.changed k hne)

theorem Marks.withQueue {t t' : Table} (h : Marks t t') (q : Option QueueState) :
    Marks t { t' with queue := q } := ⟨h.dirtyAll, h.legacyData, h.dataMeta, h.keys, h.changed⟩

/-- One record changed and its key marked. -/
theorem marks_edit {t : Table} {key : String} {records : Entries} (q : Option QueueState)
    (indexes : Map String FileIndex)
    (hother : ∀ k, k ≠ key → records[k]? = t.records[k]?) :
    Marks t (({ t with queue := q, indexes := indexes, records := records } : Table).markDirty
      key) := by
  refine ⟨rfl, rfl, rfl, Finset.subset_insert _ _, fun k hk => ?_⟩
  by_cases he : k = key
  · exact Finset.mem_insert.mpr (Or.inl he)
  · exact absurd (hother k he) hk

theorem marks_insertRecord (t : Table) (key : String) (record : Record) :
    Marks t (t.insertRecord key record) :=
  marks_edit t.queue _ fun _ hk => getElem?_insert_ne _ _ (Ne.symm hk)

theorem marks_removeRecord (t : Table) (key : String) : Marks t (t.removeRecord key).2 :=
  marks_edit t.queue _ fun _ hk => getElem?_erase_ne _ (Ne.symm hk)

theorem marks_takeDead (acc : List DeadLetter × Table) (key : String) :
    Marks acc.2 (Table.takeDead acc key).2 := by
  unfold Table.takeDead
  split
  · exact Marks.refl _
  · exact marks_edit _ acc.2.indexes fun _ hk => getElem?_erase_ne _ (Ne.symm hk)

theorem marks_takeExpired (t : Table) (now : Nat) (policy : QueuePolicy) :
    Marks t (t.takeExpired now policy).2 := by
  unfold Table.takeExpired
  split
  · exact Marks.refl t
  · refine List.foldlRecOn _ _ (motive := fun acc : List DeadLetter × Table => Marks t acc.2)
      ((Marks.refl t).withQueue _) ?_
    intro acc hacc key _
    exact hacc.trans (marks_takeDead acc key)

theorem marks_adoptLetters (letters : List DeadLetter) (t : Table) :
    Marks t (t.adoptLetters letters) := by
  refine List.foldlRecOn _ _ (motive := fun t' => Marks t t') (Marks.refl t) ?_
  intro t' ht' letter _
  exact ht'.trans ((marks_insertRecord t' letter.key letter.record).withQueue _)

theorem marks_queueFile (t : Table) (persisted : PersistedQueue) :
    Marks t (t.queueFile persisted) := by
  unfold Table.queueFile
  split
  · exact Marks.refl t
  · exact (Marks.refl t).withQueue _
  · unfold Table.attachQueue
    split
    · exact Marks.refl t
    · exact (Marks.refl t).withQueue _

theorem perform_marks {name : String} {t t' : Table} {now : Nat} {a : QueueAction}
    {out : QueueOutcome} (hp : a.perform name t now = some (out, t')) : Marks t t' := by
  cases a with
  | attach persisted =>
    cases hp
    unfold Table.attachQueue
    split
    · exact Marks.refl t
    · exact (Marks.refl t).withQueue _
  | reconcile => cases hp; exact (Marks.refl t).withQueue _
  | peek key => cases hp; exact Marks.refl t
  | delete key => cases hp; exact marks_removeRecord t key
  | enqueue record due =>
    obtain ⟨q, q', -, -, -, rfl⟩ := perform_enqueue hp
    exact (((Marks.refl t).withQueue _).trans (marks_insertRecord _ _ record)).withQueue _
  | dequeue owner visibility policy =>
    obtain ⟨q, -, rfl⟩ := perform_dequeue hp
    exact (marks_takeExpired t now _).withQueue _
  | ack key owner =>
    obtain ⟨q, -, ⟨-, -, -, rfl⟩ | ⟨-, -, rfl⟩⟩ := perform_ack hp
    · exact Marks.refl _
    · exact (marks_removeRecord t key).withQueue _
  | nack key owner policy due =>
    obtain ⟨q, -, ⟨-, -, -, rfl⟩ | ⟨-, -, q', ⟨-, rfl⟩ | ⟨-, rfl⟩⟩⟩ := perform_nack hp
    · exact Marks.refl _
    · exact marks_edit _ t.indexes fun _ hk => getElem?_erase_ne _ (Ne.symm hk)
    · exact (Marks.refl t).withQueue _
  | peekSweep key policy =>
    obtain ⟨-, -, -, rfl⟩ := perform_peekSweep hp
    exact marks_takeExpired t now _
  | statistics policy =>
    obtain ⟨-, -, -, rfl⟩ := perform_statistics hp
    exact marks_takeExpired t now _

/-! ## What a section hands out -/

theorem expireOne_fold_dead (policy : QueuePolicy) : ∀ (keys : List String)
    (acc : QueueState × Expired), ∃ dead, dead.Sublist keys ∧
      (keys.foldl (QueueState.expireOne policy) acc).2.dead = acc.2.dead ++ dead := by
  intro keys
  induction keys with
  | nil => intro acc; exact ⟨[], List.Sublist.slnil, by simp⟩
  | cons key keys ih =>
    intro acc
    obtain ⟨dead, hsub, heq⟩ := ih (QueueState.expireOne policy acc key)
    have hstep : (QueueState.expireOne policy acc key).2.dead = acc.2.dead ++ [key] ∨
        (QueueState.expireOne policy acc key).2.dead = acc.2.dead := by
      unfold QueueState.expireOne
      dsimp only
      split
      · exact Or.inl rfl
      · exact Or.inr rfl
    rw [List.foldl_cons, heq]
    rcases hstep with hstep | hstep
    · exact ⟨key :: dead, hsub.cons_cons key, by rw [hstep]; simp⟩
    · exact ⟨dead, hsub.cons key, by rw [hstep]⟩

theorem nodup_expired (q : QueueState) (now : Nat) (policy : QueuePolicy) :
    (q.expire now policy).2.dead.Nodup := by
  obtain ⟨dead, hsub, heq⟩ := expireOne_fold_dead policy
    ((q.releaseDue now).2.claims.filter fun _ claim => claim.hasLapsed now).keys
    ((q.releaseDue now).2, {})
  have hdead : (q.expire now policy).2.dead = dead := heq
  rw [hdead]
  exact hsub.nodup Std.ExtTreeMap.nodup_keys

/-- Each dead record is handed out as it was, once. -/
theorem takeDead_fold_letters : ∀ (keys : List String) (acc : List DeadLetter × Table)
    (q : QueueState), keys.Nodup → acc.2.queue = some q →
    ∃ letters, (keys.foldl Table.takeDead acc).1 = acc.1 ++ letters ∧
      letters.map DeadLetter.key = keys ∧
      ∀ l ∈ letters, l.record = acc.2.records[l.key]?.getD {} := by
  intro keys
  induction keys with
  | nil => intro acc q _ _; exact ⟨[], by simp⟩
  | cons key keys ih =>
    intro acc q hnodup hq
    rw [List.nodup_cons] at hnodup
    have hstep : Table.takeDead acc key =
        (acc.1 ++ [{ key := key, record := acc.2.records[key]?.getD {}
                     deliveries := q.deliveriesOf key }],
          ({ acc.2 with
            queue := some (q.forget key), records := acc.2.records.erase key }).markDirty key) := by
      unfold Table.takeDead
      simp only [hq]
    obtain ⟨letters, heq, hkeys, hrecs⟩ := ih (Table.takeDead acc key) (q.forget key) hnodup.2
      (by rw [hstep]; rfl)
    rw [List.foldl_cons, heq, hstep]
    refine ⟨_ :: letters, List.append_assoc _ _ _, by simp [hkeys], ?_⟩
    intro l hl
    rcases List.mem_cons.mp hl with rfl | hlater
    · rfl
    · -- a later letter is of another key, which the step has left alone
      have hne : key ≠ l.key := by
        intro he
        exact hnodup.1 (he ▸ hkeys ▸ List.mem_map_of_mem hlater)
      rw [hrecs l hlater, hstep]
      show (acc.2.records.erase key)[l.key]?.getD {} = acc.2.records[l.key]?.getD {}
      rw [getElem?_erase_ne _ hne]

/-- What leaves the queue is handed out, and what is handed out had a place in the order. -/
structure HandsOut (f : String → Place) (t t' : Table) (letters : List DeadLetter) (k : String) :
    Prop where
  left : t'.records[k]? = t.records[k]? ∨
    (t'.records[k]? = none ∧ ∃ l ∈ letters, l.key = k)
  asWas : ∀ l ∈ letters, l.key = k → f k ≠ .absent ∧ l.record = t.records[k]?.getD {}

theorem HandsOut.none {f : String → Place} {t t' : Table} {k : String}
    (h : t'.records[k]? = t.records[k]?) : HandsOut f t t' [] k :=
  ⟨Or.inl h, fun l hl => (by cases hl)⟩

section

variable {f : String → Place} {q : QueueState} {t : Table}

theorem takeExpired_letters (h : Ordered f q t) (now : Nat) (policy : QueuePolicy) (k : String) :
    HandsOut f t (t.takeExpired now policy).2 (t.takeExpired now policy).1 k := by
  obtain ⟨-, -, hdead⟩ := represents_expire h.places now policy
  obtain ⟨-, -, -, hrecs⟩ := takeExpired_spec h now policy
  have hexp : t.takeExpired now policy =
      (q.expire now policy).2.dead.foldl Table.takeDead
        ([], { t with queue := some (q.expire now policy).1 }) := by
    unfold Table.takeExpired
    rw [h.queue]
  obtain ⟨letters, heq, hkeys, hletters⟩ := takeDead_fold_letters (q.expire now policy).2.dead
    ([], { t with queue := some (q.expire now policy).1 }) _ (nodup_expired q now policy) rfl
  rw [← hexp, List.nil_append] at heq
  have hplace : ∀ l ∈ letters, ∃ c, f l.key = .claimed c := by
    intro l hl
    obtain ⟨c, hc, -⟩ := (hdead l.key).mp (hkeys ▸ List.mem_map_of_mem hl)
    exact ⟨c, hc⟩
  rw [heq]
  constructor
  · rw [hrecs]
    split
    · rename_i hgone
      refine Or.inr ⟨rfl, ?_⟩
      have hin : k ∈ (q.expire now policy).2.dead := by
        rw [hdead]
        cases hf : f k with
        | claimed c => by_cases hl : c.hasLapsed now <;> simp_all [swept, Place.sweep]
        | held m => by_cases hm : m ≤ now <;> simp_all [swept, Place.sweep]
        | available => simp_all [swept, Place.sweep]
        | absent => exact absurd hf hgone.1
      rw [← hkeys] at hin
      obtain ⟨l, hl, hlk⟩ := List.mem_map.mp hin
      exact ⟨l, hl, hlk⟩
    · exact Or.inl rfl
  · rintro l hl rfl
    obtain ⟨c, hc⟩ := hplace l hl
    exact ⟨by simp [hc], hletters l hl⟩

/-- A section leaves the record under `k` alone, settles it, or hands it out. -/
theorem perform_letters {name : String} {t' : Table} {now : Nat} {a : QueueAction}
    {out : QueueOutcome} (h : Ordered f q t) (hp : a.perform name t now = some (out, t'))
    {k : String} (hk : ¬ a.disposes out k) : HandsOut f t t' (a.letters name t now) k := by
  cases a with
  | attach persisted =>
    cases hp
    refine HandsOut.none ?_
    unfold Table.attachQueue
    split <;> rfl
  | reconcile => cases hp; exact HandsOut.none rfl
  | peek key => cases hp; exact HandsOut.none rfl
  | delete key =>
    cases hp
    exact HandsOut.none (getElem?_erase_ne _ hk)
  | enqueue record due =>
    obtain ⟨q', t₁, hrun, -, hrec, -⟩ := enqueueDue_spec h record due now
    simp only [QueueAction.perform, hrun, Option.map_some, Option.some.injEq, Prod.mk.injEq] at hp
    obtain ⟨rfl, rfl⟩ := hp
    refine HandsOut.none ?_
    rw [hrec, getElem?_insert_ne _ _ hk]
  | ack key owner =>
    rcases ack_spec h name key owner with ⟨-, q', t₁, hrun, -, hrec, -⟩ | ⟨-, e, hrun⟩
    · simp only [QueueAction.perform, hrun, Option.map_some, Option.some.injEq, Prod.mk.injEq] at hp
      obtain ⟨rfl, rfl⟩ := hp
      refine HandsOut.none ?_
      rw [hrec, getElem?_erase_ne _ hk]
    · simp only [QueueAction.perform, hrun, Option.map_some, Option.some.injEq, Prod.mk.injEq] at hp
      obtain ⟨rfl, rfl⟩ := hp
      exact HandsOut.none rfl
  | nack key owner policy due =>
    rcases verify_spec h key owner with ⟨hv, hheld⟩ | ⟨e, hv, hheld⟩
    · simp only [QueueAction.perform, QueueAction.letters, Table.nackUntil, h.queue,
        Option.map_some, hv, Option.some.injEq, Prod.mk.injEq] at hp ⊢
      obtain ⟨-, rfl⟩ := hp
      generalize q.releaseUntil key (effectivePolicy name policy) due = released
      obtain ⟨exhausted, q'⟩ := released
      cases exhausted with
      | false => exact HandsOut.none rfl
      | true =>
        obtain ⟨-, expires, hclaimed⟩ := hheld
        constructor
        · by_cases he : key = k
          · refine Or.inr ⟨?_, _, List.mem_singleton.mpr rfl, he⟩
            simp [Table.markDirty, he]
          · exact Or.inl (getElem?_erase_ne _ he)
        · intro l hl he
          rw [List.mem_singleton] at hl
          subst hl he
          exact ⟨by simp [hclaimed], rfl⟩
    · simp only [QueueAction.perform, QueueAction.letters, Table.nackUntil, h.queue,
        Option.map_some, hv, Option.some.injEq, Prod.mk.injEq] at hp ⊢
      obtain ⟨-, rfl⟩ := hp
      exact HandsOut.none rfl
  | dequeue owner visibility policy =>
    have hsweep := takeExpired_letters h now (dequeuePolicy name policy visibility) k
    obtain ⟨q', hord, -, -⟩ := takeExpired_spec h now (dequeuePolicy name policy visibility)
    have hq := hord.queue
    simp only [QueueAction.perform, QueueAction.letters, Table.dequeue, dequeuePolicy]
      at hp hq hsweep ⊢
    simp only [hq, Option.map_some, Option.some.injEq, Prod.mk.injEq, Option.getD_some] at hp ⊢
    obtain ⟨-, rfl⟩ := hp
    exact ⟨hsweep.left, hsweep.asWas⟩
  | peekSweep key policy =>
    have hsweep := takeExpired_letters h now (effectivePolicy name policy) k
    obtain ⟨q', hord, -, -⟩ := takeExpired_spec h now (effectivePolicy name policy)
    simp only [QueueAction.perform, QueueAction.letters, Table.peekSweep, Table.deliveryIn,
      hord.queue, Option.map_some, Option.some.injEq, Prod.mk.injEq, Option.getD_some] at hp ⊢
    obtain ⟨-, rfl⟩ := hp
    exact hsweep
  | statistics policy =>
    have hsweep := takeExpired_letters h now (effectivePolicy name policy) k
    obtain ⟨q', hord, -, -⟩ := takeExpired_spec h now (effectivePolicy name policy)
    simp only [QueueAction.perform, QueueAction.letters, Table.queueStatistics, hord.queue,
      Option.map_some, Option.some.injEq, Prod.mk.injEq, Option.getD_some] at hp ⊢
    obtain ⟨-, rfl⟩ := hp
    exact hsweep

end

end RustyPick
