import RustyPick.FlushSteps
import RustyPick.TableEdit
import RustyPick.Query
import RustyPick.QueueRun

/-!
# RustyPick.IndexRun

Runs of commands on one file, and the queries in between.

What a rebuild establishes and a maintained change keeps, every command keeps that goes through
`insertRecord` and `removeRecord` or marks every index for a rebuild. The others edit the map of
records itself: the two that change an account list of `$CLIENTS` where it stands, and the queue
commands that take a record out for the dead letters.

* `kept_perform`: one command, with what it asks of the others.
* `kept_run`: so over any run; and with `Covers` for what is kept, every query on the way answers as
  a scan would.
-/

namespace RustyPick

open Lib

/-! ## One command -/

inductive TableAction where
  | write (key : Option String) (record : Record) (isDict : Bool) (condition : Condition)
      (autokey : Bool) (persisted : Option UInt64) (now : Nat)
  | delete (key : String) (isDict : Bool) (condition : Condition)
  | transaction (changes : List Change)
  | queue (action : QueueAction) (now : Nat)
  | adopt (letters : List DeadLetter)
  | dictionary (entries : Map String Record)
  | addAuthorizedClient (name thumbprint : String) (grant : Table.ClientGrant)
  | removeAuthorizedClient (name : String)
  | addClientAccount (name account : String)
  | removeClientAccount (name account : String)
  /-- A bulk edit: the records are replaced and the whole table touched. -/
  | bulk (records : Map String Record)
  | createIndex (field : String) (exclude : Finset String)
  | dropIndex (field : String)
  | rebuildIndex (field : String)
  | setExclusions (field : String) (values : Finset String)
  | rebuildStale
  | flush (order : FlushOrder) (dir : TableDir) (perGroup : Nat)

/-- The table after a refused command is the table before it. -/
def orUnchanged (t : Table) : Except DbError Table → Table
  | .ok t' => t'
  | .error _ => t

/-- The table after a command. `none` where the code panics or does not return. -/
def TableAction.perform (digest : Record → String) (name : String) (t : Table) :
    TableAction → Option Table
  | .write key record isDict condition autokey persisted now =>
    some (t.writeRecord digest name key record isDict condition autokey persisted now).2
  | .delete key isDict condition => some (t.deleteRecord digest name key isDict condition).2
  | .transaction changes => some (changes.foldl Table.applyChange t)
  | .queue action now => (action.perform name t now).map Prod.snd
  | .adopt letters => some (t.adoptLetters letters)
  | .dictionary entries => some ({ t with dictionary := entries }).markDictDirty
  | .addAuthorizedClient client thumbprint grant =>
    some (t.addAuthorizedClient client thumbprint grant)
  | .removeAuthorizedClient client => some (t.removeAuthorizedClient client).2
  | .addClientAccount client account => some (t.addClientAccount client account).2
  | .removeClientAccount client account => some (t.removeClientAccount client account).2
  | .bulk records => some ({ t with records := records }).touchAll
  | .createIndex field exclude => some (orUnchanged t (t.createIndexCommand name field exclude))
  | .dropIndex field => some (t.dropIndex field).2
  | .rebuildIndex field => some (orUnchanged t (t.rebuildIndex field))
  | .setExclusions field values => some (orUnchanged t (t.setIndexExclusions name field values))
  | .rebuildStale => some t.rebuildStaleIndexes
  | .flush order dir perGroup =>
    match (flushLocked order dir t perGroup).2 with
    | some (.ok t') => some t'
    | some (.error _) => none
    | none => none

/-- An edit in place that gives the record no index key it did not have, in any index that is
consulted. -/
def AddsNoIndexKey (t : Table) (name : String) (edit : Record → Record) : Prop :=
  ∀ (record : Record) (field : String) (idx : FileIndex), t.records[name]? = some record →
    t.indexes[field]? = some idx → idx.needsRebuild = false →
    ∀ value ∈ idx.retained (some (edit record)), value ∈ idx.retained (some record)

/-- What a command has to be for the indexes to stay right. -/
def TableAction.Safe (t : Table) : TableAction → Prop
  | .addClientAccount name account =>
    AddsNoIndexKey t name fun record => (Table.withAccount record account).2
  | .removeClientAccount name account =>
    AddsNoIndexKey t name fun record => (Table.withoutAccount record account).2
  | _ => True

/-- The records a section takes out of the table for the dead letters. -/
def QueueAction.buried (name : String) (t : Table) (now : Nat) : QueueAction → List String
  | .dequeue _ visibility policy =>
    (t.queue.map fun q => (q.expire now { effectivePolicy name policy with
      visibility := visibility.getD policy.visibility }).2.dead).getD []
  | .nack key owner policy due =>
    match t.queue with
    | none => []
    | some q =>
      if (q.verify key owner (t.records.contains key)).isOk ∧
        (q.releaseUntil key (effectivePolicy name policy) due).1 = true then [key] else []
  | .peekSweep _ policy | .statistics policy =>
    (t.queue.map fun q => (q.expire now (effectivePolicy name policy)).2.dead).getD []
  | _ => []

/-! ## What keeps the indexes right -/

/-- A save changes what an index knows of its own files, and nothing it answers by. -/
def SameAnswers (idx idx' : FileIndex) : Prop :=
  idx'.field = idx.field ∧ idx'.attr = idx.attr ∧ idx'.postings = idx.postings ∧
    idx'.excluded = idx.excluded ∧ idx'.needsRebuild = idx.needsRebuild

/-- A property of an index beside its records that a rebuild establishes, and that a maintained
change and a save keep. -/
structure Maintained (P : FileIndex → Map String Record → Prop) : Prop where
  rebuild : ∀ (idx : FileIndex) (records : Map String Record) (attr : Nat),
    P (idx.rebuild records attr) records
  apply : ∀ {idx : FileIndex} {records records' : Map String Record} {key : String},
    P idx records → (∀ k, k ≠ key → records'[k]? = records[k]?) →
    P (idx.apply key records[key]? records'[key]?) records'
  same : ∀ {idx idx' : FileIndex} {records : Map String Record}, SameAnswers idx idx' →
    P idx records → P idx' records

/-- Every index that is consulted has it, and is filed under its own field. -/
def EveryIndex (P : FileIndex → Map String Record → Prop) (t : Table) : Prop :=
  ∀ (field : String) (idx : FileIndex), t.indexes[field]? = some idx →
    idx.field = field ∧ (idx.needsRebuild = false → P idx t.records)

/-- The records of `t` without some of them. -/
def Fewer (t : Table) (records : Map String Record) : Prop :=
  ∀ (k : String) (r : Record), records[k]? = some r → t.records[k]? = some r

/-- No index that is consulted minds the record under `key` leaving. -/
def Removable (P : FileIndex → Map String Record → Prop) (t : Table) (key : String) : Prop :=
  ∀ (field : String) (idx : FileIndex), t.indexes[field]? = some idx → idx.needsRebuild = false →
    ∀ records, Fewer t records → P idx records → P idx (records.erase key)

/-- No index that is consulted minds the edit in place. -/
def Editable (P : FileIndex → Map String Record → Prop) (t : Table) (name : String)
    (edit : Record → Record) : Prop :=
  ∀ (record : Record) (field : String) (idx : FileIndex), t.records[name]? = some record →
    t.indexes[field]? = some idx → idx.needsRebuild = false → P idx t.records →
    P idx (t.records.insert name (edit record))

/-- What a command that edits the records itself has to be. -/
def TableAction.Minded (P : FileIndex → Map String Record → Prop) (file : String) (t : Table) :
    TableAction → Prop
  | .addClientAccount name account =>
    Editable P t name fun record => (Table.withAccount record account).2
  | .removeClientAccount name account =>
    Editable P t name fun record => (Table.withoutAccount record account).2
  | .queue action now => ∀ key ∈ action.buried file t now, Removable P t key
  | _ => True

section

variable {P : FileIndex → Map String Record → Prop}

theorem kept_of_indexes_eq {t t' : Table} (h : EveryIndex P t) (hi : t'.indexes = t.indexes)
    (hr : t'.records = t.records) : EveryIndex P t' := by
  intro field idx hidx
  rw [hi] at hidx
  rw [hr]
  exact h field idx hidx

/-- Marking indexes for a rebuild takes them out of use. -/
theorem kept_of_stale {t : Table} {records : Map String Record}
    {indexes : Map String FileIndex} (h : EveryIndex P t)
    (hi : ∀ (field : String) (idx' : FileIndex), indexes[field]? = some idx' →
      ∃ idx, t.indexes[field]? = some idx ∧
        idx'.field = idx.field ∧ (idx'.needsRebuild = true ∨ idx' = idx ∧ records = t.records)) :
    ∀ (field : String) (idx' : FileIndex), indexes[field]? = some idx' →
      idx'.field = field ∧ (idx'.needsRebuild = false → P idx' records) := by
  intro field idx' hidx'
  obtain ⟨idx, hidx, hf, hcase⟩ := hi field idx' hidx'
  refine ⟨hf.trans (h field idx hidx).1, fun hfresh => ?_⟩
  rcases hcase with hstale | ⟨rfl, hrec⟩
  · rw [hstale] at hfresh
    cases hfresh
  · rw [hrec]
    exact (h field idx' hidx).2 hfresh

theorem kept_touchAll {t : Table} (h : EveryIndex P t) (records : Map String Record) :
    EveryIndex P ({ t with records := records }).touchAll := by
  refine kept_of_stale h fun field idx' hidx' => ?_
  simp only [Table.touchAll, Std.ExtTreeMap.getElem?_map, Option.map_eq_some_iff] at hidx'
  obtain ⟨idx, hidx, rfl⟩ := hidx'
  exact ⟨idx, hidx, rfl, Or.inl rfl⟩

theorem kept_markDictDirty {t : Table} (h : EveryIndex P t) (dictionary : Map String Record) :
    EveryIndex P ({ t with dictionary := dictionary }).markDictDirty := by
  refine kept_of_stale h fun field idx' hidx' => ?_
  simp only [Table.markDictDirty, Table.recheckIndexAttributes, Std.ExtTreeMap.getElem?_map,
    Option.map_eq_some_iff] at hidx'
  obtain ⟨idx, hidx, rfl⟩ := hidx'
  refine ⟨idx, hidx, ?_, ?_⟩
  · split <;> rfl
  · split
    · exact Or.inl rfl
    · exact Or.inr ⟨rfl, rfl⟩

/-- Every index told of the change at one key. -/
theorem kept_apply (hP : Maintained P) {t t' : Table} (h : EveryIndex P t) (key : String)
    (hi : t'.indexes = t.indexes.map fun _ idx => idx.apply key t.records[key]? t'.records[key]?)
    (hr : ∀ k : String, k ≠ key → t'.records[k]? = t.records[k]?) : EveryIndex P t' := by
  intro field idx' hidx'
  rw [hi, Std.ExtTreeMap.getElem?_map, Option.map_eq_some_iff] at hidx'
  obtain ⟨idx, hidx, rfl⟩ := hidx'
  obtain ⟨hfield, -, -, -, -, -, hstale⟩ := FileIndex.apply_sameShape idx key t.records[key]?
    t'.records[key]?
  obtain ⟨hf, hkept⟩ := h field idx hidx
  refine ⟨hfield.trans hf, fun hfresh => ?_⟩
  exact hP.apply (hkept (hstale ▸ hfresh)) hr

theorem kept_insertRecord (hP : Maintained P) {t : Table} (h : EveryIndex P t) (key : String)
    (record : Record) : EveryIndex P (t.insertRecord key record) := by
  apply kept_apply hP h key
  · simp [Table.insertRecord, Table.markDirty]
  · intro k hk
    exact getElem?_insert_ne _ _ (Ne.symm hk)

theorem kept_removeRecord (hP : Maintained P) {t : Table} (h : EveryIndex P t) (key : String) :
    EveryIndex P (t.removeRecord key).2 := by
  apply kept_apply hP h key
  · simp [Table.removeRecord, Table.markDirty]
  · intro k hk
    exact getElem?_erase_ne _ (Ne.symm hk)

theorem kept_insert_rebuilt (hP : Maintained P) {t : Table} (h : EveryIndex P t) {field : String}
    {idx : FileIndex} (hf : idx.field = field) (attr : Nat) :
    EveryIndex P { t with indexes := t.indexes.insert field (idx.rebuild t.records attr) } := by
  intro f idx' hidx'
  change (t.indexes.insert field (idx.rebuild t.records attr))[f]? = _ at hidx'
  rw [getElem?_insert_eq] at hidx'
  split at hidx'
  · rename_i hff
    cases hidx'
    exact ⟨hf.trans hff, fun _ => hP.rebuild idx t.records attr⟩
  · exact h f idx' hidx'

theorem kept_rebuildStale (hP : Maintained P) {t : Table} (h : EveryIndex P t) :
    EveryIndex P t.rebuildStaleIndexes := by
  intro field idx' hidx'
  simp only [Table.rebuildStaleIndexes, Std.ExtTreeMap.getElem?_map, Option.map_eq_some_iff]
    at hidx'
  obtain ⟨idx, hidx, rfl⟩ := hidx'
  obtain ⟨hf, hkept⟩ := h field idx hidx
  split_ifs with hstale
  · split
    · rename_i attr _
      exact ⟨hf, fun _ => hP.rebuild idx t.records attr⟩
    · exact ⟨hf, fun hfresh => by rw [hstale] at hfresh; cases hfresh⟩
  · exact ⟨hf, hkept⟩

/-! ### The map itself -/

theorem kept_inPlace {t t' : Table} {name : String} {edit : Record → Record} {record : Record}
    (h : EveryIndex P t) (hrec : t.records[name]? = some record) (hedit : Editable P t name edit)
    (hi : t'.indexes = t.indexes) (hr : t'.records = t.records.insert name (edit record)) :
    EveryIndex P t' := by
  intro field idx hidx
  rw [hi] at hidx
  obtain ⟨hf, hkept⟩ := h field idx hidx
  refine ⟨hf, fun hfresh => ?_⟩
  rw [hr]
  exact hedit record field idx hrec hidx hfresh (hkept hfresh)

theorem kept_erase {t t₀ t' : Table} {key : String} (h : EveryIndex P t) (hkey : Removable P t₀ key)
    (hi₀ : t.indexes = t₀.indexes) (hfewer : Fewer t₀ t.records) (hi : t'.indexes = t.indexes)
    (hr : t'.records = t.records.erase key) : EveryIndex P t' := by
  intro field idx hidx
  rw [hi] at hidx
  obtain ⟨hf, hkept⟩ := h field idx hidx
  refine ⟨hf, fun hfresh => ?_⟩
  rw [hr]
  exact hkey field idx (hi₀ ▸ hidx) hfresh t.records hfewer (hkept hfresh)

theorem Fewer.erase {t : Table} {records : Map String Record} (h : Fewer t records)
    (key : String) : Fewer t (records.erase key) := by
  intro k r hk
  rw [getElem?_erase_eq] at hk
  split at hk
  · cases hk
  · exact h k r hk

theorem kept_addClientAccount {t : Table} (h : EveryIndex P t) {name account : String}
    (hedit : Editable P t name fun record => (Table.withAccount record account).2) :
    EveryIndex P (t.addClientAccount name account).2 := by
  unfold Table.addClientAccount
  split
  · exact h
  · rename_i record hrec
    apply kept_inPlace h hrec hedit
    · dsimp only
      split <;> rfl
    · dsimp only
      split <;> rfl

theorem kept_removeClientAccount {t : Table} (h : EveryIndex P t) {name account : String}
    (hedit : Editable P t name fun record => (Table.withoutAccount record account).2) :
    EveryIndex P (t.removeClientAccount name account).2 := by
  unfold Table.removeClientAccount
  split
  · exact h
  · rename_i record hrec
    apply kept_inPlace h hrec hedit
    · dsimp only
      split <;> rfl
    · dsimp only
      split <;> rfl

/-! ### Records -/

theorem attachAutokey_same (t : Table) (persisted : Option UInt64) :
    (t.attachAutokey persisted).indexes = t.indexes ∧
      (t.attachAutokey persisted).records = t.records := by
  unfold Table.attachAutokey
  split
  · exact ⟨rfl, rfl⟩
  · exact ⟨rfl, rfl⟩

/-- Finding the key of a write moves a counter and nothing else. -/
theorem kept_writeKey {t t' : Table} (h : EveryIndex P t) {name target : String}
    {key : Option String} {autokey : Bool} {persisted : Option UInt64} {now : Nat}
    (hok : t.writeKey name key autokey persisted now = .ok (target, t')) : EveryIndex P t' := by
  unfold Table.writeKey at hok
  split at hok
  · simp only [Except.ok.injEq, Prod.mk.injEq] at hok
    rw [← hok.2]
    exact kept_of_indexes_eq h rfl rfl
  · split at hok
    · cases hok
    · dsimp only at hok
      split at hok
      · cases hok
      · simp only [Except.ok.injEq, Prod.mk.injEq] at hok
        rw [← hok.2]
        obtain ⟨hi, hr⟩ := attachAutokey_same t persisted
        exact kept_of_indexes_eq h hi hr

theorem kept_writeRecord {digest : Record → String} (hP : Maintained P) {t : Table}
    (h : EveryIndex P t) (name : String) (key : Option String) (record : Record) (isDict : Bool)
    (condition : Condition) (autokey : Bool) (persisted : Option UInt64) (now : Nat) :
    EveryIndex P (t.writeRecord digest name key record isDict condition autokey persisted now).2 := by
  have hkey : ∀ target t', t.writeKey name key autokey persisted now = .ok (target, t') →
      EveryIndex P t' := fun target t' hok => kept_writeKey h hok
  unfold Table.writeRecord
  split
  · split
    · exact h
    · split
      · exact h
      · exact kept_markDictDirty h _
  · split
    · exact h
    · rename_i target t' hok
      split
      · exact hkey target t' hok
      · exact kept_insertRecord hP (hkey target t' hok) _ _

theorem kept_deleteRecord {digest : Record → String} (hP : Maintained P) {t : Table}
    (h : EveryIndex P t) (name key : String) (isDict : Bool) (condition : Condition) :
    EveryIndex P (t.deleteRecord digest name key isDict condition).2 := by
  unfold Table.deleteRecord
  split
  · split
    · exact h
    · exact kept_markDictDirty h _
  · split
    · exact h
    · exact kept_removeRecord hP h key

theorem kept_applyChange (hP : Maintained P) {t : Table} (h : EveryIndex P t) (change : Change) :
    EveryIndex P (t.applyChange change) := by
  unfold Table.applyChange
  split
  · exact kept_insertRecord hP h _ _
  · exact kept_markDictDirty h _
  · exact kept_removeRecord hP h _
  · exact kept_markDictDirty h _

theorem kept_foldl {α : Type} {f : Table → α → Table}
    (hf : ∀ t a, EveryIndex P t → EveryIndex P (f t a)) (l : List α) : ∀ {t : Table}, EveryIndex P t → EveryIndex P (l.foldl f t) := by
  induction l with
  | nil => intro t h; exact h
  | cons a l ih => intro t h; exact ih (hf t a h)

/-! ### Queues -/

/-- One record taken out of a table that differs from `t` in its order and by records taken out
before. -/
theorem kept_takeDead {t : Table} {acc : List DeadLetter × Table} {key : String}
    (h : EveryIndex P acc.2) (hkey : Removable P t key) (hi : acc.2.indexes = t.indexes)
    (hfewer : Fewer t acc.2.records) :
    EveryIndex P (Table.takeDead acc key).2 ∧ (Table.takeDead acc key).2.indexes = t.indexes ∧
      Fewer t (Table.takeDead acc key).2.records := by
  unfold Table.takeDead
  split
  · exact ⟨h, hi, hfewer⟩
  · exact ⟨kept_erase h hkey hi hfewer rfl rfl, hi, hfewer.erase key⟩

theorem kept_takeExpired {t : Table} (h : EveryIndex P t) (now : Nat) (policy : QueuePolicy)
    (hdead : ∀ q, t.queue = some q → ∀ key ∈ (q.expire now policy).2.dead, Removable P t key) :
    EveryIndex P (t.takeExpired now policy).2 := by
  have hfold : ∀ (keys : List String) (acc : List DeadLetter × Table), EveryIndex P acc.2 →
      acc.2.indexes = t.indexes → Fewer t acc.2.records → (∀ key ∈ keys, Removable P t key) →
      EveryIndex P (keys.foldl Table.takeDead acc).2 := by
    intro keys
    induction keys with
    | nil => intro acc hacc _ _ _; exact hacc
    | cons key keys ih =>
      intro acc hacc hi hfewer hkeys
      obtain ⟨hacc, hi, hfewer⟩ := kept_takeDead hacc (hkeys key List.mem_cons_self) hi hfewer
      exact ih _ hacc hi hfewer fun k hk => hkeys k (List.mem_cons_of_mem _ hk)
  unfold Table.takeExpired
  split
  · exact h
  · rename_i q hq
    exact hfold _ _ (kept_of_indexes_eq h rfl rfl) rfl (fun _ _ hk => hk) (hdead q hq)

theorem kept_queue (hP : Maintained P) {t t' : Table} (h : EveryIndex P t) {name : String} {now : Nat}
    {action : QueueAction} {out : QueueOutcome}
    (hburied : ∀ key ∈ action.buried name t now, Removable P t key)
    (hp : action.perform name t now = some (out, t')) : EveryIndex P t' := by
  have hsame : ∀ {t t' : Table}, EveryIndex P t → t'.indexes = t.indexes → t'.records = t.records →
      EveryIndex P t' := fun h => kept_of_indexes_eq h
  cases action with
  | attach persisted =>
    cases hp
    unfold Table.attachQueue
    split
    · exact h
    · exact hsame h rfl rfl
  | reconcile => cases hp; exact hsame h rfl rfl
  | enqueue record due =>
    obtain ⟨q, q', -, -, -, rfl⟩ := perform_enqueue hp
    have hminted : EveryIndex P { t with queue := some (q.mint now).2 } := hsame h rfl rfl
    exact hsame (kept_insertRecord hP hminted (formatKey (q.mint now).1) record) rfl rfl
  | dequeue owner visibility policy =>
    obtain ⟨q, -, rfl⟩ := perform_dequeue hp
    refine hsame (kept_takeExpired h _ _ fun q hq => ?_) rfl rfl
    simpa only [QueueAction.buried, dequeuePolicy, hq, Option.map_some, Option.getD_some]
      using hburied
  | ack key owner =>
    obtain ⟨q, -, ⟨-, -, -, rfl⟩ | ⟨-, -, rfl⟩⟩ := perform_ack hp
    · exact h
    · exact hsame (kept_removeRecord hP h key) rfl rfl
  | nack key owner policy due =>
    obtain ⟨q, hq, ⟨-, -, -, rfl⟩ | ⟨hverify, -, q', ⟨hrelease, rfl⟩ | ⟨-, rfl⟩⟩⟩ := perform_nack hp
    · exact h
    · have hmem : key ∈ (QueueAction.nack key owner policy due).buried name t now := by
        simp only [QueueAction.buried, hq, hverify, hrelease]
        exact List.mem_singleton.mpr rfl
      exact kept_erase h (hburied key hmem) rfl (fun _ _ hk => hk) rfl rfl
    · exact hsame h rfl rfl
  | peek key => cases hp; exact h
  | peekSweep key policy =>
    obtain ⟨-, -, -, rfl⟩ := perform_peekSweep hp
    refine kept_takeExpired h _ _ fun q hq => ?_
    simpa only [QueueAction.buried, hq, Option.map_some, Option.getD_some] using hburied
  | statistics policy =>
    obtain ⟨-, -, -, rfl⟩ := perform_statistics hp
    refine kept_takeExpired h _ _ fun q hq => ?_
    simpa only [QueueAction.buried, hq, Option.map_some, Option.getD_some] using hburied
  | delete key => cases hp; exact kept_removeRecord hP h key

theorem kept_adoptLetters (hP : Maintained P) {t : Table} (h : EveryIndex P t)
    (letters : List DeadLetter) : EveryIndex P (t.adoptLetters letters) :=
  kept_foldl (fun _ letter ht =>
    kept_of_indexes_eq (kept_insertRecord hP ht letter.key letter.record) rfl rfl) letters h

/-! ### Indexes -/

theorem kept_createIndex (hP : Maintained P) {t : Table} (h : EveryIndex P t) (file field : String)
    (exclude : Finset String) :
    EveryIndex P (orUnchanged t (t.createIndexCommand file field exclude)) := by
  unfold Table.createIndexCommand Table.createIndexExcluding
  dsimp only
  split
  · exact h
  · split
    · exact h
    · split
      · exact h
      · split
        · exact h
        · rename_i attr _
          have hf : (FileIndex.withExclusions (trim field) attr exclude).field = trim field := rfl
          exact kept_insert_rebuilt hP h hf attr

theorem kept_dropIndex {t : Table} (h : EveryIndex P t) (field : String) :
    EveryIndex P (t.dropIndex field).2 := by
  intro f idx hidx
  change (t.indexes.erase (trim field))[f]? = _ at hidx
  rw [getElem?_erase_eq] at hidx
  split at hidx
  · cases hidx
  · exact h f idx hidx

theorem kept_rebuildIndex (hP : Maintained P) {t : Table} (h : EveryIndex P t) (field : String) :
    EveryIndex P (orUnchanged t (t.rebuildIndex field)) := by
  unfold Table.rebuildIndex
  dsimp only
  split
  · exact h
  · rename_i idx hidx
    split
    · exact h
    · exact kept_insert_rebuilt hP h (h _ idx hidx).1 _

theorem kept_setExclusions (hP : Maintained P) {t : Table} (h : EveryIndex P t) (file field : String)
    (values : Finset String) :
    EveryIndex P (orUnchanged t (t.setIndexExclusions file field values)) := by
  unfold Table.setIndexExclusions
  dsimp only
  split
  · exact h
  · rename_i idx hidx
    split
    · exact h
    · rename_i idx' hset
      have hf : idx'.field = trim field := by
        unfold FileIndex.setExcluded at hset
        dsimp only at hset
        split at hset
        · cases hset
        · cases hset
          exact (h _ idx hidx).1
      exact kept_insert_rebuilt hP h hf _

/-! ### Flushing -/

theorem sameAnswers_save {idx idx' : FileIndex} {order : SaveOrder} {dir : IndexDir}
    {dataVersion perGroup : Nat} {steps : List IndexStep}
    (h : idx.save order dir dataVersion perGroup = (steps, some (.ok idx'))) :
    SameAnswers idx idx' := by
  unfold FileIndex.save at h
  dsimp only at h
  split at h
  · split at h
    · cases h
    · cases h
    · cases h
      exact ⟨rfl, rfl, rfl, rfl, rfl⟩
  · cases h
    exact ⟨rfl, rfl, rfl, rfl, rfl⟩

theorem sameAnswers_saveIndexes {order : SaveOrder} {dir : TableDir} {dataVersion perGroup : Nat}
    (indexes : List (String × FileIndex)) : ∀ {steps : List TableStep}
      {saved : List (String × FileIndex)},
      saveIndexes order dir dataVersion perGroup indexes = (steps, some (.ok saved)) →
      ∀ field idx', (field, idx') ∈ saved →
        ∃ idx, (field, idx) ∈ indexes ∧ SameAnswers idx idx' := by
  induction indexes with
  | nil =>
    intro steps saved h field idx' hmem
    cases h
    cases hmem
  | cons entry rest ih =>
    intro steps saved h field idx' hmem
    obtain ⟨f, idx⟩ := entry
    unfold saveIndexes at h
    split at h
    · cases h
    · cases h
    · rename_i hsave
      split at h
      · cases h
      · cases h
      · rename_i hrest
        cases h
        rcases List.mem_cons.mp hmem with heq | hmem
        · cases heq
          exact ⟨idx, List.mem_cons_self, sameAnswers_save hsave⟩
        · obtain ⟨idx₀, hidx₀, hsame⟩ := ih hrest field idx' hmem
          exact ⟨idx₀, List.mem_cons_of_mem _ hidx₀, hsame⟩

theorem kept_flush (hP : Maintained P) {t t' : Table} (h : EveryIndex P t) {order : FlushOrder}
    {dir : TableDir} {perGroup : Nat} (hflush : (flushLocked order dir t perGroup).2 = some (.ok t')) :
    EveryIndex P t' := by
  unfold flushLocked at hflush
  split at hflush
  · cases hflush
    exact h
  · dsimp only at hflush
    split at hflush
    · cases hflush
    · cases hflush
    · rename_i t₁ hdata
      split at hflush
      · cases hflush
      · cases hflush
      · rename_i saved hsaved
        cases hflush
        obtain ⟨hi, hr, -⟩ := saveBooks_same { t₁ with indexes := insertAll ∅ saved }
        have hsaved₁ : (saveData order.toSaveOrder dir t.rebuildStaleIndexes perGroup).2 =
            some (.ok t₁) := by rw [hdata]
        obtain ⟨hi₁, hr₁, -⟩ := saveData_same hsaved₁
        refine kept_of_indexes_eq (t := { t₁ with indexes := insertAll ∅ saved }) ?_ hi hr
        intro field idx' hidx'
        rcases of_getElem?_insertAll hidx' with hmem | hnone
        · obtain ⟨idx, hidx, hsame⟩ := sameAnswers_saveIndexes _ hsaved field idx' hmem
          rw [Std.ExtTreeMap.mem_toList_iff_getElem?_eq_some, hi₁] at hidx
          obtain ⟨hf, hkept⟩ := kept_rebuildStale hP h field idx hidx
          refine ⟨hsame.1.trans hf, fun hfresh => ?_⟩
          change P idx' t₁.records
          rw [hr₁]
          exact hP.same hsame (hkept (hsame.2.2.2.2 ▸ hfresh))
        · simp at hnone

/-! ## Any command, any run -/

theorem kept_perform {digest : Record → String} {name : String} (hP : Maintained P)
    {t t' : Table} (h : EveryIndex P t) {action : TableAction} (hminded : action.Minded P name t)
    (hp : action.perform digest name t = some t') : EveryIndex P t' := by
  cases action with
  | write key record isDict condition autokey persisted now =>
    rw [TableAction.perform, Option.some.injEq] at hp
    rw [← hp]
    exact kept_writeRecord hP h name key record isDict condition autokey persisted now
  | delete key isDict condition =>
    rw [TableAction.perform, Option.some.injEq] at hp
    rw [← hp]
    exact kept_deleteRecord hP h name key isDict condition
  | transaction changes =>
    cases hp
    exact kept_foldl (fun _ change ht => kept_applyChange hP ht change) changes h
  | queue action now =>
    rw [TableAction.perform, Option.map_eq_some_iff] at hp
    obtain ⟨⟨out, t₁⟩, hp, rfl⟩ := hp
    exact kept_queue hP h hminded hp
  | adopt letters => cases hp; exact kept_adoptLetters hP h letters
  | dictionary entries => cases hp; exact kept_markDictDirty h entries
  | addAuthorizedClient client thumbprint grant => cases hp; exact kept_insertRecord hP h _ _
  | removeAuthorizedClient client => cases hp; exact kept_removeRecord hP h client
  | addClientAccount client account =>
    rw [TableAction.perform, Option.some.injEq] at hp
    rw [← hp]
    exact kept_addClientAccount h hminded
  | removeClientAccount client account =>
    rw [TableAction.perform, Option.some.injEq] at hp
    rw [← hp]
    exact kept_removeClientAccount h hminded
  | bulk records => cases hp; exact kept_touchAll h records
  | createIndex field exclude =>
    rw [TableAction.perform, Option.some.injEq] at hp
    rw [← hp]
    exact kept_createIndex hP h name field exclude
  | dropIndex field => cases hp; exact kept_dropIndex h field
  | rebuildIndex field =>
    rw [TableAction.perform, Option.some.injEq] at hp
    rw [← hp]
    exact kept_rebuildIndex hP h field
  | setExclusions field values =>
    rw [TableAction.perform, Option.some.injEq] at hp
    rw [← hp]
    exact kept_setExclusions hP h name field values
  | rebuildStale => cases hp; exact kept_rebuildStale hP h
  | flush order dir perGroup =>
    simp only [TableAction.perform] at hp
    split at hp
    · rename_i t₁ hflush
      cases hp
      exact kept_flush hP h hflush
    · cases hp
    · cases hp

/-- The table after a list of commands. -/
def runActions (digest : Record → String) (name : String) (t : Table) :
    List TableAction → Option Table
  | [] => some t
  | action :: rest => (action.perform digest name t).bind fun t' => runActions digest name t' rest

/-- Every command of the run meets `ok` in the table it is given. -/
def EachMeets (digest : Record → String) (name : String) (ok : Table → TableAction → Prop)
    (t : Table) : List TableAction → Prop
  | [] => True
  | action :: rest =>
    ok t action ∧ ∀ t', action.perform digest name t = some t' → EachMeets digest name ok t' rest

theorem kept_run (hP : Maintained P) {digest : Record → String} {name : String}
    {ok : Table → TableAction → Prop} (hok : ∀ t action, ok t action → action.Minded P name t)
    (actions : List TableAction) :
    ∀ {t t' : Table}, EveryIndex P t → EachMeets digest name ok t actions →
      runActions digest name t actions = some t' → EveryIndex P t' := by
  induction actions with
  | nil =>
    intro t t' h _ hrun
    cases hrun
    exact h
  | cons action rest ih =>
    intro t t' h hmeets hrun
    rw [runActions, Option.bind_eq_some_iff] at hrun
    obtain ⟨t₁, hp, hrun⟩ := hrun
    exact ih (kept_perform hP h (hok t action hmeets.1) hp) (hmeets.2 t₁ hp) hrun

end

/-! ## What a query needs -/

theorem maintained_covers : Maintained FileIndex.Covers where
  rebuild := FileIndex.covers_rebuild
  apply := FileIndex.covers_apply
  same := by
    intro idx idx' records h hcov key record hrec value hvalue
    obtain ⟨-, hattr, hpost, hex, -⟩ := h
    rw [FileIndex.mem_retained, hattr, hex] at hvalue
    rw [hpost]
    exact hcov key record hrec value (FileIndex.mem_retained.mpr hvalue)

/-- Taking records away leaves postings behind, which only widens what an index answers. -/
theorem removable_covers (t : Table) (key : String) : Removable FileIndex.Covers t key := by
  intro field idx _ _ records _ hcov k r hk
  rw [getElem?_erase_eq] at hk
  split at hk
  · cases hk
  · exact hcov k r hk

theorem editable_covers {t : Table} {name : String} {edit : Record → Record}
    (h : AddsNoIndexKey t name edit) : Editable FileIndex.Covers t name edit := by
  intro record field idx hrec hidx hfresh hcov k r hk value hvalue
  rw [getElem?_insert_eq] at hk
  split at hk
  · rename_i hname
    subst hname
    cases hk
    exact hcov name record hrec value (h record field idx hrec hidx hfresh value hvalue)
  · exact hcov k r hk value hvalue

/-- Every command of the run is safe in the table it is given. -/
def SafeRun (digest : Record → String) (name : String) (t : Table) : List TableAction → Prop
  | [] => True
  | action :: rest =>
    action.Safe t ∧ ∀ t', action.perform digest name t = some t' → SafeRun digest name t' rest

theorem eachMeets_of_safeRun {digest : Record → String} {name : String}
    (actions : List TableAction) : ∀ {t : Table}, SafeRun digest name t actions →
      EachMeets digest name (fun t action => action.Safe t) t actions := by
  induction actions with
  | nil => intro _ _; exact trivial
  | cons action rest ih => intro t h; exact ⟨h.1, fun t' hp => ih (h.2 t' hp)⟩

theorem minded_of_safe {name : String} (t : Table) (action : TableAction) (h : action.Safe t) :
    action.Minded FileIndex.Covers name t := by
  cases action with
  | addClientAccount client account => exact editable_covers h
  | removeClientAccount client account => exact editable_covers h
  | queue action now => exact fun key _ => removable_covers t key
  | _ => trivial

theorem indexed_run {digest : Record → String} {name : String} (actions : List TableAction)
    {t t' : Table} (h : Indexed t) (hsafe : SafeRun digest name t actions)
    (hrun : runActions digest name t actions = some t') : Indexed t' :=
  kept_run maintained_covers minded_of_safe actions h (eachMeets_of_safeRun actions hsafe) hrun

/-! ## From the load on -/

/-- Every index on disk that a load trusts lists the records of `t` under the keys they carry. -/
def TrustedIndexesCover (dir : TableDir) (t : Table) : Prop :=
  ∀ field ∈ indexedFields dir,
    let idx := loadIndex (dir.indexDir field) field (t.fieldIndex field)
      (if t.legacyData then 0 else t.dataMeta.version)
    idx.needsRebuild = false → idx.Covers t.records

theorem loadIndex_field (dir : IndexDir) (field : String) (attr : Option Nat) (dataVersion : Nat) :
    (loadIndex dir field attr dataVersion).field = field := by
  unfold loadIndex
  split <;> rfl

theorem indexed_loadIndexes {t : Table} {dir : TableDir} (hnone : t.indexes = ∅)
    (hdisk : TrustedIndexesCover dir t) : Indexed (loadIndexes t dir) := by
  unfold loadIndexes
  apply kept_rebuildStale maintained_covers
  intro field idx hidx
  rcases of_getElem?_insertAll hidx with hmem | hmem
  · obtain ⟨f, hf, heq⟩ := List.mem_map.mp hmem
    cases heq
    exact ⟨loadIndex_field _ _ _ _, hdisk field hf⟩
  · simp [hnone] at hmem

theorem indexed_loadTable {dir : TableDir} {t : Table} (hload : loadTable dir = .ok t)
    (hdisk : TrustedIndexesCover dir t) : Indexed t := by
  unfold loadTable at hload
  split at hload
  · cases hload
  · split at hload
    · cases hload
    · cases hload
      exact indexed_loadIndexes rfl hdisk

/-- Every query in every table a run of safe commands reaches from a load answers as a scan
would: the same entries, as often, in the same order. -/
theorem query_eq_scan_of_run {T : Type} (digest : Record → String) (name : String)
    (scaling : Scaling) {dir : TableDir} {t₀ t : Table} (hload : loadTable dir = .ok t₀)
    (hdisk : TrustedIndexesCover dir t₀) {actions : List TableAction}
    (hsafe : SafeRun digest name t₀ actions) (hrun : runActions digest name t₀ actions = some t)
    (useDictSection : Bool) (query : QueryNode) (keysToFilter : Option (List String))
    (project : String → Record → T) :
    collectMatchesIn scaling t useDictSection query keysToFilter project =
      collectMatchesIn scaling { t with indexes := ∅ } useDictSection query keysToFilter project :=
  collectMatchesIn_eq_scan scaling (indexed_run actions (indexed_loadTable hload hdisk) hsafe hrun)
    useDictSection query keysToFilter project

/-! ### A client given one more account -/

/-- A directory nothing was ever written to. -/
def emptyDir : TableDir := { path := "$CLIENTS", data := { path := "$CLIENTS/data" } }

/-- `ACCOUNTS` is attribute 2, it is indexed, and one client is registered with one account. -/
def registerApp : List TableAction :=
  [.dictionary (insertAll ∅ [("ACCOUNTS", Record.text "2")]),
    .createIndex "ACCOUNTS" ∅,
    .addAuthorizedClient "APP" "ab12"
      { allowedAccounts := ["PAYROLL"]
        isAdmin := false
        capabilities := []
        expiresAt := none
        enqueueFiles := [] }]

def accountsAre (account : String) : QueryNode :=
  .condition { fieldName := "ACCOUNTS", op := "=", value := account }

theorem isWildcardValue_of_none {text : String} (h : none = some text) :
    isWildcardValue text = false := by
  cases h

/-- A conversion that leaves every value as it is. -/
def noScaling : Scaling :=
  { scale := fun _ _ => none, plain := fun _ _ _ h => isWildcardValue_of_none h }

/-- The keys a query finds after a run from the empty directory, with and without the indexes. -/
def foundAfter (actions : List TableAction) (query : QueryNode) :
    Option (List String × List String) :=
  match loadTable emptyDir with
  | .ok t₀ => (runActions (fun _ => "") "$CLIENTS" t₀ actions).map fun t =>
      (collectMatchesIn noScaling t false query none fun key _ => key,
        collectMatchesIn noScaling { t with indexes := ∅ } false query none fun key _ => key)
  | .error _ => none

theorem foundAfter_eq_some {actions : List TableAction} {query : QueryNode}
    {found scanned : List String} (h : foundAfter actions query = some (found, scanned)) :
    ∃ t₀ t, loadTable emptyDir = .ok t₀ ∧
      runActions (fun _ => "") "$CLIENTS" t₀ actions = some t ∧
      collectMatchesIn noScaling t false query none (fun key _ => key) = found ∧
      collectMatchesIn noScaling { t with indexes := ∅ } false query none (fun key _ => key) =
        scanned := by
  unfold foundAfter at h
  split at h
  · rename_i t₀ hload
    rw [Option.map_eq_some_iff] at h
    obtain ⟨t, hrun, heq⟩ := h
    rw [Prod.mk.injEq] at heq
    exact ⟨t₀, t, hload, hrun, heq.1, heq.2⟩
  · cases h

theorem query_eq_scan_after_registering :
    ∃ t₀ t, loadTable emptyDir = .ok t₀ ∧
      runActions (fun _ => "") "$CLIENTS" t₀ registerApp = some t ∧
      collectMatchesIn noScaling t false (accountsAre "PAYROLL") none (fun key _ => key) =
        ["APP"] ∧
      collectMatchesIn noScaling t false (accountsAre "PAYROLL") none (fun key _ => key) =
        collectMatchesIn noScaling { t with indexes := ∅ } false (accountsAre "PAYROLL") none
          fun key _ => key := by
  have hfound : foundAfter registerApp (accountsAre "PAYROLL") = some (["APP"], ["APP"]) := by
    decide +kernel
  obtain ⟨t₀, t, hload, hrun, hkeys, -⟩ := foundAfter_eq_some hfound
  have hdisk : TrustedIndexesCover emptyDir t₀ := by
    intro field hfield
    simp [indexedFields, emptyDir] at hfield
  have hsafe : SafeRun (fun _ => "") "$CLIENTS" t₀ registerApp :=
    ⟨trivial, fun _ _ => ⟨trivial, fun _ _ => ⟨trivial, fun _ _ => trivial⟩⟩⟩
  exact ⟨t₀, t, hload, hrun, hkeys, query_eq_scan_of_run _ _ _ hload hdisk hsafe hrun _ _ _ _⟩

/-- The second account is in the record and not in the index: the client is found by a scan only. -/
theorem added_account_not_found :
    ∃ t₀ t, loadTable emptyDir = .ok t₀ ∧
      runActions (fun _ => "") "$CLIENTS" t₀ (registerApp ++ [.addClientAccount "APP" "TESTLAB"]) =
        some t ∧
      collectMatchesIn noScaling t false (accountsAre "TESTLAB") none (fun key _ => key) = [] ∧
      collectMatchesIn noScaling { t with indexes := ∅ } false (accountsAre "TESTLAB") none
        (fun key _ => key) = ["APP"] := by
  have hfound : foundAfter (registerApp ++ [.addClientAccount "APP" "TESTLAB"])
      (accountsAre "TESTLAB") = some ([], ["APP"]) := by
    decide +kernel
  exact foundAfter_eq_some hfound

end RustyPick
