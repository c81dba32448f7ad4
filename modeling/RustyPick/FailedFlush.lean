import RustyPick.Marking
import RustyPick.QueueStore

/-!
# RustyPick.FailedFlush

A flush that fails (`flush_locked`, `db/engine/mod.rs`), and the table it leaves in memory.

An I/O error ends the flush where it is. What it has written stays written, and the marks of the
records, the dictionary and the parts not yet reached stay for the next one; an index, the queue's
book and the counter lose theirs as soon as each is saved.

* `FlushFault.strike`: the directory and the table after an error at any point.
* `Recoverable`: the table against a directory any number of failed flushes have left.
* `Recoverable.marked`: a command keeps it. `Recoverable.saveData` to `Recoverable.saveCounter`, and
  the cuts beside them: so does each part of a flush, done or cut short.
-/

namespace RustyPick

open Lib

/-! ## The flush, part by part -/

/-- What failed flushes have left on disk that the marks in memory do not tell of: sections of which
a save that was changing the modulus has written some groups, and indexes whose postings are newer
than their `state`. No code looks at it. -/
structure Scars where
  torn : Bool := false
  tornIndexes : Finset String := ∅
  unstated : Finset String := ∅

structure FlushState where
  dir : TableDir
  table : Table
  scars : Scars := {}

namespace FlushState

/-- The records. -/
def saveData (order : SaveOrder) (perGroup : Nat) (s : FlushState) : Option FlushState :=
  match RustyPick.saveData order s.dir s.table perGroup with
  | (steps, some (.ok t)) =>
    some
      { dir := s.dir.performAll steps
        table := t
        scars := { s.scars with torn := false } }
  | _ => none

/-- The dictionary. -/
def saveDict (order : FlushOrder) (s : FlushState) : FlushState :=
  { s with dir := s.dir.performAll (RustyPick.saveDict order s.table) }

/-- One index. -/
def saveIndex (order : SaveOrder) (perGroup : Nat) (field : String) (s : FlushState) :
    Option FlushState :=
  match s.table.indexes[field]? with
  | none => none
  | some idx =>
    match idx.save order (s.dir.indexDir field) s.table.dataMeta.version perGroup with
    | (steps, some (.ok saved)) =>
      some
        { dir := s.dir.performAll (steps.map (.index field))
          table := { s.table with indexes := s.table.indexes.insert field saved }
          scars :=
            { s.scars with
              tornIndexes := s.scars.tornIndexes.erase field
              unstated := s.scars.unstated.erase field } }
    | _ => none

/-- The loop over the indexes. -/
def saveFields (order : SaveOrder) (perGroup : Nat) :
    List String → FlushState → Option FlushState
  | [], s => some s
  | field :: rest, s => (s.saveIndex order perGroup field).bind (saveFields order perGroup rest)

/-- The queue's book. -/
def saveBook (s : FlushState) : FlushState :=
  match s.table.queue with
  | some q =>
    if q.isDirty then
      { s with
        dir := s.dir.perform (.renameBook q.toPersisted)
        table := { s.table with queue := some q.clearDirty } }
    else s
  | none => s

/-- A flush that returns. -/
def flush (order : FlushOrder) (perGroup : Nat) (s : FlushState) : Option FlushState :=
  match flushLocked order s.dir s.table perGroup with
  | (steps, some (.ok t)) =>
    some
      { dir := s.dir.performAll steps
        table := t
        scars := if s.table.isDirty then {} else s.scars }
  | _ => none

end FlushState

/-! ## Errors -/

/-- Where a flush fails. `data`, `dict` and `posts` say how many of the part's steps are done by
then; all of them, when what fails is the sync that follows. `posts` is an error before the save of
the section has returned, `state` one after. -/
inductive FlushFault where
  | data (done : Nat)
  | dict (done : Nat)
  | posts (field : String) (done : Nat)
  | state (field : String)
  | book
  | counter

/-- The steps of a save of the records. -/
def dataStepsOf (order : SaveOrder) (s : FlushState) (perGroup : Nat) : List FileStep :=
  if s.table.recordsDirty then
    (saveWithFsync order s.dir.data s.table.records s.table.dataMeta s.table.savedKeys perGroup).1
  else []

/-- The indexes saved before the one that fails: they are saved in the order of their fields. -/
def Table.fieldsBefore (t : Table) (field : String) : List String :=
  t.indexes.keys.filter (· < field)

/-- The error, once the stale indexes have been rebuilt. `none` is a flush that does not come by
there, or ends before. -/
def FlushFault.strike (order : FlushOrder) (perGroup : Nat) (s : FlushState) :
    FlushFault → Option FlushState
  | .data done =>
    let steps := (dataStepsOf order.toSaveOrder s perGroup).take done
    some
      { s with
        dir := s.dir.performAll (steps.map .data)
        scars :=
          { s.scars with
            torn := s.scars.torn ||
              (regroups s.table.dataMeta s.table.records.size perGroup && steps ≠ []) } }
  | .dict done =>
    (s.saveData order.toSaveOrder perGroup).bind fun s =>
      if s.table.dictDirty then
        some { s with dir := s.dir.performAll ((saveDict order s.table).take done) }
      else none
  | .posts field done =>
    (s.saveData order.toSaveOrder perGroup).bind fun s =>
      ((s.saveDict order).saveFields order.toSaveOrder perGroup (s.table.fieldsBefore field)).bind
        fun s =>
          match s.table.indexes[field]? with
          | none => none
          | some idx =>
            if idx.isDirty then
              let posts := (saveWithFsync order.toSaveOrder (s.dir.indexDir field).posts idx.source
                idx.sectionMeta idx.savedValues perGroup).1.take done
              some
                { s with
                  dir := s.dir.performAll ((.makeDir :: posts.map .posts).map (.index field))
                  scars :=
                    { s.scars with
                      tornIndexes :=
                        if regroups idx.sectionMeta idx.source.size perGroup ∧ posts ≠ [] then
                          insert field s.scars.tornIndexes
                        else s.scars.tornIndexes } }
            else none
  | .state field =>
    (s.saveData order.toSaveOrder perGroup).bind fun s =>
      ((s.saveDict order).saveFields order.toSaveOrder perGroup (s.table.fieldsBefore field)).bind
        fun s =>
          match s.table.indexes[field]? with
          | none => none
          | some idx =>
            match idx.save order.toSaveOrder (s.dir.indexDir field) s.table.dataMeta.version
                perGroup with
            | (steps, some (.ok saved)) =>
              some
                { dir := s.dir.performAll (steps.dropLast.map (.index field))
                  table :=
                    { s.table with
                      indexes := s.table.indexes.insert field
                        { saved with dataVersion := idx.dataVersion } }
                  scars :=
                    { s.scars with
                      tornIndexes := s.scars.tornIndexes.erase field
                      unstated :=
                        if idx.isDirty then insert field s.scars.unstated else s.scars.unstated } }
            | _ => none
  | .book =>
    (s.saveData order.toSaveOrder perGroup).bind fun s =>
      ((s.saveDict order).saveFields order.toSaveOrder perGroup s.table.indexes.keys).bind fun s =>
        if s.table.queueDirty then some s else none
  | .counter =>
    (s.saveData order.toSaveOrder perGroup).bind fun s =>
      ((s.saveDict order).saveFields order.toSaveOrder perGroup s.table.indexes.keys).bind fun s =>
        if s.table.autokeyDirty then some s.saveBook else none

/-- A flush that fails. -/
def FlushState.fail (order : FlushOrder) (perGroup : Nat) (fault : FlushFault) (s : FlushState) :
    Option FlushState :=
  if s.table.isDirty then
    fault.strike order perGroup { s with table := s.table.rebuildStaleIndexes }
  else none

/-! ## What a failed flush leaves to the next one -/

/-- A save over these groups would be a full rewrite, if it returned at all. -/
def SavesInFull (previous : SectionMeta) (dirty : Option (Finset String))
    (records perGroup : Nat) : Prop :=
  ∀ m', planModulus previous.modulus records perGroup = some m' →
    fullRewrite previous dirty m' = true

/-- The records load as they stand in memory. -/
def RecordsOnDisk (dir : TableDir) (t : Table) : Prop :=
  ∃ data, loadData dir = .ok data ∧ data.records = storedForm t.records ∧
    data.version = t.dataMeta.version

/-- The dictionary loads as it stands in memory. -/
def DictOnDisk (dir : TableDir) (t : Table) : Prop :=
  loadSection dir.dictPath dir.dict = .ok (storedForm t.dictionary)

/-- An index attached beside these records, whatever attribute its field has by then, is marked for
a rebuild or exact. -/
def IndexOnDisk (dir : IndexDir) (field : String) (dataVersion : Nat) (records : Entries) : Prop :=
  ∀ attr, (loadIndex dir field attr dataVersion).needsRebuild = true ∨
    (loadIndex dir field attr dataVersion).Exact records

/-- The queue's file is not behind its order in memory. -/
def BookCovers (book : Option PersistedQueue) (q : QueueState) : Prop :=
  q.sequence.next ≤ (book.getD .absent).nextSequence ∧
    (∀ e ∈ q.deliveries.toList, e ∈ (book.getD .absent).deliveries) ∧
    ∀ e ∈ q.due.toList, e ∈ (book.getD .absent).due

/-- An index in memory beside its directory. -/
structure IndexHeld (dir : IndexDir) (field : String) (idx : FileIndex) (torn : Bool) :
    Prop where
  name : isValidFieldName field = true
  posts : Resumable dir.posts idx.sectionMeta idx.savedValues idx.source torn
  torn : torn = true → idx.isDirty = true
  sayable : idx.Sayable
  clean : idx.isDirty = false → ∃ found, load dir.posts = .ok (found, storedForm idx.source)

/-- The table in memory beside the directory any number of failed flushes have left. -/
structure Recoverable (s : FlushState) : Prop where
  data : Resumable s.dir.data s.table.dataMeta s.table.savedKeys s.table.records s.scars.torn
  torn : s.scars.torn = true → s.table.recordsDirty = true
  version : s.table.dataMeta.version ≤ u64Max
  legacy : s.table.legacyData = true → s.table.dataMeta.version = 0
  records : s.table.recordsDirty = false → RecordsOnDisk s.dir s.table
  dict : s.table.dictDirty = false → DictOnDisk s.dir s.table
  attached : ∀ field ∈ indexedFields s.dir, field ∈ s.table.indexes
  exact : EveryIndex FileIndex.Exact s.table
  indexes : ∀ (field : String) (idx : FileIndex), s.table.indexes[field]? = some idx →
    IndexHeld (s.dir.indexDir field) field idx (field ∈ s.scars.tornIndexes)
  current : ∀ (field : String) (idx : FileIndex), s.table.indexes[field]? = some idx →
    idx.isDirty = false → idx.needsRebuild = false → s.table.recordsDirty = false →
    field ∉ s.scars.unstated →
    IndexOnDisk (s.dir.indexDir field) field s.table.dataMeta.version s.table.records
  queue : ∀ q, s.table.queue = some q → q.isDirty = true ∨ BookCovers s.dir.book q
  autokey : ∀ c, s.table.autokey = some c → c.dirty = true ∨ c.next ≤ s.dir.counter.getD 0

/-! ## Commands in between -/

section

variable {s s' : FlushState} {t t' : Table}

theorem recordsDirty_of_marked (h : Marked t t') (hclean : t'.recordsDirty = false) :
    t.recordsDirty = false ∧ t'.records = t.records := by
  have hclean : t'.dirtyAll = false ∧ t'.dirtyKeys = ∅ := by
    simpa [Table.recordsDirty] using hclean
  obtain ⟨hall, hkeys, hsame⟩ := h.records.unchanged hclean.1 hclean.2
  refine ⟨?_, Std.ExtTreeMap.ext_getElem? hsame⟩
  have hall : t.dirtyAll = false := hall
  have hkeys : t.dirtyKeys = ∅ := hkeys
  simp [Table.recordsDirty, hall, hkeys]

theorem isDirty_of_marked {idx idx' : FileIndex} (h : IndexMarked idx idx')
    (hclean : idx'.isDirty = false) :
    idx.isDirty = false ∧ idx'.postings = idx.postings := by
  have hclean : idx'.dirtyAll = false ∧ idx'.dirtyValues = ∅ := by
    simpa [FileIndex.isDirty] using hclean
  obtain ⟨hall, hkeys, hsame⟩ := h.postings.unchanged hclean.1 hclean.2
  have hall : idx.dirtyAll = false := hall
  have hkeys : idx.dirtyValues = ∅ := hkeys
  exact ⟨by simp [FileIndex.isDirty, hall, hkeys], Std.ExtTreeMap.ext_getElem? hsame⟩

/-- The keys a section is told about, after more have been marked. -/
theorem Resumable.tracks {dir : SectionDir} {previous : SectionMeta} {c c' : Lib.Marks String}
    {M M' : Entries} {torn : Bool} (always : Prop) [Decidable always]
    (h : Resumable dir previous (if c.all = true ∨ always then none else some c.keys) M torn)
    (hmarked : Tracks c c' M M') :
    Resumable dir previous (if c'.all = true ∨ always then none else some c'.keys) M' torn := by
  apply h.mark
  intro keys' hkeys'
  split at hkeys'
  · cases hkeys'
  rename_i hnot
  cases hkeys'
  rcases hmarked with hall | ⟨hall, hsub, hsame⟩
  · exact absurd (Or.inl hall) hnot
  · rw [hall] at hnot
    exact ⟨c.keys, by rw [if_neg hnot], hsub, hsame⟩

theorem IndexHeld.marked {dir : IndexDir} {field : String} {idx idx' : FileIndex} {torn : Bool}
    (h : IndexHeld dir field idx torn) (hmarked : IndexMarked idx idx') :
    IndexHeld dir field idx' torn := by
  refine ⟨h.name, ?_, fun htorn => ?_, hmarked.sayable h.sayable, fun hclean => ?_⟩
  · rw [hmarked.sectionMeta]
    have htracks : Tracks idx.marks idx'.marks idx.source idx'.source := by
      rcases hmarked.postings with hall | ⟨hall, hsub, hsame⟩
      · exact Or.inl hall
      · refine Or.inr ⟨hall, hsub, fun value hvalue => ?_⟩
        rw [getElem?_source, getElem?_source, hsame value hvalue]
    have hposts : Resumable dir.posts idx.sectionMeta
        (if idx.marks.all = true ∨ False then none else some idx.marks.keys) idx.source torn := by
      simpa [FileIndex.savedValues, FileIndex.marks] using h.posts
    simpa [FileIndex.savedValues, FileIndex.marks] using hposts.tracks False htracks
  · by_contra hclean
    have hclean := (isDirty_of_marked hmarked (Bool.not_eq_true _ ▸ hclean)).1
    rw [h.torn htorn] at hclean
    cases hclean
  · obtain ⟨hclean, hpostings⟩ := isDirty_of_marked hmarked hclean
    rw [FileIndex.source, hpostings]
    exact h.clean hclean

theorem IndexCreated.held {field : String} {idx : FileIndex} (h : IndexCreated field idx)
    (dir : IndexDir) (torn : Bool) : IndexHeld dir field idx torn := by
  have hdirty : idx.isDirty = true := by simp [FileIndex.isDirty, h.dirtyAll]
  refine ⟨h.name, ⟨?_, fun _ keys hkeys => ?_⟩, fun _ => hdirty, h.sayable, fun hclean => ?_⟩
  · rw [h.sectionMeta]
    exact isModulus_min
  · simp [FileIndex.savedValues, h.dirtyAll] at hkeys
  · rw [hdirty] at hclean
    cases hclean

/-- A command that marks what it changes, and leaves the indexes exact. -/
theorem Recoverable.marked (h : Recoverable s) (hmarked : Marked s.table t')
    (hexact : EveryIndex FileIndex.Exact t') :
    Recoverable { s with table := t' } := by
  have hsaved : Resumable s.dir.data t'.dataMeta t'.savedKeys t'.records s.scars.torn := by
    have hdata := h.data
    unfold Table.savedKeys at hdata ⊢
    rw [hmarked.dataMeta, hmarked.legacyData]
    exact hdata.tracks (s.table.legacyData = true) hmarked.records
  refine ⟨hsaved, fun htorn => ?_, ?_, ?_, fun hclean => ?_, fun hclean => ?_, fun field hf => ?_,
    hexact, fun field idx' hidx' => ?_, fun field idx' hidx' hclean hfresh hrec hstated => ?_,
    fun q' hq' => ?_, fun c' hc' => ?_⟩
  · by_contra hclean
    have hclean := (recordsDirty_of_marked hmarked (Bool.not_eq_true _ ▸ hclean)).1
    rw [h.torn htorn] at hclean
    cases hclean
  · rw [hmarked.dataMeta]
    exact h.version
  · rw [hmarked.dataMeta, hmarked.legacyData]
    exact h.legacy
  · obtain ⟨hclean, hsame⟩ := recordsDirty_of_marked hmarked hclean
    rw [RecordsOnDisk, hsame, hmarked.dataMeta]
    exact h.records hclean
  · rcases hmarked.dict with hdirty | ⟨hflag, hsame⟩
    · change t'.dictDirty = false at hclean
      rw [hdirty] at hclean
      cases hclean
    · rw [DictOnDisk, hsame]
      exact h.dict (hflag ▸ hclean)
  · exact hmarked.kept field (h.attached field hf)
  · rcases hmarked.indexes field idx' hidx' with ⟨idx, hidx, himarked⟩ | hcreated
    · exact (h.indexes field idx hidx).marked himarked
    · exact hcreated.held _ _
  · rcases hmarked.indexes field idx' hidx' with ⟨idx, hidx, himarked⟩ | hcreated
    · obtain ⟨hclean₀, -⟩ := isDirty_of_marked himarked hclean
      obtain ⟨hrec, hsame⟩ := recordsDirty_of_marked hmarked hrec
      have hfresh : idx.needsRebuild = false := by
        by_contra hstale
        rcases himarked.stale (by simpa using hstale) with hstale' | hdirty
        · rw [hfresh] at hstale'
          cases hstale'
        · simp [FileIndex.isDirty, hdirty] at hclean
      rw [hsame, hmarked.dataMeta]
      exact h.current field idx hidx hclean₀ hfresh hrec hstated
    · simp [FileIndex.isDirty, hcreated.dirtyAll] at hclean
  · rcases hmarked.queue q' hq' with hdirty | hq
    · exact Or.inl hdirty
    · exact h.queue q' hq
  · rcases hmarked.autokey c' hc' with hdirty | hc
    · exact Or.inl hdirty
    · exact h.autokey c' hc

/-! ## Steps on one part of the directory -/

theorem performAll_data (steps : List FileStep) : ∀ dir : TableDir,
    dir.performAll (steps.map .data) = { dir with data := dir.data.performAll steps } := by
  induction steps with
  | nil => intro dir; rfl
  | cons step steps ih =>
    intro dir
    rw [List.map_cons, TableDir.performAll, List.foldl_cons]
    exact (ih (dir.perform (.data step))).trans rfl

theorem performAll_dict (steps : List TableStep) : ∀ dir : TableDir, (∀ s ∈ steps, IsDict s) →
    dir.performAll steps = { dir with dict := (dir.performAll steps).dict } := by
  induction steps with
  | nil => intro dir _; rfl
  | cons step steps ih =>
    intro dir h
    rw [TableDir.performAll, List.foldl_cons]
    refine (ih (dir.perform step) fun s hs => h s (List.mem_cons_of_mem _ hs)).trans ?_
    have hstep := h step List.mem_cons_self
    cases step <;> first | exact hstep.elim | rfl

/-- The steps of one index. A directory with no index may get one. -/
theorem performAll_index (field : String) (steps : List IndexStep) : ∀ dir : TableDir,
    ∃ indexes, dir.performAll (steps.map (.index field)) = { dir with indexes := indexes } ∧
      ∀ f, f ∈ indexes → f ∈ dir.indexes ∨ f = field := by
  induction steps with
  | nil => intro dir; exact ⟨dir.indexes, rfl, fun f hf => Or.inl hf⟩
  | cons step steps ih =>
    intro dir
    rw [List.map_cons, TableDir.performAll, List.foldl_cons]
    obtain ⟨indexes, heq, hmem⟩ := ih (dir.perform (.index field step))
    refine ⟨indexes, heq, fun f hf => ?_⟩
    rcases hmem f hf with hf | hf
    · rcases Std.ExtTreeMap.mem_insert.mp hf with hf | hf
      · rw [Std.compare_eq_iff_eq] at hf
        exact Or.inr hf.symm
      · exact Or.inl hf
    · exact Or.inr hf

theorem indexDir_index_self (field : String) (steps : List IndexStep) (dir : TableDir) :
    (dir.performAll (steps.map (.index field))).indexDir field =
      (dir.indexDir field).performAll steps := by
  rw [indexDir_performAll, indexSteps_map_index]

theorem indexDir_index_ne {field f : String} (h : field ≠ f) (steps : List IndexStep)
    (dir : TableDir) : (dir.performAll (steps.map (.index field))).indexDir f = dir.indexDir f := by
  have hnone : indexSteps f (steps.map (TableStep.index field)) = [] := by
    apply indexSteps_of_other
    intro s hs
    obtain ⟨i, -, rfl⟩ := List.mem_map.mp hs
    exact h
  rw [indexDir_performAll, hnone]
  rfl

/-! ## The records -/

/-- What is flushed reads back, and as itself; a torn section is not written in part. -/
structure IndexSound (perGroup : Nat) (torn : Bool) (idx : FileIndex) : Prop where
  lists : ∀ (value : String) (keys : Finset String), idx.postings[value]? = some keys →
    (postingRecord keys).toBytes.length ≤ MAX_DATA_LEN ∧ keys ≠ {""}
  size : idx.postings.size < 2 ^ 64
  torn : torn = true → SavesInFull idx.sectionMeta idx.savedValues idx.source.size perGroup

structure FlushSound (perGroup : Nat) (s : FlushState) : Prop where
  records : AllFit s.table.records
  size : s.table.records.size < 2 ^ 64
  stored : storedForm s.table.records = s.table.records
  dictionary : AllFit s.table.dictionary
  dictStored : storedForm s.table.dictionary = s.table.dictionary
  torn : s.scars.torn = true →
    SavesInFull s.table.dataMeta s.table.savedKeys s.table.records.size perGroup
  indexes : ∀ (field : String) (idx : FileIndex), s.table.indexes[field]? = some idx →
    IndexSound perGroup (field ∈ s.scars.tornIndexes) idx

variable {order : FlushOrder} {perGroup : Nat}

/-- A save of the records that was cut short. -/
theorem Recoverable.cutData (h : Recoverable s) (hs : FlushSound perGroup s)
    {pre : List FileStep} (hpre : pre <+: dataStepsOf order.toSaveOrder s perGroup) :
    Recoverable
      { s with
        dir := s.dir.performAll (pre.map .data)
        scars := { s.scars with torn := s.scars.torn ||
          (regroups s.table.dataMeta s.table.records.size perGroup && pre ≠ []) } } := by
  unfold dataStepsOf at hpre
  split at hpre
  · rename_i hdirty
    rw [performAll_data]
    refine ⟨save_cut h.data hs.records hs.size hpre, fun _ => hdirty, h.version, h.legacy,
      fun hclean => ?_, h.dict, h.attached, h.exact, h.indexes,
      fun _ _ _ _ _ hclean => ?_, h.queue, h.autokey⟩
    · rw [hdirty] at hclean
      cases hclean
    · rw [hdirty] at hclean
      cases hclean
  · rw [List.prefix_nil] at hpre
    subst hpre
    simpa [TableDir.performAll] using h

/-- A section that has just been saved, as the file's load reads it. -/
theorem recordsOnDisk_of_holds {dir : TableDir} {t : Table} {bytes : Bytes}
    (hmeta : dir.data.metaFile = some bytes)
    (h : Holds dir.data t.dataMeta (storedForm t.records)) : RecordsOnDisk dir t := by
  refine ⟨{ records := storedForm t.records, dataMeta := t.dataMeta, legacyData := false },
    ?_, rfl, rfl⟩
  simp only [loadData, hmeta, load_of_holds h]

theorem covers_refl (dirty : Option (Finset String)) (M : Entries) : CoversChanges dirty M M :=
  fun _ _ _ hk => absurd rfl hk

theorem nextMeta_version_le {order : SaveOrder} {dir : SectionDir} {M : Entries}
    {previous written : SectionMeta} {dirty : Option (Finset String)} {steps : List FileStep}
    (hok : saveWithFsync order dir M previous dirty perGroup = (steps, some (.ok written))) :
    written.version ≤ u64Max := by
  have hle : ∀ n : Nat, n % 2 ^ 64 ≤ u64Max := by
    intro n
    have := Nat.mod_lt n (show 0 < 2 ^ 64 by omega)
    simp only [u64Max]
    omega
  unfold saveWithFsync at hok
  split at hok
  · cases hok
  dsimp only at hok
  split at hok
  · simp only [Prod.mk.injEq, Option.some.injEq, Except.ok.injEq] at hok
    rw [← hok.2]
    exact hle _
  · split at hok
    · cases hok
    · simp only [Prod.mk.injEq, Option.some.injEq, Except.ok.injEq] at hok
      rw [← hok.2]
      exact hle _

/-- The records saved. -/
theorem Recoverable.saveData (h : Recoverable s) (hs : FlushSound perGroup s)
    (hok : s.saveData order.toSaveOrder perGroup = some s') :
    (∃ data flat dataMeta legacyData,
      s' = { dir := { s.dir with data := data, flat := flat }
             table := { s.table with dataMeta := dataMeta, legacyData := legacyData }
             scars := { s.scars with torn := false } }) ∧
      Recoverable s' ∧ RecordsOnDisk s'.dir s'.table ∧
      Resumable s'.dir.data s'.table.dataMeta s'.table.clearDirty.savedKeys s'.table.records
        false := by
  unfold FlushState.saveData RustyPick.saveData at hok
  by_cases hdirty : s.table.recordsDirty = true
  · rw [if_pos hdirty] at hok
    cases hsave : saveWithFsync order.toSaveOrder s.dir.data s.table.records s.table.dataMeta
      s.table.savedKeys perGroup with
    | mk steps out =>
    rw [hsave] at hok
    rcases out with _ | e | written
    · cases hok
    · cases hok
    simp only [Option.some.injEq] at hok
    have hdir : ∃ flat, s.dir.performAll (steps.map .data ++
        if s.table.legacyData then [.removeFlat] else []) =
        { s.dir with data := s.dir.data.performAll steps, flat := flat } := by
      rw [TableDir.performAll_append, performAll_data]
      split
      · exact ⟨none, rfl⟩
      · exact ⟨s.dir.flat, rfl⟩
    obtain ⟨flat, hdir⟩ := hdir
    rw [hdir] at hok
    have hholds := save_resumed h.data hs.torn hs.records hs.size hsave
    have hmeta := metaFile_of_save hsave
    subst hok
    have hdisk : RecordsOnDisk { s.dir with data := s.dir.data.performAll steps, flat := flat }
        { s.table with dataMeta := written, legacyData := false } :=
      recordsOnDisk_of_holds hmeta hholds
    refine ⟨⟨_, _, _, _, rfl⟩, ?_, hdisk, hholds.resumable (covers_refl _ _)⟩
    refine ⟨hholds.resumable (covers_refl _ _), fun htorn => (by cases htorn),
      nextMeta_version_le hsave, fun hlegacy => (by cases hlegacy), fun _ => hdisk, h.dict,
      h.attached, h.exact, h.indexes, fun _ _ _ _ _ hclean => ?_, h.queue, h.autokey⟩
    change s.table.recordsDirty = false at hclean
    rw [hdirty] at hclean
    cases hclean
  · rw [if_neg hdirty] at hok
    have hclean : s.table.recordsDirty = false := by simpa using hdirty
    have hwhole : s.scars.torn = false := by
      by_contra htorn
      exact hdirty (h.torn (by simpa using htorn))
    have hsame : s' = s := by
      simp only [TableDir.performAll, List.foldl_nil, Option.some.injEq] at hok
      rw [← hok, ← hwhole]
    have hmarks : s.table.dirtyAll = false ∧ s.table.dirtyKeys = ∅ := by
      simpa [Table.recordsDirty] using hclean
    have hkeys : s.table.clearDirty.savedKeys = s.table.savedKeys := by
      simp [Table.savedKeys, Table.clearDirty, hmarks.1, hmarks.2]
    rw [hsame]
    refine ⟨⟨s.dir.data, s.dir.flat, s.table.dataMeta, s.table.legacyData, by rw [← hwhole]⟩, h,
      h.records hclean, ?_⟩
    rw [hkeys, ← hwhole]
    exact h.data

/-! ## The dictionary -/

/-- The dictionary written, all of it or the beginning. -/
theorem Recoverable.withDict (h : Recoverable s) {dict : Option Bytes}
    (hdict : s.table.dictDirty = false → dict = s.dir.dict) :
    Recoverable { s with dir := { s.dir with dict := dict } } := by
  refine ⟨h.data, h.torn, h.version, h.legacy, h.records, fun hclean => ?_, h.attached, h.exact,
    h.indexes, h.current, h.queue, h.autokey⟩
  rw [hdict hclean]
  exact h.dict hclean

theorem Recoverable.cutDict (h : Recoverable s) {pre : List TableStep}
    (hpre : pre <+: RustyPick.saveDict order s.table) :
    Recoverable { s with dir := s.dir.performAll pre } := by
  rw [performAll_dict pre s.dir fun step hstep => saveDict_isDict _ _ step (hpre.subset hstep)]
  refine h.withDict fun hclean => ?_
  rcases dict_stopped hpre s.dir with hsame | ⟨hdirty, -⟩
  · exact hsame
  · rw [hclean] at hdirty
    cases hdirty

theorem Recoverable.saveDict (h : Recoverable s) (hs : FlushSound perGroup s) :
    (∃ dict, s.saveDict order = { s with dir := { s.dir with dict := dict } }) ∧
      Recoverable (s.saveDict order) ∧ DictOnDisk (s.saveDict order).dir s.table := by
  have hdir := performAll_dict (RustyPick.saveDict order s.table) s.dir
    fun step hstep => saveDict_isDict _ _ step hstep
  refine ⟨⟨_, by rw [FlushState.saveDict, hdir]⟩, h.cutDict (List.prefix_refl _), ?_⟩
  rw [FlushState.saveDict, DictOnDisk, TableDir.dictPath, path_performAll, dict_saved,
    ← TableDir.dictPath]
  split
  · exact loadSection_fitting hs.dictionary
  · rename_i hclean
    exact h.dict (by simpa using hclean)

/-! ## One index -/

/-- A save of an index that returned: its section if it was marked, then `state`. -/
theorem save_cases {idx saved : FileIndex} {order : SaveOrder} {dir : IndexDir} {dataVersion : Nat}
    {steps : List IndexStep}
    (hok : idx.save order dir dataVersion perGroup = (steps, some (.ok saved))) :
    ∃ posts sectionMeta,
      steps = .makeDir :: posts.map .posts ++ [.renameState (stateBytes (idx.state dataVersion))] ∧
      saved = { idx with
        sectionMeta := sectionMeta, dirtyValues := ∅, dirtyAll := false, dataVersion := dataVersion } ∧
      ((idx.isDirty = true ∧ saveWithFsync order dir.posts idx.source idx.sectionMeta
          idx.savedValues perGroup = (posts, some (.ok sectionMeta))) ∨
        idx.isDirty = false ∧ posts = [] ∧ sectionMeta = idx.sectionMeta) := by
  unfold FileIndex.save at hok
  dsimp only at hok
  split at hok
  · rename_i hdirty
    split at hok
    · cases hok
    · cases hok
    rename_i posts sectionMeta hsave
    simp only [Prod.mk.injEq, Option.some.injEq, Except.ok.injEq] at hok
    exact ⟨posts, sectionMeta, hok.1.symm, hok.2.symm, Or.inl ⟨hdirty, hsave⟩⟩
  · rename_i hclean
    simp only [Prod.mk.injEq, Option.some.injEq, Except.ok.injEq] at hok
    refine ⟨[], idx.sectionMeta, hok.1.symm, ?_, Or.inr ⟨by simpa using hclean, rfl, rfl⟩⟩
    have hmarks : idx.dirtyAll = false ∧ idx.dirtyValues = ∅ := by
      simpa [FileIndex.isDirty] using hclean
    rw [← hok.2, ← hmarks.1, ← hmarks.2]

theorem performAll_saved (dir : IndexDir) (posts : List FileStep) (bytes : Bytes) :
    dir.performAll (.makeDir :: posts.map .posts ++ [.renameState bytes]) =
      { posts := dir.posts.performAll posts, stateFile := some bytes } := by
  have hposts := IndexDir.performAll_posts posts dir
  rw [IndexDir.performAll] at hposts
  rw [IndexDir.performAll, List.cons_append, List.foldl_cons, List.foldl_append]
  change ((posts.map .posts).foldl IndexDir.perform dir).perform (.renameState bytes) = _
  rw [hposts]
  rfl

theorem IndexSound.allFit {torn : Bool} {idx : FileIndex} (h : IndexSound perGroup torn idx)
    (hsay : idx.Sayable) : AllFit idx.source := by
  intro value record hr
  rw [getElem?_source] at hr
  obtain ⟨keys, hkeys, rfl⟩ := Option.map_eq_some_iff.mp hr
  refine ⟨hsay.values value ?_, (h.lists value keys hkeys).1⟩
  rw [Std.ExtTreeMap.mem_iff_isSome_getElem?, hkeys]
  rfl

theorem IndexSound.source_size {torn : Bool} {idx : FileIndex} (h : IndexSound perGroup torn idx) :
    idx.source.size < 2 ^ 64 := by
  rw [FileIndex.source, Std.ExtTreeMap.size_map]
  exact h.size

/-- The posting lists read back as they are. -/
theorem IndexSound.reread {torn : Bool} {idx : FileIndex} (h : IndexSound perGroup torn idx) :
    idx.reread = idx.postings := by
  apply Std.ExtTreeMap.ext_getElem?
  intro value
  rw [FileIndex.reread, Std.ExtTreeMap.getElem?_map, getElem?_storedForm, getElem?_source]
  cases hv : idx.postings[value]? with
  | none => rfl
  | some keys =>
    simp only [Option.map_some, Option.some.injEq]
    exact postingKeys_stored (h.lists value keys hv).2

section

variable {dir dir' : IndexDir} {field : String} {idx : FileIndex} {torn : Bool}
  {posts : List FileStep} {sectionMeta : SectionMeta} {records : Entries} {dataVersion : Nat}

/-- The section saved, whatever `state` says. -/
theorem IndexHeld.saved (h : IndexHeld dir field idx torn) (hs : IndexSound perGroup torn idx)
    {order : SaveOrder} (hposts : dir'.posts = dir.posts.performAll posts)
    (hok : (idx.isDirty = true ∧ saveWithFsync order dir.posts idx.source idx.sectionMeta
        idx.savedValues perGroup = (posts, some (.ok sectionMeta))) ∨
      idx.isDirty = false ∧ posts = [] ∧ sectionMeta = idx.sectionMeta) (version : Nat) :
    IndexHeld dir' field { idx with
      sectionMeta := sectionMeta, dirtyValues := ∅, dirtyAll := false, dataVersion := version }
      false := by
  refine ⟨h.name, ?_, fun htorn => (by cases htorn), ⟨h.sayable.1, h.sayable.2, h.sayable.3⟩,
    fun _ => ?_⟩
  · rw [hposts]
    rcases hok with ⟨-, hsave⟩ | ⟨hclean, rfl, rfl⟩
    · exact (save_resumed h.posts hs.torn (hs.allFit h.sayable) hs.source_size hsave).resumable
        (covers_refl _ _)
    · have hwhole : torn = false := by
        by_contra htorn
        have hdirty := h.torn (by simpa using htorn)
        rw [hclean] at hdirty
        cases hdirty
      have hmarks : idx.dirtyAll = false ∧ idx.dirtyValues = ∅ := by
        simpa [FileIndex.isDirty] using hclean
      have hheld := h.posts
      simp only [FileIndex.savedValues, hmarks.1, hmarks.2, hwhole] at hheld
      exact hheld
  · rw [hposts]
    rcases hok with ⟨-, hsave⟩ | ⟨hclean, rfl, rfl⟩
    · exact ⟨sectionMeta, load_of_holds
        (save_resumed h.posts hs.torn (hs.allFit h.sayable) hs.source_size hsave)⟩
    · exact h.clean hclean

/-- An index whose `state` names this version of the records. -/
theorem indexOnDisk_of_state (hname : isValidFieldName field = true) (hfield : idx.field = field)
    (hsay : idx.Sayable) (hs : IndexSound perGroup torn idx) (hv : dataVersion ≤ u64Max)
    {found : SectionMeta} (hload : load dir.posts = .ok (found, storedForm idx.source))
    (hstate : dir.stateFile = some (stateBytes (idx.state dataVersion)))
    (hexact : idx.Exact records) : IndexOnDisk dir field dataVersion records := by
  intro attr
  cases hfresh : (loadIndex dir field attr dataVersion).needsRebuild with
  | true => exact Or.inl rfl
  | false =>
    right
    obtain ⟨a, found', entries, state, rfl, hload', hread, -, hattr, -, ha, hex, hpost⟩ :=
      trusted_cases hfresh
    have hwritten : (idx.state dataVersion).Written := by
      refine ⟨?_, hsay.attr, hv, hsay.excluded⟩
      change isValidFieldName idx.field = true
      rw [hfield]
      exact hname
    rw [hstate, readState_stateBytes hwritten] at hread
    cases hread
    have haeq : a = idx.attr := (Nat.succ_injective hattr).symm
    rw [hload] at hload'
    cases hload'
    refine @Maintained.same _ maintained_exact { idx with field := _, needsRebuild := _ } _ _
      ⟨rfl, ha.trans haeq, ?_, hex, rfl⟩ hexact
    exact hpost.trans hs.reread

end

/-- One index as it is in memory and on disk afterwards, and the rest as it was. -/
theorem Recoverable.withIndex (h : Recoverable s) {field : String} {idx idx' : FileIndex}
    (hidx : s.table.indexes[field]? = some idx) {steps : List IndexStep}
    {indexes : Map String FileIndex}
    (hin : ∀ f : String, indexes[f]? = if field = f then some idx' else s.table.indexes[f]?)
    {scars : Scars} (htorn : scars.torn = s.scars.torn)
    (hscars : ∀ f ≠ field, (f ∈ scars.tornIndexes ↔ f ∈ s.scars.tornIndexes) ∧
      (f ∈ scars.unstated ↔ f ∈ s.scars.unstated)) (hsame : SameAnswers idx idx')
    (hheld : IndexHeld ((s.dir.indexDir field).performAll steps) field idx'
      (field ∈ scars.tornIndexes))
    (hcurrent : idx'.isDirty = false → idx'.needsRebuild = false → s.table.recordsDirty = false →
      field ∉ scars.unstated → IndexOnDisk ((s.dir.indexDir field).performAll steps) field
        s.table.dataMeta.version s.table.records) :
    Recoverable
      { dir := s.dir.performAll (steps.map (.index field))
        table := { s.table with indexes := indexes }
        scars := scars } := by
  obtain ⟨dirs, hdir, hmem⟩ := performAll_index field steps s.dir
  have hself := indexDir_index_self field steps s.dir
  have hother := fun f (hf : f ≠ field) => indexDir_index_ne (Ne.symm hf) steps s.dir
  rw [hdir] at hself hother ⊢
  refine ⟨htorn ▸ h.data, htorn ▸ h.torn, h.version, h.legacy, h.records, h.dict,
    fun f hf => ?_, fun f i hi => ?_, fun f i hi => ?_, fun f i hi hclean hfresh hrec hstated => ?_,
    h.queue, h.autokey⟩
  · obtain ⟨hf, hname⟩ := mem_indexedFields.mp hf
    rw [Std.ExtTreeMap.mem_iff_isSome_getElem?]
    change (indexes[f]?).isSome
    rw [hin]
    split
    · rfl
    · rename_i hne
      rw [← Std.ExtTreeMap.mem_iff_isSome_getElem?]
      exact h.attached f (mem_indexedFields.mpr ⟨(hmem f hf).resolve_right (Ne.symm hne), hname⟩)
  · rw [hin] at hi
    split at hi
    · rename_i hf
      subst hf
      cases hi
      obtain ⟨hfield, hexact⟩ := h.exact field idx hidx
      refine ⟨hsame.1.trans hfield, fun hfresh => ?_⟩
      exact maintained_exact.same hsame (hexact (hsame.2.2.2.2 ▸ hfresh))
    · exact h.exact f i hi
  · rw [hin] at hi
    split at hi
    · rename_i hf
      subst hf
      cases hi
      rw [hself]
      exact hheld
    · rename_i hne
      rw [hother f (Ne.symm hne), decide_eq_decide.mpr (hscars f (Ne.symm hne)).1]
      exact h.indexes f i hi
  · rw [hin] at hi
    split at hi
    · rename_i hf
      subst hf
      cases hi
      rw [hself]
      exact hcurrent hclean hfresh hrec hstated
    · rename_i hne
      rw [hother f (Ne.symm hne)]
      exact h.current f i hi hclean hfresh hrec fun hin =>
        hstated ((hscars f (Ne.symm hne)).2.mpr hin)

/-- What has been done for an index that is saved. -/
structure IndexDone (s : FlushState) (field : String) : Prop where
  torn : field ∉ s.scars.tornIndexes
  clean : ∀ idx, s.table.indexes[field]? = some idx → idx.isDirty = false
  disk : ∀ idx, s.table.indexes[field]? = some idx → idx.needsRebuild = false →
    IndexOnDisk (s.dir.indexDir field) field s.table.dataMeta.version s.table.records

theorem FlushSound.withIndexes (hs : FlushSound perGroup s) {dir : TableDir}
    {indexes : Map String FileIndex} {scars : Scars} (htorn : scars.torn = s.scars.torn)
    (hindexes : ∀ (field : String) (idx : FileIndex), indexes[field]? = some idx →
      IndexSound perGroup (field ∈ scars.tornIndexes) idx) :
    FlushSound perGroup
      { dir := dir, table := { s.table with indexes := indexes }, scars := scars } :=
  ⟨hs.records, hs.size, hs.stored, hs.dictionary, hs.dictStored, htorn ▸ hs.torn, hindexes⟩

/-- One index saved. -/
theorem Recoverable.saveIndex (h : Recoverable s) (hs : FlushSound perGroup s) {field : String}
    (hok : s.saveIndex order.toSaveOrder perGroup field = some s') :
    (∃ dirs indexes scars, s' =
      { dir := { s.dir with indexes := dirs }
        table := { s.table with indexes := indexes }, scars := scars }) ∧
      Recoverable s' ∧ FlushSound perGroup s' ∧ IndexDone s' field ∧
      ∀ f, IndexDone s f → IndexDone s' f := by
  unfold FlushState.saveIndex at hok
  split at hok
  · cases hok
  rename_i idx hidx
  cases hsave : idx.save order.toSaveOrder (s.dir.indexDir field) s.table.dataMeta.version
    perGroup with
  | mk steps out =>
  rw [hsave] at hok
  rcases out with _ | e | saved
  · cases hok
  · cases hok
  simp only [Option.some.injEq] at hok
  obtain ⟨posts, sectionMeta, hsteps, hsaved, hcase⟩ := save_cases hsave
  have hsame := sameAnswers_save hsave
  have hsound := hs.indexes field idx hidx
  have hperformed := performAll_saved (s.dir.indexDir field) posts
    (stateBytes (idx.state s.table.dataMeta.version))
  rw [← hsteps] at hperformed
  have hheld := (h.indexes field idx hidx).saved hsound
    (show ((s.dir.indexDir field).performAll steps).posts = _ by rw [hperformed]) hcase
    s.table.dataMeta.version
  rw [← hsaved] at hheld
  have hclean : saved.isDirty = false := by rw [hsaved]; rfl
  have hdisk : saved.needsRebuild = false → IndexOnDisk ((s.dir.indexDir field).performAll steps)
      field s.table.dataMeta.version s.table.records := by
    intro hfresh
    obtain ⟨found, hload⟩ := hheld.clean hclean
    obtain ⟨hfield, hexact⟩ := h.exact field idx hidx
    rw [show saved.source = idx.source by rw [hsaved]; rfl] at hload
    exact indexOnDisk_of_state (h.indexes field idx hidx).name hfield
      (h.indexes field idx hidx).sayable hsound h.version hload (by rw [hperformed])
      (hexact (hsame.2.2.2.2 ▸ hfresh))
  have hin : ∀ f : String, (s.table.indexes.insert field saved)[f]? =
      if field = f then some saved else s.table.indexes[f]? := fun f => getElem?_insert_eq ..
  have hnot : decide (field ∈ s.scars.tornIndexes.erase field) = false := by simp
  let scars : Scars := { s.scars with
    tornIndexes := s.scars.tornIndexes.erase field, unstated := s.scars.unstated.erase field }
  have hscars : ∀ f ≠ field, (f ∈ scars.tornIndexes ↔ f ∈ s.scars.tornIndexes) ∧
      (f ∈ scars.unstated ↔ f ∈ s.scars.unstated) := fun f hf => by simp [scars, hf]
  have hrecoverable := h.withIndex (show s.table.indexes[field]? = some idx from hidx) hin
    (show scars.torn = s.scars.torn from rfl) hscars hsame (by rw [hnot]; exact hheld)
    (fun _ hfresh _ _ => hdisk hfresh)
  obtain ⟨dirs, hdir, -⟩ := performAll_index field steps s.dir
  have hself := indexDir_index_self field steps s.dir
  have hother := fun f (hf : f ≠ field) => indexDir_index_ne (Ne.symm hf) steps s.dir
  have hdone : IndexDone s' field := by
    rw [← hok]
    refine ⟨by simp, fun i hi => ?_, fun i hi hfresh => ?_⟩
    · rw [hin, if_pos rfl] at hi
      cases hi
      exact hclean
    · rw [hin, if_pos rfl] at hi
      cases hi
      rw [hself]
      exact hdisk hfresh
  refine ⟨⟨dirs, _, _, by rw [← hok, hdir]⟩, hok ▸ hrecoverable, ?_, hdone, fun f hbefore => ?_⟩
  · rw [← hok]
    refine hs.withIndexes rfl fun f i hi => ?_
    rw [hin] at hi
    split at hi
    · rename_i hf
      subst hf
      cases hi
      refine ⟨fun value keys hkeys => hsound.lists value keys ?_, ?_, fun htorn => ?_⟩
      · rw [← hsame.2.2.1]
        exact hkeys
      · rw [hsame.2.2.1]
        exact hsound.size
      · rw [hnot] at htorn
        cases htorn
    · rename_i hne
      have hsound := hs.indexes f i hi
      refine ⟨hsound.lists, hsound.size, fun htorn => hsound.torn ?_⟩
      simpa [Ne.symm hne] using htorn
  · by_cases hf : f = field
    · exact hf ▸ hdone
    rw [← hok]
    refine ⟨by simp [hbefore.torn], fun i hi => ?_, fun i hi hfresh => ?_⟩
    · rw [hin, if_neg (Ne.symm hf)] at hi
      exact hbefore.clean i hi
    · rw [hin, if_neg (Ne.symm hf)] at hi
      rw [hother f hf]
      exact hbefore.disk i hi hfresh

/-- The loop over the indexes, as far as it is to go. -/
theorem Recoverable.saveFields (fields : List String) : ∀ {s : FlushState}, Recoverable s →
    FlushSound perGroup s → s.saveFields order.toSaveOrder perGroup fields = some s' →
    (∃ dirs indexes scars, s' =
      { dir := { s.dir with indexes := dirs }
        table := { s.table with indexes := indexes }, scars := scars }) ∧
      Recoverable s' ∧ FlushSound perGroup s' ∧
      ∀ f, f ∈ fields ∨ IndexDone s f → IndexDone s' f := by
  induction fields with
  | nil =>
    intro s h hs hok
    cases hok
    exact ⟨⟨s'.dir.indexes, s'.table.indexes, s'.scars, rfl⟩, h, hs,
      fun f hf => hf.resolve_left (List.not_mem_nil)⟩
  | cons field fields ih =>
    intro s h hs hok
    obtain ⟨s₁, hone, hrest⟩ := Option.bind_eq_some_iff.mp hok
    obtain ⟨⟨_, _, _, rfl⟩, h₁, hs₁, hdone₁, hkept₁⟩ := h.saveIndex hs hone
    obtain ⟨⟨dirs, indexes, scars, rfl⟩, h', hs', hdone⟩ := ih h₁ hs₁ hrest
    refine ⟨⟨dirs, indexes, scars, rfl⟩, h', hs', fun f hf => hdone f ?_⟩
    rcases hf with hf | hf
    · rcases List.mem_cons.mp hf with rfl | hf
      · exact Or.inr hdone₁
      · exact Or.inl hf
    · exact Or.inr (hkept₁ f hf)

/-- A save of an index that was cut short before its section was done. -/
theorem Recoverable.cutPosts (h : Recoverable s) (hs : FlushSound perGroup s) {field : String}
    {idx : FileIndex} (hidx : s.table.indexes[field]? = some idx) (hdirty : idx.isDirty = true)
    {posts : List FileStep} (hpre : posts <+: (saveWithFsync order.toSaveOrder
      (s.dir.indexDir field).posts idx.source idx.sectionMeta idx.savedValues perGroup).1) :
    Recoverable
      { s with
        dir := s.dir.performAll ((.makeDir :: posts.map .posts).map (.index field))
        scars := { s.scars with
          tornIndexes :=
            if regroups idx.sectionMeta idx.source.size perGroup ∧ posts ≠ [] then
              insert field s.scars.tornIndexes
            else s.scars.tornIndexes } } := by
  have hsound := hs.indexes field idx hidx
  have hheld := h.indexes field idx hidx
  refine h.withIndex hidx (fun f => ?_) rfl (fun f hf => ?_) ⟨rfl, rfl, rfl, rfl, rfl⟩ ?_
    fun hclean => ?_
  · split
    · rename_i hf
      rw [← hf, hidx]
    · rfl
  · refine ⟨?_, Iff.rfl⟩
    dsimp only
    split
    · simp [hf]
    · rfl
  · have hperformed : (s.dir.indexDir field).performAll (.makeDir :: posts.map .posts) =
        { s.dir.indexDir field with posts := (s.dir.indexDir field).posts.performAll posts } :=
      IndexDir.performAll_posts posts (s.dir.indexDir field)
    have htorn : decide (field ∈ if regroups idx.sectionMeta idx.source.size perGroup ∧ posts ≠ []
        then insert field s.scars.tornIndexes else s.scars.tornIndexes) =
        (decide (field ∈ s.scars.tornIndexes) ||
          (regroups idx.sectionMeta idx.source.size perGroup && posts ≠ [])) := by
      split
      · rename_i hcut
        simp [hcut]
      · rename_i hcut
        cases hregroups : regroups idx.sectionMeta idx.source.size perGroup with
        | false => simp
        | true =>
          rw [hregroups] at hcut
          simp [not_not.mp fun hne => hcut ⟨rfl, hne⟩]
    rw [htorn, hperformed]
    refine ⟨hheld.name, save_cut hheld.posts (hsound.allFit hheld.sayable) hsound.source_size hpre,
      fun _ => hdirty, hheld.sayable, fun hclean => ?_⟩
    rw [hdirty] at hclean
    cases hclean
  · rw [hdirty] at hclean
    cases hclean

/-- A save of an index whose section was written and whose `state` was not. -/
theorem Recoverable.cutState (h : Recoverable s) (hs : FlushSound perGroup s) {field : String}
    {idx saved : FileIndex} (hidx : s.table.indexes[field]? = some idx) {steps : List IndexStep}
    (hok : idx.save order.toSaveOrder (s.dir.indexDir field) s.table.dataMeta.version perGroup =
      (steps, some (.ok saved))) :
    Recoverable
      { dir := s.dir.performAll (steps.dropLast.map (.index field))
        table := { s.table with
          indexes := s.table.indexes.insert field { saved with dataVersion := idx.dataVersion } }
        scars := { s.scars with
          tornIndexes := s.scars.tornIndexes.erase field
          unstated :=
            if idx.isDirty then insert field s.scars.unstated else s.scars.unstated } } := by
  obtain ⟨posts, sectionMeta, hsteps, hsaved, hcase⟩ := save_cases hok
  have hsame := sameAnswers_save hok
  have hheld := h.indexes field idx hidx
  have hdrop : steps.dropLast = .makeDir :: posts.map .posts := by
    rw [hsteps, List.dropLast_concat]
  have hperformed : (s.dir.indexDir field).performAll steps.dropLast =
      { s.dir.indexDir field with posts := (s.dir.indexDir field).posts.performAll posts } := by
    rw [hdrop]
    exact IndexDir.performAll_posts posts (s.dir.indexDir field)
  refine h.withIndex hidx (fun f => getElem?_insert_eq ..) rfl (fun f hf => ?_)
    ⟨hsame.1, hsame.2.1, hsame.2.2.1, hsame.2.2.2.1, hsame.2.2.2.2⟩ ?_ fun _ hfresh hrec hstated => ?_
  · refine ⟨by simp [hf], ?_⟩
    dsimp only
    split
    · simp [hf]
    · rfl
  · have hnot : decide (field ∈ s.scars.tornIndexes.erase field) = false := by simp
    rw [hnot, hperformed, hsaved]
    exact hheld.saved (hs.indexes field idx hidx) rfl hcase idx.dataVersion
  · -- only an index that had nothing to save still has the `state` it was loaded with
    rcases hcase with ⟨hdirty, -⟩ | ⟨hclean, rfl, -⟩
    · simp [hdirty] at hstated
    · rw [hperformed]
      have hstated : field ∉ s.scars.unstated := by simpa [hclean] using hstated
      exact h.current field idx hidx hclean (hsame.2.2.2.2 ▸ hfresh) hrec hstated

/-! ## The books -/

/-- The autokey counter. -/
def FlushState.saveCounter (s : FlushState) : FlushState :=
  match s.table.autokey with
  | some counter =>
    if counter.dirty then
      { s with
        dir := s.dir.perform (.renameCounter counter.next)
        table := { s.table with autokey := some { counter with dirty := false } } }
    else s
  | none => s

theorem Recoverable.saveBook (h : Recoverable s) :
    (∃ book queue, s.saveBook =
      { s with dir := { s.dir with book := book }, table := { s.table with queue := queue } }) ∧
      Recoverable s.saveBook ∧
      ∀ q, s.saveBook.table.queue = some q → BookCovers s.saveBook.dir.book q := by
  unfold FlushState.saveBook
  split
  · rename_i q hq
    split
    · rename_i hdirty
      have hcovers : BookCovers (some q.toPersisted) q.clearDirty :=
        ⟨le_refl _, fun _ he => he, fun _ he => he⟩
      refine ⟨⟨_, _, rfl⟩, ?_, ?_⟩
      · refine ⟨h.data, h.torn, h.version, h.legacy, h.records, h.dict, h.attached, h.exact,
          h.indexes, h.current, fun q' hq' => ?_, h.autokey⟩
        cases hq'
        exact Or.inr hcovers
      · intro q' hq'
        cases hq'
        exact hcovers
    · rename_i hclean
      refine ⟨⟨s.dir.book, s.table.queue, rfl⟩, h, fun q' hq' => ?_⟩
      rw [hq] at hq'
      cases hq'
      exact (h.queue q hq).resolve_left hclean
  · rename_i hnone
    refine ⟨⟨s.dir.book, s.table.queue, rfl⟩, h, fun q' hq' => ?_⟩
    rw [hnone] at hq'
    cases hq'

theorem Recoverable.saveCounter (h : Recoverable s) :
    (∃ counter autokey, s.saveCounter =
      { s with dir := { s.dir with counter := counter }
               table := { s.table with autokey := autokey } }) ∧
      Recoverable s.saveCounter ∧
      ∀ c, s.saveCounter.table.autokey = some c → c.next ≤ s.saveCounter.dir.counter.getD 0 := by
  unfold FlushState.saveCounter
  split
  · rename_i c hc
    split
    · refine ⟨⟨_, _, rfl⟩, ?_, ?_⟩
      · refine ⟨h.data, h.torn, h.version, h.legacy, h.records, h.dict, h.attached, h.exact,
          h.indexes, h.current, h.queue, fun c' hc' => ?_⟩
        cases hc'
        exact Or.inr (le_refl _)
      · intro c' hc'
        cases hc'
        exact le_refl _
    · rename_i hclean
      refine ⟨⟨s.dir.counter, s.table.autokey, rfl⟩, h, fun c' hc' => ?_⟩
      rw [hc] at hc'
      cases hc'
      exact (h.autokey c hc).resolve_left hclean
  · rename_i hnone
    refine ⟨⟨s.dir.counter, s.table.autokey, rfl⟩, h, fun c' hc' => ?_⟩
    rw [hnone] at hc'
    cases hc'

end

end RustyPick
