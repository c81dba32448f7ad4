import RustyPick.FailedFlush

/-!
# RustyPick.FlushRetry

The flush after those that failed.

* `Recoverable.strike`: an error at any point of a flush leaves what the next one can start from.
* `failed_flush_loses_nothing`: in every run of commands, flushes and failed flushes, under
  `Careful`, what a flush that returns leaves on disk loads as the table in memory.
-/

namespace RustyPick

open Lib

section

variable {s s' : FlushState} {order : FlushOrder} {perGroup : Nat}

/-! ## An error at any point -/

theorem FlushSound.saveData (hs : FlushSound perGroup s) {data : SectionDir} {flat : Option Bytes}
    {dataMeta : SectionMeta} {legacyData : Bool} : FlushSound perGroup
      { dir := { s.dir with data := data, flat := flat }
        table := { s.table with dataMeta := dataMeta, legacyData := legacyData }
        scars := { s.scars with torn := false } } :=
  ⟨hs.records, hs.size, hs.stored, hs.dictionary, hs.dictStored, fun htorn => (by cases htorn),
    hs.indexes⟩

theorem FlushSound.saveDict (hs : FlushSound perGroup s) :
    FlushSound perGroup (s.saveDict order) :=
  ⟨hs.records, hs.size, hs.stored, hs.dictionary, hs.dictStored, hs.torn, hs.indexes⟩

/-- The parts of a flush up to some of the indexes. -/
theorem Recoverable.upToFields (h : Recoverable s) (hs : FlushSound perGroup s)
    {s₁ s₂ : FlushState} {fields : List String}
    (hdata : s.saveData order.toSaveOrder perGroup = some s₁)
    (hfields : (s₁.saveDict order).saveFields order.toSaveOrder perGroup fields = some s₂) :
    Recoverable s₂ ∧ FlushSound perGroup s₂ := by
  obtain ⟨⟨_, _, _, _, rfl⟩, h₁, -⟩ := h.saveData hs hdata
  obtain ⟨-, h₁', -⟩ := h₁.saveDict hs.saveData
  obtain ⟨-, h₂, hs₂, -⟩ := h₁'.saveFields fields hs.saveData.saveDict hfields
  exact ⟨h₂, hs₂⟩

/-- An error at any point leaves what the next flush can start from. -/
theorem Recoverable.strike (h : Recoverable s) (hs : FlushSound perGroup s) {fault : FlushFault}
    (hok : fault.strike order perGroup s = some s') : Recoverable s' := by
  cases fault with
  | data done =>
    cases hok
    exact h.cutData hs (List.take_prefix _ _)
  | dict done =>
    obtain ⟨s₁, hdata, hok⟩ := Option.bind_eq_some_iff.mp hok
    split at hok
    · cases hok
      exact (h.saveData hs hdata).2.1.cutDict (List.take_prefix _ _)
    · cases hok
  | posts field done =>
    obtain ⟨s₁, hdata, hok⟩ := Option.bind_eq_some_iff.mp hok
    obtain ⟨s₂, hfields, hok⟩ := Option.bind_eq_some_iff.mp hok
    obtain ⟨h₂, hs₂⟩ := h.upToFields hs hdata hfields
    split at hok
    · cases hok
    rename_i idx hidx
    split at hok
    · rename_i hdirty
      cases hok
      exact h₂.cutPosts hs₂ hidx hdirty (List.take_prefix _ _)
    · cases hok
  | state field =>
    obtain ⟨s₁, hdata, hok⟩ := Option.bind_eq_some_iff.mp hok
    obtain ⟨s₂, hfields, hok⟩ := Option.bind_eq_some_iff.mp hok
    obtain ⟨h₂, hs₂⟩ := h.upToFields hs hdata hfields
    split at hok
    · cases hok
    rename_i idx hidx
    split at hok
    · rename_i steps saved hsave
      cases hok
      exact h₂.cutState hs₂ hidx hsave
    · cases hok
  | book =>
    obtain ⟨s₁, hdata, hok⟩ := Option.bind_eq_some_iff.mp hok
    obtain ⟨s₂, hfields, hok⟩ := Option.bind_eq_some_iff.mp hok
    split at hok
    · cases hok
      exact (h.upToFields hs hdata hfields).1
    · cases hok
  | counter =>
    obtain ⟨s₁, hdata, hok⟩ := Option.bind_eq_some_iff.mp hok
    obtain ⟨s₂, hfields, hok⟩ := Option.bind_eq_some_iff.mp hok
    split at hok
    · cases hok
      exact (h.upToFields hs hdata hfields).1.saveBook.2.1
    · cases hok

/-! ## A flush that returns -/

/-- The steps over the indexes, one index after another. -/
theorem saveFields_of_saveIndexes (l : List (String × FileIndex))
    (hl : l.Pairwise fun a b => a.1 ≠ b.1) : ∀ {s : FlushState} {dir : TableDir}
    {later : List TableStep} {saved : List (String × FileIndex)},
    (∀ e ∈ l, s.table.indexes[e.1]? = some e.2 ∧ s.dir.indexDir e.1 = dir.indexDir e.1) →
    saveIndexes order.toSaveOrder dir s.table.dataMeta.version perGroup l =
      (later, some (.ok saved)) →
    saved.map Prod.fst = l.map Prod.fst ∧ ∃ scars,
      s.saveFields order.toSaveOrder perGroup (l.map Prod.fst) = some
        { dir := s.dir.performAll later
          table := { s.table with indexes := insertAll s.table.indexes saved }
          scars := scars } := by
  induction l with
  | nil =>
    intro s dir later saved _ hok
    cases hok
    exact ⟨rfl, s.scars, rfl⟩
  | cons e l ih =>
    obtain ⟨field, idx⟩ := e
    rw [List.pairwise_cons] at hl
    intro s dir later saved hin hok
    obtain ⟨hidx, hdir⟩ := hin (field, idx) List.mem_cons_self
    rw [saveIndexes] at hok
    split at hok
    · cases hok
    · cases hok
    rename_i steps idx' hsave
    split at hok
    · cases hok
    · cases hok
    rename_i rest saved' hrest
    cases hok
    have hone : ∃ scars, s.saveIndex order.toSaveOrder perGroup field = some
        { dir := s.dir.performAll (steps.map (.index field))
          table := { s.table with indexes := s.table.indexes.insert field idx' }
          scars := scars } := by
      rw [FlushState.saveIndex, hidx]
      dsimp only at hdir ⊢
      rw [hdir, hsave]
      exact ⟨_, rfl⟩
    obtain ⟨scars, hone⟩ := hone
    let s₁ : FlushState :=
      { dir := s.dir.performAll (steps.map (.index field))
        table := { s.table with indexes := s.table.indexes.insert field idx' }
        scars := scars }
    have hnext := @ih hl.2 s₁ dir rest saved' (fun e he => ?_) hrest
    · obtain ⟨hnames, scars', hloop⟩ := hnext
      refine ⟨by rw [List.map_cons, List.map_cons, hnames], scars', ?_⟩
      rw [List.map_cons, FlushState.saveFields, hone, Option.bind_some, hloop,
        TableDir.performAll_append]
      rfl
    · obtain ⟨hi, hd⟩ := hin e (List.mem_cons_of_mem _ he)
      have hne : field ≠ e.1 := hl.1 e he
      refine ⟨?_, ?_⟩
      · change (s.table.indexes.insert field idx')[e.1]? = _
        rw [getElem?_insert_ne _ _ hne]
        exact hi
      · rw [indexDir_index_ne hne, hd]

theorem insertAll_over {m : Map String FileIndex} {saved : List (String × FileIndex)}
    (hnames : saved.map Prod.fst = m.toList.map Prod.fst) : insertAll m saved = insertAll ∅ saved := by
  apply Std.ExtTreeMap.ext_getElem?
  intro k
  rw [getElem?_insertAll]
  cases hk : (insertAll ∅ saved)[k]? with
  | some idx => rfl
  | none =>
    cases hm : m[k]? with
    | none => rfl
    | some idx =>
      exfalso
      have hmem : k ∈ m.toList.map Prod.fst :=
        List.mem_map.mpr ⟨(k, idx), Std.ExtTreeMap.mem_toList_iff_getElem?_eq_some.mpr hm, rfl⟩
      rw [← hnames] at hmem
      obtain ⟨⟨_, idx'⟩, hin, rfl⟩ := List.mem_map.mp hmem
      have hhas := (mem_insertAll (m := (∅ : Map String FileIndex))).mpr (Or.inl ⟨idx', hin⟩)
      rw [Std.ExtTreeMap.mem_iff_isSome_getElem?, hk] at hhas
      cases hhas

theorem saveCounter_cases (s : FlushState) :
    (∃ c, s.table.autokey = some c ∧ c.dirty = true ∧ s.saveCounter =
      { s with dir := s.dir.perform (.renameCounter c.next)
               table := { s.table with autokey := some { c with dirty := false } } }) ∨
      (∀ c, s.table.autokey = some c → c.dirty = false) ∧ s.saveCounter = s := by
  cases hc : s.table.autokey with
  | none => exact Or.inr ⟨fun c hc' => (by cases hc'), by simp only [FlushState.saveCounter, hc]⟩
  | some c =>
    cases hdirty : c.dirty with
    | true =>
      refine Or.inl ⟨c, rfl, hdirty, ?_⟩
      simp only [FlushState.saveCounter, hc, hdirty, if_true]
    | false =>
      refine Or.inr ⟨fun c' hc' => ?_, ?_⟩
      · cases hc'
        exact hdirty
      · simp only [FlushState.saveCounter, hc, hdirty, Bool.false_eq_true, if_false]

/-- The counter's part of the books, after the order's. -/
def withCounter (book : List TableStep) (t : Table) : List TableStep × Table :=
  match t.autokey with
  | some counter =>
    if counter.dirty then
      (book ++ [.renameCounter counter.next],
        { t with autokey := some { counter with dirty := false } })
    else (book, t)
  | none => (book, t)

/-- The books are written in this order. -/
theorem saveBooks_parts (s : FlushState) :
    s.dir.performAll (saveBooks s.table).1 = s.saveBook.saveCounter.dir ∧
      (saveBooks s.table).2 = s.saveBook.saveCounter.table := by
  have hbook : ∃ book, s.dir.performAll book = s.saveBook.dir ∧
      saveBooks s.table = withCounter book s.saveBook.table := by
    cases hq : s.table.queue with
    | none =>
      simp only [FlushState.saveBook, saveBooks, withCounter, hq]
      exact ⟨[], rfl, rfl⟩
    | some q =>
      cases hdirty : q.isDirty with
      | true =>
        simp only [FlushState.saveBook, saveBooks, withCounter, hq, hdirty, if_true]
        exact ⟨[.renameBook q.toPersisted], rfl, rfl⟩
      | false =>
        simp only [FlushState.saveBook, saveBooks, withCounter, hq, hdirty, Bool.false_eq_true,
          if_false]
        exact ⟨[], rfl, rfl⟩
  obtain ⟨book, hdir, heq⟩ := hbook
  rw [heq]
  rcases saveCounter_cases s.saveBook with ⟨c, hc, hdirty, hsaved⟩ | ⟨hclean, hsaved⟩
  · simp only [withCounter, hc, hdirty, if_true, hsaved, TableDir.performAll_append, hdir]
    exact ⟨rfl, trivial⟩
  · rw [hsaved]
    unfold withCounter
    cases hc : s.saveBook.table.autokey with
    | none => exact ⟨hdir, rfl⟩
    | some c =>
      simp only [hclean c hc]
      exact ⟨hdir, rfl⟩

/-- The parts of a flush that returned, in order. -/
theorem flush_parts (hok : s.flush order perGroup = some s') (hdirty : s.table.isDirty = true) :
    ∃ s₁ s₂, ({ s with table := s.table.rebuildStaleIndexes } : FlushState).saveData
        order.toSaveOrder perGroup = some s₁ ∧
      (s₁.saveDict order).saveFields order.toSaveOrder perGroup
        s.table.rebuildStaleIndexes.indexes.keys = some s₂ ∧
      s' = { dir := s₂.saveBook.saveCounter.dir
             table := s₂.saveBook.saveCounter.table.clearDirty } := by
  unfold FlushState.flush flushLocked at hok
  rw [if_neg (not_not.mpr hdirty)] at hok
  dsimp only at hok
  cases hdata : RustyPick.saveData order.toSaveOrder s.dir s.table.rebuildStaleIndexes perGroup with
  | mk steps out =>
  rw [hdata] at hok
  rcases out with _ | e | t₁
  · cases hok
  · cases hok
  dsimp only at hok
  obtain ⟨hindexes, -⟩ := saveData_same (congrArg Prod.snd hdata)
  cases hlater : saveIndexes order.toSaveOrder s.dir t₁.dataMeta.version perGroup
    t₁.indexes.toList with
  | mk later out =>
  rw [hlater] at hok
  rcases out with _ | e | saved
  · cases hok
  · cases hok
  simp only [hdirty, if_true, Option.some.injEq] at hok
  let s₁ : FlushState :=
    { dir := s.dir.performAll steps, table := t₁, scars := { s.scars with torn := false } }
  have hs₁ : ({ s with table := s.table.rebuildStaleIndexes } : FlushState).saveData
      order.toSaveOrder perGroup = some s₁ := by
    rw [FlushState.saveData]
    dsimp only
    rw [hdata]
  -- neither the records nor the dictionary touch an index
  have hdirs : ∀ field, (s₁.saveDict order).dir.indexDir field = s.dir.indexDir field := by
    intro field
    have hnodata : indexSteps field steps = [] := by
      have hall := saveData_isData order.toSaveOrder s.dir s.table.rebuildStaleIndexes perGroup
      rw [hdata] at hall
      exact indexSteps_of_other fun step hstep => (hall step hstep).otherThan field
    have hnodict : indexSteps field (RustyPick.saveDict order t₁) = [] :=
      indexSteps_of_other fun step hstep => (saveDict_isDict order t₁ step hstep).otherThan field
    rw [FlushState.saveDict, indexDir_performAll, hnodict, indexDir_performAll, hnodata]
    rfl
  have hlisted : ∀ e ∈ t₁.indexes.toList,
      (s₁.saveDict order).table.indexes[e.1]? = some e.2 ∧
        (s₁.saveDict order).dir.indexDir e.1 = _ := fun e he =>
    ⟨Std.ExtTreeMap.mem_toList_iff_getElem?_eq_some.mp he, hdirs e.1⟩
  obtain ⟨hnames, scars, hfields⟩ :=
    saveFields_of_saveIndexes t₁.indexes.toList (pairwise_toList _) hlisted hlater
  have hkeys : t₁.indexes.toList.map Prod.fst = s.table.rebuildStaleIndexes.indexes.keys := by
    rw [hindexes, Std.ExtTreeMap.map_fst_toList_eq_keys]
  rw [hkeys] at hfields
  have hinsert : insertAll (s₁.saveDict order).table.indexes saved = insertAll ∅ saved :=
    insertAll_over hnames
  rw [hinsert] at hfields
  refine ⟨s₁, _, hs₁, hfields, ?_⟩
  rw [← hok]
  let s₂ : FlushState :=
    { dir := (s₁.saveDict order).dir.performAll later
      table := { t₁ with indexes := insertAll ∅ saved }, scars := scars }
  obtain ⟨hdir, htable⟩ := saveBooks_parts s₂
  have hall : s.dir.performAll (steps ++ RustyPick.saveDict order t₁ ++ later ++
      (saveBooks s₂.table).1) = s₂.saveBook.saveCounter.dir := by
    rw [TableDir.performAll_append, TableDir.performAll_append, TableDir.performAll_append]
    exact hdir
  have htable' : (saveBooks s₂.table).2.clearDirty = s₂.saveBook.saveCounter.table.clearDirty := by
    rw [htable]
  rw [FlushState.mk.injEq]
  exact ⟨hall, htable', rfl⟩

/-! ## What is on disk afterwards -/

/-- The file loads as the table in memory, and neither counter is behind. -/
structure FlushComplete (s : FlushState) : Prop where
  loads : ∃ t, loadTable s.dir = .ok t ∧ t.records = s.table.records ∧
    t.dictionary = s.table.dictionary ∧
    ∀ (field : String) (idx : FileIndex), t.indexes[field]? = some idx →
      idx.needsRebuild = true ∨ idx.Exact t.records
  queue : ∀ q, s.table.queue = some q → BookCovers s.dir.book q
  autokey : ∀ c, s.table.autokey = some c → c.next ≤ s.dir.counter.getD 0

/-- No index is marked, and one that is stale has no field to be rebuilt from. -/
def IndexesSettled (t : Table) : Prop :=
  ∀ (field : String) (idx : FileIndex), t.indexes[field]? = some idx →
    idx.isDirty = false ∧ (idx.needsRebuild = true → t.fieldIndex field = none)

/-- A table with nothing marked loads as it is. -/
theorem Recoverable.loads (h : Recoverable s) (hrecords : s.table.recordsDirty = false)
    (hdict : s.table.dictDirty = false) (hindexes : IndexesSettled s.table)
    (hstated : s.scars.unstated = ∅) (hstored : storedForm s.table.records = s.table.records)
    (hdictStored : storedForm s.table.dictionary = s.table.dictionary) :
    ∃ t, loadTable s.dir = .ok t ∧ t.records = s.table.records ∧
      t.dictionary = s.table.dictionary ∧
      ∀ (field : String) (idx : FileIndex), t.indexes[field]? = some idx →
        idx.needsRebuild = true ∨ idx.Exact t.records := by
  obtain ⟨data, hload, hdata, hversion⟩ := h.records hrecords
  have hdictionary := h.dict hdict
  rw [DictOnDisk, hdictStored] at hdictionary
  rw [hstored] at hdata
  let t₀ : Table :=
    { records := data.records
      dictionary := s.table.dictionary
      dataMeta := data.dataMeta
      legacyData := data.legacyData }
  have htable : loadTable s.dir = .ok (loadIndexes t₀ s.dir) := by
    rw [loadTable, hload]
    dsimp only
    rw [hdictionary]
  refine ⟨_, htable, hdata, rfl, fun field idx hidx => ?_⟩
  have hattached : EveryIndex FileIndex.Exact { t₀ with
      indexes := insertAll t₀.indexes ((indexedFields s.dir).map fun field =>
        (field, loadIndex (s.dir.indexDir field) field (t₀.fieldIndex field) data.version)) } := by
    intro f i hi
    rcases of_getElem?_insertAll hi with hmem | hnone
    swap
    · simp [t₀] at hnone
    obtain ⟨name, hf, heq⟩ := List.mem_map.mp hmem
    rw [Prod.mk.injEq] at heq
    obtain ⟨rfl, rfl⟩ := heq
    refine ⟨loadIndex_field .., fun hfresh => ?_⟩
    have hin := h.attached name hf
    rw [Std.ExtTreeMap.mem_iff_isSome_getElem?, Option.isSome_iff_exists] at hin
    obtain ⟨m, hm⟩ := hin
    obtain ⟨hclean, hstale⟩ := hindexes name m hm
    cases hmstale : m.needsRebuild with
    | true =>
      -- the dictionary on disk does not define the field either
      exfalso
      have hundefined : t₀.fieldIndex name = none := hstale hmstale
      rw [hundefined] at hfresh
      cases hfresh
    | false =>
      have hdisk := h.current name m hm hclean hmstale hrecords (by simp [hstated])
        (t₀.fieldIndex name)
      rw [← hversion, ← hdata] at hdisk
      exact hdisk.resolve_left (by simp [hfresh])
  have hexact := (kept_rebuildStale maintained_exact hattached field idx hidx).2
  cases hfresh : idx.needsRebuild with
  | true => exact Or.inl rfl
  | false => exact Or.inr (hexact hfresh)

/-- After its stale indexes have been rebuilt, what is stale is undefined. -/
theorem undefined_of_stale {t : Table} {field : String} {idx : FileIndex}
    (hidx : t.rebuildStaleIndexes.indexes[field]? = some idx) (hstale : idx.needsRebuild = true) :
    t.fieldIndex field = none := by
  simp only [Table.rebuildStaleIndexes, Std.ExtTreeMap.getElem?_map, Option.map_eq_some_iff] at hidx
  obtain ⟨old, -, rfl⟩ := hidx
  by_contra hdefined
  obtain ⟨attr, hattr⟩ := Option.ne_none_iff_exists'.mp hdefined
  simp only [hattr] at hstale
  split at hstale
  · cases hstale
  · rename_i hfresh
    exact hfresh hstale

theorem SameAnswers.trans {a b c : FileIndex} (h : SameAnswers a b) (h' : SameAnswers b c) :
    SameAnswers a c :=
  ⟨h'.1.trans h.1, h'.2.1.trans h.2.1, h'.2.2.1.trans h.2.2.1, h'.2.2.2.1.trans h.2.2.2.1,
    h'.2.2.2.2.trans h.2.2.2.2⟩

/-- Saving indexes adds none and changes no answer. -/
theorem saveFields_same (fields : List String) : ∀ {s : FlushState},
    s.saveFields order.toSaveOrder perGroup fields = some s' →
    ∀ (f : String) (idx' : FileIndex), s'.table.indexes[f]? = some idx' →
      ∃ idx, s.table.indexes[f]? = some idx ∧ SameAnswers idx idx' := by
  induction fields with
  | nil =>
    intro s hok f idx' hidx'
    cases hok
    exact ⟨idx', hidx', rfl, rfl, rfl, rfl, rfl⟩
  | cons field fields ih =>
    intro s hok f idx' hidx'
    obtain ⟨s₁, hone, hrest⟩ := Option.bind_eq_some_iff.mp hok
    obtain ⟨idx₁, hidx₁, hsame₁⟩ := ih hrest f idx' hidx'
    unfold FlushState.saveIndex at hone
    split at hone
    · cases hone
    rename_i idx hidx
    split at hone
    · rename_i steps saved hsave
      cases hone
      dsimp only at hidx₁
      rw [getElem?_insert_eq] at hidx₁
      split at hidx₁
      · rename_i hf
        cases hidx₁
        exact ⟨idx, hf ▸ hidx, (sameAnswers_save hsave).trans hsame₁⟩
      · exact ⟨idx₁, hidx₁, hsame₁⟩
    · cases hone

theorem recordsDirty_clearDirty (t : Table) : t.clearDirty.recordsDirty = false := by
  simp [Table.recordsDirty, Table.clearDirty]

/-- What a flush asks of the table it finds. -/
structure FlushCareful (perGroup : Nat) (s : FlushState) : Prop where
  sound : FlushSound perGroup { s with table := s.table.rebuildStaleIndexes }
  /-- The one trace of an index without its `state` is a table that is dirty for another reason. -/
  stated : s.scars.unstated ≠ ∅ → s.table.isDirty = true

/-- A stale index rebuilt, which every flush does first. -/
theorem Recoverable.rebuildStale (h : Recoverable s) :
    Recoverable { s with table := s.table.rebuildStaleIndexes } :=
  h.marked (marked_rebuildStale s.table) (kept_rebuildStale maintained_exact h.exact)

/-- Everything written, and the records and the dictionary still marked. -/
structure AllWritten (s s' : FlushState) (fields : List String) : Prop where
  recoverable : Recoverable s'
  records : s'.table.records = s.table.records ∧ RecordsOnDisk s'.dir s'.table
  resumable : Resumable s'.dir.data s'.table.dataMeta s'.table.clearDirty.savedKeys s'.table.records
    false
  dictionary : s'.table.dictionary = s.table.dictionary ∧ DictOnDisk s'.dir s'.table
  same : ∀ (f : String) (idx' : FileIndex), s'.table.indexes[f]? = some idx' →
    ∃ idx, s.table.indexes[f]? = some idx ∧ SameAnswers idx idx'
  indexes : ∀ f ∈ fields, IndexDone s' f
  queue : ∀ q, s'.table.queue = some q → BookCovers s'.dir.book q
  autokey : ∀ c, s'.table.autokey = some c → c.next ≤ s'.dir.counter.getD 0

theorem Recoverable.allWritten (h : Recoverable s) (hs : FlushSound perGroup s)
    {s₁ s₂ : FlushState} {fields : List String}
    (hdata : s.saveData order.toSaveOrder perGroup = some s₁)
    (hfields : (s₁.saveDict order).saveFields order.toSaveOrder perGroup fields = some s₂) :
    AllWritten s s₂.saveBook.saveCounter fields := by
  obtain ⟨⟨data, flat, dataMeta, legacyData, rfl⟩, h₁, hrecords, hresume⟩ := h.saveData hs hdata
  obtain ⟨⟨dict, hdict⟩, h₁', hdictionary⟩ :
      (∃ dict, FlushState.saveDict order _ = _) ∧ _ ∧ _ := h₁.saveDict hs.saveData
  obtain ⟨⟨dirs, indexes, scars, hs₂⟩, h₂, -, hdone⟩ :=
    h₁'.saveFields fields hs.saveData.saveDict hfields
  have hsame := saveFields_same fields hfields
  obtain ⟨⟨book, queue, hs₃⟩, h₃, hqueue⟩ := h₂.saveBook
  obtain ⟨⟨counter, autokey, hs₄⟩, h₄, hcounter⟩ := h₃.saveCounter
  rw [hdict] at hs₂ hdictionary hsame
  subst hs₂
  rw [hs₃] at hqueue hs₄ h₄ hcounter ⊢
  rw [hs₄] at h₄ hcounter ⊢
  exact ⟨h₄, ⟨rfl, hrecords⟩, hresume, ⟨rfl, hdictionary⟩, hsame,
    fun f hf => ⟨(hdone f (Or.inl hf)).torn, (hdone f (Or.inl hf)).clean,
      (hdone f (Or.inl hf)).disk⟩, hqueue, hcounter⟩

/-- The marks cleared, and the traces of earlier failures gone with what was written. -/
theorem AllWritten.settled {t : Table} {s' : FlushState}
    (h : AllWritten { s with table := t.rebuildStaleIndexes } s'
      t.rebuildStaleIndexes.indexes.keys) :
    Recoverable { dir := s'.dir, table := s'.table.clearDirty } ∧
      IndexesSettled s'.table.clearDirty := by
  have hdone : ∀ (f : String) (idx : FileIndex), s'.table.indexes[f]? = some idx →
      IndexDone s' f := by
    intro f idx hidx
    obtain ⟨old, hold, -⟩ := h.same f idx hidx
    refine h.indexes f (Std.ExtTreeMap.mem_keys.mpr ?_)
    rw [Std.ExtTreeMap.mem_iff_isSome_getElem?]
    exact Option.isSome_iff_exists.mpr ⟨old, hold⟩
  have hr := h.recoverable
  refine ⟨⟨h.resumable, fun htorn => (by cases htorn), hr.version, hr.legacy, fun _ => h.records.2,
    fun _ => h.dictionary.2, hr.attached, hr.exact, fun f idx hidx => ?_,
    fun f idx hidx _ hfresh _ _ => (hdone f idx hidx).disk idx hidx hfresh, hr.queue, hr.autokey⟩,
    fun f idx hidx => ⟨(hdone f idx hidx).clean idx hidx, fun hstale => ?_⟩⟩
  · have hheld := hr.indexes f idx hidx
    rw [decide_eq_false (hdone f idx hidx).torn] at hheld
    simpa using hheld
  · obtain ⟨old, hold, hsame⟩ := h.same f idx hidx
    have hundefined := undefined_of_stale hold (hsame.2.2.2.2 ▸ hstale)
    have hdict : s'.table.dictionary = t.dictionary := h.dictionary.1
    change s'.table.fieldIndex f = none
    unfold Table.fieldIndex at hundefined ⊢
    rw [hdict]
    exact hundefined

/-- A flush that returns leaves the table on disk. -/
theorem Recoverable.flush (h : Recoverable s) (hs : FlushCareful perGroup s)
    (hok : s.flush order perGroup = some s') : Recoverable s' ∧ FlushComplete s' := by
  have hsound := hs.sound
  cases hdirty : s.table.isDirty with
  | false =>
    have hsame : s' = s := by
      simp only [FlushState.flush, flushLocked, hdirty, Bool.false_eq_true, not_false_eq_true,
        if_true, if_false, Option.some.injEq] at hok
      rw [← hok]
      rfl
    have hstated : s.scars.unstated = ∅ := by
      by_contra hne
      rw [hs.stated hne] at hdirty
      cases hdirty
    have hclean := of_decide_eq_false hdirty
    simp only [not_or] at hclean
    obtain ⟨hall, hdict, hkeys, hindexes, hqueue, hautokey⟩ := hclean
    have hrecords : s.table.recordsDirty = false := by
      simp only [Table.recordsDirty, decide_eq_false_iff_not, not_or]
      exact ⟨hall, hkeys⟩
    have hsettled : IndexesSettled s.table := by
      intro field idx hidx
      rw [Bool.not_eq_true, Table.indexesDirty, List.any_eq_false] at hindexes
      have hidx := hindexes idx (mem_values_of_getElem? hidx)
      simp only [decide_eq_true_eq, not_or] at hidx
      exact ⟨by simpa using hidx.1, fun hstale => absurd hstale hidx.2⟩
    rw [hsame]
    refine ⟨h, h.loads hrecords (by simpa using hdict) hsettled hstated hsound.stored
      hsound.dictStored, fun q hq => ?_, fun c hc => ?_⟩
    · refine (h.queue q hq).resolve_left fun hq' => hqueue ?_
      simp only [Table.queueDirty, hq, hq']
    · refine (h.autokey c hc).resolve_left fun hc' => hautokey ?_
      simp only [Table.autokeyDirty, hc, hc']
  | true =>
    obtain ⟨s₁, s₂, hdata, hfields, hs'⟩ := flush_parts hok hdirty
    have hall := h.rebuildStale.allWritten hsound hdata hfields
    obtain ⟨hrecoverable, hsettled⟩ := hall.settled
    rw [hs']
    refine ⟨hrecoverable, hrecoverable.loads (recordsDirty_clearDirty _) rfl hsettled rfl ?_ ?_,
      hall.queue, hall.autokey⟩
    · change storedForm s₂.saveBook.saveCounter.table.records =
        s₂.saveBook.saveCounter.table.records
      rw [hall.records.1]
      exact hsound.stored
    · change storedForm s₂.saveBook.saveCounter.table.dictionary =
        s₂.saveBook.saveCounter.table.dictionary
      rw [hall.dictionary.1]
      exact hsound.dictStored

theorem Recoverable.flush_contents (h : Recoverable s) (hs : FlushCareful perGroup s)
    (hok : s.flush order perGroup = some s') :
    s'.table.records = s.table.records ∧ s'.table.dictionary = s.table.dictionary := by
  cases hdirty : s.table.isDirty with
  | false =>
    simp only [FlushState.flush, flushLocked, hdirty, Bool.false_eq_true, not_false_eq_true,
      if_true, if_false, Option.some.injEq] at hok
    rw [← hok]
    exact ⟨rfl, rfl⟩
  | true =>
    obtain ⟨s₁, s₂, hdata, hfields, hs'⟩ := flush_parts hok hdirty
    have hall := h.rebuildStale.allWritten hs.sound hdata hfields
    rw [hs']
    exact ⟨hall.records.1, hall.dictionary.1⟩

end

/-! ## Runs -/

inductive FlushAction where
  | edit (action : TableAction)
  | dropIndex (field : String)
  /-- The order of a queue file, from its book. -/
  | attachQueue
  | flush (order : FlushOrder) (perGroup : Nat)
  | fail (order : FlushOrder) (perGroup : Nat) (fault : FlushFault)

/-- `none` where the code panics, does not return, or does not come by the fault. -/
def FlushAction.perform (digest : Record → String) (name : String) (s : FlushState) :
    FlushAction → Option FlushState
  | .edit action =>
    if action.isEdit then
      (action.perform digest name s.table).map fun t => { s with table := t }
    else none
  | .dropIndex field =>
    some
      { dir := { s.dir with indexes := s.dir.indexes.erase (trim field) }
        table := (s.table.dropIndex field).2
        scars :=
          { s.scars with
            tornIndexes := s.scars.tornIndexes.erase (trim field)
            unstated := s.scars.unstated.erase (trim field) } }
  | .attachQueue => some { s with table := s.table.attachQueue (s.dir.book.getD .absent) }
  | .flush order perGroup => s.flush order perGroup
  | .fail order perGroup fault => s.fail order perGroup fault

/-- What has to hold where an action is taken. -/
def FlushAction.Careful (name : String) (s : FlushState) : FlushAction → Prop
  | .edit action => action.KeepsExact name s.table ∧ action.RaisesMarked s.table
  | .dropIndex _ => True
  | .attachQueue => ∀ key ∈ s.table.records.keys, ∀ n, keySequence key = some n →
    n < (s.dir.book.getD .absent).nextSequence
  | .flush _ perGroup => FlushCareful perGroup s
  | .fail _ perGroup _ => FlushCareful perGroup s

inductive FlushRun (digest : Record → String) (name : String)
    (ok : FlushState → FlushAction → Prop) : FlushState → List FlushAction → FlushState → Prop where
  | nil (s : FlushState) : FlushRun digest name ok s [] s
  | cons {s s' s'' : FlushState} {a : FlushAction} {as : List FlushAction} :
      ok s a → a.perform digest name s = some s' → FlushRun digest name ok s' as s'' →
      FlushRun digest name ok s (a :: as) s''

section

variable {s s' : FlushState} {digest : Record → String} {name : String}

theorem raisePast_all {keys : List String} : ∀ {counter : Sequence},
    (∀ key ∈ keys, ∀ n, keySequence key = some n → n < counter.next) →
    keys.foldl Sequence.raisePast counter = counter := by
  induction keys with
  | nil => intro counter _; rfl
  | cons key keys ih =>
    intro counter h
    rw [List.foldl_cons, raisePast_of_lt (h key List.mem_cons_self)]
    exact ih fun k hk => h k (List.mem_cons_of_mem _ hk)

theorem mem_of_mem_retain {p : String → Bool} {l : List (String × Nat)} {e : String × Nat}
    (h : e ∈ (retain p (Std.ExtTreeMap.ofList l)).toList) : e ∈ l := by
  have hin := Std.ExtTreeMap.mem_toList_iff_getElem?_eq_some.mp h
  rw [getElem?_retain] at hin
  split at hin
  · exact mem_of_getElem?_ofList hin
  · cases hin

theorem Recoverable.attachQueue (h : Recoverable s)
    (hbelow : ∀ key ∈ s.table.records.keys, ∀ n, keySequence key = some n →
      n < (s.dir.book.getD .absent).nextSequence) :
    Recoverable { s with table := s.table.attachQueue (s.dir.book.getD .absent) } := by
  cases hq : s.table.queue with
  | some q =>
    rw [Table.attachQueue, hq]
    exact h
  | none =>
    rw [Table.attachQueue, hq]
    refine ⟨h.data, h.torn, h.version, h.legacy, h.records, h.dict, h.attached, h.exact, h.indexes,
      h.current, fun q hq' => ?_, h.autokey⟩
    cases hq'
    refine Or.inr ⟨?_, fun e he => mem_of_mem_retain he, fun e he => mem_of_mem_retain he⟩
    change (s.table.records.keys.foldl Sequence.raisePast _).next ≤ _
    exact (congrArg Sequence.next (raisePast_all hbelow)).le

theorem Recoverable.dropIndex (h : Recoverable s) (field : String)
    (hok : (FlushAction.dropIndex field).perform digest name s = some s') : Recoverable s' := by
  cases hok
  have hin : ∀ (f : String) (idx : FileIndex),
      (s.table.dropIndex field).2.indexes[f]? = some idx →
      f ≠ trim field ∧ s.table.indexes[f]? = some idx := by
    intro f idx hidx
    change (s.table.indexes.erase (trim field))[f]? = some idx at hidx
    rw [getElem?_erase_eq] at hidx
    split at hidx
    · cases hidx
    · rename_i hne
      exact ⟨Ne.symm hne, hidx⟩
  have hdir : ∀ f ≠ trim field, ({ s.dir with
      indexes := s.dir.indexes.erase (trim field) } : TableDir).indexDir f = s.dir.indexDir f := by
    intro f hf
    simp only [TableDir.indexDir]
    rw [getElem?_erase_ne _ (Ne.symm hf)]
  refine ⟨h.data, h.torn, h.version, h.legacy, h.records, h.dict, fun f hf => ?_,
    kept_dropIndex h.exact field, fun f idx hidx => ?_,
    fun f idx hidx hclean hfresh hrec hstated => ?_, h.queue, h.autokey⟩
  · obtain ⟨hf, hname⟩ := mem_indexedFields.mp hf
    obtain ⟨hne, hf⟩ := Std.ExtTreeMap.mem_erase.mp hf
    refine Std.ExtTreeMap.mem_erase.mpr ⟨hne, h.attached f (mem_indexedFields.mpr ⟨hf, hname⟩)⟩
  · obtain ⟨hne, hidx⟩ := hin f idx hidx
    rw [hdir f hne]
    have hheld := h.indexes f idx hidx
    have hsame : decide (f ∈ s.scars.tornIndexes.erase (trim field)) =
        decide (f ∈ s.scars.tornIndexes) := by simp [hne]
    rw [hsame]
    exact hheld
  · obtain ⟨hne, hidx⟩ := hin f idx hidx
    rw [hdir f hne]
    exact h.current f idx hidx hclean hfresh hrec fun hf => hstated (by simp [hne, hf])

/-- One action. -/
theorem Recoverable.perform (h : Recoverable s) {a : FlushAction} (hcareful : a.Careful name s)
    (hok : a.perform digest name s = some s') : Recoverable s' := by
  cases a with
  | edit action =>
    simp only [FlushAction.perform] at hok
    split at hok
    · rename_i hedit
      obtain ⟨t, ht, rfl⟩ := Option.map_eq_some_iff.mp hok
      obtain ⟨hkeeps, hraise⟩ := hcareful
      exact h.marked (marked_perform hedit hraise ht)
        (kept_perform maintained_exact h.exact (minded_exact s.table action hkeeps) ht)
    · cases hok
  | dropIndex field => exact h.dropIndex field hok
  | attachQueue =>
    cases hok
    exact h.attachQueue hcareful
  | flush order perGroup => exact (h.flush hcareful hok).1
  | fail order perGroup fault =>
    simp only [FlushAction.perform, FlushState.fail] at hok
    split at hok
    · exact h.rebuildStale.strike hcareful.sound hok
    · cases hok

theorem Recoverable.run {actions : List FlushAction} {s' : FlushState}
    (hrun : FlushRun digest name (fun s a => a.Careful name s) s actions s') :
    Recoverable s → Recoverable s' := by
  induction hrun with
  | nil s => exact id
  | cons hcareful hstep _ ih => exact fun h => ih (h.perform hcareful hstep)

theorem FlushRun.split {ok : FlushState → FlushAction → Prop} {pre post : List FlushAction}
    {s' : FlushState} : ∀ {s : FlushState}, FlushRun digest name ok s (pre ++ post) s' →
      ∃ s₁, FlushRun digest name ok s pre s₁ ∧ FlushRun digest name ok s₁ post s' := by
  induction pre with
  | nil => exact fun h => ⟨_, .nil _, h⟩
  | cons a pre ih =>
    intro s h
    cases h with
    | cons hok hstep hrest =>
      obtain ⟨s₁, hpre, hpost⟩ := ih hrest
      exact ⟨s₁, .cons hok hstep hpre, hpost⟩

/-- In every run of commands, flushes and flushes that fail at any point, as long as each is
careful, a flush that returns leaves on disk what is in memory. -/
theorem failed_flush_loses_nothing (digest : Record → String) (name : String) {s s' : FlushState}
    {actions : List FlushAction} {order : FlushOrder} {perGroup : Nat} (h : Recoverable s)
    (hrun : FlushRun digest name (fun s a => a.Careful name s) s
      (actions ++ [.flush order perGroup]) s') : FlushComplete s' := by
  obtain ⟨s₁, hpre, hlast⟩ := hrun.split
  cases hlast with
  | cons hcareful hstep hnil =>
    cases hnil
    exact ((h.run hpre).flush hcareful hstep).2

end

/-! ## Runs that can be evaluated -/

/-- A run of given actions, each from a state that passes a check. -/
def flushAll (digest : Record → String) (name : String) (check : FlushState → FlushAction → Bool) :
    FlushState → List FlushAction → Option FlushState
  | s, [] => some s
  | s, a :: rest =>
    if check s a then (a.perform digest name s).bind fun s => flushAll digest name check s rest
    else none

theorem flushRun_of_all {digest : Record → String} {name : String}
    {check : FlushState → FlushAction → Bool} {ok : FlushState → FlushAction → Prop}
    (hok : ∀ s a, check s a = true → ok s a) (actions : List FlushAction) :
    ∀ {s s' : FlushState}, flushAll digest name check s actions = some s' →
      FlushRun digest name ok s actions s' := by
  induction actions with
  | nil =>
    intro s s' h
    cases h
    exact .nil s
  | cons a rest ih =>
    intro s s' h
    rw [flushAll] at h
    split at h
    · rename_i hcheck
      obtain ⟨s₁, hstep, hrest⟩ := Option.bind_eq_some_iff.mp h
      exact .cons (hok s a hcheck) hstep (ih hrest)
    · cases h

/-- `Careful`, for writes to a file without indexes that no failed flush has left anything in. -/
def flushesCarefully (s : FlushState) : FlushAction → Bool
  | .edit (.write (some _) _ _ _ _ _ _) => s.table.autokey.isNone
  | .flush _ _ | .fail _ _ _ =>
    s.table.records.toList.all (fun e => Fits e.1 e.2 && e.2.stored = e.2) &&
      s.table.dictionary.toList.all (fun e => Fits e.1 e.2 && e.2.stored = e.2) &&
      s.table.indexes.isEmpty && decide (s.table.records.size < 2 ^ 64) && !s.scars.torn &&
      s.scars.unstated = ∅
  | _ => false

theorem storedForm_of_all {M : Entries}
    (h : M.toList.all (fun e => Fits e.1 e.2 && e.2.stored = e.2) = true) :
    AllFit M ∧ storedForm M = M := by
  have hone : ∀ k r, M[k]? = some r → Fits k r ∧ r.stored = r := by
    intro k r hr
    have hfit := List.all_eq_true.mp h (k, r)
      (Std.ExtTreeMap.mem_toList_iff_getElem?_eq_some.mpr hr)
    simpa using hfit
  refine ⟨fun k r hr => (hone k r hr).1, Std.ExtTreeMap.ext_getElem? fun k => ?_⟩
  rw [getElem?_storedForm]
  cases hr : M[k]? with
  | none => rfl
  | some r => rw [Option.map_some, (hone k r hr).2]

theorem careful_of_flushes {name : String} (s : FlushState) (a : FlushAction)
    (h : flushesCarefully s a = true) : a.Careful name s := by
  have hflush : ∀ perGroup, flushesCarefully s (.flush .plain perGroup) = true →
      FlushCareful perGroup s := by
    intro perGroup h
    simp only [flushesCarefully, Bool.and_eq_true, decide_eq_true_eq, Bool.not_eq_true'] at h
    obtain ⟨⟨⟨⟨⟨hrecords, hdictionary⟩, hnone⟩, hsize⟩, htorn⟩, hstated⟩ := h
    refine ⟨⟨(storedForm_of_all hrecords).1, hsize, (storedForm_of_all hrecords).2,
      (storedForm_of_all hdictionary).1, (storedForm_of_all hdictionary).2, fun ht => ?_,
      fun field idx hidx => ?_⟩, fun hne => absurd hstated hne⟩
    · dsimp only at ht
      rw [htorn] at ht
      cases ht
    · dsimp only at hidx
      rw [Table.rebuildStaleIndexes, Std.ExtTreeMap.isEmpty_iff.mp hnone] at hidx
      simp at hidx
  cases a with
  | edit action =>
    cases action with
    | write key record isDict condition autokey persisted now =>
      cases key with
      | none => cases h
      | some key =>
        refine ⟨trivial, ?_⟩
        unfold TableAction.RaisesMarked
        split
        · intro counter hcounter
          rw [flushesCarefully, hcounter] at h
          cases h
        · trivial
    | _ => cases h
  | dropIndex field => cases h
  | attachQueue => cases h
  | flush order perGroup => exact hflush perGroup h
  | fail order perGroup fault => exact hflush perGroup h

/-- A file that has just been created, before its first flush. -/
def createdState : FlushState :=
  { dir := { path := "F", data := { path := "F/data.hf" } }, table := {} }

theorem recoverable_created : Recoverable createdState := by
  refine ⟨⟨isModulus_min, fun _ keys _ hversion => absurd rfl hversion⟩, fun h => (by cases h),
    by decide, fun h => (by cases h), fun _ => ⟨_, rfl, ?_, rfl⟩, fun _ => ?_, fun field hf => ?_,
    fun field idx hidx => ?_, fun field idx hidx => ?_, fun field idx hidx => ?_,
    fun q hq => (by cases hq), fun c hc => (by cases hc)⟩
  · rfl
  · rfl
  · simp [indexedFields, createdState] at hf
  · simp [createdState] at hidx
  · simp [createdState] at hidx
  · simp [createdState] at hidx

def flushedWrite (key : String) : FlushAction :=
  .edit (.write (some key) sampleRow false .always false none 0)

/-- The second write comes after a flush that failed in the middle of the records. -/
theorem flushed_after_failure :
    ∃ s, FlushRun (fun _ => "") "F" (fun s a => a.Careful "F" s) createdState
        [flushedWrite "K", .fail .plain 16 (.data 1), flushedWrite "L", .flush .plain 16] s ∧
      FlushComplete s := by
  have hall : (flushAll (fun _ => "") "F" flushesCarefully createdState
      [flushedWrite "K", .fail .plain 16 (.data 1), flushedWrite "L", .flush .plain 16]).isSome =
      true := by
    decide +kernel
  obtain ⟨s, hs⟩ := Option.isSome_iff_exists.mp hall
  have hrun : FlushRun (fun _ => "") "F" (fun s a => a.Careful "F" s) createdState
      ([flushedWrite "K", .fail .plain 16 (.data 1), flushedWrite "L"] ++ [.flush .plain 16]) s :=
    flushRun_of_all careful_of_flushes _ hs
  exact ⟨s, hrun, failed_flush_loses_nothing (fun _ => "") "F" recoverable_created hrun⟩

/-- One record is flushed. Eight more are written, and the flush that would take the modulus from 8
to 16 fails when it has rewritten the groups. One of the eight is deleted again, so that the modulus
stays, and the flush that follows returns. -/
def failedGrowth : List FlushAction :=
  [flushedWrite "A", .flush .plain 1] ++ (nineKeys.drop 1).map flushedWrite ++
    [.fail .plain 1 (.data 9), .edit (.delete "I" false .always), .flush .plain 1]

/-- The first record, which nothing has touched since, is not found any more. -/
theorem failed_growth_loses_a_record :
    Recoverable createdState ∧ ∃ s,
      FlushRun (fun _ => "") "F" (fun _ _ => True) createdState failedGrowth s ∧
      ¬ FlushComplete s := by
  have hall : (flushAll (fun _ => "") "F" (fun _ _ => true) createdState failedGrowth).map
      (fun s => (s.table.records.contains "A",
        (loadTable s.dir).toOption.map fun t => t.records.contains "A")) =
        some (true, some false) := by
    decide +kernel
  obtain ⟨s, hs, hseen⟩ := Option.map_eq_some_iff.mp hall
  refine ⟨recoverable_created, s, flushRun_of_all (fun _ _ _ => trivial) _ hs, fun h => ?_⟩
  obtain ⟨t, hload, hrecords, -⟩ := h.loads
  rw [hload] at hseen
  simp only [hrecords, Except.toOption, Option.map_some, Prod.mk.injEq, Option.some.injEq] at hseen
  rw [hseen.1] at hseen
  cases hseen.2

end RustyPick
