import RustyPick.IndexCrash
import RustyPick.Transaction
import RustyPick.ConditionalWrite

/-!
# RustyPick.Readback

What an accepted write leaves on disk can be read back, as long as it is within the limits the
readers enforce.

The write path admits keys and records of any length. `read_group` and `load_section` refuse a key
past `MAX_KEY_LEN` and a record past `MAX_DATA_LEN`, and with it everything else in the group.

* `accepted_reads_back`: in every run of writes, transactions and flushes in which what a flush
  writes is within the limits, the records, the dictionary, the indexes and the intents read back,
  and the records and the dictionary as they were accepted.
-/

namespace RustyPick

open Lib

/-! ## Index keys are short -/

theorem length_utf8_ofList (cs : List Char) :
    (utf8 (String.ofList cs)).length = (cs.map Char.utf8Size).sum := by
  rw [utf8_eq_flatMap, String.toList_ofList, List.length_flatMap]
  simp [String.length_utf8EncodeChar]

theorem takeBytes_le (cs : List Char) : ∀ limit,
    ((takeBytes limit cs).map Char.utf8Size).sum ≤ limit := by
  induction cs with
  | nil => intro limit; simp [takeBytes]
  | cons c cs ih =>
    intro limit
    unfold takeBytes
    split
    · have := ih (limit - c.utf8Size)
      simp only [List.map_cons, List.sum_cons]
      omega
    · simp

theorem length_indexKey_le (value : String) : (utf8 (indexKey value)).length ≤ MAX_KEY_LEN := by
  unfold indexKey
  dsimp only
  split
  · rename_i h
    exact le_trans h (by decide)
  · have hmark : (utf8 TRUNCATION_MARK).length = 3 := by decide +kernel
    have htake := takeBytes_le (trim value).toList MAX_INDEX_KEY
    rw [← length_utf8_ofList] at htake
    have happend : utf8 (String.ofList (takeBytes MAX_INDEX_KEY (trim value).toList) ++
        TRUNCATION_MARK) = utf8 (String.ofList (takeBytes MAX_INDEX_KEY (trim value).toList)) ++
        utf8 TRUNCATION_MARK := by
      rw [utf8_eq_flatMap, utf8_eq_flatMap, utf8_eq_flatMap, String.toList_append,
        List.flatMap_append]
    rw [happend, List.length_append, hmark]
    unfold MAX_INDEX_KEY at htake ⊢
    unfold MAX_KEY_LEN
    omega

theorem length_retained_le {idx : FileIndex} {record : Option Record} {value : String}
    (h : value ∈ idx.retained record) : (utf8 value).length ≤ MAX_KEY_LEN := by
  cases record with
  | none => cases h
  | some record =>
    obtain ⟨text, -, htext⟩ := mem_keysOf.mp (List.mem_of_mem_filter h)
    rw [htext]
    exact length_indexKey_le text

theorem length_rebuilt_le {idx : FileIndex} {records : Map String Record} {attr : Nat}
    {value : String} (h : value ∈ (idx.rebuild records attr).postings) :
    (utf8 value).length ≤ MAX_KEY_LEN := by
  let Short (postings : Map String (Finset String)) : Prop :=
    ∀ v, v ∈ postings → (utf8 v).length ≤ MAX_KEY_LEN
  suffices hshort : Short (idx.rebuild records attr).postings from hshort value h
  unfold FileIndex.rebuild
  refine List.foldlRecOn _ _ (motive := Short) (fun v hv => ?_) fun postings hp entry _ => ?_
  · simp at hv
  refine List.foldlRecOn _ _ (motive := Short) hp fun postings hp value hvalue v hv => ?_
  split at hv
  · exact hp v hv
  · rcases Std.ExtTreeMap.mem_insert.mp hv with hv | hv
    · rw [Std.compare_eq_iff_eq] at hv
      obtain ⟨text, -, htext⟩ := mem_keysOf.mp hvalue
      rw [← hv, htext]
      exact length_indexKey_le text
    · exact hp v hv

/-! ## An index over its section -/

/-- An index in memory over the section it was last saved to. -/
structure IndexKept (dir : SectionDir) (idx : FileIndex) : Prop where
  section_ : ∃ P, Holds dir idx.sectionMeta P ∧
    CoversChanges idx.savedValues P (storedForm idx.source)
  values : ∀ value, value ∈ idx.postings → (utf8 value).length ≤ MAX_KEY_LEN

@[simp] theorem getElem?_source (idx : FileIndex) (value : String) :
    idx.source[value]? = idx.postings[value]?.map postingRecord := by
  rw [FileIndex.source, Std.ExtTreeMap.getElem?_map]

section

variable {dir : SectionDir} {idx : FileIndex}

/-- One posting list changed, and its value marked. -/
theorem IndexKept.touch (h : IndexKept dir idx) {value : String}
    (hvalue : (utf8 value).length ≤ MAX_KEY_LEN) {postings : Map String (Finset String)}
    (hother : ∀ v, v ≠ value → postings[v]? = idx.postings[v]?) :
    IndexKept dir { idx with
      postings := postings, dirtyValues := insert value idx.dirtyValues } := by
  obtain ⟨P, hold, hcovers⟩ := h.section_
  refine ⟨⟨P, hold, ?_⟩, ?_⟩
  · intro keys hkeys v hv
    unfold FileIndex.savedValues at hkeys hcovers
    dsimp only at hkeys
    split at hkeys
    · cases hkeys
    · rename_i hall
      cases hkeys
      rw [if_neg hall] at hcovers
      rw [Finset.mem_insert]
      by_cases hv' : v = value
      · exact Or.inl hv'
      · right
        apply hcovers _ rfl v
        rw [getElem?_storedForm, getElem?_source] at hv ⊢
        rw [hother v hv'] at hv
        exact hv
  · intro v hv
    by_cases hv' : v = value
    · rw [hv']
      exact hvalue
    · apply h.values v
      rw [Std.ExtTreeMap.mem_iff_isSome_getElem?] at hv ⊢
      rw [hother v hv'] at hv
      exact hv

theorem getElem?_withdraw_ne {key value v : String} {postings : Map String (Finset String)}
    (h : v ≠ value) : (FileIndex.withdraw key postings value)[v]? = postings[v]? := by
  unfold FileIndex.withdraw
  split
  · split
    · rw [getElem?_erase_eq, if_neg (Ne.symm h)]
    · rw [getElem?_insert_ne _ _ (Ne.symm h)]
  · rfl

theorem IndexKept.withdrawValue (h : IndexKept dir idx) (key : String) (kept : List String)
    {value : String} (hvalue : (utf8 value).length ≤ MAX_KEY_LEN) :
    IndexKept dir (idx.withdrawValue key kept value) := by
  unfold FileIndex.withdrawValue
  split
  · exact h
  · exact h.touch hvalue fun v hv => getElem?_withdraw_ne hv

theorem IndexKept.postValue (h : IndexKept dir idx) (key : String) (present : List String)
    {value : String} (hvalue : (utf8 value).length ≤ MAX_KEY_LEN) :
    IndexKept dir (idx.postValue key present value) := by
  unfold FileIndex.postValue
  split
  · exact h
  · refine h.touch hvalue fun v hv => ?_
    rw [FileIndex.post, getElem?_insert_ne _ _ (Ne.symm hv)]

theorem IndexKept.apply (h : IndexKept dir idx) (key : String) (old new : Option Record) :
    IndexKept dir (idx.apply key old new) := by
  unfold FileIndex.apply
  refine List.foldlRecOn _ _ ?_ fun i hi value hv => hi.postValue key _ (length_retained_le hv)
  exact List.foldlRecOn _ _ h fun i hi value hv => hi.withdrawValue key _ (length_retained_le hv)

/-- A rebuild marks everything. -/
theorem IndexKept.rebuild (h : IndexKept dir idx) (records : Entries) (attr : Nat) :
    IndexKept dir (idx.rebuild records attr) := by
  obtain ⟨P, hold, -⟩ := h.section_
  exact ⟨⟨P, hold, fun keys hkeys => by cases hkeys⟩, fun _ => length_rebuilt_le⟩

end

/-! ## A file over its directory -/

/-- A hashed file in memory over the directory it was loaded from or last flushed to. -/
structure FileKept (dir : TableDir) (t : Table) : Prop where
  data : ∃ D, Holds dir.data t.dataMeta D ∧ CoversChanges t.savedKeys D (storedForm t.records)
  hashed : t.legacyData = false
  dict : t.dictDirty = false →
    loadSection dir.dictPath dir.dict = .ok (storedForm t.dictionary)
  indexes : ∀ (field : String) (idx : FileIndex), t.indexes[field]? = some idx →
    IndexKept (dir.indexDir field).posts idx

section

variable {dir : TableDir} {t : Table}

/-- One record changed, its key marked and the indexes told. -/
theorem FileKept.edit (h : FileKept dir t) {key : String} {records : Entries}
    (hother : ∀ k, k ≠ key → records[k]? = t.records[k]?) (old new : Option Record) :
    FileKept dir (({ t with
      indexes := t.indexes.map fun _ idx => idx.apply key old new
      records := records } : Table).markDirty key) := by
  obtain ⟨D, hold, hcovers⟩ := h.data
  refine ⟨⟨D, hold, ?_⟩, h.hashed, h.dict, ?_⟩
  · intro keys hkeys k (hk : D[k]? ≠ (storedForm records)[k]?)
    by_cases hall : t.dirtyAll = true ∨ t.legacyData = true
    · cases hkeys.symm.trans (if_pos hall)
    · obtain rfl : keys = insert key t.dirtyKeys :=
        Option.some.inj (hkeys.symm.trans (if_neg hall))
      rw [Table.savedKeys, if_neg hall] at hcovers
      rw [Finset.mem_insert]
      by_cases hk' : k = key
      · exact Or.inl hk'
      · right
        apply hcovers _ rfl k
        rw [getElem?_storedForm] at hk ⊢
        rw [hother k hk'] at hk
        exact hk
  · intro field idx hidx
    simp only [Table.markDirty, Std.ExtTreeMap.getElem?_map] at hidx
    obtain ⟨idx₀, hidx₀, rfl⟩ := Option.map_eq_some_iff.mp hidx
    exact (h.indexes field idx₀ hidx₀).apply key old new

theorem FileKept.insertRecord (h : FileKept dir t) (key : String) (record : Record) :
    FileKept dir (t.insertRecord key record) :=
  h.edit (fun _ hk => getElem?_insert_ne _ _ (Ne.symm hk)) _ _

theorem FileKept.removeRecord (h : FileKept dir t) (key : String) :
    FileKept dir (t.removeRecord key).2 :=
  h.edit (fun k hk => by rw [getElem?_erase_eq, if_neg (Ne.symm hk)]) _ _

theorem FileKept.editDict (h : FileKept dir t) (dictionary : Entries) :
    FileKept dir ({ t with dictionary := dictionary } : Table).markDictDirty := by
  refine ⟨h.data, h.hashed, fun hd => (by cases hd), ?_⟩
  intro field idx hidx
  simp only [Table.markDictDirty, Table.recheckIndexAttributes, Std.ExtTreeMap.getElem?_map] at hidx
  obtain ⟨idx₀, hidx₀, hidx⟩ := Option.map_eq_some_iff.mp hidx
  have hkept := h.indexes field idx₀ hidx₀
  rw [← hidx]
  split
  · exact ⟨hkept.section_, hkept.values⟩
  · exact hkept

/-- The counter plays no part. -/
theorem FileKept.withAutokey (h : FileKept dir t) (autokey : Option Sequence) :
    FileKept dir { t with autokey := autokey } := ⟨h.data, h.hashed, h.dict, h.indexes⟩

theorem FileKept.rebuildStaleIndexes (h : FileKept dir t) : FileKept dir t.rebuildStaleIndexes := by
  refine ⟨h.data, h.hashed, h.dict, ?_⟩
  intro field idx hidx
  simp only [Table.rebuildStaleIndexes, Std.ExtTreeMap.getElem?_map] at hidx
  obtain ⟨idx₀, hidx₀, hidx⟩ := Option.map_eq_some_iff.mp hidx
  have hkept := h.indexes field idx₀ hidx₀
  rw [← hidx]
  split
  · split
    · exact hkept.rebuild _ _
    · exact hkept
  · exact hkept

theorem FileKept.applyChange (h : FileKept dir t) (change : Change) :
    FileKept dir (t.applyChange change) := by
  unfold Table.applyChange
  split
  · exact h.insertRecord _ _
  · exact h.editDict _
  · exact h.removeRecord _
  · exact h.editDict _

theorem FileKept.writeRecord (h : FileKept dir t) {digest : Record → String} {name : String}
    {key : Option String} {record : Record} {isDict : Bool} {condition : Condition}
    {autokey : Bool} {persisted : Option UInt64} {now : Nat} :
    FileKept dir (t.writeRecord digest name key record isDict condition autokey persisted now).2 := by
  have hkey : ∀ target t', t.writeKey name key autokey persisted now = .ok (target, t') →
      FileKept dir t' := by
    intro target t' hw
    unfold Table.writeKey at hw
    split at hw
    · cases hw
      exact h.withAutokey _
    · split at hw
      · cases hw
      · dsimp only at hw
        split at hw
        · cases hw
        · simp only [Except.ok.injEq, Prod.mk.injEq] at hw
          rw [← hw.2]
          refine FileKept.withAutokey ?_ _
          unfold Table.attachAutokey
          split
          · exact h
          · exact h.withAutokey _
  unfold Table.writeRecord
  split
  · split
    · exact h
    · split
      · exact h
      · exact h.editDict _
  · split
    · exact h
    · rename_i target t' hw
      split
      · exact hkey target t' hw
      · exact (hkey target t' hw).insertRecord _ _

end

/-! ## A flush -/

theorem AllFit.stored {M : Entries} (h : AllFit M) : AllFit (storedForm M) := by
  intro k r hr
  rw [getElem?_storedForm] at hr
  obtain ⟨r₀, hr₀, rfl⟩ := Option.map_eq_some_iff.mp hr
  obtain ⟨hkey, hdata⟩ := h k r₀ hr₀
  exact ⟨hkey, by rw [Record.toBytes_stored]; exact hdata⟩

/-- A save that returned, over records that need not be in their stored form. -/
theorem holds_of_saveOk {order : SaveOrder} {dir : SectionDir} {previous written : SectionMeta}
    {D M : Entries} {dirty : Option (Finset String)} {perGroup : Nat} {steps : List FileStep}
    (hold : Holds dir previous D) (hd : CoversChanges dirty D (storedForm M)) (hfit : AllFit M)
    (hsize : M.size < 2 ^ 64)
    (hok : saveWithFsync order dir M previous dirty perGroup = (steps, some (.ok written))) :
    Holds (dir.performAll steps) written (storedForm M) := by
  rw [← saveWithFsync_stored] at hok
  cases hplan : planModulus previous.modulus (storedForm M).size perGroup with
  | none =>
    rw [saveWithFsync, hplan] at hok
    cases hok
  | some m' =>
    obtain ⟨visited, removals, hsp, hret⟩ := savePlan order hold hd hplan
    rw [hok] at hsp hret
    have hwritten : written = nextMeta previous (storedForm M) dirty m' := by simpa using hret
    have hafter := holds_of_save hold hsp (planModulus_pow hold.modulus hplan) hfit.stored
      (by rw [size_storedForm]; exact hsize)
    rw [storedForm_storedForm] at hafter
    rw [hwritten]
    exact hafter

theorem loadSection_fitting {path : String} {M : Entries} (h : AllFit M) :
    loadSection path (some (sectionBytes M)) = .ok (storedForm M) := by
  have hle := length_le_length_frames M.toList
  have hread := readLoop_frames path M.toList ((sectionBytes M).length + 1)
    (by unfold sectionBytes; omega)
    fun e he => h e.1 e.2 (Std.ExtTreeMap.mem_toList_iff_getElem?_eq_some.mp he)
  have hloop : readLoop path ((sectionBytes M).length + 1) (sectionBytes M) =
      .ok (storedEntries M.toList) := hread
  simp only [loadSection, hloop]
  rw [storedEntries, insertAll_map_toList, storedForm]

/-- What a flush writes is within the limits of its readers, and of a 64-bit process. -/
structure ReadLimits (t : Table) : Prop where
  records : AllFit t.records
  dictionary : AllFit t.dictionary
  postings : ∀ (field : String) (idx : FileIndex),
    t.rebuildStaleIndexes.indexes[field]? = some idx →
    ∀ (value : String) (keys : Finset String), idx.postings[value]? = some keys →
      (postingRecord keys).toBytes.length ≤ MAX_DATA_LEN
  sizes : t.records.size < 2 ^ 64 ∧ ∀ (field : String) (idx : FileIndex),
    t.rebuildStaleIndexes.indexes[field]? = some idx → idx.postings.size < 2 ^ 64

/-- Nothing is waiting to be written. -/
structure Settled (t : Table) : Prop where
  dirtyKeys : t.dirtyKeys = ∅
  dirtyAll : t.dirtyAll = false
  dictDirty : t.dictDirty = false
  indexes : ∀ (field : String) (idx : FileIndex), t.indexes[field]? = some idx →
    idx.isDirty = false

theorem FileIndex.allFit_source {dir : SectionDir} {idx : FileIndex} (h : IndexKept dir idx)
    (hpost : ∀ (value : String) (keys : Finset String), idx.postings[value]? = some keys →
      (postingRecord keys).toBytes.length ≤ MAX_DATA_LEN) : AllFit idx.source := by
  intro value record hr
  rw [getElem?_source] at hr
  obtain ⟨keys, hkeys, rfl⟩ := Option.map_eq_some_iff.mp hr
  refine ⟨h.values value ?_, hpost value keys hkeys⟩
  rw [Std.ExtTreeMap.mem_iff_isSome_getElem?, hkeys]
  rfl

/-- An index that has been saved. -/
theorem IndexKept.save {dir : IndexDir} {idx idx' : FileIndex} (h : IndexKept dir.posts idx)
    {order : SaveOrder} {dataVersion perGroup : Nat} {steps : List IndexStep}
    (hfit : AllFit idx.source) (hsize : idx.postings.size < 2 ^ 64)
    (hok : idx.save order dir dataVersion perGroup = (steps, some (.ok idx'))) :
    IndexKept (dir.performAll steps).posts idx' ∧ idx'.isDirty = false := by
  obtain ⟨P, hold, hcovers⟩ := h.section_
  unfold FileIndex.save at hok
  dsimp only at hok
  split at hok
  · split at hok
    · cases hok
    · cases hok
    rename_i sectionSteps written hsave
    cases hok
    have hsource : idx.source.size < 2 ^ 64 := by
      rw [FileIndex.source, Std.ExtTreeMap.size_map]
      exact hsize
    have hafter := holds_of_saveOk hold hcovers hfit hsource hsave
    refine ⟨⟨⟨storedForm idx.source, ?_, ?_⟩, h.values⟩, by simp [FileIndex.isDirty]⟩
    · have hposts := IndexDir.performAll_posts sectionSteps (dir.perform .makeDir)
      have heq : (dir.performAll (.makeDir :: sectionSteps.map .posts ++
          [.renameState (stateBytes (idx.state dataVersion))])).posts =
          dir.posts.performAll sectionSteps := by
        rw [IndexDir.performAll, List.cons_append, List.foldl_cons, List.foldl_append]
        rw [IndexDir.performAll] at hposts
        rw [hposts]
        rfl
      rw [heq]
      exact hafter
    · intro keys _ v hv
      exact absurd rfl hv
  · rename_i hclean
    cases hok
    have hclean : idx.isDirty = false := by simpa using hclean
    exact ⟨⟨⟨P, hold, hcovers⟩, h.values⟩, hclean⟩

section

variable {order : FlushOrder} {dir : TableDir} {t t' : Table} {perGroup : Nat}
  {steps : List TableStep}

/-- A file with nothing to be written stands as it is. -/
theorem settled_of_clean (h : t.isDirty = false) : Settled t := by
  have h := of_decide_eq_false h
  simp only [not_or] at h
  obtain ⟨hall, hdict, hkeys, hindexes, -⟩ := h
  refine ⟨by simpa using hkeys, by simpa using hall, by simpa using hdict, ?_⟩
  intro field idx hidx
  rw [Bool.not_eq_true, Table.indexesDirty, List.any_eq_false] at hindexes
  have hclean := hindexes idx (mem_values_of_getElem? hidx)
  simp only [decide_eq_true_eq, not_or] at hclean
  simpa using hclean.1

/-- Nothing marked, nothing changed. -/
theorem CoversChanges.eq {dirty : Option (Finset String)} {D M : Entries}
    (h : CoversChanges dirty D M) (hdirty : dirty = some ∅) : D = M := by
  apply Std.ExtTreeMap.ext_getElem?
  intro k
  by_contra hne
  exact absurd (h ∅ hdirty k hne) (Finset.notMem_empty k)

/-- The records of a flush that returned. -/
theorem FileKept.saveData (h : FileKept dir t) (hfit : AllFit t.records)
    (hsize : t.records.size < 2 ^ 64) {data : List TableStep} {t₁ : Table}
    (hok : saveData order.toSaveOrder dir t perGroup = (data, some (.ok t₁))) :
    Holds (dir.data.performAll (dataSteps data)) t₁.dataMeta (storedForm t.records) ∧
      t₁.legacyData = false := by
  obtain ⟨D, hold, hcovers⟩ := h.data
  unfold RustyPick.saveData at hok
  split at hok
  · split at hok
    · cases hok
    · cases hok
    rename_i sectionSteps written hsave
    cases hok
    have hafter := holds_of_saveOk hold hcovers hfit hsize hsave
    refine ⟨?_, rfl⟩
    rw [h.hashed]
    simp only [Bool.false_eq_true, if_false, List.append_nil, dataSteps_map_data]
    exact hafter
  · rename_i hclean
    cases hok
    refine ⟨?_, h.hashed⟩
    have hclean : t.dirtyAll = false ∧ t.dirtyKeys = ∅ := by
      simpa [Table.recordsDirty] using hclean
    have hsaved : t.savedKeys = some ∅ := by
      simp [Table.savedKeys, hclean.1, hclean.2, h.hashed]
    exact hcovers.eq hsaved ▸ hold

/-- The dictionary of a flush that returned. -/
theorem FileKept.saveDict (h : FileKept dir t) (hfit : AllFit t.dictionary) {t₁ : Table}
    {saved : List (String × FileIndex)} {data later books : List TableStep}
    (hflush : Flushed order dir t perGroup steps t' t₁ saved data later books) :
    loadSection (dir.performAll steps).dictPath (dir.performAll steps).dict =
      .ok (storedForm t.dictionary) := by
  have hpath : (dir.performAll steps).dictPath = dir.dictPath := by
    rw [TableDir.dictPath, TableDir.dictPath, path_performAll]
  rw [hpath, hflush.dict_eq]
  split
  · exact loadSection_fitting hfit
  · rename_i hclean
    exact h.dict (by simpa using hclean)

/-- The indexes of a flush that returned. -/
theorem FileKept.saveIndexes (h : FileKept dir t) (hlimits : ReadLimits t) {t₁ : Table}
    {saved : List (String × FileIndex)} {data later books : List TableStep}
    (hflush : Flushed order dir t perGroup steps t' t₁ saved data later books) {field : String}
    {idx' : FileIndex} (hidx : t'.indexes[field]? = some idx') :
    IndexKept ((dir.performAll steps).indexDir field).posts idx' ∧ idx'.isDirty = false := by
  obtain ⟨queue, autokey, ht'⟩ := hflush.table
  have hmem : (field, idx') ∈ saved := by
    rw [ht'] at hidx
    rcases of_getElem?_insertAll hidx with hmem | hnone
    · exact hmem
    · simp at hnone
  obtain ⟨idx, hin, hsave⟩ := saveIndexes_ok _ (pairwise_toList _) hflush.indexes_eq _ _ hmem
  have hidx₁ : t.rebuildStaleIndexes.indexes[field]? = some idx := by
    rw [← (saveData_same (congrArg Prod.snd hflush.data_eq)).1]
    exact Std.ExtTreeMap.mem_toList_iff_getElem?_eq_some.mp hin
  have hkept := h.rebuildStaleIndexes.indexes field idx hidx₁
  rw [indexDir_performAll, hflush.indexSteps_eq]
  exact hkept.save (FileIndex.allFit_source hkept (hlimits.postings field idx hidx₁))
    (hlimits.sizes.2 field idx hidx₁) hsave

/-- A flush that returned leaves a file with nothing to be written. -/
theorem FileKept.flush (h : FileKept dir t) (hlimits : ReadLimits t)
    (hok : flushLocked order dir t perGroup = (steps, some (.ok t'))) :
    FileKept (dir.performAll steps) t' ∧ Settled t' ∧ t'.records = t.records ∧
      t'.dictionary = t.dictionary := by
  cases hdirty : t.isDirty with
  | false =>
    unfold flushLocked at hok
    rw [if_pos (by simp [hdirty])] at hok
    cases hok
    exact ⟨h, settled_of_clean hdirty, rfl, rfl⟩
  | true =>
    obtain ⟨t₁, saved, data, later, books, hflush⟩ := flushed_of_ok hok hdirty
    obtain ⟨-, hrecords, hdictionary, -⟩ := saveData_same (congrArg Prod.snd hflush.data_eq)
    obtain ⟨hdata, hhashed⟩ :=
      h.rebuildStaleIndexes.saveData hlimits.records hlimits.sizes.1 hflush.data_eq
    have hindexes := fun field idx' => @FileKept.saveIndexes order dir t t' perGroup steps h hlimits
      t₁ saved data later books hflush field idx'
    have hdict := h.saveDict hlimits.dictionary hflush
    obtain ⟨queue, autokey, ht'⟩ := hflush.table
    have hsame : t'.records = t.records ∧ t'.dictionary = t.dictionary := by
      rw [ht']
      exact ⟨hrecords, hdictionary⟩
    refine ⟨⟨⟨storedForm t.records, ?_, ?_⟩, ?_, fun _ => ?_,
      fun field idx' hidx => (hindexes field idx' hidx).1⟩, ⟨?_, ?_, ?_,
      fun field idx' hidx => (hindexes field idx' hidx).2⟩, hsame.1, hsame.2⟩
    · rw [data_performAll, hflush.dataSteps_eq, ht']
      exact hdata
    · rw [hsame.1]
      intro keys _ k hk
      exact absurd rfl hk
    · rw [ht']
      exact hhashed
    · rw [hsame.2]
      exact hdict
    · rw [ht']
      rfl
    · rw [ht']
      rfl
    · rw [ht']
      rfl

/-- A file with nothing to be written reads as it stands in memory. -/
theorem FileKept.reads (h : FileKept dir t) (hs : Settled t) :
    (∃ found, load dir.data = .ok (found, storedForm t.records)) ∧
      loadSection dir.dictPath dir.dict = .ok (storedForm t.dictionary) ∧
      ∀ (field : String) (idx : FileIndex), t.indexes[field]? = some idx →
        ∃ found, load (dir.indexDir field).posts = .ok (found, storedForm idx.source) := by
  refine ⟨?_, h.dict hs.dictDirty, ?_⟩
  · obtain ⟨D, hold, hcovers⟩ := h.data
    have hkeys : t.savedKeys = some ∅ := by
      simp [Table.savedKeys, hs.dirtyAll, hs.dirtyKeys, h.hashed]
    exact ⟨t.dataMeta, hcovers.eq hkeys ▸ load_of_holds hold⟩
  · intro field idx hidx
    obtain ⟨P, hold, hcovers⟩ := (h.indexes field idx hidx).section_
    have hclean := hs.indexes field idx hidx
    have hvalues : idx.savedValues = some ∅ := by
      have hclean : idx.dirtyAll = false ∧ idx.dirtyValues = ∅ := by
        simpa [FileIndex.isDirty] using hclean
      simp [FileIndex.savedValues, hclean.1, hclean.2]
    exact ⟨idx.sectionMeta, hcovers.eq hvalues ▸ load_of_holds hold⟩

end

/-! ## Runs -/

structure FileState where
  dir : TableDir
  table : Table

/-- A request the engine accepts, or a flush that returns. -/
inductive Submission where
  | write (key : Option String) (record : Record) (isDict : Bool) (condition : Condition)
      (autokey : Bool) (persisted : Option UInt64) (reading : Nat)
  | transact (account : String) (changes : List Change)
  | flush (order : FlushOrder) (perGroup : Nat)

/-- What a request does to the file. A transaction of more than `MAX_CHANGES` changes is refused
before anything is written. -/
def Submission.perform (digest : Record → String) (name : String) (s : FileState) :
    Submission → Option (Option Written × FileState)
  | .write key record isDict condition autokey persisted reading =>
    match s.table.writeRecord digest name key record isDict condition autokey persisted reading with
    | (.ok w, t) => some (some w, { s with table := t })
    | (.error _, _) => none
  | .transact _ changes =>
    if changes.length ≤ MAX_CHANGES then
      some (none, { s with table := applyTo name changes s.table })
    else none
  | .flush order perGroup =>
    match flushLocked order s.dir s.table perGroup with
    | (steps, some (.ok t)) => some (none, { dir := s.dir.performAll steps, table := t })
    | _ => none

structure SubmitEvent where
  action : Submission
  written : Option Written

inductive SubmitRun (digest : Record → String) (name : String)
    (ok : FileState → SubmitEvent → Prop) : FileState → List SubmitEvent → FileState → Prop where
  | nil (s : FileState) : SubmitRun digest name ok s [] s
  | cons {s s' s'' : FileState} {e : SubmitEvent} {es : List SubmitEvent} :
      ok s e → e.action.perform digest name s = some (e.written, s') →
      SubmitRun digest name ok s' es s'' → SubmitRun digest name ok s (e :: es) s''

/-- The records and the dictionary entries that have been accepted and not replaced or deleted
since. -/
structure Accepted where
  records : Entries
  dictionary : Entries

namespace Accepted

def put (a : Accepted) (isDict : Bool) (key : String) (record : Record) : Accepted :=
  if isDict then { a with dictionary := a.dictionary.insert key record }
  else { a with records := a.records.insert key record }

def drop (a : Accepted) (isDict : Bool) (key : String) : Accepted :=
  if isDict then { a with dictionary := a.dictionary.erase key }
  else { a with records := a.records.erase key }

def change (a : Accepted) (c : Change) : Accepted :=
  match c.op with
  | .write record => a.put c.isDict c.key record
  | .delete => a.drop c.isDict c.key

def note (name : String) (a : Accepted) (e : SubmitEvent) : Accepted :=
  match e.action, e.written with
  | .write _ record isDict _ _ _ _, some w => a.put isDict w.key record
  | .transact _ changes, _ => (changesOf name changes).foldl change a
  | _, _ => a

end Accepted

/-- What the file, its indexes and the intents read back as. -/
structure ReadsAccepted (name : String) (s : FileState) (es : List SubmitEvent) (s' : FileState) :
    Prop where
  records : ∃ found, load s'.dir.data = .ok (found, storedForm
    (es.foldl (Accepted.note name) ⟨s.table.records, s.table.dictionary⟩).records)
  dictionary : loadSection s'.dir.dictPath s'.dir.dict = .ok (storedForm
    (es.foldl (Accepted.note name) ⟨s.table.records, s.table.dictionary⟩).dictionary)
  indexes : ∀ (field : String) (idx : FileIndex), s'.table.indexes[field]? = some idx →
    ∃ found, load (s'.dir.indexDir field).posts = .ok (found, storedForm idx.source)
  intents : ∀ e ∈ es, ∀ account changes, e.action = .transact account changes →
    decode (encode account changes) =
      some { account := account, changes := changes.map Change.stored }

/-- A flush writes nothing past the limits; a transaction is one a 64-bit process can hold. -/
def Readable (s : FileState) (e : SubmitEvent) : Prop :=
  (∀ order perGroup, e.action = .flush order perGroup → ReadLimits s.table) ∧
    ∀ account changes, e.action = .transact account changes →
      (utf8 account).length < 2 ^ 64 ∧ ∀ c ∈ changes, c.Addressable

def FileState.accepted (s : FileState) : Accepted := ⟨s.table.records, s.table.dictionary⟩

section

variable {digest : Record → String} {name : String} {s s' : FileState}

theorem accepted_applyChange (t : Table) (dir : TableDir) (c : Change) :
    FileState.accepted ⟨dir, t.applyChange c⟩ = (FileState.accepted ⟨dir, t⟩).change c := by
  obtain ⟨file, key, isDict, op⟩ := c
  cases op <;> cases isDict <;> rfl

theorem accepted_applyTo (dir : TableDir) (changes : List Change) : ∀ t : Table,
    FileState.accepted ⟨dir, changes.foldl Table.applyChange t⟩ =
      changes.foldl Accepted.change (FileState.accepted ⟨dir, t⟩) := by
  induction changes with
  | nil => intro t; rfl
  | cons c changes ih =>
    intro t
    rw [List.foldl_cons, List.foldl_cons, ih, accepted_applyChange]

theorem accepted_write {t t' : Table} {key : Option String} {record : Record} {isDict : Bool}
    {condition : Condition} {autokey : Bool} {persisted : Option UInt64} {reading : Nat}
    {w : Written} (h : t.writeRecord digest name key record isDict condition autokey persisted
      reading = (.ok w, t')) (dir : TableDir) :
    FileState.accepted ⟨dir, t'⟩ = (FileState.accepted ⟨dir, t⟩).put isDict w.key record := by
  rcases writeRecord_cases digest t name key record isDict condition autokey persisted reading with
    ⟨error, t₁, heq, -⟩ | ⟨w₁, t₁, heq, -, -, hside, hother⟩
  · rw [h] at heq
    cases heq
  · rw [h] at heq
    cases heq
    cases isDict with
    | true =>
      have hdictionary : t'.dictionary = t.dictionary.insert w.key record := hside
      have hrecords : t'.records = t.records := hother
      simp only [FileState.accepted, Accepted.put, if_true, hdictionary, hrecords]
    | false =>
      have hrecords : t'.records = t.records.insert w.key record := hside
      have hdictionary : t'.dictionary = t.dictionary := hother
      simp only [FileState.accepted, Accepted.put, Bool.false_eq_true, if_false, hdictionary,
        hrecords]

/-- A request keeps the file over its disk, and its memory to what has been accepted. -/
theorem FileKept.submit (h : FileKept s.dir s.table) {e : SubmitEvent} (hok : Readable s e)
    (hstep : e.action.perform digest name s = some (e.written, s')) :
    FileKept s'.dir s'.table ∧ s'.accepted = s.accepted.note name e ∧
      ∀ order perGroup, e.action = .flush order perGroup → Settled s'.table := by
  cases ha : e.action with
  | write key record isDict condition autokey persisted reading =>
    rw [ha] at hstep
    simp only [Submission.perform] at hstep
    split at hstep
    · rename_i w t hwrite
      simp only [Option.some.injEq, Prod.mk.injEq] at hstep
      obtain ⟨hw, rfl⟩ := hstep
      have hkept := @FileKept.writeRecord s.dir s.table h digest name key record isDict condition
        autokey persisted reading
      rw [hwrite] at hkept
      refine ⟨hkept, ?_, fun _ _ hc => by cases hc⟩
      rw [Accepted.note, ha, ← hw]
      exact accepted_write hwrite s.dir
    · cases hstep
  | transact account changes =>
    rw [ha] at hstep
    simp only [Submission.perform] at hstep
    split at hstep
    · simp only [Option.some.injEq, Prod.mk.injEq] at hstep
      obtain ⟨-, rfl⟩ := hstep
      refine ⟨?_, ?_, fun _ _ hc => by cases hc⟩
      · exact List.foldlRecOn _ _ h fun t ht c _ => ht.applyChange c
      · rw [Accepted.note, ha]
        exact accepted_applyTo s.dir _ s.table
    · cases hstep
  | flush order perGroup =>
    rw [ha] at hstep
    simp only [Submission.perform] at hstep
    split at hstep
    · rename_i steps t hflush
      simp only [Option.some.injEq, Prod.mk.injEq] at hstep
      obtain ⟨-, rfl⟩ := hstep
      obtain ⟨hkept, hsettled, hrecords, hdictionary⟩ := h.flush (hok.1 order perGroup ha) hflush
      refine ⟨hkept, ?_, fun _ _ _ => hsettled⟩
      rw [Accepted.note, ha, FileState.accepted, FileState.accepted, hrecords, hdictionary]
    · cases hstep

theorem FileKept.run {es : List SubmitEvent} (h : FileKept s.dir s.table)
    (hrun : SubmitRun digest name Readable s es s') :
    FileKept s'.dir s'.table ∧ s'.accepted = es.foldl (Accepted.note name) s.accepted := by
  induction hrun with
  | nil s => exact ⟨h, rfl⟩
  | cons hok hstep _ ih =>
    obtain ⟨hkept, haccepted, -⟩ := h.submit hok hstep
    obtain ⟨hlast, hfold⟩ := ih hkept
    exact ⟨hlast, by rw [List.foldl_cons, ← haccepted, hfold]⟩

/-- Every intent of an accepted transaction is read back. -/
theorem intents_read_back {es : List SubmitEvent} (hrun : SubmitRun digest name Readable s es s') :
    ∀ e ∈ es, ∀ account changes, e.action = .transact account changes →
      decode (encode account changes) =
        some { account := account, changes := changes.map Change.stored } := by
  induction hrun with
  | nil s =>
    intro e he
    cases he
  | cons hok hstep _ ih =>
    intro e he account changes ha
    rcases List.mem_cons.mp he with rfl | he
    · obtain ⟨haccount, hchanges⟩ := hok.2 account changes ha
      rw [ha] at hstep
      simp only [Submission.perform] at hstep
      split at hstep
      · rename_i hcount
        exact decode_encode haccount hcount hchanges
      · cases hstep
    · exact ih e he account changes ha

theorem SubmitRun.split {ok : FileState → SubmitEvent → Prop} {pre post : List SubmitEvent} :
    SubmitRun digest name ok s (pre ++ post) s' →
    ∃ s₁, SubmitRun digest name ok s pre s₁ ∧ SubmitRun digest name ok s₁ post s' := by
  induction pre generalizing s with
  | nil =>
    intro h
    exact ⟨s, .nil s, h⟩
  | cons e pre ih =>
    intro h
    cases h with
    | cons hok hstep hrest =>
      obtain ⟨s₁, hpre, hpost⟩ := ih hrest
      exact ⟨s₁, .cons hok hstep hpre, hpost⟩

end

/-- In every run in which what a flush writes is within the limits of the readers, the file reads
back after every flush, with everything that was accepted. -/
theorem accepted_reads_back (digest : Record → String) (name : String) {s s' : FileState}
    {es : List SubmitEvent} {e : SubmitEvent} {order : FlushOrder} {perGroup : Nat}
    (h : FileKept s.dir s.table) (he : e.action = .flush order perGroup)
    (hrun : SubmitRun digest name Readable s (es ++ [e]) s') :
    ReadsAccepted name s (es ++ [e]) s' := by
  obtain ⟨hkept, haccepted⟩ := h.run hrun
  have hintents := intents_read_back hrun
  obtain ⟨s₁, hpre, hlast⟩ := hrun.split
  cases hlast with
  | cons hok hstep hnil =>
    cases hnil
    obtain ⟨-, -, hsettled⟩ := (h.run hpre).1.submit hok hstep
    obtain ⟨hrecords, hdictionary, hindexes⟩ := hkept.reads (hsettled order perGroup he)
    have hr := congrArg Accepted.records haccepted
    have hd := congrArg Accepted.dictionary haccepted
    refine ⟨?_, ?_, hindexes, hintents⟩
    · rw [← FileState.accepted, ← hr]
      exact hrecords
    · rw [← FileState.accepted, ← hd]
      exact hdictionary

/-! ## Runs that can be evaluated -/

/-- A run of given actions, each from a state that passes a check. -/
def submitAll (digest : Record → String) (name : String)
    (check : FileState → Submission → Bool) :
    FileState → List Submission → Option (List SubmitEvent × FileState)
  | s, [] => some ([], s)
  | s, a :: rest =>
    if check s a then
      match a.perform digest name s with
      | some (w, s') => (submitAll digest name check s' rest).map fun r =>
        ({ action := a, written := w } :: r.1, r.2)
      | none => none
    else none

theorem submitRun_of_all {digest : Record → String} {name : String}
    {check : FileState → Submission → Bool} {ok : FileState → SubmitEvent → Prop}
    (hok : ∀ s e, check s e.action = true → ok s e) :
    ∀ {as : List Submission} {s s' : FileState} {es : List SubmitEvent},
    submitAll digest name check s as = some (es, s') →
    SubmitRun digest name ok s es s' ∧ es.map SubmitEvent.action = as := by
  intro as
  induction as with
  | nil =>
    intro s s' es h
    cases h
    exact ⟨.nil s, rfl⟩
  | cons a rest ih =>
    intro s s' es h
    simp only [submitAll] at h
    split at h
    · rename_i hcheck
      split at h
      · rename_i w s₁ hstep
        obtain ⟨r, hr, heq⟩ := Option.map_eq_some_iff.mp h
        simp only [Prod.mk.injEq] at heq
        obtain ⟨rfl, rfl⟩ := heq
        obtain ⟨hrun, hactions⟩ := ih hr
        exact ⟨.cons (hok s _ hcheck) hstep hrun, by rw [List.map_cons, hactions]⟩
      · cases h
    · cases h

/-- `Readable`, for a file without indexes. -/
def readableNow (s : FileState) : Submission → Bool
  | .flush _ _ =>
    s.table.records.toList.all (fun e => Fits e.1 e.2) &&
      s.table.dictionary.toList.all (fun e => Fits e.1 e.2) &&
      s.table.indexes.isEmpty && decide (s.table.records.size < 2 ^ 64)
  | .transact account changes =>
    decide ((utf8 account).length < 2 ^ 64) && changes.all fun c =>
      decide ((utf8 c.file).length < 2 ^ 64) && decide ((utf8 c.key).length < 2 ^ 64) &&
        match c.op with
        | .write record => decide (record.toBytes.length < 2 ^ 64)
        | .delete => true
  | .write .. => true

theorem allFit_of_all {M : Entries} (h : M.toList.all (fun e => Fits e.1 e.2) = true) :
    AllFit M := by
  intro k r hr
  have hfit := List.all_eq_true.mp h (k, r) (Std.ExtTreeMap.mem_toList_iff_getElem?_eq_some.mpr hr)
  simpa using hfit

theorem readable_of_now (s : FileState) (e : SubmitEvent) (h : readableNow s e.action = true) :
    Readable s e := by
  constructor
  · intro order perGroup ha
    rw [ha] at h
    simp only [readableNow, Bool.and_eq_true, decide_eq_true_eq] at h
    obtain ⟨⟨⟨hrecords, hdictionary⟩, hnone⟩, hsize⟩ := h
    have hindexes : ∀ (field : String) (idx : FileIndex),
        s.table.rebuildStaleIndexes.indexes[field]? ≠ some idx := by
      intro field idx hidx
      rw [Table.rebuildStaleIndexes, Std.ExtTreeMap.isEmpty_iff.mp hnone] at hidx
      simp at hidx
    exact ⟨allFit_of_all hrecords, allFit_of_all hdictionary,
      fun field idx hidx => absurd hidx (hindexes field idx), hsize,
      fun field idx hidx => absurd hidx (hindexes field idx)⟩
  · intro account changes ha
    rw [ha] at h
    simp only [readableNow, Bool.and_eq_true, decide_eq_true_eq, List.all_eq_true] at h
    refine ⟨h.1, fun c hc => ?_⟩
    obtain ⟨⟨hfile, hkey⟩, hrecord⟩ := h.2 c hc
    refine ⟨hfile, hkey, fun record hop => ?_⟩
    rw [hop] at hrecord
    simpa using hrecord

/-- A file that has just been created. -/
def createdFile : FileState :=
  { dir := { path := "F", data := { path := "F/data.hf" } }, table := {} }

theorem createdFile_kept : FileKept createdFile.dir createdFile.table := by
  refine ⟨⟨∅, holds_fresh _, fun keys _ k hk => ?_⟩, rfl, fun _ => rfl, fun field idx hidx => ?_⟩
  · exact absurd (by simp [createdFile]) hk
  · simp [createdFile] at hidx

def writeOf (key : String) : Submission := .write (some key) sampleRow false .always false none 0

/-- A write and a transaction of a write and a delete, then a flush. -/
def writeAndTransact : List Submission :=
  [writeOf "K", writeOf "L",
    .transact "A" [{ file := "F", key := "M", isDict := false, op := .write sampleRow },
      { file := "F", key := "K", isDict := false, op := .delete }],
    .flush .plain 16]

theorem write_and_transact_read_back :
    ∃ es s, es.map SubmitEvent.action = writeAndTransact ∧
      ReadsAccepted "F" createdFile es s := by
  have hall :
      (submitAll (fun _ => "") "F" readableNow createdFile writeAndTransact).isSome = true := by
    decide +kernel
  obtain ⟨⟨es, s⟩, hes⟩ := Option.isSome_iff_exists.mp hall
  obtain ⟨hrun, hactions⟩ := submitRun_of_all readable_of_now hes
  refine ⟨es, s, hactions, ?_⟩
  -- the last of them is the flush
  obtain ⟨pre, e, rfl⟩ : ∃ pre e, es = pre ++ [e] := by
    refine ⟨es.dropLast, es.getLast ?_, (List.dropLast_append_getLast _).symm⟩
    rintro rfl
    cases hactions
  have hlast : e.action = .flush .plain 16 := by
    have h := congrArg List.getLast? hactions
    simpa [writeAndTransact] using h
  exact accepted_reads_back (fun _ => "") "F" createdFile_kept hlast hrun

/-- One byte more than a key may have. -/
def longKey : String := String.ofList (List.replicate 1025 'k')

theorem long_key_unreadable :
    ∃ es s, es.map SubmitEvent.action = [writeOf longKey, .flush .plain 16] ∧
      FileKept createdFile.dir createdFile.table ∧
      SubmitRun (fun _ => "") "F" (fun _ _ => True) createdFile es s ∧
      ¬ ReadsAccepted "F" createdFile es s := by
  have hall : (submitAll (fun _ => "") "F" (fun _ _ => true) createdFile
      [writeOf longKey, .flush .plain 16]).map (fun r => (load r.2.dir.data).toBool) =
      some false := by
    decide +kernel
  obtain ⟨⟨es, s⟩, hes, hload⟩ := Option.map_eq_some_iff.mp hall
  obtain ⟨hrun, hactions⟩ := submitRun_of_all (fun _ _ _ => trivial) hes
  refine ⟨es, s, hactions, createdFile_kept, hrun, fun h => ?_⟩
  obtain ⟨found, hfound⟩ := h.records
  dsimp only at hload
  rw [hfound] at hload
  cases hload

end RustyPick
