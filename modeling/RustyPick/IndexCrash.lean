import RustyPick.FlushSteps
import RustyPick.IndexRun

/-!
# RustyPick.IndexCrash

A flush cut short anywhere, and the indexes the next load trusts.

The load compares one number: the data version an index's `state` names with the version in `meta`.
Groups of records are in place before `meta` is, so an index can be trusted beside records it has
never seen. An index rewritten while the records are clean is written under the `state` it already
had, and the same goes for it.

* `trustedCovers_old`, `trustedCovers_rewriting`, `trustedCovers_saved`: an index nothing has been
  written to, one whose section is being rewritten, and one that is done.
* `indexesAnswer_of_flush`: after every prefix every index is marked or answers for every record,
  under `KeepsIndexes`.
-/

namespace RustyPick

open Lib

/-! ## What a loaded index owes -/

/-- For every value, the keys the index answers with hold each record that has a sub-value, or no
attribute at all, that compares equal to it. -/
def FileIndex.Answers (idx : FileIndex) (records : Entries) : Prop :=
  ∀ (v key : String) (record : Record) (keys : Finset String), records[key]? = some record →
    (∃ text ∈ textsOf (some record) idx.attr, trim text = v) →
    idx.candidates (indexKey v) = some keys → key ∈ keys

/-- Every index of the file, as the next load attaches it, is marked for a rebuild or answers. -/
def IndexesAnswer (dir : TableDir) : Prop :=
  ∀ t, loadTable dir = .ok t → ∀ (field : String) (idx : FileIndex),
    t.indexes[field]? = some idx → idx.needsRebuild = true ∨ idx.Answers t.records

theorem FileIndex.Covers.answers {idx : FileIndex} {records : Entries} (h : idx.Covers records) :
    idx.Answers records := by
  rintro v key record keys hrec ⟨text, htext, rfl⟩ hkeys
  unfold FileIndex.candidates at hkeys
  split_ifs at hkeys with hstale hex
  cases hkeys
  rw [indexKey_trim] at hex ⊢
  exact h key record hrec _ (mem_retained.mpr ⟨mem_keysOf.mpr ⟨text, htext, rfl⟩, hex⟩)

/-- The index in `dir` covers `records` when it is loaded beside them and trusted. -/
def TrustedCovers (dir : IndexDir) (field : String) (attr : Option Nat) (dataVersion : Nat)
    (records : Entries) : Prop :=
  (loadIndex dir field attr dataVersion).needsRebuild = false →
    (loadIndex dir field attr dataVersion).Covers records

/-- The version a load compares with. -/
def LoadedData.version (data : LoadedData) : Nat :=
  if data.legacyData then 0 else data.dataMeta.version

/-- The attribute a dictionary gives a field. -/
def fieldIn (dictionary : Entries) (field : String) : Option Nat :=
  ({ dictionary := dictionary } : Table).fieldIndex field

theorem indexesAnswer_of {dir : TableDir}
    (h : ∀ data dictionary, loadData dir = .ok data →
      loadSection dir.dictPath dir.dict = .ok dictionary → ∀ field ∈ indexedFields dir,
        TrustedCovers (dir.indexDir field) field (fieldIn dictionary field) data.version
          data.records) : IndexesAnswer dir := by
  intro t hload field idx hidx
  have hdisk : TrustedIndexesCover dir t := by
    unfold loadTable at hload
    split at hload
    · cases hload
    · rename_i data hdata
      split at hload
      · cases hload
      · rename_i dictionary hdict
        cases hload
        exact h data dictionary hdata hdict
  have hcov := (indexed_loadTable hload hdisk field idx hidx).2
  cases hstale : idx.needsRebuild with
  | true => exact Or.inl rfl
  | false => exact Or.inr (hcov hstale).answers

/-! ## Trust -/

/-- What a trusted index was read from. -/
theorem trusted_cases {dir : IndexDir} {field : String} {attr : Option Nat} {dataVersion : Nat}
    (h : (loadIndex dir field attr dataVersion).needsRebuild = false) :
    ∃ a sectionMeta entries state, attr = some a ∧ load dir.posts = .ok (sectionMeta, entries) ∧
      readState dir.stateFile = some state ∧ state.field = field ∧ state.attributeNo = a + 1 ∧
      state.dataVersion = dataVersion ∧
      (loadIndex dir field attr dataVersion).attr = a ∧
      (loadIndex dir field attr dataVersion).excluded = state.excluded ∧
      (loadIndex dir field attr dataVersion).postings =
        entries.map fun _ record => postingKeys record := by
  unfold loadIndex at h ⊢
  split at h
  · rename_i a sectionMeta entries hload
    cases hstate : readState dir.stateFile with
    | none => simp [FileIndex.loaded, hstate] at h
    | some state =>
      simp only [FileIndex.loaded, hstate, Bool.not_eq_false', decide_eq_true_eq] at h
      refine ⟨a, sectionMeta, entries, state, rfl, hload, rfl, h.1, h.2.1, h.2.2, ?_⟩
      exact ⟨rfl, rfl, rfl⟩
  · cases h

/-- An index whose `state` names another version is not trusted. -/
theorem trustedCovers_of_behind {dir : IndexDir} {field : String} {attr : Option Nat}
    {dataVersion : Nat} {records : Entries}
    (h : ∀ state, readState dir.stateFile = some state → state.dataVersion ≠ dataVersion) :
    TrustedCovers dir field attr dataVersion records := by
  intro hfresh
  obtain ⟨a, sectionMeta, entries, state, -, -, hstate, -, -, hv, -⟩ := trusted_cases hfresh
  exact absurd hv (h state hstate)

/-- An index of a field the dictionary does not define is not trusted. -/
theorem trustedCovers_of_undefined {dir : IndexDir} {field : String} {dataVersion : Nat}
    {records : Entries} : TrustedCovers dir field none dataVersion records := by
  intro hfresh
  obtain ⟨a, _, _, _, hattr, -⟩ := trusted_cases hfresh
  cases hattr

theorem trusted_of {dir : IndexDir} {field : String} {a dataVersion : Nat}
    {sectionMeta : SectionMeta} {entries : Entries} {state : IndexState}
    (hload : load dir.posts = .ok (sectionMeta, entries))
    (hstate : readState dir.stateFile = some state) (hf : state.field = field)
    (ha : state.attributeNo = a + 1) (hv : state.dataVersion = dataVersion) :
    (loadIndex dir field (some a) dataVersion).needsRebuild = false := by
  simp [loadIndex, hload, FileIndex.loaded, hstate, hf, ha, hv]

theorem posted_map {entries : Entries} {key value : String} :
    Posted (entries.map fun _ record => postingKeys record) key value ↔
      ∃ record, entries[value]? = some record ∧ key ∈ postingKeys record := by
  rw [Posted, Std.ExtTreeMap.getElem?_map]
  cases entries[value]? <;> simp

/-! ## One index being saved -/

/-- The values a save of an index is told about. -/
def FileIndex.savedValues (idx : FileIndex) : Option (Finset String) :=
  if idx.dirtyAll then none else some idx.dirtyValues

/-- The posting lists as they read back. -/
def FileIndex.reread (idx : FileIndex) : Map String (Finset String) :=
  (storedForm idx.source).map fun _ record => postingKeys record

/-- An index in memory over the section it was loaded from or last saved to. -/
structure IndexBacked (dir : IndexDir) (field : String) (idx : FileIndex) (P : Entries) : Prop where
  posts : Holds dir.posts idx.sectionMeta P
  changes : CoversChanges idx.savedValues P idx.source
  source : InMemory idx.source
  field : idx.field = field
  attr : idx.attr < u64Max
  excluded : ∀ value ∈ idx.excluded, trim value = value

theorem IndexDir.performAll_posts (steps : List FileStep) : ∀ dir : IndexDir,
    dir.performAll (steps.map .posts) = { dir with posts := dir.posts.performAll steps } := by
  induction steps with
  | nil => intro dir; rfl
  | cons s steps ih =>
    intro dir
    rw [List.map_cons, IndexDir.performAll, List.foldl_cons]
    exact (ih (dir.perform (.posts s))).trans rfl

/-- The section is written under the `state` that was there, and `state` last. -/
theorem save_stopped {idx : FileIndex} {order : SaveOrder} {dir : IndexDir}
    {dataVersion perGroup : Nat} {pre : List IndexStep}
    (h : pre <+: (idx.save order dir dataVersion perGroup).1) :
    let section' := saveWithFsync order dir.posts idx.source idx.sectionMeta idx.savedValues perGroup
    (dir.performAll pre = dir) ∨
      (idx.isDirty = true ∧ ∃ steps, steps <+: section'.1 ∧
        dir.performAll pre = { dir with posts := dir.posts.performAll steps }) ∨
      (∃ written, section'.2 = some (.ok written) ∧ idx.isDirty = true ∧
        dir.performAll pre =
          { posts := dir.posts.performAll section'.1
            stateFile := some (stateBytes (idx.state dataVersion)) }) ∨
      (idx.isDirty = false ∧ dir.performAll pre =
        { dir with stateFile := some (stateBytes (idx.state dataVersion)) }) := by
  intro section'
  cases pre with
  | nil => exact Or.inl rfl
  | cons s pre =>
    unfold FileIndex.save at h
    dsimp only at h
    by_cases hdirty : idx.isDirty = true
    · rw [if_pos hdirty] at h
      -- what follows the directory itself: the section, and `state` if the section was saved
      have hcut : ∀ {out}, section' = out → pre <+: out.1.map .posts →
          ∃ steps, steps <+: section'.1 ∧ dir.performAll (.makeDir :: pre) =
            { dir with posts := dir.posts.performAll steps } := by
        intro out hout hpre
        obtain ⟨steps, hsteps, rfl⟩ := List.prefix_map_iff.mp hpre
        refine ⟨steps, hout ▸ hsteps, ?_⟩
        exact IndexDir.performAll_posts steps dir
      right
      split at h
      · rename_i steps hsave
        rw [List.cons_prefix_cons] at h
        obtain ⟨rfl, h⟩ := h
        exact Or.inl ⟨hdirty, hcut hsave h⟩
      · rename_i steps e hsave
        rw [List.cons_prefix_cons] at h
        obtain ⟨rfl, h⟩ := h
        exact Or.inl ⟨hdirty, hcut hsave h⟩
      · rename_i steps written hsave
        rw [List.cons_append, List.cons_prefix_cons] at h
        obtain ⟨rfl, h⟩ := h
        rcases List.prefix_concat_iff.mp h with rfl | h
        · right
          left
          have hsection : section' = (steps, some (.ok written)) := hsave
          refine ⟨written, by rw [hsection], hdirty, ?_⟩
          rw [IndexDir.performAll, List.foldl_cons, List.foldl_append]
          have hposts := IndexDir.performAll_posts steps (dir.perform .makeDir)
          rw [IndexDir.performAll] at hposts
          rw [hposts, hsection]
          rfl
        · exact Or.inl ⟨hdirty, hcut hsave h⟩
    · rw [if_neg hdirty, List.cons_prefix_cons] at h
      obtain ⟨rfl, h⟩ := h
      rcases List.prefix_cons_iff.mp h with rfl | ⟨q, rfl, hq⟩
      · exact Or.inl rfl
      · rw [List.prefix_nil] at hq
        subst hq
        exact Or.inr (Or.inr (Or.inr ⟨by simpa using hdirty, rfl⟩))

section OneIndex

variable {dir : IndexDir} {field : String} {idx : FileIndex} {P : Entries} {order : SaveOrder}
  {perGroup dataVersion : Nat} {attr : Option Nat} {records : Entries}

/-- What an index being rewritten under its old `state` has to go on listing: all that the old
`state` promises, in groups the old metadata reaches. -/
def StillLists (old idx : FileIndex) (perGroup : Nat) (records : Entries) : Prop :=
  ∀ m', planModulus idx.sectionMeta.modulus idx.source.size perGroup = some m' →
    ∀ (key : String) (record : Record), records[key]? = some record →
      ∀ value ∈ old.retained (some record), Posted idx.reread key value ∧
        (idx.sectionMeta.modulus < m' →
          groupOf value m' = groupOf value idx.sectionMeta.modulus)

/-- An index whose section is being rewritten. -/
theorem trustedCovers_rewriting (h : IndexBacked dir field idx P)
    (hold : TrustedCovers dir field attr dataVersion records)
    (hlists : (loadIndex dir field attr dataVersion).needsRebuild = false →
      StillLists (loadIndex dir field attr dataVersion) idx perGroup records)
    {steps : List FileStep}
    (hsteps : steps <+:
      (saveWithFsync order dir.posts idx.source idx.sectionMeta idx.savedValues perGroup).1) :
    TrustedCovers { dir with posts := dir.posts.performAll steps } field attr dataVersion
      records := by
  cases hplan : planModulus idx.sectionMeta.modulus idx.source.size perGroup with
  | none =>
    have hnil : steps = [] := by simpa [saveWithFsync, hplan] using hsteps
    subst hnil
    exact hold
  | some m' =>
    have hm' := planModulus_pow h.posts.modulus hplan
    obtain ⟨visited, removals, hsp, -⟩ := savePlan order h.posts h.changes hplan
    intro hfresh
    obtain ⟨a, found, entries, state, rfl, hload, hstate, hf, ha, hv, hattr, hex, hpost⟩ :=
      trusted_cases hfresh
    have htrust := trusted_of (load_of_holds h.posts) hstate hf ha hv
    obtain ⟨a₀, found₀, entries₀, state₀, ha₀, hload₀, hstate₀, -, -, -, hattr₀, hex₀, hpost₀⟩ :=
      trusted_cases htrust
    cases ha₀
    rw [load_of_holds h.posts] at hload₀
    cases hload₀
    have hsame : state₀ = state := Option.some.inj (hstate₀.symm.trans hstate)
    subst hsame
    intro key record hrec value hvalue
    rw [FileIndex.mem_retained, hattr, hex] at hvalue
    have hvalue₀ : value ∈ (loadIndex dir field (some a) dataVersion).retained (some record) := by
      rw [FileIndex.mem_retained, hattr₀, hex₀]
      exact hvalue
    have hlisted := hold htrust key record hrec value hvalue₀
    obtain ⟨hnew, hstay⟩ := hlists htrust m' hplan key record hrec value hvalue₀
    rw [hpost₀] at hlisted
    rw [hpost]
    -- every value is as it was, as it is to be, or lost, and this one is not lost
    have hlook : entries[value]? = P[value]? ∨ entries[value]? = (storedForm idx.source)[value]? := by
      rcases hsp.stopped hsteps with rfl | ⟨vs, rs, hint⟩
      · obtain ⟨-, rfl⟩ := load_saved h.posts hm' hsp h.source hload
        exact Or.inr rfl
      · obtain ⟨-, hlook⟩ := lookup_interrupted h.posts hint hm' hsp h.source hload
        rcases hlook value with hl | hl | hl
        · exact Or.inl hl
        · exact Or.inr (by rw [hl.1, getElem?_storedForm])
        · exact absurd (hstay hl.2.1) hl.2.2
    rcases hlook with hl | hl
    · rw [posted_map, hl]
      exact posted_map.mp hlisted
    · rw [posted_map, hl]
      exact posted_map.mp hnew

/-- What a saved index lists, as it reads back, beside `records`. -/
def Lists (idx : FileIndex) (records : Entries) : Prop :=
  ∀ (key : String) (record : Record), records[key]? = some record →
    ∀ value ∈ idx.retained (some record), Posted idx.reread key value

theorem trustedCovers_of_entries {dir' : IndexDir} (h : IndexBacked dir field idx P)
    (hname : isValidFieldName field = true) (hv : dataVersion ≤ u64Max)
    (hstate : dir'.stateFile = some (stateBytes (idx.state dataVersion)))
    (hentries : ∀ found entries, load dir'.posts = .ok (found, entries) →
      entries = storedForm idx.source)
    (hlists : attr = some idx.attr → Lists idx records) :
    TrustedCovers dir' field attr dataVersion records := by
  have hwritten : (idx.state dataVersion).Written := by
    refine ⟨?_, h.attr, hv, h.excluded⟩
    change isValidFieldName idx.field = true
    rw [h.field]
    exact hname
  intro hfresh
  obtain ⟨a, found, entries, state, rfl, hload, hread, -, ha, -, hattr, hex, hpost⟩ :=
    trusted_cases hfresh
  rw [hstate, readState_stateBytes hwritten] at hread
  cases hread
  have haeq : a = idx.attr := (Nat.succ_injective ha).symm
  subst haeq
  intro key record hrec value hvalue
  rw [FileIndex.mem_retained, hattr, hex] at hvalue
  rw [hpost, hentries found entries hload]
  exact hlists rfl key record hrec value (FileIndex.mem_retained.mpr hvalue)

/-- An index that has been saved. -/
theorem trustedCovers_saved (h : IndexBacked dir field idx P) (hname : isValidFieldName field = true)
    (hv : dataVersion ≤ u64Max) {written : SectionMeta}
    (hsave : (saveWithFsync order dir.posts idx.source idx.sectionMeta idx.savedValues
      perGroup).2 = some (.ok written))
    (hlists : attr = some idx.attr → Lists idx records) :
    TrustedCovers
      { posts := dir.posts.performAll (saveWithFsync order dir.posts idx.source idx.sectionMeta
          idx.savedValues perGroup).1
        stateFile := some (stateBytes (idx.state dataVersion)) } field attr dataVersion
      records := by
  apply trustedCovers_of_entries h hname hv rfl _ hlists
  intro found entries hload
  cases hplan : planModulus idx.sectionMeta.modulus idx.source.size perGroup with
  | none => simp [saveWithFsync, hplan] at hsave
  | some m' =>
    obtain ⟨visited, removals, hsp, -⟩ := savePlan order h.posts h.changes hplan
    exact (load_saved h.posts (planModulus_pow h.posts.modulus hplan) hsp h.source hload).2

/-- An index that had nothing to save but its `state`. -/
theorem trustedCovers_unchanged (h : IndexBacked dir field idx P)
    (hname : isValidFieldName field = true) (hv : dataVersion ≤ u64Max)
    (hclean : idx.isDirty = false) (hlists : attr = some idx.attr → Lists idx records) :
    TrustedCovers { dir with stateFile := some (stateBytes (idx.state dataVersion)) } field attr
      dataVersion records := by
  apply trustedCovers_of_entries h hname hv rfl _ hlists
  intro found entries hload
  rw [load_of_holds h.posts] at hload
  cases hload
  simp only [FileIndex.isDirty, decide_eq_false_iff_not, not_or, not_not, ne_eq,
    Bool.not_eq_true] at hclean
  apply Std.ExtTreeMap.ext_getElem?
  intro k
  have hsame : P[k]? = idx.source[k]? := by
    by_contra hne
    have := h.changes idx.dirtyValues (by simp [FileIndex.savedValues, hclean.1]) k hne
    simp [hclean.2] at this
  rw [getElem?_storedForm, ← hsame]
  cases hk : P[k]? with
  | none => rfl
  | some r => rw [Option.map_some, h.posts.stored hk]

end OneIndex

/-! ## A whole flush -/

/-- A file in memory over the directory it was loaded from or last flushed to. `D` is what the
record section holds. -/
structure Backed (dir : TableDir) (t : Table) (D : Entries) : Prop where
  data : Holds dir.data t.dataMeta D
  changes : CoversChanges t.savedKeys D t.records
  records : InMemory t.records
  dictionary : InMemory t.dictionary
  version : t.dataMeta.version ≤ u64Max
  /-- No `state` names a data version that is not on disk yet. -/
  behind : ∀ field state, readState (dir.indexDir field).stateFile = some state →
    state.dataVersion ≠ (t.dataMeta.version + 1) % 2 ^ 64
  indexes : ∀ (field : String) (idx : FileIndex),
    t.rebuildStaleIndexes.indexes[field]? = some idx →
      ∃ P, IndexBacked (dir.indexDir field) field idx P

/-- The dictionary file once the flush is past it. -/
def dictAfter (dir : TableDir) (t : Table) : Option Bytes :=
  if t.dictDirty then some (sectionBytes t.dictionary) else dir.dict

/-- The records that load once the flush is past them. -/
def RecordsAfter (dir : TableDir) (t : Table) (records : Entries) : Prop :=
  if t.recordsDirty then records = storedForm t.records
  else ∃ data, loadData dir = .ok data ∧ data.records = records

/-- What a flush has to be for no crash in it to leave a wrong index that is trusted. -/
structure KeepsIndexes (dir : TableDir) (t : Table) (perGroup : Nat) : Prop where
  /-- The indexes trusted before the flush cover the records on disk. -/
  before : ∀ data dictionary, loadData dir = .ok data →
    loadSection dir.dictPath dir.dict = .ok dictionary → ∀ field ∈ indexedFields dir,
      TrustedCovers (dir.indexDir field) field (fieldIn dictionary field) data.version data.records
  /-- Written over records that have metadata, no record carries a key that such an index neither
  excludes nor lists it under, except where it moves out of the old metadata's reach. -/
  records : t.recordsDirty = true → dir.data.metaFile ≠ none → ∀ m',
    planModulus t.dataMeta.modulus t.records.size perGroup = some m' →
    ∀ dictionary, loadSection dir.dictPath dir.dict = .ok dictionary →
    ∀ field ∈ indexedFields dir,
      let idx := loadIndex (dir.indexDir field) field (fieldIn dictionary field) t.dataMeta.version
      idx.needsRebuild = false → ∀ (key : String) (record : Record),
        t.records[key]? = some record →
        (t.dataMeta.modulus < m' → groupOf key m' = groupOf key t.dataMeta.modulus) →
        ∀ value ∈ idx.retained (some record.stored), Posted idx.postings key value
  /-- Beside clean records, a new dictionary does not bring a wrong index back into use. -/
  dictionary : t.recordsDirty = false → t.dictDirty = true → ∀ data, loadData dir = .ok data →
    ∀ field ∈ indexedFields dir,
      TrustedCovers (dir.indexDir field) field (fieldIn (storedForm t.dictionary) field)
        data.version data.records
  /-- Beside clean records, an index rewritten under the `state` it has goes on listing all that
  this `state` promises. -/
  rewrite : t.recordsDirty = false → ∀ data dictionary, loadData dir = .ok data →
    loadSection dir.dictPath (dictAfter dir t) = .ok dictionary →
    ∀ (field : String) (idx : FileIndex), t.rebuildStaleIndexes.indexes[field]? = some idx →
      idx.isDirty = true →
      (loadIndex (dir.indexDir field) field (fieldIn dictionary field) data.version).needsRebuild =
        false →
      StillLists (loadIndex (dir.indexDir field) field (fieldIn dictionary field) data.version) idx
        perGroup data.records
  /-- As they read back, the postings written list every record as it reads back. -/
  saved : ∀ dictionary, loadSection dir.dictPath (dictAfter dir t) = .ok dictionary →
    ∀ records, RecordsAfter dir t records → ∀ (field : String) (idx : FileIndex),
      t.rebuildStaleIndexes.indexes[field]? = some idx → fieldIn dictionary field = some idx.attr →
      Lists idx records

theorem mem_indexedFields {dir : TableDir} {field : String} :
    field ∈ indexedFields dir ↔ field ∈ dir.indexes ∧ isValidFieldName field = true := by
  rw [indexedFields, List.mem_filter, Std.ExtTreeMap.mem_keys]

/-- An index that is not on disk is not trusted. -/
theorem trustedCovers_of_indexed {dir : TableDir} {field : String} {attr : Option Nat}
    {dataVersion : Nat} {records : Entries} (hname : isValidFieldName field = true)
    (h : field ∈ indexedFields dir →
      TrustedCovers (dir.indexDir field) field attr dataVersion records) :
    TrustedCovers (dir.indexDir field) field attr dataVersion records := by
  by_cases hmem : field ∈ dir.indexes
  · exact h (mem_indexedFields.mpr ⟨hmem, hname⟩)
  · apply trustedCovers_of_behind
    intro state hstate
    simp [TableDir.indexDir, Std.ExtTreeMap.getElem?_eq_none hmem, readState] at hstate

theorem version_of_loadData {dir : TableDir} {previous : SectionMeta} {D : Entries}
    (hold : Holds dir.data previous D) {data : LoadedData} (hload : loadData dir = .ok data) :
    data.version = previous.version ∧ (dir.data.metaFile ≠ none → data.records = D) := by
  unfold loadData at hload
  split at hload
  · rw [load_of_holds hold] at hload
    cases hload
    exact ⟨rfl, fun _ => rfl⟩
  · rename_i hnone
    split at hload
    · cases hload
    · cases hload
      obtain ⟨found, hfound, hprev⟩ := hold.metaFile
      rw [hnone] at hfound
      cases hfound
      rw [← hprev]
      refine ⟨?_, fun hc => absurd hnone hc⟩
      simp [LoadedData.version, SectionMeta.empty]

theorem SavedData.loadedVersion {t : Table} {data : LoadedData} (h : SavedData t data) :
    data.version = (t.dataMeta.version + 1) % 2 ^ 64 := by
  simp [LoadedData.version, h.legacyData, h.version]

/-- A dictionary that is half written gives a field its new attribute or none. -/
theorem fieldIn_torn {M d : Entries} (h : ∀ k : String, d[k]? = none ∨ d[k]? = (storedForm M)[k]?)
    (field : String) : fieldIn d field = none ∨ fieldIn d field = fieldIn (storedForm M) field := by
  unfold fieldIn Table.fieldIndex
  split
  · exact Or.inr rfl
  · rcases h field with h | h
    · left
      simp [h]
    · right
      simp only [h]

section Flush

variable {order : FlushOrder} {dir : TableDir} {t : Table} {perGroup : Nat} {D : Entries}

theorem flushData_stopped (h : Backed dir t D) {order : SaveOrder} {pre : List TableStep}
    (hpre : pre <+: (saveData order dir t.rebuildStaleIndexes perGroup).1) {data : LoadedData}
    (hload : loadData (dir.performAll pre) = .ok data) :
    loadData dir = .ok data ∨
      t.recordsDirty = true ∧ dir.data.metaFile ≠ none ∧ HalfSaved t D perGroup data ∨
      t.recordsDirty = true ∧ SavedData t data := by
  have hold : Holds dir.data t.rebuildStaleIndexes.dataMeta D := h.data
  have hchanges : CoversChanges t.rebuildStaleIndexes.savedKeys D t.rebuildStaleIndexes.records :=
    h.changes
  rcases loadData_stopped hold hchanges h.records hpre hload with
    hsame | ⟨hdirty, hmeta, hhalf⟩ | ⟨hdirty, hsaved⟩
  · exact Or.inl hsame
  · exact Or.inr (Or.inl ⟨hdirty, hmeta, hhalf.dataMeta, hhalf.legacyData, hhalf.records⟩)
  · exact Or.inr (Or.inr ⟨hdirty, hsaved.records, hsaved.version, hsaved.legacyData⟩)

theorem flushData_done (h : Backed dir t D) {order : SaveOrder} {t₁ : Table}
    (hok : (saveData order dir t.rebuildStaleIndexes perGroup).2 = some (.ok t₁))
    {q : List TableStep} (hq : ∀ s ∈ q, AfterData s) {data : LoadedData}
    (hload : loadData (dir.performAll
      ((saveData order dir t.rebuildStaleIndexes perGroup).1 ++ q)) = .ok data) :
    (t.recordsDirty = true ∧ SavedData t data ∧
      t₁.dataMeta.version = (t.dataMeta.version + 1) % 2 ^ 64) ∨
      t.recordsDirty = false ∧ loadData dir = .ok data ∧
        t₁.dataMeta.version = t.dataMeta.version := by
  have hold : Holds dir.data t.rebuildStaleIndexes.dataMeta D := h.data
  have hchanges : CoversChanges t.rebuildStaleIndexes.savedKeys D t.rebuildStaleIndexes.records :=
    h.changes
  rcases loadData_done hold hchanges h.records hok hq hload with
    ⟨hdirty, hsaved, hv⟩ | ⟨hclean, hdata, rfl⟩
  · exact Or.inl ⟨hdirty, ⟨hsaved.records, hsaved.version, hsaved.legacyData⟩, hv⟩
  · exact Or.inr ⟨hclean, hdata, rfl⟩

/-- In the steps of the records. -/
theorem trustedCovers_inData (h : Backed dir t D) (hk : KeepsIndexes dir t perGroup)
    {pre : List TableStep}
    (hpre : pre <+: (saveData order.toSaveOrder dir t.rebuildStaleIndexes perGroup).1)
    {data : LoadedData} {dictionary : Entries}
    (hdata : loadData (dir.performAll pre) = .ok data)
    (hdict : loadSection dir.dictPath (dir.performAll pre).dict = .ok dictionary) {field : String}
    (hname : isValidFieldName field = true) :
    TrustedCovers ((dir.performAll pre).indexDir field) field (fieldIn dictionary field)
      data.version data.records := by
  have hsteps : ∀ s ∈ pre, IsData s := fun s hs => saveData_isData _ _ _ _ s (hpre.subset hs)
  have hdict' : (dir.performAll pre).dict = dir.dict := by
    exact dict_performAll _ _ fun s hs => (hsteps s hs).not_isDict
  have hidx : (dir.performAll pre).indexDir field = dir.indexDir field := by
    rw [indexDir_performAll, indexSteps_of_other]
    · rfl
    · exact fun s hs => (hsteps s hs).otherThan field
  rw [hdict'] at hdict
  rw [hidx]
  apply trustedCovers_of_indexed hname
  intro hfield
  rcases flushData_stopped h hpre hdata with
    hsame | ⟨hdirty, hmeta, hhalf⟩ | ⟨-, hsaved⟩
  · exact hk.before data dictionary hsame hdict field hfield
  · obtain ⟨m', hplan, hlook⟩ := hhalf.records
    have hversion : data.version = t.dataMeta.version := by
      simp [LoadedData.version, hhalf.legacyData, hhalf.dataMeta]
    rw [hversion]
    intro hfresh key record hrec value hvalue
    rcases hlook key with hl | hl | hl
    · -- the record is the one on disk before, which the index covers
      cases hold : loadData dir with
      | error e =>
        unfold loadData at hold
        split at hold
        · rw [load_of_holds h.data] at hold
          cases hold
        · rename_i hnone
          exact absurd hnone hmeta
      | ok data₀ =>
        obtain ⟨hv₀, hr₀⟩ := version_of_loadData h.data hold
        have hcov := hk.before data₀ dictionary hold hdict field hfield
        rw [hv₀, hr₀ hmeta] at hcov
        exact hcov hfresh key record (hl ▸ hrec) value hvalue
    · -- it is the new one
      rw [hl.1, Option.map_eq_some_iff] at hrec
      obtain ⟨new, hnew, rfl⟩ := hrec
      exact hk.records hdirty hmeta m' hplan dictionary hdict field hfield hfresh key new hnew hl.2
        value hvalue
    · rw [hl] at hrec
      cases hrec
  · apply trustedCovers_of_behind
    rw [hsaved.loadedVersion]
    exact h.behind field

/-- An index nothing has been written to yet, with the records done. -/
theorem trustedCovers_old (h : Backed dir t D) (hk : KeepsIndexes dir t perGroup)
    {data : LoadedData} {dictionary : Entries}
    (hdata : (t.recordsDirty = true ∧ SavedData t data) ∨
      t.recordsDirty = false ∧ loadData dir = .ok data)
    (hdict : loadSection dir.dictPath dir.dict = .ok dictionary ∨ t.dictDirty = true ∧
      ∀ k : String, dictionary[k]? = none ∨ dictionary[k]? = (storedForm t.dictionary)[k]?)
    {field : String} (hname : isValidFieldName field = true) :
    TrustedCovers (dir.indexDir field) field (fieldIn dictionary field) data.version
      data.records := by
  rcases hdata with ⟨-, hsaved⟩ | ⟨hclean, hdata⟩
  · apply trustedCovers_of_behind
    rw [hsaved.loadedVersion]
    exact h.behind field
  · apply trustedCovers_of_indexed hname
    intro hfield
    rcases hdict with hdict | ⟨hdirty, htorn⟩
    · exact hk.before data dictionary hdata hdict field hfield
    · rcases fieldIn_torn htorn field with hnone | hnew
      · rw [hnone]
        exact trustedCovers_of_undefined
      · rw [hnew]
        exact hk.dictionary hclean hdirty data hdata field hfield

theorem dictAfter_cases (h : Backed dir t D) {dictionary : Entries}
    (hdict : loadSection dir.dictPath (dictAfter dir t) = .ok dictionary) :
    loadSection dir.dictPath dir.dict = .ok dictionary ∨ t.dictDirty = true ∧
      ∀ k : String, dictionary[k]? = none ∨ dictionary[k]? = (storedForm t.dictionary)[k]? := by
  unfold dictAfter at hdict
  split at hdict
  · rename_i hdirty
    right
    refine ⟨hdirty, fun k => Or.inr ?_⟩
    rw [loadSection_written h.dictionary hdict]
  · exact Or.inl hdict

/-- Past the dictionary: an index with a prefix of its own save behind it. -/
theorem trustedCovers_inIndexes (h : Backed dir t D) (hk : KeepsIndexes dir t perGroup)
    {data : LoadedData} {dictionary : Entries} {dataVersion : Nat}
    (hdata : (t.recordsDirty = true ∧ SavedData t data ∧
        dataVersion = (t.dataMeta.version + 1) % 2 ^ 64) ∨
      t.recordsDirty = false ∧ loadData dir = .ok data ∧ dataVersion = t.dataMeta.version)
    (hdict : loadSection dir.dictPath (dictAfter dir t) = .ok dictionary) {field : String}
    (hname : isValidFieldName field = true) {idx : FileIndex}
    (hidx : t.rebuildStaleIndexes.indexes[field]? = some idx) {steps : List IndexStep}
    (hsteps : steps <+:
      (idx.save order.toSaveOrder (dir.indexDir field) dataVersion perGroup).1) :
    TrustedCovers ((dir.indexDir field).performAll steps) field (fieldIn dictionary field)
      data.version data.records := by
  obtain ⟨P, hP⟩ := h.indexes field idx hidx
  have hold := trustedCovers_old h hk (hdata.imp (fun hd => ⟨hd.1, hd.2.1⟩)
    fun hd => ⟨hd.1, hd.2.1⟩) (dictAfter_cases h hdict) hname
  have hversion : data.version = dataVersion := by
    rcases hdata with ⟨-, hsaved, rfl⟩ | ⟨-, hdata, rfl⟩
    · exact hsaved.loadedVersion
    · exact (version_of_loadData h.data hdata).1
  have hle : dataVersion ≤ u64Max := by
    rcases hdata with ⟨-, -, rfl⟩ | ⟨-, -, rfl⟩
    · have := Nat.mod_lt (t.dataMeta.version + 1) (show 0 < 2 ^ 64 by omega)
      simp only [u64Max]
      omega
    · exact h.version
  have hlists : fieldIn dictionary field = some idx.attr → Lists idx data.records := by
    apply hk.saved dictionary hdict data.records _ field idx hidx
    unfold RecordsAfter
    rcases hdata with ⟨hdirty, hsaved, -⟩ | ⟨hclean, hdata, -⟩
    · rw [if_pos hdirty]
      exact hsaved.records
    · rw [if_neg (by simp [hclean])]
      exact ⟨data, hdata, rfl⟩
  rcases save_stopped hsteps with heq | ⟨hdirty, s, hs, heq⟩ | ⟨written, hok, hdirty, heq⟩ |
    ⟨hclean, heq⟩
  · rw [heq]
    exact hold
  · rw [heq]
    rcases hdata with ⟨-, hsaved, -⟩ | ⟨hclean, hdata, -⟩
    · apply trustedCovers_of_behind
      rw [hsaved.loadedVersion]
      exact h.behind field
    · exact trustedCovers_rewriting hP hold
        (hk.rewrite hclean data dictionary hdata hdict field idx hidx hdirty) hs
  · rw [heq, hversion]
    exact trustedCovers_saved hP hname hle hok hlists
  · rw [heq, hversion]
    exact trustedCovers_unchanged hP hname hle hclean hlists

/-- After every prefix of a flush, each index the next load attaches is marked for a rebuild or
answers for every record. -/
theorem indexesAnswer_of_flush (order : FlushOrder) (h : Backed dir t D)
    (hk : KeepsIndexes dir t perGroup) :
    ∀ pre, pre <+: (flushLocked order dir t perGroup).1 → IndexesAnswer (dir.performAll pre) := by
  intro pre hpre
  apply indexesAnswer_of
  intro data dictionary hdata hdict field hfield
  have hname := (mem_indexedFields.mp hfield).2
  rw [TableDir.dictPath, path_performAll, ← TableDir.dictPath] at hdict
  rcases flush_stopped hpre with hpre | ⟨t₁, hok, hcase⟩
  · exact trustedCovers_inData h hk hpre hdata hdict hname
  obtain ⟨hi₁, -, hd₁, hdd₁⟩ := saveData_same hok
  have hother : indexSteps field
      (saveData order.toSaveOrder dir t.rebuildStaleIndexes perGroup).1 = [] := by
    exact indexSteps_of_other fun s hs => (saveData_isData _ _ _ _ s hs).otherThan field
  have hnodict : ∀ d : TableDir, (d.performAll
      (saveData order.toSaveOrder dir t.rebuildStaleIndexes perGroup).1).dict = d.dict := by
    intro d
    exact dict_performAll _ _ fun s hs => (saveData_isData _ _ _ _ s hs).not_isDict
  have hnone : indexSteps field (saveDict order t₁) = [] := by
    exact indexSteps_of_other fun s hs => (saveDict_isDict order t₁ s hs).otherThan field
  rcases hcase with ⟨q, rfl, hq⟩ | ⟨q, r, rfl, hq, hr⟩
  · -- in the dictionary
    have hdictSteps : ∀ s ∈ q, IsDict s := fun s hs => saveDict_isDict order t₁ s (hq.subset hs)
    have hafter : ∀ s ∈ q, AfterData s := fun s hs => (hdictSteps s hs).afterData
    have hdone := flushData_done h hok hafter hdata
    have hnoidx : indexSteps field q = [] := by
      exact indexSteps_of_other fun s hs => (hdictSteps s hs).otherThan field
    rw [indexDir_performAll, indexSteps_append, hother, hnoidx]
    rw [TableDir.performAll_append] at hdict
    refine trustedCovers_old h hk (hdone.imp (fun hd => ⟨hd.1, hd.2.1⟩)
      fun hd => ⟨hd.1, hd.2.1⟩) ?_ hname
    rcases dict_stopped hq (dir.performAll
      (saveData order.toSaveOrder dir t.rebuildStaleIndexes perGroup).1) with
      hsame | ⟨hdd, b, hb, hpre'⟩
    · rw [hsame, hnodict] at hdict
      exact Or.inl hdict
    · rw [hb] at hdict
      rw [hd₁] at hpre'
      right
      refine ⟨hdd₁ ▸ hdd, fun k => ?_⟩
      exact loadSection_torn h.dictionary hpre' hdict k
  · -- past it
    have hidxSteps : ∀ s ∈ q, ∃ f i, s = TableStep.index f i := fun s hs =>
      saveIndexes_isIndex _ s (hq.subset hs)
    have hafter : ∀ s ∈ saveDict order t₁ ++ q ++ r, AfterData s := by
      intro s hs
      rcases List.mem_append.mp hs with hs | hs
      · rcases List.mem_append.mp hs with hs | hs
        · exact (saveDict_isDict order t₁ s hs).afterData
        · obtain ⟨f, i, rfl⟩ := hidxSteps s hs
          trivial
      · exact (hr s hs).afterData
    simp only [List.append_assoc] at hdata hdict hafter ⊢
    have hdone := flushData_done h hok hafter hdata
    have hdict' : loadSection dir.dictPath (dictAfter dir t) = .ok dictionary := by
      rw [← hdict, TableDir.performAll_append, TableDir.performAll_append]
      have hlate : ∀ d : TableDir, (d.performAll (q ++ r)).dict = d.dict := by
        intro d
        apply dict_performAll
        intro s hs
        rcases List.mem_append.mp hs with hs | hs
        · obtain ⟨f, i, rfl⟩ := hidxSteps s hs
          exact id
        · exact (hr s hs).not_isDict
      rw [hlate, dict_saved, hnodict, hd₁, hdd₁]
      rfl
    have hbooks : indexSteps field r = [] := by
      exact indexSteps_of_other fun s hs => (hr s hs).otherThan field
    rw [indexDir_performAll]
    simp only [indexSteps_append, hother, hnone, hbooks, List.nil_append, List.append_nil]
    rcases saveIndexes_stopped field t₁.indexes.toList (pairwise_toList _) q hq with
      hnil | ⟨idx, hmem, hsteps⟩
    · rw [hnil]
      exact trustedCovers_old h hk (hdone.imp (fun hd => ⟨hd.1, hd.2.1⟩)
        fun hd => ⟨hd.1, hd.2.1⟩) (dictAfter_cases h hdict') hname
    · have hidx : t.rebuildStaleIndexes.indexes[field]? = some idx := by
        rw [← hi₁]
        exact Std.ExtTreeMap.mem_toList_iff_getElem?_eq_some.mp hmem
      exact trustedCovers_inIndexes h hk hdone hdict' hname hidx hsteps

end Flush

/-- Records and posting lists that read back as themselves: what is right in memory is right on
disk. -/
theorem lists_of_covers {idx : FileIndex} {records : Entries} (hcov : idx.Covers records)
    (hstored : ∀ (k : String) (r : Record), records[k]? = some r → r.stored = r)
    (hkeys : ∀ (value : String) (keys : Finset String),
      idx.postings[value]? = some keys → keys ≠ {""}) :
    Lists idx (storedForm records) := by
  intro key record hrec value hvalue
  rw [getElem?_storedForm, Option.map_eq_some_iff] at hrec
  obtain ⟨r, hr, rfl⟩ := hrec
  rw [hstored key r hr] at hvalue
  have hposted := hcov key r hr value hvalue
  unfold FileIndex.reread
  rw [posted_map, getElem?_storedForm, FileIndex.source, Std.ExtTreeMap.getElem?_map]
  cases hv : idx.postings[value]? with
  | none => simp [Posted, hv] at hposted
  | some keys =>
    refine ⟨_, rfl, ?_⟩
    rw [postingKeys_stored (hkeys value keys hv)]
    simpa [Posted, hv] using hposted

/-! ### A file with one index -/

def typeDict : Entries := insertAll ∅ [("TYPE", Record.text "1")]

/-- An index on the first attribute, over one record. -/
def typeIndex : FileIndex := (FileIndex.withExclusions "TYPE" 0 ∅).rebuild (sampleRows ["1"]) 0

def typedTable : Table where
  records := sampleRows ["1"]
  dictionary := typeDict
  dirtyKeys := {"1"}
  dictDirty := true
  indexes := insertAll ∅ [("TYPE", typeIndex)]

def freshDir : TableDir := { path := "STOCK", data := { path := "STOCK/data" } }

theorem typedTable_index {field : String} {idx : FileIndex}
    (h : typedTable.rebuildStaleIndexes.indexes[field]? = some idx) :
    field = "TYPE" ∧ idx = typeIndex := by
  simp only [Table.rebuildStaleIndexes, Std.ExtTreeMap.getElem?_map, Option.map_eq_some_iff] at h
  obtain ⟨idx₀, hidx₀, rfl⟩ := h
  rcases of_getElem?_insertAll hidx₀ with hmem | hmem
  · rw [List.mem_singleton] at hmem
    cases hmem
    exact ⟨rfl, rfl⟩
  · simp at hmem

theorem typeIndex_posting {value : String} {keys : Finset String}
    (h : typeIndex.postings[value]? = some keys) : value = "1" ∧ keys = {"1"} := by
  have hlist : typeIndex.postings.toList = [("1", {"1"})] := by decide +kernel
  have hmem := Std.ExtTreeMap.mem_toList_iff_getElem?_eq_some.mpr h
  rw [hlist, List.mem_singleton] at hmem
  cases hmem
  exact ⟨rfl, rfl⟩

theorem typeIndex_backed : IndexBacked (freshDir.indexDir "TYPE") "TYPE" typeIndex ∅ := by
  have hsize : typeIndex.source.size < 2 ^ 64 := by decide +kernel
  refine ⟨holds_fresh _, ?_, ⟨hsize, fun k r hr => ?_⟩, rfl, by decide, ?_⟩
  · intro keys hkeys
    cases hkeys
  swap
  · intro value hvalue
    simp [typeIndex, FileIndex.rebuild, FileIndex.withExclusions, normaliseExclusions] at hvalue
  rw [FileIndex.source, Std.ExtTreeMap.getElem?_map, Option.map_eq_some_iff] at hr
  obtain ⟨keys, hkeys, rfl⟩ := hr
  obtain ⟨rfl, rfl⟩ := typeIndex_posting hkeys
  exact Fits.addressable (by decide +kernel)

theorem sampleRow_stored : sampleRow.stored = sampleRow := by decide +kernel

theorem typedTable_backed : Backed freshDir typedTable ∅ := by
  have hrows : ∀ k r, (sampleRows ["1"])[k]? = some r → Fits k r := by
    intro k r hr
    obtain ⟨rfl, hk⟩ := sampleRows_value hr
    rw [List.mem_singleton] at hk
    subst hk
    exact sampleRow_fits (by decide +kernel)
  refine ⟨holds_fresh _, ?_, ⟨by decide +kernel, fun k r hr => (hrows k r hr).addressable⟩, ?_,
    by decide, ?_, ?_⟩
  · intro keys hkeys k hk
    cases hkeys
    by_contra hnot
    apply hk
    cases hr : typedTable.records[k]? with
    | none => simp
    | some r =>
      obtain ⟨-, hk'⟩ := sampleRows_value hr
      rw [List.mem_singleton] at hk'
      subst hk'
      exact absurd (by simp [typedTable]) hnot
  · refine ⟨by decide +kernel, fun k r hr => ?_⟩
    rcases of_getElem?_insertAll (show typeDict[k]? = some r from hr) with hmem | hmem
    · rw [List.mem_singleton] at hmem
      cases hmem
      exact Fits.addressable (by decide +kernel)
    · simp at hmem
  · intro field state hstate
    simp [freshDir, TableDir.indexDir, readState] at hstate
  · intro field idx hidx
    obtain ⟨rfl, rfl⟩ := typedTable_index hidx
    exact ⟨∅, typeIndex_backed⟩

theorem typedTable_keepsIndexes : KeepsIndexes freshDir typedTable 16 := by
  have hdirty : typedTable.recordsDirty = true := by decide
  have hnone : ∀ field, field ∉ indexedFields freshDir := by
    intro field hfield
    simp [indexedFields, freshDir] at hfield
  refine ⟨?_, ?_, ?_, ?_, ?_⟩
  · intro _ _ _ _ field hfield
    exact absurd hfield (hnone field)
  · intro _ hmeta
    exact absurd rfl hmeta
  · intro hclean
    rw [hdirty] at hclean
    cases hclean
  · intro hclean
    rw [hdirty] at hclean
    cases hclean
  · intro dictionary _ records hrecords field idx hidx _
    obtain ⟨rfl, rfl⟩ := typedTable_index hidx
    rw [RecordsAfter, if_pos hdirty] at hrecords
    subst hrecords
    refine lists_of_covers (FileIndex.covers_rebuild _ _ _) ?_ ?_
    · intro k r hr
      rw [(sampleRows_value hr).1]
      exact sampleRow_stored
    · intro value keys hkeys
      rw [(typeIndex_posting hkeys).2]
      decide

/-- The directory when the first flush stops as soon as the index is on disk. -/
def indexedDir : TableDir :=
  freshDir.performAll ((flushLocked .plain freshDir typedTable 16).1.take 5)

/-- Whether the index that loads from it is stale, and what it answers. -/
def seenIndexed : Option (Bool × Option (Finset String)) :=
  (loadTable indexedDir).toOption.bind fun t => t.indexes["TYPE"]?.map fun idx =>
    (idx.needsRebuild, idx.candidates "1")

theorem indexesAnswer_first_flush :
    seenIndexed = some (false, some {"1"}) ∧ IndexesAnswer indexedDir :=
  ⟨by decide +kernel,
    indexesAnswer_of_flush .plain typedTable_backed typedTable_keepsIndexes _
      (List.take_prefix 5 _)⟩

/-- The directory that flush leaves. -/
def typedDir : TableDir := freshDir.performAll (flushLocked .plain freshDir typedTable 16).1

def retyped : Record := Record.text "2"

/-- What loads when the flush of a changed record stops after its first step, if the first load
succeeds. -/
def afterFirstStep : Except IoError Table :=
  match loadTable typedDir with
  | .error e => .error e
  | .ok t => loadTable (typedDir.performAll
      ((flushLocked .plain typedDir (t.insertRecord "1" retyped) 16).1.take 1))

/-- What there is to see of it: the index, which is trusted, and the record. -/
def seenAfterFirstStep : Option (Bool × Option (Finset String) × Nat × Option Record) :=
  afterFirstStep.toOption.bind fun t => t.indexes["TYPE"]?.map fun idx =>
    (idx.needsRebuild, idx.candidates "2", idx.attr, t.records["1"]?)

theorem seenAfterFirstStep_eq : seenAfterFirstStep = some (false, some ∅, 0, some retyped) := by
  decide +kernel

theorem afterFirstStep_eq {t' : Table} (h : afterFirstStep.toOption = some t') :
    ∃ t, loadTable typedDir = .ok t ∧ loadTable (typedDir.performAll
      ((flushLocked .plain typedDir (t.insertRecord "1" retyped) 16).1.take 1)) = .ok t' := by
  unfold afterFirstStep at h
  cases hload : loadTable typedDir with
  | error e =>
    rw [hload] at h
    cases h
  | ok t =>
    rw [hload] at h
    refine ⟨t, rfl, ?_⟩
    revert h
    dsimp only
    cases loadTable (typedDir.performAll
      ((flushLocked .plain typedDir (t.insertRecord "1" retyped) 16).1.take 1)) with
    | error e => exact fun h => nomatch h
    | ok t₁ => exact fun h => congrArg Except.ok (Option.some.inj h)

/-- The group is in place and `meta` is not: the record says `2`, the index is trusted and says no
record does. -/
theorem changed_record_not_listed :
    ∃ t, loadTable typedDir = .ok t ∧ ∃ pre,
      pre <+: (flushLocked .plain typedDir (t.insertRecord "1" retyped) 16).1 ∧
      ¬ IndexesAnswer (typedDir.performAll pre) := by
  obtain ⟨t', hafter, hseen⟩ := Option.bind_eq_some_iff.mp seenAfterFirstStep_eq
  obtain ⟨idx, hidx, heq⟩ := Option.map_eq_some_iff.mp hseen
  simp only [Prod.mk.injEq] at heq
  obtain ⟨hfresh, hcands, hattr, hrec⟩ := heq
  obtain ⟨t, hload, hload'⟩ := afterFirstStep_eq hafter
  refine ⟨t, hload, _, List.take_prefix 1 _, fun hall => ?_⟩
  rcases hall t' hload' "TYPE" idx hidx with hstale | hans
  · rw [hfresh] at hstale
    cases hstale
  · have hkey : indexKey "2" = "2" := by decide +kernel
    have hlists : "1" ∈ (∅ : Finset String) :=
      hans "2" "1" retyped ∅ hrec ⟨"2", by rw [hattr]; decide +kernel, by decide +kernel⟩
        (by rw [hkey]; exact hcands)
    cases hlists

end RustyPick
