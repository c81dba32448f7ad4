import RustyPick.Restore
import RustyPick.IndexExact

/-!
# RustyPick.Restored

What an import puts in place.

* `restoreIndexes_spec`: the indexes a file comes back with are made from the records it came back
  with.
* `restore_file`: one file, from what is delivered of it.
* `run_restores`: one file after another, none of which disturbs the ones before.
* `work_succeeds`: a pass whose files can all be made makes them all.
-/

namespace RustyPick

open Lib Directory

namespace Archive

/-! ## The indexes -/

theorem rebuild_rebuild (idx : FileIndex) (records : Map String Record) (attr : Nat) :
    (idx.rebuild records attr).rebuild records attr = idx.rebuild records attr := rfl

/-- Whether the dictionary of a file lets a field be indexed. -/
structure Indexable (t : Table) (field : String) : Prop where
  notKey : field ≠ "ID"
  valid : isValidFieldName field = true
  defined : (t.fieldIndex field).isSome

/-- The indexes of a file are those of a list that can be defined on it, made from its records. -/
structure Reindexed (indexes : List IndexEntry) (t : Table) : Prop where
  made : ∀ (field : String) (idx : FileIndex), t.indexes[field]? = some idx →
    ∃ entry ∈ indexes, trim entry.field = field ∧ ∃ attr, t.fieldIndex field = some attr ∧
      idx = (FileIndex.withExclusions field attr entry.excluded.toFinset).rebuild t.records attr
  complete : ∀ entry ∈ indexes, Indexable t (trim entry.field) → t.hasIndex (trim entry.field) = true

theorem createIndexExcluding_cases (t : Table) (field : String) (excluded : Finset String) :
    (¬Indexable t (trim field) ∧ ∃ e, t.createIndexExcluding field excluded = .error e) ∨
    ∃ attr, t.fieldIndex (trim field) = some attr ∧
      t.createIndexExcluding field excluded = .ok { t with
        indexes := t.indexes.insert (trim field)
          ((FileIndex.withExclusions (trim field) attr excluded).rebuild t.records attr) } := by
  unfold Table.createIndexExcluding
  dsimp only
  split
  · rename_i hkey
    exact .inl ⟨fun h => h.notKey hkey, _, rfl⟩
  split
  · rename_i hvalid
    exact .inl ⟨fun h => hvalid h.valid, _, rfl⟩
  cases hattr : t.fieldIndex (trim field) with
  | none =>
    refine .inl ⟨fun h => ?_, _, rfl⟩
    have hdefined := h.defined
    rw [hattr] at hdefined
    cases hdefined
  | some attr => exact .inr ⟨attr, rfl, rfl⟩

theorem fieldIndex_withIndexes (t : Table) (indexes : Map String FileIndex) (field : String) :
    ({ t with indexes := indexes } : Table).fieldIndex field = t.fieldIndex field := rfl

/-- Built once more from the same records, an index is what it was. -/
theorem rebuildIndex_made {t : Table} {field : String} {attr : Nat} {idx : FileIndex}
    (hattr : t.fieldIndex (trim field) = some attr) :
    ({ t with indexes := t.indexes.insert (trim field) (idx.rebuild t.records attr) } :
      Table).rebuildIndex field =
      .ok { t with indexes := t.indexes.insert (trim field) (idx.rebuild t.records attr) } := by
  have hinsert : (t.indexes.insert (trim field) (idx.rebuild t.records attr)).insert (trim field)
      (idx.rebuild t.records attr) = t.indexes.insert (trim field) (idx.rebuild t.records attr) := by
    refine Std.ExtTreeMap.ext_getElem? fun k => ?_
    simp only [getElem?_insert_eq]
    split <;> rfl
  unfold Table.rebuildIndex
  dsimp only
  rw [getElem?_insert_eq, if_pos rfl]
  dsimp only
  rw [fieldIndex_withIndexes, hattr]
  dsimp only
  rw [rebuild_rebuild, hinsert]

theorem Reindexed.skip {done : List IndexEntry} {t : Table} {entry : IndexEntry}
    (h : Reindexed done t) (hnot : ¬Indexable t (trim entry.field)) :
    Reindexed (done ++ [entry]) t where
  made field idx hidx := by
    obtain ⟨other, hother, hmade⟩ := h.made field idx hidx
    exact ⟨other, List.mem_append_left _ hother, hmade⟩
  complete other hother hindexable := by
    rcases List.mem_append.mp hother with hother | hother
    · exact h.complete other hother hindexable
    · obtain rfl := List.mem_singleton.mp hother
      exact absurd hindexable hnot

theorem Reindexed.define {done : List IndexEntry} {t : Table} {entry : IndexEntry} {attr : Nat}
    (h : Reindexed done t) (hattr : t.fieldIndex (trim entry.field) = some attr) :
    Reindexed (done ++ [entry]) { t with
      indexes := t.indexes.insert (trim entry.field)
        ((FileIndex.withExclusions (trim entry.field) attr entry.excluded.toFinset).rebuild
          t.records attr) } where
  made field idx hidx := by
    rw [getElem?_insert_eq] at hidx
    split at hidx
    · rename_i hfield
      obtain rfl := Option.some.inj hidx
      obtain rfl := hfield
      exact ⟨entry, List.mem_append_right _ (List.mem_singleton.mpr rfl), rfl, attr, hattr, rfl⟩
    · obtain ⟨other, hother, hmade⟩ := h.made field idx hidx
      exact ⟨other, List.mem_append_left _ hother, hmade⟩
  complete other hother hindexable := by
    rw [Table.hasIndex, Std.ExtTreeMap.contains_insert]
    rcases List.mem_append.mp hother with hother | hother
    · have hthere := h.complete other hother ⟨hindexable.notKey, hindexable.valid, hindexable.defined⟩
      rw [Table.hasIndex] at hthere
      rw [hthere, Bool.or_true]
    · obtain rfl := List.mem_singleton.mp hother
      simp

theorem tables_withTable (c : Catalogue) (account name : String) (t : Table) :
    (c.withTable account name t).tables account name = t := AttributeStore.put_self _ _ _ _

/-- All that a file is given back is its indexes, and each is made from the records. -/
theorem restoreIndexes_ok {account name : String}
    (hlog : ¬(account = "SYSTEM" ∧ name = "$LOGS")) (logging : Nat → Logging)
    (indexes : List IndexEntry) : ∀ {done : List IndexEntry} (n : Nat) {c c' : Catalogue} {t : Table},
    c.tables account name = t → Reindexed done t →
    restoreIndexes account name logging n c indexes = (.ok (), c') →
    ∃ made, c'.tables account name = { t with indexes := made } ∧
      Reindexed (done ++ indexes) { t with indexes := made } := by
  induction indexes with
  | nil =>
    intro done n c c' t ht h hrestore
    obtain rfl := (Prod.mk.inj hrestore).2
    rw [List.append_nil]
    exact ⟨t.indexes, ht, h⟩
  | cons entry rest ih =>
    intro done n c c' t ht h hrestore
    rw [List.append_cons]
    rw [restoreIndexes, ht] at hrestore
    rcases createIndexExcluding_cases t entry.field entry.excluded.toFinset with
      ⟨hnot, e, hcreate⟩ | ⟨attr, hattr, hcreate⟩
    · rw [hcreate] at hrestore
      dsimp only at hrestore
      have htouches := touches_logError c (logging n) account (notRebuilt account name entry.field e)
      generalize logError c (logging n) account _ = logged at hrestore htouches
      obtain ⟨outcome, c₁⟩ := logged
      cases outcome with
      | error e => cases hrestore
      | ok u =>
        have hsame := (htouches.elsewhere account name not_false).tables hlog
        exact ih (n + 1) (hsame.trans ht) (h.skip hnot) hrestore
    · rw [hcreate] at hrestore
      dsimp only at hrestore
      rw [rebuildIndex_made hattr] at hrestore
      have hrest := ih (n + 1) (tables_withTable c account name _) (h.define hattr) hrestore
      exact hrest

/-- A record of the log can be made. -/
def Loggable (c : Catalogue) : Prop := c.hasFile "SYSTEM" "$LOGS" = true

theorem logError_succeeds {c : Catalogue} (h : Loggable c) {logging : Logging}
    (hopened : logging.opened = .ok ()) (hsaved : logging.saved = .ok ()) (account message : String) :
    ∃ c', logError c logging account message = (.ok (), c') := by
  obtain ⟨_, hd⟩ := Option.isSome_iff_exists.mp (Catalogue.hasFile_iff.mp h).1
  have hthere : c.hasFile "SYSTEM" "$LOGS" = true := h
  rw [logError, hd, hthere, hopened, hsaved]
  exact ⟨_, rfl⟩

theorem Loggable.touches {S : String → String → Prop} {c c' : Catalogue} (h : Loggable c)
    (htouches : Catalogue.Touches S c c') (hout : ¬S "SYSTEM" "$LOGS") : Loggable c' :=
  ((htouches.elsewhere _ _ hout).hasFile (fun a _ hd => (htouches.accountDir a).trans hd) h).1

/-- Where there is a log, no index stops the others. -/
theorem restoreIndexes_succeeds {account name : String}
    (hlog : ¬(account = "SYSTEM" ∧ name = "$LOGS")) {logging : Nat → Logging}
    (hopened : ∀ n, (logging n).opened = .ok ()) (hsaved : ∀ n, (logging n).saved = .ok ())
    (indexes : List IndexEntry) : ∀ (n : Nat) {c : Catalogue}, Loggable c →
    ∃ c', restoreIndexes account name logging n c indexes = (.ok (), c') := by
  have hout : ¬Catalogue.Only account name "SYSTEM" "$LOGS" := fun h => hlog ⟨h.1.symm, h.2.symm⟩
  induction indexes with
  | nil => exact fun _ c _ => ⟨c, rfl⟩
  | cons entry rest ih =>
    intro n c h
    rw [restoreIndexes]
    rcases createIndexExcluding_cases (c.tables account name) entry.field
      entry.excluded.toFinset with ⟨-, e, hcreate⟩ | ⟨attr, hattr, hcreate⟩
    · obtain ⟨c₁, hlogged⟩ := logError_succeeds h (hopened n) (hsaved n) account
        (notRebuilt account name entry.field e)
      have htouches := touches_logError c (logging n) account (notRebuilt account name entry.field e)
      rw [hlogged] at htouches
      rw [hcreate]
      dsimp only
      rw [hlogged]
      exact ih (n + 1) (h.touches htouches not_false)
    · rw [hcreate]
      dsimp only
      rw [rebuildIndex_made hattr]
      exact ih (n + 1) (h.touches (Catalogue.touches_withTable c account name _) hout)

/-! ## One file -/

/-- Nothing is said of the file: what it carries, and what its `DIR` would say, are the defaults. -/
def Forgotten (c : Catalogue) (account name : String) : Prop :=
  c.attributes.attributesOf account name = {} ∧ c.attributes.stored account name = {}

theorem Forgotten.kept {c c' : Catalogue} {account name : String} (h : Forgotten c account name)
    (hcache : c'.attributes.cache account name = c.attributes.cache account name)
    (hdropped : c'.attributes.stored account name = c.attributes.stored account name ∨
      c'.attributes.stored account name = {}) : Forgotten c' account name := by
  have hstored : c'.attributes.stored account name = {} := by
    rcases hdropped with hsame | hnone
    · rw [hsame, h.2]
    · exact hnone
  refine ⟨?_, hstored⟩
  rw [← h.1, AttributeStore.attributesOf, AttributeStore.attributesOf, hcache, hstored, h.2]

theorem ownRoot_touches {S : String → String → Prop} {c c' : Catalogue}
    (h : Catalogue.Touches S c c') (account name : String) :
    ownRoot c' account name = ownRoot c account name := by
  rw [ownRoot, ownRoot, h.fileDir]

theorem leadsInto_ownRoot (c : Catalogue) (account name : String) :
    leadsInto (c.fileDir account name) (ownRoot c account name) = true := leadsInto_joinPath _ _

/-- What becomes of one entry after another. -/
def keptOf (items : List Item) : Map String Record × Map String Record :=
  items.foldl (fun kept item => keepRecord item.kind item.key item.bytes kept) (∅, ∅)

/-- A table with the entries of a file, and its indexes, all of it to be written. -/
structure Reinstated (items : List Item) (indexes : List IndexEntry) (t : Table) : Prop where
  records : t.records = (keptOf items).1
  dictionary : t.dictionary = (keptOf items).2
  reindexed : Reindexed indexes t
  unsaved : t.dirtyAll = true ∧ t.dictDirty = true

/-- A file is as the archive has it. Nothing is cleared away under a directory file that was not
there. -/
structure RestoredFile (before after : Catalogue) (p : ImportedFile) (entry : FileEntry)
    (items : List Item) : Prop where
  there : after.hasFile p.account p.name = true
  attributes : entry.attributes ≠ {} ∨ Forgotten before p.account p.name →
    after.attributes.attributesOf p.account p.name = entry.attributes
  hashed : entry.isDirectory = false →
    Reinstated items entry.indexes (after.tables p.account p.name)
  directory : entry.isDirectory = true → after.host (ownRoot after p.account p.name) =
    insertAll (if p.action = .replaced then ∅ else before.host (ownRoot after p.account p.name))
      (items.map fun item => (item.key, item.bytes))

namespace Restore

variable {files : List ImportedFile} {services : Nat → Service} {p : ImportedFile}
  {entry : FileEntry} {c : Catalogue} {st st' : Restore}

/-- A file none of whose entries has come. -/
def opened (p : ImportedFile) (entry : FileEntry) (service : Service) : Pending where
  account := p.account
  name := p.name
  records := if entry.isDirectory then none else some (∅, ∅)
  indexes := entry.indexes
  service := service

/-- What is there once a file is begun. -/
structure Begun (c : Catalogue) (p : ImportedFile) (entry : FileEntry) (service : Service)
    (st : Restore) : Prop where
  clean : st.db.Clean
  touches : Catalogue.Touches (Catalogue.Only p.account p.name) c st.db
  there : st.db.hasFile p.account p.name = true
  empty : st.db.tables p.account p.name = {}
  host : st.db.host (ownRoot c p.account p.name) =
    if p.action = .replaced then ∅ else c.host (ownRoot c p.account p.name)
  attributes : entry.attributes ≠ {} ∨ Forgotten c p.account p.name →
    st.db.attributes.attributesOf p.account p.name = entry.attributes
  pending : st.pending = some (opened p entry service)

/-- What is left of a file that is to be replaced. -/
theorem cleared_ok {db : Catalogue} {removal : Removal} (hclean : c.Clean) (hname : p.name ≠ "DIR")
    (hremains : c.remains p.account p.name = false) (hremoved : removal = .removed)
    (h : (if p.action = .replaced then c.deleteTable p.account p.name removal else (.ok (), c)) =
      (.ok (), db)) :
    db.Clean ∧ Catalogue.Touches (Catalogue.Only p.account p.name) c db ∧
      db.remains p.account p.name = false ∧
      db.host (ownRoot c p.account p.name) =
        (if p.action = .replaced then ∅ else c.host (ownRoot c p.account p.name)) ∧
      (Forgotten c p.account p.name → Forgotten db p.account p.name) := by
  subst hremoved
  split at h
  · rename_i haction
    have htouches := Catalogue.touches_deleteTable c p.account hname .removed
    have hkept := hclean.deleteTable p.account p.name .removed
    rw [if_pos haction]
    unfold Catalogue.deleteTable at h
    split at h
    · cases h
    rename_i haccount
    split at h
    · cases h
    rename_i hthere
    have hdelete := h
    rw [← (Prod.mk.inj hdelete).2]
    rw [Catalogue.deleteTable, if_neg haccount, if_neg hthere] at htouches hkept
    refine ⟨hkept, htouches, hremains, ?_, fun hforgotten => ?_⟩
    · dsimp only [Catalogue.clear]
      rw [if_pos (leadsInto_ownRoot c p.account p.name)]
    · have hdir : (p.account, "DIR") ≠ (p.account, p.name) := fun heq =>
        hname (Prod.mk.inj heq).2.symm
      have hstored : (c.attributes.deleteTable p.account p.name).stored p.account p.name = {} := by
        rw [← hforgotten.2]
        simp [AttributeStore.stored, AttributeStore.deleteTable,
          AttributeStore.put_of_ne _ _ _ _ hdir]
      refine ⟨?_, hstored⟩
      rw [AttributeStore.attributesOf, hstored, AttributeStore.deleteTable]
      dsimp only
      rw [AttributeStore.put_self]
      rfl
  · rename_i haction
    obtain rfl := (Prod.mk.inj h).2
    rw [if_neg haction]
    exact ⟨hclean, .refl _ c, hremains, rfl, id⟩

theorem beginFile_ok {index : Nat} (hclean : st.db.Clean) (hp : files[index]? = some p)
    (hordinary : Ordinary p.account p.name) (hremains : st.db.remains p.account p.name = false)
    (hremoved : (services index).removal = .removed)
    (h : beginFile files services st index entry = (.ok (), st')) :
    Begun st.db p entry (services index) st' := by
  have hname := hordinary.notDir
  unfold beginFile at h
  rw [hp] at h
  dsimp only at h
  generalize hcleared : (if p.action = .replaced then
    st.db.deleteTable p.account p.name (services index).removal else (.ok (), st.db)) = cleared at h
  obtain ⟨outcome, db⟩ := cleared
  cases outcome with
  | error e => cases h
  | ok u =>
    obtain ⟨hkept, htouches, hnothing, hhost, hforgotten⟩ :=
      cleared_ok hclean hname hremains hremoved hcleared
    dsimp only at h
    have htouches' := Catalogue.touches_createTableWith db p.account entry.attributes
      (services index).creation hname
    have hclean' := hkept.createTableWith p.account p.name entry.attributes
      (services index).creation
    rcases hcreate : db.createTableWith p.account p.name entry.attributes
      (services index).creation with ⟨outcome, db'⟩
    rw [hcreate] at h htouches' hclean'
    cases outcome with
    | error e => cases h
    | ok u =>
      have hcreated := Catalogue.createTableWith_ok hcreate
      obtain rfl := (Prod.mk.inj h).2
      refine ⟨hclean', htouches.trans htouches', hcreated.hasFile, ?_, ?_, fun hwhich => ?_, rfl⟩
      · dsimp only
        rw [hcreated.tables hnothing]
        exact hkept.absent _ _ hordinary.plain hcreated.absent hnothing
      · dsimp only
        rw [hcreated.host, hhost]
      · dsimp only
        rw [hcreated.carried]
        split
        · rfl
        · rename_i hdefault
          rw [not_not] at hdefault
          rw [hdefault]
          exact (hforgotten (hwhich.resolve_left (absurd hdefault))).1

def keeping (pending : Pending) (kept : Map String Record × Map String Record) : Pending :=
  { pending with records := some kept }

/-- The entries of a hashed file are kept until all of them are there. -/
theorem records_hashed (items : List Item) :
    ∀ {pending : Pending} {kept : Map String Record × Map String Record} (db : Catalogue),
    pending.records = some kept →
    applyAll (step files services) { db := db, pending := some pending } (items.map (.record entry)) =
      (.ok (), { db := db, pending := some (keeping pending (items.foldl
        (fun kept item => keepRecord item.kind item.key item.bytes kept) kept)) }) := by
  induction items with
  | nil =>
    intro pending kept db hkept
    rw [List.foldl_nil, keeping, ← hkept]
    rfl
  | cons item items ih =>
    intro pending kept db hkept
    have hstep : step files services { db := db, pending := some pending } (.record entry item) =
        (.ok (),
          { db := db
            pending := some (keeping pending (keepRecord item.kind item.key item.bytes kept)) }) := by
      simp only [step, put, hkept, keeping]
    rw [List.map_cons, applyAll_cons_ok hstep, List.foldl_cons]
    exact ih db rfl

/-- The records of one directory are these. -/
def atRoot (db : Catalogue) (root : String) (records : Map String Bytes) : Catalogue :=
  { db with host := Function.update db.host root records }

/-- So many more records have come. -/
def further (pending : Pending) (n : Nat) : Pending := { pending with arrived := pending.arrived + n }

/-- Those of a directory file are put in place as they come. -/
theorem records_directory (items : List Item) : ∀ {pending : Pending} {db : Catalogue}
    {st' : Restore}, pending.records = none →
    db.attributes.attributesOf pending.account pending.name = { directory := some {} } →
    applyAll (step files services) { db := db, pending := some pending } (items.map (.record entry)) =
      (.ok (), st') →
    st' =
      { db := atRoot db (ownRoot db pending.account pending.name)
          (insertAll (db.host (ownRoot db pending.account pending.name))
            (items.map fun item => (item.key, item.bytes)))
        pending := some (further pending items.length) } := by
  induction items with
  | nil =>
    intro pending db st' _ _ h
    obtain rfl := (Prod.mk.inj h).2
    simp [atRoot, further]
  | cons item items ih =>
    intro pending db st' hnone hdirectory h
    have hroot := directoryRoot_own hdirectory
    rw [List.map_cons] at h
    rcases hput : step files services { db := db, pending := some pending } (.record entry item) with
      ⟨outcome, st₁⟩
    cases outcome with
    | error e =>
      rw [applyAll_cons_error hput] at h
      cases h
    | ok u =>
      rw [applyAll_cons_ok hput] at h
      have hst₁ : st₁ =
          { db := atRoot db (ownRoot db pending.account pending.name)
              ((db.host (ownRoot db pending.account pending.name)).insert item.key item.bytes)
            pending := some (further pending 1) } := by
        simp only [step, put, hnone] at hput
        rcases hstaged : stageRecord { db := db, pending := some pending } pending item.key
            item.bytes.length with e | u
        · rw [hstaged] at hput
          cases hput
        · rw [hstaged] at hput
          dsimp only at hput
          unfold commit Directories.commitDirectoryRecord at hput
          dsimp only at hput
          rw [hroot] at hput
          dsimp only at hput
          rcases commitStaged_spec db.directories.host (ownRoot db pending.account pending.name)
            item.key (some item.bytes) (pending.service.placing pending.arrived) item.bytes.length
            item.bytes.length with ⟨bytes, -, -, hbytes, hcommit⟩ | ⟨hrefused, -⟩
          · obtain rfl := Option.some.inj hbytes
            rw [hcommit] at hput
            exact (Prod.mk.inj hput).2.symm
          · exact absurd (Prod.mk.inj hput).1 hrefused
      have hstill : st₁.db.attributes.attributesOf pending.account pending.name =
          { directory := some {} } := by
        rw [hst₁]
        exact hdirectory
      rw [hst₁] at h hstill
      have hnone' : (further pending 1).records = none := hnone
      rw [ih hnone' hstill h, List.map_cons, insertAll_cons]
      have hown : ∀ records, ownRoot (atRoot db (ownRoot db pending.account pending.name) records)
          pending.account pending.name = ownRoot db pending.account pending.name := fun _ => rfl
      dsimp only [further] at hown ⊢
      rw [hown, List.length_cons, Nat.add_right_comm, ← Nat.add_assoc]
      simp [atRoot]

theorem reindexed_nil (records dictionary : Map String Record) :
    Reindexed [] (({ records := records, dictionary := dictionary } :
      Table).markDictDirty.touchAll) where
  made field idx hidx := by
    simp [Table.markDictDirty, Table.recheckIndexAttributes, Table.touchAll] at hidx
  complete entry hentry := by cases hentry

/-- Nothing but `$LOGS` holds more for what is logged. -/
theorem clean_logError {c : Catalogue} (h : c.Clean) (logging : Logging) (account message : String) :
    (logError c logging account message).2.Clean ∧
      (logError c logging account message).2.attributes = c.attributes := by
  unfold logError
  split
  · exact ⟨h, rfl⟩
  split
  · exact ⟨h, rfl⟩
  rename_i hthere
  have hthere : c.hasFile "SYSTEM" "$LOGS" = true := by simpa using hthere
  cases logging.opened with
  | error e => exact ⟨h, rfl⟩
  | ok u => exact ⟨h.withTable (Catalogue.hasFile_iff.mp hthere).2 _, rfl⟩

theorem clean_restoreIndexes {account name : String} (logging : Nat → Logging)
    (indexes : List IndexEntry) : ∀ (n : Nat) {c : Catalogue}, c.Clean →
    c.attributes.tables account name = true →
    (restoreIndexes account name logging n c indexes).2.Clean ∧
      (restoreIndexes account name logging n c indexes).2.attributes = c.attributes := by
  induction indexes with
  | nil => exact fun _ c h _ => ⟨h, rfl⟩
  | cons index rest ih =>
    intro n c h hthere
    rw [restoreIndexes]
    cases (c.tables account name).createIndexExcluding index.field index.excluded.toFinset with
    | error e =>
      obtain ⟨hkept, hsame⟩ := clean_logError h (logging n) account
        (notRebuilt account name index.field e)
      dsimp only
      generalize logError c (logging n) account _ = logged at hkept hsame
      obtain ⟨outcome, c'⟩ := logged
      cases outcome with
      | error e => exact ⟨hkept, hsame⟩
      | ok u =>
        obtain ⟨hlast, hattributes⟩ := ih (n + 1) hkept (by rw [hsame]; exact hthere)
        exact ⟨hlast, hattributes.trans hsame⟩
    | ok t =>
      dsimp only
      cases t.rebuildIndex index.field with
      | error e => exact ⟨h.withTable hthere t, rfl⟩
      | ok t => exact ih (n + 1) (h.withTable hthere t) hthere

/-- What is put in place of a hashed file, all of which has arrived. -/
def arrivedTable (items : List Item) : Table :=
  ({ records := (keptOf items).1, dictionary := (keptOf items).2 } : Table).markDictDirty.touchAll

theorem install_eq {db : Catalogue} {pending : Pending} (items : List Item)
    (hthere : db.hasFile pending.account pending.name = true)
    (hempty : db.tables pending.account pending.name = {})
    (hopened : pending.service.opened = .ok ()) :
    install db pending (keptOf items) =
      restoreIndexes pending.account pending.name pending.service.logging 0
        (db.withTable pending.account pending.name (arrivedTable items)) pending.indexes := by
  obtain ⟨d, hd⟩ := Option.isSome_iff_exists.mp (Catalogue.hasFile_iff.mp hthere).1
  rw [install, hd, hthere, hempty, hopened]
  rfl

theorem install_ok {db db' : Catalogue} {pending : Pending} {items : List Item}
    (hclean : db.Clean) (hlog : ¬(pending.account = "SYSTEM" ∧ pending.name = "$LOGS"))
    (hempty : db.tables pending.account pending.name = {})
    (h : install db pending (keptOf items) = (.ok (), db')) :
    db'.Clean ∧ db'.attributes = db.attributes ∧
      Catalogue.Touches (Catalogue.Only pending.account pending.name) db db' ∧
      Reinstated items pending.indexes (db'.tables pending.account pending.name) := by
  have hthere : db.hasFile pending.account pending.name = true := by
    by_contra hnone
    rw [install] at h
    split at h
    · cases h
    · rw [Bool.not_eq_true] at hnone
      rw [hnone, if_pos (by decide)] at h
      cases h
  have hopened : pending.service.opened = .ok () := by
    cases hopened : pending.service.opened with
    | ok u => rfl
    | error e =>
      rw [install, hopened] at h
      split at h
      · cases h
      split at h <;> cases h
  rw [install_eq items hthere hempty hopened] at h
  have hlisted := (Catalogue.hasFile_iff.mp hthere).2
  have hwith := hclean.withTable hlisted (arrivedTable items)
  obtain ⟨hkept, hsame⟩ :=
    clean_restoreIndexes pending.service.logging pending.indexes 0 hwith hlisted
  have htouches := (Catalogue.touches_withTable db pending.account pending.name
    (arrivedTable items)).trans (touches_restoreIndexes pending.account pending.name
      pending.service.logging pending.indexes 0 _)
  rw [h] at hkept hsame htouches
  obtain ⟨made, htable, hreindexed⟩ := restoreIndexes_ok hlog pending.service.logging
    pending.indexes 0 (tables_withTable db pending.account pending.name _)
    (reindexed_nil (keptOf items).1 (keptOf items).2) h
  refine ⟨hkept, hsame, htouches, ?_⟩
  rw [htable]
  exact ⟨rfl, rfl, hreindexed, rfl, rfl⟩

/-- One file, from its description to its end. -/
theorem restore_file {index : Nat} {items : List Item} {st₁ st₂ : Restore} (hclean : st.db.Clean)
    (hp : files[index]? = some p) (hordinary : Ordinary p.account p.name)
    (hremains : st.db.remains p.account p.name = false)
    (hremoved : (services index).removal = .removed)
    (hbegin : beginFile files services st index entry = (.ok (), st₁))
    (hrecords : applyAll (step files services) st₁ (items.map (.record entry)) = (.ok (), st₂))
    (hend : st₂.endFile = (.ok (), st')) :
    st'.db.Clean ∧ Catalogue.Touches (Catalogue.Only p.account p.name) st.db st'.db ∧
      RestoredFile st.db st'.db p entry items := by
  have hbegun := beginFile_ok hclean hp hordinary hremains hremoved hbegin
  obtain ⟨db, pending⟩ := st₁
  have hpending : pending = some (opened p entry (services index)) := hbegun.pending
  have hown : ownRoot db p.account p.name = ownRoot st.db p.account p.name :=
    ownRoot_touches hbegun.touches p.account p.name
  rw [hpending] at hrecords
  by_cases hdirectory : entry.isDirectory = true
  · have hattributes : db.attributes.attributesOf p.account p.name = { directory := some {} } := by
      rw [hbegun.attributes (.inl ?_), attributes_of_directory hdirectory]
      rw [attributes_of_directory hdirectory]
      decide
    have hnone : (opened p entry (services index)).records = none := if_pos hdirectory
    have hst₂ := records_directory items hnone hattributes hrecords
    have hfinished : st' = { st₂ with pending := none } := by
      rw [hst₂] at hend ⊢
      unfold endFile at hend
      dsimp only [further] at hend
      rw [hnone] at hend
      exact (Prod.mk.inj hend).2.symm
    rw [hfinished, hst₂]
    have htouches : Catalogue.Touches (Catalogue.Only p.account p.name) db
        (atRoot db (ownRoot db p.account p.name) (insertAll (db.host (ownRoot db p.account p.name))
          (items.map fun item => (item.key, item.bytes)))) := by
      refine ⟨rfl, rfl, rfl, fun a n _ => .of_tables (fun _ => rfl) rfl rfl,
        fun path hpath => Function.update_of_ne ?_ _ _⟩
      rintro rfl
      have hinto := leadsInto_ownRoot db p.account p.name
      rw [hpath _ _ ⟨rfl, rfl⟩] at hinto
      cases hinto
    refine ⟨⟨hbegun.clean.absent, hbegun.clean.named⟩, hbegun.touches.trans htouches,
      hbegun.there, hbegun.attributes, fun hhashed => ?_, fun _ => ?_⟩
    · rw [hdirectory] at hhashed
      cases hhashed
    · have hhost := hbegun.host
      rw [← hown] at hhost
      have hsame := ownRoot_touches htouches p.account p.name
      dsimp only [opened] at hhost ⊢
      rw [hsame, hown, ← hown, atRoot]
      dsimp only
      rw [Function.update_self, hhost]
  · have hsome : (opened p entry (services index)).records = some (∅, ∅) := if_neg hdirectory
    rw [records_hashed items db hsome] at hrecords
    obtain rfl := (Prod.mk.inj hrecords).2
    rcases hinstall : install db (keeping (opened p entry (services index)) (keptOf items))
      (keptOf items) with ⟨outcome, db'⟩
    have hfinished : outcome = .ok () ∧ st' = { db := db', pending := none } := by
      have hfinish : endFile
          { db := db
            pending := some (keeping (opened p entry (services index)) (keptOf items)) } =
          (outcome, { db := db', pending := none }) := by
        rw [endFile]
        dsimp only [keeping] at hinstall ⊢
        rw [hinstall]
      rw [← keptOf, hfinish] at hend
      exact ⟨(Prod.mk.inj hend).1, (Prod.mk.inj hend).2.symm⟩
    obtain ⟨rfl, rfl⟩ := hfinished
    obtain ⟨hclean', hsame, htouches, hreinstated⟩ :=
      install_ok hbegun.clean hordinary.not_logs hbegun.empty hinstall
    refine ⟨hclean', hbegun.touches.trans htouches, ?_, fun hwhich => ?_, fun _ => hreinstated,
      fun hdir => absurd hdir hdirectory⟩
    · refine Catalogue.hasFile_of_accounts htouches.accounts ?_
        (Catalogue.hasFile_iff.mp hbegun.there).1
      rw [hsame]
      exact (Catalogue.hasFile_iff.mp hbegun.there).2
    · rw [hsame]
      exact hbegun.attributes hwhich

end Restore

/-! ## One file after another -/

/-- A file of a plan, with what the archive has of it. -/
structure Work where
  planned : ImportedFile
  entry : FileEntry
  items : List Item

namespace Work

def Names (w : Work) (account name : String) : Prop :=
  Catalogue.Only w.planned.account w.planned.name account name

/-- Two different files, and neither is a directory file with its records in the directory of the
other. -/
structure Apart (c : Catalogue) (w v : Work) : Prop where
  distinct : ¬w.Names v.planned.account v.planned.name
  left : v.entry.isDirectory = true → leadsInto (c.fileDir w.planned.account w.planned.name)
    (ownRoot c v.planned.account v.planned.name) = false
  right : w.entry.isDirectory = true → leadsInto (c.fileDir v.planned.account v.planned.name)
    (ownRoot c w.planned.account w.planned.name) = false

theorem Apart.symm {c : Catalogue} {w v : Work} (h : Apart c w v) : Apart c v w :=
  ⟨fun hsame => h.distinct ⟨hsame.1.symm, hsame.2.symm⟩, h.right, h.left⟩

theorem Apart.touches {S : String → String → Prop} {c c' : Catalogue} {w v : Work}
    (h : Apart c w v) (htouches : Catalogue.Touches S c c') : Apart c' w v where
  distinct := h.distinct
  left hdirectory := by
    rw [htouches.fileDir, ownRoot_touches htouches]
    exact h.left hdirectory
  right hdirectory := by
    rw [htouches.fileDir, ownRoot_touches htouches]
    exact h.right hdirectory

theorem Apart.of_touches {S : String → String → Prop} {c c' : Catalogue} {w v : Work}
    (h : Apart c' w v) (htouches : Catalogue.Touches S c c') : Apart c w v where
  distinct := h.distinct
  left hdirectory := by
    rw [← htouches.fileDir, ← ownRoot_touches htouches]
    exact h.left hdirectory
  right hdirectory := by
    rw [← htouches.fileDir, ← ownRoot_touches htouches]
    exact h.right hdirectory

/-- The file is as the archive has it. -/
def Done (before after : Catalogue) (w : Work) : Prop :=
  RestoredFile before after w.planned w.entry w.items

variable {before after c : Catalogue} {w : Work} {S : String → String → Prop}

/-- What is done is not undone by what does not touch it. -/
theorem Done.later (h : w.Done before after)
    (hordinary : Ordinary w.planned.account w.planned.name)
    (htouches : Catalogue.Touches S after c) (hout : ¬S w.planned.account w.planned.name)
    (hroot : w.entry.isDirectory = true → ∀ a n, S a n → leadsInto (after.fileDir a n)
      (ownRoot after w.planned.account w.planned.name) = false) : w.Done before c := by
  have hsame := (htouches.elsewhere _ _ hout).sameFile
    (fun a d hd => (htouches.accountDir a).trans hd) hordinary.not_logs h.there
  refine ⟨hsame.hasFile, fun hwhich => hsame.attributes.trans (h.attributes hwhich),
    fun hhashed => ?_, fun hdirectory => ?_⟩
  · rw [hsame.tables]
    exact h.hashed hhashed
  · rw [ownRoot_touches htouches, htouches.host _ (hroot hdirectory)]
    exact h.directory hdirectory

/-- Nor does it matter what came before and did not touch it. -/
theorem Done.earlier (h : w.Done before after) (htouches : Catalogue.Touches S c before)
    (hout : ¬S w.planned.account w.planned.name)
    (hown : ownRoot after w.planned.account w.planned.name =
      ownRoot c w.planned.account w.planned.name)
    (hroot : w.entry.isDirectory = true → ∀ a n, S a n → leadsInto (c.fileDir a n)
      (ownRoot c w.planned.account w.planned.name) = false) : w.Done c after where
  there := h.there
  attributes hwhich :=
    h.attributes (hwhich.imp_right fun hforgotten =>
      hforgotten.kept (htouches.elsewhere _ _ hout).cache (htouches.elsewhere _ _ hout).dropped)
  hashed := h.hashed
  directory hdirectory := by
    have hsame := htouches.host _ (hroot hdirectory)
    rw [h.directory hdirectory, hown, hsame]

/-- The accounts are made before any of it. -/
theorem Done.registers (h : w.Done before after)
    (hordinary : Ordinary w.planned.account w.planned.name)
    (hregisters : Catalogue.Registers c before) : w.Done c after where
  there := h.there
  attributes hwhich := by
    have hkept := hregisters.elsewhere _ _ hordinary.notDir hordinary.not_accounts
    exact h.attributes (hwhich.imp_right fun hforgotten => hforgotten.kept hkept.cache hkept.dropped)
  hashed := h.hashed
  directory hdirectory := by
    rw [h.directory hdirectory, hregisters.host]

end Work

/-- Every file of the archive, where the pass comes to its end. -/
theorem run_restores {files : List ImportedFile} {services : Nat → Service}
    (hordinary : ∀ p ∈ files, Ordinary p.account p.name)
    (hremoved : ∀ index, (services index).removal = .removed) (work : List Work) :
    ∀ {done : List ImportedFile} {st st' : Restore},
    files = done ++ work.map Work.planned → st.db.Clean →
    (∀ w ∈ work, st.db.remains w.planned.account w.planned.name = false) →
    work.Pairwise (Work.Apart st.db) →
    applyAll (Restore.step files services) st
      (deliveries done.length (work.map Work.entry) (work.map Work.items)) = (.ok (), st') →
    st'.db.Clean ∧
      Catalogue.Touches (fun a n => ∃ w ∈ work, w.Names a n) st.db st'.db ∧
      ∀ w ∈ work, w.Done st.db st'.db := by
  induction work with
  | nil =>
    intro done st st' _ hclean _ _ h
    obtain rfl := (Prod.mk.inj h).2
    exact ⟨hclean, .refl _ _, fun w hw => by cases hw⟩
  | cons w work ih =>
    intro done st st' hfiles hclean hremains hapart h
    obtain ⟨hfirst, hothers⟩ := List.pairwise_cons.mp hapart
    have hp : files[done.length]? = some w.planned := by
      rw [hfiles, List.getElem?_append_right le_rfl, Nat.sub_self]
      rfl
    have hw := hordinary w.planned (List.mem_of_getElem? hp)
    rw [List.map_cons, List.map_cons, deliveries] at h
    rcases hbegin : Restore.beginFile files services st done.length w.entry with ⟨outcome, st₁⟩
    cases outcome with
    | error e =>
      have hstep : Restore.step files services st (.beginFile done.length w.entry) =
          (.error e, st₁) := hbegin
      rw [applyAll_cons_error hstep] at h
      cases h
    | ok u =>
      have hstep : Restore.step files services st (.beginFile done.length w.entry) =
          (.ok (), st₁) := hbegin
      rw [applyAll_cons_ok hstep] at h
      rcases applyAll_append (Restore.step files services) st₁ (w.items.map (.record w.entry))
          (.endFile w.entry :: deliveries (done.length + 1) (work.map Work.entry)
            (work.map Work.items)) with ⟨e, herror, hall⟩ | ⟨hok, hall⟩
      · rw [hall] at h
        rw [h] at herror
        cases herror
      · rw [hall] at h
        have hrecords : applyAll (Restore.step files services) st₁
            (w.items.map (.record w.entry)) = (.ok (),
              (applyAll (Restore.step files services) st₁ (w.items.map (.record w.entry))).2) :=
          Prod.ext hok rfl
        generalize (applyAll (Restore.step files services) st₁
          (w.items.map (.record w.entry))).2 = st₂ at h hrecords
        rcases hend : st₂.endFile with ⟨outcome, st₃⟩
        cases outcome with
        | error e =>
          have hstep : Restore.step files services st₂ (.endFile w.entry) = (.error e, st₃) := hend
          rw [applyAll_cons_error hstep] at h
          cases h
        | ok u =>
          have hstep : Restore.step files services st₂ (.endFile w.entry) = (.ok (), st₃) := hend
          rw [applyAll_cons_ok hstep] at h
          obtain ⟨hclean₃, htouches, hdone⟩ := Restore.restore_file hclean hp hw
            (hremains w List.mem_cons_self) (hremoved _) hbegin hrecords hend
          have hfiles' : files = (done ++ [w.planned]) ++ work.map Work.planned := by
            rw [hfiles, List.append_assoc, List.map_cons, List.singleton_append]
          have hlength : (done ++ [w.planned]).length = done.length + 1 := by
            rw [List.length_append, List.length_singleton]
          rw [← hlength] at h
          have hremains₃ : ∀ v ∈ work,
              st₃.db.remains v.planned.account v.planned.name = false := fun v hv =>
            (htouches.elsewhere _ _ (hfirst v hv).distinct).remains.trans
              (hremains v (List.mem_cons_of_mem _ hv))
          obtain ⟨hclean', htouches', hrest⟩ := ih hfiles' hclean₃ hremains₃
            (hothers.imp fun hvu => hvu.touches htouches) h
          refine ⟨hclean', (htouches.mono ?_).trans (htouches'.mono ?_), fun v hv => ?_⟩
          · exact fun a n hin => ⟨w, List.mem_cons_self, hin⟩
          · rintro a n ⟨v, hv, hin⟩
            exact ⟨v, List.mem_cons_of_mem _ hv, hin⟩
          rcases List.mem_cons.mp hv with rfl | hv
          · refine Work.Done.later hdone hw htouches' ?_ fun hdirectory a n hin => ?_
            · rintro ⟨u, hu, hin⟩
              exact (hfirst u hu).symm.distinct hin
            · obtain ⟨u, hu, hin⟩ := hin
              obtain ⟨rfl, rfl⟩ := hin
              exact ((hfirst u hu).touches htouches).right hdirectory
          · refine Work.Done.earlier (hrest v hv) htouches (hfirst v hv).distinct ?_
              fun hdirectory a n hin => ?_
            · rw [ownRoot_touches htouches', ownRoot_touches htouches]
            · obtain ⟨rfl, rfl⟩ := hin
              exact (hfirst v hv).left hdirectory

/-- The files are told apart by what is delivered of them. -/
theorem deliveries_inj (entries : List FileEntry) : ∀ {files files' : List (List Item)} {index : Nat},
    files.length = entries.length → files'.length = entries.length →
    deliveries index entries files = deliveries index entries files' → files = files' := by
  have hitems : ∀ (entry : FileEntry) (items items' : List Item) (rest rest' : List Delivered),
      items.map (Delivered.record entry) ++ .endFile entry :: rest =
        items'.map (Delivered.record entry) ++ .endFile entry :: rest' →
      items = items' ∧ rest = rest' := by
    intro entry items
    induction items with
    | nil =>
      intro items' rest rest' h
      cases items' with
      | nil => exact ⟨rfl, (List.cons.inj h).2⟩
      | cons item items' => cases (List.cons.inj h).1
    | cons item items ih =>
      intro items' rest rest' h
      cases items' with
      | nil => cases (List.cons.inj h).1
      | cons item' items' =>
        obtain ⟨hitem, hrest⟩ := List.cons.inj h
        obtain ⟨rfl, hsame⟩ := ih items' rest rest' hrest
        cases hitem
        exact ⟨rfl, hsame⟩
  induction entries with
  | nil =>
    intro files files' index hlen hlen' _
    rw [List.length_eq_zero_iff.mp hlen, List.length_eq_zero_iff.mp hlen']
  | cons entry entries ih =>
    intro files files' index hlen hlen' h
    obtain ⟨items, files, rfl⟩ := List.exists_cons_of_length_eq_add_one hlen
    obtain ⟨items', files', rfl⟩ := List.exists_cons_of_length_eq_add_one hlen'
    rw [deliveries, deliveries] at h
    obtain ⟨rfl, hrest⟩ := hitems entry items items' _ _ (List.cons.inj h).2
    rw [ih (Nat.succ.inj hlen) (Nat.succ.inj hlen') hrest]

/-- The second pass of an import, after its accounts are made. -/
theorem done_of_pass {docs : Documents} {services : Services} {c c₁ : Catalogue}
    {names created : List String} {work : List Work} {second : Feed UInt8 IoError}
    {outcome : Except DbError Summary} {st : Restore} (hclean : c.Clean)
    (hordinary : ∀ w ∈ work, Ordinary w.planned.account w.planned.name)
    (hremains : ∀ w ∈ work, c.remains w.planned.account w.planned.name = false)
    (hremoved : ∀ index, (services.file index).removal = .removed)
    (hcreate : createAccounts services.account c names = (.ok created, c₁))
    (hpass : read docs (Restore.sink (work.map Work.planned) services.file) { db := c₁ } second =
      (outcome, st))
    (hrun : applyAll (Restore.step (work.map Work.planned) services.file) { db := c₁ }
      (deliveries 0 (work.map Work.entry) (work.map Work.items)) = (.ok (), st))
    (hapart : work.Pairwise (Work.Apart st.db)) : ∀ w ∈ work, w.Done c st.db := by
  obtain ⟨hregisters, hclean₁⟩ := createAccounts_registers services.account names c
  rw [hcreate] at hregisters hclean₁
  have hplanned : ∀ p ∈ work.map Work.planned, Ordinary p.account p.name := by
    intro p hp
    obtain ⟨w, hw, rfl⟩ := List.mem_map.mp hp
    exact hordinary w hw
  have htouches := (Restore.sink_keeps services.file c₁ fun p hp => (hplanned p hp).notDir).read docs
    { db := c₁ } second (Catalogue.Touches.refl _ c₁)
  rw [hpass] at htouches
  have hremains₁ : ∀ w ∈ work, c₁.remains w.planned.account w.planned.name = false := by
    intro w hw
    rw [(hregisters.elsewhere _ _ (hordinary w hw).notDir (hordinary w hw).not_accounts).remains]
    exact hremains w hw
  obtain ⟨-, -, hdone⟩ := run_restores hplanned hremoved work (List.nil_append _).symm
    (hclean₁ hclean) hremains₁ (hapart.imp fun h => h.of_touches htouches) hrun
  exact fun w hw => (hdone w hw).registers (hordinary w hw) hregisters

end Archive

/-! ## A host that does what it is asked for -/

/-- A file can be made. -/
structure Making.Willing (making : Making) : Prop where
  directory : making.directory = none
  data : making.data = none
  dict : making.dict = none

structure Creation.Willing (creation : Creation) : Prop extends creation.toMaking.Willing where
  root : creation.root = none
  upkeep : creation.upkeep = {}

structure Registering.Willing (registering : Registering) : Prop where
  directory : registering.directory = none
  persisted : registering.persisted = none
  opened : registering.opened = .ok ()
  saved : registering.saved = .ok ()
  making : registering.making.Willing
  synced : registering.synced = .ok ()

namespace Catalogue

variable {c : Catalogue} {account name : String}

theorem createTable_succeeds {making : Making} (hwilling : making.Willing) (haccount : account ≠ "")
    (hregistered : (c.accountDir account).isSome)
    (hnone : c.attributes.tables account name = false) :
    ∃ c', c.createTable account name making = (.ok (), c') ∧
      c'.attributes.tables account name = true := by
  have hsome : ¬(c.accountDir account).isNone := by
    rw [Option.isNone_iff_eq_none]
    intro hunknown
    rw [hunknown] at hregistered
    cases hregistered
  unfold createTable
  rw [if_neg haccount, if_neg hsome, hwilling.directory, hwilling.data, hwilling.dict]
  dsimp only [Option.none_or]
  rw [truncateDict_attributes, hnone]
  exact ⟨_, rfl, (AttributeStore.enlist_made hnone making.listing).there⟩

theorem createTableWith_succeeds {creation : Creation} (hwilling : creation.Willing)
    (haccount : account ≠ "") (hregistered : (c.accountDir account).isSome)
    (hnone : c.attributes.tables account name = false) (hname : name ≠ "DIR") (a : FileAttributes) :
    ∃ c', c.createTableWith account name a creation = (.ok (), c') := by
  obtain ⟨c₁, hcreate, hthere⟩ :=
    createTable_succeeds hwilling.toWilling haccount hregistered hnone
  unfold createTableWith
  rw [hcreate, hwilling.root, hwilling.upkeep]
  cases a.directory <;> dsimp only <;> split
  all_goals first
    | exact ⟨_, rfl⟩
    | rw [AttributeStore.setAttributes, if_neg haccount, hthere, if_neg (by decide), if_neg hname]
      exact ⟨_, rfl⟩

theorem deleteTable_succeeds (haccount : account ≠ "") (hthere : c.hasFile account name = true)
    (removal : Removal) : ∃ c', c.deleteTable account name removal = (.ok (), c') ∧
      c'.accounts = c.accounts ∧ c'.attributes.tables account name = false := by
  rw [deleteTable, if_neg haccount, hthere, if_neg (by decide)]
  refine ⟨_, rfl, ?_, AttributeStore.put_self _ _ _ _⟩
  cases removal <;> rfl

/-- The account is there even where it is not noted. -/
theorem noteAccount_succeeds (c : Catalogue) (account dir : String) {registering : Registering}
    (hwilling : registering.Willing) :
    ∃ c', c.noteAccount account dir registering = (.ok (), c') ∧ c'.accounts = c.accounts := by
  unfold noteAccount
  rw [hwilling.opened, hwilling.saved]
  split <;> exact ⟨_, rfl, rfl⟩

theorem createAccount_succeeds {registering : Registering} (hwilling : registering.Willing)
    (haccount : account ≠ "") (hnone : c.accountDir account = none) (directory : Option String) :
    ∃ c', c.createAccount account directory registering = (.ok (), c') ∧
      (c'.accountDir account).isSome := by
  unfold createAccount
  rw [hnone, Option.isSome_none, if_neg Bool.false_ne_true, hwilling.directory, hwilling.persisted]
  dsimp only
  generalize directory.getD (c.storageDir ++ "/" ++ account) = dir
  obtain ⟨c₁, hnoted, haccounts⟩ := noteAccount_succeeds
    { c with accounts := c.accounts ++ [(account, dir)] } account dir hwilling
  have hregistered : (c₁.accountDir account).isSome := by
    rw [accountDir, haccounts]
    simp
  rw [hnoted]
  dsimp only
  unfold ensureDirFile
  split
  · exact ⟨c₁, rfl, hregistered⟩
  · rename_i hnodir
    have hunlisted : c₁.attributes.tables account "DIR" = false := by
      rw [Bool.eq_false_iff]
      exact fun hthere => hnodir (hasFile_iff.mpr ⟨hregistered, hthere⟩)
    obtain ⟨c₂, hcreate, -⟩ := createTable_succeeds hwilling.making haccount hregistered hunlisted
    have htouches := touches_createTable c₁ account "DIR" registering.making
    rw [hcreate] at htouches ⊢
    rw [hwilling.synced]
    refine ⟨_, rfl, ?_⟩
    have hstill : (c₂.accountDir account).isSome := by
      rw [htouches.accountDir]
      exact hregistered
    exact hstill

end Catalogue

namespace Archive

structure Service.Willing (service : Service) : Prop where
  removal : service.removal = .removed
  creation : service.creation.Willing
  staging : ∀ n, service.staging n = none
  writing : ∀ n, service.writing n = none
  placing : ∀ n, service.placing n = none
  opened : service.opened = .ok ()
  logging : ∀ n, (service.logging n).opened = .ok () ∧ (service.logging n).saved = .ok ()

structure Services.Willing (services : Services) : Prop where
  account : ∀ name, (services.account name).Willing
  file : ∀ index, (services.file index).Willing
  saved : services.saved = .ok ()

theorem createAccounts_succeeds {registering : String → Registering}
    (hwilling : ∀ name, (registering name).Willing) (names : List String) : ∀ {c : Catalogue},
    (∀ a ∈ names, a ≠ "") → ∃ created c', createAccounts registering c names = (.ok created, c') ∧
      ∀ a ∈ names, (c'.accountDir a).isSome := by
  induction names with
  | nil => exact fun _ => ⟨[], _, rfl, fun a ha => by cases ha⟩
  | cons name rest ih =>
    intro c hnames
    rw [createAccounts]
    have hrest := fun a ha => hnames a (List.mem_cons_of_mem _ ha)
    split
    · rename_i hthere
      obtain ⟨created, c', hcreate, hall⟩ := ih hrest
      obtain ⟨d, hd⟩ := Option.isSome_iff_exists.mp hthere
      have hregisters := (createAccounts_registers registering rest c).1
      rw [hcreate] at hregisters
      refine ⟨created, c', hcreate, fun a ha => ?_⟩
      rcases List.mem_cons.mp ha with rfl | ha
      · rw [hregisters.accounts a d hd]
        rfl
      · exact hall a ha
    · rename_i hnone
      rw [Bool.not_eq_true, Option.isSome_eq_false_iff, Option.isNone_iff_eq_none] at hnone
      obtain ⟨c₁, hone, hthere⟩ := Catalogue.createAccount_succeeds (hwilling name)
        (hnames name List.mem_cons_self) hnone none
      rw [hone]
      dsimp only
      obtain ⟨created, c', hcreate, hall⟩ := ih hrest
      obtain ⟨d, hd⟩ := Option.isSome_iff_exists.mp hthere
      have hregisters := (createAccounts_registers registering rest c₁).1
      rw [hcreate] at hregisters ⊢
      refine ⟨name :: created, c', rfl, fun a ha => ?_⟩
      rcases List.mem_cons.mp ha with rfl | ha
      · rw [hregisters.accounts a d hd]
        rfl
      · exact hall a ha

/-! ## Files that can all be made -/

/-- A file can be made, and its records can be the records of such a file. -/
structure Work.Ready (c : Catalogue) (w : Work) : Prop where
  account : w.planned.account ≠ ""
  ordinary : Ordinary w.planned.account w.planned.name
  registered : (c.accountDir w.planned.account).isSome
  remains : c.remains w.planned.account w.planned.name = false
  place : if w.planned.action = .replaced then
      c.hasFile w.planned.account w.planned.name = true
    else c.attributes.tables w.planned.account w.planned.name = false
  usable : w.entry.isDirectory = true → ∀ item ∈ w.items,
    validateKey item.key = .ok () ∧ item.bytes.length ≤ c.maxRecordBytes

theorem Work.Ready.touches {S : String → String → Prop} {c c' : Catalogue} {w : Work}
    (h : w.Ready c) (htouches : Catalogue.Touches S c c')
    (hout : ¬S w.planned.account w.planned.name) : w.Ready c' where
  account := h.account
  ordinary := h.ordinary
  registered := by
    rw [htouches.accountDir]
    exact h.registered
  remains := (htouches.elsewhere _ _ hout).remains.trans h.remains
  place := by
    have hplace := h.place
    have hkept := htouches.elsewhere _ _ hout
    split
    · rename_i haction
      rw [if_pos haction] at hplace
      exact (hkept.hasFile (fun a d hd => (htouches.accountDir a).trans hd) hplace).1
    · rename_i haction
      rw [if_neg haction] at hplace
      exact hkept.absent h.ordinary.notDir hplace
  usable hdirectory item hitem := by
    rw [htouches.limit]
    exact h.usable hdirectory item hitem

namespace Restore

variable {files : List ImportedFile} {services : Nat → Service} {st : Restore} {w : Work}

theorem beginFile_succeeds {index : Nat} (hp : files[index]? = some w.planned)
    (hwilling : (services index).Willing) (h : w.Ready st.db) :
    ∃ st', beginFile files services st index w.entry = (.ok (), st') := by
  have hcleared : ∃ db, (if w.planned.action = .replaced
      then st.db.deleteTable w.planned.account w.planned.name (services index).removal
      else (.ok (), st.db)) = (.ok (), db) ∧ db.accounts = st.db.accounts ∧
      db.attributes.tables w.planned.account w.planned.name = false := by
    have hplace := h.place
    split
    · rename_i haction
      rw [if_pos haction] at hplace
      exact Catalogue.deleteTable_succeeds h.account hplace (services index).removal
    · rename_i haction
      rw [if_neg haction] at hplace
      exact ⟨st.db, rfl, rfl, hplace⟩
  obtain ⟨db, hcleared, haccounts, hnone⟩ := hcleared
  have hregistered : (db.accountDir w.planned.account).isSome := by
    rw [Catalogue.accountDir, haccounts]
    exact h.registered
  obtain ⟨db', hcreate⟩ := Catalogue.createTableWith_succeeds hwilling.creation h.account
    hregistered hnone h.ordinary.notDir w.entry.attributes
  unfold beginFile
  rw [hp]
  dsimp only
  rw [hcleared]
  dsimp only
  rw [hcreate]
  exact ⟨_, rfl⟩

theorem records_succeed (files : List ImportedFile) (services : Nat → Service) (entry : FileEntry)
    (items : List Item) : ∀ {db : Catalogue} {pending : Pending}, pending.service.Willing →
    pending.records = none →
    db.attributes.attributesOf pending.account pending.name = { directory := some {} } →
    (∀ item ∈ items, validateKey item.key = .ok () ∧ item.bytes.length ≤ db.maxRecordBytes) →
    ∃ st', applyAll (step files services) { db := db, pending := some pending }
      (items.map (.record entry)) = (.ok (), st') := by
  induction items with
  | nil => exact fun _ _ _ _ => ⟨_, rfl⟩
  | cons item items ih =>
    intro db pending hwilling hnone hdirectory husable
    obtain ⟨hkey, hlen⟩ := husable item List.mem_cons_self
    have hroot := directoryRoot_own hdirectory
    have hstaged : stageRecord { db := db, pending := some pending } pending item.key
        item.bytes.length = .ok () := by
      have hlen' : ¬db.directories.maxRecordBytes < item.bytes.length := Nat.not_lt.mpr hlen
      rw [stageRecord, hwilling.staging, hwilling.writing, Directories.stageDirectoryRecord, hroot]
      dsimp only
      rw [stage, hkey]
      dsimp only
      rw [if_neg hlen']
    have hput : step files services { db := db, pending := some pending } (.record entry item) =
        (.ok (),
          { db := atRoot db (ownRoot db pending.account pending.name)
              ((db.host (ownRoot db pending.account pending.name)).insert item.key item.bytes)
            pending := some (further pending 1) }) := by
      simp only [step, put, hnone, hstaged]
      unfold commit Directories.commitDirectoryRecord commitStaged
      dsimp only
      rw [hroot, hkey, hwilling.placing]
      simp only [ne_eq, not_true_eq_false, if_false]
      rfl
    rw [List.map_cons, applyAll_cons_ok hput]
    have hwilling' : (further pending 1).service.Willing := hwilling
    exact ih hwilling' hnone hdirectory fun other hother =>
      husable other (List.mem_cons_of_mem _ hother)

/-- One file, from its description to its end. -/
theorem file_succeeds {index : Nat} (hclean : st.db.Clean) (hp : files[index]? = some w.planned)
    (hwilling : (services index).Willing) (hlog : Loggable st.db) (h : w.Ready st.db) :
    ∃ st₁ st₂ st', beginFile files services st index w.entry = (.ok (), st₁) ∧
      applyAll (step files services) st₁ (w.items.map (.record w.entry)) = (.ok (), st₂) ∧
      st₂.endFile = (.ok (), st') := by
  obtain ⟨st₁, hbegin⟩ := beginFile_succeeds hp hwilling h
  have hbegun := beginFile_ok hclean hp h.ordinary h.remains hwilling.removal hbegin
  refine ⟨st₁, ?_⟩
  obtain ⟨db, pending⟩ := st₁
  have hpending : pending = some (opened w.planned w.entry (services index)) := hbegun.pending
  by_cases hdirectory : w.entry.isDirectory = true
  · have hnone : (opened w.planned w.entry (services index)).records = none := if_pos hdirectory
    have hattributes : db.attributes.attributesOf w.planned.account w.planned.name =
        { directory := some {} } := by
      rw [hbegun.attributes (.inl ?_), attributes_of_directory hdirectory]
      rw [attributes_of_directory hdirectory]
      decide
    have hlimit : db.maxRecordBytes = st.db.maxRecordBytes := hbegun.touches.limit
    obtain ⟨st₂, hrecords⟩ := records_succeed files services w.entry w.items
      (show (opened w.planned w.entry (services index)).service.Willing from hwilling) hnone
      hattributes fun item hitem => hlimit ▸ h.usable hdirectory item hitem
    have hst₂ := records_directory w.items hnone hattributes hrecords
    refine ⟨st₂, { st₂ with pending := none }, hbegin, hpending ▸ hrecords, ?_⟩
    rw [hst₂, endFile]
    dsimp only [further]
    rw [hnone]
  · have hsome : (opened w.planned w.entry (services index)).records = some (∅, ∅) :=
      if_neg hdirectory
    have hlog' : Loggable (db.withTable w.planned.account w.planned.name (arrivedTable w.items)) := by
      have hout : ¬Catalogue.Only w.planned.account w.planned.name "SYSTEM" "$LOGS" := fun hsame =>
        h.ordinary.not_logs ⟨hsame.1.symm, hsame.2.symm⟩
      exact (hlog.touches hbegun.touches hout).touches (Catalogue.touches_withTable db _ _ _) hout
    obtain ⟨db', hrestored⟩ := restoreIndexes_succeeds h.ordinary.not_logs
      (fun n => (hwilling.logging n).1) (fun n => (hwilling.logging n).2) w.entry.indexes 0 hlog'
    have hinstall : install db (keeping (opened w.planned w.entry (services index))
        (keptOf w.items)) (keptOf w.items) = (.ok (), db') := by
      have hthere : db.hasFile (keeping (opened w.planned w.entry (services index))
          (keptOf w.items)).account (keeping (opened w.planned w.entry (services index))
          (keptOf w.items)).name = true := hbegun.there
      rw [install_eq w.items hthere hbegun.empty hwilling.opened]
      exact hrestored
    refine ⟨_, ⟨db', none⟩, hbegin, hpending ▸ records_hashed w.items db hsome, ?_⟩
    rw [endFile]
    dsimp only [keeping] at hinstall ⊢
    rw [← keptOf, hinstall]

end Restore

/-- A pass whose files can all be made comes to its end. -/
theorem work_succeeds {files : List ImportedFile} {services : Nat → Service}
    (hwilling : ∀ index, (services index).Willing) (work : List Work) :
    ∀ {done : List ImportedFile} (st : Restore), files = done ++ work.map Work.planned →
    st.db.Clean → Loggable st.db → (∀ w ∈ work, w.Ready st.db) →
    work.Pairwise (fun w v => ¬w.Names v.planned.account v.planned.name) →
    ∃ st', applyAll (Restore.step files services) st
      (deliveries done.length (work.map Work.entry) (work.map Work.items)) = (.ok (), st') := by
  induction work with
  | nil => exact fun st _ _ _ _ _ => ⟨st, rfl⟩
  | cons w work ih =>
    intro done st hfiles hclean hlog hready hdistinct
    obtain ⟨hfirst, hothers⟩ := List.pairwise_cons.mp hdistinct
    have hp : files[done.length]? = some w.planned := by
      rw [hfiles, List.getElem?_append_right le_rfl, Nat.sub_self]
      rfl
    have hw := hready w List.mem_cons_self
    have hserved := hwilling done.length
    obtain ⟨st₁, st₂, st₃, hbegin, hrecords, hend⟩ :=
      Restore.file_succeeds hclean hp hserved hlog hw
    obtain ⟨hclean₃, htouches, -⟩ := Restore.restore_file hclean hp hw.ordinary hw.remains
      hserved.removal hbegin hrecords hend
    have hfiles' : files = (done ++ [w.planned]) ++ work.map Work.planned := by
      rw [hfiles, List.append_assoc, List.map_cons, List.singleton_append]
    have hlog₃ : Loggable st₃.db := hlog.touches htouches fun hsame =>
      hw.ordinary.not_logs ⟨hsame.1.symm, hsame.2.symm⟩
    obtain ⟨st', hrest⟩ := ih st₃ hfiles' hclean₃ hlog₃ (fun v hv =>
      (hready v (List.mem_cons_of_mem _ hv)).touches htouches (hfirst v hv)) hothers
    rw [List.length_append, List.length_singleton] at hrest
    refine ⟨st', ?_⟩
    have hbeginStep : Restore.step files services st (.beginFile done.length w.entry) =
        (.ok (), st₁) := hbegin
    have hendStep : Restore.step files services st₂ (.endFile w.entry) = (.ok (), st₃) := hend
    rw [List.map_cons, List.map_cons, deliveries, applyAll_cons_ok hbeginStep]
    rcases applyAll_append (Restore.step files services) st₁ (w.items.map (.record w.entry))
        (.endFile w.entry :: deliveries (done.length + 1) (work.map Work.entry)
          (work.map Work.items)) with ⟨e, herror, -⟩ | ⟨-, hall⟩
    · rw [hrecords] at herror
      cases herror
    · rw [hall, hrecords, applyAll_cons_ok hendStep, hrest]

end Archive

end RustyPick
