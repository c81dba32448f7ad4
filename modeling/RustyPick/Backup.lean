import RustyPick.Restored
import RustyPick.Transfer

/-!
# RustyPick.Backup

An archive taken of one database and put back into another (`export` and `import` in
`db/engine/archive.rs`).

* `import_restores`: an import that reports success has restored every file of its archive.
* `backup_restores`: what is exported comes back, wherever there is room for it: every file the
  export covers, with its attributes, its records and dictionary as they are stored, and its indexes
  made from them.
* `commitArchive_restores`: also where the archive comes over a connection.
-/

namespace RustyPick

open Lib Directory

namespace Archive

/-! ## An export -/

def LISTING : String := "DIR"

def SYSTEM : String := "SYSTEM"

/-- `collect_account`. -/
def collectAccount (listed : String → List String) (account : String) : List (String × String) :=
  ((listed account).filter fun name => name ≠ LISTING).map fun name => (account, name)

/-- In the order of the account and then the name. -/
def sortTargets (targets : List (String × String)) : List (String × String) :=
  targets.mergeSort fun a b => decide (a.1 < b.1 ∨ a.1 = b.1 ∧ a.2 ≤ b.2)

/-- `export_plan`, over what the registry and the accounts list. -/
def exportPlan (c : Catalogue) (accounts : List String) (listed : String → List String) :
    Source → Except DbError (List (String × String))
  | .file account file =>
    if (c.accountDir account).isNone then .error (.accountNotFound account)
    else if file ∉ listed account then .error (.fileNotFound account file)
    else if file = LISTING then
      .error (.invalidRequest ("'" ++ LISTING ++
        "' is the account's listing of its own files, not data. Export the account instead"))
    else .ok (sortTargets [(account, file)])
  | .account account =>
    if (c.accountDir account).isNone then .error (.accountNotFound account)
    else .ok (sortTargets (collectAccount listed account))
  | .all =>
    .ok (sortTargets ((accounts.filter fun account => account ≠ SYSTEM).flatMap
      (collectAccount listed)))

/-- What the registry and the accounts list. -/
structure Listed (c : Catalogue) (accounts : List String) (listed : String → List String) :
    Prop where
  accounts : accounts.Nodup ∧ ∀ a, a ∈ accounts ↔ (c.accountDir a).isSome
  files : ∀ a, (listed a).Nodup ∧ ∀ n, n ∈ listed a ↔ c.hasFile a n = true

def Reaches : Source → String → String → Prop
  | .file account file, a, n => a = account ∧ n = file
  | .account account, a, _ => a = account
  | .all, a, _ => a ≠ SYSTEM

/-- The files of an export. -/
def Covers (c : Catalogue) (source : Source) (a n : String) : Prop :=
  Reaches source a n ∧ c.hasFile a n = true ∧ n ≠ LISTING

theorem mem_collectAccount {c : Catalogue} {accounts : List String} {listed : String → List String}
    (h : Listed c accounts listed) {account a n : String} :
    (a, n) ∈ collectAccount listed account ↔
      a = account ∧ c.hasFile a n = true ∧ n ≠ LISTING := by
  simp only [collectAccount, List.mem_map, List.mem_filter, decide_eq_true_eq, Prod.mk.injEq]
  constructor
  · rintro ⟨name, ⟨hlisted, hname⟩, rfl, rfl⟩
    exact ⟨rfl, ((h.files account).2 name).mp hlisted, hname⟩
  · rintro ⟨rfl, hthere, hname⟩
    exact ⟨n, ⟨((h.files a).2 n).mpr hthere, hname⟩, rfl, rfl⟩

theorem nodup_collectAccount {c : Catalogue} {accounts : List String} {listed : String → List String}
    (h : Listed c accounts listed) (account : String) : (collectAccount listed account).Nodup :=
  ((h.files account).1.filter _).map fun _ _ heq => (Prod.mk.inj heq).2

/-- A plan has each file of the source once. -/
theorem exportPlan_ok {c : Catalogue} {accounts : List String} {listed : String → List String}
    {source : Source} {targets : List (String × String)} (h : Listed c accounts listed)
    (hplan : exportPlan c accounts listed source = .ok targets) :
    targets.Nodup ∧ ∀ a n, (a, n) ∈ targets ↔ Covers c source a n := by
  have hsorted : ∀ l : List (String × String), (sortTargets l).Perm l := fun l =>
    List.mergeSort_perm l _
  cases source with
  | file account file =>
    rw [exportPlan] at hplan
    split at hplan
    · cases hplan
    split at hplan
    · cases hplan
    rename_i hlisted
    split at hplan
    · cases hplan
    rename_i hname
    obtain rfl := Except.ok.inj hplan
    refine ⟨(hsorted _).nodup_iff.mpr (List.nodup_singleton _), fun a n => ?_⟩
    rw [(hsorted _).mem_iff, List.mem_singleton, Prod.mk.injEq, Covers, Reaches]
    constructor
    · rintro ⟨rfl, rfl⟩
      exact ⟨⟨rfl, rfl⟩, ((h.files a).2 n).mp (not_not.mp hlisted), hname⟩
    · exact fun hcovers => hcovers.1
  | account account =>
    rw [exportPlan] at hplan
    split at hplan
    · cases hplan
    obtain rfl := Except.ok.inj hplan
    refine ⟨(hsorted _).nodup_iff.mpr (nodup_collectAccount h account), fun a n => ?_⟩
    rw [(hsorted _).mem_iff, mem_collectAccount h, Covers, Reaches]
  | all =>
    obtain rfl := Except.ok.inj hplan
    refine ⟨(hsorted _).nodup_iff.mpr ?_, fun a n => ?_⟩
    · rw [List.nodup_flatMap]
      refine ⟨fun account _ => nodup_collectAccount h account, ?_⟩
      refine (h.accounts.1.filter _).imp fun hne => ?_
      rintro ⟨a, n⟩ hleft hright
      exact hne (((mem_collectAccount h).mp hleft).1.symm.trans ((mem_collectAccount h).mp hright).1)
    · rw [(hsorted _).mem_iff, List.mem_flatMap, Covers, Reaches]
      constructor
      · rintro ⟨account, haccount, hmem⟩
        obtain ⟨rfl, hthere, hname⟩ := (mem_collectAccount h).mp hmem
        exact ⟨by simpa using (List.mem_filter.mp haccount).2, hthere, hname⟩
      · rintro ⟨ha, hthere, hname⟩
        refine ⟨a, List.mem_filter.mpr ⟨?_, by simpa using ha⟩, (mem_collectAccount h).mpr
          ⟨rfl, hthere, hname⟩⟩
        exact (h.accounts.2 a).mpr (Catalogue.hasFile_iff.mp hthere).1

/-! ## What is exported of a file -/

/-- `index_entries`. -/
def indexEntries (t : Table) : List IndexEntry :=
  t.indexes.toList.map fun e => { field := e.1, excluded := ascending e.2.excluded }

/-- The records of a table, the dictionary first, in the order of their keys. -/
def tableItems (t : Table) : List Item :=
  (t.dictionary.toList.map fun e =>
      { kind := .dictionary, key := e.1, bytes := e.2.toBytes }) ++
    t.records.toList.map fun e => { kind := .data, key := e.1, bytes := e.2.toBytes }

def directoryItems (records : Map String Bytes) : List Item :=
  records.toList.map fun e => { kind := .data, key := e.1, bytes := e.2 }

/-- What `list_tables_with_attributes_for_account` says of a file: where the whole database is
durable, every file is. -/
def listedAttributes (c : Catalogue) (account name : String) : FileAttributes :=
  let a := c.attributes.attributesOf account name
  { a with durable := a.durable || c.durableWrites }

/-- `ExportTarget::attributes`. A file that is named is looked up by itself. -/
def targetAttributes (c : Catalogue) : Source → String → String → FileAttributes
  | .file _ _, account, name => c.attributes.attributesOf account name
  | .account _, account, name => listedAttributes c account name
  | .all, account, name => listedAttributes c account name

theorem targetAttributes_directory (c : Catalogue) (source : Source) (account name : String) :
    (targetAttributes c source account name).directory =
      (c.attributes.attributesOf account name).directory := by
  cases source <;> rfl

/-- What an export holds of a file, where `DIR` can be read. Every record of a directory file has
been opened for it: a host file that cannot be one, or is too long, stops the export. -/
structure Held (c : Catalogue) (source : Source) (f : Exported) : Prop where
  attributes : f.attributes = targetAttributes c source f.account f.name
  hashed : f.attributes.directory = none →
    f.indexes = indexEntries (c.tables f.account f.name) ∧
      f.items = tableItems (c.tables f.account f.name)
  directory : f.attributes.directory.isSome → f.indexes = [] ∧
    ∃ root, c.directories.directoryRoot f.account f.name = .ok root ∧
      f.items = directoryItems (c.host root) ∧
      ∀ (key : String) (bytes : Bytes), (c.host root)[key]? = some bytes →
        validateKey key = .ok () ∧ bytes.length ≤ c.maxRecordBytes

/-- An archive of `source` is taken: of the planned files, as they are. -/
structure Taken (docs : Documents) (storageFormat takenMillis : Nat) (c : Catalogue)
    (accounts : List String) (listed : String → List String) (source : Source)
    (files : List Exported) (trailer : Trailer) (bytes : Bytes) : Prop where
  planned : exportPlan c accounts listed source =
    .ok (files.map fun f => (f.account, f.name))
  held : ∀ f ∈ files, Held c source f
  written : exported docs storageFormat takenMillis source files = .ok (trailer, bytes)

theorem foldl_keepRecord_data {V : Type} (f : V → Bytes) (l : List (String × V)) :
    ∀ kept : Map String Record × Map String Record,
    (l.map fun e => ({ kind := .data, key := e.1, bytes := f e.2 } : Item)).foldl
      (fun kept item => keepRecord item.kind item.key item.bytes kept) kept =
      (insertAll kept.1 (l.map fun e => (e.1, Record.fromBytes (f e.2))), kept.2) := by
  induction l with
  | nil => exact fun _ => rfl
  | cons e l ih => exact fun kept => ih (kept.1.insert e.1 (Record.fromBytes (f e.2)), kept.2)

theorem foldl_keepRecord_dictionary {V : Type} (f : V → Bytes) (l : List (String × V)) :
    ∀ kept : Map String Record × Map String Record,
    (l.map fun e => ({ kind := .dictionary, key := e.1, bytes := f e.2 } : Item)).foldl
      (fun kept item => keepRecord item.kind item.key item.bytes kept) kept =
      (kept.1, insertAll kept.2 (l.map fun e => (e.1, Record.fromBytes (f e.2)))) := by
  induction l with
  | nil => exact fun _ => rfl
  | cons e l ih => exact fun kept => ih (kept.1, kept.2.insert e.1 (Record.fromBytes (f e.2)))

/-- What is kept of a table's records is what they are stored as. -/
theorem keptOf_tableItems (t : Table) :
    keptOf (tableItems t) = (storedForm t.records, storedForm t.dictionary) := by
  rw [keptOf, tableItems, List.foldl_append, foldl_keepRecord_dictionary Record.toBytes,
    foldl_keepRecord_data Record.toBytes]
  dsimp only
  rw [insertAll_map_toList fun r : Record => Record.fromBytes r.toBytes,
    insertAll_map_toList fun r : Record => Record.fromBytes r.toBytes]
  rfl

theorem isDirectory_of (account name : String) (a : FileAttributes) (indexes : List IndexEntry) :
    (FileEntry.of account name a indexes).isDirectory = a.directory.isSome := by
  rw [FileEntry.isDirectory, FileEntry.of]
  dsimp only
  cases a.directory with
  | some policy => rfl
  | none =>
    rw [Option.isSome_none, if_neg Bool.false_ne_true]
    split <;> rfl

theorem mem_distinctNames {names : List String} {name : String} :
    name ∈ distinctNames names ↔ name ∈ names := by
  rw [distinctNames, List.mem_dedup, (List.mergeSort_perm names _).mem_iff]

/-! ## Back again -/

/-- What is to be restored of an exported file. -/
def workOf (c : Catalogue) (plan : ImportPlan) (f : Exported) : Work where
  planned := plannedFile c plan (f.entry, countOf f.entry f.items)
  entry := f.entry
  items := f.items

/-- The file is as it was where it was exported. What was there before is gone where it was a file
of the database. -/
structure Reproduced (origin : Catalogue) (source : Source) (before after : Catalogue)
    (a n : String) : Prop where
  there : after.hasFile a n = true
  attributes : portable (targetAttributes origin source a n) ≠ {} ∨ Forgotten before a n →
    after.attributes.attributesOf a n = portable (targetAttributes origin source a n)
  hashed : (origin.attributes.attributesOf a n).directory = none →
    (after.tables a n).records = storedForm (origin.tables a n).records ∧
      (after.tables a n).dictionary = storedForm (origin.tables a n).dictionary ∧
      Reindexed (indexEntries (origin.tables a n)) (after.tables a n)
  directory : (origin.attributes.attributesOf a n).directory.isSome → ∀ key,
    after.directories.record a n key = (origin.directories.record a n key).or
      (if before.hasFile a n then none else (before.host (ownRoot after a n))[key]?)

theorem importPlan_succeeds {c : Catalogue} {summary : Summary} {plan : ImportPlan}
    (hinto : plan.intoAccount = none)
    (hover : ∀ file ∈ summary.files, c.hasFile file.1.account file.1.name = true →
      plan.overwrite = true) :
    importPlan c summary plan = .ok (summary.files.map (plannedFile c plan)) := by
  have hnone : ∀ p ∈ summary.files.map (plannedFile c plan), p.action = .replaced →
      plan.overwrite = true := by
    intro p hp haction
    obtain ⟨file, hfile, rfl⟩ := List.mem_map.mp hp
    by_cases hthere : c.hasFile file.1.account file.1.name = true
    · exact hover file hfile hthere
    · simp [plannedFile, hinto, hthere] at haction
  have hcollisions : ((summary.files.map (plannedFile c plan)).filter
      fun p => p.action = .replaced ∧ !plan.overwrite) = [] := by
    rw [List.filter_eq_nil_iff]
    intro p hp hcollides
    have hboth : p.action = .replaced ∧ (!plan.overwrite) = true := of_decide_eq_true hcollides
    rw [hnone p hp hboth.1] at hboth
    exact Bool.false_ne_true hboth.2
  unfold importPlan
  dsimp only
  rw [hinto, Option.isSome_none, if_neg (fun h => Bool.false_ne_true h.1), hcollisions]
  rfl

section

variable {docs : Documents} {storageFormat takenMillis : Nat} {c c₂ c' : Catalogue}
  {accounts : List String} {listed : String → List String} {source : Source}
  {files : List Exported} {trailer : Trailer} {bytes : Bytes} {plan : ImportPlan} {f : Exported}

theorem Taken.covers (h : Taken docs storageFormat takenMillis c accounts listed source files trailer
    bytes) (hlisted : Listed c accounts listed) :
    (files.map fun f => (f.account, f.name)).Nodup ∧
      ∀ a n, Covers c source a n ↔ ∃ f ∈ files, f.account = a ∧ f.name = n := by
  obtain ⟨hnodup, hcovers⟩ := exportPlan_ok hlisted h.planned
  refine ⟨hnodup, fun a n => ?_⟩
  rw [← hcovers, List.mem_map]
  simp only [Prod.mk.injEq]

theorem planned_workOf (c₂ : Catalogue) (hinto : plan.intoAccount = none) (f : Exported) :
    (workOf c₂ plan f).planned.account = f.account ∧ (workOf c₂ plan f).planned.name = f.name ∧
      (workOf c₂ plan f).planned.action =
        (if c₂.hasFile f.account f.name then .replaced else .created) := by
  simp [workOf, plannedFile, hinto, Exported.entry, FileEntry.of]

/-- What is done with what is exported of a file is the file again. -/
theorem reproduced_of_done (hinto : plan.intoAccount = none) (hheld : Held c source f)
    (h : (workOf c₂ plan f).Done c₂ c') : Reproduced c source c₂ c' f.account f.name := by
  obtain ⟨haccount, hname, haction⟩ := planned_workOf c₂ hinto f
  have hkind : (workOf c₂ plan f).entry.isDirectory = f.attributes.directory.isSome :=
    isDirectory_of f.account f.name f.attributes f.indexes
  have hattributes : (workOf c₂ plan f).entry.attributes = portable f.attributes :=
    attributes_of f.seconds f.account f.name f.indexes
  obtain ⟨hthere, hcarried, hhashed, hdirectory⟩ := h
  rw [haccount, hname, hattributes, hheld.attributes] at hcarried
  rw [haccount, hname] at hthere hhashed hdirectory
  rw [hkind] at hhashed hdirectory
  have hfile := hheld.hashed
  have hroot := hheld.directory
  rw [hheld.attributes, targetAttributes_directory] at hhashed hdirectory hfile hroot
  refine ⟨hthere, hcarried, fun hnone => ?_, fun hsome key => ?_⟩
  · obtain ⟨hindexes, hitems⟩ := hfile hnone
    obtain ⟨hrecords, hdictionary, hreindexed, -⟩ := hhashed (by rw [hnone]; rfl)
    have hkept : keptOf (workOf c₂ plan f).items = _ :=
      (congrArg keptOf hitems).trans (keptOf_tableItems _)
    have hentries : (workOf c₂ plan f).entry.indexes = _ := hindexes
    rw [hkept] at hrecords hdictionary
    rw [hentries] at hreindexed
    exact ⟨hrecords, hdictionary, hreindexed⟩
  · obtain ⟨-, root, hroot, hitems, -⟩ := hroot hsome
    have hportable : portable (targetAttributes c source f.account f.name) =
        { directory := some {} } := by
      rw [portable, targetAttributes_directory, if_pos hsome]
    have hown := directoryRoot_own (hcarried (.inl (by rw [hportable]; decide)) |>.trans hportable)
    have hrecords := hdirectory hsome
    have hitems' : (workOf c₂ plan f).items = _ := hitems
    rw [hitems', directoryItems, List.map_map] at hrecords
    have hlist : (c.host root).toList.map ((fun item : Item => (item.key, item.bytes)) ∘
        fun e => { kind := .data, key := e.1, bytes := e.2 }) =
        (c.host root).toList.map fun e => (e.1, id e.2) := rfl
    have hwhole : insertAll ∅ ((c.host root).toList.map fun e => (e.1, id e.2)) = c.host root := by
      rw [insertAll_map_toList]
      simp
    rw [hlist] at hrecords
    have hlookup := congrArg (fun m => m[key]?) hrecords
    rw [getElem?_insertAll, hwhole, haction] at hlookup
    have hhere : c'.directories.record f.account f.name key =
        (c'.host (ownRoot c' f.account f.name))[key]? := by
      rw [Directories.record, hown]
      rfl
    have hthere : c.directories.record f.account f.name key = (c.host root)[key]? := by
      rw [Directories.record, hroot]
      rfl
    rw [hhere, hthere, hlookup]
    cases c₂.hasFile f.account f.name <;> simp

/-- There is a place for a file: none of its name is listed, or it may be replaced, and nothing is
left of one that was deleted. -/
structure HasPlace (c : Catalogue) (plan : ImportPlan) (account name : String) : Prop where
  ordinary : Ordinary account name
  remains : c.remains account name = false
  free : c.hasFile account name = true ∧ plan.overwrite = true ∨
    c.attributes.tables account name = false

theorem workOf_ready {c₁ : Catalogue} (hclean : c.Clean) (hinto : plan.intoAccount = none)
    (hheld : Held c source f) (hcovers : Covers c source f.account f.name)
    (hroom : c.maxRecordBytes ≤ c₂.maxRecordBytes) (hplace : HasPlace c₂ plan f.account f.name)
    (hregisters : Catalogue.Registers c₂ c₁) (haccount : (c₁.accountDir f.account).isSome) :
    (workOf c₂ plan f).Ready c₁ := by
  obtain ⟨haccount', hname', haction⟩ := planned_workOf c₂ hinto f
  obtain ⟨hordinary, hremains, hfree⟩ := hplace
  have hkept := hregisters.elsewhere _ _ hordinary.notDir hordinary.not_accounts
  refine ⟨?_, ?_, ?_, ?_, ?_, fun hdirectory item hitem => ?_⟩
  · rw [haccount']
    intro hnobody
    have hlisted := (Catalogue.hasFile_iff.mp hcovers.2.1).2
    rw [hnobody, hclean.named] at hlisted
    cases hlisted
  · rw [haccount', hname']
    exact hordinary
  · rw [haccount']
    exact haccount
  · rw [haccount', hname', hkept.remains]
    exact hremains
  · rw [haccount', hname', haction]
    by_cases hold : c₂.hasFile f.account f.name = true
    · rw [if_pos hold, if_pos rfl]
      exact Catalogue.hasFile_iff.mpr
        ⟨haccount, hkept.listed (Catalogue.hasFile_iff.mp hold).2⟩
    · rw [if_neg hold, if_neg (by decide)]
      exact hkept.absent hordinary.notDir (hfree.resolve_left fun h => hold h.1)
  · have hkind : (workOf c₂ plan f).entry.isDirectory = f.attributes.directory.isSome :=
      isDirectory_of f.account f.name f.attributes f.indexes
    obtain ⟨-, root, -, hitems, husable⟩ := hheld.directory (hkind ▸ hdirectory)
    have hitems' : (workOf c₂ plan f).items = directoryItems (c.host root) := hitems
    rw [hitems', directoryItems] at hitem
    obtain ⟨e, he, rfl⟩ := List.mem_map.mp hitem
    obtain ⟨hkey, hlen⟩ :=
      husable e.1 e.2 (Std.ExtTreeMap.mem_toList_iff_getElem?_eq_some.mp he)
    rw [hregisters.limit]
    exact ⟨hkey, hlen.trans hroom⟩

theorem not_names_workOf (hinto : plan.intoAccount = none) {f g : Exported}
    (hne : (f.account, f.name) ≠ (g.account, g.name)) :
    ¬(workOf c₂ plan f).Names (workOf c₂ plan g).planned.account
      (workOf c₂ plan g).planned.name := by
  obtain ⟨hf, hf', -⟩ := planned_workOf c₂ hinto f
  obtain ⟨hg, hg', -⟩ := planned_workOf c₂ hinto g
  rintro ⟨ha, hn⟩
  rw [hf, hg] at ha
  rw [hf', hg'] at hn
  exact hne (by rw [ha, hn])

theorem works_distinct (c₂ : Catalogue) (hinto : plan.intoAccount = none)
    (hnodup : (files.map fun f => (f.account, f.name)).Nodup) :
    (files.map (workOf c₂ plan)).Pairwise
      fun w v => ¬w.Names v.planned.account v.planned.name := by
  rw [List.pairwise_map]
  exact (List.pairwise_map.mp hnodup).imp fun hne => not_names_workOf hinto hne

/-- No file of an export has the records of another in its directory. -/
def Scattered (origin after : Catalogue) (source : Source) : Prop :=
  ∀ a n b m, Covers origin source a n → Covers origin source b m → (a, n) ≠ (b, m) →
    (origin.attributes.attributesOf b m).directory.isSome →
    leadsInto (after.fileDir a n) (ownRoot after b m) = false

theorem works_apart (c₂ : Catalogue) (hinto : plan.intoAccount = none)
    (hnodup : (files.map fun f => (f.account, f.name)).Nodup)
    (hcovers : ∀ f ∈ files, Covers c source f.account f.name)
    (hheld : ∀ f ∈ files, Held c source f)
    (hscattered : Scattered c c' source) :
    (files.map (workOf c₂ plan)).Pairwise (Work.Apart c') := by
  have hclear : ∀ f ∈ files, ∀ g ∈ files, (f.account, f.name) ≠ (g.account, g.name) →
      (workOf c₂ plan g).entry.isDirectory = true →
      leadsInto (c'.fileDir (workOf c₂ plan f).planned.account (workOf c₂ plan f).planned.name)
        (ownRoot c' (workOf c₂ plan g).planned.account (workOf c₂ plan g).planned.name) = false := by
    intro f hf g hg hne hdirectory
    obtain ⟨haccount, hname, -⟩ := planned_workOf c₂ hinto f
    obtain ⟨haccount', hname', -⟩ := planned_workOf c₂ hinto g
    rw [haccount, hname, haccount', hname']
    refine hscattered _ _ _ _ (hcovers f hf) (hcovers g hg) hne ?_
    rw [← targetAttributes_directory c source, ← (hheld g hg).attributes,
      ← isDirectory_of g.account g.name g.attributes g.indexes]
    exact hdirectory
  rw [List.pairwise_map]
  refine (List.pairwise_map.mp hnodup).imp_of_mem fun {f g} hf hg hne => ?_
  exact ⟨not_names_workOf hinto hne, hclear f hf g hg hne, hclear g hg f hf hne.symm⟩

/-- What an import is told of such an archive. -/
def summaryOf (storageFormat takenMillis : Nat) (source : Source) (files : List Exported)
    (trailer : Trailer) (bytes : Bytes) : Summary where
  manifest := manifestOf storageFormat takenMillis source files
  trailer := trailer
  archiveBytes := bytes.length

theorem importPlan_taken
    (h : Taken docs storageFormat takenMillis c accounts listed source files trailer bytes)
    (hinto : plan.intoAccount = none)
    (hplaces : ∀ f ∈ files, HasPlace c₂ plan f.account f.name) :
    importPlan c₂ (summaryOf storageFormat takenMillis source files trailer bytes) plan =
      .ok ((files.map (workOf c₂ plan)).map Work.planned) := by
  have hfiles : (summaryOf storageFormat takenMillis source files trailer bytes).files =
      files.map fun f => (f.entry, countOf f.entry f.items) := by
    rw [Summary.files, summaryOf, (exported_frame h.written).1, manifestOf, trailerOf]
    dsimp only
    rw [List.zip_map']
  rw [importPlan_succeeds hinto, hfiles, List.map_map, List.map_map]
  · rfl
  · rw [hfiles]
    intro file hfile hthere
    obtain ⟨f, hf, rfl⟩ := List.mem_map.mp hfile
    rcases (hplaces f hf).free with ⟨-, hover⟩ | hnone
    · exact hover
    · have hlisted : c₂.attributes.tables f.account f.name = true :=
        (Catalogue.hasFile_iff.mp hthere).2
      rw [hnone] at hlisted
      cases hlisted

/-- Both passes over such an archive. -/
theorem taken_applied
    (htaken : Taken docs storageFormat takenMillis c accounts listed source files trailer bytes)
    (hjson : docs.ReadsBack (manifestOf storageFormat takenMillis source files) trailer)
    (hlimits : WithinLimits docs (manifestOf storageFormat takenMillis source files) files)
    {first second : Feed UInt8 IoError} (hfirst : first.content = bytes)
    (hsecond : second.content = bytes) (hfailure : second.failure = first.failure) {σ : Type}
    {sink : Sink σ} {step : σ → Delivered → Except DbError Unit × σ} (hsink : sink.Applies step)
    {st st' : σ} (hrun : applyAll step st (deliveries 0 (files.map Exported.entry)
      (files.map Exported.items)) = (.ok (), st')) :
    verify docs first = .ok (summaryOf storageFormat takenMillis source files trailer bytes) ∧
      read docs sink st second =
        (.ok (summaryOf storageFormat takenMillis source files trailer bytes), st') := by
  have hread : read docs (collect 1) [] first =
      (.ok (summaryOf storageFormat takenMillis source files trailer bytes),
        deliveries 0 (files.map Exported.entry) (files.map Exported.items)) :=
    accepted_of_withinLimits htaken.written hjson hlimits Nat.one_pos hfirst
  have hverify := verify_of_read hread
  obtain ⟨items, hitems, happlied⟩ := read_applied hverify
  have hsame : items = files.map Exported.items := by
    have hcollect := happlied (collect_applies Nat.one_pos) [] first rfl rfl
    rw [hread, applyAll_collect] at hcollect
    refine deliveries_inj _ hitems ?_ (Prod.mk.inj hcollect).2.symm
    rw [summaryOf, manifestOf, List.length_map, List.length_map]
  subst hsame
  refine ⟨hverify, ?_⟩
  rw [happlied hsink st second (hsecond.trans hfirst.symm) hfailure, summaryOf, manifestOf]
  dsimp only
  rw [hrun]
  rfl

/-- Where its files have a place, the accounts of an archive are made, and its files can be. -/
theorem taken_ready {services : Services} (hclean : c.Clean)
    (htaken : Taken docs storageFormat takenMillis c accounts listed source files trailer bytes)
    (hfile : ∀ f ∈ files, Covers c source f.account f.name) (hclean₂ : c₂.Clean)
    (hlog : Loggable c₂) (hroom : c.maxRecordBytes ≤ c₂.maxRecordBytes)
    (hinto : plan.intoAccount = none) (hplaces : ∀ f ∈ files, HasPlace c₂ plan f.account f.name)
    (hwilling : services.Willing) :
    ∃ created c₁, createAccounts services.account c₂ (distinctNames
        (((files.map (workOf c₂ plan)).map Work.planned).map ImportedFile.account)) =
          (.ok created, c₁) ∧
      c₁.Clean ∧ Loggable c₁ ∧ ∀ w ∈ files.map (workOf c₂ plan), w.Ready c₁ := by
  have hname : ∀ a, a ∈ distinctNames
      (((files.map (workOf c₂ plan)).map Work.planned).map ImportedFile.account) ↔
        ∃ f ∈ files, f.account = a := by
    intro a
    rw [mem_distinctNames, List.map_map, List.map_map, List.mem_map]
    exact exists_congr fun f => and_congr_right fun _ => by
      rw [← (planned_workOf c₂ hinto f).1]
      rfl
  generalize distinctNames
    (((files.map (workOf c₂ plan)).map Work.planned).map ImportedFile.account) = names at *
  have hnamed : ∀ a ∈ names, a ≠ "" := by
    intro a ha hnobody
    obtain ⟨f, hf, rfl⟩ := (hname a).mp ha
    have hlisted := (Catalogue.hasFile_iff.mp (hfile f hf).2.1).2
    rw [hnobody, hclean.named] at hlisted
    cases hlisted
  obtain ⟨created, c₁, hcreate, hregistered⟩ :=
    createAccounts_succeeds hwilling.account names (c := c₂) hnamed
  obtain ⟨hregisters, hclean₁⟩ := createAccounts_registers services.account names c₂
  rw [hcreate] at hregisters hclean₁
  refine ⟨created, c₁, hcreate, hclean₁ hclean₂, ?_, fun w hw => ?_⟩
  · exact ((hregisters.elsewhere _ _ (by decide) fun h => absurd h.2 (by decide)).hasFile
      hregisters.accounts hlog).1
  · obtain ⟨f, hf, rfl⟩ := List.mem_map.mp hw
    exact workOf_ready hclean hinto (htaken.held f hf) (hfile f hf) hroom (hplaces f hf) hregisters
      (hregistered f.account ((hname _).mpr ⟨f, hf, rfl⟩))

/-- Wherever the files of an archive have a place, its import succeeds. -/
theorem taken_imports {services : Services} (hclean : c.Clean) (hlisted : Listed c accounts listed)
    (htaken : Taken docs storageFormat takenMillis c accounts listed source files trailer bytes)
    (hjson : docs.ReadsBack (manifestOf storageFormat takenMillis source files) trailer)
    (hlimits : WithinLimits docs (manifestOf storageFormat takenMillis source files) files)
    (hclean₂ : c₂.Clean) (hlog : Loggable c₂) (hroom : c.maxRecordBytes ≤ c₂.maxRecordBytes)
    (hinto : plan.intoAccount = none) (hdry : plan.dryRun = false)
    (hplaces : ∀ a n, Covers c source a n → HasPlace c₂ plan a n) (hwilling : services.Willing)
    {first second : Feed UInt8 IoError} (hfirst : first.content = bytes)
    (hsecond : second.content = bytes) (hfailure : second.failure = first.failure) :
    ∃ report c', importArchive docs services c₂ first second plan = (.ok report, c') ∧
      report.summary = summaryOf storageFormat takenMillis source files trailer bytes ∧
      (Scattered c c' source → ∀ f ∈ files, Reproduced c source c₂ c' f.account f.name) := by
  obtain ⟨hnodup, hcovers⟩ := htaken.covers hlisted
  have hfile : ∀ f ∈ files, Covers c source f.account f.name := fun f hf =>
    (hcovers _ _).mpr ⟨f, hf, rfl, rfl⟩
  have hplace : ∀ f ∈ files, HasPlace c₂ plan f.account f.name := fun f hf =>
    hplaces _ _ (hfile f hf)
  obtain ⟨created, c₁, hcreate, hclean₁, hlog₁, hready⟩ :=
    taken_ready hclean htaken hfile hclean₂ hlog hroom hinto hplace hwilling
  obtain ⟨st, hrun⟩ := work_succeeds hwilling.file (files.map (workOf c₂ plan)) { db := c₁ }
    (List.nil_append _).symm hclean₁ hlog₁ hready (works_distinct c₂ hinto hnodup)
  have hitems : (files.map (workOf c₂ plan)).map Work.items = files.map Exported.items := by
    rw [List.map_map]
    rfl
  have hentries : (files.map (workOf c₂ plan)).map Work.entry = files.map Exported.entry := by
    rw [List.map_map]
    rfl
  have hrun' := hrun
  rw [List.length_nil, hitems, hentries] at hrun'
  obtain ⟨hverify, hpass⟩ := taken_applied htaken hjson hlimits hfirst hsecond hfailure
    (Restore.sink_applies ((files.map (workOf c₂ plan)).map Work.planned) services.file) hrun'
  refine ⟨_, st.db, (importArchive_ok_iff hdry).mpr ⟨_, _, created, c₁, _, st, hverify,
    importPlan_taken htaken hinto hplace, hcreate, hpass, hwilling.saved, rfl, rfl⟩, rfl,
    fun hscattered f hf => ?_⟩
  have hdone := done_of_pass hclean₂ (fun w hw => (hready w hw).ordinary) (fun w hw => ?_)
    (fun index => (hwilling.file index).removal) hcreate hpass hrun
    (works_apart c₂ hinto hnodup hfile htaken.held hscattered)
  · exact reproduced_of_done hinto (htaken.held f hf) (hdone _ (List.mem_map_of_mem hf))
  · obtain ⟨g, hg, rfl⟩ := List.mem_map.mp hw
    obtain ⟨haccount, hname, -⟩ := planned_workOf c₂ hinto g
    rw [haccount, hname]
    exact (hplace g hg).remains

end

/-! ## Over a connection -/

/-- A path as it is read: the spool file, or none. -/
def spoolFeed : Option Bytes → Feed UInt8 IoError
  | none => { pieces := [], failure := some noSuchFile }
  | some bytes => onePiece bytes

/-- The import that `commit_archive` makes of its spool file. -/
def spoolImporter {J : Type} (docs : Documents) (services : Services)
    (importReport : ImportReport → J) : Transfer.Importer J Catalogue :=
  fun spool plan c =>
    match importArchive docs services c (spoolFeed spool) (spoolFeed spool) plan with
    | (.ok report, c) => (.ok (report.records, importReport report), c)
    | (.error e, c) => (.error e, c)

section

variable {J : Type} {docs : Documents} {services : Services} {storageFormat takenMillis : Nat}
  {c c₂ : Catalogue} {accounts : List String} {listed : String → List String} {source : Source}
  {files : List Exported} {trailer : Trailer} {bytes : Bytes} {staged : Transfer.StagedArchive}

/-- An archive that has come whole over a connection is restored as one on the host is. -/
theorem commitArchive_restores (importReport : ImportReport → J) (hclean : c.Clean)
    (hlisted : Listed c accounts listed)
    (htaken : Taken docs storageFormat takenMillis c accounts listed source files trailer bytes)
    (hjson : docs.ReadsBack (manifestOf storageFormat takenMillis source files) trailer)
    (hlimits : WithinLimits docs (manifestOf storageFormat takenMillis source files) files)
    (hclean₂ : c₂.Clean) (hlog : Loggable c₂) (hroom : c.maxRecordBytes ≤ c₂.maxRecordBytes)
    (hinto : staged.plan.intoAccount = none) (hdry : staged.plan.dryRun = false)
    (hplaces : ∀ a n, Covers c source a n → HasPlace c₂ staged.plan a n)
    (hwilling : services.Willing) (hlength : staged.length = bytes.length) :
    ∃ response c', Transfer.commitArchive (spoolImporter docs services importReport) staged
        bytes.length c₂ (some bytes) = (response, c') ∧ response.status = .ok ∧
      (Scattered c c' source → ∀ f ∈ files, Reproduced c source c₂ c' f.account f.name) := by
  obtain ⟨report, c', himport, -, hreproduced⟩ := taken_imports hclean hlisted htaken hjson hlimits
    hclean₂ hlog hroom hinto hdry hplaces hwilling (content_onePiece bytes) (content_onePiece bytes)
    rfl
  refine ⟨{ status := .ok, count := some report.records, archive := some (importReport report) },
    c', ?_, rfl, hreproduced⟩
  rw [Transfer.commitArchive, hlength, if_neg (not_not.mpr rfl), spoolImporter, spoolFeed, himport]

end

/-! ## Any archive -/

/-- The work of an import: its plan, file by file, with what the archive delivers. -/
structure IsWork (docs : Documents) (source : Feed UInt8 IoError) (report : ImportReport)
    (work : List Work) : Prop where
  planned : work.map Work.planned = report.files
  entries : work.map Work.entry = report.summary.manifest.files
  items : ∀ buffer, 0 < buffer → (read docs (collect buffer) [] source).2 =
    deliveries 0 report.summary.manifest.files (work.map Work.items)

theorem exists_work (files : List ImportedFile) : ∀ {entries : List FileEntry}
    {items : List (List Item)}, entries.length = files.length → items.length = files.length →
    ∃ work : List Work, work.map Work.planned = files ∧ work.map Work.entry = entries ∧
      work.map Work.items = items := by
  induction files with
  | nil =>
    intro entries items hentries hitems
    exact ⟨[], rfl, (List.length_eq_zero_iff.mp hentries).symm,
      (List.length_eq_zero_iff.mp hitems).symm⟩
  | cons p files ih =>
    intro entries items hentries hitems
    obtain ⟨entry, entries, rfl⟩ := List.exists_cons_of_length_eq_add_one hentries
    obtain ⟨item, items, rfl⟩ := List.exists_cons_of_length_eq_add_one hitems
    obtain ⟨work, rfl, rfl, rfl⟩ := ih (Nat.succ.inj hentries) (Nat.succ.inj hitems)
    exact ⟨⟨p, entry, item⟩ :: work, rfl, rfl, rfl⟩

theorem readEnd_counts {docs : Documents} {manifest : Manifest} {r : Reader} {summary : Summary}
    (h : readEnd docs manifest r = .ok summary) :
    summary.trailer.files.length = summary.manifest.files.length := by
  unfold readEnd at h
  split at h
  · cases h
  split at h
  · cases h
  split at h
  · cases h
  split at h
  · cases h
  rename_i hcounts
  dsimp only at h
  split at h
  · cases h
  split at h
  · cases h
  · obtain rfl := Except.ok.inj h
    exact not_not.mp hcounts

/-- An archive that verifies counts as many files as it describes. -/
theorem verify_counts {docs : Documents} {source : Feed UInt8 IoError} {summary : Summary}
    (h : verify docs source = .ok summary) :
    summary.trailer.files.length = summary.manifest.files.length := by
  unfold verify read at h
  split at h
  · cases h
  split at h
  · cases h
  split at h
  · cases h
  split at h
  · cases h
  split at h
  · cases h
  · exact readEnd_counts h

/-- An import that reports success has made every file of its archive what the archive says it is,
where the files are ordinary ones, what is there of them can be removed, and no file of the archive
is in the way of another. -/
theorem import_restores {docs : Documents} {services : Services} {c c' : Catalogue}
    {first second : Feed UInt8 IoError} {plan : ImportPlan} {report : ImportReport}
    (hclean : c.Clean)
    (hnamed : ∀ a n, Restores docs first plan a n → Ordinary a n ∧ c.remains a n = false)
    (hremoved : ∀ index, (services.file index).removal = .removed)
    (hcontent : second.content = first.content) (hfailure : second.failure = first.failure)
    (hdry : plan.dryRun = false)
    (himport : importArchive docs services c first second plan = (.ok report, c')) :
    ∃ work, IsWork docs first report work ∧
      (work.Pairwise (Work.Apart c') → ∀ w ∈ work, w.Done c c') := by
  obtain ⟨summary, files, created, c₁, again, st, hverify, hplan, hcreate, hpass, -, rfl, rfl⟩ :=
    (importArchive_ok_iff hdry).mp himport
  obtain ⟨items, hitems, happlied⟩ := read_applied hverify
  have hfiles : files.length = summary.manifest.files.length := by
    rw [(importPlan_ok hplan).1, List.length_map, Summary.files, List.length_zip,
      verify_counts hverify, Nat.min_self]
  obtain ⟨work, hplanned, hentries, rfl⟩ :=
    exists_work files hfiles.symm (hitems.trans hfiles.symm)
  refine ⟨work, ⟨hplanned, hentries, fun buffer hbuffer => ?_⟩, fun hapart => ?_⟩
  · rw [happlied (collect_applies hbuffer) [] first rfl rfl, applyAll_collect]
    rfl
  subst hplanned
  have hname : ∀ w ∈ work, Restores docs first plan w.planned.account w.planned.name :=
    fun w hw => restores_of_targets hverify hplan ⟨w.planned, List.mem_map_of_mem hw, rfl, rfl⟩
  have hrun := happlied (Restore.sink_applies (work.map Work.planned) services.file) { db := c₁ }
    second hcontent hfailure
  rw [hpass, ← hentries] at hrun
  rcases hall : applyAll (Restore.step (work.map Work.planned) services.file) { db := c₁ }
      (deliveries 0 (work.map Work.entry) (work.map Work.items)) with ⟨outcome, st'⟩
  rw [hall] at hrun
  obtain ⟨hok, rfl⟩ := Prod.mk.inj hrun
  cases outcome with
  | error e => cases hok
  | ok u =>
    exact done_of_pass hclean (fun w hw => (hnamed _ _ (hname w hw)).1)
      (fun w hw => (hnamed _ _ (hname w hw)).2) hremoved hcreate hpass hall hapart

section

theorem willing_willing : willing.Willing where
  account _ := ⟨rfl, rfl, rfl, rfl, ⟨rfl, rfl, rfl⟩, rfl⟩
  file _ := ⟨rfl, ⟨⟨rfl, rfl, rfl⟩, rfl, rfl⟩, fun _ => rfl, fun _ => rfl, fun _ => rfl, rfl,
    fun _ => ⟨rfl, rfl⟩⟩
  saved := rfl

/-- An account with one file, whose one record is empty. -/
def withNotes : Catalogue where
  storageDir := "db"
  accounts := [("SALES", "db/SALES")]
  attributes :=
    { tables := fun account name => decide (account = "SALES" ∧ (name = "DIR" ∨ name = "NOTES"))
      entries := fun _ _ => none
      cache := fun _ _ => none }
  tables := fun account name =>
    if account = "SALES" ∧ name = "NOTES" then { records := insertAll ∅ [("1", {})] } else {}
  maxRecordBytes := 1000
  log := Catalogue.thousand

theorem withNotes_clean : withNotes.Clean := by
  refine ⟨fun account name _ hnone _ => ?_, fun name => ?_⟩
  · simp only [withNotes, decide_eq_false_iff_not, not_and, not_or] at hnone ⊢
    exact if_neg fun h => (hnone h.1).2 h.2
  · simp [withNotes]

/-- A database with nothing in it but its log. -/
def newDatabase : Catalogue where
  storageDir := "restored"
  accounts := [("SYSTEM", "restored/SYSTEM")]
  attributes :=
    { tables := fun account name => decide (account = "SYSTEM" ∧ (name = "DIR" ∨ name = "$LOGS"))
      entries := fun _ _ => none
      cache := fun _ _ => none }
  tables := fun _ _ => {}
  maxRecordBytes := 1000
  log := Catalogue.thousand

theorem newDatabase_clean : newDatabase.Clean := by
  refine ⟨fun _ _ _ _ _ => rfl, fun name => ?_⟩
  simp [newDatabase]

theorem newDatabase_loggable : Loggable newDatabase := by
  rw [Loggable]
  decide +kernel

theorem notes_ordinary : Ordinary "SALES" "NOTES" := ⟨by decide, by decide, by decide⟩

def notesListed (account : String) : List String :=
  if account = "SALES" then ["DIR", "NOTES"] else []

theorem withNotes_hasFile {a n : String} :
    withNotes.hasFile a n = true ↔ a = "SALES" ∧ (n = "DIR" ∨ n = "NOTES") := by
  by_cases ha : a = "SALES"
  · subst ha
    simp [Catalogue.hasFile, Catalogue.accountDir, withNotes]
  · simp [Catalogue.hasFile, withNotes, ha]

theorem withNotes_listed : Listed withNotes ["SALES"] notesListed := by
  refine ⟨⟨List.nodup_singleton _, fun a => ?_⟩, fun a => ⟨?_, fun n => ?_⟩⟩
  · by_cases ha : a = "SALES"
    · subst ha
      simp [Catalogue.accountDir, withNotes]
    · simp [Catalogue.accountDir, withNotes, ha, Ne.symm ha]
  · unfold notesListed
    split <;> decide
  · rw [withNotes_hasFile, notesListed]
    split <;> simp_all

/-- The notes are all that is exported. -/
theorem notes_place {a n : String} (h : Covers withNotes notesSource a n) :
    HasPlace newDatabase {} a n := by
  obtain ⟨⟨rfl, rfl⟩, -⟩ := h
  exact ⟨notes_ordinary, rfl, .inr (by decide)⟩

theorem oneNote_held : Held withNotes notesSource oneNote := by
  refine ⟨by decide +kernel, fun _ => ⟨by decide +kernel, by decide +kernel⟩, fun h => ?_⟩
  cases h

theorem oneNote_taken {bytes : Bytes}
    (h : exported notesDocuments 1 0 notesSource [oneNote] = .ok (trailerOf [oneNote], bytes)) :
    Taken notesDocuments 1 0 withNotes ["SALES"] notesListed notesSource [oneNote]
      (trailerOf [oneNote]) bytes where
  planned := by decide +kernel
  held f hf := by
    rw [List.mem_singleton.mp hf]
    exact oneNote_held
  written := h

/-- It goes into a new database. -/
theorem oneNote_imports {bytes : Bytes}
    (h : exported notesDocuments 1 0 notesSource [oneNote] = .ok (trailerOf [oneNote], bytes)) :
    ∃ report c', importArchive notesDocuments willing newDatabase (onePiece bytes)
        (onePiece bytes) {} = (.ok report, c') ∧
      report.summary = summaryOf 1 0 notesSource [oneNote] (trailerOf [oneNote]) bytes := by
  obtain ⟨report, c', himport, hsummary, -⟩ := taken_imports withNotes_clean withNotes_listed
    (oneNote_taken h) oneNote_readsBack oneNote_limits newDatabase_clean newDatabase_loggable le_rfl
    (show ({} : ImportPlan).intoAccount = none from rfl) rfl (fun _ _ => notes_place)
    willing_willing (content_onePiece bytes) (content_onePiece bytes) rfl
  exact ⟨report, c', himport, hsummary⟩

theorem oneNote_done : ∃ bytes report c' work,
    importArchive notesDocuments willing newDatabase (onePiece bytes) (onePiece bytes) {} =
      (.ok report, c') ∧
    IsWork notesDocuments (onePiece bytes) report work ∧
    work.map Work.entry = [oneNote.entry] ∧ ∀ w ∈ work, w.Done newDatabase c' := by
  obtain ⟨bytes, h⟩ := oneNote_exported
  obtain ⟨report, c', himport, hsummary⟩ := oneNote_imports h
  have hnamed : ∀ a n, Restores notesDocuments (onePiece bytes) {} a n →
      Ordinary a n ∧ newDatabase.remains a n = false := by
    intro a n hrestores
    obtain rfl := restores_oneNote h hrestores
    exact ⟨⟨by decide, by decide, fun hsystem => absurd hsystem.2 (by decide)⟩, rfl⟩
  obtain ⟨work, hwork, hdone⟩ :=
    import_restores newDatabase_clean hnamed (fun _ => rfl) rfl rfl rfl himport
  have hentries : work.map Work.entry = [oneNote.entry] := by
    rw [hwork.entries, hsummary]
    rfl
  obtain ⟨w, rfl, -⟩ := List.map_eq_singleton_iff.mp hentries
  exact ⟨bytes, report, c', [w], himport, hwork, hentries, hdone (List.pairwise_singleton _ _)⟩

end

section

variable {docs : Documents} {storageFormat takenMillis : Nat} {c c₂ c' : Catalogue}
  {accounts : List String} {listed : String → List String} {source : Source}
  {files : List Exported} {trailer : Trailer} {bytes : Bytes} {plan : ImportPlan}

/-- What is exported comes back. Wherever the files of an archive have a place, and the host does
what it is asked for, its import succeeds, and then every file that the export covered is there as
it was exported. -/
theorem backup_restores {services : Services} (hclean : c.Clean) (hlisted : Listed c accounts listed)
    (htaken : Taken docs storageFormat takenMillis c accounts listed source files trailer bytes)
    (hjson : docs.ReadsBack (manifestOf storageFormat takenMillis source files) trailer)
    (hlimits : WithinLimits docs (manifestOf storageFormat takenMillis source files) files)
    (hclean₂ : c₂.Clean) (hlog : Loggable c₂) (hroom : c.maxRecordBytes ≤ c₂.maxRecordBytes)
    (hinto : plan.intoAccount = none) (hdry : plan.dryRun = false)
    (hplaces : ∀ a n, Covers c source a n → HasPlace c₂ plan a n) (hwilling : services.Willing)
    {first second : Feed UInt8 IoError} (hfirst : first.content = bytes)
    (hsecond : second.content = bytes) (hfailure : second.failure = first.failure) :
    ∃ report c', importArchive docs services c₂ first second plan = (.ok report, c') ∧
      (Scattered c c' source →
        ∀ a n, Covers c source a n → Reproduced c source c₂ c' a n) := by
  obtain ⟨report, c', himport, -, hreproduced⟩ := taken_imports hclean hlisted htaken hjson hlimits
    hclean₂ hlog hroom hinto hdry hplaces hwilling hfirst hsecond hfailure
  refine ⟨report, c', himport, fun hscattered a n hcovered => ?_⟩
  obtain ⟨f, hf, rfl, rfl⟩ := ((htaken.covers hlisted).2 a n).mp hcovered
  exact hreproduced hscattered f hf

/-- The notes, taken from one database and put into a new one. -/
theorem oneNote_reproduced : ∃ bytes report c',
    exported notesDocuments 1 0 notesSource [oneNote] = .ok (trailerOf [oneNote], bytes) ∧
    importArchive notesDocuments willing newDatabase (onePiece bytes) (onePiece bytes) {} =
      (.ok report, c') ∧
    Reproduced withNotes notesSource newDatabase c' "SALES" "NOTES" := by
  obtain ⟨bytes, h⟩ := oneNote_exported
  obtain ⟨report, c', himport, hreproduced⟩ := backup_restores withNotes_clean withNotes_listed
    (oneNote_taken h) oneNote_readsBack oneNote_limits newDatabase_clean newDatabase_loggable le_rfl
    (show ({} : ImportPlan).intoAccount = none from rfl) rfl (fun _ _ => notes_place)
    willing_willing (content_onePiece bytes) (content_onePiece bytes) rfl
  refine ⟨bytes, report, c', h, himport, hreproduced ?_ "SALES" "NOTES" ⟨⟨rfl, rfl⟩, ?_, ?_⟩⟩
  · rintro a n b m ⟨⟨rfl, rfl⟩, -⟩ ⟨⟨rfl, rfl⟩, -⟩ hne
    exact absurd rfl hne
  · exact withNotes_hasFile.mpr ⟨rfl, .inr rfl⟩
  · decide

end

end Archive

end RustyPick
