import RustyPick.ArchiveApplied
import RustyPick.Catalogue

/-!
# RustyPick.Restore

Putting an archive back (`import` in `db/engine/archive.rs`): verify, plan, apply.

The first pass changes nothing, and neither does a plan. The second makes the files one after the
other as the archive comes to them, and what stops it half way leaves the ones before.

* `import_frame`: so what an import never touches, whatever it comes to.
-/

namespace RustyPick

open Lib Directory

namespace Archive

inductive FileAction where
  | created
  | replaced
  deriving DecidableEq, Repr

structure ImportedFile where
  account : String
  name : String
  action : FileAction
  records : Nat
  dictionary : Nat
  bytes : Nat
  deriving DecidableEq, Repr

structure ImportReport where
  summary : Summary
  files : List ImportedFile
  accountsCreated : List String
  dryRun : Bool

/-- `ImportReport::records`. -/
def ImportReport.records (report : ImportReport) : Nat :=
  (report.files.map ImportedFile.records).sum

/-- Sorted, and each once. -/
def distinctNames (names : List String) : List String :=
  (names.mergeSort fun a b => decide (a ≤ b)).dedup

/-- `Summary::files`. -/
def Summary.files (summary : Summary) : List (FileEntry × FileCounts) :=
  summary.manifest.files.zip summary.trailer.files

/-! ## The plan -/

/-- What would become of one file. -/
def plannedFile (c : Catalogue) (plan : ImportPlan) (file : FileEntry × FileCounts) :
    ImportedFile :=
  let account := plan.intoAccount.getD file.1.account
  { account := account
    name := file.1.name
    action := if c.hasFile account file.1.name then .replaced else .created
    records := file.2.records
    dictionary := file.2.dictionary
    bytes := file.2.bytes }

/-- `import_plan`: every file of the archive against the database as it is. -/
def importPlan (c : Catalogue) (summary : Summary) (plan : ImportPlan) :
    Except DbError (List ImportedFile) :=
  let accounts := distinctNames (summary.manifest.files.map FileEntry.account)
  if plan.intoAccount.isSome ∧ 1 < accounts.length then
    .error (.invalidRequest ("This archive holds " ++ toString accounts.length ++ " accounts (" ++
      ", ".intercalate accounts ++ "), so it cannot be restored into '" ++
      plan.intoAccount.getD "" ++ "'. Restore it as it is, or export one account at a time"))
  else
    let planned := summary.files.map (plannedFile c plan)
    let collisions := (planned.filter fun p => p.action = .replaced ∧ !plan.overwrite).map fun p =>
      p.account ++ "/" ++ p.name
    if collisions ≠ [] then
      .error (.invalidRequest ((if collisions.length = 1 then "This file is" else "These files are") ++
        " already there and OVERWRITE was not given, so nothing was imported: " ++
        ", ".intercalate collisions))
    else .ok planned

/-! ## The second pass -/

/-- A call of `log_error`: when it is made, whether `$LOGS` can be opened, and whether everything is
saved then. -/
structure Logging where
  time : ErrorLog.DateTime
  opened : Except DbError Unit := .ok ()
  saved : Except DbError Unit := .ok ()

/-- What the host does for one file of an archive: its deletion and its making, the staging, the
writing and the renaming of each record of a directory file, the table of another, and the log. -/
structure Service where
  removal : Removal := .removed
  creation : Creation := {}
  staging : Nat → Option IoError := fun _ => none
  writing : Nat → Option IoError := fun _ => none
  placing : Nat → Option IoError := fun _ => none
  opened : Except DbError Unit := .ok ()
  logging : Nat → Logging

/-- And for an import: what the accounts it makes, its files and the last save need. -/
structure Services where
  account : String → Registering := fun _ => {}
  file : Nat → Service
  saved : Except DbError Unit := .ok ()

/-- The file being restored. The records of a directory file are written as they come. -/
structure Pending where
  account : String
  name : String
  records : Option (Map String Record × Map String Record)
  indexes : List IndexEntry
  service : Service
  arrived : Nat := 0

structure Restore where
  db : Catalogue
  pending : Option Pending := none

def keepRecord (kind : RecordKind) (key : String) (bytes : Bytes)
    (kept : Map String Record × Map String Record) : Map String Record × Map String Record :=
  match kind with
  | .data => (kept.1.insert key (Record.fromBytes bytes), kept.2)
  | .dictionary => (kept.1, kept.2.insert key (Record.fromBytes bytes))

/-- `log_error`: one more record of `$LOGS`. -/
def logError (c : Catalogue) (logging : Logging) (account message : String) :
    Except DbError Unit × Catalogue :=
  if (c.accountDir "SYSTEM").isNone then (.error (.accountNotFound "SYSTEM"), c)
  else if !c.hasFile "SYSTEM" "$LOGS" then (.error (.fileNotFound "SYSTEM" "$LOGS"), c)
  else
    match logging.opened with
    | .error e => (.error e, c)
    | .ok () =>
      let t := c.tables "SYSTEM" "$LOGS"
      (logging.saved, c.withTable "SYSTEM" "$LOGS"
        { t.touchAll with
          records := ErrorLog.logError c.log t.records { time := logging.time, account, message } })

def notRebuilt (account name field : String) (e : DbError) : String :=
  "IMPORT: " ++ account ++ "/" ++ name ++ " restored, but its index on '" ++ field ++
    "' could not be rebuilt: " ++ e.text

/-- The indexes defined again. One that cannot be is logged and left out. -/
def restoreIndexes (account name : String) (logging : Nat → Logging) :
    Nat → Catalogue → List IndexEntry → Except DbError Unit × Catalogue
  | _, c, [] => (.ok (), c)
  | n, c, index :: rest =>
    match (c.tables account name).createIndexExcluding index.field index.excluded.toFinset with
    | .error e =>
      match logError c (logging n) account (notRebuilt account name index.field e) with
      | (.error e, c) => (.error e, c)
      | (.ok (), c) => restoreIndexes account name logging (n + 1) c rest
    | .ok t =>
      match t.rebuildIndex index.field with
      | .error e => (.error e, c.withTable account name t)
      | .ok t => restoreIndexes account name logging (n + 1) (c.withTable account name t) rest

namespace Restore

def beginFile (files : List ImportedFile) (services : Nat → Service) (st : Restore) (index : Nat)
    (entry : FileEntry) : Except DbError Unit × Restore :=
  match files[index]? with
  | none => (.error (.invalidRequest "The archive changed while it was being read"), st)
  | some planned =>
    let (cleared, db) :=
      if planned.action = .replaced then
        st.db.deleteTable planned.account planned.name (services index).removal
      else (.ok (), st.db)
    match cleared with
    | .error e => (.error e, { st with db := db })
    | .ok () =>
      match db.createTableWith planned.account planned.name entry.attributes
          (services index).creation with
      | (.error e, db) => (.error e, { st with db := db })
      | (.ok (), db) =>
        (.ok (),
          { db := db
            pending := some
              { account := planned.account
                name := planned.name
                records := if entry.isDirectory then none else some (∅, ∅)
                indexes := entry.indexes
                service := services index } })

def outside : DbError := .invalidRequest "A record outside any file"

/-- A record of a directory file, all of which has arrived. -/
def commit (st : Restore) (pending : Pending) (key : String) (bytes : Bytes) (len : Nat) :
    Except DbError Unit × Restore :=
  let (outcome, dirs) := st.db.directories.commitDirectoryRecord pending.account pending.name key
    (some bytes) (pending.service.placing pending.arrived) bytes.length len
  (outcome,
    { db := { st.db with host := dirs.host }
      pending := some { pending with arrived := pending.arrived + 1 } })

/-- Where a record can be staged, and whether it can be written there. -/
def stageRecord (st : Restore) (pending : Pending) (key : String) (len : Nat) :
    Except DbError Unit :=
  match st.db.directories.stageDirectoryRecord (pending.service.staging pending.arrived)
      pending.account pending.name key len with
  | .error e => .error e
  | .ok _ =>
    match pending.service.writing pending.arrived with
    | some e => .error (.io e)
    | none => .ok ()

def record (st : Restore) (kind : RecordKind) (key : String) (len : Nat) :
    Reading UInt8 IoError (Except DbError Unit × Restore) :=
  match st.pending with
  | none => .done (.error outside, st)
  | some pending =>
    match pending.records with
    | some kept =>
      .toEnd CHUNK (fun bytes => (.ok (),
          { st with pending := some { pending with
              records := some (keepRecord kind key bytes kept) } }))
        (fun e => (.error (.io e), st)) (len + 1) []
    | none =>
      -- a write that fails does so before the end of the record, and no more of it is read
      match st.stageRecord pending key len with
      | .error e => .done (.error e, st)
      | .ok () =>
        .toEnd CHUNK (fun bytes => st.commit pending key bytes len)
          (fun e => (.error (.io e), st)) (len + 1) []

/-- A hashed file's records put in place, and its indexes made from them. -/
def install (db : Catalogue) (pending : Pending) (kept : Map String Record × Map String Record) :
    Except DbError Unit × Catalogue :=
  if (db.accountDir pending.account).isNone then (.error (.accountNotFound pending.account), db)
  else if !db.hasFile pending.account pending.name then
    (.error (.fileNotFound pending.account pending.name), db)
  else
    match pending.service.opened with
    | .error e => (.error e, db)
    | .ok () =>
      let t := { db.tables pending.account pending.name with records := kept.1, dictionary := kept.2 }
      restoreIndexes pending.account pending.name pending.service.logging 0
        (db.withTable pending.account pending.name t.markDictDirty.touchAll) pending.indexes

def endFile (st : Restore) : Except DbError Unit × Restore :=
  match st.pending with
  | none => (.ok (), st)
  | some pending =>
    match pending.records with
    | none => (.ok (), { st with pending := none })
    | some kept =>
      let (outcome, db) := install st.db pending kept
      (outcome, { db := db, pending := none })

/-- The sink of the second pass. -/
def sink (files : List ImportedFile) (services : Nat → Service) : Sink Restore where
  beginFile := beginFile files services
  record := fun st _ kind key len => st.record kind key len
  endFile := fun st _ => st.endFile

/-- A record, all of which has arrived. -/
def put (st : Restore) (item : Item) : Except DbError Unit × Restore :=
  match st.pending with
  | none => (.error outside, st)
  | some pending =>
    match pending.records with
    | some kept =>
      (.ok (),
        { st with pending := some { pending with
            records := some (keepRecord item.kind item.key item.bytes kept) } })
    | none =>
      match st.stageRecord pending item.key item.bytes.length with
      | .error e => (.error e, st)
      | .ok () => st.commit pending item.key item.bytes item.bytes.length

/-- What the second pass does with each thing it is given. -/
def step (files : List ImportedFile) (services : Nat → Service) (st : Restore) :
    Delivered → Except DbError Unit × Restore
  | .beginFile index entry => beginFile files services st index entry
  | .record _ item => st.put item
  | .endFile _ => st.endFile

theorem sink_applies (files : List ImportedFile) (services : Nat → Service) :
    (sink files services).Applies (step files services) where
  beginFile _ _ _ := rfl
  record st entry kind key len source hle := by
    have hlen : (source.content.take len).length = len := List.length_take_of_le hle
    have hend : ∀ (found : Bytes → Except DbError Unit × Restore)
        (failed : IoError → Except DbError Unit × Restore),
        ((Reading.toEnd CHUNK found failed (len + 1) []).run len source).1 =
          found (source.content.take len) := by
      intro found failed
      rw [Reading.toEnd_run (by decide) found failed _ _ _ _ (Nat.lt_succ_self _) hle,
        List.nil_append]
    simp only [sink, step, record, put, hlen]
    cases st.pending with
    | none => rfl
    | some pending =>
      dsimp only
      cases pending.records with
      | some kept => exact hend _ _
      | none =>
        dsimp only
        cases st.stageRecord pending key len with
        | error e => rfl
        | ok u => exact hend _ _
  endFile _ _ := rfl

end Restore

/-! ## An import -/

/-- The accounts that are not there yet. -/
def createAccounts (registering : String → Registering) :
    Catalogue → List String → Except DbError (List String) × Catalogue
  | c, [] => (.ok [], c)
  | c, account :: rest =>
    if (c.accountDir account).isSome then createAccounts registering c rest
    else
      match c.createAccount account none (registering account) with
      | (.error e, c) => (.error e, c)
      | (.ok (), c) =>
        match createAccounts registering c rest with
        | (.error e, c) => (.error e, c)
        | (.ok created, c) => (.ok (account :: created), c)

/-- `import`, over what its two reads of the path give. A path that cannot be opened gives nothing
but the failure. -/
def importArchive (docs : Documents) (services : Services) (c : Catalogue)
    (first second : Feed UInt8 IoError) (plan : ImportPlan) :
    Except DbError ImportReport × Catalogue :=
  match verify docs first with
  | .error e => (.error e, c)
  | .ok summary =>
    match importPlan c summary plan with
    | .error e => (.error e, c)
    | .ok files =>
      if plan.dryRun then
        (.ok { summary, files, accountsCreated := [], dryRun := true }, c)
      else
        match createAccounts services.account c
            (distinctNames (files.map ImportedFile.account)) with
        | (.error e, c) => (.error e, c)
        | (.ok accountsCreated, c) =>
          match read docs (Restore.sink files services.file) { db := c } second with
          | (.error e, st) => (.error e, st.db)
          | (.ok _, st) =>
            match services.saved with
            | .error e => (.error e, st.db)
            | .ok () => (.ok { summary, files, accountsCreated, dryRun := false }, st.db)

/-- An import that reports success has come to the end of both passes, and of everything between
them. -/
theorem importArchive_ok_iff {docs : Documents} {services : Services} {c c' : Catalogue}
    {first second : Feed UInt8 IoError} {plan : ImportPlan} {report : ImportReport}
    (hdry : plan.dryRun = false) :
    importArchive docs services c first second plan = (.ok report, c') ↔
      ∃ summary files created c₁ again st, verify docs first = .ok summary ∧
        importPlan c summary plan = .ok files ∧
        createAccounts services.account c (distinctNames (files.map ImportedFile.account)) =
          (.ok created, c₁) ∧
        read docs (Restore.sink files services.file) { db := c₁ } second = (.ok again, st) ∧
        services.saved = .ok () ∧ report = ⟨summary, files, created, false⟩ ∧ c' = st.db := by
  constructor
  · intro h
    unfold importArchive at h
    cases hverify : verify docs first with
    | error e => simp [hverify] at h
    | ok summary =>
      cases hplan : importPlan c summary plan with
      | error e => simp [hverify, hplan] at h
      | ok files =>
        simp only [hverify, hplan, hdry, Bool.false_eq_true, if_false] at h
        rcases hcreate : createAccounts services.account c
          (distinctNames (files.map ImportedFile.account)) with ⟨outcome, c₁⟩
        cases outcome with
        | error e => simp [hcreate] at h
        | ok created =>
          rw [hcreate] at h
          dsimp only at h
          rcases hread : read docs (Restore.sink files services.file) { db := c₁ } second with
            ⟨outcome, st⟩
          cases outcome with
          | error e => simp [hread] at h
          | ok again =>
            rw [hread] at h
            dsimp only at h
            cases hsaved : services.saved with
            | error e => simp [hsaved] at h
            | ok u =>
              rw [hsaved] at h
              obtain ⟨hreport, hdb⟩ := Prod.mk.inj h
              exact ⟨summary, files, created, c₁, again, st, rfl, hplan, hcreate, hread, rfl,
                (Except.ok.inj hreport).symm, hdb.symm⟩
  · rintro ⟨summary, files, created, c₁, again, st, hverify, hplan, hcreate, hread, hsaved, rfl, rfl⟩
    rw [importArchive, hverify]
    dsimp only
    rw [hplan, hdry]
    dsimp only
    rw [if_neg Bool.false_ne_true, hcreate]
    dsimp only
    rw [hread, hsaved]

/-! ## What an import leaves alone -/

theorem leadsInto_joinPath (dir name : String) : leadsInto dir (joinPath dir name) = true := by
  rw [leadsInto, joinPath, joinPath, List.isPrefixOf_iff_prefix]
  split
  · simp
  · simp only [String.toList_append]
    exact ⟨name.toList, by simp⟩

theorem attributes_of_directory {entry : FileEntry} (h : entry.isDirectory = true) :
    entry.attributes = { directory := some {} } := by
  have hkind : entry.kind = .directory := by simpa [FileEntry.isDirectory] using h
  rw [FileEntry.attributes, hkind]

/-- The files of a plan. -/
def Targets (files : List ImportedFile) (account name : String) : Prop :=
  ∃ p ∈ files, p.account = account ∧ p.name = name

/-- A directory file that points nowhere in particular has its records in its own directory. -/
def ownRoot (c : Catalogue) (account name : String) : String :=
  joinPath (c.fileDir account name) DEFAULT_RECORDS_DIR

theorem directoryRoot_own {c : Catalogue} {account name : String}
    (h : c.attributes.attributesOf account name = { directory := some {} }) :
    c.directories.directoryRoot account name = .ok (ownRoot c account name) := by
  have hpath : DirectoryPolicy.explicitPath {} = none := by decide +kernel
  have hattributes : c.directories.attributes account name = { directory := some {} } := h
  rw [Directories.directoryRoot, hattributes]
  dsimp only
  rw [Directories.directoryRootFrom, hpath]
  rfl

/-- All that the log touches is `$LOGS`, which is not counted. -/
theorem touches_logError (c : Catalogue) (logging : Logging) (account message : String) :
    Catalogue.Touches (fun _ _ => False) c (logError c logging account message).2 := by
  unfold logError
  split
  · exact .refl _ c
  split
  · exact .refl _ c
  cases logging.opened with
  | error e => exact .refl _ c
  | ok u =>
    refine ⟨rfl, rfl, rfl, fun a n _ => .of_tables (fun hnot => ?_) rfl rfl, fun _ _ => rfl⟩
    refine AttributeStore.put_of_ne _ _ _ _ fun heq => hnot ?_
    exact ⟨(Prod.mk.inj heq).1, (Prod.mk.inj heq).2⟩

theorem touches_restoreIndexes (account name : String) (logging : Nat → Logging)
    (indexes : List IndexEntry) : ∀ (n : Nat) (c : Catalogue),
    Catalogue.Touches (Catalogue.Only account name) c
      (restoreIndexes account name logging n c indexes).2 := by
  induction indexes with
  | nil => exact fun _ c => .refl _ c
  | cons index rest ih =>
    intro n c
    rw [restoreIndexes]
    cases (c.tables account name).createIndexExcluding index.field index.excluded.toFinset with
    | error e =>
      have hlog : Catalogue.Touches (Catalogue.Only account name) c
          (logError c (logging n) account (notRebuilt account name index.field e)).2 :=
        (touches_logError c (logging n) account _).mono fun _ _ hnot => hnot.elim
      dsimp only
      generalize logError c (logging n) account _ = logged at hlog
      obtain ⟨outcome, c'⟩ := logged
      cases outcome with
      | error e => exact hlog
      | ok u => exact hlog.trans (ih (n + 1) c')
    | ok t =>
      dsimp only
      cases t.rebuildIndex index.field with
      | error e => exact Catalogue.touches_withTable c account name t
      | ok t => exact (Catalogue.touches_withTable c account name t).trans (ih (n + 1) _)

namespace Restore

variable {files : List ImportedFile} {services : Nat → Service} {c : Catalogue} {st : Restore}

/-- Only the files of the plan have been touched. -/
def Framed (files : List ImportedFile) (c : Catalogue) (st : Restore) : Prop :=
  Catalogue.Touches (Targets files) c st.db

/-- And one of them is being restored. -/
structure Within (files : List ImportedFile) (c : Catalogue) (st : Restore) : Prop where
  framed : Framed files c st
  target : ∀ p, st.pending = some p → Targets files p.account p.name
  directory : ∀ p, st.pending = some p → p.records = none →
    st.db.attributes.attributesOf p.account p.name = { directory := some {} }

theorem Framed.touch {db : Catalogue} {account name : String} (h : Framed files c st)
    (htarget : Targets files account name)
    (htouches : Catalogue.Touches (Catalogue.Only account name) st.db db) (pending : Option Pending) :
    Framed files c { db := db, pending := pending } :=
  h.trans (htouches.mono fun a n hin => by rw [hin.1, hin.2]; exact htarget)

section

variable {entry : FileEntry} {index : Nat}

theorem beginFile_framed (hnames : ∀ p ∈ files, p.name ≠ "DIR") (h : Framed files c st) :
    Framed files c (beginFile files services st index entry).2 ∧
      ((beginFile files services st index entry).1 = .ok () →
        Within files c (beginFile files services st index entry).2) := by
  unfold beginFile
  split
  · exact ⟨h, by rintro ⟨⟩⟩
  rename_i p hp
  have hmem := List.mem_of_getElem? hp
  have htarget : Targets files p.account p.name := ⟨p, hmem, rfl, rfl⟩
  have hname := hnames p hmem
  generalize hcleared : (if p.action = .replaced then
    st.db.deleteTable p.account p.name (services index).removal else (.ok (), st.db)) = cleared
  have hdeleted : Framed files c { st with db := cleared.2 } := by
    rw [← hcleared]
    split
    · exact h.touch htarget
        (Catalogue.touches_deleteTable st.db p.account hname (services index).removal) st.pending
    · exact h
  clear hcleared
  obtain ⟨outcome, db⟩ := cleared
  cases outcome with
  | error e => exact ⟨hdeleted, by rintro ⟨⟩⟩
  | ok u =>
    dsimp only at hdeleted ⊢
    have htouches := Catalogue.touches_createTableWith db p.account entry.attributes
      (services index).creation hname
    rcases hcreate : db.createTableWith p.account p.name entry.attributes
      (services index).creation with ⟨outcome, db'⟩
    rw [hcreate] at htouches
    cases outcome with
    | error e => exact ⟨hdeleted.touch htarget htouches st.pending, by rintro ⟨⟩⟩
    | ok u =>
      have hframed := fun pending => hdeleted.touch htarget htouches pending
      refine ⟨hframed _, fun _ => ⟨hframed _, fun q hq => ?_, fun q hq hnone => ?_⟩⟩
      · obtain rfl := Option.some.inj hq
        exact htarget
      · obtain rfl := Option.some.inj hq
        have hdirectory : entry.isDirectory = true := by
          by_contra hhashed
          simp [hhashed] at hnone
        have hcarried := (Catalogue.createTableWith_ok hcreate).carried
        rw [attributes_of_directory hdirectory, if_pos (by decide)] at hcarried
        exact hcarried

theorem commit_within {pending : Pending} (h : Within files c st)
    (hpending : st.pending = some pending) (hnone : pending.records = none) (key : String)
    (bytes : Bytes) (len : Nat) : Within files c (st.commit pending key bytes len).2 := by
  have hroot := directoryRoot_own (h.directory pending hpending hnone)
  have hcommit : ∃ host, (st.commit pending key bytes len).2 =
      { db := { st.db with host := host }
        pending := some { pending with arrived := pending.arrived + 1 } } ∧
      ∀ path, path ≠ ownRoot st.db pending.account pending.name → host path = st.db.host path := by
    unfold commit Directories.commitDirectoryRecord
    rw [hroot]
    dsimp only
    rcases commitStaged_spec st.db.directories.host (ownRoot st.db pending.account pending.name) key
      (some bytes) (pending.service.placing pending.arrived) bytes.length len with
      ⟨b, -, -, -, heq⟩ | ⟨-, hsame⟩
    · rw [heq]
      exact ⟨_, rfl, fun path hpath => Function.update_of_ne hpath _ _⟩
    · rw [hsame]
      exact ⟨_, rfl, fun _ _ => rfl⟩
  obtain ⟨host, heq, hhost⟩ := hcommit
  rw [heq]
  have htouches : Catalogue.Touches (Catalogue.Only pending.account pending.name) st.db
      { st.db with host := host } := by
    refine ⟨rfl, rfl, rfl, fun a n _ => .of_tables (fun _ => rfl) rfl rfl,
      fun path hpath => hhost path ?_⟩
    rintro rfl
    have hinto := leadsInto_joinPath (st.db.fileDir pending.account pending.name) DEFAULT_RECORDS_DIR
    rw [← ownRoot, hpath _ _ ⟨rfl, rfl⟩] at hinto
    cases hinto
  refine ⟨h.framed.touch (h.target pending hpending) htouches _, fun p hp => ?_, fun p hp _ => ?_⟩
  · obtain rfl := Option.some.inj hp
    exact h.target pending hpending
  · obtain rfl := Option.some.inj hp
    exact h.directory pending hpending hnone

theorem record_within (h : Within files c st) (kind : RecordKind) (key : String) (len : Nat)
    (source : Feed UInt8 IoError) : Within files c ((st.record kind key len).run len source).1.2 := by
  unfold record
  cases hpending : st.pending with
  | none => exact h
  | some pending =>
    dsimp only
    cases hrecords : pending.records with
    | some kept =>
      dsimp only
      rcases Reading.toEnd_result CHUNK (fun bytes => ((.ok () : Except DbError Unit),
          ({ st with pending := some { pending with
              records := some (keepRecord kind key bytes kept) } } : Restore)))
        (fun e : IoError => (.error (.io e), st)) (len + 1) len [] source with ⟨got, hrun⟩ | ⟨e, hrun⟩
      · rw [hrun]
        refine ⟨h.framed, fun p hp => ?_, fun p hp hnone => ?_⟩
        · obtain rfl := Option.some.inj hp
          exact h.target pending hpending
        · obtain rfl := Option.some.inj hp
          cases hnone
      · rw [hrun]
        exact h
    | none =>
      dsimp only
      cases st.stageRecord pending key len with
      | error e => exact h
      | ok u =>
        dsimp only
        rcases Reading.toEnd_result CHUNK (fun bytes => st.commit pending key bytes len)
          (fun e : IoError => (.error (.io e), st)) (len + 1) len [] source with
          ⟨got, hrun⟩ | ⟨e, hrun⟩
        · rw [hrun]
          exact commit_within h hpending hrecords key got len
        · rw [hrun]
          exact h

theorem install_framed {pending : Pending} (h : Framed files c st)
    (htarget : Targets files pending.account pending.name)
    (kept : Map String Record × Map String Record) (pending' : Option Pending) :
    Framed files c { db := (install st.db pending kept).2, pending := pending' } := by
  unfold install
  split
  · exact h
  split
  · exact h
  cases pending.service.opened with
  | error e => exact h
  | ok u =>
    exact h.touch htarget ((Catalogue.touches_withTable st.db pending.account pending.name _).trans
      (touches_restoreIndexes pending.account pending.name _ pending.indexes 0 _)) pending'

theorem endFile_framed (h : Within files c st) : Framed files c st.endFile.2 := by
  unfold endFile
  split
  · exact h.framed
  rename_i pending hpending
  split
  · exact h.framed
  · rename_i kept _
    exact install_framed h.framed (h.target pending hpending) kept none

end

theorem sink_keeps (services : Nat → Service) (c : Catalogue)
    (hnames : ∀ p ∈ files, p.name ≠ "DIR") :
    (sink files services).Keeps (Framed files c) (Within files c) (Framed files c) where
  between _ h := h
  within _ h := h.framed
  beginFile _ _ _ h := beginFile_framed hnames h
  record _ _ kind key len source h := record_within h kind key len source
  endFile _ _ h := ⟨endFile_framed h, fun _ => endFile_framed h⟩

end Restore

theorem createAccounts_registers (registering : String → Registering) (names : List String) :
    ∀ c : Catalogue, Catalogue.Registers c (createAccounts registering c names).2 ∧
      (c.Clean → (createAccounts registering c names).2.Clean) := by
  induction names with
  | nil => exact fun c => ⟨.refl c, id⟩
  | cons name rest ih =>
    intro c
    rw [createAccounts]
    split
    · exact ih c
    have hregisters := c.createAccount_registers name none (registering name)
    have hclean := fun hclean : c.Clean => hclean.createAccount name none (registering name)
    generalize c.createAccount name none (registering name) = created at hregisters hclean
    obtain ⟨outcome, c'⟩ := created
    cases outcome with
    | error e => exact ⟨hregisters, hclean⟩
    | ok u =>
      obtain ⟨hrest, hlast⟩ := ih c'
      dsimp only
      generalize createAccounts registering c' rest = made at hrest hlast
      obtain ⟨outcome, c''⟩ := made
      cases outcome <;> exact ⟨hregisters.trans hrest, hlast ∘ hclean⟩

/-- The files an import is about. -/
def Restores (docs : Documents) (source : Feed UInt8 IoError) (plan : ImportPlan)
    (account name : String) : Prop :=
  ∃ summary, verify docs source = .ok summary ∧ ∃ f ∈ summary.manifest.files,
    plan.intoAccount.getD f.account = account ∧ f.name = name

theorem importPlan_ok {c : Catalogue} {summary : Summary} {plan : ImportPlan}
    {files : List ImportedFile} (h : importPlan c summary plan = .ok files) :
    files = summary.files.map (plannedFile c plan) ∧
      ∀ p ∈ files, p.action = .replaced → plan.overwrite = true := by
  unfold importPlan at h
  dsimp only at h
  split at h
  · cases h
  split at h
  · cases h
  · rename_i hcollisions
    obtain rfl := Except.ok.inj h
    refine ⟨rfl, fun p hp haction => ?_⟩
    rw [ne_eq, not_not, List.map_eq_nil_iff, List.filter_eq_nil_iff] at hcollisions
    simpa [haction] using hcollisions p hp

theorem restores_of_targets {docs : Documents} {source : Feed UInt8 IoError} {plan : ImportPlan}
    {c : Catalogue} {summary : Summary} {files : List ImportedFile}
    (hverify : verify docs source = .ok summary) (hplan : importPlan c summary plan = .ok files)
    {account name : String} (h : Targets files account name) :
    Restores docs source plan account name := by
  obtain ⟨p, hp, haccount, hname⟩ := h
  rw [(importPlan_ok hplan).1, List.mem_map] at hp
  obtain ⟨f, hf, rfl⟩ := hp
  exact ⟨summary, hverify, f.1, (List.of_mem_zip hf).1, haccount, hname⟩

/-- What is not named stays as it was. The listing of an account is not one of its files, `$ACCOUNTS`
is where a new account is noted, and `$LOGS` is where an index that cannot be rebuilt is. -/
structure Spares (named : String → String → Prop) (c c' : Catalogue) : Prop where
  files : ∀ a n, c.hasFile a n = true → n ≠ "DIR" → ¬named a n →
    ¬(a = "SYSTEM" ∧ (n = "$ACCOUNTS" ∨ n = "$LOGS")) → Catalogue.SameFile c c' a n
  host : ∀ path, (∀ a n, named a n → leadsInto (c'.fileDir a n) path = false) →
    c'.host path = c.host path

theorem Spares.refl (named : String → String → Prop) (c : Catalogue) : Spares named c c where
  files _ _ hthere _ _ hsystem := (Catalogue.Undisturbed.refl c _ _).sameFile (fun _ _ => id)
    (fun h => hsystem ⟨h.1, .inr h.2⟩) hthere
  host _ _ := rfl

/-- The accounts, and then the files. -/
theorem spares_of_touches {S named : String → String → Prop} {c c₁ c' : Catalogue}
    (hregisters : Catalogue.Registers c c₁) (htouches : Catalogue.Touches S c₁ c')
    (hsubset : ∀ a n, S a n → named a n) : Spares named c c' where
  files a n hthere hname hout hsystem := by
    have hundisturbed :=
      (hregisters.elsewhere a n hname fun h => hsystem ⟨h.1, .inl h.2⟩).trans
        (htouches.elsewhere a n fun hin => hout (hsubset a n hin))
    refine hundisturbed.sameFile (fun b d hd => ?_) (fun h => hsystem ⟨h.1, .inr h.2⟩) hthere
    rw [htouches.accountDir]
    exact hregisters.accounts b d hd
  host path hpath := by
    rw [htouches.host path fun a n hin => ?_, hregisters.host]
    rw [← htouches.fileDir]
    exact hpath a n (hsubset a n hin)

/-- Whatever an import comes to, refused, cut short by the archive, by the host or by a file it
cannot make, or done, and whether or not the path still holds what was verified: what it does not
name stays as it was, and one that stops before its second pass changes nothing. -/
theorem import_frame {docs : Documents} {c : Catalogue} {first : Feed UInt8 IoError}
    {plan : ImportPlan} (hordinary : ∀ a n, Restores docs first plan a n → Ordinary a n)
    (services : Services) (second : Feed UInt8 IoError) :
    ((∀ summary files, verify docs first = .ok summary → importPlan c summary plan = .ok files →
        plan.dryRun = true) → (importArchive docs services c first second plan).2 = c) ∧
    Spares (Restores docs first plan) c (importArchive docs services c first second plan).2 := by
  unfold importArchive
  cases hverify : verify docs first with
  | error e => exact ⟨fun _ => rfl, .refl _ c⟩
  | ok summary =>
    dsimp only
    cases hplan : importPlan c summary plan with
    | error e => exact ⟨fun _ => rfl, .refl _ c⟩
    | ok files =>
      dsimp only
      split
      · exact ⟨fun _ => rfl, .refl _ c⟩
      rename_i hdry
      refine ⟨fun hnot => absurd (hnot summary files rfl hplan) hdry, ?_⟩
      have hregisters := (createAccounts_registers services.account
        (distinctNames (files.map ImportedFile.account)) c).1
      have hsubset : ∀ a n, Targets files a n → Restores docs first plan a n :=
        fun a n h => restores_of_targets hverify hplan h
      generalize createAccounts services.account c
        (distinctNames (files.map ImportedFile.account)) = made at *
      obtain ⟨outcome, c₁⟩ := made
      cases outcome with
      | error e => exact spares_of_touches hregisters (.refl _ c₁) hsubset
      | ok created =>
        have hnames : ∀ p ∈ files, p.name ≠ "DIR" := fun p hp =>
          (hordinary _ _ (hsubset p.account p.name ⟨p, hp, rfl, rfl⟩)).notDir
        have hread := (Restore.sink_keeps services.file c₁ hnames).read docs
          { db := c₁ } second (Catalogue.Touches.refl _ c₁)
        dsimp only
        generalize read docs (Restore.sink files services.file) { db := c₁ } second = result at hread
        obtain ⟨outcome, st⟩ := result
        have hspares := spares_of_touches hregisters hread hsubset
        cases outcome with
        | error e => exact hspares
        | ok summary =>
          dsimp only
          cases services.saved <;> exact hspares

section

theorem length_utf8_one : (utf8 "1").length < 2 ^ 64 := by decide +kernel

/-- The notes with one record in them. -/
def oneNote : Exported := notes "1" length_utf8_one

theorem oneNote_exported : ∃ bytes,
    exported notesDocuments 1 0 notesSource [oneNote] = .ok (trailerOf [oneNote], bytes) :=
  notes_exported _ _

theorem oneNote_readsBack :
    notesDocuments.ReadsBack (manifestOf 1 0 notesSource [oneNote]) (trailerOf [oneNote]) :=
  notes_readsBack _ _

theorem oneNote_limits :
    WithinLimits notesDocuments (manifestOf 1 0 notesSource [oneNote]) [oneNote] := by
  refine ⟨fun f hf e he => ?_, fun md hmd => ?_, fun td htd => ?_⟩
  · rw [List.mem_singleton.mp hf] at he
    rw [List.mem_singleton.mp he]
    decide +kernel
  · cases hmd
    decide +kernel
  · cases htd
    decide +kernel

/-- The archive in one piece. -/
def onePiece (bytes : Bytes) : Feed UInt8 IoError := { pieces := [bytes] }

theorem content_onePiece (bytes : Bytes) : (onePiece bytes).content = bytes := by
  rw [onePiece, Feed.content, List.flatten_singleton]

theorem restores_oneNote {bytes : Bytes} {plan : ImportPlan} {account name : String}
    (h : exported notesDocuments 1 0 notesSource [oneNote] = .ok (trailerOf [oneNote], bytes))
    (hrestores : Restores notesDocuments (onePiece bytes) plan account name) : name = "NOTES" := by
  have hverify := verify_of_read (accepted_of_withinLimits h oneNote_readsBack oneNote_limits
    Nat.one_pos (content_onePiece bytes))
  obtain ⟨summary, hsummary, f, hf, -, rfl⟩ := hrestores
  obtain rfl := Except.ok.inj (hsummary.symm.trans hverify)
  rw [List.mem_singleton.mp hf]
  rfl

/-- A host that does all that it is asked for. -/
def willing : Services where
  file := fun _ => { logging := fun _ => { time := ErrorLog.started 0 (by decide) } }

/-- Another file, after an import whose archive was gone by the second pass. -/
theorem jobs_spared : ∃ bytes,
    exported notesDocuments 1 0 notesSource [oneNote] = .ok (trailerOf [oneNote], bytes) ∧
    Catalogue.SameFile Catalogue.withJobs
      (importArchive notesDocuments willing Catalogue.withJobs (onePiece bytes) (onePiece []) {}).2
      "SALES" "JOBS" := by
  obtain ⟨bytes, h⟩ := oneNote_exported
  have hordinary : ∀ a n, Restores notesDocuments (onePiece bytes) {} a n → Ordinary a n := by
    intro a n hrestores
    obtain rfl := restores_oneNote h hrestores
    exact ⟨by decide, by decide, fun hsystem => absurd hsystem.2 (by decide)⟩
  obtain ⟨-, hspares⟩ := import_frame (c := Catalogue.withJobs) hordinary willing (onePiece [])
  refine ⟨bytes, h, hspares.files "SALES" "JOBS" (by decide +kernel) (by decide) ?_ ?_⟩
  · exact fun hnamed => absurd (restores_oneNote h hnamed) (by decide)
  · exact fun hsystem => absurd hsystem.1 (by decide)

end

end Archive

end RustyPick
