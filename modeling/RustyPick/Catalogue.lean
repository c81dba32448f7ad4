import RustyPick.DirRebuilt
import RustyPick.Directory
import RustyPick.ErrorLog

/-!
# RustyPick.Catalogue

The files of a database (`db/engine/mod.rs`): how accounts and files are made and deleted, over what
`DIR` says of them and over what they hold.

A file that is made is not cleared: its directory is made where there is none, and holds nothing
because nothing is left of a file that was deleted, unless the host did not let it be removed. `DIR`
does keep the entry of a deleted file, until it is written again.

* `created_anew`: so a file made after any run is empty, and carries what was asked for, unless that
  is nothing in particular and something was left of a file of its name.
-/

namespace RustyPick

open Lib Directory

/-- The registry of the accounts, what is known of their files, what each file holds, and the host's
directories. What the `DIR` of an account holds is in `attributes`. Files go by account and name,
which is by directory where the names are plain and no two accounts share a directory. -/
structure Catalogue where
  storageDir : String
  /-- `accounts_config`: the names, and the directories. -/
  accounts : List (String × String) := []
  attributes : AttributeStore
  /-- The table in memory, or the one that a load would find, but for its queue and its counter. -/
  tables : String → String → Table
  /-- Whether the host has a directory of this name that is not listed: it could not be removed, or
  the file in it was not made to the end. -/
  remains : String → String → Bool := fun _ _ => false
  host : Host := fun _ => ∅
  maxRecordBytes : Nat
  durableWrites : Bool := false
  log : ErrorLog.Settings

def SYS_ACCOUNTS_PATH_IDX : Nat := 0

/-- Whether a path leads into a directory. -/
def leadsInto (dir path : String) : Bool := (joinPath dir "").toList.isPrefixOf path.toList

/-- The name of one directory in that of an account, and not of a hidden one. -/
def Plain (name : String) : Prop :=
  name ≠ "" ∧ '/' ∉ name.toList ∧ name.toList.head? ≠ some '.'

instance (name : String) : Decidable (Plain name) :=
  inferInstanceAs (Decidable (name ≠ "" ∧ '/' ∉ name.toList ∧ name.toList.head? ≠ some '.'))

/-- A file that the engine keeps nothing of its own in. -/
structure Ordinary (account name : String) : Prop where
  plain : Plain name
  notDir : name ≠ "DIR"
  notSystem : ¬(account = "SYSTEM" ∧ name.toList.head? = some '$')

theorem Ordinary.not_logs {account name : String} (h : Ordinary account name) :
    ¬(account = "SYSTEM" ∧ name = "$LOGS") := by
  rintro ⟨rfl, rfl⟩
  exact h.notSystem ⟨rfl, by decide⟩

theorem Ordinary.not_accounts {account name : String} (h : Ordinary account name) :
    ¬(account = "SYSTEM" ∧ name = "$ACCOUNTS") := by
  rintro ⟨rfl, rfl⟩
  exact h.notSystem ⟨rfl, by decide⟩

/-! ## What the host does -/

/-- What `remove_dir_all` comes to. Where it fails, any part of the directory may be left: the table
that a load would find, and the host's files in it. -/
inductive Removal where
  | removed
  | failed (left : Table) (host : Host)

/-- How far `DIR` is brought up to date with a file that is made. -/
inductive Listing where
  | written
  /-- It is made, where there was none, and not filled. -/
  | begun
  | left

/-- The making of a file: its directory, the section in it, its `dict`, and `DIR`. Where something
was there already, `found` is what a load finds with the new `dict`. -/
structure Making where
  directory : Option IoError := none
  data : Option IoError := none
  dict : Option IoError := none
  found : Table := {}
  listing : Listing := .written

/-- The making of a file with attributes: also the host directory of a directory file, the deletion
that undoes it, and `DIR` again. -/
structure Creation extends Making where
  root : Option IoError := none
  rollback : Removal := .removed
  upkeep : Upkeep := {}

/-- The making of an account: its directory, the registry, `$ACCOUNTS`, and `DIR`. -/
structure Registering where
  directory : Option IoError := none
  persisted : Option IoError := none
  opened : Except DbError Unit := .ok ()
  saved : Except DbError Unit := .ok ()
  making : Making := {}
  synced : Except DbError Unit := .ok ()

namespace AttributeStore

def relist (s : AttributeStore) (account : String) : Listing → AttributeStore
  | .written => if s.tables account "DIR" then s.syncDir account else s.ensureDir account
  | .begun => if s.tables account "DIR" then s else s.emptyDir account
  | .left => s

/-- The file put into the listing, and `DIR` after it. -/
def enlist (s : AttributeStore) (account name : String) (listing : Listing) : AttributeStore :=
  if name = "DIR" then s.emptyDir account
  else { s with tables := put s.tables account name true }.relist account listing

end AttributeStore

namespace Catalogue

/-- `get_account_dir`. -/
def accountDir (c : Catalogue) (account : String) : Option String :=
  (c.accounts.find? fun a => a.1 = account).map Prod.snd

/-- `account_storage_dir`. -/
def accountStorageDir (c : Catalogue) (account : String) : String :=
  (c.accountDir account).getD c.storageDir

/-- The part of the database that the commands on directory files use. -/
def directories (c : Catalogue) : Directories where
  attributes := c.attributes.attributesOf
  storage := c.accountStorageDir
  host := c.host
  maxRecordBytes := c.maxRecordBytes

def fileDir (c : Catalogue) (account name : String) : String := c.directories.fileDir account name

/-- Whether the account's listing has the file. -/
def hasFile (c : Catalogue) (account name : String) : Bool :=
  (c.accountDir account).isSome && c.attributes.tables account name

def withTable (c : Catalogue) (account name : String) (t : Table) : Catalogue :=
  { c with tables := put c.tables account name t }

/-- A directory has been made, or was there, and the file in it has not been made. -/
def leave (c : Catalogue) (account name : String) : Catalogue :=
  if c.attributes.tables account name then c
  else { c with remains := put c.remains account name true }

/-- A new `dict` in a directory, which may have been there. -/
def truncateDict (c : Catalogue) (account name : String) (found : Table) : Catalogue :=
  if c.attributes.tables account name ∨ c.remains account name then c.withTable account name found
  else c

/-- `create_table_for_account`. The directory and what is in it come before the listing is looked
at. -/
def createTable (c : Catalogue) (account name : String) (making : Making) :
    Except DbError Unit × Catalogue :=
  if account = "" then (.error .noAccount, c)
  else if (c.accountDir account).isNone then (.error (.accountNotFound account), c)
  else
    match making.directory with
    | some e => (.error (.io e), c)
    | none =>
      match making.data.or making.dict with
      | some e => (.error (.io e), c.leave account name)
      | none =>
        let c := c.truncateDict account name making.found
        if c.attributes.tables account name then (.error (.fileExists account name), c)
        else
          -- that `DIR` cannot be written is passed over
          (.ok (),
            { c with
              attributes := c.attributes.enlist account name making.listing
              remains := put c.remains account name false })

/-- The directory of a file removed, as far as that goes. -/
def clear (c : Catalogue) (account name : String) : Removal → Catalogue
  | .removed =>
    { c.withTable account name {} with
      host := fun path => if leadsInto (c.fileDir account name) path then ∅ else c.host path }
  | .failed left host =>
    { c.withTable account name left with
      remains := put c.remains account name true
      host := fun path =>
        if leadsInto (c.fileDir account name) path then host path else c.host path }

/-- `delete_table_for_account`. That the directory cannot be removed is passed over. -/
def deleteTable (c : Catalogue) (account name : String) (removal : Removal) :
    Except DbError Unit × Catalogue :=
  if account = "" then (.error .noAccount, c)
  else if !c.hasFile account name then (.error (.fileNotFound account name), c)
  else
    (.ok (),
      { c.clear account name removal with attributes := c.attributes.deleteTable account name })

/-- `create_table_with`. -/
def createTableWith (c : Catalogue) (account name : String) (a : FileAttributes)
    (creation : Creation) : Except DbError Unit × Catalogue :=
  match c.createTable account name creation.toMaking with
  | (.error e, c) => (.error e, c)
  | (.ok (), c) =>
    match a.directory, creation.root with
    | some _, some e => (.error (.io e), (c.deleteTable account name creation.rollback).2)
    | _, _ =>
      if a ≠ {} then
        let (outcome, attributes) := c.attributes.setAttributes account name a creation.upkeep
        (outcome, { c with attributes := attributes })
      else (.ok (), c)

/-- `ensure_dir_file_for_account`. -/
def ensureDirFile (c : Catalogue) (account : String) (making : Making)
    (synced : Except DbError Unit) : Except DbError Unit × Catalogue :=
  if c.hasFile account "DIR" then (.ok (), c)
  else
    match c.createTable account "DIR" making with
    | (.error e, c) => (.error e, c)
    | (.ok (), c) =>
      match synced with
      | .error e => (.error e, c)
      | .ok () => (.ok (), { c with attributes := c.attributes.syncDir account })

/-- The record of an account in `$ACCOUNTS`. -/
def accountRecord (dir : String) : Record :=
  { fields := List.replicate SYS_ACCOUNTS_PATH_IDX {} ++ [{ values := [Value.text dir] }] }

/-- The account in `$ACCOUNTS`, where there is one. -/
def noteAccount (c : Catalogue) (name dir : String) (registering : Registering) :
    Except DbError Unit × Catalogue :=
  if c.hasFile "SYSTEM" "$ACCOUNTS" then
    match registering.opened with
    | .error e => (.error e, c)
    | .ok () =>
      (registering.saved, c.withTable "SYSTEM" "$ACCOUNTS"
        ((c.tables "SYSTEM" "$ACCOUNTS").insertRecord name (accountRecord dir)))
  else (.ok (), c)

/-- `create_account`. -/
def createAccount (c : Catalogue) (name : String) (directory : Option String)
    (registering : Registering) : Except DbError Unit × Catalogue :=
  if (c.accountDir name).isSome then (.error (.accountExists name), c)
  else
    let dir := directory.getD (c.storageDir ++ "/" ++ name)
    match registering.directory with
    | some e => (.error (.io e), c)
    | none =>
      let c := { c with accounts := c.accounts ++ [(name, dir)] }
      match registering.persisted with
      | some e => (.error (.io e), c)
      | none =>
        match c.noteAccount name dir registering with
        | (.error e, c) => (.error e, c)
        | (.ok (), c) => c.ensureDirFile name registering.making registering.synced

/-- What may happen to the files. A file that is there may come to hold anything: it is edited, or it
is loaded again after its flush failed. -/
inductive Step : Catalogue → Catalogue → Prop where
  | createTable (c account) {name : String} (h : Plain name) (making) :
    Step c (Catalogue.createTable c account name making).2
  | createTableWith (c account) {name : String} (h : Plain name) (a creation) :
    Step c (Catalogue.createTableWith c account name a creation).2
  | deleteTable (c account) {name : String} (h : Plain name) (removal)
      (hdir : name = "DIR" → removal = .removed) :
    Step c (Catalogue.deleteTable c account name removal).2
  | createAccount (c name directory registering) :
    Step c (Catalogue.createAccount c name directory registering).2
  | setFile (c : Catalogue) (account req readable upkeep) :
    Step c { c with attributes := (c.attributes.setFile account req readable upkeep).2 }
  | setAttributes (c : Catalogue) (account name a upkeep) :
    Step c { c with attributes := (c.attributes.setAttributes account name a upkeep).2 }
  | look (c : Catalogue) (account name readable) :
    Step c { c with attributes := (c.attributes.look account name readable).2 }
  | editDir (c : Catalogue) (account name record) :
    Step c { c with attributes :=
      { c.attributes with entries := put c.attributes.entries account name record } }
  | syncDir (c : Catalogue) (account) :
    Step c { c with attributes := c.attributes.syncDir account }
  | edit (c : Catalogue) {account name : String} (h : c.hasFile account name = true) (t : Table) :
    Step c (c.withTable account name t)
  /-- The account's directory is read again, and shows what was left of a file. -/
  | relist (c : Catalogue) {account name : String} (haccount : account ≠ "")
      (h : c.remains account name = true) :
    Step c { c with
      attributes := c.attributes.enlist account name .left
      remains := put c.remains account name false }
  | writeHost (c : Catalogue) (host : Host) : Step c { c with host := host }

/-- A file that is not there, and of which nothing was left, holds nothing; and nobody is
nameless. -/
structure Clean (c : Catalogue) : Prop where
  absent : ∀ account name, Plain name → c.attributes.tables account name = false →
    c.remains account name = false → c.tables account name = {}
  named : ∀ name, c.attributes.tables "" name = false

inductive Reachable : Catalogue → Prop where
  | opened (c : Catalogue) (h : c.Clean) : Reachable c
  | step {c c' : Catalogue} (h : Reachable c) (hstep : Step c c') : Reachable c'

end Catalogue

/-! ## What `DIR` says in the meantime -/

namespace AttributeStore

variable {s s' : AttributeStore} {account name : String} {a : FileAttributes}

theorem of_toRecord_of (record : Record) :
    FileAttributes.of (FileAttributes.of record).toRecord = FileAttributes.of record :=
  FileAttributes.of_toRecord (FileAttributes.stated_of record)

theorem of_toRecord_default : FileAttributes.of (FileAttributes.toRecord {}) = {} :=
  FileAttributes.of_toRecord
    ⟨fun _ h => (by cases h), fun _ h => (by cases h)⟩

theorem attributesOf_congr (hcache : s'.cache account name = s.cache account name)
    (hstored : s'.stored account name = s.stored account name) :
    s'.attributesOf account name = s.attributesOf account name := by
  rw [attributesOf, attributesOf, hcache, hstored]

/-- The listing written again says of every file that is there what it said. -/
theorem syncDir_stored (account a n : String) :
    (s.tables a n = true → (s.syncDir account).stored a n = s.stored a n) ∧
      ((s.syncDir account).stored a n = s.stored a n ∨ (s.syncDir account).stored a n = {}) := by
  by_cases ha : a = account
  · subst ha
    by_cases hn : n = "DIR"
    · simp [stored, hn]
    · cases hentry : s.entries a n with
      | none =>
        by_cases h : s.tables a n <;>
          simp [stored, syncDir, h, hn, hentry, of_toRecord_default]
      | some record =>
        by_cases h : s.tables a n <;> simp [stored, syncDir, h, hn, hentry, of_toRecord_of]
  · simp [stored, syncDir, ha]

/-- A `DIR` that is made says what the files carried without it. -/
theorem ensureDir_stored (account a n : String) : (s.ensureDir account).stored a n = s.stored a n := by
  unfold ensureDir
  split
  · rfl
  · rename_i hnone
    by_cases ha : a = account
    · subst ha
      by_cases hn : n = "DIR"
      · simp [stored, hn]
      · by_cases h : s.tables a n <;>
          simp [stored, syncDir, emptyDir, put, h, hn, hnone, of_toRecord_default]
    · simp [stored, syncDir, emptyDir, put, ha]

theorem ensureDir_cache (account : String) : (s.ensureDir account).cache = s.cache := by
  unfold ensureDir
  split <;> rfl

theorem put_true_iff (table : String → String → Bool) (account name a n : String) :
    put table account name true a n = true ↔ table a n = true ∨ a = account ∧ n = name := by
  unfold put
  split <;> simp_all

theorem ensureDir_tables (s : AttributeStore) (account a n : String) :
    (s.ensureDir account).tables a n = true ↔ s.tables a n = true ∨ a = account ∧ n = "DIR" := by
  unfold ensureDir
  split
  · rename_i h
    constructor
    · exact .inl
    · rintro (h' | ⟨rfl, rfl⟩)
      · exact h'
      · exact h
  · exact put_true_iff _ _ _ _ _

/-- A file is put into the listing, and its account's `DIR` with it. What was said of a file that is
not there may be dropped. -/
structure Made (s s' : AttributeStore) (account name : String) : Prop where
  kept : ∀ a n, s.tables a n = true → s'.tables a n = true
  there : s'.tables account name = true
  only : ∀ a n, s'.tables a n = true → s.tables a n = true ∨ a = account ∧ (n = name ∨ n = "DIR")
  cache : s'.cache = s.cache
  stored : ∀ a n, (s'.tables a n = true → s'.stored a n = s.stored a n) ∧
    (s'.stored a n = s.stored a n ∨ s'.stored a n = {})

theorem Made.attributesOf (h : s.Made s' account name) {a n : String} (hthere : s'.tables a n = true) :
    s'.attributesOf a n = s.attributesOf a n :=
  attributesOf_congr (by rw [h.cache]) ((h.stored a n).1 hthere)

theorem Made.named (h : s.Made s' account name)
    (haccount : account ≠ "") (hnamed : ∀ n, s.tables "" n = false) (n : String) :
    s'.tables "" n = false := by
  rw [Bool.eq_false_iff]
  intro hthere
  obtain hthere | ⟨rfl, -⟩ := h.only "" n hthere
  · rw [hnamed] at hthere
    cases hthere
  · exact haccount rfl

/-- A `DIR` that is made where there was none says nothing, and nothing was said before. -/
theorem emptyDir_stored (hnone : s.tables account "DIR" = false) (a n : String) :
    (s.emptyDir account).stored a n = s.stored a n := by
  by_cases ha : a = account
  · simp [stored, emptyDir, put, ha, hnone]
  · simp [stored, emptyDir, put, ha]

theorem enlist_made (hnone : s.tables account name = false) (listing : Listing) :
    s.Made (s.enlist account name listing) account name := by
  unfold enlist
  by_cases hisDir : name = "DIR"
  · subst hisDir
    rw [if_pos rfl]
    have htables : ∀ a n, (s.emptyDir account).tables a n = true ↔
        s.tables a n = true ∨ a = account ∧ n = "DIR" := put_true_iff _ _ _
    have hstored := emptyDir_stored hnone
    exact ⟨fun a n hthere => (htables a n).mpr (.inl hthere), (htables _ _).mpr (.inr ⟨rfl, rfl⟩),
      fun a n hthere => ((htables a n).mp hthere).imp_right fun h => ⟨h.1, .inl h.2⟩, rfl,
      fun a n => ⟨fun _ => hstored a n, .inl (hstored a n)⟩⟩
  rw [if_neg hisDir]
  have hput : ∀ a n, ({ s with tables := put s.tables account name true } :
      AttributeStore).stored a n = s.stored a n := by
    intro a n
    have hne : ¬ (a = account ∧ "DIR" = name) := fun h => hisDir h.2.symm
    simp [stored, put, hne]
  have hadd : ∀ a n, put s.tables account name true a n = true ↔
      s.tables a n = true ∨ a = account ∧ n = name := put_true_iff _ _ _
  generalize hs₁ : ({ s with tables := put s.tables account name true } : AttributeStore) = s₁
    at hput ⊢
  have htables : ∀ a n, s₁.tables a n = true ↔ s.tables a n = true ∨ a = account ∧ n = name := by
    rw [← hs₁]
    exact hadd
  have hcache : s₁.cache = s.cache := by rw [← hs₁]
  -- whatever becomes of `DIR`, it comes to this
  have of_dir : ∀ {s' : AttributeStore},
      (∀ a n, s'.tables a n = true ↔ s₁.tables a n = true ∨
        a = account ∧ n = "DIR" ∧ s'.tables account "DIR" = true) →
      s'.cache = s₁.cache →
      (∀ a n, (s'.tables a n = true → s'.stored a n = s₁.stored a n) ∧
        (s'.stored a n = s₁.stored a n ∨ s'.stored a n = {})) → s.Made s' account name := by
    intro s' hmore hsame hsaid
    refine ⟨fun a n hthere => (hmore a n).mpr (.inl ((htables a n).mpr (.inl hthere))),
      (hmore _ _).mpr (.inl ((htables _ _).mpr (.inr ⟨rfl, rfl⟩))), fun a n hthere => ?_,
      hsame.trans hcache, fun a n => ?_⟩
    · rcases (hmore a n).mp hthere with hthere | ⟨ha, hn, -⟩
      · exact ((htables a n).mp hthere).imp_right fun h => ⟨h.1, .inl h.2⟩
      · exact .inr ⟨ha, .inr hn⟩
    · rw [← hput a n]
      exact hsaid a n
  cases listing with
  | written =>
    dsimp only [relist]
    split
    · rename_i hhas
      refine of_dir (fun a n => ⟨.inl, ?_⟩) rfl fun a n => syncDir_stored (s := s₁) account a n
      rintro (hthere | ⟨rfl, rfl, -⟩)
      · exact hthere
      · exact hhas
    · refine of_dir (fun a n => ?_) (ensureDir_cache _) fun a n => ?_
      · rw [ensureDir_tables, ensureDir_tables]
        tauto
      · rw [ensureDir_stored]
        exact ⟨fun _ => rfl, .inl rfl⟩
  | begun =>
    dsimp only [relist]
    split
    · rename_i hhas
      refine of_dir (fun a n => ⟨.inl, ?_⟩) rfl fun a n => ⟨fun _ => rfl, .inl rfl⟩
      rintro (hthere | ⟨rfl, rfl, -⟩)
      · exact hthere
      · exact hhas
    · rename_i hhas
      have hstored := emptyDir_stored (Bool.eq_false_iff.mpr hhas)
      refine of_dir (fun a n => ?_) rfl fun a n => ⟨fun _ => hstored a n, .inl (hstored a n)⟩
      simp only [emptyDir, put_true_iff]
      tauto
  | left =>
    refine of_dir (fun a n => ⟨.inl, ?_⟩) rfl fun a n => ⟨fun _ => rfl, .inl rfl⟩
    rintro (hthere | ⟨rfl, rfl, hthere⟩)
    · exact hthere
    · exact hthere

/-- An entry written: what it says is what the file carries, and nothing else is said of the
others. -/
theorem setAttributes_ok {upkeep : Upkeep}
    (h : s.setAttributes account name a upkeep = (.ok (), s')) :
    (∀ a n, s'.tables a n = true ↔ s.tables a n = true ∨ a = account ∧ n = "DIR") ∧
      s'.attributesOf account name = a ∧
      ∀ a' n', (a', n') ≠ (account, name) →
        s'.cache a' n' = s.cache a' n' ∧ s'.stored a' n' = s.stored a' n' := by
  obtain ⟨e, heq⟩ | ⟨-, -, heq⟩ := s.setAttributes_cases account name a upkeep
  · rw [heq] at h
    cases h
  · rw [heq] at h
    obtain rfl := (Prod.mk.inj h).2
    refine ⟨s.ensureDir_tables account, write_self _ _ _ _, fun a' n' hne => ⟨?_, ?_⟩⟩
    · exact (put_of_ne _ _ _ _ hne).trans (by rw [ensureDir_cache])
    · rw [← s.ensureDir_stored account a' n']
      simp [stored, write, remember, put_of_ne _ _ _ _ hne]

theorem setFile_tables (s : AttributeStore) (account : Option String) (req : FileRequest)
    (readable : Bool) (upkeep : Upkeep) {a n : String} (h : s.tables a n = true) :
    (s.setFile account req readable upkeep).2.tables a n = true := by
  cases account with
  | none => exact h
  | some account =>
    cases hfile : req.file with
    | none =>
      simp only [setFile, hfile]
      exact h
    | some name =>
      obtain ⟨refusal, -, heq⟩ | ⟨refusal, -, heq⟩ | ⟨b, -, -, -, -, s', hs', heq⟩ :=
        s.setFile_cases account name req readable upkeep hfile
      · rw [heq]
        exact h
      · rw [heq, (s.look_frame account name readable).1]
        exact h
      · have hwritten : s'.tables a n = true := by
          rw [hs']
          refine (ensureDir_tables _ account a n).mpr (.inl ?_)
          rw [(s.look_frame account name readable).1]
          exact h
        rw [heq]
        cases upkeep.finished <;> exact hwritten

theorem setFile_named (hnamed : ∀ n, s.tables "" n = false) (account : Option String)
    (req : FileRequest) (readable : Bool) (upkeep : Upkeep) (n : String) :
    (s.setFile account req readable upkeep).2.tables "" n = false := by
  cases account with
  | none => exact hnamed n
  | some account =>
    cases hfile : req.file with
    | none =>
      simp only [setFile, hfile]
      exact hnamed n
    | some name =>
      have hlook := (s.look_frame account name readable).1
      obtain ⟨refusal, -, heq⟩ | ⟨refusal, -, heq⟩ | ⟨b, -, -, haccount, -, s', hs', heq⟩ :=
        s.setFile_cases account name req readable upkeep hfile
      · rw [heq]
        exact hnamed n
      · rw [heq, hlook]
        exact hnamed n
      · have hwritten : s'.tables "" n = false := by
          rw [hs', Bool.eq_false_iff]
          intro hthere
          obtain hthere | ⟨rfl, -⟩ := (ensureDir_tables _ account "" n).mp hthere
          · rw [hlook, hnamed] at hthere
            cases hthere
          · exact haccount rfl
        rw [heq]
        cases upkeep.finished <;> exact hwritten

theorem setAttributes_tables (s : AttributeStore) (account name : String) (b : FileAttributes)
    (upkeep : Upkeep) {a n : String} (h : s.tables a n = true) :
    (s.setAttributes account name b upkeep).2.tables a n = true := by
  obtain ⟨e, heq⟩ | ⟨-, -, heq⟩ := s.setAttributes_cases account name b upkeep
  · rw [heq]
    exact h
  · rw [heq]
    exact (ensureDir_tables s account a n).mpr (.inl h)

end AttributeStore

/-! ## What is left of a file -/

namespace Catalogue

open AttributeStore (put_self put_of_ne)

variable {c c' : Catalogue} {account name : String} {a : FileAttributes}

theorem hasFile_iff : c.hasFile account name = true ↔
    (c.accountDir account).isSome ∧ c.attributes.tables account name = true := by
  rw [hasFile, Bool.and_eq_true]

theorem truncateDict_attributes (c : Catalogue) (account name : String) (found : Table) :
    (c.truncateDict account name found).attributes = c.attributes := by
  unfold truncateDict
  split <;> rfl

/-- A file that is made, where nothing of it was there, holds nothing. -/
theorem truncateDict_of_nothing (hnone : c.attributes.tables account name = false)
    (hremains : c.remains account name = false) (found : Table) :
    c.truncateDict account name found = c := by
  unfold truncateDict
  rw [hnone, hremains]
  simp

/-- What the making of a file comes to. -/
inductive Makes (c : Catalogue) (account name : String) (making : Making) :
    Except DbError Unit × Catalogue → Prop where
  | refused (e : DbError) : Makes c account name making (.error e, c)
  /-- Its directory is there. -/
  | begun (e : DbError) : Makes c account name making (.error e, c.leave account name)
  /-- So is the file. -/
  | spoiled (e : DbError) (h : c.attributes.tables account name = true) :
    Makes c account name making (.error e, c.withTable account name making.found)
  | made (haccount : account ≠ "") (hregistered : (c.accountDir account).isSome)
      (hnone : c.attributes.tables account name = false) :
    Makes c account name making (.ok (), { c.truncateDict account name making.found with
      attributes := c.attributes.enlist account name making.listing
      remains := put c.remains account name false })

theorem createTable_makes (c : Catalogue) (account name : String) (making : Making) :
    Makes c account name making (c.createTable account name making) := by
  unfold createTable
  split
  · exact .refused _
  rename_i haccount
  split
  · exact .refused _
  rename_i hregistered
  have hregistered : (c.accountDir account).isSome := by
    simpa [Option.isSome_iff_ne_none] using hregistered
  cases making.directory with
  | some e => exact .refused _
  | none =>
    dsimp only
    cases making.data.or making.dict with
    | some e => exact .begun _
    | none =>
      dsimp only
      rw [truncateDict_attributes]
      cases hthere : c.attributes.tables account name with
      | true =>
        rw [if_pos rfl, truncateDict, hthere, if_pos (.inl rfl)]
        exact .spoiled _ hthere
      | false =>
        have hremains : (c.truncateDict account name making.found).remains = c.remains := by
          unfold truncateDict
          split <;> rfl
        rw [if_neg Bool.false_ne_true, hremains]
        exact .made haccount hregistered hthere

theorem createTable_ok {making : Making}
    (hcreate : c.createTable account name making = (.ok (), c')) :
    account ≠ "" ∧ (c.accountDir account).isSome ∧ c.attributes.tables account name = false ∧
      c' = { c.truncateDict account name making.found with
        attributes := c.attributes.enlist account name making.listing
        remains := put c.remains account name false } := by
  have hmakes := c.createTable_makes account name making
  rw [hcreate] at hmakes
  cases hmakes with
  | made haccount hregistered hnone => exact ⟨haccount, hregistered, hnone, rfl⟩

/-- The listing grows, and what is not in it is as it was. -/
theorem Clean.grow (h : c.Clean) {s' : AttributeStore}
    (htables : ∀ a n, c.attributes.tables a n = true → s'.tables a n = true)
    (hnamed : ∀ n, s'.tables "" n = false) : Clean { c with attributes := s' } where
  absent a n hplain hnone := by
    refine h.absent a n hplain ?_
    rw [Bool.eq_false_iff]
    intro hthere
    rw [htables a n hthere] at hnone
    cases hnone
  named := hnamed

/-- One file may be anything, where it is there or left behind. -/
theorem Clean.of_apart (h : c.Clean) (hnamed : ∀ n, c'.attributes.tables "" n = false)
    (hapart : ∀ a n, (a, n) ≠ (account, name) →
      c'.tables a n = c.tables a n ∧ c'.remains a n = c.remains a n ∧
        (c'.attributes.tables a n = false → c.attributes.tables a n = false))
    (hself : c'.attributes.tables account name = false → c'.remains account name = false →
      Plain name → c'.tables account name = {}) : c'.Clean where
  absent a n hplain hnone hremains := by
    by_cases hsame : (a, n) = (account, name)
    · obtain ⟨rfl, rfl⟩ := Prod.mk.inj hsame
      exact hself hnone hremains hplain
    · obtain ⟨htables, hsaid, hlisted⟩ := hapart a n hsame
      rw [htables]
      exact h.absent a n hplain (hlisted hnone) (hsaid ▸ hremains)
  named := hnamed

/-- The table of a file that is there may be any. -/
theorem Clean.withTable (h : c.Clean) (hthere : c.attributes.tables account name = true)
    (t : Table) : (c.withTable account name t).Clean := by
  refine h.of_apart h.named (fun a n hne => ⟨put_of_ne _ _ _ _ hne, rfl, id⟩) fun hnone => ?_
  rw [Catalogue.withTable, hthere] at hnone
  cases hnone

theorem Clean.leave (h : c.Clean) (account name : String) : (c.leave account name).Clean := by
  unfold Catalogue.leave
  split
  · exact h
  · refine h.of_apart h.named (fun a n hne => ⟨rfl, put_of_ne _ _ _ _ hne, id⟩)
      fun _ hremains => ?_
    dsimp only at hremains
    rw [put_self] at hremains
    cases hremains

theorem Clean.made (h : c.Clean) (haccount : account ≠ "")
    (hnone : c.attributes.tables account name = false) (making : Making) :
    Clean { c.truncateDict account name making.found with
      attributes := c.attributes.enlist account name making.listing
      remains := put c.remains account name false } := by
  have hmade := AttributeStore.enlist_made hnone making.listing
  refine h.of_apart (hmade.named haccount h.named) (fun a n hne => ⟨?_, put_of_ne _ _ _ _ hne, ?_⟩)
    fun hgone => ?_
  · dsimp only
    unfold truncateDict
    split
    · exact put_of_ne _ _ _ _ hne
    · rfl
  · intro hgone
    rw [Bool.eq_false_iff]
    intro hthere
    rw [hmade.kept a n hthere] at hgone
    cases hgone
  · rw [hmade.there] at hgone
    cases hgone

theorem Clean.createTable (h : c.Clean) (account name : String) (making : Making) :
    (c.createTable account name making).2.Clean := by
  have hmakes := c.createTable_makes account name making
  generalize c.createTable account name making = made at hmakes
  cases hmakes with
  | refused e => exact h
  | begun e => exact h.leave account name
  | spoiled e hthere => exact h.withTable hthere _
  | made haccount _ hnone => exact h.made haccount hnone making

theorem Clean.deleteTable (h : c.Clean) (account name : String) (removal : Removal) :
    (c.deleteTable account name removal).2.Clean := by
  unfold Catalogue.deleteTable
  split
  · exact h
  split
  · exact h
  have hnamed : ∀ n, (c.attributes.deleteTable account name).tables "" n = false := fun n =>
    AttributeStore.put_cases (P := fun there => there = false) rfl (h.named n)
  have hlisted : ∀ a n, (a, n) ≠ (account, name) →
      (c.attributes.deleteTable account name).tables a n = false →
        c.attributes.tables a n = false := fun a n hne hgone =>
    (put_of_ne _ _ _ _ hne).symm.trans hgone
  cases removal with
  | removed =>
    exact h.of_apart hnamed (fun a n hne => ⟨put_of_ne _ _ _ _ hne, rfl, hlisted a n hne⟩)
      fun _ _ _ => put_self _ _ _ _
  | failed left host =>
    refine h.of_apart hnamed (fun a n hne => ⟨put_of_ne _ _ _ _ hne, put_of_ne _ _ _ _ hne,
      hlisted a n hne⟩) fun _ hremains => ?_
    dsimp only [clear] at hremains
    rw [put_self] at hremains
    cases hremains

theorem Clean.setAttributes (h : c.Clean) (account name : String) (b : FileAttributes)
    (upkeep : Upkeep) :
    Clean { c with attributes := (c.attributes.setAttributes account name b upkeep).2 } := by
  refine h.grow (fun a n => c.attributes.setAttributes_tables account name b upkeep) fun n => ?_
  obtain ⟨e, heq⟩ | ⟨haccount, -, heq⟩ := c.attributes.setAttributes_cases account name b upkeep
  · rw [heq]
    exact h.named n
  · rw [heq, Bool.eq_false_iff]
    intro hthere
    obtain hthere | ⟨rfl, -⟩ := (c.attributes.ensureDir_tables account "" n).mp hthere
    · rw [h.named] at hthere
      cases hthere
    · exact haccount rfl

theorem Clean.createTableWith (h : c.Clean) (account name : String) (a : FileAttributes)
    (creation : Creation) : (c.createTableWith account name a creation).2.Clean := by
  have hmade := h.createTable account name creation.toMaking
  unfold Catalogue.createTableWith
  generalize c.createTable account name creation.toMaking = made at hmade
  obtain ⟨outcome, c'⟩ := made
  cases outcome with
  | error e => exact hmade
  | ok u =>
    dsimp only at hmade ⊢
    split
    · exact hmade.deleteTable account name creation.rollback
    · split
      · exact hmade.setAttributes account name a creation.upkeep
      · exact hmade

theorem Clean.ensureDirFile (h : c.Clean) (account : String) (making : Making)
    (synced : Except DbError Unit) : (c.ensureDirFile account making synced).2.Clean := by
  have hmade := h.createTable account "DIR" making
  unfold Catalogue.ensureDirFile
  split
  · exact h
  generalize c.createTable account "DIR" making = made at hmade
  obtain ⟨outcome, c'⟩ := made
  cases outcome with
  | error e => exact hmade
  | ok u =>
    cases synced with
    | error e => exact hmade
    | ok u => exact ⟨hmade.absent, hmade.named⟩

theorem Clean.noteAccount (h : c.Clean) (name dir : String) (registering : Registering) :
    (c.noteAccount name dir registering).2.Clean := by
  unfold Catalogue.noteAccount
  split
  · rename_i hthere
    cases registering.opened with
    | error e => exact h
    | ok u => exact h.withTable (hasFile_iff.mp hthere).2 _
  · exact h

theorem Clean.createAccount (h : c.Clean) (name : String) (directory : Option String)
    (registering : Registering) : (c.createAccount name directory registering).2.Clean := by
  unfold Catalogue.createAccount
  split
  · exact h
  dsimp only
  generalize directory.getD (c.storageDir ++ "/" ++ name) = dir
  have hregistered : Clean { c with accounts := c.accounts ++ [(name, dir)] } :=
    ⟨h.absent, h.named⟩
  cases registering.directory with
  | some e => exact h
  | none =>
    dsimp only
    cases registering.persisted with
    | some e => exact hregistered
    | none =>
      have hnoted := hregistered.noteAccount name dir registering
      dsimp only
      generalize Catalogue.noteAccount _ name dir registering = noted at hnoted
      obtain ⟨outcome, c'⟩ := noted
      cases outcome with
      | error e => exact hnoted
      | ok u => exact hnoted.ensureDirFile name registering.making registering.synced

theorem Clean.step (h : c.Clean) (hstep : Step c c') : c'.Clean := by
  cases hstep with
  | createTable account _ making => exact h.createTable account _ making
  | createTableWith account _ a creation => exact h.createTableWith account _ a creation
  | deleteTable account _ removal => exact h.deleteTable account _ removal
  | createAccount name directory registering => exact h.createAccount name directory registering
  | setFile account req readable upkeep =>
    refine h.grow (fun a n => c.attributes.setFile_tables account req readable upkeep) fun n => ?_
    exact (AttributeStore.setFile_named h.named account req readable upkeep) n
  | setAttributes account name a upkeep => exact h.setAttributes account name a upkeep
  | look account name readable =>
    have hframe := (c.attributes.look_frame account name readable).1
    refine h.grow (fun a n hthere => ?_) fun n => ?_
    · rw [hframe]
      exact hthere
    · rw [hframe]
      exact h.named n
  | editDir account name record => exact ⟨h.absent, h.named⟩
  | syncDir account => exact ⟨h.absent, h.named⟩
  | edit hthere t => exact h.withTable (hasFile_iff.mp hthere).2 t
  | @relist account name haccount hremains =>
    have hthere : (c.attributes.enlist account name .left).tables account name = true := by
      unfold AttributeStore.enlist
      split
      · rename_i hdir
        subst hdir
        exact put_self _ _ _ _
      · exact put_self _ _ _ _
    have hkept : ∀ a n, (a, n) ≠ (account, name) →
        (c.attributes.enlist account name .left).tables a n = c.attributes.tables a n := by
      intro a n hne
      unfold AttributeStore.enlist
      split
      · rename_i hdir
        subst hdir
        exact put_of_ne _ _ _ _ hne
      · exact put_of_ne _ _ _ _ hne
    refine h.of_apart (fun n => ?_) (fun a n hne => ⟨rfl, put_of_ne _ _ _ _ hne, fun hnone => ?_⟩)
      fun hgone => ?_
    · have hne : (("" : String), n) ≠ (account, name) := fun heq =>
        haccount (Prod.mk.inj heq).1.symm
      exact (hkept "" n hne).trans (h.named n)
    · exact (hkept a n hne).symm.trans hnone
    · rw [hthere] at hgone
      cases hgone
  | writeHost host => exact ⟨h.absent, h.named⟩

theorem Reachable.clean (h : c.Reachable) : c.Clean := by
  induction h with
  | opened c h => exact h
  | step _ hstep ih => exact ih.step hstep

/-! ## What a command leaves alone -/

/-- What is known of a file and what it holds stay as they are, but for what the log holds. The
listing may make a `DIR`, and drop what it said of a file that is not there. -/
structure Undisturbed (c c' : Catalogue) (account name : String) : Prop where
  tables : ¬(account = "SYSTEM" ∧ name = "$LOGS") → c'.tables account name = c.tables account name
  remains : c'.remains account name = c.remains account name
  listed : c.attributes.tables account name = true → c'.attributes.tables account name = true
  absent : name ≠ "DIR" → c.attributes.tables account name = false →
    c'.attributes.tables account name = false
  cache : c'.attributes.cache account name = c.attributes.cache account name
  stored : c.attributes.tables account name = true →
    c'.attributes.stored account name = c.attributes.stored account name
  dropped : c'.attributes.stored account name = c.attributes.stored account name ∨
    c'.attributes.stored account name = {}

theorem Undisturbed.refl (c : Catalogue) (account name : String) : Undisturbed c c account name :=
  ⟨fun _ => rfl, rfl, id, fun _ => id, rfl, fun _ => rfl, .inl rfl⟩

theorem Undisturbed.trans {c₁ c₂ c₃ : Catalogue} (h : Undisturbed c₁ c₂ account name)
    (h' : Undisturbed c₂ c₃ account name) : Undisturbed c₁ c₃ account name where
  tables hlog := (h'.tables hlog).trans (h.tables hlog)
  remains := h'.remains.trans h.remains
  listed hthere := h'.listed (h.listed hthere)
  absent hname hnone := h'.absent hname (h.absent hname hnone)
  cache := h'.cache.trans h.cache
  stored hthere := (h'.stored (h.listed hthere)).trans (h.stored hthere)
  dropped := by
    rcases h'.dropped with heq | hnone
    · rw [heq]
      exact h.dropped
    · exact .inr hnone

/-- Where the listing has not changed. -/
theorem Undisturbed.of_tables (htables : ¬(account = "SYSTEM" ∧ name = "$LOGS") →
      c'.tables account name = c.tables account name)
    (hremains : c'.remains = c.remains) (hattributes : c'.attributes = c.attributes) :
    Undisturbed c c' account name := by
  refine ⟨htables, by rw [hremains], ?_, fun _ => ?_, ?_, fun _ => ?_, .inl ?_⟩
  all_goals rw [hattributes]
  all_goals exact id

/-- Only these files are touched, and of the host's directories only theirs. -/
structure Touches (S : String → String → Prop) (c c' : Catalogue) : Prop where
  accounts : c'.accounts = c.accounts
  storageDir : c'.storageDir = c.storageDir
  limit : c'.maxRecordBytes = c.maxRecordBytes
  elsewhere : ∀ a n, ¬S a n → Undisturbed c c' a n
  host : ∀ path, (∀ a n, S a n → leadsInto (c.fileDir a n) path = false) →
    c'.host path = c.host path

variable {S : String → String → Prop}

theorem Touches.refl (S : String → String → Prop) (c : Catalogue) : Touches S c c :=
  ⟨rfl, rfl, rfl, fun a n _ => Undisturbed.refl c a n, fun _ _ => rfl⟩

theorem Touches.accountDir (h : Touches S c c') (a : String) : c'.accountDir a = c.accountDir a := by
  rw [Catalogue.accountDir, Catalogue.accountDir, h.accounts]

theorem Touches.fileDir (h : Touches S c c') (a n : String) : c'.fileDir a n = c.fileDir a n := by
  simp only [Catalogue.fileDir, directories, Directories.fileDir, accountStorageDir, h.accountDir,
    h.storageDir]

theorem Touches.trans {c₁ c₂ c₃ : Catalogue} (h : Touches S c₁ c₂) (h' : Touches S c₂ c₃) :
    Touches S c₁ c₃ where
  accounts := h'.accounts.trans h.accounts
  storageDir := h'.storageDir.trans h.storageDir
  limit := h'.limit.trans h.limit
  elsewhere a n hout := (h.elsewhere a n hout).trans (h'.elsewhere a n hout)
  host path hpath := by
    rw [h'.host path fun a n hin => by rw [h.fileDir]; exact hpath a n hin, h.host path hpath]

theorem Touches.mono {S' : String → String → Prop} (h : Touches S c c')
    (hsub : ∀ a n, S a n → S' a n) : Touches S' c c' where
  accounts := h.accounts
  storageDir := h.storageDir
  limit := h.limit
  elsewhere a n hout := h.elsewhere a n fun hin => hout (hsub a n hin)
  host path hpath := h.host path fun a n hin => hpath a n (hsub a n hin)

/-- One file. -/
def Only (account name : String) (a n : String) : Prop := a = account ∧ n = name

theorem ne_of_not_only {a n : String} (h : ¬Only account name a n) : (a, n) ≠ (account, name) := by
  rintro heq
  exact h (Prod.mk.inj heq)

/-- An edit of one file's table. -/
theorem touches_withTable (c : Catalogue) (account name : String) (t : Table) :
    Touches (Only account name) c (c.withTable account name t) where
  accounts := rfl
  storageDir := rfl
  limit := rfl
  elsewhere _ _ hout := .of_tables (fun _ => put_of_ne _ _ _ _ (ne_of_not_only hout)) rfl rfl
  host _ _ := rfl

theorem touches_truncateDict (c : Catalogue) (account name : String) (found : Table) :
    Touches (Only account name) c (c.truncateDict account name found) := by
  unfold truncateDict
  split
  · exact touches_withTable c account name found
  · exact .refl _ c

theorem touches_leave (c : Catalogue) (account name : String) :
    Touches (Only account name) c (c.leave account name) := by
  unfold leave
  split
  · exact .refl _ c
  · refine ⟨rfl, rfl, rfl, fun a n hout => ?_, fun _ _ => rfl⟩
    exact ⟨fun _ => rfl, put_of_ne _ _ _ _ (ne_of_not_only hout), id, fun _ => id, rfl, fun _ => rfl,
      .inl rfl⟩

theorem touches_made {s' : AttributeStore} (hmade : c.attributes.Made s' account name) :
    Touches (Only account name) c
      { c with attributes := s', remains := put c.remains account name false } where
  accounts := rfl
  storageDir := rfl
  limit := rfl
  elsewhere a n hout := by
    refine ⟨fun _ => rfl, put_of_ne _ _ _ _ (ne_of_not_only hout), hmade.kept a n,
      fun hname hnone => ?_, congrFun (congrFun hmade.cache a) n, fun hthere => ?_,
      (hmade.stored a n).2⟩
    · rw [Bool.eq_false_iff]
      intro hthere
      rcases hmade.only a n hthere with hthere | ⟨ha, hn | hn⟩
      · rw [hnone] at hthere
        cases hthere
      · exact hout ⟨ha, hn⟩
      · exact hname hn
    · exact (hmade.stored a n).1 (hmade.kept a n hthere)
  host _ _ := rfl

theorem touches_createTable (c : Catalogue) (account name : String) (making : Making) :
    Touches (Only account name) c (c.createTable account name making).2 := by
  have hmakes := c.createTable_makes account name making
  generalize c.createTable account name making = made at hmakes
  cases hmakes with
  | refused e => exact .refl _ c
  | begun e => exact touches_leave c account name
  | spoiled e hthere => exact touches_withTable c account name _
  | made _ _ hnone =>
    have htouches := touches_truncateDict c account name making.found
    have hsame := c.truncateDict_attributes account name making.found
    have hremains : (c.truncateDict account name making.found).remains = c.remains := by
      unfold truncateDict
      split <;> rfl
    generalize c.truncateDict account name making.found = c₁ at htouches hsame hremains
    rw [← hsame] at hnone ⊢
    rw [← hremains]
    exact htouches.trans (touches_made (AttributeStore.enlist_made hnone making.listing))

theorem clear_attributes (c : Catalogue) (account name : String) (removal : Removal) :
    (c.clear account name removal).attributes = c.attributes := by
  cases removal <;> rfl

theorem touches_clear (c : Catalogue) (account name : String) (removal : Removal) :
    Touches (Only account name) c (c.clear account name removal) := by
  cases removal with
  | removed =>
    refine ⟨rfl, rfl, rfl, fun a n hout => ?_, fun path hpath => ?_⟩
    · exact .of_tables (fun _ => put_of_ne _ _ _ _ (ne_of_not_only hout)) rfl rfl
    · exact if_neg (by simp [hpath account name ⟨rfl, rfl⟩])
  | failed left host =>
    refine ⟨rfl, rfl, rfl, fun a n hout => ?_, fun path hpath => ?_⟩
    · exact ⟨fun _ => put_of_ne _ _ _ _ (ne_of_not_only hout),
        put_of_ne _ _ _ _ (ne_of_not_only hout), id, fun _ => id, rfl, fun _ => rfl, .inl rfl⟩
    · exact if_neg (by simp [hpath account name ⟨rfl, rfl⟩])

/-- `DIR` is what says something of the others. -/
theorem touches_deleteTable (c : Catalogue) (account : String) (hname : name ≠ "DIR")
    (removal : Removal) : Touches (Only account name) c (c.deleteTable account name removal).2 := by
  unfold deleteTable
  split
  · exact .refl _ c
  split
  · exact .refl _ c
  have htouches := touches_clear c account name removal
  have hsame := c.clear_attributes account name removal
  generalize c.clear account name removal = c₁ at htouches hsame
  rw [← hsame]
  refine htouches.trans ⟨rfl, rfl, rfl, fun a n hout => ?_, fun _ _ => rfl⟩
  have hne := ne_of_not_only hout
  have hstored : (c₁.attributes.deleteTable account name).stored a n = c₁.attributes.stored a n := by
    have hdir : (a, "DIR") ≠ (account, name) := fun heq => hname (Prod.mk.inj heq).2.symm
    simp [AttributeStore.stored, AttributeStore.deleteTable, put_of_ne _ _ _ _ hdir]
  have hlisted : (c₁.attributes.deleteTable account name).tables a n = c₁.attributes.tables a n :=
    put_of_ne _ _ _ _ hne
  exact ⟨fun _ => rfl, rfl, fun h => hlisted.trans h, fun _ h => hlisted.trans h,
    put_of_ne _ _ _ _ hne, fun _ => hstored, .inl hstored⟩

theorem touches_setAttributes (c : Catalogue) (account name : String) (a : FileAttributes)
    (upkeep : Upkeep) : Touches (Only account name) c
      { c with attributes := (c.attributes.setAttributes account name a upkeep).2 } := by
  refine ⟨rfl, rfl, rfl, fun b n hout => ?_, fun _ _ => rfl⟩
  obtain ⟨e, heq⟩ | ⟨-, -, heq⟩ := c.attributes.setAttributes_cases account name a upkeep
  · rw [heq]
    exact .refl c b n
  · rw [heq]
    have hne := ne_of_not_only hout
    have htables := c.attributes.ensureDir_tables account b n
    have hstored : ((c.attributes.ensureDir account).write account name a).stored b n =
        c.attributes.stored b n := by
      rw [← c.attributes.ensureDir_stored account b n]
      simp [AttributeStore.stored, AttributeStore.write, AttributeStore.remember,
        put_of_ne _ _ _ _ hne]
    refine ⟨fun _ => rfl, rfl, fun h => htables.mpr (.inl h), fun hn hnone => ?_, ?_,
      fun _ => hstored, .inl hstored⟩
    · rw [Bool.eq_false_iff]
      intro hthere
      rcases htables.mp hthere with hthere | ⟨-, hn'⟩
      · rw [hnone] at hthere
        cases hthere
      · exact hn hn'
    · exact (put_of_ne _ _ _ _ hne).trans
        (congrFun (congrFun (AttributeStore.ensureDir_cache account) b) n)

theorem touches_createTableWith (c : Catalogue) (account : String) (a : FileAttributes)
    (creation : Creation) (hname : name ≠ "DIR") :
    Touches (Only account name) c (c.createTableWith account name a creation).2 := by
  have hmade := touches_createTable c account name creation.toMaking
  unfold Catalogue.createTableWith
  generalize c.createTable account name creation.toMaking = made at hmade
  obtain ⟨outcome, c'⟩ := made
  cases outcome with
  | error e => exact hmade
  | ok u =>
    dsimp only at hmade ⊢
    split
    · exact hmade.trans (touches_deleteTable c' account hname creation.rollback)
    · split
      · exact hmade.trans (touches_setAttributes c' account name a creation.upkeep)
      · exact hmade

/-- Accounts are registered: the ones there were stay, and of the files only `$ACCOUNTS` and the
listings are touched. -/
structure Registers (c c' : Catalogue) : Prop where
  accounts : ∀ a d, c.accountDir a = some d → c'.accountDir a = some d
  storageDir : c'.storageDir = c.storageDir
  limit : c'.maxRecordBytes = c.maxRecordBytes
  elsewhere : ∀ a n, n ≠ "DIR" → ¬Only "SYSTEM" "$ACCOUNTS" a n → Undisturbed c c' a n
  host : c'.host = c.host

theorem Registers.refl (c : Catalogue) : Registers c c :=
  ⟨fun _ _ => id, rfl, rfl, fun a n _ _ => .refl c a n, rfl⟩

theorem Registers.trans {c₁ c₂ c₃ : Catalogue} (h : Registers c₁ c₂) (h' : Registers c₂ c₃) :
    Registers c₁ c₃ where
  accounts a d hd := h'.accounts a d (h.accounts a d hd)
  storageDir := h'.storageDir.trans h.storageDir
  limit := h'.limit.trans h.limit
  elsewhere a n hname hout := (h.elsewhere a n hname hout).trans (h'.elsewhere a n hname hout)
  host := h'.host.trans h.host

theorem createTable_host (c : Catalogue) (account name : String) (making : Making) :
    (c.createTable account name making).2.host = c.host := by
  have htruncate : (c.truncateDict account name making.found).host = c.host := by
    unfold truncateDict
    split <;> rfl
  have hmakes := c.createTable_makes account name making
  generalize c.createTable account name making = made at hmakes
  cases hmakes with
  | refused e => rfl
  | begun e =>
    unfold leave
    split <;> rfl
  | spoiled e hthere => rfl
  | made _ _ hnone => exact htruncate

theorem undisturbed_syncDir (c : Catalogue) (account a n : String) :
    Undisturbed c { c with attributes := c.attributes.syncDir account } a n := by
  obtain ⟨hstored, hdropped⟩ := AttributeStore.syncDir_stored (s := c.attributes) account a n
  exact ⟨fun _ => rfl, rfl, id, fun _ => id, rfl, hstored, hdropped⟩

/-- An account without a `DIR` gets one, and nothing else. -/
theorem ensureDirFile_registers (c : Catalogue) (account : String) (making : Making)
    (synced : Except DbError Unit) : Registers c (c.ensureDirFile account making synced).2 := by
  unfold Catalogue.ensureDirFile
  split
  · exact .refl c
  have htouches := touches_createTable c account "DIR" making
  have hhost := c.createTable_host account "DIR" making
  generalize c.createTable account "DIR" making = made at htouches hhost
  obtain ⟨outcome, c'⟩ := made
  have hmade : Registers c c' :=
    ⟨fun a d hd => (htouches.accountDir a).trans hd, htouches.storageDir, htouches.limit,
      fun a n hname _ => htouches.elsewhere a n fun hin => hname hin.2, hhost⟩
  cases outcome with
  | error e => exact hmade
  | ok u =>
    cases synced with
    | error e => exact hmade
    | ok u =>
      exact hmade.trans
        ⟨fun _ _ => id, rfl, rfl, fun a n _ _ => undisturbed_syncDir c' account a n, rfl⟩

theorem noteAccount_registers (c : Catalogue) (name dir : String) (registering : Registering) :
    Registers c (c.noteAccount name dir registering).2 := by
  unfold noteAccount
  split
  · cases registering.opened with
    | error e => exact .refl c
    | ok u =>
      have htouches := touches_withTable c "SYSTEM" "$ACCOUNTS"
        ((c.tables "SYSTEM" "$ACCOUNTS").insertRecord name (accountRecord dir))
      exact ⟨fun a d hd => (htouches.accountDir a).trans hd, rfl, rfl,
        fun a n _ hout => htouches.elsewhere a n hout, rfl⟩
  · exact .refl c

theorem createAccount_registers (c : Catalogue) (name : String) (directory : Option String)
    (registering : Registering) : Registers c (c.createAccount name directory registering).2 := by
  unfold Catalogue.createAccount
  split
  · exact .refl c
  dsimp only
  generalize directory.getD (c.storageDir ++ "/" ++ name) = dir
  have hadded : Registers c { c with accounts := c.accounts ++ [(name, dir)] } := by
    refine ⟨fun a d hd => ?_, rfl, rfl, fun a n _ _ => .of_tables (fun _ => rfl) rfl rfl, rfl⟩
    rw [accountDir, Option.map_eq_some_iff] at hd
    obtain ⟨found, hfound, rfl⟩ := hd
    simp [accountDir, List.find?_append, hfound]
  cases registering.directory with
  | some e => exact .refl c
  | none =>
    dsimp only
    cases registering.persisted with
    | some e => exact hadded
    | none =>
      dsimp only
      generalize ({ c with accounts := c.accounts ++ [(name, dir)] } : Catalogue) = c₁ at hadded ⊢
      have hnoted := c₁.noteAccount_registers name dir registering
      generalize c₁.noteAccount name dir registering = noted at hnoted
      obtain ⟨outcome, c₂⟩ := noted
      cases outcome with
      | error e => exact hadded.trans hnoted
      | ok u => exact hadded.trans (hnoted.trans (c₂.ensureDirFile_registers name _ _))

/-! ## A file made anew -/

/-- A file that is there, as it was. -/
structure SameFile (c c' : Catalogue) (account name : String) : Prop where
  hasFile : c'.hasFile account name = true
  tables : c'.tables account name = c.tables account name
  attributes : c'.attributes.attributesOf account name = c.attributes.attributesOf account name

/-- Still there, with what it carried. -/
theorem Undisturbed.hasFile (h : Undisturbed c c' account name)
    (haccounts : ∀ a d, c.accountDir a = some d → c'.accountDir a = some d)
    (hthere : c.hasFile account name = true) :
    c'.hasFile account name = true ∧
      c'.attributes.attributesOf account name = c.attributes.attributesOf account name := by
  obtain ⟨hregistered, hlisted⟩ := hasFile_iff.mp hthere
  obtain ⟨d, hd⟩ := Option.isSome_iff_exists.mp hregistered
  refine ⟨hasFile_iff.mpr ⟨?_, h.listed hlisted⟩,
    AttributeStore.attributesOf_congr h.cache (h.stored hlisted)⟩
  rw [haccounts account d hd]
  rfl

theorem Undisturbed.sameFile (h : Undisturbed c c' account name)
    (haccounts : ∀ a d, c.accountDir a = some d → c'.accountDir a = some d)
    (hlog : ¬(account = "SYSTEM" ∧ name = "$LOGS"))
    (hthere : c.hasFile account name = true) : SameFile c c' account name :=
  ⟨(h.hasFile haccounts hthere).1, h.tables hlog, (h.hasFile haccounts hthere).2⟩

/-- What making a file comes to when it succeeds. -/
structure Created (c c' : Catalogue) (account name : String) (a : FileAttributes) : Prop where
  named : account ≠ ""
  registered : (c.accountDir account).isSome
  absent : c.attributes.tables account name = false
  tables : c.remains account name = false → c'.tables = c.tables
  others : ∀ a' n', (a', n') ≠ (account, name) → c'.tables a' n' = c.tables a' n'
  host : c'.host = c.host
  accounts : c'.accounts = c.accounts
  there : c'.attributes.tables account name = true
  kept : ∀ a' n', c.attributes.tables a' n' = true → c'.attributes.tables a' n' = true
  carried : c'.attributes.attributesOf account name =
    if a ≠ {} then a else c.attributes.attributesOf account name
  said : ∀ a' n', (a', n') ≠ (account, name) → c.attributes.tables a' n' = true →
    c'.attributes.attributesOf a' n' = c.attributes.attributesOf a' n'

theorem createTableWith_ok {creation : Creation}
    (hcreate : c.createTableWith account name a creation = (.ok (), c')) :
    Created c c' account name a := by
  unfold Catalogue.createTableWith at hcreate
  rcases hmade : c.createTable account name creation.toMaking with ⟨outcome, c₁⟩
  rw [hmade] at hcreate
  cases outcome with
  | error e => cases hcreate
  | ok u =>
    obtain ⟨haccount, hregistered, hnone, rfl⟩ := createTable_ok hmade
    have htruncate : ∀ found, c.remains account name = false →
        (c.truncateDict account name found).tables = c.tables := fun found hremains => by
      rw [truncateDict_of_nothing hnone hremains]
    have hothers : ∀ found a' n', (a', n') ≠ (account, name) →
        (c.truncateDict account name found).tables a' n' = c.tables a' n' := by
      intro found a' n' hne
      unfold truncateDict
      split
      · exact put_of_ne _ _ _ _ hne
      · rfl
    have hhost : ∀ found, (c.truncateDict account name found).host = c.host ∧
        (c.truncateDict account name found).accounts = c.accounts := by
      intro found
      unfold truncateDict
      split <;> exact ⟨rfl, rfl⟩
    have henlist := AttributeStore.enlist_made hnone creation.listing
    generalize c.attributes.enlist account name creation.listing = s₁ at henlist hcreate
    dsimp only at hcreate
    split at hcreate
    · cases hcreate
    · split at hcreate
      · rename_i ha
        rcases hset : s₁.setAttributes account name a creation.upkeep with ⟨outcome, s₂⟩
        rw [hset] at hcreate
        obtain ⟨rfl, rfl⟩ := Prod.mk.inj hcreate
        obtain ⟨htables, hself, hsaid⟩ := AttributeStore.setAttributes_ok hset
        refine ⟨haccount, hregistered, hnone, htruncate _, hothers _, (hhost _).1, (hhost _).2,
          (htables _ _).mpr (.inl henlist.there), fun a' n' hthere =>
            (htables _ _).mpr (.inl (henlist.kept a' n' hthere)), ?_, fun a' n' hne hthere => ?_⟩
        · rw [if_pos ha]
          exact hself
        · obtain ⟨hcache, hstored⟩ := hsaid a' n' hne
          exact (AttributeStore.attributesOf_congr hcache hstored).trans
            (henlist.attributesOf (henlist.kept a' n' hthere))
      · rename_i ha
        obtain ⟨-, rfl⟩ := Prod.mk.inj hcreate
        refine ⟨haccount, hregistered, hnone, htruncate _, hothers _, (hhost _).1, (hhost _).2,
          henlist.there, henlist.kept, ?_, fun a' n' _ hthere =>
            henlist.attributesOf (henlist.kept a' n' hthere)⟩
        rw [if_neg ha]
        exact henlist.attributesOf henlist.there

theorem hasFile_of_accounts (haccounts : c'.accounts = c.accounts)
    (h : c'.attributes.tables account name = true) (hregistered : (c.accountDir account).isSome) :
    c'.hasFile account name = true := by
  rw [hasFile_iff, accountDir, haccounts]
  exact ⟨hregistered, h⟩

theorem Created.hasFile (h : Created c c' account name a) : c'.hasFile account name = true :=
  hasFile_of_accounts h.accounts h.there h.registered

/-- A file that is made after any run is empty, where nothing was left of a file of its name. It
carries what was asked for, unless that is nothing in particular and something was said of a file of
its name. The other files are as they were, and so is the host: the records of a directory file are
the files of the directory it points to. -/
theorem created_anew {creation : Creation} (h : c.Reachable) (hordinary : Ordinary account name)
    (hremains : c.remains account name = false)
    (hcreate : c.createTableWith account name a creation = (.ok (), c')) :
    c'.hasFile account name = true ∧ c'.tables account name = {} ∧
      (c'.attributes.attributesOf account name = a ↔
        a ≠ {} ∨ c.attributes.attributesOf account name = {}) ∧
      c'.host = c.host ∧
      ∀ a' n', (a', n') ≠ (account, name) → n' ≠ "DIR" → c.hasFile a' n' = true →
        SameFile c c' a' n' := by
  have hcreated := createTableWith_ok hcreate
  refine ⟨hcreated.hasFile, ?_, ?_, hcreated.host, fun a' n' hne _ hold => ?_⟩
  · rw [hcreated.tables hremains]
    exact h.clean.absent account name hordinary.plain hcreated.absent hremains
  · rw [hcreated.carried]
    split
    · rename_i ha
      exact iff_of_true rfl (.inl ha)
    · rename_i ha
      obtain rfl := not_not.mp ha
      simp
  · obtain ⟨hregistered, hlisted⟩ := hasFile_iff.mp hold
    exact ⟨hasFile_of_accounts hcreated.accounts (hcreated.kept a' n' hlisted) hregistered,
      hcreated.others a' n' hne, hcreated.said a' n' hne hlisted⟩

section

/-- A log that keeps a thousand records. -/
def thousand : ErrorLog.Settings where
  logDetail := ""
  maxLogRecords := 1000
  display := fun _ => ""

/-- A database with a queue in it. -/
def withJobs : Catalogue where
  storageDir := "db"
  accounts := [("SALES", "db/SALES")]
  attributes :=
    { tables := fun account name => decide (account = "SALES" ∧ (name = "DIR" ∨ name = "JOBS"))
      entries := fun account name =>
        if account = "SALES" ∧ name = "JOBS" then
          some (FileAttributes.toRecord { durable := true, queue := some {} })
        else none
      cache := fun _ _ => none }
  tables := fun _ _ => {}
  maxRecordBytes := 1000
  log := thousand

theorem withJobs_clean : withJobs.Clean := by
  refine ⟨fun _ _ _ _ _ => rfl, fun name => ?_⟩
  simp [withJobs]

/-- The file deleted and made again, as a plain one. -/
def withoutJobs : Catalogue := (withJobs.deleteTable "SALES" "JOBS" .removed).2

def jobsAgain (a : FileAttributes) : Catalogue :=
  (withoutJobs.createTableWith "SALES" "JOBS" a {}).2

/-- It is a queue again. -/
example : (jobsAgain {}).attributes.attributesOf "SALES" "JOBS" =
    { durable := true, queue := some {} } := by decide +kernel

theorem jobs_ordinary : Ordinary "SALES" "JOBS" := ⟨by decide, by decide, by decide⟩

theorem jobsAgain_durable :
    (jobsAgain { durable := true }).tables "SALES" "JOBS" = {} ∧
      (jobsAgain { durable := true }).attributes.attributesOf "SALES" "JOBS" =
        { durable := true } := by
  have hreachable : withoutJobs.Reachable :=
    .step (.opened _ withJobs_clean)
      (.deleteTable withJobs "SALES" jobs_ordinary.plain .removed fun _ => rfl)
  have hok : (withoutJobs.createTableWith "SALES" "JOBS" { durable := true } {}).1 = .ok () := by
    decide +kernel
  obtain ⟨-, htable, hattributes, -⟩ :=
    created_anew hreachable jobs_ordinary rfl (Prod.ext hok rfl)
  exact ⟨htable, hattributes.mpr (.inl (by decide))⟩

end

end Catalogue

end RustyPick
