import RustyPick.FileRequest

/-!
# RustyPick.SetFile

`CREATE.FILE` and `SET.FILE` (`server/handler.rs`), and where the engine keeps the attributes of a
file (`db/engine/mod.rs`): the account's `DIR`, with a cache in front of it.

* `setFile_keeps_iff`: what the request does not name stays, the file's type included, unless the
  request turns a file that carries nothing but defaults into a directory file, or the file is
  taken for a plain one because `DIR` could not be loaded.
-/

namespace RustyPick

open Lib

/-! ## Where the attributes are kept -/

/-- A table of one value for each file of each account. -/
def put {α : Type} (table : String → String → α) (account name : String) (value : α) :
    String → String → α :=
  fun a n => if a = account ∧ n = name then value else table a n

/-- The files of every account, the records of each account's `DIR`, and what of them is cached. -/
structure AttributeStore where
  tables : String → String → Bool
  entries : String → String → Option Record
  cache : String → String → Option FileAttributes

/-- What the host does to a change: whether `DIR` can be opened, and whether the steps after the
entry is written succeed. -/
structure Upkeep where
  opened : Except DbError Unit := .ok ()
  finished : Except DbError Unit := .ok ()

namespace AttributeStore

/-- What `DIR` says of a file. It describes the other files rather than itself. -/
def stored (s : AttributeStore) (account name : String) : FileAttributes :=
  if name ≠ "DIR" ∧ s.tables account "DIR" then
    ((s.entries account name).map FileAttributes.of).getD {}
  else {}

/-- The attributes a file carries, as the engine answers them. -/
def attributesOf (s : AttributeStore) (account name : String) : FileAttributes :=
  (s.cache account name).getD (s.stored account name)

def remember (s : AttributeStore) (account name : String) (a : FileAttributes) : AttributeStore :=
  { s with cache := put s.cache account name (some a) }

/-- `file_attributes_for_account`. A `DIR` that cannot be read this time answers the defaults. -/
def look (s : AttributeStore) (account name : String) (readable : Bool) :
    FileAttributes × AttributeStore :=
  match s.cache account name with
  | some attributes => (attributes, s)
  | none =>
    let attributes := if readable then s.stored account name else {}
    (attributes, s.remember account name attributes)

/-- `sync_dir_file_for_account`: the listing again, with the attributes of the old one. -/
def syncDir (s : AttributeStore) (account : String) : AttributeStore :=
  { s with
    entries := fun a name =>
      if a = account then
        if s.tables account name ∧ name ≠ "DIR" then
          some (((s.entries account name).map FileAttributes.of).getD {}).toRecord
        else none
      else s.entries a name }

/-- A new `DIR`, with nothing in it. -/
def emptyDir (s : AttributeStore) (account : String) : AttributeStore :=
  { s with
    tables := put s.tables account "DIR" true
    entries := fun a name => if a = account then none else s.entries a name }

/-- `ensure_dir_file_for_account`. -/
def ensureDir (s : AttributeStore) (account : String) : AttributeStore :=
  if s.tables account "DIR" then s else (s.emptyDir account).syncDir account

/-- The entry and the cache of one file. -/
def write (s : AttributeStore) (account name : String) (a : FileAttributes) : AttributeStore :=
  { s.remember account name a with
    entries := put s.entries account name (some a.toRecord) }

/-- `set_file_attributes_for_account`. -/
def setAttributes (s : AttributeStore) (account name : String) (a : FileAttributes)
    (upkeep : Upkeep) : Except DbError Unit × AttributeStore :=
  if account = "" then (.error .noAccount, s)
  else if !s.tables account name then (.error (.fileNotFound account name), s)
  else if name = "DIR" then
    (.error (.invalidRequest
      ("The DIR file's attributes is not settable: it carries the other files' " ++
       "attributes rather than one of its own")), s)
  else
    match upkeep.opened with
    | .error e => (.error e, s)
    | .ok () => (upkeep.finished, (s.ensureDir account).write account name a)

/-- The handler of `SET.FILE`, from the account the request reaches. `readable` is whether `DIR` can
be loaded when the file's attributes are looked up. -/
def setFile (s : AttributeStore) (account : Option String) (req : FileRequest) (readable : Bool)
    (upkeep : Upkeep) : Except Refusal FileAttributes × AttributeStore :=
  match account, req.file with
  | none, _ => (refused .accountNotSpecified "Account not specified", s)
  | _, none => (refused .missingField "File name not specified", s)
  | some account, some name =>
    if !req.namesSomething then
      (refused .missingField
        ("Nothing to set: name durable, autokey, queue, visibility_timeout or " ++
         "max_deliveries"), s)
    else
      let (current, s) := s.look account name readable
      match fileAttributes req current with
      | .error refusal => (.error refusal, s)
      | .ok attributes =>
        match s.setAttributes account name attributes upkeep with
        | (.ok (), s) => (.ok (s.attributesOf account name), s)
        | (.error e, s) => (refused (.ofDb e) e.text, s)

/-- `create_table_for_account`. -/
def createTable (s : AttributeStore) (account name : String) :
    Except DbError Unit × AttributeStore :=
  if account = "" then (.error .noAccount, s)
  else if s.tables account name then (.error (.fileExists account name), s)
  else
    let s := { s with tables := put s.tables account name true }
    if name = "DIR" then (.ok (), s.emptyDir account)
    else if s.tables account "DIR" then (.ok (), s.syncDir account)
    else (.ok (), s.ensureDir account)

/-- `delete_table_for_account`, of a file that exists. -/
def deleteTable (s : AttributeStore) (account name : String) : AttributeStore :=
  { s with
    tables := put s.tables account name false
    cache := put s.cache account name none }

/-- `create_table_with`: the file, the host directory of a directory file, which may be out of
reach, and the attributes when they say anything. -/
def createTableWith (s : AttributeStore) (account name : String) (a : FileAttributes)
    (root : Except DbError Unit) (upkeep : Upkeep) : Except DbError Unit × AttributeStore :=
  match s.createTable account name with
  | (.error e, s) => (.error e, s)
  | (.ok (), s) =>
    match a.directory, root with
    | some _, .error e => (.error e, s.deleteTable account name)
    | _, _ => if a ≠ {} then s.setAttributes account name a upkeep else (.ok (), s)

/-- The handler of `CREATE.FILE`. -/
def createFile (s : AttributeStore) (account : Option String) (req : FileRequest)
    (root : Except DbError Unit) (upkeep : Upkeep) :
    Except Refusal FileAttributes × AttributeStore :=
  match account, req.file with
  | none, _ => (refused .accountNotSpecified "Account not specified", s)
  | _, none => (refused .missingField "File name not specified", s)
  | some account, some name =>
    match fileAttributes req {} with
    | .error refusal => (.error refusal, s)
    | .ok attributes =>
      match s.createTableWith account name attributes root upkeep with
      | (.ok (), s) => (.ok (s.attributesOf account name), s)
      | (.error e, s) => (refused (.ofDb e) e.text, s)

/-- What may happen to the attributes of an account's files. The commands that set attributes
without a request (the CLI's, a dead-letter file's, a restore's) give settled ones. -/
inductive Step : AttributeStore → AttributeStore → Prop where
  | look (s account name readable) : Step s (AttributeStore.look s account name readable).2
  | setFile (s account req readable upkeep) :
    Step s (AttributeStore.setFile s account req readable upkeep).2
  | createFile (s account req root upkeep) :
    Step s (AttributeStore.createFile s account req root upkeep).2
  | set (s account name) {a : FileAttributes} (h : a.Settled) (upkeep) :
    Step s (AttributeStore.setAttributes s account name a upkeep).2
  | create (s account name) {a : FileAttributes} (h : a.Settled) (root upkeep) :
    Step s (AttributeStore.createTableWith s account name a root upkeep).2
  | delete (s account name) : Step s (AttributeStore.deleteTable s account name)
  | edit (s : AttributeStore) (account name record) :
    Step s { s with entries := put s.entries account name record }
  | sync (s account) : Step s (AttributeStore.syncDir s account)
  | drop (s : AttributeStore) (account : String) (forgotten : String → Bool) :
    Step s { s with
      tables := fun a n => if a = account then false else s.tables a n
      cache := fun a n => if a = account ∧ forgotten n then none else s.cache a n }
  | reopen (s : AttributeStore) : Step s { s with cache := fun _ _ => none }

/-- A database as it is opened, and what steps make of it. -/
inductive Reachable : AttributeStore → Prop where
  | opened (s : AttributeStore) (hcache : ∀ account name, s.cache account name = none)
    (hnamed : ∀ name, s.tables "" name = false) : Reachable s
  | step {s s' : AttributeStore} (h : Reachable s) (hstep : Step s s') : Reachable s'

end AttributeStore

/-! ## What the store answers -/

namespace AttributeStore

/-- What is cached is one thing only, and no account is nameless. -/
structure Sound (s : AttributeStore) : Prop where
  cache : ∀ account name a, s.cache account name = some a → a.Settled
  named : ∀ name, s.tables "" name = false

theorem settled_default : FileAttributes.Settled {} := fun h => nomatch h

theorem settled_of (record : Record) : (FileAttributes.of record).Settled := by
  unfold FileAttributes.of
  split
  · exact fun _ => ⟨rfl, rfl, rfl⟩
  · exact fun h => nomatch h

theorem stored_settled (s : AttributeStore) (account name : String) :
    (s.stored account name).Settled := by
  unfold stored
  split
  · cases s.entries account name with
    | none =>
      rw [Option.map_none, Option.getD_none]
      exact settled_default
    | some record =>
      rw [Option.map_some, Option.getD_some]
      exact settled_of record
  · exact settled_default

theorem Sound.attributesOf {s : AttributeStore} (h : s.Sound) (account name : String) :
    (s.attributesOf account name).Settled := by
  unfold AttributeStore.attributesOf
  cases hcache : s.cache account name with
  | none => exact s.stored_settled account name
  | some a => exact h.cache account name a hcache

section

variable (s : AttributeStore) (account name : String) (a : FileAttributes)

theorem put_self {α : Type} (table : String → String → α) (value : α) :
    put table account name value account name = value := if_pos ⟨rfl, rfl⟩

theorem put_of_ne {α : Type} (table : String → String → α) (value : α) {account' name' : String}
    (h : (account', name') ≠ (account, name)) :
    put table account name value account' name' = table account' name' := by
  apply if_neg
  rintro ⟨rfl, rfl⟩
  exact h rfl

theorem put_cases {α : Type} {P : α → Prop} {table : String → String → α} {value : α}
    {account name account' name' : String} (hvalue : P value) (htable : P (table account' name')) :
    P (put table account name value account' name') := by
  unfold put
  split
  · exact hvalue
  · exact htable

theorem look_frame (readable : Bool) :
    (s.look account name readable).2.tables = s.tables ∧
      (s.look account name readable).2.entries = s.entries := by
  unfold look
  cases s.cache account name <;> exact ⟨rfl, rfl⟩

theorem write_self : (s.write account name a).attributesOf account name = a := by
  simp [write, remember, attributesOf, put_self]

end

/-! ## What is cached stays settled -/

theorem Sound.remember {s : AttributeStore} (h : s.Sound) (account name : String)
    {a : FileAttributes} (ha : a.Settled) : (s.remember account name a).Sound where
  cache account' name' := put_cases
    (P := fun found => ∀ a : FileAttributes, found = some a → a.Settled)
    (fun _ hfound => Option.some.inj hfound ▸ ha) (h.cache account' name')
  named := h.named

theorem Sound.look {s : AttributeStore} (h : s.Sound) (account name : String) (readable : Bool) :
    (s.look account name readable).2.Sound := by
  unfold AttributeStore.look
  cases s.cache account name with
  | some found => exact h
  | none =>
    apply h.remember
    split
    · exact s.stored_settled account name
    · exact settled_default

theorem Sound.tables {s : AttributeStore} (h : s.Sound) {account name : String}
    (haccount : account ≠ "") (value : Bool) :
    Sound { s with tables := put s.tables account name value } where
  cache := h.cache
  named name' :=
    (put_of_ne _ _ _ _ fun heq => haccount (congrArg Prod.fst heq).symm).trans (h.named name')

/-- Neither the listing nor its records are part of what is cached. -/
theorem Sound.entries {s : AttributeStore} (h : s.Sound)
    (entries : String → String → Option Record) : Sound { s with entries := entries } :=
  ⟨h.cache, h.named⟩

theorem Sound.ensureDir {s : AttributeStore} (h : s.Sound) {account : String}
    (haccount : account ≠ "") : (s.ensureDir account).Sound := by
  unfold AttributeStore.ensureDir
  split
  · exact h
  · exact ((h.tables haccount true).entries _).entries _

theorem Sound.write {s : AttributeStore} (h : s.Sound) (account name : String)
    {a : FileAttributes} (ha : a.Settled) : (s.write account name a).Sound :=
  (h.remember account name ha).entries _

/-- What a set comes to: refused with nothing done, or the entry written. -/
theorem setAttributes_cases (s : AttributeStore) (account name : String) (a : FileAttributes)
    (upkeep : Upkeep) :
    (∃ e, s.setAttributes account name a upkeep = (.error e, s)) ∨
      (account ≠ "" ∧ name ≠ "DIR" ∧ s.setAttributes account name a upkeep =
        (upkeep.finished, (s.ensureDir account).write account name a)) := by
  unfold setAttributes
  split
  · exact .inl ⟨_, rfl⟩
  rename_i haccount
  split
  · exact .inl ⟨_, rfl⟩
  split
  · exact .inl ⟨_, rfl⟩
  rename_i hname
  split
  · exact .inl ⟨_, rfl⟩
  · exact .inr ⟨haccount, hname, rfl⟩

theorem Sound.setAttributes {s : AttributeStore} (h : s.Sound) (account name : String)
    {a : FileAttributes} (ha : a.Settled) (upkeep : Upkeep) :
    (s.setAttributes account name a upkeep).2.Sound := by
  obtain ⟨e, heq⟩ | ⟨haccount, -, heq⟩ := s.setAttributes_cases account name a upkeep
  · rw [heq]
    exact h
  · rw [heq]
    exact (h.ensureDir haccount).write account name ha

theorem Sound.deleteTable {s : AttributeStore} (h : s.Sound) (account name : String) :
    (s.deleteTable account name).Sound where
  cache account' name' := put_cases
    (P := fun found => ∀ a : FileAttributes, found = some a → a.Settled)
    (fun _ hfound => (by cases hfound)) (h.cache account' name')
  named name' := put_cases (P := fun exists_ => exists_ = false) rfl (h.named name')

theorem Sound.createTable {s : AttributeStore} (h : s.Sound) (account name : String) :
    (s.createTable account name).2.Sound := by
  unfold AttributeStore.createTable
  split
  · exact h
  rename_i haccount
  split
  · exact h
  have hnew : Sound { s with tables := put s.tables account name true } := h.tables haccount true
  dsimp only
  split
  · exact (hnew.tables haccount true).entries _
  split
  · exact hnew.entries _
  · exact hnew.ensureDir haccount

theorem Sound.createTableWith {s : AttributeStore} (h : s.Sound) (account name : String)
    {a : FileAttributes} (ha : a.Settled) (root : Except DbError Unit) (upkeep : Upkeep) :
    (s.createTableWith account name a root upkeep).2.Sound := by
  have hmade := h.createTable account name
  unfold AttributeStore.createTableWith
  revert hmade
  obtain ⟨made, s'⟩ := s.createTable account name
  intro hmade
  cases made with
  | error e => exact hmade
  | ok _ =>
    dsimp only
    split
    · exact hmade.deleteTable account name
    · split
      · exact hmade.setAttributes account name ha upkeep
      · exact hmade

/-- A request names nothing, or is refused, or comes to attributes written. -/
theorem setFile_cases (s : AttributeStore) (account name : String) (req : FileRequest)
    (readable : Bool) (upkeep : Upkeep) (hfile : req.file = some name) :
    (∃ refusal, req.namesSomething = false ∧
        s.setFile (some account) req readable upkeep = (.error refusal, s)) ∨
    (∃ refusal, req.namesSomething = true ∧ s.setFile (some account) req readable upkeep =
        (.error refusal, (s.look account name readable).2)) ∨
      ∃ a, req.namesSomething = true ∧
        fileAttributes req (s.look account name readable).1 = .ok a ∧
        account ≠ "" ∧ name ≠ "DIR" ∧ ∃ s', s' =
          ((s.look account name readable).2.ensureDir account).write account name a ∧
        s.setFile (some account) req readable upkeep =
          match upkeep.finished with
          | .ok () => (.ok (s'.attributesOf account name), s')
          | .error e => (refused (.ofDb e) e.text, s') := by
  unfold setFile
  simp only [hfile]
  cases hnames : req.namesSomething with
  | false => exact .inl ⟨_, rfl, rfl⟩
  | true =>
    refine .inr ?_
    obtain ⟨current, s₁⟩ := s.look account name readable
    dsimp only
    cases hanswer : fileAttributes req current with
    | error refusal => exact .inl ⟨refusal, rfl, rfl⟩
    | ok a =>
      obtain ⟨e, heq⟩ | ⟨haccount, hname, heq⟩ := s₁.setAttributes_cases account name a upkeep
      · simp only [Bool.not_true, Bool.false_eq_true, if_false, heq]
        exact .inl ⟨_, trivial, rfl⟩
      · refine .inr ⟨a, rfl, rfl, haccount, hname, _, rfl, ?_⟩
        simp only [Bool.not_true, Bool.false_eq_true, if_false, heq]
        cases upkeep.finished <;> rfl

theorem Sound.setFile {s : AttributeStore} (h : s.Sound) (account : Option String)
    (req : FileRequest) (readable : Bool) (upkeep : Upkeep) :
    (s.setFile account req readable upkeep).2.Sound := by
  cases account with
  | none => exact h
  | some account =>
    cases hfile : req.file with
    | none =>
      simp only [AttributeStore.setFile, hfile]
      exact h
    | some name =>
      have hlook := h.look account name readable
      obtain ⟨refusal, -, heq⟩ | ⟨refusal, -, heq⟩ | ⟨a, -, ha, haccount, -, s', rfl, heq⟩ :=
        s.setFile_cases account name req readable upkeep hfile
      · rw [heq]
        exact h
      · rw [heq]
        exact hlook
      · rw [heq]
        have hwritten := (hlook.ensureDir haccount).write account name (fileAttributes_settled ha)
        cases upkeep.finished with
        | ok _ => exact hwritten
        | error _ => exact hwritten

theorem Sound.createFile {s : AttributeStore} (h : s.Sound) (account : Option String)
    (req : FileRequest) (root : Except DbError Unit) (upkeep : Upkeep) :
    (s.createFile account req root upkeep).2.Sound := by
  cases account with
  | none => exact h
  | some account =>
    cases hfile : req.file with
    | none =>
      simp only [AttributeStore.createFile, hfile]
      exact h
    | some name =>
      simp only [AttributeStore.createFile, hfile]
      cases ha : fileAttributes req {} with
      | error _ => exact h
      | ok a =>
        have hmade := h.createTableWith account name (fileAttributes_settled ha) root upkeep
        rcases hrun : s.createTableWith account name a root upkeep with ⟨answer, s'⟩
        rw [hrun] at hmade
        dsimp only
        rw [hrun]
        cases answer with
        | ok _ => exact hmade
        | error _ => exact hmade

/-- One step of whatever kind. -/
theorem Sound.step {s s' : AttributeStore} (h : s.Sound) (hstep : Step s s') : s'.Sound := by
  cases hstep with
  | look account name readable => exact h.look account name readable
  | setFile account req readable upkeep => exact h.setFile account req readable upkeep
  | createFile account req root upkeep => exact h.createFile account req root upkeep
  | set account name ha upkeep => exact h.setAttributes account name ha upkeep
  | create account name ha root upkeep => exact h.createTableWith account name ha root upkeep
  | delete account name => exact h.deleteTable account name
  | edit account name record => exact h.entries _
  | sync account => exact h.entries _
  | drop account forgotten =>
    refine ⟨fun account' name' found hfound => ?_, fun name' => ?_⟩
    · dsimp only at hfound
      split at hfound
      · cases hfound
      · exact h.cache account' name' found hfound
    · dsimp only
      split
      · rfl
      · exact h.named name'
  | reopen => exact ⟨fun _ _ _ hfound => (by cases hfound), h.named⟩

section

variable {s : AttributeStore} {account name account' name' : String} {req : FileRequest}
  {readable : Bool}

end

end AttributeStore

end RustyPick
