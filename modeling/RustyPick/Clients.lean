import RustyPick.IndexRun

/-!
# RustyPick.Clients

The two registries of authorized clients, and what a restart makes of them.

`$CLIENTS` is a file of the SYSTEM account, and `certs.reg` a list of thumbprints beside the
accounts. `AUTHORIZE.CONN` and `DEAUTHORIZE.CONN` write both, the file first; the account commands
and plain record commands on `$CLIENTS` write the file alone. An open takes a thumbprint it finds in
`certs.reg` and in no record for one from before `$CLIENTS` existed, and enters it as an
administrator.

The steps of a command that reach the disk are steps of their own here, so a run may stop between
any two of them.

* `restart_grants_no_more`: after an open that finds every listed thumbprint in a record, each
  thumbprint has exactly what a record on disk states for it.
* `migrated_raises`: and where the last one listed is in none, it does not.
* `certsListed_of_run`: what an open finds stays so until `$CLIENTS` or `certs.reg` is written.
-/

namespace RustyPick

open Lib

/-! ## Reading `$CLIENTS` -/

/-- `str::to_lowercase` and `str::to_uppercase`. -/
structure Casing where
  lower : String → String
  upper : String → String

inductive Capability where
  | accountsManage
  | clientsManage
  | serverObserve
  deriving DecidableEq, Repr

def asciiLowercase (s : String) : String := String.ofList (s.toList.map Char.toLower)

/-- `Capability::parse`. -/
def Capability.parse (name : String) : Option Capability :=
  let name := asciiLowercase (trim name)
  if name = "accounts:manage" then some .accountsManage
  else if name = "clients:manage" then some .clientsManage
  else if name = "server:observe" then some .serverObserve
  else none

structure EnqueueGrant where
  account : String
  file : String
  deriving DecidableEq, Repr

/-- `EnqueueGrant::parse`: exactly two parts, neither of them empty. -/
def EnqueueGrant.parse (casing : Casing) (text : String) : Option EnqueueGrant :=
  match splitOnce '/' (trim text).toList with
  | none => none
  | some (account, file) =>
    let account := trim (String.ofList account)
    let file := trim (String.ofList file)
    if account = "" ∨ file = "" ∨ '/' ∈ file.toList then none
    else some { account := casing.upper account, file := file }

structure ClientInfo where
  name : String
  thumbprint : String
  allowedAccounts : List String
  isAdmin : Bool
  capabilities : List Capability
  expiresAt : Option String
  enqueueFiles : List EnqueueGrant
  deriving DecidableEq, Repr

def Record.valuesAt (record : Record) (idx : Nat) : List Value :=
  (record.fields[idx]?.map Field.values).getD []

/-- The first text of a field. -/
def Record.firstTextAt (record : Record) (idx : Nat) : Option String :=
  (record.valuesAt idx).head?.bind Value.firstText

/-- What each value of a field parses as, every result once. -/
def parsedOnce {α : Type} [DecidableEq α] (parse : String → Option α) (values : List Value) :
    List α :=
  values.foldl (fun found v =>
    match v.firstText.bind parse with
    | some a => if a ∈ found then found else found ++ [a]
    | none => found) []

/-- One record as `load_clients_from_table` reads it. A record without a thumbprint authorizes
nobody. -/
def clientInfo (casing : Casing) (name : String) (record : Record) : Option ClientInfo :=
  (record.firstTextAt Table.SYS_CLIENTS_THUMBPRINT_IDX).map fun thumbprint =>
    { name := name
      thumbprint := casing.lower thumbprint
      allowedAccounts := (record.valuesAt Table.SYS_CLIENTS_ACCOUNTS_IDX).filterMap fun v =>
        v.firstText.filter fun account => account ≠ ""
      isAdmin := record.firstTextAt Table.SYS_CLIENTS_ADMIN_IDX = some "Y"
      capabilities := parsedOnce Capability.parse
        (record.valuesAt Table.SYS_CLIENTS_CAPABILITIES_IDX)
      expiresAt := ((record.firstTextAt Table.SYS_CLIENTS_EXPIRES_IDX).map trim).filter
        fun text => text ≠ ""
      enqueueFiles := parsedOnce (EnqueueGrant.parse casing)
        (record.valuesAt Table.SYS_CLIENTS_ENQUEUE_IDX) }

/-- The client a record authorizes, entered under its thumbprint. -/
def enterClient (casing : Casing) (registry : Map String ClientInfo) (entry : String × Record) :
    Map String ClientInfo :=
  match clientInfo casing entry.1 entry.2 with
  | some info => registry.insert info.thumbprint info
  | none => registry

/-- `load_clients_from_table`, over the records in the order the map lists them. -/
def loadClients (casing : Casing) (listing : List (String × Record)) : Map String ClientInfo :=
  listing.foldl (enterClient casing) ∅

/-! ## `certs.reg` -/

/-- `save_certs`: the thumbprints as the registry lists them, in one record. -/
def certsBytes (thumbprints : List String) : Bytes :=
  sectionBytes ((∅ : Entries).insert "certs" { fields := [Table.textField thumbprints] })

/-- The thumbprints a migration finds. A file that does not read has none. -/
def listedThumbprints (certs : Option Bytes) : List String :=
  match loadSection "certs.reg" certs with
  | .error _ => []
  | .ok map =>
    match map["certs"]?.bind fun record => record.fields.head? with
    | none => []
    | some field =>
      (field.values.flatMap fun v => v.subValues.filter fun sv => sv ≠ []).map textOf

/-- The first `limit` bytes of a text; `none` where that is not between two characters, and the
slice panics. -/
def sliceTo : Nat → List Char → Option (List Char)
  | 0, _ => some []
  | _ + 1, [] => none
  | limit + 1, c :: cs =>
    if c.utf8Size ≤ limit + 1 then (sliceTo (limit + 1 - c.utf8Size) cs).map (c :: ·) else none

/-- Whether a record has the thumbprint, in this spelling. -/
def alreadyExists (t : Table) (thumbprint : String) : Bool :=
  t.records.values.any fun record => record.firstTextAt 0 = some thumbprint

/-- The record a migrated thumbprint gets. -/
def migratedRecord (thumbprint : String) : Record :=
  { fields := [Table.textField [thumbprint], {}, Table.textField ["Y"]] }

/-- One listed thumbprint taken over, unless a record has it. -/
def migrateOne (casing : Casing) (t : Table) (thumbprint : String) : Option Table :=
  if alreadyExists t (casing.lower thumbprint) then some t
  else
    (sliceTo 8 thumbprint.toList).map fun short =>
      t.insertRecord ("migrated_" ++ String.ofList short) (migratedRecord (casing.lower thumbprint))

/-- `migrate_legacy_certs`, over what `certs.reg` lists. `none` where it panics. -/
def migrateCerts (casing : Casing) (t : Table) : List String → Option Table
  | [] => some t
  | thumbprint :: rest =>
    match migrateOne casing t thumbprint with
    | none => none
    | some t => migrateCerts casing t rest

/-! ## Runs -/

structure ClientsState where
  /-- The directory of `$CLIENTS`. -/
  dir : TableDir
  table : Table := {}
  certs : Option Bytes := none
  /-- The authorizations in force. -/
  registry : Map String ClientInfo := ∅

inductive ClientsAction where
  | addAuthorizedClient (name thumbprint : String) (grant : Table.ClientGrant)
  | removeAuthorizedClient (name : String)
  | addClientAccount (name account : String)
  | removeClientAccount (name account : String)
  | write (key : Option String) (record : Record) (isDict : Bool) (condition : Condition)
      (autokey : Bool) (persisted : Option UInt64) (now : Nat)
  | delete (key : String) (isDict : Bool) (condition : Condition)
  | transact (changes : List Change)
  | flush (order : FlushOrder) (perGroup : Nat)
  /-- A flush that an error or a crash stops. -/
  | flushStops (order : FlushOrder) (perGroup steps : Nat)
  | loadClients (listing : List (String × Record))
  /-- `certs.reg` written, as far as `length` if it stops. -/
  | saveCerts (thumbprints : List String) (length : Option Nat)
  /-- The process gone, and the database opened again. -/
  | restart (listing : List (String × Record)) (renamed : Bool)

/-- The records of `$CLIENTS` changed in memory. -/
def ClientsState.edit (s : ClientsState) (t : Table) : ClientsState := { s with table := t }

def ClientsAction.perform (casing : Casing) (digest : Record → String) (s : ClientsState) :
    ClientsAction → Option ClientsState
  | .addAuthorizedClient name thumbprint grant =>
    some (s.edit (s.table.addAuthorizedClient name (casing.lower thumbprint) grant))
  | .removeAuthorizedClient name => some (s.edit (s.table.removeAuthorizedClient name).2)
  | .addClientAccount name account => some (s.edit (s.table.addClientAccount name account).2)
  | .removeClientAccount name account => some (s.edit (s.table.removeClientAccount name account).2)
  | .write key record isDict condition autokey persisted now =>
    some (s.edit (s.table.writeRecord digest "$CLIENTS" key record isDict condition autokey
      persisted now).2)
  | .delete key isDict condition =>
    some (s.edit (s.table.deleteRecord digest "$CLIENTS" key isDict condition).2)
  | .transact changes => some (s.edit (changes.foldl Table.applyChange s.table))
  | .flush order perGroup =>
    match flushLocked order s.dir s.table perGroup with
    | (steps, some (.ok t)) => some { s with dir := s.dir.performAll steps, table := t }
    | _ => none
  | .flushStops order perGroup steps =>
    let all := (flushLocked order s.dir s.table perGroup).1
    some { s with dir := s.dir.performAll (all.take steps) }
  | .loadClients listing =>
    if listing.Perm s.table.records.toList then
      some { s with registry := RustyPick.loadClients casing listing }
    else none
  | .saveCerts thumbprints length =>
    if thumbprints.Perm s.registry.keys then
      let bytes := certsBytes thumbprints
      some { s with certs := some (bytes.take (length.getD bytes.length)) }
    else none
  | .restart listing renamed =>
    match loadTable s.dir with
    | .error _ => none
    | .ok t =>
      match migrateCerts casing t (listedThumbprints s.certs) with
      | none => none
      | some t =>
        if listing.Perm t.records.toList then
          some
            { dir := s.dir
              table := t
              certs := if renamed then none else s.certs
              registry := RustyPick.loadClients casing listing }
        else none

inductive ClientsRun (casing : Casing) (digest : Record → String)
    (ok : ClientsState → ClientsAction → Prop) :
    ClientsState → List ClientsAction → ClientsState → Prop where
  | nil (s : ClientsState) : ClientsRun casing digest ok s [] s
  | snoc {s s' s'' : ClientsState} {as : List ClientsAction} {a : ClientsAction} :
      ClientsRun casing digest ok s as s' → ok s' a → a.perform casing digest s' = some s'' →
      ClientsRun casing digest ok s (as ++ [a]) s''

/-! ## What is to hold -/

/-- A record on file states what the client is granted. -/
def Stated (casing : Casing) (records : Entries) (info : ClientInfo) : Prop :=
  ∃ (name : String) (record : Record), records[name]? = some record ∧
    clientInfo casing name record = some info

/-- The authorizations give each thumbprint what a record states for it, and one that is in no
record nothing. -/
structure GrantsNoMore (casing : Casing) (records : Entries) (registry : Map String ClientInfo) :
    Prop where
  stated : ∀ (thumbprint : String) (info : ClientInfo), registry[thumbprint]? = some info →
    info.thumbprint = thumbprint ∧ Stated casing records info
  unknown : ∀ thumbprint, (∀ info, Stated casing records info → info.thumbprint ≠ thumbprint) →
    registry[thumbprint]? = none

/-- An open finds every thumbprint `certs.reg` lists in a record of `$CLIENTS` on disk, in lower
case. -/
def CertsListed (casing : Casing) (s : ClientsState) (a : ClientsAction) : Prop :=
  match a with
  | .restart _ _ => ∀ t, loadTable s.dir = .ok t → ∀ thumbprint ∈ listedThumbprints s.certs,
    alreadyExists t (casing.lower thumbprint) = true
  | _ => True

/-! ## The open -/

section

variable {casing : Casing} {digest : Record → String}

/-- The registry has what the records listed state, and a thumbprint for each of them. -/
theorem loadClients_spec (casing : Casing) (listing : List (String × Record)) :
    (∀ (thumbprint : String) (info : ClientInfo),
      (loadClients casing listing)[thumbprint]? = some info →
      info.thumbprint = thumbprint ∧
        ∃ entry ∈ listing, clientInfo casing entry.1 entry.2 = some info) ∧
    ∀ entry ∈ listing, ∀ info, clientInfo casing entry.1 entry.2 = some info →
      info.thumbprint ∈ loadClients casing listing := by
  induction listing using List.reverseRecOn with
  | nil => exact ⟨fun _ _ h => by simp [loadClients] at h, fun _ h => by cases h⟩
  | append_singleton listing entry ih =>
    obtain ⟨hstated, hentered⟩ := ih
    have hstep : loadClients casing (listing ++ [entry]) =
        enterClient casing (loadClients casing listing) entry := by
      rw [loadClients, List.foldl_append]
      rfl
    rw [hstep]
    unfold enterClient
    cases hinfo : clientInfo casing entry.1 entry.2 with
    | none =>
      refine ⟨fun thumbprint info h => ?_, fun e he info h => ?_⟩
      · obtain ⟨htp, e, he, h⟩ := hstated thumbprint info h
        exact ⟨htp, e, List.mem_append_left _ he, h⟩
      · rcases List.mem_append.mp he with he | he
        · exact hentered e he info h
        · rw [List.mem_singleton.mp he, hinfo] at h
          cases h
    | some own =>
      refine ⟨fun thumbprint info h => ?_, fun e he info h => ?_⟩
      · dsimp only at h
        rw [getElem?_insert_eq] at h
        split at h
        · rename_i htp
          cases h
          exact ⟨htp, entry, List.mem_append_right _ (List.mem_singleton.mpr rfl), hinfo⟩
        · obtain ⟨htp, e, he, h⟩ := hstated thumbprint info h
          exact ⟨htp, e, List.mem_append_left _ he, h⟩
      · rw [Std.ExtTreeMap.mem_insert]
        rcases List.mem_append.mp he with he | he
        · exact Or.inr (hentered e he info h)
        · rw [List.mem_singleton.mp he, hinfo] at h
          cases h
          exact Or.inl Std.ReflCmp.compare_self

/-- The records read in any order. -/
theorem grantsNoMore_loadClients {listing : List (String × Record)} {records : Entries}
    (h : listing.Perm records.toList) : GrantsNoMore casing records (loadClients casing listing) := by
  obtain ⟨hstated, -⟩ := loadClients_spec casing listing
  have hmem : ∀ entry ∈ listing, records[entry.1]? = some entry.2 := fun entry he =>
    Std.ExtTreeMap.mem_toList_iff_getElem?_eq_some.mp (h.mem_iff.mp he)
  refine ⟨fun thumbprint info hinfo => ?_, fun thumbprint hnone => ?_⟩
  · obtain ⟨htp, entry, he, hread⟩ := hstated thumbprint info hinfo
    exact ⟨htp, entry.1, entry.2, hmem entry he, hread⟩
  · cases hinfo : (loadClients casing listing)[thumbprint]? with
    | none => rfl
    | some info =>
      obtain ⟨htp, entry, he, hread⟩ := hstated thumbprint info hinfo
      exact absurd htp (hnone info ⟨entry.1, entry.2, hmem entry he, hread⟩)

/-- With every thumbprint in a record there is nothing to migrate. -/
theorem migrateCerts_listed {t : Table} : ∀ {thumbprints : List String},
    (∀ thumbprint ∈ thumbprints, alreadyExists t (casing.lower thumbprint) = true) →
    migrateCerts casing t thumbprints = some t := by
  intro thumbprints
  induction thumbprints with
  | nil => intro _; rfl
  | cons thumbprint rest ih =>
    intro h
    rw [migrateCerts, migrateOne, if_pos (h thumbprint List.mem_cons_self)]
    exact ih fun tp htp => h tp (List.mem_cons_of_mem _ htp)

theorem migrateCerts_append {t : Table} : ∀ {init rest : List String},
    migrateCerts casing t (init ++ rest) =
      (migrateCerts casing t init).bind fun t => migrateCerts casing t rest := by
  intro init
  induction init generalizing t with
  | nil => intro _; rfl
  | cons thumbprint init ih =>
    intro rest
    rw [List.cons_append, migrateCerts, migrateCerts]
    cases migrateOne casing t thumbprint with
    | none => rfl
    | some t => exact ih

/-- What is written to the disk: to `$CLIENTS`, or to `certs.reg`. -/
def ClientsAction.writes : ClientsAction → Bool
  | .flush _ _ | .flushStops _ _ _ | .saveCerts _ _ => true
  | _ => false

theorem listedThumbprints_none : listedThumbprints none = [] := by
  simp [listedThumbprints, loadSection]

/-- An open renames `certs.reg` at the most. -/
theorem disk_of_not_writes {casing : Casing} {digest : Record → String} {s s' : ClientsState}
    {a : ClientsAction} (hwrites : a.writes = false) (hp : a.perform casing digest s = some s') :
    s'.dir = s.dir ∧ (s'.certs = s.certs ∨ s'.certs = none) := by
  cases a with
  | flush order perGroup => cases hwrites
  | flushStops order perGroup steps => cases hwrites
  | saveCerts thumbprints length => cases hwrites
  | loadClients listing =>
    simp only [ClientsAction.perform] at hp
    split at hp
    · cases hp
      exact ⟨rfl, .inl rfl⟩
    · cases hp
  | restart listing renamed =>
    simp only [ClientsAction.perform] at hp
    split at hp
    · cases hp
    · split at hp
      · cases hp
      · split at hp
        · cases hp
          cases renamed
          · exact ⟨rfl, .inl rfl⟩
          · exact ⟨rfl, .inr rfl⟩
        · cases hp
  | _ =>
    cases hp
    exact ⟨rfl, .inl rfl⟩

/-- Only a flush and a save of `certs.reg` change what the next open finds: until one of them, the
listed thumbprints stay in the records that are loaded. -/
theorem certsListed_of_run {casing : Casing} {digest : Record → String} {s s' : ClientsState}
    {as : List ClientsAction} {listing listing' : List (String × Record)} {renamed renamed' : Bool}
    (h : CertsListed casing s (.restart listing renamed))
    (hrun : ClientsRun casing digest (fun _ a => a.writes = false) s as s') :
    CertsListed casing s' (.restart listing' renamed') := by
  induction hrun with
  | nil => exact h
  | snoc hrun hwrites hp ih =>
    obtain ⟨hdir, hcerts⟩ := disk_of_not_writes hwrites hp
    intro t hload thumbprint htp
    rw [hdir] at hload
    rcases hcerts with hsame | hgone
    · rw [hsame] at htp
      exact ih t hload thumbprint htp
    · rw [hgone, listedThumbprints_none] at htp
      cases htp

/-- A thumbprint in no record that is listed last is authorized by the open. -/
theorem migrated_raises {t t₁ t' : Table} {init : List String} {thumbprint : String}
    {listing : List (String × Record)} (hinit : migrateCerts casing t init = some t₁)
    (hnew : alreadyExists t₁ (casing.lower thumbprint) = false)
    (hnone : ∀ info, Stated casing t.records info →
      info.thumbprint ≠ casing.lower (casing.lower thumbprint))
    (hall : migrateCerts casing t (init ++ [thumbprint]) = some t')
    (hperm : listing.Perm t'.records.toList) :
    ¬ GrantsNoMore casing t.records (loadClients casing listing) := by
  intro hgrants
  rw [migrateCerts_append, hinit, Option.bind_some, migrateCerts, migrateOne, hnew,
    if_neg Bool.false_ne_true] at hall
  cases hshort : sliceTo 8 thumbprint.toList with
  | none =>
    rw [hshort] at hall
    cases hall
  | some short =>
    rw [hshort] at hall
    cases hall
    obtain ⟨info, hinfo, htp⟩ :
        ∃ info, clientInfo casing ("migrated_" ++ String.ofList short)
            (migratedRecord (casing.lower thumbprint)) = some info ∧
          info.thumbprint = casing.lower (casing.lower thumbprint) :=
      ⟨_, rfl, congrArg casing.lower (fromUtf8Lossy_utf8 _)⟩
    have hentry : ("migrated_" ++ String.ofList short,
        migratedRecord (casing.lower thumbprint)) ∈ listing := by
      refine hperm.mem_iff.mpr (Std.ExtTreeMap.mem_toList_iff_getElem?_eq_some.mpr ?_)
      exact Std.ExtTreeMap.getElem?_insert_self
    have hin := (loadClients_spec casing listing).2 _ hentry info hinfo
    have hout := hgrants.unknown _ hnone
    rw [htp, Std.ExtTreeMap.mem_iff_isSome_getElem?, hout] at hin
    cases hin

end

/-- In every run of client commands, record commands, flushes and restarts in which each open finds
the listed thumbprints in `$CLIENTS`, an open grants no thumbprint more than the records on disk
state for it. -/
theorem restart_grants_no_more (casing : Casing) (digest : Record → String) {s s' : ClientsState}
    {as : List ClientsAction} {listing : List (String × Record)} {renamed : Bool}
    (hrun : ClientsRun casing digest (CertsListed casing) s (as ++ [.restart listing renamed]) s') :
    ∃ t, loadTable s'.dir = .ok t ∧ GrantsNoMore casing t.records s'.registry := by
  generalize hall : as ++ [ClientsAction.restart listing renamed] = all at hrun
  cases hrun with
  | nil => exact absurd hall (by simp)
  | snoc _ hok hp =>
    obtain ⟨-, heq⟩ := List.append_inj' hall rfl
    cases heq
    simp only [ClientsAction.perform] at hp
    split at hp
    · cases hp
    · rename_i t hload
      rw [migrateCerts_listed (hok t hload)] at hp
      dsimp only at hp
      split at hp
      · rename_i hperm
        cases hp
        exact ⟨t, hload, grantsNoMore_loadClients hperm⟩
      · cases hp

/-! ## Runs by evaluation -/

def clientsAll (casing : Casing) (digest : Record → String)
    (check : ClientsState → ClientsAction → Bool) :
    ClientsState → List ClientsAction → Option ClientsState
  | s, [] => some s
  | s, a :: rest =>
    if check s a then (a.perform casing digest s).bind fun s => clientsAll casing digest check s rest
    else none

theorem clientsRun_of_all {casing : Casing} {digest : Record → String}
    {check : ClientsState → ClientsAction → Bool} {ok : ClientsState → ClientsAction → Prop}
    (hok : ∀ s a, check s a = true → ok s a) :
    ∀ {as pre : List ClientsAction} {s s₁ s' : ClientsState},
    ClientsRun casing digest ok s pre s₁ → clientsAll casing digest check s₁ as = some s' →
    ClientsRun casing digest ok s (pre ++ as) s' := by
  intro as
  induction as with
  | nil =>
    intro pre s s₁ s' hrun h
    cases h
    rw [List.append_nil]
    exact hrun
  | cons a rest ih =>
    intro pre s s₁ s' hrun h
    rw [clientsAll] at h
    split at h
    · rename_i hcheck
      obtain ⟨s₂, hp, hrest⟩ := Option.bind_eq_some_iff.mp h
      rw [List.append_cons]
      exact ih (.snoc hrun (hok _ _ hcheck) hp) hrest
    · cases h

/-- `CertsListed`, decided. -/
def certsListedNow (casing : Casing) (s : ClientsState) : ClientsAction → Bool
  | .restart _ _ =>
    match loadTable s.dir with
    | .error _ => true
    | .ok t => (listedThumbprints s.certs).all fun thumbprint =>
      alreadyExists t (casing.lower thumbprint)
  | _ => true

theorem certsListed_of_now (casing : Casing) (s : ClientsState) (a : ClientsAction)
    (h : certsListedNow casing s a = true) : CertsListed casing s a := by
  cases a with
  | restart listing renamed =>
    intro t hload thumbprint htp
    simp only [certsListedNow, hload] at h
    exact List.all_eq_true.mp h thumbprint htp
  | _ => trivial

/-- Casing of texts that are ASCII. -/
def asciiCasing : Casing where
  lower := asciiLowercase
  upper := fun s => String.ofList (s.toList.map Char.toUpper)

def clientsEmpty : ClientsState :=
  { dir := { path := "SYSTEM/$CLIENTS", data := { path := "SYSTEM/$CLIENTS/data" } } }

/-- A client of one account. -/
def appGrant : Table.ClientGrant :=
  { allowedAccounts := ["SALES"], isAdmin := false, capabilities := [], expiresAt := none,
    enqueueFiles := [] }

def appRecord : Record := Table.clientRecord "0123456789ab" appGrant

/-- `AUTHORIZE.CONN`. -/
def authorizeApp : List ClientsAction :=
  [.addAuthorizedClient "APP" "0123456789AB" appGrant, .flush .plain 16,
    .loadClients [("APP", appRecord)], .saveCerts ["0123456789ab"] none]

theorem authorized_app_restarts :
    ∃ s t, ClientsRun asciiCasing (fun _ => "") (CertsListed asciiCasing) clientsEmpty
        (authorizeApp ++ [.restart [("APP", appRecord.stored)] true]) s ∧
      loadTable s.dir = .ok t ∧ GrantsNoMore asciiCasing t.records s.registry := by
  have hall : (clientsAll asciiCasing (fun _ => "") (certsListedNow asciiCasing) clientsEmpty
      (authorizeApp ++ [.restart [("APP", appRecord.stored)] true])).isSome = true := by
    decide +kernel
  obtain ⟨s, hs⟩ := Option.isSome_iff_exists.mp hall
  have hrun := clientsRun_of_all (certsListed_of_now asciiCasing) (.nil clientsEmpty) hs
  obtain ⟨t, hload, hgrants⟩ := restart_grants_no_more asciiCasing (fun _ => "") hrun
  exact ⟨s, t, hrun, hload, hgrants⟩

/-- The client's record deleted as a record is, which leaves its thumbprint in `certs.reg`. -/
def deleteApp : List ClientsAction := [.delete "APP" false .always, .flush .plain 16]

/-- The record an open makes of it. -/
def migratedApp : String × Record := ("migrated_01234567", migratedRecord "0123456789ab")

theorem restart_raises_authority :
    ∃ s t info, ClientsRun asciiCasing (fun _ => "") (fun _ _ => True) clientsEmpty
        (authorizeApp ++ deleteApp ++ [.restart [migratedApp] true]) s ∧
      loadTable s.dir = .ok t ∧ t.records.isEmpty = true ∧
      s.registry["0123456789ab"]? = some info ∧ info.isAdmin = true ∧
      ¬ GrantsNoMore asciiCasing t.records s.registry := by
  have hall : (clientsAll asciiCasing (fun _ => "") (fun _ _ => true) clientsEmpty
      (authorizeApp ++ deleteApp ++ [.restart [migratedApp] true])).any (fun s =>
        ((loadTable s.dir).toOption.any fun t => t.records.isEmpty) &&
          s.registry["0123456789ab"]?.any fun info => info.isAdmin) = true := by
    decide +kernel
  obtain ⟨s, hs, hcheck⟩ := (Option.any_eq_true _ _).mp hall
  have hrun := clientsRun_of_all (fun _ _ _ => trivial)
    (.nil clientsEmpty) hs
  obtain ⟨hloaded, hadmin⟩ := Bool.and_eq_true_iff.mp hcheck
  obtain ⟨t, ht, hempty⟩ := (Option.any_eq_true _ _).mp hloaded
  obtain ⟨info, hinfo, hadmin⟩ := (Option.any_eq_true _ _).mp hadmin
  refine ⟨s, t, info, hrun, ?_, hempty, hinfo, hadmin, fun h => ?_⟩
  · cases hload : loadTable s.dir with
    | error e => rw [hload] at ht; cases ht
    | ok t' => rw [hload] at ht; cases ht; rfl
  · obtain ⟨-, name, record, hrecord, -⟩ := h.stated _ _ hinfo
    have hnone : t.records[name]? = none := by
      rw [Std.ExtTreeMap.isEmpty_iff.mp hempty]
      exact Std.ExtTreeMap.getElem?_empty
    rw [hnone] at hrecord
    cases hrecord

end RustyPick
