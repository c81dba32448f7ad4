import RustyPick.Authority
import RustyPick.Marking
import RustyPick.RecordCodec

/-!
# RustyPick.ClientGrants

What a client is granted and what the registry says of it (`db/engine/mod.rs`).

A grant is written into the client's record as texts, the record is stored and may be read back
before it is listed, and the registry keeps what was listed under the thumbprint. Records have
names; two of them may state one thumbprint, and then the order of the listing decides between
them.

* `registry_iff`, `determined_iff`: the registry as a relation of the records, and that it is one
  exactly where no two names state a thumbprint.
* `clientInfo_stored`: a record that has been read back authorizes as it did before.
* `registry_decided_by_grants`: what holds after every operation.
* `shared_thumbprint`: two names, one thumbprint.
-/

namespace RustyPick

open Lib

/-! ## Grants as texts -/

/-- `EnqueueGrant::as_string`. -/
def EnqueueGrant.asString (grant : EnqueueGrant) : String := grant.account ++ "/" ++ grant.file

structure ClientGrant where
  allowedAccounts : List String := []
  isAdmin : Bool := false
  capabilities : List Capability := []
  expiresAt : Option String := none
  enqueueFiles : List EnqueueGrant := []
  deriving DecidableEq, Repr

/-- A grant as `$CLIENTS` stores it. -/
def ClientGrant.asTexts (grant : ClientGrant) : Table.ClientGrant where
  allowedAccounts := grant.allowedAccounts
  isAdmin := grant.isAdmin
  capabilities := grant.capabilities.map Capability.asStr
  expiresAt := grant.expiresAt
  enqueueFiles := grant.enqueueFiles.map EnqueueGrant.asString

/-! ## The operations -/

structure GrantState where
  /-- `$CLIENTS`. -/
  table : Table := {}
  registry : Map String ClientInfo := ∅

inductive GrantAction where
  | addAuthorizedClient (name thumbprint : String) (grant : ClientGrant)
  | addClientAccount (name account : String)
  | removeClientAccount (name account : String)
  | removeAuthorizedClient (name : String)
  deriving DecidableEq

/-- What an operation does to the records, and whether it goes on to save them. -/
def GrantAction.edit (casing : Casing) (t : Table) : GrantAction → Bool × Table
  | .addAuthorizedClient name thumbprint grant =>
    (true, t.addAuthorizedClient name (casing.lower thumbprint) grant.asTexts)
  | .addClientAccount name account => t.addClientAccount name account
  | .removeClientAccount name account => t.removeClientAccount name account
  | .removeAuthorizedClient name => t.removeAuthorizedClient name

/-- An operation and what happens to it: whether its save goes through, whether the table is read
back from disk before it is listed, and the order the map lists it in. -/
structure GrantStep where
  action : GrantAction
  saved : Bool := true
  reread : Bool := false
  listing : List (String × Record) := []

def Table.reread (t : Table) : Table := { t with records := storedForm t.records }

/-- The table an operation lists. -/
def GrantStep.listed (casing : Casing) (s : GrantState) (step : GrantStep) : Table :=
  let t := (step.action.edit casing s.table).2
  if step.reread then t.reread else t

/-- One operation. `none` where the listing is not one of the table. -/
def GrantStep.perform (casing : Casing) (s : GrantState) (step : GrantStep) : Option GrantState :=
  let (changed, t) := step.action.edit casing s.table
  if ¬ changed ∨ ¬ step.saved then some { s with table := t }
  else if step.listing.Perm (step.listed casing s).records.toList then
    some { table := step.listed casing s, registry := loadClients casing step.listing }
  else none

def clientForThumbprint (s : GrantState) (thumbprint : String) : Option ClientInfo :=
  s.registry[thumbprint]?

/-- The states that operations lead to, each of them meeting `ok` where it is performed. -/
inductive GrantRun (casing : Casing) (ok : GrantState → GrantStep → Prop) :
    GrantState → List GrantStep → GrantState → Prop where
  | nil (s : GrantState) : GrantRun casing ok s [] s
  | snoc {s s₁ s₂ : GrantState} {steps : List GrantStep} {step : GrantStep} :
      GrantRun casing ok s steps s₁ → ok s₁ step → step.perform casing s₁ = some s₂ →
      GrantRun casing ok s (steps ++ [step]) s₂

/-! ## What is to hold -/

/-- What the registry says of a client is what it was granted: the accounts that have a name, and
each capability and enqueue grant once, none of them for an administrator. -/
structure ReportsGrant (info : ClientInfo) (name : String) (grant : ClientGrant) : Prop where
  name : info.name = name
  accounts : info.allowedAccounts = grant.allowedAccounts.filter fun account => account ≠ ""
  isAdmin : info.isAdmin = grant.isAdmin
  expiresAt : info.expiresAt = grant.expiresAt
  capabilities : ∀ c, c ∈ info.capabilities ↔ grant.isAdmin = false ∧ c ∈ grant.capabilities
  capabilities_nodup : info.capabilities.Nodup
  enqueueFiles : ∀ g, g ∈ info.enqueueFiles ↔ grant.isAdmin = false ∧ g ∈ grant.enqueueFiles
  enqueueFiles_nodup : info.enqueueFiles.Nodup

/-- Another account list for one client. -/
def ClientInfo.withAccounts (name : String) (accounts : List String) (info : ClientInfo) :
    ClientInfo :=
  if info.name = name then { info with allowedAccounts := accounts } else info

/-- The registry after an operation: the one every listing of the records gives, with the grant that
was given and nothing but an account list touched by the account commands. -/
structure GrantsDecide (casing : Casing) (s s' : GrantState) (action : GrantAction) : Prop where
  loaded : ∀ listing : List (String × Record), listing.Perm s'.table.records.toList →
    s'.registry = loadClients casing listing
  granted : ∀ name thumbprint grant, action = .addAuthorizedClient name thumbprint grant →
    ∃ info, clientForThumbprint s' (casing.lower thumbprint) = some info ∧
      ReportsGrant info name grant
  account : ∀ name account,
    action = .addClientAccount name account ∨ action = .removeClientAccount name account →
    ∃ accounts, ∀ thumbprint, clientForThumbprint s' thumbprint =
      (clientForThumbprint s thumbprint).map (ClientInfo.withAccounts name accounts)

/-- No two names state one thumbprint. -/
def OneName (casing : Casing) (records : Entries) : Prop :=
  ∀ info info', Stated casing records info → Stated casing records info' →
    info.thumbprint = info'.thumbprint → info = info'

/-- When an operation leaves the registry to the grants: a save does not fail, no other client has
the thumbprint, and what is granted is spelled as it is read. -/
def GrantKept (casing : Casing) (s : GrantState) (step : GrantStep) : Prop :=
  ((step.action.edit casing s.table).1 = true → step.saved = true) ∧
    match step.action with
    | .addAuthorizedClient name thumbprint grant =>
      (∀ info, Stated casing s.table.records info → info.thumbprint = casing.lower thumbprint →
        info.name = name) ∧
      (∀ text, grant.expiresAt = some text → trim text = text ∧ text ≠ "") ∧
      (grant.isAdmin = false → ∀ g ∈ grant.enqueueFiles,
        EnqueueGrant.parse casing g.asString = some g)
    | _ => True

section

variable {casing : Casing}

/-! ## The registry of some records -/

theorem name_of_clientInfo {name : String} {record : Record} {info : ClientInfo}
    (h : clientInfo casing name record = some info) : info.name = name := by
  obtain ⟨thumbprint, -, rfl⟩ := Option.map_eq_some_iff.mp h
  rfl

theorem stated_listing {listing : List (String × Record)} {records : Entries}
    (hperm : listing.Perm records.toList) {info : ClientInfo} :
    Stated casing records info ↔
      ∃ entry ∈ listing, clientInfo casing entry.1 entry.2 = some info := by
  have hmem : ∀ entry, entry ∈ listing ↔ records[entry.1]? = some entry.2 := fun entry =>
    hperm.mem_iff.trans Std.ExtTreeMap.mem_toList_iff_getElem?_eq_some
  constructor
  · rintro ⟨name, record, hrecord, hinfo⟩
    exact ⟨(name, record), (hmem _).mpr hrecord, hinfo⟩
  · rintro ⟨entry, he, hinfo⟩
    exact ⟨entry.1, entry.2, (hmem entry).mp he, hinfo⟩

/-- With one name to a thumbprint the registry is the relation the records state. -/
theorem registry_iff {listing : List (String × Record)} {records : Entries}
    (hone : OneName casing records) (hperm : listing.Perm records.toList) {thumbprint : String}
    {info : ClientInfo} :
    (loadClients casing listing)[thumbprint]? = some info ↔
      Stated casing records info ∧ info.thumbprint = thumbprint := by
  obtain ⟨hstated, hentered⟩ := loadClients_spec casing listing
  constructor
  · intro h
    obtain ⟨htp, hentry⟩ := hstated thumbprint info h
    exact ⟨(stated_listing hperm).mpr hentry, htp⟩
  · rintro ⟨hinfo, rfl⟩
    obtain ⟨entry, he, hread⟩ := (stated_listing hperm).mp hinfo
    obtain ⟨found, hfound⟩ := mem_iff_exists.mp (hentered entry he info hread)
    obtain ⟨htp, hentry⟩ := hstated _ _ hfound
    rw [hfound, hone found info ((stated_listing hperm).mpr hentry) hinfo htp]

/-- A listing with one entry last enters what that entry says. -/
theorem loadClients_last (listing : List (String × Record)) {name : String} {record : Record}
    {info : ClientInfo} (h : clientInfo casing name record = some info) :
    (loadClients casing (listing ++ [(name, record)]))[info.thumbprint]? = some info := by
  rw [loadClients, List.foldl_append, List.foldl_cons, List.foldl_nil, enterClient, h]
  exact Std.ExtTreeMap.getElem?_insert_self

/-- The order of the listing decides nothing exactly where no two names state a thumbprint. -/
theorem determined_iff {records : Entries} :
    (∀ listing listing' : List (String × Record), listing.Perm records.toList →
      listing'.Perm records.toList → loadClients casing listing = loadClients casing listing') ↔
      OneName casing records := by
  constructor
  · intro h info info' ⟨name, record, hrecord, hinfo⟩ ⟨name', record', hrecord', hinfo'⟩ htp
    have hlast : ∀ {name record}, records[name]? = some record →
        (records.toList.erase (name, record) ++ [(name, record)]).Perm records.toList :=
      fun hget => (List.perm_append_singleton _ _).trans (List.perm_cons_erase
        (Std.ExtTreeMap.mem_toList_iff_getElem?_eq_some.mpr hget)).symm
    have hsame := congrArg (fun m : Map String ClientInfo => m[info.thumbprint]?)
      (h _ _ (hlast hrecord) (hlast hrecord'))
    rw [loadClients_last _ hinfo, htp, loadClients_last _ hinfo'] at hsame
    exact Option.some.inj hsame
  · intro hone listing listing' hperm hperm'
    refine Std.ExtTreeMap.ext_getElem? fun thumbprint => Option.ext fun info => ?_
    rw [registry_iff hone hperm, registry_iff hone hperm']

/-! ## A record read back -/

/-- The text of a value, unless it is empty. -/
def Value.shown (v : Value) : Option String := v.firstText.filter fun text => text ≠ ""

theorem Value.shown_settled (v : Value) : v.settled.shown = v.shown := by
  unfold Value.settled
  split
  · rename_i h
    simp [Value.shown, Value.firstText, Value.blank, h, textOf_nil]
  · rfl

/-- A client's record as it may be on disk: without marks, not stored as no bytes, and with a
thumbprint. -/
structure Record.Readable (r : Record) : Prop where
  plain : r.Plain
  nonempty : r.toBytes ≠ []
  thumbprint : ∃ text, r.firstTextAt Table.SYS_CLIENTS_THUMBPRINT_IDX = some text

theorem Record.valuesAt_stored {r : Record} (h : r.Readable) (idx : Nat) :
    r.stored.valuesAt idx = r.valuesAt idx ∨
      r.stored.valuesAt idx = (r.valuesAt idx).map Value.settled ∨
      r.valuesAt idx = [] ∧ r.stored.valuesAt idx = [Value.blank] := by
  rw [Record.stored_plain h.plain, if_neg h.nonempty]
  simp only [Record.valuesAt, List.getElem?_map]
  cases r.fields[idx]? with
  | none => exact Or.inl rfl
  | some f =>
    simp only [Option.map_some, Option.getD_some, Field.settled]
    split
    · rename_i hnil
      exact Or.inr (Or.inr ⟨hnil, rfl⟩)
    · exact Or.inr (Or.inl rfl)

theorem Value.shown_blank : Value.blank.shown = none := by
  simp [Value.shown, Value.firstText, Value.blank, textOf_nil]

theorem Record.shown_stored {r : Record} (h : r.Readable) (idx : Nat) :
    (r.stored.valuesAt idx).filterMap Value.shown = (r.valuesAt idx).filterMap Value.shown := by
  rcases valuesAt_stored h idx with heq | heq | ⟨hnil, heq⟩
  · rw [heq]
  · rw [heq, List.filterMap_map]
    congr 1
    exact funext Value.shown_settled
  · rw [heq, hnil, List.filterMap_cons_none Value.shown_blank]

/-- The first text of a field, unless it is empty. -/
def Record.firstShown (r : Record) (idx : Nat) : Option String :=
  (r.valuesAt idx).head?.bind Value.shown

theorem Record.firstShown_eq (r : Record) (idx : Nat) :
    r.firstShown idx = (r.firstTextAt idx).filter fun text => text ≠ "" := by
  unfold firstShown firstTextAt
  cases (r.valuesAt idx).head? <;> rfl

theorem Record.firstShown_stored {r : Record} (h : r.Readable) (idx : Nat) :
    r.stored.firstShown idx = r.firstShown idx := by
  unfold firstShown
  rcases valuesAt_stored h idx with heq | heq | ⟨hnil, heq⟩
  · rw [heq]
  · rw [heq, List.head?_map]
    cases (r.valuesAt idx).head? with
    | none => rfl
    | some v => exact Value.shown_settled v
  · rw [heq, hnil]
    exact Value.shown_blank

theorem Record.thumbprint_stored {r : Record} (h : r.Readable) :
    r.stored.firstTextAt Table.SYS_CLIENTS_THUMBPRINT_IDX =
      r.firstTextAt Table.SYS_CLIENTS_THUMBPRINT_IDX := by
  obtain ⟨text, htext⟩ := h.thumbprint
  rcases valuesAt_stored h Table.SYS_CLIENTS_THUMBPRINT_IDX with heq | heq | ⟨hnil, -⟩
  · rw [firstTextAt, firstTextAt, heq]
  · rw [firstTextAt, firstTextAt, heq, List.head?_map]
    unfold firstTextAt at htext
    obtain ⟨v, hv, hfirst⟩ := Option.bind_eq_some_iff.mp htext
    have hsubs : v.subValues ≠ [] := by
      intro hc
      simp [Value.firstText, hc] at hfirst
    rw [hv, Option.map_some, Option.bind_some, Option.bind_some, Value.settled, if_neg hsubs]
  · rw [firstTextAt, hnil] at htext
    cases htext

/-- One text read, unless what it stands for is there. -/
def keepParsed {α : Type} [DecidableEq α] (parse : String → Option α) (found : List α)
    (text : String) : List α :=
  match parse text with
  | some a => if a ∈ found then found else found ++ [a]
  | none => found

/-- What is read of the values one by one is read of the texts that are not empty. -/
theorem parsedOnce_eq {α : Type} [DecidableEq α] {parse : String → Option α}
    (hempty : parse "" = none) (values : List Value) :
    parsedOnce parse values = (values.filterMap Value.shown).foldl (keepParsed parse) [] := by
  rw [List.foldl_filterMap, parsedOnce]
  congr 1
  funext found v
  unfold Value.shown
  cases hfirst : v.firstText with
  | none => rfl
  | some text =>
    by_cases htext : text = ""
    · simp [Option.filter, htext, hempty]
    · cases hparse : parse text with
      | none => simp [Option.filter, htext, keepParsed, hparse]
      | some a => simp [Option.filter, htext, keepParsed, hparse]

theorem trim_empty : trim "" = "" := by decide +kernel

theorem Capability.parse_empty : Capability.parse "" = none := by decide +kernel

theorem EnqueueGrant.parse_empty (casing : Casing) : EnqueueGrant.parse casing "" = none := by
  rw [EnqueueGrant.parse, trim_empty]
  rfl

/-- A client's record authorizes the same when it has been read back. -/
theorem clientInfo_stored {r : Record} (h : r.Readable) (name : String) :
    clientInfo casing name r.stored = clientInfo casing name r := by
  have hadmin : r.stored.firstTextAt Table.SYS_CLIENTS_ADMIN_IDX = some "Y" ↔
      r.firstTextAt Table.SYS_CLIENTS_ADMIN_IDX = some "Y" := by
    have hshown : ∀ r : Record, r.firstTextAt Table.SYS_CLIENTS_ADMIN_IDX = some "Y" ↔
        r.firstShown Table.SYS_CLIENTS_ADMIN_IDX = some "Y" := by
      intro r
      rw [Record.firstShown_eq, Option.filter_eq_some_iff]
      simp
    rw [hshown, hshown, Record.firstShown_stored h]
  have hexpires : ∀ r : Record,
      ((r.firstTextAt Table.SYS_CLIENTS_EXPIRES_IDX).map trim).filter (fun text => text ≠ "") =
        ((r.firstShown Table.SYS_CLIENTS_EXPIRES_IDX).map trim).filter fun text => text ≠ "" := by
    intro r
    rw [Record.firstShown_eq]
    cases r.firstTextAt Table.SYS_CLIENTS_EXPIRES_IDX with
    | none => rfl
    | some text =>
      by_cases htext : text = ""
      · simp [Option.filter, htext, trim_empty]
      · simp [Option.filter, htext]
  have haccounts := Record.shown_stored h Table.SYS_CLIENTS_ACCOUNTS_IDX
  unfold Value.shown at haccounts
  unfold clientInfo
  rw [Record.thumbprint_stored h, haccounts, parsedOnce_eq Capability.parse_empty,
    parsedOnce_eq (EnqueueGrant.parse_empty casing), parsedOnce_eq Capability.parse_empty,
    parsedOnce_eq (EnqueueGrant.parse_empty casing), Record.shown_stored h,
    Record.shown_stored h, hexpires, hexpires r, Record.firstShown_stored h]
  simp only [hadmin]

/-! ## A grant written down -/

theorem Value.firstText_text (s : String) : (Value.text s).firstText = some s :=
  congrArg some (fromUtf8Lossy_utf8 s)

theorem parsedOnce_append {α : Type} [DecidableEq α] (parse : String → Option α)
    (values : List Value) (v : Value) :
    parsedOnce parse (values ++ [v]) =
      match v.firstText.bind parse with
      | some a => if a ∈ parsedOnce parse values then parsedOnce parse values
        else parsedOnce parse values ++ [a]
      | none => parsedOnce parse values := by
  rw [parsedOnce, List.foldl_append]
  rfl

/-- Each result is kept once. -/
theorem parsedOnce_spec {α : Type} [DecidableEq α] (parse : String → Option α)
    (values : List Value) :
    (parsedOnce parse values).Nodup ∧
      ∀ a, a ∈ parsedOnce parse values ↔ ∃ v ∈ values, v.firstText.bind parse = some a := by
  induction values using List.reverseRecOn with
  | nil => exact ⟨List.nodup_nil, fun a => by simp [parsedOnce]⟩
  | append_singleton values v ih =>
    obtain ⟨hnodup, hmem⟩ := ih
    simp only [parsedOnce_append, List.mem_append, List.mem_singleton, or_and_right, exists_or,
      exists_eq_left]
    cases hv : v.firstText.bind parse with
    | none => exact ⟨hnodup, fun a => by simp [hmem]⟩
    | some b =>
      dsimp only
      split
      · rename_i hb
        refine ⟨hnodup, fun a => (hmem a).trans (or_iff_left_of_imp ?_).symm⟩
        rintro ⟨⟩
        exact (hmem b).mp hb
      · rename_i hb
        refine ⟨List.nodup_append.mpr ⟨hnodup, List.nodup_singleton b, ?_⟩, fun a => ?_⟩
        · rintro a ha c hc rfl
          exact hb (List.mem_singleton.mp hc ▸ ha)
        · rw [List.mem_append, List.mem_singleton, hmem, Option.some.injEq, eq_comm (a := a)]

/-- Texts that parse as what they stand for. -/
theorem parsedOnce_texts {α : Type} [DecidableEq α] {parse : String → Option α} {f : α → String}
    {granted : List α} (h : ∀ a ∈ granted, parse (f a) = some a) :
    (parsedOnce parse (Table.textField (granted.map f)).values).Nodup ∧
      ∀ a, a ∈ parsedOnce parse (Table.textField (granted.map f)).values ↔ a ∈ granted := by
  obtain ⟨hnodup, hmem⟩ := parsedOnce_spec parse (Table.textField (granted.map f)).values
  refine ⟨hnodup, fun a => (hmem a).trans ?_⟩
  simp only [Table.textField, List.map_map, List.mem_map, Function.comp_apply,
    exists_exists_and_eq_and, Value.firstText_text, Option.bind_some]
  constructor
  · rintro ⟨b, hb, hparse⟩
    rw [h b hb] at hparse
    exact Option.some.inj hparse ▸ hb
  · intro ha
    exact ⟨a, ha, h a ha⟩

theorem Capability.parse_asStr (c : Capability) : Capability.parse c.asStr = some c := by
  cases c <;> decide +kernel

/-- What the registry reads off a record `add_authorized_client` wrote. -/
theorem clientInfo_granted (hlower : ∀ s, casing.lower (casing.lower s) = casing.lower s)
    (name thumbprint : String) {grant : ClientGrant}
    (hexpires : ∀ text, grant.expiresAt = some text → trim text = text ∧ text ≠ "")
    (henqueue : grant.isAdmin = false → ∀ g ∈ grant.enqueueFiles,
      EnqueueGrant.parse casing g.asString = some g) :
    ∃ info, clientInfo casing name (Table.clientRecord (casing.lower thumbprint) grant.asTexts) =
        some info ∧
      info.thumbprint = casing.lower thumbprint ∧ ReportsGrant info name grant := by
  have haccounts : ((Table.textField grant.allowedAccounts).values.filterMap fun v =>
      v.firstText.filter fun account => account ≠ "") =
        grant.allowedAccounts.filter fun account => account ≠ "" := by
    rw [Table.textField, List.filterMap_map, ← List.filterMap_eq_filter]
    congr 1
    funext account
    simp only [Function.comp_apply, Value.firstText_text, Option.filter_some, Option.guard]
  have hadmin : decide ((Value.text (if grant.isAdmin then "Y" else "")).firstText = some "Y") =
      grant.isAdmin := by
    rw [Value.firstText_text]
    cases grant.isAdmin <;> decide
  have hexpiry : (((grant.expiresAt.toList.map Value.text).head?.bind Value.firstText).map
      trim).filter (fun text => text ≠ "") = grant.expiresAt := by
    cases htext : grant.expiresAt with
    | none => rfl
    | some text =>
      obtain ⟨htrim, hne⟩ := hexpires text htext
      simp [Value.firstText_text, htrim, hne]
  have hcapabilities : (parsedOnce Capability.parse (Table.textField
      (if grant.isAdmin then [] else grant.capabilities.map Capability.asStr)).values).Nodup ∧
      ∀ c, c ∈ parsedOnce Capability.parse (Table.textField
        (if grant.isAdmin then [] else grant.capabilities.map Capability.asStr)).values ↔
        grant.isAdmin = false ∧ c ∈ grant.capabilities := by
    cases grant.isAdmin with
    | true => exact ⟨List.nodup_nil, fun c => by simp [Table.textField, parsedOnce]⟩
    | false =>
      have hparse : ∀ c ∈ grant.capabilities, Capability.parse c.asStr = some c :=
        fun c _ => Capability.parse_asStr c
      obtain ⟨hnodup, hmem⟩ := parsedOnce_texts hparse
      exact ⟨hnodup, fun c => (hmem c).trans (by simp)⟩
  have hfiles : (parsedOnce (EnqueueGrant.parse casing) (Table.textField
      (if grant.isAdmin then [] else grant.enqueueFiles.map EnqueueGrant.asString)).values).Nodup ∧
      ∀ g, g ∈ parsedOnce (EnqueueGrant.parse casing) (Table.textField
        (if grant.isAdmin then [] else grant.enqueueFiles.map EnqueueGrant.asString)).values ↔
        grant.isAdmin = false ∧ g ∈ grant.enqueueFiles := by
    cases hcase : grant.isAdmin with
    | true => exact ⟨List.nodup_nil, fun g => by simp [Table.textField, parsedOnce]⟩
    | false =>
      obtain ⟨hnodup, hmem⟩ := parsedOnce_texts (henqueue hcase)
      exact ⟨hnodup, fun g => (hmem g).trans (by simp)⟩
  refine ⟨_, Option.map_eq_some_iff.mpr ⟨casing.lower thumbprint, Value.firstText_text _, rfl⟩,
    hlower thumbprint, ?_⟩
  exact ⟨rfl, haccounts, hadmin, hexpiry, hcapabilities.2, hcapabilities.1, hfiles.2, hfiles.1⟩

/-! ## The records after an edit -/

theorem Record.toBytes_ne_nil {r : Record} (h : 2 ≤ r.fields.length) : r.toBytes ≠ [] := by
  intro hc
  rcases Record.toBytes_eq_nil hc with hnil | ⟨f, hone, -⟩
  · simp [hnil] at h
  · simp [hone] at h

theorem readable_clientRecord (thumbprint : String) (grant : Table.ClientGrant) :
    (Table.clientRecord thumbprint grant).Readable := by
  refine ⟨?_, Record.toBytes_ne_nil (by simp [Table.clientRecord]), thumbprint,
    Value.firstText_text thumbprint⟩
  intro f hf v hv
  obtain ⟨texts, rfl⟩ : ∃ texts, f = Table.textField texts := by
    simp only [Table.clientRecord, List.mem_cons, List.not_mem_nil, or_false] at hf
    rcases hf with rfl | rfl | rfl | rfl | rfl | rfl <;> exact ⟨_, rfl⟩
  obtain ⟨text, -, rfl⟩ := List.mem_map.mp hv
  exact Value.plain_text text

/-- Empty fields at the end say nothing. -/
theorem valuesAt_padFields (fields : List Field) (n idx : Nat) :
    ({ fields := Table.padFields fields n } : Record).valuesAt idx =
      ({ fields := fields } : Record).valuesAt idx := by
  simp only [Record.valuesAt, Table.padFields, List.getElem?_append]
  split
  · rfl
  · rename_i hlen
    rw [List.getElem?_eq_none (not_lt.mp hlen), List.getElem?_replicate]
    split <;> rfl

theorem valuesAt_set (fields : List Field) {n idx : Nat} (h : n ≠ idx) (f : Field) :
    ({ fields := fields.set n f } : Record).valuesAt idx =
      ({ fields := fields } : Record).valuesAt idx := by
  simp only [Record.valuesAt, List.getElem?_set_ne h]

theorem length_padFields (fields : List Field) (n : Nat) :
    n + 1 ≤ (Table.padFields fields n).length := by
  simp only [Table.padFields, List.length_append, List.length_replicate]
  omega

theorem plain_padFields {fields : List Field} (h : ∀ f ∈ fields, f.Plain) (n : Nat) :
    ∀ f ∈ Table.padFields fields n, f.Plain := by
  intro f hf
  rcases List.mem_append.mp hf with hf | hf
  · exact h f hf
  · rw [(List.mem_replicate.mp hf).2]
    exact fun v hv => absurd hv List.not_mem_nil

theorem plain_set {fields : List Field} (h : ∀ f ∈ fields, f.Plain) {n : Nat} {f : Field}
    (hf : f.Plain) : ∀ g ∈ fields.set n f, g.Plain := by
  intro g hg
  rcases List.mem_or_eq_of_mem_set hg with hg | rfl
  · exact h g hg
  · exact hf

theorem Field.Plain.getD {fields : List Field} (h : ∀ f ∈ fields, f.Plain) (n : Nat) :
    (fields[n]?.getD {}).Plain := by
  cases hget : fields[n]? with
  | none => exact fun v hv => absurd hv List.not_mem_nil
  | some f => exact h f (List.mem_of_getElem? hget)

/-- A record with another account list. The other fields say what they said. -/
structure AccountEdit (record edited : Record) : Prop where
  readable : record.Readable → edited.Readable
  others : ∀ idx, Table.SYS_CLIENTS_ACCOUNTS_IDX ≠ idx → edited.valuesAt idx = record.valuesAt idx

theorem accountEdit_set {record : Record} {fields : List Field} {f : Field}
    (hlen : 2 ≤ fields.length)
    (hplain : record.Plain → f.Plain ∧ ∀ f ∈ fields, f.Plain)
    (hsame : ∀ idx, ({ fields := fields } : Record).valuesAt idx = record.valuesAt idx) :
    AccountEdit record { fields := fields.set Table.SYS_CLIENTS_ACCOUNTS_IDX f } := by
  have hothers : ∀ idx, Table.SYS_CLIENTS_ACCOUNTS_IDX ≠ idx →
      ({ fields := fields.set Table.SYS_CLIENTS_ACCOUNTS_IDX f } : Record).valuesAt idx =
        record.valuesAt idx := fun idx h => (valuesAt_set fields h f).trans (hsame idx)
  refine ⟨fun h => ⟨?_, Record.toBytes_ne_nil (by simpa using hlen), ?_⟩, hothers⟩
  · obtain ⟨hf, hfields⟩ := hplain h.plain
    exact plain_set hfields hf
  · obtain ⟨text, htext⟩ := h.thumbprint
    refine ⟨text, ?_⟩
    rw [Record.firstTextAt, hothers _ (by decide)]
    exact htext

theorem accountEdit_withAccount (record : Record) (account : String) :
    AccountEdit record (Table.withAccount record account).2 := by
  have hsame := valuesAt_padFields record.fields Table.SYS_CLIENTS_ACCOUNTS_IDX
  have hlen := length_padFields record.fields Table.SYS_CLIENTS_ACCOUNTS_IDX
  have hpad : record.Plain → ∀ f ∈ Table.padFields record.fields Table.SYS_CLIENTS_ACCOUNTS_IDX,
      f.Plain := fun h => plain_padFields h _
  unfold Table.withAccount
  dsimp only
  split
  · refine ⟨fun h => ⟨hpad h.plain, Record.toBytes_ne_nil hlen, ?_⟩, fun idx _ => hsame idx⟩
    obtain ⟨text, htext⟩ := h.thumbprint
    refine ⟨text, ?_⟩
    rw [Record.firstTextAt, hsame]
    exact htext
  · refine accountEdit_set hlen (fun h => ⟨fun v hv => ?_, hpad h⟩) hsame
    rcases List.mem_append.mp hv with hv | hv
    · exact Field.Plain.getD (hpad h) _ v hv
    · rw [List.mem_singleton.mp hv]
      exact Value.plain_text account

theorem accountEdit_withoutAccount (record : Record) (account : String) :
    AccountEdit record (Table.withoutAccount record account).2 := by
  unfold Table.withoutAccount
  split
  · exact ⟨id, fun _ _ => rfl⟩
  · rename_i field hfield
    refine accountEdit_set (List.getElem?_eq_some_iff.mp hfield).1 (fun h => ⟨fun v hv => ?_, h⟩)
      fun _ => rfl
    exact h field (List.mem_of_getElem? hfield) v (List.mem_filter.mp hv).1

theorem clientInfo_accountEdit {record edited : Record} (h : AccountEdit record edited)
    (name : String) :
    ∃ accounts, clientInfo casing name edited =
      (clientInfo casing name record).map (ClientInfo.withAccounts name accounts) := by
  have hfirst : ∀ idx, Table.SYS_CLIENTS_ACCOUNTS_IDX ≠ idx →
      edited.firstTextAt idx = record.firstTextAt idx := fun idx hidx => by
    rw [Record.firstTextAt, Record.firstTextAt, h.others idx hidx]
  refine ⟨(edited.valuesAt Table.SYS_CLIENTS_ACCOUNTS_IDX).filterMap fun v =>
    v.firstText.filter fun account => account ≠ "", ?_⟩
  unfold clientInfo
  rw [Option.map_map, hfirst _ (by decide), hfirst _ (by decide), hfirst _ (by decide),
    h.others Table.SYS_CLIENTS_CAPABILITIES_IDX (by decide),
    h.others Table.SYS_CLIENTS_ENQUEUE_IDX (by decide)]
  congr 1
  funext thumbprint
  simp only [Function.comp_apply, ClientInfo.withAccounts, if_true]

/-- What an account command does to the records. -/
theorem edit_account {name account : String} {action : GrantAction}
    (h : action = .addClientAccount name account ∨ action = .removeClientAccount name account)
    (t : Table) :
    t.records[name]? = none ∧ action.edit casing t = (false, t) ∨
      ∃ record edited, t.records[name]? = some record ∧ AccountEdit record edited ∧
        ((action.edit casing t).1 = false → edited = record) ∧
        (action.edit casing t).2.records = t.records.insert name edited := by
  rcases h with rfl | rfl
  · simp only [GrantAction.edit, Table.addClientAccount]
    cases hrecord : t.records[name]? with
    | none => exact Or.inl ⟨rfl, rfl⟩
    | some record =>
      refine Or.inr ⟨record, _, rfl, accountEdit_withAccount record account,
        withAccount_of_false, ?_⟩
      dsimp only
      split <;> rfl
  · simp only [GrantAction.edit, Table.removeClientAccount]
    cases hrecord : t.records[name]? with
    | none => exact Or.inl ⟨rfl, rfl⟩
    | some record =>
      refine Or.inr ⟨record, _, rfl, accountEdit_withoutAccount record account,
        withoutAccount_of_false, ?_⟩
      dsimp only
      split <;> rfl

theorem stated_insert {records : Entries} {name : String} {record : Record} {info : ClientInfo} :
    Stated casing (records.insert name record) info ↔
      clientInfo casing name record = some info ∨
        info.name ≠ name ∧ Stated casing records info := by
  constructor
  · rintro ⟨other, found, hfound, hinfo⟩
    rw [getElem?_insert_eq] at hfound
    split at hfound
    · rename_i heq
      cases hfound
      exact Or.inl (heq ▸ hinfo)
    · rename_i hne
      refine Or.inr ⟨?_, other, found, hfound, hinfo⟩
      rw [name_of_clientInfo hinfo]
      exact fun hc => hne hc.symm
  · rintro (hinfo | ⟨hne, other, found, hfound, hinfo⟩)
    · exact ⟨name, record, Std.ExtTreeMap.getElem?_insert_self, hinfo⟩
    · refine ⟨other, found, ?_, hinfo⟩
      rw [name_of_clientInfo hinfo] at hne
      rw [getElem?_insert_ne _ _ (Ne.symm hne), hfound]

theorem stated_erase {records : Entries} {name : String} {info : ClientInfo} :
    Stated casing (records.erase name) info ↔ info.name ≠ name ∧ Stated casing records info := by
  constructor
  · rintro ⟨other, found, hfound, hinfo⟩
    rw [getElem?_erase_eq] at hfound
    split at hfound
    · cases hfound
    · rename_i hne
      rw [name_of_clientInfo hinfo]
      exact ⟨fun hc => hne hc.symm, other, found, hfound, hinfo⟩
  · rintro ⟨hne, other, found, hfound, hinfo⟩
    refine ⟨other, found, ?_, hinfo⟩
    rw [name_of_clientInfo hinfo] at hne
    rw [getElem?_erase_ne _ (Ne.symm hne), hfound]

theorem Stated.of_name {records : Entries} {info : ClientInfo} {name : String} {record : Record}
    (h : Stated casing records info) (hname : info.name = name)
    (hrecord : records[name]? = some record) : clientInfo casing name record = some info := by
  obtain ⟨other, found, hfound, hinfo⟩ := h
  obtain rfl : other = name := (name_of_clientInfo hinfo).symm.trans hname
  rw [hrecord] at hfound
  cases hfound
  exact hinfo

theorem withAccounts_of_ne {info : ClientInfo} {name : String} (h : info.name ≠ name)
    (accounts : List String) : info.withAccounts name accounts = info := if_neg h

@[simp] theorem withAccounts_thumbprint (info : ClientInfo) (name : String)
    (accounts : List String) : (info.withAccounts name accounts).thumbprint = info.thumbprint := by
  unfold ClientInfo.withAccounts
  split <;> rfl

/-- The records after an account command state what they stated, with one account list changed. -/
theorem stated_account {name account : String} {action : GrantAction}
    (h : action = .addClientAccount name account ∨ action = .removeClientAccount name account)
    (t : Table) :
    ∃ accounts, ∀ info, Stated casing (action.edit casing t).2.records info ↔
      ∃ before, Stated casing t.records before ∧ before.withAccounts name accounts = info := by
  rcases edit_account h t with ⟨hnone, hedit⟩ | ⟨record, edited, hrecord, hacc, -, hrecords⟩
  · refine ⟨[], fun info => ?_⟩
    have hne : ∀ before, Stated casing t.records before → before.name ≠ name := by
      rintro before ⟨other, found, hfound, hinfo⟩ rfl
      rw [name_of_clientInfo hinfo, hfound] at hnone
      cases hnone
    rw [hedit]
    constructor
    · intro hs
      exact ⟨info, hs, withAccounts_of_ne (hne info hs) []⟩
    · rintro ⟨before, hs, rfl⟩
      rw [withAccounts_of_ne (hne before hs)]
      exact hs
  · obtain ⟨accounts, hinfo⟩ := clientInfo_accountEdit hacc name
    refine ⟨accounts, fun info => ?_⟩
    rw [hrecords, stated_insert, hinfo, Option.map_eq_some_iff]
    constructor
    · rintro (⟨before, hbefore, hwith⟩ | ⟨hne, hs⟩)
      · exact ⟨before, ⟨name, record, hrecord, hbefore⟩, hwith⟩
      · exact ⟨info, hs, withAccounts_of_ne hne accounts⟩
    · rintro ⟨before, hs, rfl⟩
      by_cases hname : before.name = name
      · exact Or.inl ⟨before, hs.of_name hname hrecord, rfl⟩
      · rw [withAccounts_of_ne hname]
        exact Or.inr ⟨hname, hs⟩

/-- An operation that does not go on to save leaves every record as it was. -/
theorem edit_unchanged {action : GrantAction} {t : Table}
    (h : (action.edit casing t).1 = false) (k : String) :
    (action.edit casing t).2.records[k]? = t.records[k]? := by
  have haccount : ∀ {name account}, action = .addClientAccount name account ∨
      action = .removeClientAccount name account →
      (action.edit casing t).2.records[k]? = t.records[k]? := by
    intro name account hcase
    rcases edit_account hcase t with
      ⟨-, hedit⟩ | ⟨record, edited, hrecord, -, hsame, hrecords⟩
    · rw [hedit]
    · rw [hrecords, hsame h, getElem?_insert_eq]
      split
      · rename_i heq
        rw [← heq, hrecord]
      · rfl
  cases action with
  | addAuthorizedClient name thumbprint grant => cases h
  | addClientAccount name account => exact haccount (Or.inl rfl)
  | removeClientAccount name account => exact haccount (Or.inr rfl)
  | removeAuthorizedClient name =>
    have hnone : t.records[name]? = none :=
      Option.isNone_iff_eq_none.mp (Option.isSome_eq_false_iff.mp h)
    change (t.records.erase name)[k]? = t.records[k]?
    rw [getElem?_erase_eq]
    split
    · rename_i heq
      rw [← heq, hnone]
    · rfl

/-- What a client's records are like between operations. -/
structure ClientRecords (casing : Casing) (records : Entries) : Prop where
  one : OneName casing records
  readable : ∀ (name : String) (record : Record), records[name]? = some record → record.Readable

theorem Stated.congr {records records' : Entries} (h : ∀ k : String, records'[k]? = records[k]?)
    (info : ClientInfo) : Stated casing records' info ↔ Stated casing records info := by
  simp only [Stated, h]

/-- An operation keeps one name to a thumbprint. -/
theorem ClientRecords.edit {s : GrantState} (h : ClientRecords casing s.table.records)
    (hlower : ∀ s, casing.lower (casing.lower s) = casing.lower s) {step : GrantStep}
    (hkept : GrantKept casing s step) :
    ClientRecords casing (step.action.edit casing s.table).2.records := by
  have haccount : ∀ {name account}, step.action = .addClientAccount name account ∨
      step.action = .removeClientAccount name account →
      ClientRecords casing (step.action.edit casing s.table).2.records := by
    intro name account hcase
    constructor
    · obtain ⟨accounts, hstated⟩ := stated_account hcase s.table
      intro info info' hs hs' htp
      obtain ⟨before, hbefore, rfl⟩ := (hstated info).mp hs
      obtain ⟨before', hbefore', rfl⟩ := (hstated info').mp hs'
      rw [h.one before before' hbefore hbefore' (by simpa using htp)]
    · rcases edit_account hcase s.table with
        ⟨-, hedit⟩ | ⟨record, edited, hrecord, hacc, -, hrecords⟩
      · rw [hedit]
        exact h.readable
      · rw [hrecords]
        intro k found hfound
        rw [getElem?_insert_eq] at hfound
        split at hfound
        · cases hfound
          exact hacc.readable (h.readable name record hrecord)
        · exact h.readable k found hfound
  obtain ⟨-, hcase⟩ := hkept
  cases haction : step.action with
  | addAuthorizedClient name thumbprint grant =>
    rw [haction] at hcase
    change ClientRecords casing (s.table.records.insert name _)
    constructor
    · have hnew : ∀ info info', clientInfo casing name
          (Table.clientRecord (casing.lower thumbprint) grant.asTexts) = some info →
          info'.name ≠ name → Stated casing s.table.records info' →
          info.thumbprint ≠ info'.thumbprint := by
        intro info info' hinfo hne hs htp
        obtain ⟨text, htext, rfl⟩ := Option.map_eq_some_iff.mp hinfo
        obtain rfl : casing.lower thumbprint = text :=
          Option.some.inj ((Value.firstText_text _).symm.trans htext)
        exact hne (hcase.1 info' hs (htp.symm.trans (hlower thumbprint)))
      intro info info' hs hs' htp
      rcases stated_insert.mp hs with hinfo | ⟨hne, hs⟩ <;>
        rcases stated_insert.mp hs' with hinfo' | ⟨hne', hs'⟩
      · exact Option.some.inj (hinfo.symm.trans hinfo')
      · exact absurd htp (hnew info info' hinfo hne' hs')
      · exact absurd htp.symm (hnew info' info hinfo' hne hs)
      · exact h.one info info' hs hs' htp
    · intro k found hfound
      rw [getElem?_insert_eq] at hfound
      split at hfound
      · cases hfound
        exact readable_clientRecord _ _
      · exact h.readable k found hfound
  | addClientAccount name account => exact haction ▸ haccount (Or.inl haction)
  | removeClientAccount name account => exact haction ▸ haccount (Or.inr haction)
  | removeAuthorizedClient name =>
    change ClientRecords casing (s.table.records.erase name)
    constructor
    · intro info info' hs hs'
      exact h.one info info' (stated_erase.mp hs).2 (stated_erase.mp hs').2
    · intro k found hfound
      rw [getElem?_erase_eq] at hfound
      split at hfound
      · cases hfound
      · exact h.readable k found hfound

theorem stated_storedForm {records : Entries}
    (h : ∀ (name : String) (record : Record), records[name]? = some record → record.Readable)
    (info : ClientInfo) : Stated casing (storedForm records) info ↔ Stated casing records info := by
  simp only [Stated, getElem?_storedForm, Option.map_eq_some_iff]
  constructor
  · rintro ⟨name, -, ⟨record, hrecord, rfl⟩, hinfo⟩
    exact ⟨name, record, hrecord, (clientInfo_stored (h name record hrecord) name).symm.trans hinfo⟩
  · rintro ⟨name, record, hrecord, hinfo⟩
    exact ⟨name, _, ⟨record, hrecord, rfl⟩,
      (clientInfo_stored (h name record hrecord) name).trans hinfo⟩

theorem Record.Readable.stored {r : Record} (h : r.Readable) : r.stored.Readable := by
  refine ⟨?_, by rw [Record.toBytes_stored]; exact h.nonempty, ?_⟩
  · rw [Record.stored_plain h.plain, if_neg h.nonempty]
    intro f hf
    obtain ⟨g, hg, rfl⟩ := List.mem_map.mp hf
    intro v hv
    unfold Field.settled at hv
    split at hv
    · rw [List.mem_singleton.mp hv]
      intro sub hsub
      rw [List.mem_singleton.mp hsub]
      exact ⟨List.not_mem_nil, List.not_mem_nil, List.not_mem_nil⟩
    · obtain ⟨w, hw, rfl⟩ := List.mem_map.mp hv
      unfold Value.settled
      split
      · intro sub hsub
        rw [List.mem_singleton.mp hsub]
        exact ⟨List.not_mem_nil, List.not_mem_nil, List.not_mem_nil⟩
      · exact h.plain g hg w hw
  · obtain ⟨text, htext⟩ := h.thumbprint
    exact ⟨text, (Record.thumbprint_stored h).trans htext⟩

theorem ClientRecords.reread {records : Entries} (h : ClientRecords casing records) :
    ClientRecords casing (storedForm records) where
  one info info' hs hs' := h.one info info' ((stated_storedForm h.readable info).mp hs)
    ((stated_storedForm h.readable info').mp hs')
  readable name record hrecord := by
    rw [getElem?_storedForm] at hrecord
    obtain ⟨found, hfound, rfl⟩ := Option.map_eq_some_iff.mp hrecord
    exact (h.readable name found hfound).stored

end

/-! ## Every run -/

/-- The registry is the relation the records state, and no two names state one thumbprint. -/
structure RegistrySound (casing : Casing) (s : GrantState) : Prop where
  records : ClientRecords casing s.table.records
  listed : ∀ (thumbprint : String) (info : ClientInfo), s.registry[thumbprint]? = some info ↔
    Stated casing s.table.records info ∧ info.thumbprint = thumbprint

section

variable {casing : Casing} {s s' : GrantState}

theorem registrySound_empty (casing : Casing) : RegistrySound casing {} where
  records := by
    refine ⟨fun info info' hs => ?_, fun name record hrecord => ?_⟩
    · obtain ⟨name, record, hrecord, -⟩ := hs
      simp at hrecord
    · simp at hrecord
  listed thumbprint info := by simp [Stated]

theorem RegistrySound.loaded (h : RegistrySound casing s) {listing : List (String × Record)}
    (hperm : listing.Perm s.table.records.toList) : s.registry = loadClients casing listing := by
  refine Std.ExtTreeMap.ext_getElem? fun thumbprint => Option.ext fun info => ?_
  rw [h.listed, registry_iff h.records.one hperm]

/-- The registry after an account command, once it is what the records state. -/
theorem RegistrySound.account (h : RegistrySound casing s) (h' : RegistrySound casing s')
    {accounts : List String} {name : String} (hstated : ∀ info, Stated casing s'.table.records info ↔
      ∃ before, Stated casing s.table.records before ∧ before.withAccounts name accounts = info)
    (thumbprint : String) : clientForThumbprint s' thumbprint =
      (clientForThumbprint s thumbprint).map (ClientInfo.withAccounts name accounts) := by
  refine Option.ext fun info => ?_
  unfold clientForThumbprint
  rw [h'.listed, hstated, Option.map_eq_some_iff]
  simp only [h.listed]
  constructor
  · rintro ⟨⟨before, hs, rfl⟩, htp⟩
    exact ⟨before, ⟨hs, by simpa using htp⟩, rfl⟩
  · rintro ⟨before, ⟨hs, rfl⟩, rfl⟩
    exact ⟨⟨before, hs, rfl⟩, by simp⟩

/-- One operation. -/
theorem RegistrySound.perform (h : RegistrySound casing s)
    (hlower : ∀ s, casing.lower (casing.lower s) = casing.lower s) {step : GrantStep}
    (hkept : GrantKept casing s step) (hp : step.perform casing s = some s') :
    RegistrySound casing s' ∧ GrantsDecide casing s s' step.action := by
  have hrecords := h.records.edit hlower hkept
  have hsound : RegistrySound casing s' ∧ ∀ info, Stated casing s'.table.records info ↔
      Stated casing (step.action.edit casing s.table).2.records info := by
    unfold GrantStep.perform at hp
    dsimp only at hp
    split at hp
    · rename_i hstop
      cases hp
      have hunchanged : (step.action.edit casing s.table).1 = false := by
        rcases hstop with hstop | hstop
        · simpa using hstop
        · exact Bool.eq_false_iff.mpr fun hc => hstop (hkept.1 hc)
      have hsame := edit_unchanged hunchanged
      refine ⟨⟨hrecords, fun thumbprint info => ?_⟩, fun info => Iff.rfl⟩
      rw [h.listed, Stated.congr hsame]
    · split at hp
      · rename_i hperm
        cases hp
        have hlisted : ClientRecords casing (step.listed casing s).records ∧
            ∀ info, Stated casing (step.listed casing s).records info ↔
              Stated casing (step.action.edit casing s.table).2.records info := by
          unfold GrantStep.listed
          dsimp only
          split
          · exact ⟨hrecords.reread, stated_storedForm hrecords.readable⟩
          · exact ⟨hrecords, fun info => Iff.rfl⟩
        exact ⟨⟨hlisted.1, fun thumbprint info => registry_iff hlisted.1.one hperm⟩, hlisted.2⟩
      · cases hp
  obtain ⟨h', hstated⟩ := hsound
  refine ⟨h', fun listing => h'.loaded, fun name thumbprint grant haction => ?_,
    fun name account haction => ?_⟩
  · obtain ⟨-, hcase⟩ := hkept
    rw [haction] at hcase
    obtain ⟨info, hinfo, htp, hreports⟩ :=
      clientInfo_granted hlower name thumbprint hcase.2.1 hcase.2.2
    refine ⟨info, (h'.listed _ _).mpr ⟨(hstated info).mpr ?_, htp⟩, hreports⟩
    rw [haction]
    exact stated_insert.mpr (Or.inl hinfo)
  · obtain ⟨accounts, haccounts⟩ := stated_account haction s.table
    exact ⟨accounts, h.account h' fun info => (hstated info).trans (haccounts info)⟩

theorem RegistrySound.run (h : RegistrySound casing s)
    (hlower : ∀ s, casing.lower (casing.lower s) = casing.lower s) {steps : List GrantStep}
    (hrun : GrantRun casing (GrantKept casing) s steps s') : RegistrySound casing s' := by
  induction hrun with
  | nil => exact h
  | snoc _ hkept hp ih => exact (ih.perform hlower hkept hp).1

end

/-- After every operation of every run in which no save fails, no two names are given one thumbprint
and grants are spelled as they are read, the registry is the one any listing of the records gives,
a grant just given is reported as it was given, and an account command has touched one account
list. -/
theorem registry_decided_by_grants {casing : Casing}
    (hlower : ∀ s, casing.lower (casing.lower s) = casing.lower s) {s s₁ s₂ : GrantState}
    {steps : List GrantStep} {step : GrantStep} (hs : RegistrySound casing s)
    (hrun : GrantRun casing (GrantKept casing) s steps s₁) (hkept : GrantKept casing s₁ step)
    (hp : step.perform casing s₁ = some s₂) : GrantsDecide casing s₁ s₂ step.action :=
  ((hs.run hlower hrun).perform hlower hkept hp).2

/-! ## Runs by evaluation -/

def grantsAll (casing : Casing) : GrantState → List GrantStep → Option GrantState
  | s, [] => some s
  | s, step :: steps => (step.perform casing s).bind fun s => grantsAll casing s steps

theorem grantRun_of_all {casing : Casing} {ok : GrantState → GrantStep → Prop}
    (hok : ∀ s step, ok s step) : ∀ {steps pre : List GrantStep} {s s₁ s' : GrantState},
    GrantRun casing ok s pre s₁ → grantsAll casing s₁ steps = some s' →
    GrantRun casing ok s (pre ++ steps) s' := by
  intro steps
  induction steps with
  | nil =>
    intro pre s s₁ s' hrun h
    cases h
    rw [List.append_nil]
    exact hrun
  | cons step steps ih =>
    intro pre s s₁ s' hrun h
    obtain ⟨s₂, hp, hrest⟩ := Option.bind_eq_some_iff.mp h
    rw [List.append_cons]
    exact ih (.snoc hrun (hok _ _) hp) hrest

theorem asciiCasing_lower (s : String) :
    asciiCasing.lower (asciiCasing.lower s) = asciiCasing.lower s := by
  simp [asciiCasing, asciiLowercase, Function.comp_def]

def salesGrant : ClientGrant := { allowedAccounts := ["SALES"], capabilities := [.serverObserve] }

def stockGrant : ClientGrant := { allowedAccounts := ["STOCK"] }

def salesRecord : Record := Table.clientRecord "ab" salesGrant.asTexts

def stockRecord : Record := Table.clientRecord "ab" stockGrant.asTexts

def authorizeSales : GrantStep where
  action := .addAuthorizedClient "A" "AB" salesGrant
  listing := [("A", salesRecord)]

/-- The same, with the record read back before it is listed. -/
def authorizeSalesReread : GrantStep :=
  { authorizeSales with reread := true, listing := [("A", salesRecord.stored)] }

/-- A second name for the thumbprint. -/
def authorizeStock (listing : List (String × Record)) : GrantStep where
  action := .addAuthorizedClient "B" "ab" stockGrant
  listing := listing

/-- A client authorized on an empty file. -/
theorem sales_decided :
    ∃ s, authorizeSalesReread.perform asciiCasing {} = some s ∧
      GrantsDecide asciiCasing {} s authorizeSalesReread.action := by
  have hsome : (authorizeSalesReread.perform asciiCasing {}).isSome = true := by decide +kernel
  obtain ⟨s, hp⟩ := Option.isSome_iff_exists.mp hsome
  refine ⟨s, hp, ?_⟩
  refine registry_decided_by_grants asciiCasing_lower (registrySound_empty _) (.nil _) ?_ hp
  refine ⟨fun _ => rfl, show _ ∧ _ ∧ _ from ?_⟩
  refine ⟨fun info hs => ?_, fun text htext => ?_, fun _ g hg => ?_⟩
  · obtain ⟨name, record, hrecord, -⟩ := hs
    simp at hrecord
  · cases htext
  · exact absurd hg List.not_mem_nil

/-- Two names authorized with one thumbprint: two orders of the same listing, and in one of them the
second authorization reports the first client. -/
theorem shared_thumbprint :
    ∃ s s', GrantRun asciiCasing (fun _ _ => True) {}
        [authorizeSales, authorizeStock [("A", salesRecord), ("B", stockRecord)]] s ∧
      GrantRun asciiCasing (fun _ _ => True) {}
        [authorizeSales, authorizeStock [("B", stockRecord), ("A", salesRecord)]] s' ∧
      s.table.records.toList = s'.table.records.toList ∧
      (clientForThumbprint s "ab").map ClientInfo.name = some "B" ∧
      (clientForThumbprint s' "ab").map ClientInfo.name = some "A" := by
  have hboth : ((grantsAll asciiCasing {}
      [authorizeSales, authorizeStock [("A", salesRecord), ("B", stockRecord)]]).any fun s =>
      (grantsAll asciiCasing {}
        [authorizeSales, authorizeStock [("B", stockRecord), ("A", salesRecord)]]).any fun s' =>
        decide (s.table.records.toList = s'.table.records.toList ∧
          (clientForThumbprint s "ab").map ClientInfo.name = some "B" ∧
          (clientForThumbprint s' "ab").map ClientInfo.name = some "A")) = true := by
    decide +kernel
  obtain ⟨s, hs, hrest⟩ := (Option.any_eq_true _ _).mp hboth
  obtain ⟨s', hs', hdecided⟩ := (Option.any_eq_true _ _).mp hrest
  exact ⟨s, s', grantRun_of_all (fun _ _ => trivial) (.nil {}) hs,
    grantRun_of_all (fun _ _ => trivial) (.nil {}) hs', of_decide_eq_true hdecided⟩

end RustyPick
