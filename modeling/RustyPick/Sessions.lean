import RustyPick.Authority
import RustyPick.TransferFrame

/-!
# RustyPick.Sessions

Connections that stay open while the authorizations change (`server/mod.rs`).

A connection looks its client up when it opens. For an ordinary command the client is looked up
again; a byte transfer is decided by the description the connection has from its handshake.

* `transfer_decides`: a transfer refuses what `transferAccess` refuses, with that response.
* `revocation_takes_effect`: every request is decided by the authorizations in force when it is
  made, in every run in which a client that makes a byte transfer is what it was when its connection
  opened.
-/

namespace RustyPick

open Lib

/-! ## What the transfers check -/

section Refusals

variable {J : Type}

def Access.response : Access → Option (Response J)
  | .refused code message => some (refusal code message)
  | .granted _ => none

/-- The four transfers refuse a request with the response of the check, whatever else it says. -/
theorem transfer_decides {req : Request} {client : ClientInfo} {response : Response J} :
    (∀ db made, (transferAccess "PUT.BYTES" req client).response = some response →
      Transfer.stageBytes req db client made = .error response) ∧
    (∀ db found, (transferAccess "GET.BYTES" req client).response = some response →
      Transfer.openBytes req db client found = .error response) ∧
    (∀ made, (transferAccess "IMPORT.BYTES" req client).response = some response →
      Transfer.stageArchive req client made = .error response) ∧
    ∀ produce, (transferAccess "EXPORT.BYTES" req client).response = some response →
      Transfer.openArchive req client produce = .error response := by
  have haccount : ∀ command, command ∈ ["PUT.BYTES", "GET.BYTES"] →
      (transferAccess command req client).response = some response →
      Transfer.transferAccount req client = .error response := by
    intro command hcommand h
    unfold transferAccess at h
    unfold Transfer.transferAccount
    rw [if_pos hcommand] at h
    cases hallowed : allowedAccount req client with
    | some account => rw [hallowed] at h; cases h
    | none =>
      rw [hallowed] at h
      cases hnamed : req.account with
      | none => rw [hnamed] at h; cases h; rfl
      | some account => rw [hnamed] at h; cases h; rfl
  have hadmin : ∀ command, command ∉ ["PUT.BYTES", "GET.BYTES"] →
      (transferAccess command req client).response = some response →
      client.isAdmin = false ∧ response = refusal .adminRequired "Admin privileges required" := by
    intro command hcommand h
    unfold transferAccess at h
    rw [if_neg hcommand] at h
    cases hadmin : client.isAdmin with
    | true => rw [hadmin] at h; cases h
    | false => rw [hadmin] at h; cases h; exact ⟨rfl, rfl⟩
  refine ⟨fun db made h => ?_, fun db found h => ?_, fun made h => ?_, fun produce h => ?_⟩
  · unfold Transfer.stageBytes
    rw [haccount _ (by simp) h]
    rfl
  · unfold Transfer.openBytes
    rw [haccount _ (by simp) h]
    rfl
  · obtain ⟨hnot, rfl⟩ := hadmin _ (by simp) h
    simp [Transfer.stageArchive, hnot]
  · obtain ⟨hnot, rfl⟩ := hadmin _ (by simp) h
    simp [Transfer.openArchive, hnot]

end Refusals

/-! ## The server -/

/-- An open connection: the thumbprint of its certificate, and the client its handshake found. -/
structure Connection where
  thumbprint : String
  client : ClientInfo
  deriving DecidableEq, Repr

structure ServerState where
  clients : ClientsState
  connections : Map Nat Connection := ∅
  /-- How many connections there have been, which numbers the next. -/
  opened : Nat := 0

/-- `client_for_thumbprint`. -/
def ServerState.clientFor (s : ServerState) (thumbprint : String) : Option ClientInfo :=
  s.clients.registry[thumbprint]?

inductive ServerAction where
  | admin (a : ClientsAction)
  | connect (thumbprint : String)
  /-- A request line on a connection. `lists` is the account of each select list held. -/
  | request (id : Nat) (req : Request) (lists : String → Option String)
  | disconnect (id : Nat)

def deauthorized : Access := .refused .deauthorized "Client deauthorized"

/-- How the connection loop decides a request. -/
def ServerState.handled (casing : Casing) (s : ServerState) (conn : Connection) (req : Request)
    (lists : String → Option String) : Access :=
  let command := casing.upper req.command
  if isTransferCommand command then access lists command req conn.client
  else
    match s.clientFor conn.thumbprint with
    | none => deauthorized
    | some client => access lists command req client

/-- What the authorizations in force say of a request. -/
def ServerState.ruling (casing : Casing) (s : ServerState) (conn : Connection) (req : Request)
    (lists : String → Option String) : Access :=
  match s.clientFor conn.thumbprint with
  | none => deauthorized
  | some client => access lists (casing.upper req.command) req client

/-- A request on a connection whose client is gone closes it, unless it is a transfer. -/
def ServerState.afterRequest (casing : Casing) (s : ServerState) (id : Nat) (conn : Connection)
    (req : Request) : ServerState :=
  if !isTransferCommand (casing.upper req.command) && (s.clientFor conn.thumbprint).isNone then
    { s with connections := s.connections.erase id }
  else s

def ServerAction.perform (casing : Casing) (digest : Record → String) (s : ServerState) :
    ServerAction → Option ServerState
  | .admin a =>
    (a.perform casing digest s.clients).map fun clients =>
      match a with
      | .restart _ _ => { s with clients := clients, connections := ∅ }
      | _ => { s with clients := clients }
  | .connect thumbprint =>
    match s.clientFor thumbprint with
    | none => some s
    | some client =>
      some { s with
        connections := s.connections.insert s.opened { thumbprint := thumbprint, client := client }
        opened := s.opened + 1 }
  | .request id req _ => s.connections[id]?.map fun conn => s.afterRequest casing id conn req
  | .disconnect id => some { s with connections := s.connections.erase id }

/-- A step as it was taken. -/
structure ServerEvent where
  before : ServerState
  action : ServerAction

/-- Runs, with what has happened before a step at hand where it is judged. -/
inductive ServerRun (casing : Casing) (digest : Record → String)
    (ok : List ServerEvent → ServerEvent → Prop) (s₀ : ServerState) :
    List ServerEvent → ServerState → Prop where
  | nil : ServerRun casing digest ok s₀ [] s₀
  | snoc {s s' : ServerState} {es : List ServerEvent} {a : ServerAction} :
      ServerRun casing digest ok s₀ es s → ok es { before := s, action := a } →
      a.perform casing digest s = some s' →
      ServerRun casing digest ok s₀ (es ++ [{ before := s, action := a }]) s'

/-- A byte transfer finds its client's authorization as it has been since the connection opened. -/
def Steady (casing : Casing) (es : List ServerEvent) (e : ServerEvent) : Prop :=
  ∀ id req lists conn, e.action = .request id req lists →
    isTransferCommand (casing.upper req.command) = true →
    e.before.connections[id]? = some conn →
    ∀ e' ∈ es, id < e'.before.opened →
      e'.before.clientFor conn.thumbprint = e.before.clientFor conn.thumbprint

/-- The description each open connection has was in force at some time since it opened. -/
def Remembered (es : List ServerEvent) (s : ServerState) : Prop :=
  ∀ (id : Nat) (conn : Connection), s.connections[id]? = some conn → id < s.opened ∧
    (s.clientFor conn.thumbprint = some conn.client ∨
      ∃ e ∈ es, id < e.before.opened ∧ e.before.clientFor conn.thumbprint = some conn.client)

variable {casing : Casing} {digest : Record → String}

/-- What holds of the connections stays so while connections only go. -/
theorem Remembered.event {es : List ServerEvent} {s s' : ServerState} (a : ServerAction)
    (h : Remembered es s) (hopened : s.opened ≤ s'.opened)
    (hconnections : ∀ (id : Nat) (conn : Connection), s'.connections[id]? = some conn →
      s.connections[id]? = some conn) :
    Remembered (es ++ [{ before := s, action := a }]) s' := by
  intro id conn hconn
  obtain ⟨hid, hforce⟩ := h id conn (hconnections id conn hconn)
  refine ⟨hid.trans_le hopened, Or.inr ?_⟩
  rcases hforce with hnow | ⟨e, he, hlt, hthen⟩
  · exact ⟨_, List.mem_append_right _ (List.mem_singleton.mpr rfl), hid, hnow⟩
  · exact ⟨e, List.mem_append_left _ he, hlt, hthen⟩

theorem remembered_step {es : List ServerEvent} {s s' : ServerState} {a : ServerAction}
    (h : Remembered es s) (hstep : a.perform casing digest s = some s') :
    Remembered (es ++ [{ before := s, action := a }]) s' := by
  have herase : ∀ (id' id : Nat) (conn : Connection),
      (s.connections.erase id')[id]? = some conn → s.connections[id]? = some conn := by
    intro id' id conn hconn
    rw [getElem?_erase_eq] at hconn
    split at hconn
    · cases hconn
    · exact hconn
  cases a with
  | admin a =>
    obtain ⟨clients, -, rfl⟩ := Option.map_eq_some_iff.mp hstep
    cases a with
    | restart listing renamed =>
      refine h.event _ le_rfl fun id conn hconn => ?_
      rw [Std.ExtTreeMap.getElem?_empty] at hconn
      cases hconn
    | _ => exact h.event _ le_rfl fun _ _ hconn => hconn
  | connect thumbprint =>
    dsimp only [ServerAction.perform] at hstep
    cases hclient : s.clientFor thumbprint with
    | none =>
      rw [hclient] at hstep
      cases hstep
      exact h.event _ le_rfl fun _ _ hconn => hconn
    | some client =>
      rw [hclient] at hstep
      cases hstep
      intro id conn hconn
      dsimp only at hconn
      rw [getElem?_insert_eq] at hconn
      split at hconn
      · rename_i hid
        cases hconn
        exact ⟨hid ▸ Nat.lt_succ_self _, Or.inl hclient⟩
      · have hcounted : Remembered (es ++ [{ before := s, action := .connect thumbprint }])
            { s with opened := s.opened + 1 } :=
          h.event _ (Nat.le_succ _) fun _ _ hold => hold
        exact hcounted id conn hconn
  | request id req lists =>
    obtain ⟨conn, -, rfl⟩ := Option.map_eq_some_iff.mp hstep
    unfold ServerState.afterRequest
    split
    · exact h.event _ le_rfl (herase id)
    · exact h.event _ le_rfl fun _ _ hconn => hconn
  | disconnect id =>
    cases hstep
    exact h.event _ le_rfl (herase id)

theorem remembered_run {ok : List ServerEvent → ServerEvent → Prop} {s₀ s : ServerState}
    {es : List ServerEvent} (hstart : s₀.connections = ∅)
    (hrun : ServerRun casing digest ok s₀ es s) : Remembered es s := by
  induction hrun with
  | nil =>
    intro id conn hconn
    rw [hstart, Std.ExtTreeMap.getElem?_empty] at hconn
    cases hconn
  | snoc _ _ hstep ih => exact remembered_step ih hstep

/-- A step that is steady decides its request by the authorizations in force. -/
theorem handled_eq_ruling {es : List ServerEvent} {e : ServerEvent} {id : Nat} {req : Request}
    {lists : String → Option String} {conn : Connection} (hremembered : Remembered es e.before)
    (hsteady : Steady casing es e) (haction : e.action = .request id req lists)
    (hconn : e.before.connections[id]? = some conn) :
    e.before.handled casing conn req lists = e.before.ruling casing conn req lists := by
  unfold ServerState.handled ServerState.ruling
  dsimp only
  cases htransfer : isTransferCommand (casing.upper req.command) with
  | false => rw [if_neg Bool.false_ne_true]
  | true =>
    have hforce : e.before.clientFor conn.thumbprint = some conn.client := by
      rcases (hremembered id conn hconn).2 with hnow | ⟨e', he', hlt, hthen⟩
      · exact hnow
      · rw [← hsteady id req lists conn haction htransfer hconn e' he' hlt, hthen]
    rw [hforce, if_pos rfl]

/-- A client that is gone is refused, and so is one that may not reach the account it names and is
not let in by a grant. -/
theorem ruling_refused {s : ServerState} {conn : Connection} {req : Request}
    {lists : String → Option String}
    (h : s.clientFor conn.thumbprint = none ∨
      ∃ client account, s.clientFor conn.thumbprint = some client ∧ req.account = some account ∧
        client.mayReach account = false ∧
        enqueueGrantTarget (casing.upper req.command) req client = none) :
    ∃ code message, s.ruling casing conn req lists = .refused code message := by
  unfold ServerState.ruling
  rcases h with hgone | ⟨client, account, hclient, haccount, hreach, hgrant⟩
  · rw [hgone]
    exact ⟨_, _, rfl⟩
  · rw [hclient]
    exact access_refused haccount hreach hgrant

/-- Every request of a run was decided by the authorizations in force. A grant lets an `ENQUEUE` or a
`FILE.STATS` of the file it names into an account that is out of reach. -/
def DecidedAsInForce (casing : Casing) (es : List ServerEvent) : Prop :=
  ∀ e ∈ es, ∀ id req lists conn, e.action = .request id req lists →
    e.before.connections[id]? = some conn →
    e.before.handled casing conn req lists = e.before.ruling casing conn req lists ∧
    ((e.before.clientFor conn.thumbprint = none ∨
        ∃ client account, e.before.clientFor conn.thumbprint = some client ∧
          req.account = some account ∧ client.mayReach account = false ∧
          enqueueGrantTarget (casing.upper req.command) req client = none) →
      ∃ code message, e.before.handled casing conn req lists = .refused code message)

theorem revocation_takes_effect {s₀ s : ServerState} {es : List ServerEvent}
    (hstart : s₀.connections = ∅) (hrun : ServerRun casing digest (Steady casing) s₀ es s) :
    DecidedAsInForce casing es := by
  induction hrun with
  | nil => exact fun _ he => by cases he
  | @snoc s s' es a hrun hok hstep ih =>
    intro e he id req lists conn haction hconn
    rcases List.mem_append.mp he with he | he
    · exact ih e he id req lists conn haction hconn
    · obtain rfl := List.mem_singleton.mp he
      have hruling := handled_eq_ruling (remembered_run hstart hrun) hok haction hconn
      refine ⟨hruling, fun h => ?_⟩
      rw [hruling]
      exact ruling_refused h

/-! ## Runs computed -/

/-- A run of these actions, where each of them can be taken and `ok` lets it be. -/
def serverAll (casing : Casing) (digest : Record → String)
    (ok : List ServerEvent → ServerEvent → Bool) (es : List ServerEvent) (s : ServerState) :
    List ServerAction → Option (List ServerEvent × ServerState)
  | [] => some (es, s)
  | a :: rest =>
    if ok es { before := s, action := a } then
      match a.perform casing digest s with
      | none => none
      | some s' =>
        serverAll casing digest ok (es ++ [{ before := s, action := a }]) s' rest
    else none

theorem serverRun_of_all {ok : List ServerEvent → ServerEvent → Prop}
    {okNow : List ServerEvent → ServerEvent → Bool} (hok : ∀ es e, okNow es e = true → ok es e)
    {s₀ : ServerState} : ∀ {as : List ServerAction} {es es' : List ServerEvent} {s s' : ServerState},
      ServerRun casing digest ok s₀ es s → serverAll casing digest okNow es s as = some (es', s') →
      ServerRun casing digest ok s₀ es' s' := by
  intro as
  induction as with
  | nil => intro es es' s s' hrun h; cases h; exact hrun
  | cons a rest ih =>
    intro es es' s s' hrun h
    rw [serverAll] at h
    split at h
    · rename_i hnow
      cases hstep : a.perform casing digest s with
      | none => rw [hstep] at h; cases h
      | some next =>
        rw [hstep] at h
        exact ih (.snoc hrun (hok _ _ hnow) hstep) h
    · cases h

def steadyNow (casing : Casing) (es : List ServerEvent) (e : ServerEvent) : Bool :=
  match e.action with
  | .request id req _ =>
    !isTransferCommand (casing.upper req.command) ||
      match e.before.connections[id]? with
      | none => true
      | some conn => es.all fun e' => e'.before.opened ≤ id ||
          e'.before.clientFor conn.thumbprint = e.before.clientFor conn.thumbprint
  | _ => true

theorem steady_of_now (casing : Casing) (es : List ServerEvent) (e : ServerEvent)
    (h : steadyNow casing es e = true) : Steady casing es e := by
  intro id req lists conn haction htransfer hconn e' he' hlt
  unfold steadyNow at h
  rw [haction] at h
  dsimp only at h
  rw [htransfer, hconn, Bool.not_true, Bool.false_or, List.all_eq_true] at h
  rcases Bool.or_eq_true_iff.mp (h e' he') with hle | heq
  · exact absurd (of_decide_eq_true hle) (not_le.mpr hlt)
  · exact of_decide_eq_true heq

/-- `DEAUTHORIZE.CONN`. -/
def deauthorizeApp : List ClientsAction :=
  [.removeAuthorizedClient "APP", .flush .plain 16, .loadClients [], .saveCerts [] none]

def serverEmpty : ServerState := { clients := clientsEmpty }

/-- A request of the one connection there is. -/
def putScan : ServerAction := .request 0 (Transfer.putThree "SALES") fun _ => none

def appConnection : Connection :=
  { thumbprint := "0123456789ab"
    client :=
      { name := "APP", thumbprint := "0123456789ab", allowedAccounts := ["SALES"], isAdmin := false,
        capabilities := [], expiresAt := none, enqueueFiles := [] } }

theorem connected_app_decided :
    ∃ es s, ServerRun asciiCasing (fun _ => "") (Steady asciiCasing) serverEmpty es s ∧
      (∃ e ∈ es, ∃ req lists, e.action = .request 0 req lists ∧
        e.before.connections[0]? = some appConnection) ∧
      DecidedAsInForce asciiCasing es := by
  have hall : (serverAll asciiCasing (fun _ => "") (steadyNow asciiCasing) [] serverEmpty
      (authorizeApp.map .admin ++ [.connect "0123456789ab"])).any
        (fun r => r.2.connections[0]? = some appConnection &&
          steadyNow asciiCasing r.1 { before := r.2, action := putScan }) = true := by
    decide +kernel
  obtain ⟨⟨es, s⟩, hes, hconn⟩ := (Option.any_eq_true _ _).mp hall
  obtain ⟨hconn, hsteady⟩ := Bool.and_eq_true_iff.mp hconn
  have hconn := of_decide_eq_true hconn
  have hrun := serverRun_of_all (steady_of_now asciiCasing) .nil hes
  have hput : putScan.perform asciiCasing (fun _ => "") s =
      some (s.afterRequest asciiCasing 0 appConnection (Transfer.putThree "SALES")) := by
    dsimp only [putScan, ServerAction.perform]
    rw [hconn, Option.map_some]
  have hnext := hrun.snoc (steady_of_now _ _ _ hsteady) hput
  refine ⟨_, _, hnext, ⟨_, List.mem_append_right _ (List.mem_singleton.mpr rfl), _, _, rfl, hconn⟩,
    revocation_takes_effect rfl hnext⟩

/-- The client removed while its connection is open, and a body for its account accepted. -/
theorem removed_client_transfers :
    ∃ es s e, ServerRun asciiCasing (fun _ => "") (fun _ _ => True) serverEmpty es s ∧ e ∈ es ∧
      e.action = putScan ∧ e.before.connections[0]? = some appConnection ∧
      e.before.clientFor "0123456789ab" = none ∧
      e.before.handled asciiCasing appConnection (Transfer.putThree "SALES") (fun _ => none) =
        .granted (some "SALES") ∧
      ¬ DecidedAsInForce asciiCasing es := by
  have hall : (serverAll asciiCasing (fun _ => "") (fun _ _ => true) [] serverEmpty
      (authorizeApp.map .admin ++ [.connect "0123456789ab"] ++ deauthorizeApp.map .admin)).any
        (fun r => r.2.connections[0]? = some appConnection &&
          (r.2.clientFor "0123456789ab").isNone) = true := by
    decide +kernel
  obtain ⟨⟨es, s⟩, hes, hcheck⟩ := (Option.any_eq_true _ _).mp hall
  obtain ⟨hconn, hgone⟩ := Bool.and_eq_true_iff.mp hcheck
  have hconn : s.connections[0]? = some appConnection := of_decide_eq_true hconn
  have hgone : s.clientFor "0123456789ab" = none := Option.isNone_iff_eq_none.mp hgone
  have hrun : ServerRun asciiCasing (fun _ => "") (fun _ _ => True) serverEmpty es s :=
    serverRun_of_all (fun _ _ _ => trivial) .nil hes
  have hput : putScan.perform asciiCasing (fun _ => "") s =
      some (s.afterRequest asciiCasing 0 appConnection (Transfer.putThree "SALES")) := by
    dsimp only [putScan, ServerAction.perform]
    rw [hconn, Option.map_some]
  have htransfer :
      isTransferCommand (asciiCasing.upper (Transfer.putThree "SALES").command) = true := by
    decide +kernel
  have hhandled : s.handled asciiCasing appConnection (Transfer.putThree "SALES") (fun _ => none) =
      .granted (some "SALES") := by
    unfold ServerState.handled
    dsimp only
    rw [if_pos htransfer]
    decide +kernel
  have hmem : (⟨s, putScan⟩ : ServerEvent) ∈ es ++ [⟨s, putScan⟩] :=
    List.mem_append_right _ (List.mem_singleton.mpr rfl)
  refine ⟨_, _, ⟨s, putScan⟩, hrun.snoc trivial hput, hmem, rfl, hconn, hgone, hhandled, fun h => ?_⟩
  obtain ⟨code, message, hrefused⟩ :=
    (h _ hmem 0 (Transfer.putThree "SALES") (fun _ => none) appConnection rfl hconn).2
      (Or.inl hgone)
  rw [hhandled] at hrefused
  cases hrefused

end RustyPick
