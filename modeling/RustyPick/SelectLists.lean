import RustyPick.Authority

/-!
# RustyPick.SelectLists

`SELECT` and `GET.NEXT` (`server/handler.rs`).

The lists are held by the server, by name, for every client. A name that a request leaves out is
`DEFAULT` for all of them. `GET.NEXT` moves the cursor before it looks at the file, and adds the
batch size to the cursor before it takes the minimum with what there is.

* `getNext_spec`: the ways a `GET.NEXT` can end.
* `pages_in_order`: the batches a client gets after one of its `SELECT`s are, in order, the front of
  the list it built, in every run in which no other client touches that list meanwhile, the sum
  fits, and no batch is lost to an error.
-/

namespace RustyPick

open Lib

variable {J : Type}

structure SelectEntry where
  key : String
  position : Option ValuePosition := none
  deriving DecidableEq, Repr

structure SelectList where
  tableName : String
  isDict : Bool
  explodeField : Option String
  entries : List SelectEntry
  deriving DecidableEq, Repr

structure RemoteSelectList where
  account : String
  list : SelectList
  cursor : Nat := 0
  deriving DecidableEq, Repr

abbrev SelectLists := Map String RemoteSelectList

/-- What the database answers a request with at its time. -/
structure Backend (J : Type) where
  isDirectory : String → String → Bool
  /-- The keys of a directory file, where the request asks for nothing else. -/
  listing : String → String → Except (ErrorCode × String) (List String)
  /-- The clause of the request over a hashed file: the field it explodes, and the entries. -/
  selection : String → String → Except (ErrorCode × String) (Option String × List SelectEntry)
  directorySize : String → String → String → Except DbError (Option Nat)
  /-- A row of a directory file says how large the record is. -/
  sizeRow : Nat → J
  /-- The records of a hashed file by key, serialized, or of its dictionary. -/
  table : String → String → Except DbError (Option (Bool → String → Option J))

def DEFAULT_LIST : String := "DEFAULT"

def Request.list (req : Request) : String := req.listName.getD DEFAULT_LIST

/-- The account each list was selected in. -/
def SelectLists.account (lists : SelectLists) (name : String) : Option String :=
  lists[name]?.map RemoteSelectList.account

/-! ## `SELECT` -/

def fileNotSpecified : Response J := refusal .missingField "File not specified"

/-- The list a `SELECT` builds. -/
def selectedList (req : Request) (backend : Backend J) (account file : String) :
    Except (ErrorCode × String) SelectList :=
  if backend.isDirectory account file then
    (backend.listing account file).map fun keys =>
      { tableName := file, isDict := false, explodeField := none,
        entries := keys.map fun key => { key := key } }
  else
    (backend.selection account file).map fun (explodeField, entries) =>
      { tableName := file, isDict := req.isDict.getD false, explodeField := explodeField,
        entries := entries }

def select (lists : SelectLists) (req : Request) (client : ClientInfo) (backend : Backend J) :
    Response J × SelectLists :=
  match lockedAccess lists.account "SELECT" req client with
  | .refused code message => (refusal code message, lists)
  | .granted none => (refusal .accountNotSpecified "Account not specified", lists)
  | .granted (some account) =>
    match req.file with
    | none => (fileNotSpecified, lists)
    | some file =>
      match selectedList req backend account file with
      | .error (code, message) => (refusal code message, lists)
      | .ok list =>
        ({ status := .ok, count := some list.entries.length },
          lists.insert req.list { account := account, list := list })

/-! ## `GET.NEXT` -/

/-- The rows of a batch of a directory file. The first record that cannot be asked for ends it. -/
def directoryRows (backend : Backend J) (account file : String) :
    List SelectEntry → Except DbError (List (String × J))
  | [] => .ok []
  | entry :: rest =>
    match backend.directorySize account file entry.key with
    | .error e => .error e
    | .ok none => directoryRows backend account file rest
    | .ok (some size) =>
      (directoryRows backend account file rest).map fun rows =>
        (entry.key, backend.sizeRow size) :: rows

/-- What a batch is answered with. A record that is gone has no row. -/
def batchResponse (backend : Backend J) (account : String) (list : SelectList)
    (batch : List SelectEntry) : Response J :=
  if backend.isDirectory account list.tableName then
    match directoryRows backend account list.tableName batch with
    | .error e => dbError e
    | .ok rows => { status := .ok, results := some rows, count := some rows.length }
  else
    match backend.table account list.tableName with
    | .error e => dbError e
    | .ok none => refusal .fileNotFound ("File '" ++ list.tableName ++ "' is not loaded")
    | .ok (some found) =>
      let rows := batch.filterMap fun entry =>
        (found list.isDict entry.key).map fun row => (entry, row)
      { status := .ok
        results := some (rows.map fun (entry, row) => (entry.key, row))
        count := some rows.length
        positions := if rows.any fun (entry, _) => entry.position.isSome then
            some (rows.map fun (entry, _) => entry.position)
          else none }

def eof : Response J := { status := .eof }

/-- `none` is a panic: `cursor + batch_size` over the last `usize` stops a build that checks
for it, and wraps to below the cursor in one that does not, where the slice then panics. -/
def getNext (lists : SelectLists) (req : Request) (client : ClientInfo) (backend : Backend J) :
    Option (Response J) × SelectLists :=
  match lockedAccess lists.account "GET.NEXT" req client with
  | .refused code message => (some (refusal code message), lists)
  | .granted _ =>
    match lists[req.list]? with
    | none => (some (refusal .selectListNotFound "Select list not found"), lists)
    | some held =>
      if req.account.any fun named => named ≠ held.account then
        (some (refusal .invalidRequest ("Select list '" ++ req.list ++
          "' was selected in account '" ++ held.account ++ "', not '" ++
          req.account.getD "" ++ "'")), lists)
      else if held.list.entries.length ≤ held.cursor then (some eof, lists)
      else if u64Max < held.cursor + req.batchSize.getD 1 then (none, lists)
      else
        let stop := min (held.cursor + req.batchSize.getD 1) held.list.entries.length
        let batch := (held.list.entries.take stop).drop held.cursor
        (some (batchResponse backend held.account held.list batch),
          lists.insert req.list { held with cursor := stop })

/-- What a `GET.NEXT` of `batch` entries finds at `cursor` is the batch from there. -/
theorem drop_take_min (entries : List SelectEntry) {cursor : Nat} (batch : Nat)
    (h : cursor ≤ entries.length) :
    (entries.take (min (cursor + batch) entries.length)).drop cursor =
      (entries.drop cursor).take batch := by
  rw [List.drop_take]
  rcases le_total (cursor + batch) entries.length with hle | hge
  · rw [min_eq_left hle, Nat.add_sub_cancel_left]
  · rw [min_eq_right hge, ← List.length_drop, List.take_length,
      List.take_of_length_le (by rw [List.length_drop]; omega)]

/-- The request gets as far as the arithmetic. -/
def Pageable (lists : SelectLists) (req : Request) (client : ClientInfo)
    (held : RemoteSelectList) : Prop :=
  (∃ account, lockedAccess lists.account "GET.NEXT" req client = .granted account) ∧
    lists[req.list]? = some held ∧ (req.account.any fun named => named ≠ held.account) = false ∧
    held.cursor < held.list.entries.length

/-- A `GET.NEXT` is refused, is at the end, panics, or moves the cursor over the next batch. -/
theorem getNext_spec (lists : SelectLists) (req : Request) (client : ClientInfo)
    (backend : Backend J) :
    (∃ code message, getNext lists req client backend = (some (refusal code message), lists)) ∨
    (∃ held, lists[req.list]? = some held ∧ held.list.entries.length ≤ held.cursor ∧
      getNext lists req client backend = (some eof, lists)) ∨
    (∃ held, Pageable lists req client held ∧ u64Max < held.cursor + req.batchSize.getD 1 ∧
      getNext lists req client backend = (none, lists)) ∨
    ∃ held, lists[req.list]? = some held ∧ held.cursor < held.list.entries.length ∧
      getNext lists req client backend =
        (some (batchResponse backend held.account held.list
            ((held.list.entries.drop held.cursor).take (req.batchSize.getD 1))),
          lists.insert req.list
            { held with
              cursor := min (held.cursor + req.batchSize.getD 1) held.list.entries.length }) := by
  unfold getNext
  cases haccess : lockedAccess lists.account "GET.NEXT" req client with
  | refused code message => exact Or.inl ⟨code, message, rfl⟩
  | granted account =>
    dsimp only
    cases hheld : lists[req.list]? with
    | none => exact Or.inl ⟨_, _, rfl⟩
    | some held =>
      dsimp only
      split
      · exact Or.inl ⟨_, _, rfl⟩
      · rename_i hnamed
        split
        · rename_i hend
          exact Or.inr (Or.inl ⟨held, rfl, hend, rfl⟩)
        · rename_i hlt
          have hlt : held.cursor < held.list.entries.length := not_le.mp hlt
          split
          · rename_i hover
            exact Or.inr (Or.inr (Or.inl ⟨held,
              ⟨⟨account, haccess⟩, hheld, Bool.eq_false_iff.mpr hnamed, hlt⟩, hover, rfl⟩))
          · refine Or.inr (Or.inr (Or.inr ⟨held, rfl, hlt, ?_⟩))
            rw [drop_take_min _ _ hlt.le]

/-- A `SELECT` is refused, or holds the list it built, from its start. -/
theorem select_spec (lists : SelectLists) (req : Request) (client : ClientInfo)
    (backend : Backend J) :
    ((select lists req client backend).1.status = .error ∧
      (select lists req client backend).2 = lists) ∨
    ((select lists req client backend).1.status = .ok ∧ ∃ held : RemoteSelectList,
      held.cursor = 0 ∧ (select lists req client backend).2 = lists.insert req.list held) := by
  unfold select
  split
  · exact Or.inl ⟨rfl, rfl⟩
  · exact Or.inl ⟨rfl, rfl⟩
  · split
    · exact Or.inl ⟨rfl, rfl⟩
    · split
      · exact Or.inl ⟨rfl, rfl⟩
      · exact Or.inr ⟨rfl, _, rfl, rfl⟩

theorem batchResponse_status (backend : Backend J) (account : String) (list : SelectList)
    (batch : List SelectEntry) :
    (batchResponse backend account list batch).status = .ok ∨
      (batchResponse backend account list batch).status = .error := by
  unfold batchResponse
  split
  · split
    · exact Or.inr rfl
    · exact Or.inl rfl
  · split
    · exact Or.inr rfl
    · exact Or.inr rfl
    · exact Or.inl rfl

theorem directoryRows_keys {backend : Backend J} {account file : String} :
    ∀ {batch : List SelectEntry} {rows : List (String × J)},
      directoryRows backend account file batch = .ok rows →
      ∀ row ∈ rows, ∃ entry ∈ batch, entry.key = row.1 := by
  intro batch
  induction batch with
  | nil =>
    intro rows h row hrow
    cases h
    cases hrow
  | cons entry rest ih =>
    intro rows h row hrow
    rw [directoryRows] at h
    split at h
    · cases h
    · obtain ⟨entry', he, hkey⟩ := ih h row hrow
      exact ⟨entry', List.mem_cons_of_mem _ he, hkey⟩
    · cases hrest : directoryRows backend account file rest with
      | error e => rw [hrest] at h; cases h
      | ok rows' =>
        rw [hrest] at h
        cases h
        rcases List.mem_cons.mp hrow with rfl | hrow
        · exact ⟨entry, List.mem_cons_self, rfl⟩
        · obtain ⟨entry', he, hkey⟩ := ih hrest row hrow
          exact ⟨entry', List.mem_cons_of_mem _ he, hkey⟩

/-- Every row is of an entry of the batch. -/
theorem batchResponse_keys {backend : Backend J} {account : String} {list : SelectList}
    {batch : List SelectEntry} {rows : List (String × J)}
    (h : (batchResponse backend account list batch).results = some rows) :
    ∀ row ∈ rows, ∃ entry ∈ batch, entry.key = row.1 := by
  unfold batchResponse at h
  split at h
  · split at h
    · cases h
    · rename_i rows' hrows
      cases h
      exact directoryRows_keys hrows
  · split at h
    · cases h
    · cases h
    · cases h
      intro row hrow
      obtain ⟨⟨entry, j⟩, hentry, rfl⟩ := List.mem_map.mp hrow
      obtain ⟨entry', he, hfound⟩ := List.mem_filterMap.mp hentry
      obtain ⟨row, -, heq⟩ := Option.map_eq_some_iff.mp hfound
      cases heq
      exact ⟨entry, he, rfl⟩

/-! ## Many clients -/

/-- One request as it was answered: a `SELECT` or a `GET.NEXT` of some client. -/
structure PageEvent (J : Type) where
  before : SelectLists
  client : ClientInfo
  selects : Bool
  req : Request
  backend : Backend J

namespace PageEvent

def response (e : PageEvent J) : Option (Response J) :=
  if e.selects then some (select e.before e.req e.client e.backend).1
  else (getNext e.before e.req e.client e.backend).1

def after (e : PageEvent J) : SelectLists :=
  if e.selects then (select e.before e.req e.client e.backend).2
  else (getNext e.before e.req e.client e.backend).2

def answeredOk (e : PageEvent J) : Prop := ∃ response, e.response = some response ∧
  response.status = .ok

/-- The client built `held` under this name. -/
structure Selected (e : PageEvent J) (client name : String) (held : RemoteSelectList) : Prop where
  selects : e.selects = true
  sender : e.client.thumbprint = client
  names : e.req.list = name
  ok : e.answeredOk
  holds : e.after[name]? = some held

/-- The client asked for more of the list of this name. -/
structure GetsNext (e : PageEvent J) (client name : String) : Prop where
  gets : e.selects = false
  sender : e.client.thumbprint = client
  names : e.req.list = name

/-- A request changes no list but the one it names. -/
theorem names_changed {e : PageEvent J} {name : String} (h : e.after[name]? ≠ e.before[name]?) :
    e.req.list = name := by
  by_contra hne
  apply h
  unfold after
  split
  · rcases select_spec e.before e.req e.client e.backend with ⟨-, hsame⟩ | ⟨-, held, -, hinsert⟩
    · rw [hsame]
    · rw [hinsert, getElem?_insert_ne _ _ hne]
  · rcases getNext_spec e.before e.req e.client e.backend with
      ⟨_, _, hnext⟩ | ⟨_, _, _, hnext⟩ | ⟨_, _, _, hnext⟩ | ⟨_, _, _, hnext⟩
    · rw [hnext]
    · rw [hnext]
    · rw [hnext]
    · rw [hnext]
      exact getElem?_insert_ne _ _ hne

/-- A list just selected is at its start. -/
theorem Selected.cursor {e : PageEvent J} {client name : String} {held : RemoteSelectList}
    (h : e.Selected client name held) : held.cursor = 0 := by
  obtain ⟨response, hresponse, hok⟩ := h.ok
  have hheld := h.holds
  unfold PageEvent.response at hresponse
  unfold after at hheld
  rw [if_pos h.selects] at hresponse hheld
  rcases select_spec e.before e.req e.client e.backend with ⟨herror, -⟩ | ⟨-, held', hzero, hinsert⟩
  · rw [Option.some.inj hresponse, hok] at herror
    cases herror
  · rw [hinsert, h.names, getElem?_insert_eq, if_pos rfl] at hheld
    rw [← Option.some.inj hheld, hzero]

end PageEvent

/-- Runs of requests of any clients, with what came before a request at hand where it is judged. -/
inductive PageRun (ok : List (PageEvent J) → PageEvent J → Prop) :
    List (PageEvent J) → SelectLists → Prop where
  | nil : PageRun ok [] ∅
  | snoc {es : List (PageEvent J)} {e : PageEvent J} :
      PageRun ok es e.before → ok es e → PageRun ok (es ++ [e]) e.after

/-- The requests after a `SELECT` of the client, up to its next one of that name. -/
structure Segment (es : List (PageEvent J)) (client name : String) (held : RemoteSelectList)
    (post : List (PageEvent J)) : Prop where
  selected : ∃ pre sel, es = pre ++ sel :: post ∧ sel.Selected client name held
  last : ∀ e ∈ post, ∀ held', ¬ e.Selected client name held'

/-- Whoever changed the list was the client itself, and was answered. -/
def Quiet (client name : String) (post : List (PageEvent J)) : Prop :=
  ∀ e ∈ post, e.after[name]? ≠ e.before[name]? →
    e.client.thumbprint = client ∧ e.answeredOk

/-- A `GET.NEXT` whose sum fits, of a list that only its client has touched since its `SELECT` and
of which no batch was lost to an error. -/
def Undisturbed (es : List (PageEvent J)) (e : PageEvent J) : Prop :=
  e.selects = false →
    (∀ held, Pageable e.before e.req e.client held →
      held.cursor + e.req.batchSize.getD 1 ≤ u64Max) ∧
    ∀ held post, Segment es e.client.thumbprint e.req.list held post →
      Quiet e.client.thumbprint e.req.list post

/-- What the client is given of the list in the course of the requests. -/
inductive Pages (client name : String) (held : RemoteSelectList) :
    List (PageEvent J) → List (List SelectEntry) → Prop where
  | nil : Pages client name held [] []
  | other {post : List (PageEvent J)} {batches : List (List SelectEntry)} {e : PageEvent J} :
      Pages client name held post batches → ¬ e.GetsNext client name →
      Pages client name held (post ++ [e]) batches
  | refused {post : List (PageEvent J)} {batches : List (List SelectEntry)} {e : PageEvent J}
      {response : Response J} :
      Pages client name held post batches → e.GetsNext client name →
      e.response = some response → response.status = .error →
      Pages client name held (post ++ [e]) batches
  | batch {post : List (PageEvent J)} {batches : List (List SelectEntry)} {e : PageEvent J}
      {batch : List SelectEntry} :
      Pages client name held post batches → e.GetsNext client name →
      batch = (held.list.entries.drop batches.flatten.length).take (e.req.batchSize.getD 1) →
      e.response = some (batchResponse e.backend held.account held.list batch) →
      (batchResponse e.backend held.account held.list batch).status = .ok →
      Pages client name held (post ++ [e]) (batches ++ [batch])
  | exhausted {post : List (PageEvent J)} {batches : List (List SelectEntry)} {e : PageEvent J} :
      Pages client name held post batches → e.GetsNext client name → e.response = some eof →
      batches.flatten = held.list.entries → Pages client name held (post ++ [e]) batches

/-- The batches are the front of the list. -/
def Delivered (client name : String) (held : RemoteSelectList) (post : List (PageEvent J)) : Prop :=
  ∃ batches, Pages client name held post batches ∧ batches.flatten <+: held.list.entries

/-- And the list held is at the end of them. -/
def InStep (client name : String) (held : RemoteSelectList) (post : List (PageEvent J))
    (lists : SelectLists) : Prop :=
  ∃ batches, Pages client name held post batches ∧ batches.flatten <+: held.list.entries ∧
    lists[name]? = some { held with cursor := batches.flatten.length }

theorem InStep.delivered {client name : String} {held : RemoteSelectList}
    {post : List (PageEvent J)} {lists : SelectLists} (h : InStep client name held post lists) :
    Delivered client name held post := by
  obtain ⟨batches, hpages, hprefix, -⟩ := h
  exact ⟨batches, hpages, hprefix⟩

theorem Segment.nil_or_snoc {es post : List (PageEvent J)} {e : PageEvent J}
    {client name : String} {held : RemoteSelectList}
    (h : Segment (es ++ [e]) client name held post) :
    (post = [] ∧ e.Selected client name held) ∨
      ∃ post', post = post' ++ [e] ∧ Segment es client name held post' := by
  obtain ⟨⟨pre, sel, heq, hsel⟩, hlast⟩ := h
  rcases List.eq_nil_or_concat post with rfl | ⟨post', e', rfl⟩
  · obtain ⟨-, hes⟩ := List.append_inj' heq rfl
    cases hes
    exact Or.inl ⟨rfl, hsel⟩
  · rw [List.concat_eq_append, ← List.cons_append, ← List.append_assoc] at heq
    obtain ⟨hes, he⟩ := List.append_inj' heq rfl
    cases he
    refine Or.inr ⟨post', List.concat_eq_append, ⟨⟨pre, sel, hes, hsel⟩, fun e' he' => ?_⟩⟩
    exact hlast e' (by rw [List.concat_eq_append]; exact List.mem_append_left _ he')

theorem Quiet.init {client name : String} {post : List (PageEvent J)} {e : PageEvent J}
    (h : Quiet client name (post ++ [e])) : Quiet client name post :=
  fun e' he' => h e' (List.mem_append_left _ he')

theorem selected_inStep {e : PageEvent J} {client name : String} {held : RemoteSelectList}
    (h : e.Selected client name held) : InStep (J := J) client name held [] e.after := by
  refine ⟨[], .nil, List.nil_prefix, ?_⟩
  rw [h.holds]
  have hcursor := h.cursor
  obtain ⟨account, list, cursor⟩ := held
  dsimp only at hcursor
  rw [hcursor]
  rfl

/-- A request that does not page the client's list gives it nothing, and where it is quiet it leaves
the list as it is. -/
theorem other_step {e : PageEvent J} {client name : String} {held : RemoteSelectList}
    {post : List (PageEvent J)} (hgets : ¬ e.GetsNext client name)
    (hlast : ∀ held', ¬ e.Selected client name held')
    (hdelivered : Delivered client name held post)
    (hinStep : Quiet client name post → InStep client name held post e.before) :
    Delivered client name held (post ++ [e]) ∧
      (Quiet client name (post ++ [e]) → InStep client name held (post ++ [e]) e.after) := by
  refine ⟨?_, fun hquiet => ?_⟩
  · obtain ⟨batches, hpages, hprefix⟩ := hdelivered
    exact ⟨batches, hpages.other hgets, hprefix⟩
  · obtain ⟨batches, hpages, hprefix, hheld⟩ := hinStep hquiet.init
    refine ⟨batches, hpages.other hgets, hprefix, ?_⟩
    by_cases hsame : e.after[name]? = e.before[name]?
    · rw [hsame, hheld]
    · obtain ⟨hsender, hok⟩ :=
        hquiet e (List.mem_append_right _ (List.mem_singleton.mpr rfl)) hsame
      have hnames := PageEvent.names_changed hsame
      cases hselects : e.selects with
      | false => exact absurd ⟨hselects, hsender, hnames⟩ hgets
      | true =>
        have hafter : ∃ held', e.after[name]? = some held' := by
          unfold PageEvent.after
          rw [if_pos hselects]
          rcases select_spec e.before e.req e.client e.backend with
            ⟨-, hsame'⟩ | ⟨-, held', -, hinsert⟩
          · refine absurd ?_ hsame
            unfold PageEvent.after
            rw [if_pos hselects, hsame']
          · exact ⟨held', by rw [hinsert, hnames, getElem?_insert_eq, if_pos rfl]⟩
        obtain ⟨held', hheld'⟩ := hafter
        exact absurd ⟨hselects, hsender, hnames, hok, hheld'⟩ (hlast held')

/-- A `GET.NEXT` of a list that is in step gives the client its next batch, or says that there is
none, or refuses. -/
theorem getsNext_step {e : PageEvent J} {client name : String} {held : RemoteSelectList}
    {post : List (PageEvent J)} (hgets : e.GetsNext client name)
    (hfits : ∀ held, Pageable e.before e.req e.client held →
      held.cursor + e.req.batchSize.getD 1 ≤ u64Max)
    (hinStep : InStep client name held post e.before) :
    Delivered client name held (post ++ [e]) ∧
      (Quiet client name (post ++ [e]) → InStep client name held (post ++ [e]) e.after) := by
  obtain ⟨batches, hpages, hprefix, hheld⟩ := hinStep
  have hresponse : e.response = (getNext e.before e.req e.client e.backend).1 := by
    rw [PageEvent.response, if_neg (by rw [hgets.gets]; exact Bool.false_ne_true)]
  have hafter : e.after = (getNext e.before e.req e.client e.backend).2 := by
    rw [PageEvent.after, if_neg (by rw [hgets.gets]; exact Bool.false_ne_true)]
  have hat : ∀ held', e.before[e.req.list]? = some held' →
      held' = { held with cursor := batches.flatten.length } := by
    intro held' h
    rw [hgets.names, hheld] at h
    exact (Option.some.inj h).symm
  have hlength := hprefix.length_le
  rcases getNext_spec e.before e.req e.client e.backend with
    ⟨code, message, hnext⟩ | ⟨held', hfound, hend, hnext⟩ | ⟨held', hpageable, hover, hnext⟩ |
      ⟨held', hfound, hlt, hnext⟩
  · rw [hnext] at hresponse hafter
    have hall := hpages.refused hgets hresponse rfl
    exact ⟨⟨batches, hall, hprefix⟩, fun _ => ⟨batches, hall, hprefix, by rw [hafter, hheld]⟩⟩
  · rw [hnext] at hresponse hafter
    obtain rfl := hat held' hfound
    have hwhole : batches.flatten = held.list.entries := hprefix.eq_of_length_le hend
    have hall := hpages.exhausted hgets hresponse hwhole
    exact ⟨⟨batches, hall, hprefix⟩, fun _ => ⟨batches, hall, hprefix, by rw [hafter, hheld]⟩⟩
  · exact absurd (hfits held' hpageable) (not_le.mpr hover)
  · rw [hnext] at hresponse hafter
    obtain rfl := hat held' hfound
    dsimp only at hresponse hafter hlt
    rw [hgets.names] at hafter
    obtain ⟨rest, hrest⟩ := hprefix
    have hdrop : held.list.entries.drop batches.flatten.length = rest := by
      rw [← hrest, List.drop_left]
    have hfront : (batches ++ [(held.list.entries.drop batches.flatten.length).take
        (e.req.batchSize.getD 1)]).flatten <+: held.list.entries := by
      rw [List.flatten_append, List.flatten_singleton, hdrop, ← hrest]
      exact List.prefix_append_right_inj _ |>.mpr (List.take_prefix _ _)
    rcases batchResponse_status e.backend held.account held.list
        ((held.list.entries.drop batches.flatten.length).take (e.req.batchSize.getD 1)) with
      hok | herror
    · have hall := hpages.batch hgets rfl hresponse hok
      refine ⟨⟨_, hall, hfront⟩, fun _ => ⟨_, hall, hfront, ?_⟩⟩
      rw [hafter, getElem?_insert_eq, if_pos rfl, List.flatten_append, List.flatten_singleton,
        List.length_append, List.length_take, List.length_drop]
      congr 2
      omega
    · have hprefix : batches.flatten <+: held.list.entries := ⟨rest, hrest⟩
      have hall := hpages.refused hgets hresponse herror
      refine ⟨⟨batches, hall, hprefix⟩, fun hquiet => ⟨batches, hall, hprefix, ?_⟩⟩
      by_cases hsame : e.after[name]? = e.before[name]?
      · rw [hsame, hheld]
      · obtain ⟨-, response, hr, hok⟩ :=
          hquiet e (List.mem_append_right _ (List.mem_singleton.mpr rfl)) hsame
        rw [hresponse] at hr
        rw [← Option.some.inj hr, herror] at hok
        cases hok

theorem segment_step {es : List (PageEvent J)} {e : PageEvent J} (hok : Undisturbed es e)
    (ih : ∀ client name held post, Segment es client name held post →
      Delivered client name held post ∧
        (Quiet client name post → InStep client name held post e.before)) :
    ∀ client name held post, Segment (es ++ [e]) client name held post →
      Delivered client name held post ∧
        (Quiet client name post → InStep client name held post e.after) := by
  intro client name held post hsegment
  rcases hsegment.nil_or_snoc with ⟨rfl, hsel⟩ | ⟨post', rfl, hbefore⟩
  · have hstart := selected_inStep hsel
    exact ⟨hstart.delivered, fun _ => hstart⟩
  · obtain ⟨hdelivered, hinStep⟩ := ih client name held post' hbefore
    by_cases hgets : e.GetsNext client name
    · obtain ⟨hfits, hquiet⟩ := hok hgets.gets
      rw [hgets.sender, hgets.names] at hquiet
      exact getsNext_step hgets hfits (hinStep (hquiet held post' hbefore))
    · exact other_step hgets (hsegment.last e (List.mem_append_right _
        (List.mem_singleton.mpr rfl))) hdelivered hinStep

theorem segment_run {es : List (PageEvent J)} {lists : SelectLists}
    (hrun : PageRun Undisturbed es lists) :
    ∀ client name held post, Segment es client name held post →
      Delivered client name held post ∧
        (Quiet client name post → InStep client name held post lists) := by
  induction hrun with
  | nil =>
    rintro client name held post ⟨⟨pre, sel, heq, -⟩, -⟩
    exact absurd heq (by simp)
  | snoc _ hok ih => exact segment_step hok ih

/-- A `GET.NEXT` whose sum fits does not panic. -/
theorem response_isSome {es : List (PageEvent J)} {e : PageEvent J} (hok : Undisturbed es e) :
    e.response.isSome = true := by
  unfold PageEvent.response
  cases hselects : e.selects with
  | true => rfl
  | false =>
    rcases getNext_spec e.before e.req e.client e.backend with
      ⟨_, _, hnext⟩ | ⟨_, _, _, hnext⟩ | ⟨held, hpageable, hover, -⟩ | ⟨_, _, _, hnext⟩
    · rw [hnext]; rfl
    · rw [hnext]; rfl
    · exact absurd ((hok hselects).1 held hpageable) (not_le.mpr hover)
    · rw [hnext]; rfl

theorem PageRun.front {ok : List (PageEvent J) → PageEvent J → Prop} :
    ∀ {rest es : List (PageEvent J)} {lists : SelectLists}, PageRun ok (es ++ rest) lists →
      ∃ lists', PageRun ok es lists' := by
  intro rest
  induction rest using List.reverseRecOn with
  | nil => intro es lists h; rw [List.append_nil] at h; exact ⟨lists, h⟩
  | append_singleton rest e ih =>
    intro es lists h
    rw [← List.append_assoc] at h
    generalize hall : es ++ rest ++ [e] = all at h
    cases h with
    | nil => exact absurd hall (by simp)
    | snoc hrun _ =>
      obtain ⟨hes, -⟩ := List.append_inj' hall rfl
      rw [← hes] at hrun
      exact ih hrun

/-- After each `SELECT` that is answered OK, up to the client's next one of that name: what its
`GET.NEXT`s give it is the front of the list the `SELECT` built, batch by batch, and the end is
reported at the end. Nothing panics. -/
def PagedInOrder (es : List (PageEvent J)) : Prop :=
  (∀ e ∈ es, e.response.isSome = true) ∧
  ∀ pre sel post rest client name held, es = pre ++ sel :: (post ++ rest) →
    sel.Selected client name held → (∀ e ∈ post, ∀ held', ¬ e.Selected client name held') →
    Delivered client name held post

theorem pages_in_order {es : List (PageEvent J)} {lists : SelectLists}
    (hrun : PageRun Undisturbed es lists) : PagedInOrder es := by
  constructor
  · induction hrun with
    | nil => exact fun _ he => by cases he
    | snoc _ hok ih =>
      intro e' he'
      rcases List.mem_append.mp he' with he' | he'
      · exact ih e' he'
      · rw [List.mem_singleton.mp he']
        exact response_isSome hok
  · intro pre sel post rest client name held heq hsel hlast
    rw [← List.cons_append, ← List.append_assoc] at heq
    rw [heq] at hrun
    obtain ⟨lists', hfront⟩ := hrun.front
    exact (segment_run hfront client name held post ⟨⟨pre, sel, rfl, hsel⟩, hlast⟩).1

/-! ## Runs computed -/

/-- A request before it is known what it finds. -/
structure PageRequest (J : Type) where
  client : ClientInfo
  selects : Bool
  req : Request
  backend : Backend J

def PageRequest.event (r : PageRequest J) (lists : SelectLists) : PageEvent J :=
  { before := lists, client := r.client, selects := r.selects, req := r.req, backend := r.backend }

/-- A run of these requests, where `ok` lets each of them be. -/
def pageAll (ok : List (PageEvent J) → PageEvent J → Bool) (es : List (PageEvent J))
    (lists : SelectLists) : List (PageRequest J) → Option (List (PageEvent J) × SelectLists)
  | [] => some (es, lists)
  | r :: rest =>
    if ok es (r.event lists) then pageAll ok (es ++ [r.event lists]) (r.event lists).after rest
    else none

theorem pageRun_of_all {ok : List (PageEvent J) → PageEvent J → Prop}
    {okNow : List (PageEvent J) → PageEvent J → Bool} (hok : ∀ es e, okNow es e = true → ok es e) :
    ∀ {rs : List (PageRequest J)} {es es' : List (PageEvent J)} {lists lists' : SelectLists},
      PageRun ok es lists → pageAll okNow es lists rs = some (es', lists') →
      PageRun ok es' lists' := by
  intro rs
  induction rs with
  | nil => intro es es' lists lists' hrun h; cases h; exact hrun
  | cons r rest ih =>
    intro es es' lists lists' hrun h
    rw [pageAll] at h
    split at h
    · rename_i hnow
      have hnext : PageRun ok (es ++ [r.event lists]) (r.event lists).after :=
        .snoc (e := r.event lists) hrun (hok _ _ hnow)
      exact ih hnext h
    · cases h

/-- Everything so far is the same client's and was answered, and the sum fits. -/
def undisturbedNow (es : List (PageEvent J)) (e : PageEvent J) : Bool :=
  (es.all fun e' => e'.client.thumbprint = e.client.thumbprint &&
    e'.response.any fun response => response.status = .ok) &&
  match e.before[e.req.list]? with
  | none => true
  | some held => held.cursor + e.req.batchSize.getD 1 ≤ u64Max

theorem undisturbed_of_now (es : List (PageEvent J)) (e : PageEvent J)
    (h : undisturbedNow es e = true) : Undisturbed es e := by
  obtain ⟨hall, hfits⟩ := Bool.and_eq_true_iff.mp h
  intro _
  constructor
  · rintro held ⟨-, hheld, -⟩
    rw [hheld] at hfits
    exact of_decide_eq_true hfits
  · rintro held post ⟨⟨pre, sel, rfl, -⟩, -⟩ e' he' -
    have hnow := List.all_eq_true.mp hall e' (List.mem_append_right _ (List.mem_cons_of_mem _ he'))
    obtain ⟨hclient, hok⟩ := Bool.and_eq_true_iff.mp hnow
    obtain ⟨response, hresponse, hstatus⟩ := (Option.any_eq_true _ _).mp hok
    exact ⟨of_decide_eq_true hclient, response, hresponse, of_decide_eq_true hstatus⟩

/-- The answer to the last of the requests, where it pages the client's list. -/
theorem Pages.last {client name : String} {held : RemoteSelectList} {post : List (PageEvent J)}
    {e : PageEvent J} {batches : List (List SelectEntry)}
    (h : Pages client name held (post ++ [e]) batches) (hgets : e.GetsNext client name) :
    ∃ response, e.response = some response ∧ (response.status = .error ∨ response = eof ∨
      ∃ batch, (∀ entry ∈ batch, entry ∈ held.list.entries) ∧
        response = batchResponse e.backend held.account held.list batch) := by
  generalize hall : post ++ [e] = all at h
  cases h with
  | nil => exact absurd hall (by simp)
  | other hpages hnot =>
    obtain ⟨-, he⟩ := List.append_inj' hall rfl
    cases he
    exact absurd hgets hnot
  | refused _ _ hresponse hstatus =>
    obtain ⟨-, he⟩ := List.append_inj' hall rfl
    cases he
    exact ⟨_, hresponse, Or.inl hstatus⟩
  | batch _ _ hbatch hresponse _ =>
    obtain ⟨-, he⟩ := List.append_inj' hall rfl
    cases he
    refine ⟨_, hresponse, Or.inr (Or.inr ⟨_, fun entry hentry => ?_, rfl⟩)⟩
    rw [hbatch] at hentry
    exact List.mem_of_mem_drop (List.mem_of_mem_take hentry)
  | exhausted _ _ hresponse _ =>
    obtain ⟨-, he⟩ := List.append_inj' hall rfl
    cases he
    exact ⟨_, hresponse, Or.inr (Or.inl rfl)⟩

/-- A client of the account `SALES`. -/
def salesClient (thumbprint : String) : ClientInfo :=
  { name := thumbprint, thumbprint := thumbprint, allowedAccounts := ["SALES"], isAdmin := false,
    capabilities := [], expiresAt := none, enqueueFiles := [] }

/-- Two files, `ORDERS` with two records and any other with one. -/
def twoFiles : Backend Nat where
  isDirectory := fun _ _ => false
  listing := fun _ _ => .ok []
  selection := fun _ file =>
    .ok (none, if file = "ORDERS" then [{ key := "O1" }, { key := "O2" }] else [{ key := "N1" }])
  directorySize := fun _ _ _ => .ok none
  sizeRow := id
  table := fun _ _ => .ok (some fun _ _ => some 0)

def selectFile (thumbprint file : String) : PageRequest Nat :=
  { client := salesClient thumbprint, selects := true, backend := twoFiles
    req := { command := "SELECT", file := some file } }

def nextBatch (thumbprint : String) (batchSize : Nat) : PageRequest Nat :=
  { client := salesClient thumbprint, selects := false, backend := twoFiles
    req := { command := "GET.NEXT", batchSize := some batchSize } }

theorem orders_paged :
    ∃ es lists, PageRun Undisturbed es lists ∧
      es.filterMap (fun e => e.response.bind Response.results) = [[("O1", 0)], [("O2", 0)]] ∧
      PagedInOrder es := by
  have hall : (pageAll undisturbedNow [] ∅
      [selectFile "a" "ORDERS", nextBatch "a" 1, nextBatch "a" 5, nextBatch "a" 5]).any
        (fun r => r.1.filterMap (fun e => e.response.bind Response.results) =
          [[("O1", 0)], [("O2", 0)]]) = true := by
    decide +kernel
  obtain ⟨⟨es, lists⟩, hes, hresults⟩ := (Option.any_eq_true _ _).mp hall
  have hrun := pageRun_of_all undisturbed_of_now .nil hes
  exact ⟨es, lists, hrun, of_decide_eq_true hresults, pages_in_order hrun⟩

/-- After one of two entries, a batch of `usize::MAX` is one too many. -/
example : (pageAll (fun _ _ => true) [] ∅ [selectFile "a" "ORDERS", nextBatch "a" 1,
    nextBatch "a" u64Max]).map (fun r => r.1.map fun e => e.response.isSome) =
      some [true, true, false] := by
  decide +kernel

/-- Two clients that leave the name of the list out: the second's list is the first's. -/
def sharedRequests : List (PageEvent Nat) :=
  let first := (selectFile "a" "ORDERS").event ∅
  let second := (selectFile "b" "NOTES").event first.after
  [first, second, (nextBatch "a" 1).event second.after]

theorem shared_list_pages_another :
    PageRun (fun _ _ => True) sharedRequests ((sharedRequests.map PageEvent.after).getLastD ∅) ∧
      ¬ PagedInOrder sharedRequests := by
  constructor
  · exact pageRun_of_all (fun _ _ _ => trivial) .nil (show pageAll (fun _ _ => true) [] ∅
      [selectFile "a" "ORDERS", selectFile "b" "NOTES", nextBatch "a" 1] = some _ from rfl)
  · rintro ⟨-, hpaged⟩
    let first := (selectFile "a" "ORDERS").event ∅
    let second := (selectFile "b" "NOTES").event first.after
    let next := (nextBatch "a" 1).event second.after
    let orders : RemoteSelectList :=
      { account := "SALES"
        list :=
          { tableName := "ORDERS", isDict := false, explodeField := none
            entries := [{ key := "O1" }, { key := "O2" }] } }
    have hselected : first.Selected "a" "DEFAULT" orders :=
      ⟨rfl, rfl, rfl, ⟨_, rfl, by decide +kernel⟩, by decide +kernel⟩
    have hlast : ∀ e ∈ [second, next], ∀ held', ¬ e.Selected "a" "DEFAULT" held' := by
      intro e he held' h
      rcases List.mem_cons.mp he with rfl | he
      · exact absurd h.sender (by decide)
      · rw [List.mem_singleton.mp he] at h
        exact absurd h.selects (by decide)
    obtain ⟨batches, hpages, -⟩ :=
      hpaged [] first [second, next] [] "a" "DEFAULT" orders rfl hselected hlast
    have hresponse : next.response =
        some { status := .ok, results := some [("N1", 0)], count := some 1 } := by decide +kernel
    have hlastOf : Pages "a" "DEFAULT" orders ([second] ++ [next]) batches := hpages
    obtain ⟨response, hr, hcases⟩ := hlastOf.last ⟨rfl, rfl, rfl⟩
    rw [hresponse] at hr
    obtain rfl := Option.some.inj hr
    rcases hcases with hstatus | heof | ⟨batch, hmem, hbatch⟩
    · cases hstatus
    · cases heof
    · obtain ⟨entry, hentry, hkey⟩ := batchResponse_keys (congrArg Response.results hbatch).symm
        ("N1", 0) (List.mem_singleton.mpr rfl)
      have hkeys : ∀ entry ∈ orders.list.entries, entry.key ≠ "N1" := by decide
      exact hkeys entry (hmem entry hentry) hkey

end RustyPick
