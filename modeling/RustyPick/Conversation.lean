import RustyPick.Lib.Framing
import RustyPick.TransferFrame
import RustyPick.Clients

/-!
# RustyPick.Conversation

One connection from its first request to its last (the loop of `run_server` in `server/mod.rs`).

A request is a line. A line that is no request is answered and passed over; one that is too long
closes the connection, as does the end of the stream, a read that fails, a client that is no longer
authorized, and a transfer that cannot tell where it left the socket. A transfer is served on the
socket itself, since its body is there; everything else is handed to the engine.

* `requests_in_step`: whatever goes wrong, the lines taken for requests are those of the frames the
  client sent, each with the body it announced.
* `every_request_served`: a client that sends whole frames and is not refused for good has each of
  them answered, in order.
-/

namespace RustyPick

open Lib

variable {J : Type}

namespace Transfer

/-- `carries_a_body`. -/
def carriesABody (command : String) : Bool := command ∈ ["PUT.BYTES", "IMPORT.BYTES"]

/-- What comes of a request on a blocking thread. -/
inductive Handled (J : Type) where
  | answered (response : Response J)
  | failed (e : String)
  | deauthorized

/-- What a connection is served with. -/
structure Server (J : Type) where
  casing : Casing
  /-- `serde_json::from_str`. -/
  parse : String → Except String Request
  /-- `serde_json::to_string`. -/
  encode : Response J → Option String
  client : ClientInfo
  maxRequestBytes : Nat
  maxRecordBytes : Nat
  maxArchiveBytes : Nat

/-- What goes on around one request: the engine, the other connections, the disk. -/
structure Around (J : Type) where
  dispatch : Request → Directories → Handled J × Directories
  mishaps : Mishaps
  meanwhile : Directories → Directories
  importer : Importer J Directories
  pool : Option String
  found : String → String → Except DbError (Option Opened)
  produce : Archive.Source → Except DbError (Opened × J)

/-- A line taken for a request, and what came off the socket behind it. -/
structure Turn where
  taken : Option (Frame UInt8)
  /-- The loop goes on. -/
  stays : Bool
  db : Directories
  socket : Socket

/-- A response to anything but a transfer. One that does not encode is not sent, and whether the
write succeeds is not looked at. -/
def Server.answer (server : Server J) (response : Response J) (writer : Outlet UInt8) :
    Outlet UInt8 :=
  match server.encode response with
  | some text => (writer.writeAll (utf8 text ++ [10])).2
  | none => writer

def tooLarge (limit : Nat) : Response J :=
  { status := .error
    message := some ("Request too large (max " ++ toString limit ++ " bytes)") }

def gone : Response J :=
  { status := .error, message := some "Client deauthorized", code := some .deauthorized }

/-- A transfer is served on the socket. -/
def Server.transfer (server : Server J) (around : Around J) (command : String) (req : Request)
    (db : Directories) (socket : Socket) : Outcome × Directories × Socket :=
  if command = "PUT.BYTES" then
    let done := putBytes server.encode req db server.client server.maxRecordBytes around.mishaps
      around.meanwhile socket
    (done.outcome, done.db, done.socket)
  else if command = "IMPORT.BYTES" then
    let done := importBytes server.encode around.importer req db server.client
      server.maxArchiveBytes around.mishaps around.meanwhile socket
    (done.outcome, done.db, done.socket)
  else if command = "EXPORT.BYTES" then
    let (outcome, writer) := exportBytes server.encode req server.client around.pool
      around.produce socket.writer
    (outcome, db, { socket with writer := writer })
  else
    let (outcome, writer) := getBytes server.encode req db server.client around.pool around.found
      socket.writer
    (outcome, db, { socket with writer := writer })

/-- What came off a socket. -/
def consumed (before after : Socket) : Bytes :=
  before.reader.content.take (before.reader.content.length - after.reader.content.length)

/-- A request that is a line of JSON. -/
def Server.serve (server : Server J) (around : Around J) (line : Bytes) (req : Request)
    (db : Directories) (socket : Socket) : Turn :=
  let command := server.casing.upper req.command
  if isTransferCommand command then
    let (outcome, db, after) := server.transfer around command req db socket
    { taken := some ⟨line, consumed socket after⟩, stays := !outcome.close, db := db,
      socket := after }
  else
    let (handled, db) := around.dispatch req db
    let taken := some ⟨line, []⟩
    match handled with
    | .answered response =>
      { taken := taken, stays := true, db := db,
        socket := { socket with writer := server.answer response socket.writer } }
    | .failed e =>
      let response : Response J :=
        { status := .error, message := some ("Request failed: " ++ e) }
      { taken := taken, stays := true, db := db,
        socket := { socket with writer := server.answer response socket.writer } }
    | .deauthorized =>
      { taken := taken, stays := false, db := db,
        socket := { socket with writer := server.answer gone socket.writer } }

/-- Once around the loop. -/
def Server.turn (server : Server J) (around : Around J) (db : Directories) (socket : Socket) :
    Turn :=
  let (read, reader) := socket.reader.readUntil 10 server.maxRequestBytes
  let socket := { socket with reader := reader }
  let ended : Turn := { taken := none, stays := false, db := db, socket := socket }
  match read with
  | .error _ => ended
  | .ok line =>
    if line = [] then ended
    else
      match fromUtf8? line with
      | none => ended
      | some text =>
        if server.maxRequestBytes ≤ line.length ∧ line.getLast? ≠ some 10 then
          { ended with
            socket :=
              { socket with
                writer := server.answer (tooLarge server.maxRequestBytes) socket.writer } }
        else
          match server.parse text with
          | .error e =>
            let response := refusal .invalidJson ("Invalid JSON: " ++ e)
            { taken := some ⟨line, []⟩, stays := true, db := db,
              socket := { socket with writer := server.answer response socket.writer } }
          | .ok req => server.serve around line req db socket

/-- A conversation, with one `Around` for each time around the loop that is looked at. -/
structure Conversed where
  taken : List (Frame UInt8)
  stays : Bool
  db : Directories
  socket : Socket

def Server.converse (server : Server J) : List (Around J) → Directories → Socket → Conversed
  | [], db, socket => { taken := [], stays := true, db := db, socket := socket }
  | around :: rest, db, socket =>
    let turn := server.turn around db socket
    if turn.stays then
      let after := server.converse rest turn.db turn.socket
      { after with taken := turn.taken.toList ++ after.taken }
    else
      { taken := turn.taken.toList, stays := false, db := turn.db, socket := turn.socket }

/-- How the client's bytes are cut into requests. -/
def Server.framing (server : Server J) : Framing UInt8 where
  delim := 10
  limit := server.maxRequestBytes
  announced line :=
    match (fromUtf8? line).map server.parse with
    | some (.ok req) =>
      if carriesABody (server.casing.upper req.command) then req.length.getD 0 else 0
    | _ => 0

/-! ## What a transfer takes off the socket -/

variable {encode : Response J → Option String}

theorem refuseUpload_consumed {announced : Option Nat} {limit : Nat} {socket : Socket}
    {response : Response J}
    (h : (refuseUpload encode announced limit socket response).1.close = false) :
    ∃ length, announced = some length ∧ length ≤ socket.reader.content.length ∧
      (refuseUpload encode announced limit socket response).2.reader.content =
        socket.reader.content.drop length := by
  unfold refuseUpload at h ⊢
  dsimp only at h ⊢
  split
  next hdrainable =>
    rw [if_pos hdrainable] at h
    cases announced with
    | none => cases hdrainable
    | some length =>
      rw [Option.getD_some] at h ⊢
      rcases drain_spec socket.reader length with
        ⟨hle, reader', hdrain, hcontent⟩ | ⟨-, n, reader', -, hdrain⟩
      · rw [hdrain]
        exact ⟨length, rfl, hle, hcontent⟩
      · rw [hdrain] at h
        cases h
  next hdrainable =>
    rw [if_neg hdrainable] at h
    cases h

theorem concludeUpload_untorn {received : Except TransferError Nat} {response : Response J}
    {socket : Socket} (h : (concludeUpload encode received response socket).1.close = false) :
    tornBy received = false ∧
      (concludeUpload encode received response socket).2.reader = socket.reader := by
  unfold concludeUpload at h ⊢
  dsimp only at h ⊢
  split at h
  · cases h
  next hfine =>
    rw [Bool.not_eq_true, Bool.or_eq_false_iff] at hfine
    exact ⟨hfine.1, rfl⟩

theorem receiveInto_consumed {disk : Disk} {length : Nat} {reader after : Feed UInt8 Stop}
    {received : Except TransferError Nat} {left : Option Bytes}
    (h : receiveInto disk length reader = (received, left, after))
    (huntorn : tornBy received = false) :
    length ≤ reader.content.length ∧ after.content = reader.content.drop length := by
  rcases receiveInto_spec disk length reader with
    ⟨hle, received', left', after', heq, hcontent, -⟩ | ⟨-, n, left', after', -, heq⟩
  · obtain ⟨rfl, rfl, rfl⟩ : received = received' ∧ left = left' ∧ after = after' := by
      simpa using h.symm.trans heq
    exact ⟨hle, hcontent⟩
  · obtain ⟨rfl, rfl, rfl⟩ : received = .error (.socket n) ∧ left = left' ∧ after = after' := by
      simpa using h.symm.trans heq
    cases huntorn

/-- An upload that lets the connection go on has taken all of its body, and no more. -/
theorem putBytes_consumed {req : Request} {db : Directories} {client : ClientInfo}
    {maxRecordBytes : Nat} {mishaps : Mishaps} {meanwhile : Directories → Directories}
    {socket : Socket}
    (h : (putBytes encode req db client maxRecordBytes mishaps meanwhile socket).outcome.close =
      false) :
    ∃ length, req.length = some length ∧ length ≤ socket.reader.content.length ∧
      (putBytes encode req db client maxRecordBytes mishaps meanwhile
        socket).socket.reader.content = socket.reader.content.drop length := by
  unfold putBytes at h ⊢
  cases hstage : blocking mishaps.stagePool (stageBytes (J := J) req db client mishaps.made) with
  | error response =>
    rw [hstage] at h
    exact refuseUpload_consumed h
  | ok staged =>
    rw [hstage] at h
    obtain ⟨-, -, -, hlength, -⟩ := stageBytes_ok (blocking_ok hstage)
    dsimp only at h ⊢
    obtain ⟨huntorn, hreader⟩ := concludeUpload_untorn h
    rw [hreader]
    exact ⟨_, hlength, receiveInto_consumed rfl huntorn⟩

theorem importBytes_consumed {D : Type} {importer : Importer J D} {req : Request} {db : D}
    {client : ClientInfo} {maxArchiveBytes : Nat} {mishaps : Mishaps} {meanwhile : D → D}
    {socket : Socket}
    (h : (importBytes encode importer req db client maxArchiveBytes mishaps meanwhile
      socket).outcome.close = false) :
    ∃ length, req.length = some length ∧ length ≤ socket.reader.content.length ∧
      (importBytes encode importer req db client maxArchiveBytes mishaps meanwhile
        socket).socket.reader.content = socket.reader.content.drop length := by
  unfold importBytes at h ⊢
  cases hstage : blocking mishaps.stagePool (stageArchive (J := J) req client mishaps.made) with
  | error response =>
    rw [hstage] at h
    exact refuseUpload_consumed h
  | ok staged =>
    rw [hstage] at h
    have hlength := stageArchive_ok (blocking_ok hstage)
    dsimp only at h ⊢
    split
    next hlarge =>
      rw [if_pos hlarge] at h
      cases h
    next hfits =>
      rw [if_neg hfits] at h
      dsimp only at h ⊢
      obtain ⟨huntorn, hreader⟩ := concludeUpload_untorn h
      rw [hreader]
      exact ⟨_, hlength, receiveInto_consumed rfl huntorn⟩

/-- What follows a request on the socket. -/
def bodyLength (command : String) (req : Request) : Nat :=
  if carriesABody command then req.length.getD 0 else 0

theorem bodyLength_of_carries {command : String} {req : Request} {n : Nat}
    (hcarries : carriesABody command = true) (hlength : req.length = some n) :
    bodyLength command req = n := by
  rw [bodyLength, if_pos hcarries, hlength, Option.getD_some]

theorem transfer_consumed {server : Server J} {around : Around J} {command : String} {req : Request}
    {db : Directories} {socket : Socket}
    (h : (server.transfer around command req db socket).1.close = false) :
    bodyLength command req ≤ socket.reader.content.length ∧
      (server.transfer around command req db socket).2.2.reader.content =
        socket.reader.content.drop (bodyLength command req) := by
  unfold Server.transfer at h ⊢
  split
  next hput =>
    rw [if_pos hput] at h
    obtain ⟨length, hlength, hle, hcontent⟩ := putBytes_consumed h
    rw [bodyLength_of_carries (by rw [hput]; rfl) hlength]
    exact ⟨hle, hcontent⟩
  next hput =>
    rw [if_neg hput] at h
    split
    next himport =>
      rw [if_pos himport] at h
      obtain ⟨length, hlength, hle, hcontent⟩ := importBytes_consumed h
      rw [bodyLength_of_carries (by rw [himport]; rfl) hlength]
      exact ⟨hle, hcontent⟩
    next himport =>
      have hbody : bodyLength command req = 0 :=
        if_neg (by simp [carriesABody, hput, himport])
      rw [hbody, List.drop_zero]
      refine ⟨Nat.zero_le _, ?_⟩
      split
      · rfl
      · rfl

theorem consumed_spec {before after : Socket} {n : Nat} (hle : n ≤ before.reader.content.length)
    (h : after.reader.content = before.reader.content.drop n) :
    (consumed before after).length = n ∧
      before.reader.content = consumed before after ++ after.reader.content := by
  have hn : before.reader.content.length - (before.reader.content.length - n) = n := by omega
  rw [consumed, h, List.length_drop, hn]
  exact ⟨List.length_take_of_le hle, (List.take_append_drop n _).symm⟩

/-! ## Requests and frames -/

section Framed

variable {server : Server J} {around : Around J} {db : Directories} {socket : Socket}

theorem serve_framed (server : Server J) (around : Around J) (db : Directories) (socket : Socket)
    (line : Bytes) (req : Request) :
    ∃ f, (server.serve around line req db socket).taken = some f ∧ f.head = line ∧
      ((server.serve around line req db socket).stays = true →
        f.body.length = bodyLength (server.casing.upper req.command) req ∧
        socket.reader.content =
          f.body ++ (server.serve around line req db socket).socket.reader.content) := by
  unfold Server.serve
  dsimp only
  split
  next htransfer =>
    refine ⟨_, rfl, rfl, fun hstays => ?_⟩
    obtain ⟨hle, hcontent⟩ := transfer_consumed (by simpa using hstays)
    exact consumed_spec hle hcontent
  next hordinary =>
    have hbody : bodyLength (server.casing.upper req.command) req = 0 := by
      refine if_neg fun hcarries => hordinary ?_
      have hmem := of_decide_eq_true hcarries
      simp only [List.mem_cons, List.not_mem_nil, or_false] at hmem
      rcases hmem with hput | himport
      · rw [hput]
        rfl
      · rw [himport]
        rfl
    rw [hbody]
    cases (around.dispatch req db).1 with
    | answered response => exact ⟨⟨line, []⟩, rfl, rfl, fun _ => ⟨rfl, rfl⟩⟩
    | failed e => exact ⟨⟨line, []⟩, rfl, rfl, fun _ => ⟨rfl, rfl⟩⟩
    | deauthorized => exact ⟨⟨line, []⟩, rfl, rfl, fun hstays => by cases hstays⟩

/-- Once around the loop, a line is taken for a request only where a frame begins, and the loop goes
on only where it ends. -/
theorem turn_framed (server : Server J) (around : Around J) (db : Directories) (socket : Socket) :
    ((server.turn around db socket).taken = none → (server.turn around db socket).stays = false) ∧
    ∀ f, (server.turn around db socket).taken = some f →
      f.head = server.framing.head socket.reader.content ∧ f.head ≠ [] ∧
      ((server.turn around db socket).stays = true →
        f.body.length = server.framing.announced f.head ∧
        socket.reader.content =
          f.whole ++ (server.turn around db socket).socket.reader.content) := by
  obtain ⟨hcontent, -, hread⟩ := socket.reader.readUntil_spec 10 server.maxRequestBytes
  unfold Server.turn
  generalize socket.reader.readUntil 10 server.maxRequestBytes = r at hcontent hread
  obtain ⟨read, reader⟩ := r
  dsimp only at hcontent hread ⊢
  rcases hread with rfl | ⟨e, rfl, -, -⟩
  · dsimp only
    have hhead : upTo 10 server.maxRequestBytes socket.reader.content =
        server.framing.head socket.reader.content := rfl
    generalize upTo 10 server.maxRequestBytes socket.reader.content = line at hcontent hhead ⊢
    split
    · exact ⟨fun _ => rfl, by rintro _ ⟨⟩⟩
    next hne =>
      split
      · exact ⟨fun _ => rfl, by rintro _ ⟨⟩⟩
      next text htext =>
        split
        · exact ⟨fun _ => rfl, by rintro _ ⟨⟩⟩
        · cases hparse : server.parse text with
          | error e =>
            have hannounced : server.framing.announced line = 0 := by
              simp only [Server.framing, htext, Option.map_some, hparse]
            refine ⟨by rintro ⟨⟩, ?_⟩
            rintro _ ⟨⟩
            refine ⟨hhead, hne, fun _ => ⟨hannounced.symm, ?_⟩⟩
            rw [Frame.whole, List.append_nil]
            exact hcontent
          | ok req =>
            have hannounced : server.framing.announced line =
                bodyLength (server.casing.upper req.command) req := by
              simp only [Server.framing, htext, Option.map_some, hparse, bodyLength]
            obtain ⟨f, hf, rfl, hstays⟩ := serve_framed server around db
              { socket with reader := reader } line req
            refine ⟨fun hnone => ?_, fun f' hf' => ?_⟩
            · rw [hf] at hnone
              cases hnone
            · obtain rfl := Option.some.inj (hf.symm.trans hf')
              refine ⟨hhead, hne, fun hon => ?_⟩
              obtain ⟨hbody, hrest⟩ := hstays hon
              refine ⟨hbody.trans hannounced.symm, ?_⟩
              rw [Frame.whole, List.append_assoc, ← hrest]
              exact hcontent
  · exact ⟨fun _ => rfl, by rintro _ ⟨⟩⟩

/-- What is taken for requests is what the client sent as requests, in order. Each has the body its
line announces, unless the connection ends with it, and where the frames are all there is, so are
they. -/
theorem requests_in_step (arounds : List (Around J)) {fs : List (Frame UInt8)} {left : Bytes}
    (hfs : Framing.Framed server.framing socket.reader.content fs left) :
    (∀ (i : Nat) (f f' : Frame UInt8), (server.converse arounds db socket).taken[i]? = some f →
      fs[i]? = some f' → f.head = f'.head ∧
      (i + 1 < (server.converse arounds db socket).taken.length ∨
        (server.converse arounds db socket).stays = true → f = f')) ∧
    (left = [] → (server.converse arounds db socket).taken.length ≤ fs.length) := by
  induction arounds generalizing db socket fs with
  | nil => exact ⟨by rintro i f f' ⟨⟩, fun _ => Nat.zero_le _⟩
  | cons around arounds ih =>
    obtain ⟨hnone, hsome⟩ := turn_framed server around db socket
    unfold Server.converse
    dsimp only
    cases htaken : (server.turn around db socket).taken with
    | none =>
      rw [hnone htaken, if_neg Bool.false_ne_true]
      exact ⟨by rintro i f f' ⟨⟩, fun _ => Nat.zero_le _⟩
    | some f =>
      obtain ⟨hhead, hne, hstays⟩ := hsome f htaken
      cases hfs with
      | done =>
        refine ⟨by rintro i f f' - ⟨⟩, fun hnil => absurd ?_ hne⟩
        rw [hnil] at hhead
        exact hhead.trans (List.prefix_nil.mp (upTo_front _ _ _))
      | @frame _ rest _ f₀ fs hhead₀ hsome₀ hbody₀ hcontent₀ hrest₀ =>
        cases hon : (server.turn around db socket).stays with
        | false =>
          rw [if_neg Bool.false_ne_true]
          refine ⟨fun i f' f'' hf' hf'' => ?_, fun _ => Nat.succ_le_succ (Nat.zero_le _)⟩
          cases i with
          | zero =>
            obtain rfl := Option.some.inj hf'
            obtain rfl := Option.some.inj hf''
            refine ⟨hhead.trans hhead₀.symm, ?_⟩
            rintro (hlt | ⟨⟨⟩⟩)
            exact absurd hlt (Nat.lt_irrefl 1)
          | succ i => cases hf'
        | true =>
          rw [if_pos rfl]
          obtain ⟨hbody, hcontent⟩ := hstays hon
          obtain ⟨rfl, hrest⟩ :=
            Framing.frame_unique hhead hhead₀ hbody hbody₀ hcontent hcontent₀
          rw [← hrest] at hrest₀
          obtain ⟨hstep, hlength⟩ := @ih (server.turn around db socket).db _ _ hrest₀
          refine ⟨fun i f' f'' hf' hf'' => ?_, fun hnil => Nat.succ_le_succ (hlength hnil)⟩
          cases i with
          | zero =>
            obtain rfl := Option.some.inj hf'
            obtain rfl := Option.some.inj hf''
            exact ⟨rfl, fun _ => rfl⟩
          | succ i =>
            obtain ⟨hheads, hsame⟩ := hstep i f' f'' hf' hf''
            exact ⟨hheads, fun hcases => hsame (hcases.imp_left Nat.lt_of_succ_lt_succ)⟩

end Framed

/-! ## A client that is served -/

/-- One response line, or one with a length and as many bytes after it. -/
def IsReply (encode : Response J → Option String) (bytes : Bytes) : Prop :=
  IsLine bytes ∨ ∃ (n : Nat) (report : Option J) (body : Bytes), body.length = n ∧
    bytes = responseLine encode { status := .ok, length := some n, archive := report } ++ body

/-- Exactly one reply has been written, and the writes to come succeed as well. -/
structure Replied (encode : Response J → Option String) (before after : Outlet UInt8) : Prop where
  clear : after.faults = []
  reply : ∃ reply, IsReply encode reply ∧ after.taken = before.taken ++ reply

theorem writeAll_of_clear {writer : Outlet UInt8} (h : writer.faults = []) (items : Bytes) :
    writer.writeAll items = (true, { taken := writer.taken ++ items, faults := [] }) := by
  simp only [Outlet.writeAll, Outlet.fault, h, List.head?_nil, Option.join_none, List.tail_nil]

theorem writeResponse_replied (hcompact : Compact encode) {writer : Outlet UInt8}
    (hclear : writer.faults = []) (response : Response J) :
    (writeResponse encode writer response).1 = true ∧
      Replied encode writer (writeResponse encode writer response).2 := by
  rw [writeResponse, writeAll_of_clear hclear]
  exact ⟨rfl, rfl, _, .inl (isLine_responseLine hcompact response), rfl⟩

theorem refuseUpload_replied (hcompact : Compact encode) {announced : Option Nat} {limit n : Nat}
    {socket : Socket} (hannounced : announced = some n) (hlimit : n ≤ limit)
    (hle : n ≤ socket.reader.content.length) (hclear : socket.writer.faults = [])
    (response : Response J) :
    (refuseUpload encode announced limit socket response).1.close = false ∧
      Replied encode socket.writer
        (refuseUpload encode announced limit socket response).2.writer := by
  have hreplied := (writeResponse_replied hcompact hclear response).2
  unfold refuseUpload
  rw [hannounced, Option.getD_some, Option.any_some]
  dsimp only
  rw [if_pos (decide_eq_true hlimit)]
  rcases drain_spec socket.reader n with ⟨-, reader', hdrain, -⟩ | ⟨hlt, -⟩
  · rw [hdrain]
    exact ⟨rfl, hreplied⟩
  · exact absurd hle (Nat.not_le_of_lt hlt)

theorem concludeUpload_replied (hcompact : Compact encode) {received : Except TransferError Nat}
    {socket : Socket} (huntorn : tornBy received = false) (hclear : socket.writer.faults = [])
    (response : Response J) :
    (concludeUpload encode received response socket).1.close = false ∧
      Replied encode socket.writer (concludeUpload encode received response socket).2.writer := by
  obtain ⟨hwritten, hreplied⟩ := writeResponse_replied hcompact hclear response
  unfold concludeUpload
  dsimp only
  rw [huntorn, hwritten]
  refine ⟨?_, hreplied⟩
  split
  next hfault => cases hfault
  · split
    · rfl
    · rfl

theorem receiveInto_untorn {disk : Disk} {length : Nat} {reader : Feed UInt8 Stop}
    (hle : length ≤ reader.content.length) :
    tornBy (receiveInto disk length reader).1 = false := by
  rcases receiveInto_spec disk length reader with
    ⟨-, received, left, after, heq, -, hleaves⟩ | ⟨hlt, -⟩
  · rw [heq]
    exact hleaves.untorn
  · exact absurd hle (Nat.not_le_of_lt hlt)

theorem putBytes_replied (hcompact : Compact encode) {req : Request} {db : Directories}
    {client : ClientInfo} {maxRecordBytes n : Nat} {mishaps : Mishaps}
    {meanwhile : Directories → Directories} {socket : Socket} (hlength : req.length = some n)
    (hlimit : n ≤ maxRecordBytes) (hle : n ≤ socket.reader.content.length)
    (hclear : socket.writer.faults = []) :
    (putBytes encode req db client maxRecordBytes mishaps meanwhile socket).outcome.close = false ∧
      Replied encode socket.writer
        (putBytes encode req db client maxRecordBytes mishaps meanwhile socket).socket.writer := by
  unfold putBytes
  cases hstage : blocking mishaps.stagePool (stageBytes (J := J) req db client mishaps.made) with
  | error response => exact refuseUpload_replied hcompact hlength hlimit hle hclear response
  | ok staged =>
    obtain ⟨-, -, -, hstaged, -⟩ := stageBytes_ok (blocking_ok hstage)
    obtain rfl := Option.some.inj (hlength.symm.trans hstaged)
    exact concludeUpload_replied hcompact (receiveInto_untorn hle) hclear _

theorem importBytes_replied {D : Type} (hcompact : Compact encode) {importer : Importer J D}
    {req : Request} {db : D} {client : ClientInfo} {maxArchiveBytes n : Nat} {mishaps : Mishaps}
    {meanwhile : D → D} {socket : Socket} (hlength : req.length = some n)
    (hlimit : n ≤ maxArchiveBytes) (hle : n ≤ socket.reader.content.length)
    (hclear : socket.writer.faults = []) :
    (importBytes encode importer req db client maxArchiveBytes mishaps meanwhile
        socket).outcome.close = false ∧
      Replied encode socket.writer
        (importBytes encode importer req db client maxArchiveBytes mishaps meanwhile
          socket).socket.writer := by
  unfold importBytes
  cases hstage : blocking mishaps.stagePool (stageArchive (J := J) req client mishaps.made) with
  | error response => exact refuseUpload_replied hcompact hlength hlimit hle hclear response
  | ok staged =>
    obtain rfl := Option.some.inj (hlength.symm.trans (stageArchive_ok (blocking_ok hstage)))
    dsimp only
    rw [if_neg (Nat.not_lt.mpr hlimit)]
    exact concludeUpload_replied hcompact (receiveInto_untorn hle) hclear _

/-- A file that is as long as was announced is sent whole. -/
theorem sendLoop_whole : ∀ (fuel owed : Nat) (file : Feed UInt8 IoError) (writer : Outlet UInt8),
    owed ≤ fuel → owed ≤ file.content.length → writer.faults = [] →
    (sendLoop fuel owed file writer).1.close = false ∧
      (sendLoop fuel owed file writer).2.faults = [] := by
  intro fuel
  induction fuel with
  | zero =>
    intro owed file writer hfuel hle hclear
    obtain rfl := Nat.le_zero.mp hfuel
    exact ⟨rfl, hclear⟩
  | succ fuel ih =>
    intro owed file writer hfuel hle hclear
    cases owed with
    | zero => exact ⟨rfl, hclear⟩
    | succ owed =>
      have hwant : 0 < min (owed + 1) CHUNK := lt_min (Nat.succ_pos owed) (by decide)
      rcases file.take_spec hwant (min (owed + 1) CHUNK) with
        ⟨htake, file', heq, hrest, -⟩ | ⟨hlt, -⟩
      · have hchunk : (file.content.take (min (owed + 1) CHUNK)).length = min (owed + 1) CHUNK :=
          List.length_take_of_le htake
        have hleft := congrArg List.length hrest
        rw [List.length_drop] at hleft
        rw [sendLoop, heq]
        generalize file.content.take (min (owed + 1) CHUNK) = chunk at hchunk
        cases chunk with
        | nil =>
          rw [← hchunk] at hwant
          exact absurd hwant (Nat.lt_irrefl 0)
        | cons a chunk =>
          dsimp only
          rw [writeAll_of_clear hclear]
          exact ih _ file' _ (by omega) (by omega) rfl
      · have hmin : min (owed + 1) CHUNK ≤ owed + 1 := min_le_left _ _
        omega

theorem sendBody_replied {opened : Opened} (hwhole : opened.length ≤ opened.file.content.length)
    (report : Option J) {writer : Outlet UInt8} (hclear : writer.faults = []) :
    (sendBody encode opened report writer).1.close = false ∧
      Replied encode writer (sendBody encode opened report writer).2 := by
  have hsent : ∀ items, (sendLoop opened.length opened.length opened.file
      { taken := writer.taken ++ items, faults := [] }).1.close = false ∧
      (sendLoop opened.length opened.length opened.file
        { taken := writer.taken ++ items, faults := [] }).2.faults = [] :=
    fun items => sendLoop_whole _ _ _ _ le_rfl hwhole rfl
  unfold sendBody writeResponse
  rw [writeAll_of_clear hclear]
  dsimp only
  obtain ⟨hopen, hafter⟩ := hsent _
  obtain ⟨body, hbody, hall⟩ := sendLoop_open _ _ _ _ hopen
  refine ⟨hopen, hafter, _, .inr ⟨_, report, body, hbody, rfl⟩, ?_⟩
  rw [hall, List.append_assoc]

theorem refuseDownload_replied (hcompact : Compact encode) {writer : Outlet UInt8}
    (hclear : writer.faults = []) (response : Response J) :
    (refuseDownload encode writer response).1.close = false ∧
      Replied encode writer (refuseDownload encode writer response).2 := by
  obtain ⟨hwritten, hreplied⟩ := writeResponse_replied hcompact hclear response
  unfold refuseDownload
  generalize writeResponse encode writer response = w at hwritten hreplied ⊢
  obtain ⟨written, after⟩ := w
  dsimp only at hwritten hreplied
  rw [hwritten]
  exact ⟨rfl, hreplied⟩

section Served

variable {server : Server J} {around : Around J} {db : Directories} {socket : Socket}

/-- Nothing around a request costs the client its connection: it is authorized, and the files it
downloads are as long as they were when they were opened. -/
structure Around.Kind (around : Around J) : Prop where
  authorized : ∀ req db, (around.dispatch req db).1 ≠ .deauthorized
  found : ∀ root key opened, around.found root key = .ok (some opened) →
    opened.length ≤ opened.file.content.length
  produced : ∀ source opened report, around.produce source = .ok (opened, report) →
    opened.length ≤ opened.file.content.length

/-- How much of a body is taken from a client whose request is refused. -/
def Server.uploadLimit (server : Server J) (command : String) : Nat :=
  if command = "PUT.BYTES" then server.maxRecordBytes else server.maxArchiveBytes

/-- A body is announced, and within the limit. -/
def Server.Affordable (server : Server J) (req : Request) : Prop :=
  carriesABody (server.casing.upper req.command) = true →
    ∃ n, req.length = some n ∧ n ≤ server.uploadLimit (server.casing.upper req.command)

theorem openBytes_found {req : Request} {client : ClientInfo}
    {found : String → String → Except DbError (Option Opened)} {opened : Opened}
    (h : openBytes (J := J) req db client found = .ok opened) :
    ∃ root key, found root key = .ok (some opened) := by
  unfold openBytes at h
  cases haccount : transferAccount (J := J) req client with
  | error e =>
    rw [haccount] at h
    cases h
  | ok account =>
    cases hfile : requestedFile (J := J) req with
    | error e =>
      rw [haccount, hfile] at h
      cases h
    | ok file =>
      rw [haccount, hfile] at h
      simp only [bind, Except.bind] at h
      split at h
      next key hkey =>
        split at h
        · split at h
          · cases h
          next root hroot =>
            split at h
            · cases h
            · split at h
              · cases h
              · cases h
              next found' hfound =>
                split at h
                · cases h
                · cases h
                  exact ⟨root, key, hfound⟩
        · cases h
      · cases h

theorem openArchive_produced {req : Request} {client : ClientInfo}
    {produce : Archive.Source → Except DbError (Opened × J)} {opened : Opened} {report : J}
    (h : openArchive req client produce = .ok (opened, report)) :
    ∃ source, produce source = .ok (opened, report) := by
  unfold openArchive at h
  split at h
  · dsimp only at h
    cases hsource : exportSource (J := J) req
        ((transferAccount (J := J) req client).toOption.getD "") with
    | error e =>
      rw [hsource] at h
      cases h
    | ok source =>
      rw [hsource] at h
      simp only [bind, Except.bind] at h
      split at h
      · cases h
      next found hfound =>
        cases h
        exact ⟨source, hfound⟩
  · cases h

theorem transfer_replied (db : Directories) (hcompact : Compact server.encode) (hkind : around.Kind)
    {command : String} {req : Request} (hcommand : server.casing.upper req.command = command)
    (hafford : server.Affordable req) (hle : bodyLength command req ≤ socket.reader.content.length)
    (hclear : socket.writer.faults = []) :
    (server.transfer around command req db socket).1.close = false ∧
      Replied server.encode socket.writer
        (server.transfer around command req db socket).2.2.writer := by
  unfold Server.Affordable Server.uploadLimit at hafford
  rw [hcommand] at hafford
  unfold Server.transfer
  split
  next hput =>
    subst hput
    obtain ⟨n, hlength, hlimit⟩ := hafford rfl
    rw [bodyLength_of_carries rfl hlength] at hle
    exact putBytes_replied hcompact hlength hlimit hle hclear
  next hput =>
    split
    next himport =>
      subst himport
      obtain ⟨n, hlength, hlimit⟩ := hafford rfl
      rw [bodyLength_of_carries rfl hlength] at hle
      exact importBytes_replied hcompact hlength hlimit hle hclear
    · split
      · unfold exportBytes
        cases hopen : blocking around.pool
            (openArchive (J := J) req server.client around.produce) with
        | error response => exact refuseDownload_replied hcompact hclear response
        | ok found =>
          obtain ⟨source, hsource⟩ := openArchive_produced (blocking_ok hopen)
          exact sendBody_replied (hkind.produced source _ _ hsource) _ hclear
      · unfold getBytes
        cases hopen : blocking around.pool
            (openBytes (J := J) req db server.client around.found) with
        | error response => exact refuseDownload_replied hcompact hclear response
        | ok opened =>
          obtain ⟨root, key, hfound⟩ := openBytes_found (blocking_ok hopen)
          exact sendBody_replied (hkind.found root key _ hfound) _ hclear

theorem answer_replied (hcompact : Compact server.encode)
    (hencodes : ∀ response, server.encode response ≠ none) {writer : Outlet UInt8}
    (hclear : writer.faults = []) (response : Response J) :
    Replied server.encode writer (server.answer response writer) := by
  unfold Server.answer
  cases htext : server.encode response with
  | none => exact absurd htext (hencodes response)
  | some text =>
    dsimp only
    rw [writeAll_of_clear hclear]
    exact ⟨rfl, _, .inl ⟨utf8 text, rfl, hcompact response text htext⟩, rfl⟩

theorem serve_replied (hcompact : Compact server.encode)
    (hencodes : ∀ response, server.encode response ≠ none) (hkind : around.Kind) (line : Bytes)
    {req : Request} (hafford : server.Affordable req)
    (hle : bodyLength (server.casing.upper req.command) req ≤ socket.reader.content.length)
    (hclear : socket.writer.faults = []) :
    (server.serve around line req db socket).stays = true ∧
      Replied server.encode socket.writer
        (server.serve around line req db socket).socket.writer := by
  unfold Server.serve
  dsimp only
  split
  · obtain ⟨hopen, hreplied⟩ := transfer_replied db hcompact hkind rfl hafford hle hclear
    exact ⟨by rw [hopen]; rfl, hreplied⟩
  · have hauthorized := hkind.authorized req db
    cases hhandled : (around.dispatch req db).1 with
    | answered response => exact ⟨rfl, answer_replied hcompact hencodes hclear response⟩
    | failed e => exact ⟨rfl, answer_replied hcompact hencodes hclear _⟩
    | deauthorized => exact absurd hhandled hauthorized

/-- A frame the server does not close the connection over. -/
structure Server.Sends (server : Server J) (f : Frame UInt8) : Prop where
  complete : Framing.Complete server.framing f
  text : fromUtf8? f.head ≠ none
  affordable : ∀ text req, fromUtf8? f.head = some text → server.parse text = .ok req →
    server.Affordable req

theorem turn_replied (db : Directories) (hcompact : Compact server.encode)
    (hencodes : ∀ response, server.encode response ≠ none) (hkind : around.Kind)
    {f : Frame UInt8} {rest : Bytes} (hsends : server.Sends f)
    (hcontent : socket.reader.content = f.whole ++ rest) (hclear : socket.writer.faults = []) :
    (server.turn around db socket).stays = true ∧
      Replied server.encode socket.writer (server.turn around db socket).socket.writer := by
  obtain ⟨text, hline, -, -⟩ := hsends.complete.line
  have hhead : upTo 10 server.maxRequestBytes socket.reader.content = f.head := by
    rw [hcontent]
    exact hsends.complete.head_whole rest
  have hends : f.head.getLast? = some 10 := by
    rw [hline]
    exact List.getLast?_concat
  obtain ⟨hsplit, -, hread⟩ := socket.reader.readUntil_spec 10 server.maxRequestBytes
  rw [hhead] at hsplit hread
  unfold Server.turn
  generalize socket.reader.readUntil 10 server.maxRequestBytes = r at hsplit hread
  obtain ⟨read, reader⟩ := r
  dsimp only at hsplit hread ⊢
  rcases hread with rfl | ⟨e, rfl, -, hshort⟩
  · dsimp only
    rw [if_neg hsends.complete.head_ne_nil]
    cases htext : fromUtf8? f.head with
    | none => exact absurd htext hsends.text
    | some text =>
      dsimp only
      rw [if_neg fun hlong => hlong.2 hends]
      cases hparse : server.parse text with
      | error e => exact ⟨rfl, answer_replied hcompact hencodes hclear _⟩
      | ok req =>
        refine serve_replied hcompact hencodes hkind f.head
          (hsends.affordable text req htext hparse) ?_ hclear
        have hbody := hsends.complete.body
        have hannounced : server.framing.announced f.head =
            bodyLength (server.casing.upper req.command) req := by
          simp only [Server.framing, htext, Option.map_some, hparse, bodyLength]
        have hreader : reader.content = f.body ++ rest := by
          refine List.append_cancel_left (hsplit.symm.trans (hcontent.trans ?_))
          rw [Frame.whole, List.append_assoc]
        rw [hreader, List.length_append, ← hannounced, ← hbody]
        exact Nat.le_add_right _ _
  · rw [isHead, hends, decide_eq_false_iff_not] at hshort
    exact absurd (Or.inl rfl) hshort

end Served

/-! ### A body that looks like requests -/

def putText : String :=
  "\x7b\"command\":\"PUT.BYTES\",\"account\":\"SALES\",\"file\":\"SCANS\",\"key\":\"a.pdf\"," ++
    "\"length\":3\x7d\n"

def nonsense : String := "nonsense\n"

def notJson : String := "expected ident at line 1 column 2"

/-- The responses to the two. -/
def encodeSession (response : Response Unit) : Option String :=
  if response = threeStored then some "\x7b\"status\":\"OK\",\"length\":3\x7d"
  else some ("\x7b\"status\":\"ERROR\",\"message\":\"Invalid JSON: " ++ notJson ++
    "\",\"code\":\"INVALID_JSON\"\x7d")

def session : Server Unit where
  casing := asciiCasing
  parse text := if text = putText then .ok (putThree "SALES") else .error notJson
  encode := encodeSession
  client := scanner
  maxRequestBytes := 1048576
  maxRecordBytes := 67108864
  maxArchiveBytes := 1073741824

/-- Nothing to go wrong. -/
def quiet : Around Unit where
  dispatch := fun _ db => (.answered { status := .ok }, db)
  mishaps := {}
  meanwhile := id
  importer := fun _ _ db => (.error (.invalidRequest "no archive"), db)
  pool := none
  found := fun _ _ => .ok none
  produce := fun _ => .error (.invalidRequest "no archive")

/-- The body of the first ends in a line of its own. -/
def putFrame : Frame UInt8 := ⟨utf8 putText, [10, 65, 10]⟩

def nonsenseFrame : Frame UInt8 := ⟨utf8 nonsense, []⟩

def sessionSocket : Socket where
  reader := { pieces := [utf8 putText ++ [10], [65, 10] ++ utf8 nonsense] }
  writer := {}

theorem encodeSession_compact : Compact encodeSession := by
  intro response text h
  unfold encodeSession at h
  split at h
  · cases h
    decide +kernel
  · cases h
    decide +kernel

theorem encodeSession_ne_none (response : Response Unit) : encodeSession response ≠ none := by
  unfold encodeSession
  split
  · exact Option.some_ne_none _
  · exact Option.some_ne_none _

theorem quiet_kind : quiet.Kind where
  authorized req db := by rintro ⟨⟩
  found root key opened := by rintro ⟨⟩
  produced source opened report := by rintro ⟨⟩

theorem putFrame_sent : session.Sends putFrame where
  complete :=
    { line := ⟨(utf8 putText).dropLast, by decide +kernel, by decide +kernel, by decide +kernel⟩
      body := by
        simp only [Server.framing, putFrame, fromUtf8?_utf8, Option.map_some]
        decide +kernel }
  text := by
    rw [putFrame, fromUtf8?_utf8]
    exact Option.some_ne_none _
  affordable := by
    intro text req htext hparse
    rw [putFrame, fromUtf8?_utf8] at htext
    obtain rfl := Option.some.inj htext
    have hreq : session.parse putText = .ok (putThree "SALES") := by
      simp only [session, if_true]
    obtain rfl := Except.ok.inj (hreq.symm.trans hparse)
    exact fun _ => ⟨3, rfl, by decide +kernel⟩

theorem nonsenseFrame_sent : session.Sends nonsenseFrame where
  complete :=
    { line := ⟨(utf8 nonsense).dropLast, by decide +kernel, by decide +kernel, by decide +kernel⟩
      body := by
        simp only [Server.framing, nonsenseFrame, fromUtf8?_utf8, Option.map_some]
        decide +kernel }
  text := by
    rw [nonsenseFrame, fromUtf8?_utf8]
    exact Option.some_ne_none _
  affordable := by
    intro text req htext hparse
    rw [nonsenseFrame, fromUtf8?_utf8] at htext
    obtain rfl := Option.some.inj htext
    have hother : nonsense ≠ putText := by decide +kernel
    have hreq : session.parse nonsense = .error notJson := by
      simp only [session, if_neg hother]
    cases hreq.symm.trans hparse

theorem session_sent : ∀ f ∈ [putFrame, nonsenseFrame], session.Sends f := by
  rintro f (_ | ⟨_, _ | ⟨_, ⟨⟩⟩⟩)
  · exact putFrame_sent
  · exact nonsenseFrame_sent

theorem session_content :
    sessionSocket.reader.content = ([putFrame, nonsenseFrame].map Frame.whole).flatten := by
  decide +kernel

theorem session_in_step :
    (session.converse [quiet] scans sessionSocket).taken[0]? = some putFrame ∧
      (session.converse [quiet] scans sessionSocket).taken.length ≤ 2 := by
  have hfs : Framing.Framed session.framing sessionSocket.reader.content
      [putFrame, nonsenseFrame] [] := by
    have hframed := Framing.framed_of_complete (fun f hf => (session_sent f hf).complete) []
    rw [List.append_nil, ← session_content] at hframed
    exact hframed
  obtain ⟨hstays, -⟩ := turn_replied scans encodeSession_compact encodeSession_ne_none quiet_kind
    putFrame_sent session_content rfl
  obtain ⟨hnone, -⟩ := turn_framed session quiet scans sessionSocket
  have hon : (session.converse [quiet] scans sessionSocket).stays = true := by
    unfold Server.converse
    rw [if_pos hstays]
    rfl
  obtain ⟨f, hf⟩ : ∃ f, (session.converse [quiet] scans sessionSocket).taken[0]? = some f := by
    cases htaken : (session.turn quiet scans sessionSocket).taken with
    | none =>
      rw [hnone htaken] at hstays
      cases hstays
    | some f =>
      refine ⟨f, ?_⟩
      unfold Server.converse
      dsimp only
      rw [if_pos hstays, htaken]
      rfl
  have hsame := ((requests_in_step [quiet] hfs).1 0 f putFrame hf rfl).2 (.inr hon)
  exact ⟨hsame ▸ hf, (requests_in_step [quiet] hfs).2 rfl⟩

end Transfer

end RustyPick
