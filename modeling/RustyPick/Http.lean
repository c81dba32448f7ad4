import RustyPick.Percent
import RustyPick.QueryString
import RustyPick.Clients
import RustyPick.Lib.Feed

/-!
# RustyPick.Http

Reading a request off a connection (`web/http.rs`). The connection is a `Feed`: one of its pieces is
what one `fill_buf` shows.

* `readLineLimited_spec`: what a line is depends on the bytes of the stream alone. Where it is too
  long, how much of it has been taken does not, but it is never more than the limit.
* `readRequest_cut`: so neither does what is read of a request.
-/

namespace RustyPick

open Lib

namespace Http

def MAX_REQUEST_LINE : Nat := 8 * 1024

def MAX_HEADER_LINE : Nat := 8 * 1024

def MAX_HEADERS : Nat := 64

def MAX_BODY : Nat := 256 * 1024

def MAX_DASHBOARD_ARCHIVE_BYTES : Nat := 256 * 1024 * 1024

def ARCHIVE_PATH : String := "/api/archive"

/-- How large a body this target may carry. -/
def bodyLimit (target : String) : Nat :=
  let path := String.ofList (target.toList.takeWhile (· ≠ '?'))
  if path = ARCHIVE_PATH then MAX_DASHBOARD_ARCHIVE_BYTES else MAX_BODY

/-- Header names are in lower case. -/
structure Request where
  method : String
  path : String
  query : Map String String
  headers : Map String String
  body : Bytes
  keepAlive : Bool

inductive Incoming where
  | request (request : Request)
  | eof
  | rejected (status : Nat) (message : String)

/-! ## Lines -/

/-- `finish_line`. -/
def finishLine (line : Bytes) : String :=
  fromUtf8Lossy (if line.getLast? = some 13 then line.dropLast else line)

def lineTooLong : IoError := .invalidData "line too long"

/-- What the end of the stream makes of the line so far. -/
def atEnd (failure : Option IoError) (line : Bytes) : Except IoError (Option String) :=
  match failure with
  | some e => .error e
  | none => .ok (if line = [] then none else some (finishLine line))

/-- The loop of `read_line_limited`, with what it has of the line so far. The limit is checked on
the part that is in the buffer, or on the line when its end is. -/
def lineLoop (failure : Option IoError) (max : Nat) (line : Bytes) :
    List Bytes → Except IoError (Option String) × List Bytes
  | [] => (atEnd failure line, [])
  | available :: rest =>
    match available.findIdx? (· = 10) with
    | some index =>
      if max < line.length + index then (.error lineTooLong, available :: rest)
      else (.ok (some (finishLine (line ++ available.take index))), available.drop (index + 1) :: rest)
    | none =>
      if max < line.length + available.length then (.error lineTooLong, available :: rest)
      else lineLoop failure max (line ++ available) rest

/-- `read_line_limited`. -/
def readLineLimited (s : Feed UInt8 IoError) (max : Nat) :
    Except IoError (Option String) × Feed UInt8 IoError :=
  let (outcome, pieces) := lineLoop s.failure max [] s.pieces
  (outcome, { s with pieces := pieces })

/-- What the next line of a stream is. -/
inductive Line where
  | line (front rest : Bytes)
  | ended (front : Bytes)
  | tooLong

def lineOf (max : Nat) (content : Bytes) : Line :=
  if max < (content.takeWhile (· ≠ 10)).length then .tooLong
  else
    match content.dropWhile (· ≠ 10) with
    | [] => .ended content
    | _ :: rest => .line (content.takeWhile (· ≠ 10)) rest

theorem takeWhile_front {front : Bytes} (hfront : 10 ∉ front) (rest : Bytes) :
    (front ++ rest).takeWhile (· ≠ 10) = front ++ rest.takeWhile (· ≠ 10) ∧
      (front ++ rest).dropWhile (· ≠ 10) = rest.dropWhile (· ≠ 10) := by
  have hall : ∀ b ∈ front, (decide (b ≠ 10)) = true := by
    intro b hb
    exact decide_eq_true fun hc => hfront (hc ▸ hb)
  rw [List.takeWhile_append_of_pos hall, List.dropWhile_append_of_pos hall]
  exact ⟨rfl, rfl⟩

section

variable {max : Nat} {front : Bytes} (hfront : 10 ∉ front)

include hfront

theorem lineOf_line (rest : Bytes) (hmax : front.length ≤ max) :
    lineOf max (front ++ 10 :: rest) = .line front rest := by
  obtain ⟨htake, hdrop⟩ := takeWhile_front hfront (10 :: rest)
  rw [List.takeWhile_cons_of_neg (by decide), List.append_nil] at htake
  rw [List.dropWhile_cons_of_neg (by decide)] at hdrop
  rw [lineOf, htake, hdrop, if_neg (Nat.not_lt.mpr hmax)]

theorem lineOf_ended (hmax : front.length ≤ max) : lineOf max front = .ended front := by
  obtain ⟨htake, hdrop⟩ := takeWhile_front hfront []
  rw [List.takeWhile_nil, List.append_nil] at htake
  rw [List.dropWhile_nil, List.append_nil] at hdrop
  rw [lineOf, htake, hdrop, if_neg (Nat.not_lt.mpr hmax)]

theorem lineOf_tooLong (rest : Bytes) (hmax : max < front.length) :
    lineOf max (front ++ rest) = .tooLong := by
  obtain ⟨htake, -⟩ := takeWhile_front hfront rest
  rw [lineOf, htake, if_pos]
  rw [List.length_append]
  exact Nat.lt_add_right _ hmax

end

theorem lineLoop_spec (failure : Option IoError) (max : Nat) (pieces : List Bytes) :
    ∀ {line : Bytes}, 10 ∉ line → line.length ≤ max →
    (∃ front rest pieces', lineOf max (line ++ pieces.flatten) = .line front rest ∧
      lineLoop failure max line pieces = (.ok (some (finishLine front)), pieces') ∧
      pieces'.flatten = rest) ∨
    (∃ front, lineOf max (line ++ pieces.flatten) = .ended front ∧
      lineLoop failure max line pieces = (atEnd failure front, [])) ∨
    (lineOf max (line ++ pieces.flatten) = .tooLong ∧ ∃ taken pieces',
      lineLoop failure max line pieces = (.error lineTooLong, pieces') ∧
      pieces.flatten = taken ++ pieces'.flatten ∧ line.length + taken.length ≤ max) := by
  induction pieces with
  | nil =>
    intro line hline hmax
    refine Or.inr (Or.inl ⟨line, ?_, rfl⟩)
    rw [List.flatten_nil, List.append_nil, lineOf_ended hline hmax]
  | cons available rest ih =>
    intro line hline hmax
    rw [List.flatten_cons]
    cases hfind : available.findIdx? (· = 10) with
    | some index =>
      obtain ⟨hlt, hat, hbefore⟩ := List.findIdx?_eq_some_iff_getElem.mp hfind
      have hsplit : available = available.take index ++ 10 :: available.drop (index + 1) := by
        conv_lhs => rw [← List.take_append_drop index available, List.drop_eq_getElem_cons hlt]
        rw [of_decide_eq_true hat]
      have hfront : 10 ∉ line ++ available.take index := by
        rw [List.mem_append, not_or]
        refine ⟨hline, fun hmem => ?_⟩
        obtain ⟨j, hj, hval⟩ := List.getElem_of_mem hmem
        rw [List.length_take] at hj
        rw [List.getElem_take] at hval
        exact hbefore j (by omega) (decide_eq_true hval)
      have hlen : (line ++ available.take index).length = line.length + index := by
        rw [List.length_append, List.length_take_of_le (Nat.le_of_lt hlt)]
      have hcontent : line ++ (available ++ rest.flatten) = (line ++ available.take index) ++
          10 :: (available.drop (index + 1) ++ rest.flatten) := by
        conv_lhs => rw [hsplit]
        simp only [List.append_assoc, List.cons_append]
      rw [hcontent]
      simp only [lineLoop, hfind]
      by_cases htoo : max < line.length + index
      · refine Or.inr (Or.inr ⟨lineOf_tooLong hfront _ (hlen ▸ htoo), [], available :: rest, ?_⟩)
        rw [if_pos htoo]
        exact ⟨rfl, rfl, hmax⟩
      · refine Or.inl ⟨_, _, available.drop (index + 1) :: rest,
          lineOf_line hfront _ (hlen ▸ Nat.le_of_not_lt htoo), ?_⟩
        rw [if_neg htoo]
        exact ⟨rfl, rfl⟩
    | none =>
      have havailable : 10 ∉ available := fun hmem =>
        absurd (List.findIdx?_eq_none_iff.mp hfind 10 hmem) (by decide)
      have hfront : 10 ∉ line ++ available := by
        rw [List.mem_append, not_or]
        exact ⟨hline, havailable⟩
      rw [← List.append_assoc]
      simp only [lineLoop, hfind]
      by_cases htoo : max < line.length + available.length
      · refine Or.inr (Or.inr ⟨lineOf_tooLong hfront _ (by rw [List.length_append]; exact htoo), [],
          available :: rest, ?_⟩)
        rw [if_pos htoo]
        exact ⟨rfl, rfl, hmax⟩
      · have hle : (line ++ available).length ≤ max := by
          rw [List.length_append]
          exact Nat.le_of_not_lt htoo
        rw [if_neg htoo]
        rcases ih hfront hle with hfound | hended | ⟨hof, taken, pieces', hloop, hrest, hle'⟩
        · exact Or.inl hfound
        · exact Or.inr (Or.inl hended)
        · refine Or.inr (Or.inr ⟨hof, available ++ taken, pieces', hloop, ?_, ?_⟩)
          · rw [hrest, List.append_assoc]
          · rw [List.length_append] at hle' ⊢
            omega

/-- A line is what it is by the bytes of the stream, however they come. -/
theorem readLineLimited_spec (s : Feed UInt8 IoError) (max : Nat) :
    (∃ front rest s', lineOf max s.content = .line front rest ∧
      readLineLimited s max = (.ok (some (finishLine front)), s') ∧ s'.content = rest ∧
      s'.failure = s.failure) ∨
    (∃ front s', lineOf max s.content = .ended front ∧
      readLineLimited s max = (atEnd s.failure front, s') ∧ s'.content = [] ∧
      s'.failure = s.failure) ∨
    (lineOf max s.content = .tooLong ∧ ∃ taken s',
      readLineLimited s max = (.error lineTooLong, s') ∧ s.content = taken ++ s'.content ∧
      taken.length ≤ max) := by
  rcases @lineLoop_spec s.failure max s.pieces [] List.not_mem_nil (Nat.zero_le _) with
    ⟨front, rest, pieces', hof, hloop, hrest⟩ | ⟨front, hof, hloop⟩ |
    ⟨hof, taken, pieces', hloop, hrest, hle⟩
  · exact Or.inl ⟨front, rest, { s with pieces := pieces' }, hof,
      by rw [readLineLimited, hloop], hrest, rfl⟩
  · exact Or.inr (Or.inl ⟨front, { s with pieces := [] }, hof, by rw [readLineLimited, hloop], rfl,
      rfl⟩)
  · rw [List.length_nil, Nat.zero_add] at hle
    exact Or.inr (Or.inr ⟨hof, taken, { s with pieces := pieces' }, by rw [readLineLimited, hloop],
      hrest, hle⟩)

/-- A line takes something off the stream. -/
theorem readLineLimited_lt {s s' : Feed UInt8 IoError} {max : Nat} {line : String}
    (h : readLineLimited s max = (.ok (some line), s')) : s'.content.length < s.content.length := by
  rcases readLineLimited_spec s max with ⟨front, rest, s₁, hof, hread, hrest, -⟩ |
    ⟨front, s₁, hof, hread, hend, -⟩ | ⟨-, taken, s₁, hread, -⟩
  · rw [hread] at h
    cases h
    unfold lineOf at hof
    split at hof
    · cases hof
    · split at hof
      · cases hof
      · rename_i b rest' hdrop
        cases hof
        have hlen := congrArg List.length (List.takeWhile_append_dropWhile
          (p := fun b => decide (b ≠ 10)) (l := s.content))
        rw [hdrop, List.length_append, List.length_cons] at hlen
        rw [hrest]
        omega
  · rw [hread] at h
    obtain rfl : s₁ = s' := congrArg Prod.snd h
    have hline : atEnd s.failure front = .ok (some line) := congrArg Prod.fst h
    obtain rfl : s.content = front := by
      unfold lineOf at hof
      split at hof
      · cases hof
      · split at hof
        · cases hof
          rfl
        · cases hof
    rw [hend]
    apply List.length_pos_of_ne_nil
    intro hnil
    rw [hnil] at hline
    unfold atEnd at hline
    split at hline <;> cases hline
  · rw [hread] at h
    cases h

/-! ## Requests -/

/-- What an attempt to read a request comes to. -/
abbrev Answer := Except IoError Incoming

/-- Why there is none, although the stream has not ended. -/
inductive Stop where
  | rejected (status : Nat) (message : String)
  | failed (e : IoError)

def Stop.answer : Stop → Answer
  | .rejected status message => .ok (.rejected status message)
  | .failed e => .error e

/-- A line that was too long is rejected, and any other failure is the connection's. -/
def unreadable (status : Nat) (message : String) : IoError → Stop
  | .invalidData _ => .rejected status message
  | e => .failed e

def headerOf (line : String) : Option (String × String) :=
  (splitOnce ':' line.toList).map fun parts =>
    (asciiLowercase (trim (String.ofList parts.1)), trim (String.ofList parts.2))

/-- A line without a colon adds nothing. -/
def addHeader (headers : Map String String) (line : String) : Map String String :=
  match headerOf line with
  | some (name, value) => headers.insert name value
  | none => headers

/-- The loop over the headers. -/
def readHeaders (headers : Map String String) (s : Feed UInt8 IoError) :
    Except Stop (Map String String) × Feed UInt8 IoError :=
  match _h : readLineLimited s MAX_HEADER_LINE with
  | (.error e, s') => (.error (unreadable 431 "Header line too long" e), s')
  | (.ok none, s') => (.error (.rejected 400 "Unexpected end of headers"), s')
  | (.ok (some line), s') =>
    if line = "" then (.ok headers, s')
    else if MAX_HEADERS ≤ headers.size then (.error (.rejected 431 "Too many headers"), s')
    else readHeaders (addHeader headers line) s'
termination_by s.content.length
decreasing_by exact readLineLimited_lt (by assumption)

def contentLength (headers : Map String String) : Option Nat :=
  match headers["content-length"]? with
  | some value => parseU64 value
  | none => some 0

def containsText (needle hay : String) : Bool := decide (needle.toList <:+: hay.toList)

def isChunked (headers : Map String String) : Bool :=
  (headers["transfer-encoding"]?).any fun value => containsText "chunked" (asciiLowercase value)

/-- How long the body is, where it may be read. -/
def framing (target : String) (headers : Map String String) : Except Stop Nat :=
  match contentLength headers with
  | none => .error (.rejected 400 "Invalid Content-Length")
  | some length =>
    if bodyLimit target < length then .error (.rejected 413 "Request body too large")
    else if isChunked headers then
      .error (.rejected 400 "Chunked request bodies are not supported")
    else .ok length

def readBody (s : Feed UInt8 IoError) (length : Nat) :
    Except Stop Bytes × Feed UInt8 IoError :=
  match s.readExact length with
  | (.ok body, s') => (.ok body, s')
  | (.error .ended, s') => (.error (.failed .unexpectedEof), s')
  | (.error (.failed e), s') => (.error (.failed e), s')

def asciiUppercase (s : String) : String := String.ofList (s.toList.map Char.toUpper)

def parsePair (pair : List Char) : String × String :=
  match splitOnce '=' pair with
  | some (key, value) =>
    (percentDecode (String.ofList key) true, percentDecode (String.ofList value) true)
  | none => (percentDecode (String.ofList pair) true, "")

def parseQuery (query : List Char) : Map String String :=
  ((query.splitOn '&').filter (· ≠ [])).foldl
    (fun found pair => found.insert (parsePair pair).1 (parsePair pair).2) ∅

def keepAlive (version : String) (headers : Map String String) : Bool :=
  match (headers["connection"]?).map asciiLowercase with
  | some value =>
    if containsText "close" value then false
    else if containsText "keep-alive" value then true
    else version ≠ "HTTP/1.0"
  | none => version ≠ "HTTP/1.0"

def requestOf (method target version : String) (headers : Map String String) (body : Bytes) :
    Request :=
  let (rawPath, rawQuery) := (splitOnce '?' target.toList).getD (target.toList, [])
  { method := asciiUppercase method
    path := percentDecode (String.ofList rawPath) false
    query := parseQuery rawQuery
    headers := headers
    body := body
    keepAlive := keepAlive version headers }

/-- `read_request`, from the target on. -/
def readRest (method target version : String) (s : Feed UInt8 IoError) :
    Answer × Feed UInt8 IoError :=
  match readHeaders ∅ s with
  | (.error stop, s) => (stop.answer, s)
  | (.ok headers, s) =>
    match framing target headers with
    | .error stop => (stop.answer, s)
    | .ok length =>
      match readBody s length with
      | (.error stop, s) => (stop.answer, s)
      | (.ok body, s) => (.ok (.request (requestOf method target version headers body)), s)

/-- `read_request`. -/
def readRequest (s : Feed UInt8 IoError) : Answer × Feed UInt8 IoError :=
  match readLineLimited s MAX_REQUEST_LINE with
  | (.error e, s) => ((unreadable 414 "Request target too long" e).answer, s)
  | (.ok none, s) => (.ok .eof, s)
  | (.ok (some line), s) =>
    if trim line = "" then (.ok .eof, s)
    else
      match splitWhitespace line with
      | method :: target :: version => readRest method target (version.head?.getD "HTTP/1.1") s
      | _ => ((Stop.rejected 400 "Malformed request line").answer, s)

/-! ## However the stream is cut -/

/-- The same bytes, and the same thing after them. -/
structure Same (s t : Feed UInt8 IoError) : Prop where
  content : s.content = t.content
  failure : s.failure = t.failure

/-- The same outcome, and the same stream left where there is more to read. -/
def Agree {α β : Type} (r r' : Except α β × Feed UInt8 IoError) : Prop :=
  r.1 = r'.1 ∧ ∀ b, r.1 = .ok b → Same r.2 r'.2

section

variable {s t : Feed UInt8 IoError} (h : Same s t)

include h

theorem readLineLimited_same (max : Nat) :
    Agree (readLineLimited s max) (readLineLimited t max) := by
  rcases readLineLimited_spec s max with ⟨front, rest, s', hof, hread, hrest, hf⟩ |
    ⟨front, s', hof, hread, hend, hf⟩ | ⟨hof, taken, s', hread, -⟩ <;>
  rcases readLineLimited_spec t max with ⟨front', rest', t', hof', hread', hrest', hf'⟩ |
    ⟨front', t', hof', hread', hend', hf'⟩ | ⟨hof', taken', t', hread', -⟩ <;>
  rw [h.content, hof'] at hof <;> cases hof <;> rw [hread, hread']
  · exact ⟨rfl, fun _ _ => ⟨hrest.trans hrest'.symm, hf.trans (h.failure.trans hf'.symm)⟩⟩
  · exact ⟨by rw [h.failure], fun _ _ => ⟨hend.trans hend'.symm, hf.trans (h.failure.trans hf'.symm)⟩⟩
  · exact ⟨rfl, fun b hb => by cases hb⟩

theorem readBody_same (length : Nat) : Agree (readBody s length) (readBody t length) := by
  have hshort : s.short = t.short := by rw [Feed.short, Feed.short, h.failure]
  rcases s.readExact_spec length with ⟨hle, s', hread, hc, hf⟩ | ⟨hlt, s', hread, -⟩ <;>
    rcases t.readExact_spec length with ⟨hle', t', hread', hc', hf'⟩ | ⟨hlt', t', hread', -⟩
  · rw [readBody, readBody, hread, hread', h.content]
    exact ⟨rfl, fun _ _ => ⟨by rw [hc, hc', h.content], hf.trans (h.failure.trans hf'.symm)⟩⟩
  · rw [h.content] at hle
    omega
  · rw [h.content] at hlt
    omega
  · rw [readBody, readBody, hread, hread', hshort]
    cases t.short with
    | ended => exact ⟨rfl, fun b hb => by cases hb⟩
    | failed e => exact ⟨rfl, fun b hb => by cases hb⟩

end

theorem readHeaders_same {headers : Map String String} {s t : Feed UInt8 IoError} (h : Same s t) :
    Agree (readHeaders headers s) (readHeaders headers t) := by
  obtain ⟨heq, hsame⟩ := readLineLimited_same h MAX_HEADER_LINE
  rw [readHeaders, readHeaders]
  generalize hs : readLineLimited s MAX_HEADER_LINE = r at heq hsame
  generalize ht : readLineLimited t MAX_HEADER_LINE = r' at heq hsame
  obtain ⟨outcome, s'⟩ := r
  obtain ⟨outcome', t'⟩ := r'
  dsimp only at heq
  subst heq
  rcases outcome with e | _ | line
  · exact ⟨rfl, fun b hb => by cases hb⟩
  · exact ⟨rfl, fun b hb => by cases hb⟩
  · have hnext : Same s' t' := hsame _ rfl
    have hlt := readLineLimited_lt hs
    dsimp only
    split
    · exact ⟨rfl, fun _ _ => hnext⟩
    split
    · exact ⟨rfl, fun b hb => by cases hb⟩
    · exact readHeaders_same hnext
termination_by s.content.length

theorem Stop.answer_ne (stop : Stop) (request : Request) : stop.answer ≠ .ok (.request request) := by
  cases stop <;> exact nofun

theorem readRest_same {method target version : String} {s t : Feed UInt8 IoError} (h : Same s t) :
    (readRest method target version s).1 = (readRest method target version t).1 ∧
      ∀ request, (readRest method target version s).1 = .ok (.request request) →
        Same (readRest method target version s).2 (readRest method target version t).2 := by
  obtain ⟨heq, hsame⟩ : Agree (readHeaders ∅ s) (readHeaders ∅ t) := readHeaders_same h
  unfold readRest
  generalize readHeaders ∅ s = r at heq hsame
  generalize readHeaders ∅ t = r' at heq hsame
  obtain ⟨outcome, s'⟩ := r
  obtain ⟨outcome', t'⟩ := r'
  dsimp only at heq
  subst heq
  cases outcome with
  | error stop => exact ⟨rfl, fun request hr => absurd hr (stop.answer_ne request)⟩
  | ok headers =>
    have hnext : Same s' t' := hsame _ rfl
    dsimp only
    generalize framing target headers = framed
    cases framed with
    | error stop => exact ⟨rfl, fun request hr => absurd hr (stop.answer_ne request)⟩
    | ok length =>
      obtain ⟨hbody, hleft⟩ := readBody_same hnext length
      dsimp only
      generalize readBody s' length = r at hbody hleft
      generalize readBody t' length = r' at hbody hleft
      obtain ⟨outcome, s''⟩ := r
      obtain ⟨outcome', t''⟩ := r'
      dsimp only at hbody
      subst hbody
      cases outcome with
      | error stop => exact ⟨rfl, fun request hr => absurd hr (stop.answer_ne request)⟩
      | ok body => exact ⟨rfl, fun _ _ => hleft body rfl⟩

/-- The answer, and after a request what is left, do not depend on how the stream is cut. -/
theorem readRequest_cut {s t : Feed UInt8 IoError} (h : Same s t) :
    (readRequest s).1 = (readRequest t).1 ∧
      ∀ request, (readRequest s).1 = .ok (.request request) →
        Same (readRequest s).2 (readRequest t).2 := by
  obtain ⟨heq, hsame⟩ := readLineLimited_same h MAX_REQUEST_LINE
  unfold readRequest
  generalize readLineLimited s MAX_REQUEST_LINE = r at heq hsame
  generalize readLineLimited t MAX_REQUEST_LINE = r' at heq hsame
  obtain ⟨outcome, s'⟩ := r
  obtain ⟨outcome', t'⟩ := r'
  dsimp only at heq
  subst heq
  rcases outcome with e | _ | line
  · exact ⟨rfl, fun request hr => absurd hr (Stop.answer_ne _ request)⟩
  · exact ⟨rfl, fun request hr => by cases hr⟩
  · have hnext : Same s' t' := hsame _ rfl
    dsimp only
    split
    · exact ⟨rfl, fun request hr => by cases hr⟩
    split
    · exact readRest_same hnext
    · exact ⟨rfl, fun request hr => by cases hr⟩

end Http

end RustyPick
