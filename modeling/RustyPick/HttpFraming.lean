import RustyPick.HttpText

/-!
# RustyPick.HttpFraming

Requests one after the other on a connection (`web/http.rs`).

A line is held with the carriage return that ends it until it is complete, and the limit is on what
is held. So a line ended by CRLF may be one byte shorter than the limit says.

* `requests_framed_iff`: well-formed requests are read as what they are, one after the other, where
  each line has room for its carriage return.
* `longest_line_rejected`: where one has not.
-/

namespace RustyPick

open Lib

namespace Http

inductive LineEnd where
  | lf
  | crlf
  deriving DecidableEq, Repr

/-- What a line ends with, before the line feed. -/
def LineEnd.before : LineEnd → Bytes
  | .lf => []
  | .crlf => [13]

structure TextLine where
  text : Bytes
  ending : LineEnd

namespace TextLine

/-- The line as it is held. -/
def held (l : TextLine) : Bytes := l.text ++ l.ending.before

def bytes (l : TextLine) : Bytes := l.held ++ [10]

def read (l : TextLine) : String := fromUtf8Lossy l.text

/-- One line of at most `max` bytes, what ends it left out. -/
structure Within (max : Nat) (l : TextLine) : Prop where
  single : 10 ∉ l.text
  length : l.text.length ≤ max
  /-- A carriage return before the line feed is part of the line's end. -/
  ending : l.ending = .lf → l.text.getLast? ≠ some 13

/-- Room for the carriage return too. -/
def Roomy (max : Nat) (l : TextLine) : Prop := l.ending = .crlf → l.text.length < max

variable {l : TextLine} {max : Nat}

theorem Within.held (h : l.Within max) : 10 ∉ l.held := by
  rw [TextLine.held, List.mem_append, not_or]
  refine ⟨h.single, ?_⟩
  cases l.ending <;> decide

theorem Within.finishLine (h : l.Within max) : finishLine l.held = l.read := by
  obtain ⟨text, ending⟩ := l
  cases ending with
  | lf =>
    have hlast := h.ending rfl
    dsimp only at hlast
    simp only [TextLine.held, LineEnd.before, List.append_nil, Http.finishLine, if_neg hlast]
    rfl
  | crlf =>
    simp only [TextLine.held, LineEnd.before, Http.finishLine, List.getLast?_concat, if_true,
      List.dropLast_concat]
    rfl

theorem Within.roomy_iff (h : l.Within max) : l.Roomy max ↔ l.held.length ≤ max := by
  have hlen := h.length
  obtain ⟨text, ending⟩ := l
  dsimp only at hlen
  cases ending with
  | lf => simp [Roomy, TextLine.held, LineEnd.before, hlen]
  | crlf => simp [Roomy, TextLine.held, LineEnd.before]

/-- A line with room is read, and the next one starts right after it. -/
theorem Within.read_ok (h : l.Within max) (hroom : l.Roomy max) {s : Feed UInt8 IoError}
    {rest : Bytes} (hc : s.content = l.bytes ++ rest) :
    ∃ s', readLineLimited s max = (.ok (some l.read), s') ∧ s'.content = rest ∧
      s'.failure = s.failure := by
  have hof : lineOf max s.content = .line l.held rest := by
    rw [hc, bytes, List.append_assoc]
    exact lineOf_line h.held rest (h.roomy_iff.mp hroom)
  rcases readLineLimited_spec s max with ⟨front, rest', s', hof', hread, hrest, hf⟩ |
    ⟨front, s', hof', -⟩ | ⟨hof', -⟩ <;> rw [hof] at hof' <;> cases hof'
  exact ⟨s', by rw [hread, h.finishLine], hrest, hf⟩

theorem Within.read_tooLong (h : l.Within max) (hroom : ¬ l.Roomy max) {s : Feed UInt8 IoError}
    {rest : Bytes} (hc : s.content = l.bytes ++ rest) :
    ∃ s', readLineLimited s max = (.error lineTooLong, s') := by
  have hof : lineOf max s.content = .tooLong := by
    rw [hc, bytes, List.append_assoc]
    exact lineOf_tooLong h.held _ (Nat.lt_of_not_le fun hle => hroom (h.roomy_iff.mpr hle))
  rcases readLineLimited_spec s max with ⟨front, rest', s', hof', -⟩ |
    ⟨front, s', hof', -⟩ | ⟨-, taken, s', hread, -⟩
  · rw [hof] at hof'
    cases hof'
  · rw [hof] at hof'
    cases hof'
  · exact ⟨s', hread⟩

end TextLine

/-! ## A request as it is sent -/

structure Sent where
  requestLine : TextLine
  headers : List TextLine
  blank : LineEnd
  body : Bytes

namespace Sent

def blankLine (x : Sent) : TextLine := ⟨[], x.blank⟩

def bytes (x : Sent) : Bytes :=
  x.requestLine.bytes ++ (x.headers.flatMap TextLine.bytes ++ (x.blankLine.bytes ++ x.body))

/-- Its request line begins with these two words. -/
def Asks (x : Sent) (method target : List Char) : Prop :=
  TwoWords x.requestLine.read.toList method target

/-- One of its headers says so. -/
def Says (x : Sent) (name value : String) : Prop := ∃ l ∈ x.headers, IsHeader l.read name value

def headerMap (x : Sent) : Map String String :=
  (x.headers.map TextLine.read).foldl addHeader ∅

/-- A request line of two tokens at least, headers of different names that are not too many, and a
body as long as they say and the route allows. -/
structure WellFormed (x : Sent) : Prop where
  requestLine : x.requestLine.Within MAX_REQUEST_LINE
  tokens : ∃ method target, x.Asks method target
  count : x.headers.length ≤ MAX_HEADERS
  headers : ∀ l ∈ x.headers, l.Within MAX_HEADER_LINE
  named : ∀ l ∈ x.headers, ∃ name value, IsHeader l.read name value
  distinct : x.headers.Pairwise fun l m => ∀ name value other,
    IsHeader l.read name value → ¬ IsHeader m.read name other
  length : (∃ value, x.Says "content-length" value ∧ parseU64 value = some x.body.length) ∨
    (x.body = [] ∧ ∀ value, ¬ x.Says "content-length" value)
  limit : ∀ method target, x.Asks method target →
    x.body.length ≤ bodyLimit (String.ofList target)
  framing : ∀ value, x.Says "transfer-encoding" value →
    ¬ "chunked".toList <:+: value.toList.map Char.toLower

/-- Every line has room for its carriage return. -/
def Roomy (x : Sent) : Prop :=
  x.requestLine.Roomy MAX_REQUEST_LINE ∧ ∀ l ∈ x.headers, l.Roomy MAX_HEADER_LINE

/-- The request that was sent. -/
structure IsRead (x : Sent) (request : Request) : Prop where
  line : ∃ method target, x.Asks method target ∧ Reads method target request
  headers : ∀ name value, request.headers[name]? = some value ↔ x.Says name value
  body : request.body = x.body

end Sent

/-! ## Its headers -/

theorem size_addHeader_le (headers : Map String String) (line : String) :
    (addHeader headers line).size ≤ headers.size + 1 := by
  unfold addHeader
  split
  · exact Std.ExtTreeMap.size_insert_le
  · exact Nat.le_succ _

theorem ne_empty_of_header {line : String} (h : (headerOf line).isSome) : line ≠ "" := by
  rintro rfl
  exact absurd h (by decide)

section

variable {lines : List TextLine} {rest : Bytes} {blank : LineEnd}

theorem blank_within (blank : LineEnd) : (⟨[], blank⟩ : TextLine).Within MAX_HEADER_LINE :=
  ⟨List.not_mem_nil, Nat.zero_le _, fun _ => nofun⟩

/-- Headers with room are taken one after the other, and the body starts right after them. -/
theorem readHeaders_ok : ∀ {lines : List TextLine} {headers : Map String String}
    {s : Feed UInt8 IoError}, (∀ l ∈ lines, l.Within MAX_HEADER_LINE) →
    (∀ l ∈ lines, l.Roomy MAX_HEADER_LINE) → (∀ l ∈ lines, (headerOf l.read).isSome) →
    headers.size + lines.length ≤ MAX_HEADERS →
    s.content = lines.flatMap TextLine.bytes ++ ((⟨[], blank⟩ : TextLine).bytes ++ rest) →
    ∃ s', readHeaders headers s = (.ok ((lines.map TextLine.read).foldl addHeader headers), s') ∧
      s'.content = rest ∧ s'.failure = s.failure := by
  intro lines
  induction lines with
  | nil =>
    intro headers s _ _ _ _ hc
    obtain ⟨s', hread, hrest, hf⟩ := (blank_within blank).read_ok (fun _ => Nat.succ_pos _) hc
    refine ⟨s', ?_, hrest, hf⟩
    have hempty : (⟨[], blank⟩ : TextLine).read = "" := rfl
    rw [readHeaders, hread]
    exact if_pos hempty
  | cons l lines ih =>
    intro headers s hwithin hroom hnamed hsize hc
    rw [List.flatMap_cons, List.append_assoc] at hc
    rw [List.length_cons] at hsize
    obtain ⟨s₁, hread, hrest, hf⟩ :=
      (hwithin l List.mem_cons_self).read_ok (hroom l List.mem_cons_self) hc
    have hadd := size_addHeader_le headers l.read
    have hsize' : (addHeader headers l.read).size + lines.length ≤ MAX_HEADERS := by omega
    obtain ⟨s', hnext, hrest', hf'⟩ := ih (fun m hm => hwithin m (List.mem_cons_of_mem l hm))
      (fun m hm => hroom m (List.mem_cons_of_mem l hm))
      (fun m hm => hnamed m (List.mem_cons_of_mem l hm)) hsize' hrest
    refine ⟨s', ?_, hrest', hf'.trans hf⟩
    rw [readHeaders, hread]
    dsimp only
    rw [if_neg (ne_empty_of_header (hnamed l List.mem_cons_self)), if_neg (by omega), hnext,
      List.map_cons, List.foldl_cons]

/-- One that has no room stops it. -/
theorem readHeaders_stop : ∀ {lines : List TextLine} {headers : Map String String}
    {s : Feed UInt8 IoError}, (∀ l ∈ lines, l.Within MAX_HEADER_LINE) →
    ¬ (∀ l ∈ lines, l.Roomy MAX_HEADER_LINE) → (∀ l ∈ lines, (headerOf l.read).isSome) →
    s.content = lines.flatMap TextLine.bytes ++ rest →
    ∃ stop s', readHeaders headers s = (.error stop, s') := by
  intro lines
  induction lines with
  | nil =>
    intro headers s _ hroom _ _
    exact absurd (fun l hl => absurd hl List.not_mem_nil) hroom
  | cons l lines ih =>
    intro headers s hwithin hroom hnamed hc
    rw [List.flatMap_cons, List.append_assoc] at hc
    by_cases hl : l.Roomy MAX_HEADER_LINE
    · obtain ⟨s₁, hread, hrest, -⟩ := (hwithin l List.mem_cons_self).read_ok hl hc
      have hlater : ¬ ∀ m ∈ lines, m.Roomy MAX_HEADER_LINE := fun hall =>
        hroom (List.forall_mem_cons.mpr ⟨hl, hall⟩)
      rw [readHeaders, hread]
      dsimp only
      rw [if_neg (ne_empty_of_header (hnamed l List.mem_cons_self))]
      split
      · exact ⟨_, _, rfl⟩
      · exact ih (fun m hm => hwithin m (List.mem_cons_of_mem l hm)) hlater
          (fun m hm => hnamed m (List.mem_cons_of_mem l hm)) hrest
    · obtain ⟨s₁, hread⟩ := (hwithin l List.mem_cons_self).read_tooLong hl hc
      refine ⟨unreadable 431 "Header line too long" lineTooLong, s₁, ?_⟩
      rw [readHeaders, hread]

end

/-- Of headers of different names each is found under its own. -/
theorem foldl_addHeader : ∀ {lines : List TextLine} {headers : Map String String},
    (∀ l ∈ lines, (headerOf l.read).isSome) →
    (lines.map fun l => (headerOf l.read).map Prod.fst).Nodup →
    (∀ l ∈ lines, ∀ name value, headerOf l.read = some (name, value) → headers[name]? = none) →
    ∀ name value, ((lines.map TextLine.read).foldl addHeader headers)[name]? = some value ↔
      headers[name]? = some value ∨ ∃ l ∈ lines, headerOf l.read = some (name, value) := by
  intro lines
  induction lines with
  | nil =>
    intro headers _ _ _ name value
    simp
  | cons l lines ih =>
    intro headers hnamed hdistinct hnew name value
    obtain ⟨⟨own, ownValue⟩, hown⟩ := Option.isSome_iff_exists.mp (hnamed l List.mem_cons_self)
    rw [List.map_cons, List.nodup_cons] at hdistinct
    have hother : ∀ m ∈ lines, ∀ name value, headerOf m.read = some (name, value) →
        own ≠ name := by
      rintro m hm name value hm' rfl
      apply hdistinct.1
      rw [hown]
      exact List.mem_map.mpr ⟨m, hm, by rw [hm']; rfl⟩
    have hadd : addHeader headers l.read = headers.insert own ownValue := by
      rw [addHeader, hown]
    have hnew' : ∀ m ∈ lines, ∀ name value, headerOf m.read = some (name, value) →
        (headers.insert own ownValue)[name]? = none := by
      intro m hm name value hm'
      rw [getElem?_insert_ne _ _ (hother m hm name value hm')]
      exact hnew m (List.mem_cons_of_mem l hm) name value hm'
    rw [List.map_cons, List.foldl_cons, hadd,
      ih (fun m hm => hnamed m (List.mem_cons_of_mem l hm)) hdistinct.2 hnew' name value,
      getElem?_insert_eq]
    by_cases hname : own = name
    · subst hname
      have hnone := hnew l List.mem_cons_self own ownValue hown
      rw [if_pos rfl, hnone]
      simp [hown, eq_comm]
    · rw [if_neg hname]
      simp [hown, hname]

/-! ## One request -/

/-- A line of tokens is not blank. -/
theorem trim_ne_empty {line : String} (h : splitWhitespace line ≠ []) : trim line ≠ "" := by
  intro htrim
  apply h
  have hnil : trimEnd (line.toList.dropWhile isWhitespace) = [] := by
    have := congrArg String.toList htrim
    rwa [trim, String.toList_ofList] at this
  rw [trimEnd, List.reverse_eq_nil_iff, List.dropWhile_eq_nil_iff] at hnil
  have hdrop : line.toList.dropWhile isWhitespace = [] := by
    cases hrest : line.toList.dropWhile isWhitespace with
    | nil => rfl
    | cons c cs =>
      have hblank := hnil c (by rw [hrest, List.mem_reverse]; exact List.mem_cons_self)
      have hhead : (line.toList.dropWhile isWhitespace).head? = some c := by rw [hrest]; rfl
      have hnot := head_dropWhile hhead
      rw [hnot] at hblank
      cases hblank
  have hwords := words_blank_append (List.dropWhile_eq_nil_iff.mp hdrop) []
  rw [List.append_nil] at hwords
  rw [splitWhitespace, hwords]
  rfl

theorem readBody_ok {s : Feed UInt8 IoError} {body rest : Bytes} (hc : s.content = body ++ rest) :
    ∃ s', readBody s body.length = (.ok body, s') ∧ s'.content = rest ∧ s'.failure = s.failure := by
  rcases s.readExact_spec body.length with ⟨-, s', hread, hc', hf⟩ | ⟨hlt, -⟩
  · rw [hc, List.take_left] at hread
    rw [hc, List.drop_left] at hc'
    exact ⟨s', by rw [readBody, hread], hc', hf⟩
  · rw [hc, List.length_append] at hlt
    omega

namespace Sent

variable {x : Sent} {rest : Bytes} {s : Feed UInt8 IoError}

section

variable (h : x.WellFormed)

include h

theorem WellFormed.isSome : ∀ l ∈ x.headers, (headerOf l.read).isSome := by
  intro l hl
  obtain ⟨name, value, hheader⟩ := h.named l hl
  exact Option.isSome_iff_exists.mpr ⟨_, headerOf_iff.mpr hheader⟩

theorem WellFormed.nodup : (x.headers.map fun l => (headerOf l.read).map Prod.fst).Nodup := by
  refine List.pairwise_map.mpr (h.distinct.imp_of_mem fun {l m} hl hm hother heq => ?_)
  obtain ⟨name, value, hheader⟩ := h.named l hl
  obtain ⟨name', value', hheader'⟩ := h.named m hm
  rw [headerOf_iff.mpr hheader, headerOf_iff.mpr hheader'] at heq
  obtain rfl : name = name' := Option.some.inj heq
  exact hother name value value' hheader hheader'

theorem WellFormed.headerMap_iff (name value : String) :
    x.headerMap[name]? = some value ↔ x.Says name value := by
  have hnone : ∀ l ∈ x.headers, ∀ name value, headerOf l.read = some (name, value) →
      (∅ : Map String String)[name]? = none := fun _ _ _ _ _ => Std.ExtTreeMap.getElem?_empty
  have hfound := foldl_addHeader h.isSome h.nodup hnone name value
  rw [Std.ExtTreeMap.getElem?_empty] at hfound
  simp only [reduceCtorEq, false_or, headerOf_iff] at hfound
  exact hfound

theorem WellFormed.headerMap_none {name : String} (hnone : ∀ value, ¬ x.Says name value) :
    x.headerMap[name]? = none :=
  Option.eq_none_iff_forall_ne_some.mpr fun value hvalue =>
    hnone value ((h.headerMap_iff name value).mp hvalue)

theorem WellFormed.contentLength : contentLength x.headerMap = some x.body.length := by
  unfold Http.contentLength
  rcases h.length with ⟨value, hsays, hvalue⟩ | ⟨hbody, hnone⟩
  · rw [(h.headerMap_iff _ _).mpr hsays]
    exact hvalue
  · rw [h.headerMap_none hnone, hbody]
    rfl

theorem WellFormed.isChunked : isChunked x.headerMap = false := by
  unfold Http.isChunked
  cases hvalue : x.headerMap["transfer-encoding"]? with
  | none => rfl
  | some value =>
    have hnot := h.framing value ((h.headerMap_iff _ _).mp hvalue)
    have hlower : (asciiLowercase value).toList = value.toList.map Char.toLower :=
      String.toList_ofList
    rw [← hlower] at hnot
    rw [Option.any_some, containsText]
    exact decide_eq_false hnot

end

/-- A request with room is read as what it is, and the next one starts right after it. -/
theorem WellFormed.read_ok (h : x.WellFormed) (hroom : x.Roomy)
    (hc : s.content = x.bytes ++ rest) :
    ∃ request s', readRequest s = (.ok (.request request), s') ∧ x.IsRead request ∧
      s'.content = rest ∧ s'.failure = s.failure := by
  simp only [bytes, List.append_assoc] at hc
  obtain ⟨s₁, hline, hrest₁, hf₁⟩ := h.requestLine.read_ok hroom.1 hc
  obtain ⟨method, target, hasks⟩ := h.tokens
  obtain ⟨version, htokens⟩ := TwoWords.splitWhitespace hasks
  rw [String.ofList_toList] at htokens
  have htrim : trim x.requestLine.read ≠ "" := trim_ne_empty (by
    rw [htokens]
    exact List.cons_ne_nil _ _)
  have hcount : (∅ : Map String String).size + x.headers.length ≤ MAX_HEADERS := by
    rw [Std.ExtTreeMap.size_empty, Nat.zero_add]
    exact h.count
  obtain ⟨s₂, hheaders, hrest₂, hf₂⟩ :=
    readHeaders_ok h.headers hroom.2 h.isSome hcount hrest₁
  have hframing : Http.framing (String.ofList target) x.headerMap = .ok x.body.length := by
    unfold Http.framing
    rw [h.contentLength]
    dsimp only
    rw [if_neg (Nat.not_lt.mpr (h.limit method target hasks)), h.isChunked]
    rfl
  obtain ⟨s₃, hbody, hrest₃, hf₃⟩ := readBody_ok hrest₂
  refine ⟨requestOf (String.ofList method) (String.ofList target)
    (version.head?.getD "HTTP/1.1") x.headerMap x.body, s₃, ?_,
    ⟨⟨method, target, hasks, requestOf_reads method target _ _ _⟩, h.headerMap_iff, rfl⟩, hrest₃,
    hf₃.trans (hf₂.trans hf₁)⟩
  rw [readRequest, hline]
  dsimp only
  rw [if_neg htrim, htokens]
  dsimp only
  rw [readRest, hheaders]
  dsimp only
  rw [show (x.headers.map TextLine.read).foldl addHeader ∅ = x.headerMap from rfl, hframing]
  dsimp only
  rw [hbody]

/-- One without is no request. -/
theorem WellFormed.read_stop (h : x.WellFormed) (hroom : ¬ x.Roomy)
    (hc : s.content = x.bytes ++ rest) (request : Request) :
    (readRequest s).1 ≠ .ok (.request request) := by
  simp only [bytes, List.append_assoc] at hc
  by_cases hline : x.requestLine.Roomy MAX_REQUEST_LINE
  · obtain ⟨s₁, hread, hrest, -⟩ := h.requestLine.read_ok hline hc
    obtain ⟨stop, s', hstop⟩ : ∃ stop s', readHeaders ∅ s₁ = (.error stop, s') :=
      readHeaders_stop h.headers (fun hall => hroom ⟨hline, hall⟩) h.isSome hrest
    rw [readRequest, hread]
    dsimp only
    split
    · exact nofun
    split
    · rw [readRest, hstop]
      exact stop.answer_ne request
    · exact (Stop.rejected 400 "Malformed request line").answer_ne request
  · obtain ⟨s₁, hread⟩ := h.requestLine.read_tooLong hline hc
    rw [readRequest, hread]
    exact (unreadable 414 "Request target too long" lineTooLong).answer_ne request

end Sent

/-! ## One after the other -/

/-- The answers of successive calls. -/
def readRequests : Nat → Feed UInt8 IoError → List Answer
  | 0, _ => []
  | n + 1, s => (readRequest s).1 :: readRequests n (readRequest s).2

/-- The requests that were sent, in their order, and then the end. -/
def Framed (sent : List Sent) (s : Feed UInt8 IoError) : Prop :=
  ∃ requests : List Request, List.Forall₂ Sent.IsRead sent requests ∧
    readRequests (sent.length + 1) s = requests.map (fun r => .ok (.request r)) ++ [.ok .eof]

theorem readRequest_eof {s : Feed UInt8 IoError} (hc : s.content = []) (hf : s.failure = none) :
    (readRequest s).1 = .ok .eof := by
  have hof : lineOf MAX_REQUEST_LINE s.content = .ended [] := by
    rw [hc]
    rfl
  rcases readLineLimited_spec s MAX_REQUEST_LINE with ⟨front, rest, s', hof', -⟩ |
    ⟨front, s', hof', hread, -⟩ | ⟨hof', -⟩ <;> rw [hof] at hof' <;> cases hof'
  rw [readRequest, hread, hf]
  rfl

theorem framed_of_roomy : ∀ {sent : List Sent} {s : Feed UInt8 IoError},
    (∀ x ∈ sent, x.WellFormed) → (∀ x ∈ sent, x.Roomy) →
    s.content = sent.flatMap Sent.bytes → s.failure = none → Framed sent s := by
  intro sent
  induction sent with
  | nil =>
    intro s _ _ hc hf
    exact ⟨[], .nil, by rw [List.length_nil, readRequests, readRequests, readRequest_eof hc hf]; rfl⟩
  | cons x sent ih =>
    intro s hwell hroom hc hf
    rw [List.flatMap_cons] at hc
    obtain ⟨request, s', hread, his, hrest, hf'⟩ :=
      (hwell x List.mem_cons_self).read_ok (hroom x List.mem_cons_self) hc
    obtain ⟨requests, hall, hnext⟩ := ih (fun y hy => hwell y (List.mem_cons_of_mem x hy))
      (fun y hy => hroom y (List.mem_cons_of_mem x hy)) hrest (hf'.trans hf)
    refine ⟨request :: requests, .cons his hall, ?_⟩
    rw [List.length_cons, readRequests, hread, hnext]
    rfl

theorem roomy_of_framed : ∀ {sent : List Sent} {s : Feed UInt8 IoError},
    (∀ x ∈ sent, x.WellFormed) → s.content = sent.flatMap Sent.bytes → Framed sent s →
    ∀ x ∈ sent, x.Roomy := by
  intro sent
  induction sent with
  | nil => exact fun _ _ _ x hx => absurd hx List.not_mem_nil
  | cons x sent ih =>
    rintro s hwell hc ⟨requests, hall, hread⟩
    rw [List.flatMap_cons] at hc
    cases hall with
    | cons hx hall =>
      rename_i request requests
      rw [List.length_cons, readRequests, List.map_cons, List.cons_append, List.cons.injEq] at hread
      have hroom : x.Roomy := by
        by_contra hno
        exact (hwell x List.mem_cons_self).read_stop hno hc request hread.1
      obtain ⟨request', s', hok, -, hrest, -⟩ := (hwell x List.mem_cons_self).read_ok hroom hc
      rw [hok] at hread
      exact List.forall_mem_cons.mpr ⟨hroom,
        ih (fun y hy => hwell y (List.mem_cons_of_mem x hy)) hrest ⟨requests, hall, hread.2⟩⟩

/-- Requests are framed exactly where every line has room for its carriage return, and what is read
never depends on how the stream is cut. -/
theorem requests_framed_iff (sent : List Sent) (s : Feed UInt8 IoError)
    (hwell : ∀ x ∈ sent, x.WellFormed) (hc : s.content = sent.flatMap Sent.bytes)
    (hf : s.failure = none) :
    (Framed sent s ↔ ∀ x ∈ sent, x.Roomy) ∧
      ∀ t t' : Feed UInt8 IoError, t.content = t'.content → t.failure = t'.failure →
        (readRequest t).1 = (readRequest t').1 :=
  ⟨⟨roomy_of_framed hwell hc, fun hroom => framed_of_roomy hwell hroom hc hf⟩,
    fun _ _ hcontent hfailure => (readRequest_cut ⟨hcontent, hfailure⟩).1⟩

theorem blank_space : Blank [' '] := List.forall_mem_singleton.mpr rfl

theorem isWord_of_all {cs : List Char} (hne : cs ≠ [])
    (h : (cs.all fun c => !isWhitespace c) = true) : IsWord cs :=
  ⟨hne, fun c hc => by simpa using List.all_eq_true.mp h c hc⟩

/-- A request of the longest line there may be, ended by CRLF. -/
def longestLine : List Char := 'G' :: 'E' :: 'T' :: ' ' :: '/' :: List.replicate 8187 'a'

def longest : Sent where
  requestLine := ⟨utf8 (String.ofList longestLine), .crlf⟩
  headers := []
  blank := .crlf
  body := []

theorem longest_utf8 : longest.requestLine.text = longestLine.map fun c => UInt8.ofNat c.toNat := by
  apply utf8_ascii
  simp only [longestLine, List.forall_mem_cons]
  refine ⟨by simp, by simp, by simp, by simp, by simp, fun c hc => ?_⟩
  rw [List.eq_of_mem_replicate hc]
  decide

theorem longest_length : longest.requestLine.text.length = MAX_REQUEST_LINE := by
  rw [longest_utf8, List.length_map]
  simp only [longestLine, List.length_cons, List.length_replicate]
  rfl

theorem longest_asks : longest.Asks ['G', 'E', 'T'] ('/' :: List.replicate 8187 'a') := by
  refine ⟨isWord_of_all (List.cons_ne_nil _ _) (by decide), ⟨List.cons_ne_nil _ _, fun c hc => ?_⟩,
    [], [' '], [], ?_, nofun, blank_space, List.cons_ne_nil _ _, nofun⟩
  · rcases List.mem_cons.mp hc with rfl | hc
    · decide
    · rw [List.eq_of_mem_replicate hc]
      decide
  · simp only [TextLine.read, longest, fromUtf8Lossy_utf8, String.toList_ofList, longestLine,
      List.append_nil, List.nil_append, List.cons_append]

theorem longest_wellFormed : longest.WellFormed where
  requestLine := by
    refine ⟨?_, le_of_eq longest_length, nofun⟩
    rw [longest_utf8, List.mem_map]
    rintro ⟨c, hc, heq⟩
    simp only [longestLine, List.mem_cons, List.mem_replicate] at hc
    rcases hc with rfl | rfl | rfl | rfl | rfl | ⟨-, rfl⟩ <;> exact absurd heq (by simp)
  tokens := ⟨_, _, longest_asks⟩
  count := Nat.zero_le _
  headers := nofun
  named := nofun
  distinct := List.Pairwise.nil
  length := .inr ⟨rfl, fun _ ⟨_, hl, _⟩ => absurd hl List.not_mem_nil⟩
  limit := fun _ _ _ => Nat.zero_le _
  framing := fun _ ⟨_, hl, _⟩ => absurd hl List.not_mem_nil

theorem longestLine_rejected : longest.WellFormed ∧
    ¬ Framed [longest] { pieces := [longest.bytes] } := by
  refine ⟨longest_wellFormed, fun hframed => ?_⟩
  have hall : ∀ x ∈ [longest], x.WellFormed := List.forall_mem_singleton.mpr longest_wellFormed
  have hcontent : ({ pieces := [longest.bytes] } : Feed UInt8 IoError).content =
      [longest].flatMap Sent.bytes := by
    simp only [Feed.content, List.flatten_cons, List.flatten_nil, List.flatMap_cons,
      List.flatMap_nil]
  have hroom := (roomy_of_framed hall hcontent hframed longest List.mem_cons_self).1 rfl
  rw [longest_length] at hroom
  exact Nat.lt_irrefl _ hroom

/-- A request with a body, and one without. -/
def posted : Sent where
  requestLine := ⟨utf8 "POST /api/clients?x=a%20b HTTP/1.1", .crlf⟩
  headers := [⟨utf8 "Host: here", .crlf⟩, ⟨utf8 "Content-Length: 3", .lf⟩]
  blank := .crlf
  body := [123, 10, 125]

def fetched : Sent where
  requestLine := ⟨utf8 "GET /two", .lf⟩
  headers := []
  blank := .lf
  body := []

theorem posted_asks : posted.Asks "POST".toList "/api/clients?x=a%20b".toList :=
  ⟨isWord_of_all (by decide) (by decide), isWord_of_all (by decide) (by decide), [], " ".toList,
    " HTTP/1.1".toList, by decide +kernel, nofun, blank_space, by decide, by
      rintro c hc
      cases hc
      rfl⟩

theorem posted_headers {l : TextLine} (hl : l ∈ posted.headers) :
    headerOf l.read = some ("host", "here") ∨ headerOf l.read = some ("content-length", "3") := by
  fin_cases hl
  · exact .inl (by decide +kernel)
  · exact .inr (by decide +kernel)

theorem posted_wellFormed : posted.WellFormed where
  requestLine := ⟨by decide +kernel, by decide +kernel, nofun⟩
  tokens := ⟨_, _, posted_asks⟩
  count := by decide
  headers := by
    intro l hl
    fin_cases hl
    · exact ⟨by decide +kernel, by decide +kernel, nofun⟩
    · exact ⟨by decide +kernel, by decide +kernel, fun _ => by decide +kernel⟩
  named := by
    intro l hl
    rcases posted_headers hl with hhost | hlength
    · exact ⟨_, _, headerOf_iff.mp hhost⟩
    · exact ⟨_, _, headerOf_iff.mp hlength⟩
  distinct := by
    refine List.pairwise_pair.mpr fun name value other hhost hlength => ?_
    have hfirst : headerOf (⟨utf8 "Host: here", .crlf⟩ : TextLine).read = some ("host", "here") := by
      decide +kernel
    have hsecond : headerOf (⟨utf8 "Content-Length: 3", .lf⟩ : TextLine).read =
        some ("content-length", "3") := by decide +kernel
    rw [← headerOf_iff, hfirst] at hhost
    rw [← headerOf_iff, hsecond] at hlength
    cases hhost
    have hname : "content-length" = "host" := congrArg Prod.fst (Option.some.inj hlength)
    exact absurd hname (by decide)
  length := by
    refine .inl ⟨"3", ⟨⟨utf8 "Content-Length: 3", .lf⟩, by simp [posted], ?_⟩, by decide +kernel⟩
    exact headerOf_iff.mp (by decide +kernel)
  limit := by
    intro method target _
    rw [bodyLimit]
    split
    · exact Nat.le_of_ble_eq_true rfl
    · exact Nat.le_of_ble_eq_true rfl
  framing := by
    rintro value ⟨l, hl, hheader⟩
    rcases posted_headers hl with hhost | hlength
    · rw [← headerOf_iff, hhost] at hheader
      have hname : "host" = "transfer-encoding" := congrArg Prod.fst (Option.some.inj hheader)
      exact absurd hname (by decide)
    · rw [← headerOf_iff, hlength] at hheader
      have hname : "content-length" = "transfer-encoding" :=
        congrArg Prod.fst (Option.some.inj hheader)
      exact absurd hname (by decide)

theorem fetched_asks : fetched.Asks "GET".toList "/two".toList :=
  ⟨isWord_of_all (by decide) (by decide), isWord_of_all (by decide) (by decide), [], " ".toList,
    [], by decide +kernel, nofun, blank_space, by decide, nofun⟩

theorem fetched_wellFormed : fetched.WellFormed where
  requestLine := ⟨by decide +kernel, by decide +kernel, fun _ => by decide +kernel⟩
  tokens := ⟨_, _, fetched_asks⟩
  count := Nat.zero_le _
  headers := nofun
  named := nofun
  distinct := List.Pairwise.nil
  length := .inr ⟨rfl, fun _ ⟨_, hl, _⟩ => absurd hl List.not_mem_nil⟩
  limit := fun _ _ _ => Nat.zero_le _
  framing := fun _ ⟨_, hl, _⟩ => absurd hl List.not_mem_nil

theorem postedThenFetched_framed : Framed [posted, fetched]
    { pieces := [posted.bytes.take 20, posted.bytes.drop 20 ++ fetched.bytes] } :=
  (requests_framed_iff [posted, fetched]
    { pieces := [posted.bytes.take 20, posted.bytes.drop 20 ++ fetched.bytes] }
    (List.forall_mem_cons.mpr ⟨posted_wellFormed, List.forall_mem_singleton.mpr fetched_wellFormed⟩)
    (by decide +kernel) rfl).1.mpr (by
      rintro x hx
      fin_cases hx
      · refine ⟨fun _ => by decide +kernel, fun l hl => ?_⟩
        fin_cases hl <;> exact fun _ => by decide +kernel
      · exact ⟨fun _ => by decide +kernel, nofun⟩)

end Http

end RustyPick
