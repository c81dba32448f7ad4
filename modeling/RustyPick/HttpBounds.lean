import RustyPick.HttpFraming

/-!
# RustyPick.HttpBounds

How much of a connection one request may take (`web/http.rs`).

The header loop counts the headers it has, and not the lines it has read. A line without a colon and
one that names a header again add none, so they are read without end.

* `readRequest_bounded`: the reading of a request is bounded where there are no more header lines
  than headers may be, or the first of them name as many different headers.
* `bounded_iff`: only there can nothing that follows make it take more.
* `headers_unbounded`: where neither is so.
-/

namespace RustyPick

open Lib

namespace Http

/-! ## The lines of a head -/

theorem lineOf_eq_line {max : Nat} {content front rest : Bytes}
    (h : lineOf max content = .line front rest) :
    content = front ++ 10 :: rest ∧ 10 ∉ front ∧ front.length ≤ max := by
  unfold lineOf at h
  split at h
  · cases h
  · rename_i hmax
    split at h
    · cases h
    · rename_i b rest' hdrop
      cases h
      have hb : b = 10 := by
        have hhead := List.head?_dropWhile_not (fun b => decide (b ≠ (10 : UInt8))) content
        rw [hdrop] at hhead
        simpa using hhead
      refine ⟨?_, ?_, Nat.le_of_not_lt hmax⟩
      · conv_lhs => rw [← List.takeWhile_append_dropWhile (p := fun b => decide (b ≠ 10))
          (l := content), hdrop, hb]
      · intro hmem
        exact absurd (List.mem_takeWhile_imp hmem) (by decide)

theorem lineOf_eq_ended {max : Nat} {content front : Bytes} (h : lineOf max content = .ended front) :
    front = content ∧ content.length ≤ max := by
  unfold lineOf at h
  split at h
  · cases h
  · rename_i hmax
    split at h
    · rename_i hdrop
      cases h
      have htake := List.takeWhile_append_dropWhile (p := fun b => decide (b ≠ (10 : UInt8)))
        (l := content)
      rw [hdrop, List.append_nil] at htake
      exact ⟨rfl, htake ▸ Nat.le_of_not_lt hmax⟩
    · cases h

theorem lineOf_lt {max : Nat} {content front rest : Bytes}
    (h : lineOf max content = .line front rest) : rest.length < content.length := by
  rw [(lineOf_eq_line h).1, List.length_append, List.length_cons]
  omega

/-- The header lines from here on: up to a blank one, one that is too long, or the end. A line that
a failure cuts off is none. -/
def headerLines (failure : Option IoError) (content : Bytes) : List String :=
  match _h : lineOf MAX_HEADER_LINE content with
  | .line front rest =>
    if finishLine front = "" then [] else finishLine front :: headerLines failure rest
  | .ended front =>
    if failure.isSome ∨ finishLine front = "" then [] else [finishLine front]
  | .tooLong => []
termination_by content.length
decreasing_by exact lineOf_lt (by assumption)

/-- They name different headers. -/
def Distinct (lines : List String) : Prop :=
  (∀ line ∈ lines, (headerOf line).isSome) ∧
    (lines.map fun line => (headerOf line).map Prod.fst).Nodup

/-- The lines after which no more are taken in. -/
def Counted (lines : List String) : Prop :=
  lines.length ≤ MAX_HEADERS ∨ Distinct (lines.take MAX_HEADERS)

/-- The states of the header loop: the lines it has taken in, the headers it has, and what is left
of the stream. -/
inductive Taken (s : Feed UInt8 IoError) :
    List String → Map String String → Feed UInt8 IoError → Prop where
  | start : Taken s [] ∅ s
  | line {lines : List String} {headers : Map String String} {t t' : Feed UInt8 IoError}
      {line : String} : Taken s lines headers t →
      readLineLimited t MAX_HEADER_LINE = (.ok (some line), t') → line ≠ "" →
      headers.size < MAX_HEADERS → Taken s (lines ++ [line]) (addHeader headers line) t'

/-! ## How many headers there are -/

theorem mem_foldl_addHeader {lines : List String} {name : String} :
    name ∈ lines.foldl addHeader ∅ ↔
      some name ∈ lines.map fun line => (headerOf line).map Prod.fst := by
  induction lines using List.reverseRecOn with
  | nil => simp
  | append_singleton lines line ih =>
    rw [List.foldl_append, List.map_append, List.mem_append, ← ih]
    simp only [List.foldl_cons, List.foldl_nil, List.map_cons, List.map_nil, List.mem_singleton]
    unfold addHeader
    split
    · rename_i own value hown
      rw [hown, Std.ExtTreeMap.mem_insert, Std.compare_eq_iff_eq, Option.map_some, Option.some.injEq,
        or_comm, eq_comm]
    · rename_i hnone
      rw [hnone]
      simp

theorem distinct_append {lines : List String} {line : String} :
    Distinct (lines ++ [line]) ↔ Distinct lines ∧ ∃ name value, headerOf line = some (name, value) ∧
      name ∉ lines.foldl addHeader ∅ := by
  unfold Distinct
  rw [List.map_append, List.map_singleton, List.nodup_append_comm, List.singleton_append,
    List.nodup_cons, List.forall_mem_append, List.forall_mem_singleton]
  simp only [mem_foldl_addHeader]
  constructor
  · rintro ⟨⟨hsome, hline⟩, hnew, hnodup⟩
    obtain ⟨⟨name, value⟩, hheader⟩ := Option.isSome_iff_exists.mp hline
    rw [hheader] at hnew
    exact ⟨⟨hsome, hnodup⟩, name, value, hheader, hnew⟩
  · rintro ⟨⟨hsome, hnodup⟩, name, value, hheader, hnew⟩
    rw [hheader]
    exact ⟨⟨hsome, rfl⟩, hnew, hnodup⟩

/-- There are never more headers than lines, and as many only where the lines are distinct. -/
theorem size_foldl_addHeader (lines : List String) :
    (lines.foldl addHeader ∅).size ≤ lines.length ∧
      ((lines.foldl addHeader ∅).size = lines.length ↔ Distinct lines) := by
  induction lines using List.reverseRecOn with
  | nil => exact ⟨Nat.zero_le _, fun _ => ⟨fun _ h => absurd h List.not_mem_nil, List.nodup_nil⟩,
      fun _ => rfl⟩
  | append_singleton lines line ih =>
    obtain ⟨hle, hiff⟩ := ih
    rw [distinct_append, List.foldl_append, List.length_append, List.length_singleton, ← hiff]
    simp only [List.foldl_cons, List.foldl_nil]
    generalize lines.foldl addHeader ∅ = headers at hle hiff
    unfold addHeader
    cases h : headerOf line with
    | none =>
      refine ⟨Nat.le_succ_of_le hle, fun hsize => ?_, fun hex => ?_⟩
      · dsimp only at hsize
        omega
      · obtain ⟨-, name, value, hsome, -⟩ := hex
        cases hsome
    | some header =>
      obtain ⟨name, value⟩ := header
      dsimp only
      rw [Std.ExtTreeMap.size_insert]
      by_cases hmem : name ∈ headers
      · rw [if_pos (Std.ExtTreeMap.contains_iff_mem.mpr hmem)]
        refine ⟨Nat.le_succ_of_le hle, fun hsize => ?_, fun hex => ?_⟩
        · omega
        · obtain ⟨-, name', value', hsome, hnew⟩ := hex
          cases hsome
          exact absurd hmem hnew
      · rw [if_neg fun hc => hmem (Std.ExtTreeMap.contains_iff_mem.mp hc)]
        refine ⟨Nat.succ_le_succ hle, fun hsize => ⟨Nat.succ.inj hsize, name, value, rfl, hmem⟩,
          fun hex => congrArg Nat.succ hex.1⟩

/-! ## The loop -/

section

variable {t t' : Feed UInt8 IoError} {line : String}

theorem headerLines_nil (failure : Option IoError) : headerLines failure [] = [] := by
  rw [headerLines]
  have hof : lineOf MAX_HEADER_LINE [] = .ended [] := rfl
  split <;> rename_i h <;> rw [hof] at h <;> cases h
  exact if_pos (Or.inr rfl)

/-- A line that is read is the next header line, and the others come after it. -/
theorem headerLines_of_read (h : readLineLimited t MAX_HEADER_LINE = (.ok (some line), t'))
    (hne : line ≠ "") :
    headerLines t.failure t.content = line :: headerLines t'.failure t'.content := by
  rw [headerLines]
  rcases readLineLimited_spec t MAX_HEADER_LINE with ⟨front, rest, s, hof, hread, hrest, hf⟩ |
    ⟨front, s, hof, hread, hend, hf⟩ | ⟨-, taken, s, hread, -⟩ <;> rw [hread] at h
  · cases h
    split <;> rename_i hof' <;> rw [hof] at hof' <;> cases hof'
    rw [if_neg hne, hrest, hf]
  · obtain rfl : s = t' := congrArg Prod.snd h
    have hline : atEnd t.failure front = .ok (some line) := congrArg Prod.fst h
    split <;> rename_i hof' <;> rw [hof] at hof' <;> cases hof'
    rw [hend, hf, headerLines_nil]
    unfold atEnd at hline
    split at hline
    · cases hline
    · split at hline
      · cases hline
      · rename_i hnone _
        cases hline
        rw [hnone, if_neg (by simpa using hne)]
  · cases h

theorem headerLines_of_blank (h : readLineLimited t MAX_HEADER_LINE = (.ok (some ""), t')) :
    headerLines t.failure t.content = [] := by
  rw [headerLines]
  rcases readLineLimited_spec t MAX_HEADER_LINE with ⟨front, rest, s, hof, hread, hrest, hf⟩ |
    ⟨front, s, hof, hread, hend, hf⟩ | ⟨-, taken, s, hread, -⟩ <;> rw [hread] at h
  · have hfront : finishLine front = "" := by
      injection congrArg Prod.fst h with hsome
      exact Option.some.inj hsome
    split <;> rename_i hof' <;> rw [hof] at hof' <;> cases hof'
    exact if_pos hfront
  · have hline : atEnd t.failure front = .ok (some "") := congrArg Prod.fst h
    split <;> rename_i hof' <;> rw [hof] at hof' <;> cases hof'
    unfold atEnd at hline
    split at hline
    · cases hline
    · split at hline
      · cases hline
      · injection hline with hsome
        exact if_pos (Or.inr (Option.some.inj hsome))
  · cases h

/-- Where there is a header line it is read. -/
theorem read_of_headerLines {more : List String}
    (h : headerLines t.failure t.content = line :: more) :
    line ≠ "" ∧ ∃ t', readLineLimited t MAX_HEADER_LINE = (.ok (some line), t') := by
  rw [headerLines] at h
  rcases readLineLimited_spec t MAX_HEADER_LINE with ⟨front, rest, s, hof, hread, -⟩ |
    ⟨front, s, hof, hread, -⟩ | ⟨hof, -⟩
  · split at h <;> rename_i hof' <;> rw [hof] at hof' <;> cases hof'
    split at h
    · cases h
    · rename_i hne
      cases h
      exact ⟨hne, s, hread⟩
  · split at h <;> rename_i hof' <;> rw [hof] at hof' <;> cases hof'
    split at h
    · cases h
    · rename_i hne
      rw [not_or, Bool.not_eq_true, Option.isSome_eq_false_iff, Option.isNone_iff_eq_none] at hne
      cases h
      refine ⟨hne.2, s, ?_⟩
      have hfront : front ≠ [] := by
        rintro rfl
        exact hne.2 rfl
      rw [hread, hne.1]
      unfold atEnd
      dsimp only
      rw [if_neg hfront]
  · split at h <;> rename_i hof' <;> rw [hof] at hof' <;> cases hof'
    cases h

end

theorem readLineLimited_consumed {t t' : Feed UInt8 IoError} {max : Nat}
    {outcome : Except IoError (Option String)} (h : readLineLimited t max = (outcome, t')) :
    t.content.length ≤ t'.content.length + (max + 1) := by
  rcases readLineLimited_spec t max with ⟨front, rest, s, hof, hread, hrest, -⟩ |
    ⟨front, s, hof, hread, -⟩ | ⟨-, taken, s, hread, hc, hle⟩ <;> rw [hread] at h <;> cases h
  · obtain ⟨hc, -, hle⟩ := lineOf_eq_line hof
    rw [hc, hrest, List.length_append, List.length_cons]
    omega
  · have hle := (lineOf_eq_ended hof).2
    omega
  · rw [hc, List.length_append]
    omega

namespace Taken

variable {s t : Feed UInt8 IoError} {lines : List String} {headers : Map String String}

/-- The headers are those of the lines taken in, which are the first header lines of the stream. -/
theorem spec (h : Taken s lines headers t) : headers = lines.foldl addHeader ∅ ∧
    headerLines s.failure s.content = lines ++ headerLines t.failure t.content := by
  induction h with
  | start => exact ⟨rfl, rfl⟩
  | line h hread hne hsize ih =>
    obtain ⟨rfl, hlines⟩ := ih
    rw [headerLines_of_read hread hne] at hlines
    refine ⟨by rw [List.foldl_append]; rfl, ?_⟩
    rw [hlines, List.append_assoc, List.singleton_append]

theorem consumed (h : Taken s lines headers t) :
    s.content.length ≤ t.content.length + lines.length * (MAX_HEADER_LINE + 1) := by
  induction h with
  | start => rw [List.length_nil, Nat.zero_mul, Nat.add_zero]
  | line h hread hne hsize ih =>
    have hone := readLineLimited_consumed hread
    rw [List.length_append, List.length_singleton, Nat.add_mul, Nat.one_mul]
    omega

/-- Where the lines are counted, a full set of headers stops the loop. -/
theorem length_le (h : Taken s lines headers t)
    (hcounted : Counted (headerLines s.failure s.content)) : lines.length ≤ MAX_HEADERS := by
  induction h with
  | start => exact Nat.zero_le _
  | line h hread hne hsize ih =>
    obtain ⟨rfl, hlines⟩ := h.spec
    rw [headerLines_of_read hread hne] at hlines
    rw [List.length_append, List.length_singleton]
    rcases Nat.lt_or_eq_of_le ih with hlt | hfull
    · exact hlt
    · rcases hcounted with hfew | hdistinct
      · rw [hlines, List.length_append, List.length_cons] at hfew
        omega
      · rw [hlines, ← hfull, List.take_left, ← (size_foldl_addHeader _).2] at hdistinct
        omega

end Taken

/-- Where they are not, the loop goes past the limit. -/
theorem exists_taken {s : Feed UInt8 IoError}
    (h : ¬ Counted (headerLines s.failure s.content)) : ∀ k ≤ MAX_HEADERS + 1,
    ∃ headers t, Taken s ((headerLines s.failure s.content).take k) headers t := by
  rw [Counted, not_or, Nat.not_le] at h
  obtain ⟨hmany, hsame⟩ := h
  intro k
  induction k with
  | zero => exact fun _ => ⟨∅, s, .start⟩
  | succ k ih =>
    intro hk
    obtain ⟨headers, t, htaken⟩ := ih (Nat.le_of_succ_le hk)
    obtain ⟨hheaders, hlines⟩ := htaken.spec
    have hlt : k < (headerLines s.failure s.content).length := by omega
    have hleft : headerLines t.failure t.content =
        (headerLines s.failure s.content)[k] :: (headerLines s.failure s.content).drop (k + 1) := by
      rw [← List.drop_eq_getElem_cons hlt]
      have hboth : (headerLines s.failure s.content).take k ++ headerLines t.failure t.content =
          (headerLines s.failure s.content).take k ++ (headerLines s.failure s.content).drop k := by
        rw [← hlines, List.take_append_drop]
      exact List.append_cancel_left hboth
    have hsize : headers.size < MAX_HEADERS := by
      obtain ⟨hle, hiff⟩ := size_foldl_addHeader ((headerLines s.failure s.content).take k)
      rw [List.length_take_of_le (Nat.le_of_lt hlt)] at hle hiff
      rw [hheaders]
      rcases Nat.lt_or_eq_of_le (Nat.le_of_succ_le_succ hk) with hbelow | rfl
      · omega
      · exact Nat.lt_of_le_of_ne hle fun heq => hsame (hiff.mp heq)
    obtain ⟨hne, t', hread⟩ := read_of_headerLines hleft
    refine ⟨addHeader headers (headerLines s.failure s.content)[k], t', ?_⟩
    rw [List.take_succ_eq_append_getElem hlt]
    exact .line htaken hread hne hsize

theorem taken_le_iff {s : Feed UInt8 IoError} :
    (∀ lines headers t, Taken s lines headers t → lines.length ≤ MAX_HEADERS) ↔
      Counted (headerLines s.failure s.content) := by
  refine ⟨fun h => ?_, fun h lines headers t htaken => htaken.length_le h⟩
  by_contra hnot
  obtain ⟨headers, t, htaken⟩ := exists_taken hnot (MAX_HEADERS + 1) le_rfl
  have hle := h _ headers t htaken
  rw [Counted, not_or, Nat.not_le] at hnot
  rw [List.length_take_of_le hnot.1] at hle
  exact Nat.not_succ_le_self _ hle

/-- The state the loop stops in: one more line is read there at most, and no header line is left
where the headers are accepted. -/
theorem readHeaders_run {s t : Feed UInt8 IoError} {lines : List String}
    {headers : Map String String} (h : Taken s lines headers t) :
    ∃ lines' headers' t', Taken s lines' headers' t' ∧
      t'.content.length ≤ (readHeaders headers t).2.content.length + (MAX_HEADER_LINE + 1) ∧
      ∀ found, (readHeaders headers t).1 = .ok found →
        headerLines s.failure s.content = lines' := by
  rw [readHeaders]
  generalize hread : readLineLimited t MAX_HEADER_LINE = r
  obtain ⟨outcome, t'⟩ := r
  have hone := readLineLimited_consumed hread
  rcases outcome with e | _ | line
  · exact ⟨lines, headers, t, h, hone, fun found hf => by cases hf⟩
  · exact ⟨lines, headers, t, h, hone, fun found hf => by cases hf⟩
  · have hlt := readLineLimited_lt hread
    dsimp only
    split
    · rename_i hblank
      subst hblank
      refine ⟨lines, headers, t, h, hone, fun _ _ => ?_⟩
      rw [h.spec.2, headerLines_of_blank hread, List.append_nil]
    split
    · exact ⟨lines, headers, t, h, hone, fun found hf => by cases hf⟩
    · rename_i hne hfull
      exact readHeaders_run (.line h hread hne (Nat.lt_of_not_le hfull))
termination_by t.content.length

theorem readBody_consumed (s : Feed UInt8 IoError) (length : Nat) :
    s.content.length ≤ (readBody s length).2.content.length + length := by
  rcases s.readExact_spec length with ⟨-, s', hread, hc, -⟩ | ⟨hlt, s', hread, -⟩
  · rw [readBody, hread]
    dsimp only
    rw [hc, List.length_drop]
    omega
  · have hle : s.content.length ≤ length := Nat.le_of_lt hlt
    exact Nat.le_add_left_of_le hle

theorem framing_le {target : String} {headers : Map String String} {length : Nat}
    (h : framing target headers = .ok length) : length ≤ bodyLimit target := by
  unfold framing at h
  split at h
  · cases h
  · split at h
    · cases h
    · rename_i hle
      split at h
      · cases h
      · cases h
        exact Nat.le_of_not_lt hle

/-- What the headers of one request may take, with the line that ends them. -/
def headersBound : Nat := (MAX_HEADERS + 1) * (MAX_HEADER_LINE + 1)

theorem readRest_bounded {method target version : String} {s : Feed UInt8 IoError}
    (h : ∀ lines headers t, Taken s lines headers t → lines.length ≤ MAX_HEADERS) :
    s.content.length ≤ (readRest method target version s).2.content.length +
        (headersBound + bodyLimit target) ∧
      ∀ request, (readRest method target version s).1 = .ok (.request request) →
        (headerLines s.failure s.content).length ≤ MAX_HEADERS := by
  obtain ⟨lines, headers, t, htaken, hstop, hall⟩ := readHeaders_run (Taken.start (s := s))
  have hfew := h lines headers t htaken
  have htook := htaken.consumed
  have hhead : s.content.length ≤ (readHeaders ∅ s).2.content.length + headersBound := by
    have hmul : lines.length * (MAX_HEADER_LINE + 1) ≤ MAX_HEADERS * (MAX_HEADER_LINE + 1) :=
      Nat.mul_le_mul_right _ hfew
    rw [headersBound, Nat.add_mul, Nat.one_mul]
    omega
  unfold readRest
  generalize readHeaders ∅ s = r at hhead hall
  obtain ⟨outcome, s'⟩ := r
  cases outcome with
  | error stop =>
    exact ⟨by dsimp only at hhead ⊢; omega, fun request hr => absurd hr (stop.answer_ne request)⟩
  | ok found =>
    have hcount : (headerLines s.failure s.content).length ≤ MAX_HEADERS := by
      rw [hall found rfl]
      exact hfew
    dsimp only
    cases hframing : framing target found with
    | error stop =>
      exact ⟨by dsimp only at hhead ⊢; omega, fun request hr => absurd hr (stop.answer_ne request)⟩
    | ok length =>
      have hbody := readBody_consumed s' length
      have hlimit := framing_le hframing
      dsimp only
      generalize readBody s' length = r at hbody
      obtain ⟨outcome, s''⟩ := r
      cases outcome with
      | error stop => exact ⟨by dsimp only at hbody hhead ⊢; omega, fun _ _ => hcount⟩
      | ok body => exact ⟨by dsimp only at hbody hhead ⊢; omega, fun _ _ => hcount⟩

/-! ## The whole request -/

/-- The target the stream asks for. -/
def requestTarget (content : Bytes) : Option String :=
  match lineOf MAX_REQUEST_LINE content with
  | .line front _ | .ended front => (splitWhitespace (finishLine front))[1]?
  | .tooLong => none

/-- What follows the request line. -/
def afterRequestLine (content : Bytes) : Bytes :=
  match lineOf MAX_REQUEST_LINE content with
  | .line _ rest => rest
  | _ => []

/-- The header lines of the request a stream begins with. -/
def requestHeaders (s : Feed UInt8 IoError) : List String :=
  if (requestTarget s.content).isSome then headerLines s.failure (afterRequestLine s.content) else []

/-- A number of bytes that the limits and the route fix. -/
def requestBound (content : Bytes) : Nat :=
  (MAX_REQUEST_LINE + 1) + (headersBound + ((requestTarget content).map bodyLimit).getD 0)

/-- The states of the header loop in the reading of a request. -/
def TakenIn (s : Feed UInt8 IoError) (lines : List String) : Prop :=
  ∃ line t, readLineLimited s MAX_REQUEST_LINE = (.ok (some line), t) ∧
    2 ≤ (splitWhitespace line).length ∧ ∃ headers t', Taken t lines headers t'

/-- No more header lines are taken in than headers may be, whatever comes after them. -/
def Limited (s : Feed UInt8 IoError) : Prop :=
  ∀ lines, TakenIn s lines → lines.length ≤ MAX_HEADERS

/-- The reading of a request is bounded: in all it takes off the stream, and in the header lines of
what it accepts. -/
structure Bounded (s : Feed UInt8 IoError) : Prop where
  consumed : s.content.length ≤ (readRequest s).2.content.length + requestBound s.content
  accepted : ∀ request, (readRequest s).1 = .ok (.request request) →
    (requestHeaders s).length ≤ MAX_HEADERS

/-- A request line that is read is the line of the stream, and the rest comes after it. -/
theorem afterRequestLine_of_read {s t : Feed UInt8 IoError} {line : String}
    (h : readLineLimited s MAX_REQUEST_LINE = (.ok (some line), t)) :
    t.content = afterRequestLine s.content ∧ t.failure = s.failure ∧
      requestTarget s.content = (splitWhitespace line)[1]? := by
  rcases readLineLimited_spec s MAX_REQUEST_LINE with ⟨front, rest, s', hof, hread, hrest, hf⟩ |
    ⟨front, s', hof, hread, hend, hf⟩ | ⟨-, taken, s', hread, -⟩ <;> rw [hread] at h
  · cases h
    refine ⟨?_, hf, ?_⟩
    · rw [afterRequestLine, hof, hrest]
    · rw [requestTarget, hof]
  · obtain rfl : s' = t := congrArg Prod.snd h
    have hline : atEnd s.failure front = .ok (some line) := congrArg Prod.fst h
    unfold atEnd at hline
    split at hline
    · cases hline
    · split at hline
      · cases hline
      · cases hline
        refine ⟨?_, hf, ?_⟩
        · rw [afterRequestLine, hof, hend]
        · rw [requestTarget, hof]
  · cases h

theorem requestHeaders_of_read {s t : Feed UInt8 IoError} {line : String}
    (h : readLineLimited s MAX_REQUEST_LINE = (.ok (some line), t)) :
    requestHeaders s =
      if 2 ≤ (splitWhitespace line).length then headerLines t.failure t.content else [] := by
  obtain ⟨hrest, hf, htarget⟩ := afterRequestLine_of_read h
  rw [requestHeaders, htarget, hrest, hf]
  simp only [isSome_getElem?]
  rfl

/-- Without a request line there are no header lines. -/
theorem requestHeaders_of_no_line {s : Feed UInt8 IoError}
    (h : ∀ line, (readLineLimited s MAX_REQUEST_LINE).1 ≠ .ok (some line)) :
    requestHeaders s = [] := by
  unfold requestHeaders
  split
  · rename_i htarget
    rcases readLineLimited_spec s MAX_REQUEST_LINE with ⟨front, rest, s', -, hread, -⟩ |
      ⟨front, s', hof, -⟩ | ⟨hof, -⟩
    · exact absurd (by rw [hread]) (h (finishLine front))
    · rw [afterRequestLine, hof]
      exact headerLines_nil _
    · rw [requestTarget, hof] at htarget
      cases htarget
  · rfl

theorem takenIn_le_iff {s : Feed UInt8 IoError} :
    Limited s ↔ Counted (requestHeaders s) := by
  by_cases hread : ∃ line t, readLineLimited s MAX_REQUEST_LINE = (.ok (some line), t)
  · obtain ⟨line, t, hread⟩ := hread
    rw [requestHeaders_of_read hread]
    by_cases htwo : 2 ≤ (splitWhitespace line).length
    · rw [if_pos htwo, ← taken_le_iff]
      constructor
      · exact fun h lines headers t' htaken => h lines ⟨line, t, hread, htwo, headers, t', htaken⟩
      · rintro h lines ⟨line', t₁, hread', -, headers, t', htaken⟩
        rw [hread] at hread'
        cases hread'
        exact h lines headers t' htaken
    · rw [if_neg htwo]
      refine ⟨fun _ => Or.inl (Nat.zero_le _), ?_⟩
      rintro - lines ⟨line', t₁, hread', htwo', -⟩
      rw [hread] at hread'
      cases hread'
      exact absurd htwo' htwo
  · have hnone : requestHeaders s = [] := requestHeaders_of_no_line fun line hline =>
      hread ⟨line, (readLineLimited s MAX_REQUEST_LINE).2, Prod.ext hline rfl⟩
    rw [hnone]
    refine ⟨fun _ => Or.inl (Nat.zero_le _), ?_⟩
    rintro - lines ⟨line, t, hline, -⟩
    exact absurd ⟨line, t, hline⟩ hread

theorem readRequest_bounded {s : Feed UInt8 IoError} (h : Counted (requestHeaders s)) :
    Bounded s := by
  suffices hboth : s.content.length ≤ (readRequest s).2.content.length + requestBound s.content ∧
      ∀ request, (readRequest s).1 = .ok (.request request) →
        (requestHeaders s).length ≤ MAX_HEADERS from ⟨hboth.1, hboth.2⟩
  generalize hread : readLineLimited s MAX_REQUEST_LINE = r
  obtain ⟨outcome, t⟩ := r
  have hone := readLineLimited_consumed hread
  have hbound : MAX_REQUEST_LINE + 1 ≤ requestBound s.content := Nat.le_add_right _ _
  have hsmall : s.content.length ≤ t.content.length + requestBound s.content :=
    hone.trans (Nat.add_le_add_left hbound _)
  rw [readRequest, hread]
  rcases outcome with e | _ | line
  · exact ⟨hsmall, fun request hr => absurd hr (Stop.answer_ne _ request)⟩
  · exact ⟨hsmall, fun request hr => by cases hr⟩
  · dsimp only
    split
    · exact ⟨hsmall, fun request hr => by cases hr⟩
    split
    · rename_i method target version htokens
      have htwo : 2 ≤ (splitWhitespace line).length := by
        rw [htokens, List.length_cons, List.length_cons]
        omega
      have hheaders := requestHeaders_of_read hread
      rw [if_pos htwo] at hheaders
      rw [hheaders] at h ⊢
      obtain ⟨hrest, haccepted⟩ :=
        @readRest_bounded method target (version.head?.getD "HTTP/1.1") _ (taken_le_iff.mpr h)
      have htarget := (afterRequestLine_of_read hread).2.2
      rw [htokens, List.getElem?_cons_succ, List.getElem?_cons_zero] at htarget
      refine ⟨?_, haccepted⟩
      rw [requestBound, htarget, Option.map_some, Option.getD_some]
      omega
    · exact ⟨hsmall, fun request hr => by cases hr⟩

/-- The reading of a request is bounded, and would be whatever came after its header lines, exactly
where these are counted. -/
theorem bounded_iff (s : Feed UInt8 IoError) :
    Limited s ∧ Bounded s ↔ Counted (requestHeaders s) :=
  ⟨fun h => takenIn_le_iff.mp h.1, fun h => ⟨takenIn_le_iff.mpr h, readRequest_bounded h⟩⟩

/-! ## Without end -/

/-- A header named again and again. -/
def repeated : TextLine := ⟨[97, 58, 98], .lf⟩

def repeatedLines (n : Nat) : List TextLine := List.replicate n repeated

def repeatedHeaders : Map String String := (∅ : Map String String).insert "a" "b"

theorem addHeader_repeated : addHeader repeatedHeaders repeated.read = repeatedHeaders := by
  have hread : headerOf repeated.read = some ("a", "b") := by decide +kernel
  rw [addHeader, hread]
  dsimp only
  apply Std.ExtTreeMap.ext_getElem?
  intro name
  rw [getElem?_insert_eq]
  split
  · rename_i hname
    rw [← hname, repeatedHeaders, getElem?_insert_eq, if_pos rfl]
  · rfl

theorem repeated_within : repeated.Within MAX_HEADER_LINE := by
  refine ⟨by decide, by decide, fun _ => by decide⟩

theorem repeated_ne : repeated.read ≠ "" := by decide +kernel

theorem readHeaders_repeated {blank : LineEnd} {rest : Bytes} :
    ∀ (n : Nat) {s : Feed UInt8 IoError}, s.content =
      (repeatedLines n).flatMap TextLine.bytes ++ ((⟨[], blank⟩ : TextLine).bytes ++ rest) →
    ∃ s', readHeaders repeatedHeaders s = (.ok repeatedHeaders, s') ∧ s'.content = rest ∧
      s'.failure = s.failure := by
  intro n
  induction n with
  | zero =>
    intro s hc
    obtain ⟨s', hread, hrest, hf⟩ := (blank_within blank).read_ok (fun _ => Nat.succ_pos _) hc
    refine ⟨s', ?_, hrest, hf⟩
    have hempty : (⟨[], blank⟩ : TextLine).read = "" := rfl
    rw [readHeaders, hread]
    exact if_pos hempty
  | succ n ih =>
    intro s hc
    rw [repeatedLines, List.replicate_succ, List.flatMap_cons, List.append_assoc] at hc
    obtain ⟨s₁, hread, hrest, hf⟩ := repeated_within.read_ok (by rintro ⟨⟩) hc
    obtain ⟨s', hnext, hrest', hf'⟩ := ih hrest
    refine ⟨s', ?_, hrest', hf'.trans hf⟩
    rw [readHeaders, hread]
    dsimp only
    rw [if_neg repeated_ne, if_neg (by decide +kernel), addHeader_repeated, hnext]

theorem headerLines_repeated : ∀ (n : Nat) {s : Feed UInt8 IoError},
    s.content = (repeatedLines n).flatMap TextLine.bytes ++ (⟨[], .lf⟩ : TextLine).bytes →
    headerLines s.failure s.content = List.replicate n repeated.read := by
  intro n
  induction n with
  | zero =>
    intro s hc
    have hblank : s.content = (⟨[], .lf⟩ : TextLine).bytes ++ [] :=
      hc.trans (List.append_nil _).symm
    obtain ⟨s', hread, -⟩ := (blank_within .lf).read_ok (by rintro ⟨⟩) hblank
    exact headerLines_of_blank hread
  | succ n ih =>
    intro s hc
    rw [repeatedLines, List.replicate_succ, List.flatMap_cons, List.append_assoc] at hc
    obtain ⟨s₁, hread, hrest, -⟩ := repeated_within.read_ok (by rintro ⟨⟩) hc
    rw [headerLines_of_read hread repeated_ne, ih hrest, List.replicate_succ]

/-- A request of one header, on more and more lines. -/
def flood (n : Nat) : Feed UInt8 IoError where
  pieces := [(⟨utf8 "GET /", .lf⟩ : TextLine).bytes, (repeatedLines (n + 1)).flatMap TextLine.bytes,
    (⟨[], .lf⟩ : TextLine).bytes]

theorem flood_content (n : Nat) : (flood n).content = (⟨utf8 "GET /", .lf⟩ : TextLine).bytes ++
    ((repeatedLines (n + 1)).flatMap TextLine.bytes ++ (⟨[], .lf⟩ : TextLine).bytes) := by
  simp only [Feed.content, flood, List.flatten_cons, List.flatten_nil, List.append_nil]

theorem get_within : (⟨utf8 "GET /", .lf⟩ : TextLine).Within MAX_REQUEST_LINE :=
  ⟨by decide +kernel, by decide +kernel, fun _ => by decide +kernel⟩

theorem flood_read (n : Nat) : ∃ t, readLineLimited (flood n) MAX_REQUEST_LINE =
    (.ok (some "GET /"), t) ∧ t.content = (repeatedLines (n + 1)).flatMap TextLine.bytes ++
      (⟨[], .lf⟩ : TextLine).bytes := by
  obtain ⟨t, hread, hrest, -⟩ := get_within.read_ok (by rintro ⟨⟩) (flood_content n)
  have hline : (⟨utf8 "GET /", .lf⟩ : TextLine).read = "GET /" := fromUtf8Lossy_utf8 _
  rw [hline] at hread
  exact ⟨t, hread, hrest⟩

theorem flood_accepted (n : Nat) : ∃ request t, readRequest (flood n) = (.ok (.request request), t) ∧
    t.content = [] := by
  obtain ⟨t, hread, hrest⟩ := flood_read n
  have hempty : (∅ : Map String String).size = 0 := Std.ExtTreeMap.size_empty
  have hfirst : addHeader ∅ repeated.read = repeatedHeaders := by
    rw [addHeader, show headerOf repeated.read = some ("a", "b") by decide +kernel, repeatedHeaders]
  rw [repeatedLines, List.replicate_succ, List.flatMap_cons, List.append_assoc] at hrest
  obtain ⟨t₁, hone, hrest₁, -⟩ := repeated_within.read_ok (by rintro ⟨⟩) hrest
  rw [← List.append_nil (⟨[], .lf⟩ : TextLine).bytes] at hrest₁
  obtain ⟨t₂, hmore, hrest₂, -⟩ := readHeaders_repeated n hrest₁
  have hheaders : readHeaders ∅ t = (.ok repeatedHeaders, t₂) := by
    rw [readHeaders, hone]
    dsimp only
    rw [if_neg repeated_ne, hempty, if_neg (by decide), hfirst, hmore]
  have hframing : framing "/" repeatedHeaders = .ok 0 := by
    have hlength : contentLength repeatedHeaders = some 0 := by decide +kernel
    have hchunked : isChunked repeatedHeaders = false := by decide +kernel
    rw [framing, hlength]
    dsimp only
    rw [if_neg (Nat.not_lt_zero _), hchunked]
    rfl
  obtain ⟨t₃, hbody, hrest₃, -⟩ := readBody_ok (hrest₂.trans (List.nil_append _).symm)
  refine ⟨requestOf "GET" "/" "HTTP/1.1" repeatedHeaders [], t₃, ?_, hrest₃⟩
  have htokens : splitWhitespace "GET /" = ["GET", "/"] := by decide +kernel
  have htrim : trim "GET /" ≠ "" := by decide +kernel
  rw [readRequest, hread]
  dsimp only
  rw [if_neg htrim, htokens]
  dsimp only
  rw [readRest, hheaders]
  dsimp only
  rw [hframing]
  dsimp only
  rw [show readBody t₂ 0 = (.ok [], t₃) from hbody]
  rfl

theorem flood_headers (n : Nat) : (requestHeaders (flood n)).length = n + 1 := by
  obtain ⟨t, hread, hrest⟩ := flood_read n
  rw [requestHeaders_of_read hread, if_pos (by decide +kernel), headerLines_repeated (n + 1) hrest,
    List.length_replicate]

theorem flood_target (n : Nat) : requestTarget (flood n).content = some "/" := by
  obtain ⟨t, hread, -⟩ := flood_read n
  rw [(afterRequestLine_of_read hread).2.2]
  decide +kernel

/-- A request of more header lines than headers may be is accepted, and no number of bytes bounds
what one may take, on this route alone. -/
theorem headers_unbounded :
    (∃ request, (readRequest (flood 64)).1 = .ok (.request request)) ∧
    MAX_HEADERS < (requestHeaders (flood 64)).length ∧
    ¬ ∃ limit, ∀ s : Feed UInt8 IoError, requestTarget s.content = some "/" →
      s.content.length ≤ (readRequest s).2.content.length + limit := by
  refine ⟨?_, ?_, ?_⟩
  · obtain ⟨request, t, hread, -⟩ := flood_accepted 64
    exact ⟨request, by rw [hread]⟩
  · rw [flood_headers]
    decide
  · rintro ⟨limit, h⟩
    obtain ⟨request, t, hread, hrest⟩ := flood_accepted limit
    have hle := h (flood limit) (flood_target limit)
    have hlines : ∀ n, n ≤ ((repeatedLines n).flatMap TextLine.bytes).length := by
      intro n
      rw [repeatedLines, List.length_flatMap, List.map_replicate, List.sum_replicate]
      exact Nat.le_mul_of_pos_right n (by decide)
    have hlong := hlines (limit + 1)
    rw [hread, hrest, flood_content, List.length_append, List.length_append] at hle
    dsimp only [List.length_nil] at hle
    omega

end Http

end RustyPick
