import RustyPick.MetaFile
import RustyPick.Queue
import Mathlib.Data.List.Sort

/-!
# RustyPick.StateFile

The checksummed text files kept beside the records (`db/statefile.rs`), and the two a file may have:
the `queue` book (`db/queue.rs`) and the `autokey` counter (`db/sequence.rs`).

* `readState_writeState`: a book whose keys hold no line break reads back, with its entries sorted.
* `readAutokey_writeAutokey`: a counter reads back.
-/

namespace RustyPick

open Lib

/-! ## Text -/

/-- `str::strip_prefix`. -/
def stripFront (front cs : List Char) : Option (List Char) :=
  if front.isPrefixOf cs then some (cs.drop front.length) else none

/-- `str::rsplit_once`. -/
def rsplitOnce (c : Char) (cs : List Char) : Option (List Char × List Char) :=
  match splitOnce c cs.reverse with
  | none => none
  | some (after, before) => some (before.reverse, after.reverse)

/-- `str::parse::<u32>`. -/
def parseU32 (s : String) : Option Nat := (parseU64 s).filter fun n => n ≤ u32Max

theorem parseU64_le {s : String} {n : Nat} (h : parseU64 s = some n) : n ≤ u64Max := by
  have hdigits : ∀ cs, parseDigits cs = some n → n ≤ u64Max := by
    intro cs hcs
    unfold parseDigits at hcs
    split at hcs
    · cases hcs
    · simp only [Option.ite_none_right_eq_some, Option.some.injEq] at hcs
      rw [← hcs.2]
      exact hcs.1
  unfold parseU64 at h
  split at h
  · exact hdigits _ h
  · exact hdigits _ h

theorem parseU64_getD_le (s : String) : (parseU64 s).getD 0 ≤ u64Max := by
  cases h : parseU64 s with
  | none => exact Nat.zero_le _
  | some n => exact parseU64_le h

/-! ## The checksummed file -/

/-- `statefile::read`, for a caller to whom an unreadable file is an absent one. -/
def readStateFile (file : Option Bytes) : Option (List Char) := do
  let content ← fromUtf8? (← file)
  let (checksumLine, body) ← splitOnce '\n' content.toList
  let recorded ← stripFront "checksum=".toList checksumLine
  let recorded ← parseHex32 (trim (String.ofList recorded))
  if recorded = (crc32c (utf8 (String.ofList body))).toNat then some body else none

/-- `statefile::write`: what is renamed into place. -/
def stateFileBytes (body : String) : Bytes :=
  utf8 ("checksum=" ++ hex8 (crc32c (utf8 body)).toNat ++ "\n" ++ body)

/-- The value of one `name=value` line. -/
def stateField (name : String) (body : List Char) : Option String :=
  ((lines body).findSome? fun line =>
    (stripFront name.toList line).bind (stripFront ['='])).map fun value => trim (String.ofList value)

/-! ## The queue's book -/

namespace PersistedQueue

/-- A `key:number` entry, the key being everything up to the last colon. -/
def readEntry (parse : String → Option Nat) (entry : List Char) : Option (String × Nat) :=
  (rsplitOnce ':' entry).bind fun (key, number) =>
    (parse (trim (String.ofList number))).map fun number => (String.ofList key, number)

def readLine (state : PersistedQueue) (line : List Char) : PersistedQueue :=
  match stripFront "next=".toList line with
  | some next =>
    { state with
      nextSequence := (parseU64 (trim (String.ofList next))).getD 0
      next_le := parseU64_getD_le _ }
  | none =>
    match (stripFront "deliveries=".toList line).bind (readEntry parseU32) with
    | some entry => { state with deliveries := state.deliveries ++ [entry] }
    | none =>
      match (stripFront "due=".toList line).bind (readEntry parseU64) with
      | some entry => { state with due := state.due ++ [entry] }
      | none => state

/-- `read_state`. A line that does not parse is passed over. -/
def readState (file : Option Bytes) : Option PersistedQueue :=
  (readStateFile file).map fun body => (lines body).foldl readLine .absent

/-- The entries of a book, in the order they are written in. -/
def sorted (entries : List (String × Nat)) : List (String × Nat) :=
  entries.insertionSort fun a b => toLex a ≤ toLex b

def entryLine (name : String) (entry : String × Nat) : String :=
  name ++ "=" ++ entry.1 ++ ":" ++ toString entry.2 ++ "\n"

def stateBody (state : PersistedQueue) : String :=
  "next=" ++ toString state.nextSequence ++ "\n" ++
    String.join ((sorted state.deliveries).map (entryLine "deliveries")) ++
    String.join ((sorted state.due).map (entryLine "due"))

/-- `write_state`. -/
def writeState (state : PersistedQueue) : Bytes := stateFileBytes state.stateBody

end PersistedQueue

/-! ## The autokey counter -/

/-- `read_autokey`. -/
def readAutokey (file : Option Bytes) : Option Nat := do
  let body ← readStateFile file
  parseU64 (← stateField "next" body)

/-- `write_autokey`. -/
def writeAutokey (next : Nat) : Bytes := stateFileBytes ("next=" ++ toString next ++ "\n")

/-! ## Round trips -/

theorem stripFront_append (front rest : List Char) : stripFront front (front ++ rest) = some rest := by
  have : front.isPrefixOf (front ++ rest) = true := List.isPrefixOf_iff_prefix.mpr (by simp)
  simp [stripFront, this]

theorem stripFront_of_head {front rest : List Char} {c : Char}
    (h : front.head? ≠ some c) (hne : front ≠ []) : stripFront front (c :: rest) = none := by
  cases front with
  | nil => exact absurd rfl hne
  | cons d front =>
    have : d ≠ c := fun hd => h (by rw [hd]; rfl)
    simp [stripFront, this]

theorem rsplitOnce_append {c : Char} (a : List Char) {b : List Char} (h : ∀ x ∈ b, x ≠ c) :
    rsplitOnce c (a ++ c :: b) = some (a, b) := by
  have hsplit : splitOnce c (a ++ c :: b).reverse = some (b.reverse, a.reverse) := by
    rw [List.reverse_append, List.reverse_cons, List.append_assoc, List.singleton_append]
    exact splitOnce_append _ fun x hx => h x (List.mem_reverse.mp hx)
  simp only [rsplitOnce, hsplit, List.reverse_reverse]

theorem readStateFile_stateFileBytes (body : String) :
    readStateFile (some (stateFileBytes body)) = some body.toList := by
  have hcrc : (crc32c (utf8 body)).toNat < 2 ^ 32 := UInt32.toNat_lt _
  have htext : ("checksum=" ++ hex8 (crc32c (utf8 body)).toNat ++ "\n" ++ body).toList =
      ("checksum=".toList ++ (hex8 (crc32c (utf8 body)).toNat).toList) ++ '\n' :: body.toList := by
    simp [String.toList_append]
  have hsplit : splitOnce '\n'
      (("checksum=".toList ++ (hex8 (crc32c (utf8 body)).toNat).toList) ++ '\n' :: body.toList) =
      some ("checksum=".toList ++ (hex8 (crc32c (utf8 body)).toNat).toList, body.toList) := by
    apply splitOnce_append
    intro x hx
    rcases List.mem_append.mp hx with hx | hx
    · have : ∀ y ∈ "checksum=".toList, y ≠ '\n' := by simp
      exact this x hx
    · exact plainChar.ne (plain_hex8 _ x hx) '\n' (by decide)
  simp only [readStateFile, stateFileBytes, fromUtf8?_utf8, Option.bind_eq_bind, Option.bind_some,
    htext, hsplit, stripFront_append, String.ofList_toList, trim_hex8, parseHex32_hex8 hcrc,
    if_true]

namespace PersistedQueue

/-- A key a book can hold on one line. -/
def KeyText (key : String) : Prop := '\n' ∉ key.toList

theorem readEntry_entry {parse : String → Option Nat} (key : String) {n : Nat}
    (hparse : parse (toString n) = some n) :
    readEntry parse (key.toList ++ ':' :: (toString n).toList) = some (key, n) := by
  have hcolon : ∀ x ∈ (toString n).toList, x ≠ ':' := by
    intro x hx hc
    have hd : (toString n).toList = Nat.toDigits 10 n := Nat.toList_repr
    rw [hd] at hx
    have := Nat.isDigit_of_mem_toDigits (by decide) (by decide) hx
    rw [hc] at this
    exact absurd this (by decide)
  simp only [readEntry, rsplitOnce_append key.toList hcolon, Option.bind_some,
    String.ofList_toList, trim_repr, hparse, Option.map_some]

theorem parseU32_repr {n : Nat} (h : n ≤ u32Max) : parseU32 (toString n) = some n := by
  have hle : n ≤ u64Max := le_trans h (by decide)
  rw [parseU32, parseU64_repr hle]
  simp [h]

/-- The line of an entry, without its line break. -/
def entryText (name : String) (entry : String × Nat) : List Char :=
  name.toList ++ '=' :: (entry.1.toList ++ ':' :: (toString entry.2).toList)

theorem entryText_line {name : String} {entry : String × Nat} (hname : name.toList.all plainChar)
    (hkey : KeyText entry.1) :
    '\n' ∉ entryText name entry ∧ (entryText name entry).getLast? ≠ some '\r' := by
  have hdigits : ∀ c ∈ (toString entry.2).toList, c ≠ '\n' ∧ c ≠ '\r' := fun c hc =>
    ⟨plainChar.ne (plain_toDigits _ c hc) _ (by decide),
      plainChar.ne (plain_toDigits _ c hc) _ (by decide)⟩
  constructor
  · intro hc
    simp only [entryText, List.mem_append, List.mem_cons] at hc
    rcases hc with hc | hc | hc | hc | hc
    · exact plainChar.ne (List.all_eq_true.mp hname _ hc) '\n' (by decide) rfl
    · exact absurd hc (by decide)
    · exact hkey hc
    · exact absurd hc (by decide)
    · exact (hdigits _ hc).1 rfl
  · intro hc
    have hne : (toString entry.2).toList ≠ [] := by
      have hd : (toString entry.2).toList = Nat.toDigits 10 entry.2 := Nat.toList_repr
      rw [hd]
      exact Nat.toDigits_ne_nil
    have hlast : (entryText name entry).getLast? = (toString entry.2).toList.getLast? := by
      rw [entryText, List.getLast?_append, List.getLast?_cons, List.getLast?_append,
        List.getLast?_cons, List.getLast?_eq_some_getLast hne]
      simp
    rw [hlast] at hc
    exact (hdigits _ (List.mem_of_getLast? hc)).2 rfl

theorem readLine_deliveries (state : PersistedQueue) (key : String) {n : Nat} (h : n ≤ u32Max) :
    readLine state (entryText "deliveries" (key, n)) =
      { state with deliveries := state.deliveries ++ [(key, n)] } := by
  have htext : entryText "deliveries" (key, n) =
      "deliveries=".toList ++ (key.toList ++ ':' :: (toString n).toList) := by
    simp [entryText]
  have hnext : stripFront "next=".toList (entryText "deliveries" (key, n)) = none :=
    stripFront_of_head (c := 'd') (by decide) (by decide)
  have hentry : stripFront "deliveries=".toList (entryText "deliveries" (key, n)) =
      some (key.toList ++ ':' :: (toString n).toList) := by
    rw [htext, stripFront_append]
  simp only [readLine, hnext, hentry, Option.bind_some, readEntry_entry key (parseU32_repr h)]

theorem readLine_due (state : PersistedQueue) (key : String) {n : Nat} (h : n ≤ u64Max) :
    readLine state (entryText "due" (key, n)) = { state with due := state.due ++ [(key, n)] } := by
  have htext : entryText "due" (key, n) =
      "due=".toList ++ (key.toList ++ ':' :: (toString n).toList) := by
    simp [entryText]
  have hnext : stripFront "next=".toList (entryText "due" (key, n)) = none :=
    stripFront_of_head (c := 'd') (by decide) (by decide)
  have hcount : stripFront "deliveries=".toList (entryText "due" (key, n)) = none := by
    simp [stripFront, entryText]
  have hentry : stripFront "due=".toList (entryText "due" (key, n)) =
      some (key.toList ++ ':' :: (toString n).toList) := by
    rw [htext, stripFront_append]
  simp only [readLine, hnext, hcount, hentry, Option.bind_some, Option.bind_none,
    readEntry_entry key (parseU64_repr h)]

theorem readLine_next (state : PersistedQueue) {n : Nat} (h : n ≤ u64Max) :
    readLine state (metaEntry "next" (toString n).toList) =
      { state with nextSequence := n, next_le := h } := by
  have hnext : stripFront "next=".toList (metaEntry "next" (toString n).toList) =
      some (toString n).toList := stripFront_append "next=".toList _
  simp only [readLine, hnext, String.ofList_toList, trim_repr, parseU64_repr h, Option.getD_some]

theorem foldl_deliveries {entries : List (String × Nat)} (h : ∀ e ∈ entries, e.2 ≤ u32Max) :
    ∀ state : PersistedQueue, (entries.map (entryText "deliveries")).foldl readLine state =
      { state with deliveries := state.deliveries ++ entries } := by
  induction entries with
  | nil => intro state; simp
  | cons e entries ih =>
    intro state
    rw [List.map_cons, List.foldl_cons, readLine_deliveries state e.1 (h e List.mem_cons_self),
      ih fun e' he' => h e' (List.mem_cons_of_mem _ he')]
    simp

theorem foldl_due {entries : List (String × Nat)} (h : ∀ e ∈ entries, e.2 ≤ u64Max) :
    ∀ state : PersistedQueue, (entries.map (entryText "due")).foldl readLine state =
      { state with due := state.due ++ entries } := by
  induction entries with
  | nil => intro state; simp
  | cons e entries ih =>
    intro state
    rw [List.map_cons, List.foldl_cons, readLine_due state e.1 (h e List.mem_cons_self),
      ih fun e' he' => h e' (List.mem_cons_of_mem _ he')]
    simp

theorem mem_sorted {entries : List (String × Nat)} {e : String × Nat} :
    e ∈ sorted entries ↔ e ∈ entries := List.mem_insertionSort _

/-- A book that can be written down. -/
structure Written (state : PersistedQueue) : Prop where
  deliveries : ∀ e ∈ state.deliveries, KeyText e.1 ∧ e.2 ≤ u32Max
  due : ∀ e ∈ state.due, KeyText e.1 ∧ e.2 ≤ u64Max

def bookLines (state : PersistedQueue) : List (List Char) :=
  metaEntry "next" (toString state.nextSequence).toList ::
    ((sorted state.deliveries).map (entryText "deliveries") ++
      (sorted state.due).map (entryText "due"))

theorem toList_join_entries (name : String) (entries : List (String × Nat)) :
    (String.join (entries.map (entryLine name))).toList =
      (entries.map (entryText name)).flatMap fun l => l ++ ['\n'] := by
  rw [String.toList_join, List.flatMap_map, List.flatMap_map]
  congr 1
  funext e
  simp [entryLine, entryText, String.toList_append]

theorem stateBody_toList (state : PersistedQueue) :
    state.stateBody.toList = (bookLines state).flatMap fun l => l ++ ['\n'] := by
  rw [bookLines, List.flatMap_cons, List.flatMap_append, ← toList_join_entries,
    ← toList_join_entries]
  simp [stateBody, metaEntry, String.toList_append]

theorem lines_stateBody {state : PersistedQueue} (h : state.Written) :
    lines state.stateBody.toList = bookLines state := by
  rw [stateBody_toList]
  apply lines_join
  intro l hl
  rcases List.mem_cons.mp hl with rfl | hl
  · have hplain := @metaEntry_plain "next" _ (by decide) (plain_toDigits state.nextSequence)
    exact ⟨fun hc => (hplain _ hc).1 rfl, fun hc => (hplain _ (List.mem_of_getLast? hc)).2 rfl⟩
  rcases List.mem_append.mp hl with hl | hl
  · obtain ⟨e, he, rfl⟩ := List.mem_map.mp hl
    exact entryText_line (by decide) (h.deliveries e (mem_sorted.mp he)).1
  · obtain ⟨e, he, rfl⟩ := List.mem_map.mp hl
    exact entryText_line (by decide) (h.due e (mem_sorted.mp he)).1

theorem readState_writeState {state : PersistedQueue} (h : state.Written) :
    readState (some (writeState state)) = some
      { nextSequence := state.nextSequence
        next_le := state.next_le
        deliveries := sorted state.deliveries
        due := sorted state.due } := by
  rw [readState, writeState, readStateFile_stateFileBytes, Option.map_some, lines_stateBody h,
    bookLines, List.foldl_cons, readLine_next _ state.next_le, List.foldl_append,
    foldl_deliveries fun e he => (h.deliveries e (mem_sorted.mp he)).2,
    foldl_due fun e he => (h.due e (mem_sorted.mp he)).2]
  rfl

/-! ## What can be read -/

theorem not_mem_splitOn {c : Char} : ∀ {cs l : List Char}, l ∈ cs.splitOn c → c ∉ l := by
  intro cs
  induction cs with
  | nil =>
    intro l hl
    rw [List.splitOn_nil, List.mem_singleton] at hl
    simp [hl]
  | cons x cs ih =>
    intro l hl
    rw [List.splitOn_cons_eq_if_modifyHead] at hl
    split at hl
    · rcases List.mem_cons.mp hl with rfl | hl
      · simp
      · exact ih hl
    · rename_i hx
      cases hs : cs.splitOn c with
      | nil => exact absurd hs (List.splitOn_ne_nil _ _)
      | cons first rest =>
        rw [hs, List.modifyHead_cons] at hl
        rcases List.mem_cons.mp hl with rfl | hl
        · have hne : c ≠ x := fun he => hx (by simp [he])
          simpa [hne] using ih (l := first) (by simp [hs])
        · exact ih (by rw [hs]; exact List.mem_cons_of_mem _ hl)

theorem not_mem_lines {cs l : List Char} (h : l ∈ lines cs) : '\n' ∉ l := by
  have hstrip : ∀ p : List Char, '\n' ∉ p → '\n' ∉ stripCr p := by
    intro p hp hc
    unfold stripCr at hc
    split at hc
    · exact hp (List.mem_of_mem_dropLast hc)
    · exact hp hc
  rcases List.mem_append.mp h with h | h
  · obtain ⟨p, hp, rfl⟩ := List.mem_map.mp h
    exact hstrip p (not_mem_splitOn (List.mem_of_mem_dropLast hp))
  · obtain ⟨hl, -⟩ := List.mem_filter.mp h
    exact not_mem_splitOn (List.mem_of_getLast? (Option.mem_toList.mp hl))

theorem mem_of_stripFront {front cs rest : List Char} (h : stripFront front cs = some rest) :
    ∀ c ∈ rest, c ∈ cs := by
  unfold stripFront at h
  split at h
  · cases h
    exact fun c hc => List.mem_of_mem_drop hc
  · cases h

theorem mem_of_splitOnce {c : Char} {cs a b : List Char} (h : splitOnce c cs = some (a, b)) :
    ∀ x ∈ b, x ∈ cs := by
  unfold splitOnce at h
  split at h
  · cases h
  · rename_i y rest hdrop
    cases h
    intro x hx
    have : x ∈ cs.dropWhile (· ≠ c) := by
      rw [hdrop]
      exact List.mem_cons_of_mem _ hx
    exact (List.dropWhile_sublist _).subset this

theorem mem_of_rsplitOnce {c : Char} {cs a b : List Char} (h : rsplitOnce c cs = some (a, b)) :
    ∀ x ∈ a, x ∈ cs := by
  unfold rsplitOnce at h
  split at h
  · cases h
  · rename_i after before hs
    cases h
    intro x hx
    exact List.mem_reverse.mp (mem_of_splitOnce hs x (List.mem_reverse.mp hx))

theorem readEntry_some {parse : String → Option Nat} {entry : List Char} {e : String × Nat}
    (h : readEntry parse entry = some e) :
    (∀ c ∈ e.1.toList, c ∈ entry) ∧ ∃ s, parse s = some e.2 := by
  unfold readEntry at h
  obtain ⟨⟨key, number⟩, hsplit, h⟩ := Option.bind_eq_some_iff.mp h
  obtain ⟨n, hn, rfl⟩ := Option.map_eq_some_iff.mp h
  rw [String.toList_ofList]
  exact ⟨mem_of_rsplitOnce hsplit, _, hn⟩

theorem parseU32_le {s : String} {n : Nat} (h : parseU32 s = some n) : n ≤ u32Max := by
  unfold parseU32 at h
  simpa using (Option.filter_eq_some_iff.mp h).2

theorem written_readLine {state : PersistedQueue} (h : state.Written) {line : List Char}
    (hline : '\n' ∉ line) : (state.readLine line).Written := by
  have hentry : ∀ (name : String) (parse : String → Option Nat) (e : String × Nat),
      (stripFront name.toList line).bind (readEntry parse) = some e →
      KeyText e.1 ∧ ∃ s, parse s = some e.2 := by
    intro name parse e he
    obtain ⟨entry, hstrip, he⟩ := Option.bind_eq_some_iff.mp he
    obtain ⟨hkey, hparse⟩ := readEntry_some he
    exact ⟨fun hc => hline (mem_of_stripFront hstrip _ (hkey _ hc)), hparse⟩
  unfold readLine
  split
  · exact ⟨h.deliveries, h.due⟩
  · split
    · rename_i e he
      obtain ⟨hkey, s, hparse⟩ := hentry _ _ e he
      refine ⟨fun e' he' => ?_, h.due⟩
      rcases List.mem_append.mp he' with he' | he'
      · exact h.deliveries e' he'
      · rw [List.mem_singleton.mp he']
        exact ⟨hkey, parseU32_le hparse⟩
    · split
      · rename_i e he
        obtain ⟨hkey, s, hparse⟩ := hentry _ _ e he
        refine ⟨h.deliveries, fun e' he' => ?_⟩
        rcases List.mem_append.mp he' with he' | he'
        · exact h.due e' he'
        · rw [List.mem_singleton.mp he']
          exact ⟨hkey, parseU64_le hparse⟩
      · exact h

/-- Whatever is read from a book could have been written to one. -/
theorem written_readState (file : Option Bytes) : ((readState file).getD .absent).Written := by
  have hempty : ({} : PersistedQueue).Written := ⟨by simp, by simp⟩
  have hloop : ∀ (ls : List (List Char)) (state : PersistedQueue), state.Written →
      (∀ l ∈ ls, '\n' ∉ l) → (ls.foldl readLine state).Written := by
    intro ls
    induction ls with
    | nil => intro state h _; exact h
    | cons l ls ih =>
      intro state h hls
      exact ih _ (written_readLine h (hls l List.mem_cons_self)) fun l' hl' =>
        hls l' (List.mem_cons_of_mem _ hl')
  unfold readState
  cases readStateFile file with
  | none =>
    rw [Option.map_none, Option.getD_none]
    exact hempty
  | some body =>
    rw [Option.map_some, Option.getD_some]
    exact hloop _ _ hempty fun l hl => not_mem_lines hl

end PersistedQueue

theorem readAutokey_writeAutokey {next : Nat} (h : next ≤ u64Max) :
    readAutokey (some (writeAutokey next)) = some next := by
  have hbody : ("next=" ++ toString next ++ "\n").toList =
      [metaEntry "next" (toString next).toList].flatMap fun l => l ++ ['\n'] := by
    simp [metaEntry, String.toList_append]
  have hlines : lines ("next=" ++ toString next ++ "\n").toList =
      [metaEntry "next" (toString next).toList] := by
    rw [hbody]
    apply lines_of_plain
    intro l hl
    rw [List.mem_singleton.mp hl]
    exact metaEntry_plain (by decide) (plain_toDigits _)
  have hname : stripFront "next".toList (metaEntry "next" (toString next).toList) =
      some ('=' :: (toString next).toList) := stripFront_append "next".toList _
  have heq : stripFront ['='] ('=' :: (toString next).toList) = some (toString next).toList :=
    stripFront_append ['='] _
  have hfield : stateField "next" ("next=" ++ toString next ++ "\n").toList =
      some (toString next) := by
    rw [stateField, hlines, List.findSome?_cons]
    simp only [hname, Option.bind_some, heq, Option.map_some, String.ofList_toList,
      trim_repr]
  simp only [readAutokey, writeAutokey, readStateFile_stateFileBytes, Option.bind_eq_bind,
    Option.bind_some, hfield, parseU64_repr h]

end RustyPick
