import RustyPick.Index
import RustyPick.MetaFile

/-!
# RustyPick.IndexFile

An index on disk (`db/index.rs`): posting lists as records, and the `state` file that says which
data the postings were taken from.

* `postingKeys_stored`: a posting list reads back, except the one that holds only the empty key.
* `readState_stateBytes`: what `write_state` writes, `read_state` reads back.
-/

namespace RustyPick

open Lib

/-! ## Posting lists -/

theorem Value.toBytes_text (s : String) : (Value.text s).toBytes = utf8 s := by
  simp [Value.toBytes, Value.text, List.intercalate]

theorem splitOn_of_not_mem {b : Bytes} {mark : UInt8} (h : mark ∉ b) : b.splitOn mark = [b] := by
  have : ([mark].intercalate [b]).splitOn mark = [b] :=
    List.splitOn_intercalate mark (by simpa using h) (by simp)
  simpa [List.intercalate] using this

theorem Value.fromBytes_utf8 (s : String) : Value.fromBytes (utf8 s) = Value.text s := by
  have h : SVM ∉ utf8 s := mark_not_mem_utf8 (by decide)
  simp [Value.fromBytes, Value.text, splitOn_of_not_mem h]

/-- The bytes of a posting list: the keys, with a value mark between each two. -/
theorem toBytes_postingRecord (keys : Finset String) :
    (postingRecord keys).toBytes = [VM].intercalate ((ascending keys).map utf8) := by
  have h : Value.toBytes ∘ Value.text = utf8 := funext Value.toBytes_text
  simp [postingRecord, Record.toBytes, Field.toBytes, h, List.intercalate]

theorem FM_not_mem_intercalate (ks : List String) :
    FM ∉ [VM].intercalate (ks.map utf8) := by
  induction ks with
  | nil => simp [List.intercalate]
  | cons k ks ih =>
    cases ks with
    | nil =>
      have : FM ∉ utf8 k := mark_not_mem_utf8 (by decide)
      simpa [List.intercalate] using this
    | cons j ks =>
      have hk : FM ∉ utf8 k := mark_not_mem_utf8 (by decide)
      have hv : FM ≠ VM := by decide
      have hrest : [VM].intercalate ((k :: j :: ks).map utf8) =
          utf8 k ++ VM :: [VM].intercalate ((j :: ks).map utf8) := by
        simp [List.intercalate]
      rw [hrest]
      simp only [List.mem_append, List.mem_cons, not_or]
      exact ⟨hk, hv, ih⟩

theorem intercalate_utf8_eq_nil {ks : List String} (h : [VM].intercalate (ks.map utf8) = []) :
    ks = [] ∨ ks = [""] := by
  match ks with
  | [] => exact Or.inl rfl
  | [k] =>
    have : utf8 k = [] := by simpa [List.intercalate] using h
    exact Or.inr (by rw [utf8_eq_nil.mp this])
  | k :: j :: ks => simp [List.intercalate] at h

/-- A posting list reads back as it was. The exception is the list of the empty key alone, whose
bytes are those of a record without fields. -/
theorem postingKeys_stored {keys : Finset String} (h : keys ≠ {""}) :
    postingKeys (postingRecord keys).stored = keys := by
  have hcast : ∀ ks : List String, ascending keys = ks →
      postingKeys (postingRecord keys).stored = ks.toFinset := by
    intro ks hks
    rw [Record.stored, toBytes_postingRecord, hks, Record.fromBytes]
    split
    · rename_i hnil
      rcases intercalate_utf8_eq_nil hnil with rfl | rfl
      · rfl
      · exfalso
        apply h
        ext k
        rw [← mem_ascending, hks]
        simp
    · rename_i hne
      have hnil : ks ≠ [] := by
        rintro rfl
        exact hne rfl
      have hsplit : ([VM].intercalate (ks.map utf8)).splitOn VM = ks.map utf8 := by
        apply List.splitOn_intercalate
        · intro l hl
          obtain ⟨k, -, rfl⟩ := List.mem_map.mp hl
          exact mark_not_mem_utf8 (by decide)
        · simpa using hnil
      have hval : ∀ k, (Value.fromBytes (utf8 k)).firstText = some k := by
        intro k
        simp [Value.fromBytes_utf8, Value.firstText, Value.text, textOf]
      rw [splitOn_of_not_mem (FM_not_mem_intercalate ks)]
      simp [postingKeys, Field.fromBytes, hsplit, List.filterMap_map, Function.comp_def, hval]
  rw [hcast _ rfl]
  ext k
  simp

/-! ## The `state` file -/

def escapeChar (c : Char) : List Char :=
  if c = '\\' then ['\\', '\\']
  else if c = '\n' then ['\\', 'n']
  else if c = '\r' then ['\\', 'r']
  else if c = '\t' then ['\\', 't']
  else if c = ' ' then ['\\', 's']
  else [c]

/-- Escapes one excluded value for a `state` line. -/
def escapeValue (value : String) : String := String.ofList (value.toList.flatMap escapeChar)

def unescapeChars : List Char → List Char
  | [] => []
  | ['\\'] => ['\\']
  | '\\' :: c :: rest =>
    (if c = 'n' then '\n' else if c = 'r' then '\r' else if c = 't' then '\t'
      else if c = 's' then ' ' else c) :: unescapeChars rest
  | c :: rest => c :: unescapeChars rest

/-- The inverse of `escapeValue`. An unknown escape keeps its own character. -/
def unescapeValue (text : String) : String := String.ofList (unescapeChars text.toList)

/-- One line for each excluded value, in order. -/
def pushExcluded (body value : String) : String := body ++ "exclude=" ++ escapeValue value ++ "\n"

def stateBody (state : IndexState) : String :=
  (ascending state.excluded).foldl pushExcluded
    ("field=" ++ state.field ++ "\nattribute=" ++ toString state.attributeNo ++
      "\ndata_version=" ++ toString state.dataVersion ++ "\n")

def stateText (state : IndexState) : String :=
  "checksum=" ++ hex8 (crc32c (utf8 (stateBody state))).toNat ++ "\n" ++ stateBody state

/-- The file `write_state` puts in place. -/
def stateBytes (state : IndexState) : Bytes := utf8 (stateText state)

/-- What the line loop of `read_state` has gathered. -/
structure StateScan where
  field : Option String := none
  attributeNo : Option Nat := none
  dataVersion : Option Nat := none
  excluded : Finset String := ∅
  stored : Option Nat := none
  body : List Char := []

/-- The scan after a line other than the checksum's. -/
def StateScan.named (scan : StateScan) (line : List Char) (key value : String) : StateScan :=
  let scan := { scan with body := scan.body ++ (line ++ ['\n']) }
  if key = "field" then { scan with field := some value }
  else if key = "attribute" then { scan with attributeNo := parseU64 value }
  else if key = "data_version" then { scan with dataVersion := parseU64 value }
  else if key = "exclude" then { scan with excluded := insert (unescapeValue value) scan.excluded }
  else scan

def stateLine (scan : StateScan) (line : List Char) : Option StateScan :=
  match splitOnce '=' line with
  | none => none
  | some (key, value) =>
    let key := trim (String.ofList key)
    let value := trim (String.ofList value)
    if key = "checksum" then some { scan with stored := parseHex32 value }
    else some (scan.named line key value)

def stateLoop : StateScan → List (List Char) → Option StateScan
  | scan, [] => some scan
  | scan, line :: rest => (stateLine scan line).bind fun scan => stateLoop scan rest

/-- `read_state`: whatever is wrong with the file, it is as if there were none. -/
def readState (file : Option Bytes) : Option IndexState := do
  let content ← fromUtf8? (← file)
  if content.toList.getLast? ≠ some '\n' then none
  else
    let scan ← stateLoop {} (lines content.toList)
    let stored ← scan.stored
    if stored ≠ (crc32c (utf8 (String.ofList scan.body))).toNat then none
    else
      some
        { field := ← scan.field
          attributeNo := ← scan.attributeNo
          dataVersion := ← scan.dataVersion
          excluded := scan.excluded }

/-! ## Round trip -/

theorem unescapeChars_escape (cs : List Char) : unescapeChars (cs.flatMap escapeChar) = cs := by
  induction cs with
  | nil => rfl
  | cons c cs ih =>
    rw [List.flatMap_cons]
    by_cases hb : c = '\\'
    · subst hb; simp [escapeChar, unescapeChars, ih]
    by_cases hn : c = '\n'
    · subst hn; simp [escapeChar, unescapeChars, ih]
    by_cases hr : c = '\r'
    · subst hr; simp [escapeChar, unescapeChars, ih]
    by_cases ht : c = '\t'
    · subst ht; simp [escapeChar, unescapeChars, ih]
    by_cases hs : c = ' '
    · subst hs; simp [escapeChar, unescapeChars, ih]
    have hone : escapeChar c = [c] := by simp [escapeChar, hb, hn, hr, ht, hs]
    rw [hone, List.singleton_append]
    cases hrest : cs.flatMap escapeChar with
    | nil => simp_all [unescapeChars]
    | cons d ds =>
      rw [hrest] at ih
      rw [unescapeChars, ih]
      · simp [hb]
      · simp [hb]

theorem escape_no_newline {cs : List Char} {c : Char} (h : c ∈ cs.flatMap escapeChar) :
    c ≠ '\n' ∧ c ≠ '\r' := by
  obtain ⟨d, -, hd⟩ := List.mem_flatMap.mp h
  unfold escapeChar at hd
  split_ifs at hd <;> simp only [List.mem_cons, List.not_mem_nil, or_false] at hd
  · rcases hd with rfl | rfl <;> decide
  · rcases hd with rfl | rfl <;> decide
  · rcases hd with rfl | rfl <;> decide
  · rcases hd with rfl | rfl <;> decide
  · rcases hd with rfl | rfl <;> decide
  · subst hd
    constructor <;> assumption

theorem escapeChar_ne_nil (c : Char) : escapeChar c ≠ [] := by
  unfold escapeChar
  split_ifs <;> simp

theorem escapeChar_plain {c : Char} (h : isWhitespace c = false) :
    (∀ d, (escapeChar c).head? = some d → isWhitespace d = false) ∧
      ∀ d, (escapeChar c).getLast? = some d → isWhitespace d = false := by
  unfold escapeChar
  split_ifs <;> simp_all <;> decide

/-- Escaping leaves the ends of a trimmed value free of whitespace. -/
theorem trim_escapeValue {value : String} (h : trim value = value) :
    trim (escapeValue value) = escapeValue value := by
  have hhead : ∀ c, value.toList.head? = some c → isWhitespace c = false := fun c hc =>
    trim_head (by rwa [h])
  have hlast : ∀ c, value.toList.getLast? = some c → isWhitespace c = false := fun c hc =>
    trim_last (by rwa [h])
  apply trim_of_ends
  · intro d hd
    cases hv : value.toList with
    | nil => simp [hv] at hd
    | cons c cs =>
      rw [hv, List.flatMap_cons, List.head?_append_of_ne_nil _ (escapeChar_ne_nil c)] at hd
      exact (escapeChar_plain (hhead c (by rw [hv]; rfl))).1 d hd
  · intro d hd
    rcases List.eq_nil_or_concat value.toList with hv | ⟨cs, c, hv⟩
    · simp [hv] at hd
    · rw [hv, List.concat_eq_append, List.flatMap_append, List.flatMap_singleton,
        List.getLast?_append_of_ne_nil _ (escapeChar_ne_nil c)] at hd
      exact (escapeChar_plain (hlast c (by simp [hv]))).2 d hd

theorem unescapeValue_escapeValue (value : String) : unescapeValue (escapeValue value) = value := by
  simp [unescapeValue, escapeValue, unescapeChars_escape]

/-- What `write_state` is given by an index. -/
structure IndexState.Written (state : IndexState) : Prop where
  field : isValidFieldName state.field = true
  attributeNo : state.attributeNo ≤ u64Max
  dataVersion : state.dataVersion ≤ u64Max
  excluded : ∀ value ∈ state.excluded, trim value = value

theorem plain_nameChar {c : Char} (h : isNameChar c = true) : plainChar c = true := by
  simp only [isNameChar, decide_eq_true_eq] at h
  rcases h with h | rfl | rfl | rfl | rfl | rfl | rfl
  · have hne : ∀ e : Char, e.isAlphanum = false → c ≠ e := by
      rintro e he rfl
      rw [he] at h
      cases h
    have hws : isWhitespace c = false := by
      delta Char.isAlphanum Char.isAlpha Char.isUpper Char.isLower Char.isDigit at h
      simp only [Bool.or_eq_true, decide_eq_true_eq, Bool.and_eq_true, ge_iff_le,
        UInt32.le_iff_toNat_le] at h
      have hc : c.toNat = c.val.toNat := rfl
      simp only [isWhitespace, hc, decide_eq_false_iff_not]
      have hA : 'A'.val.toNat = 65 := rfl
      have hZ : 'Z'.val.toNat = 90 := rfl
      have ha : 'a'.val.toNat = 97 := rfl
      have hz : 'z'.val.toNat = 122 := rfl
      have h0 : '0'.val.toNat = 48 := rfl
      have h9 : '9'.val.toNat = 57 := rfl
      omega
    simp [plainChar, hws, hne '=' (by simp), hne '+' (by simp)]
  all_goals decide

theorem plain_fieldName {field : String} (h : isValidFieldName field = true) :
    ∀ c ∈ field.toList, plainChar c = true := by
  simp only [isValidFieldName, decide_eq_true_eq] at h
  intro c hc
  exact plain_nameChar (List.all_eq_true.mp h.2.2.1 c hc)

def excludeLine (value : String) : List Char := metaEntry "exclude" (escapeValue value).toList

def stateLines (state : IndexState) : List (List Char) :=
  [metaEntry "field" state.field.toList, metaEntry "attribute" (toString state.attributeNo).toList,
    metaEntry "data_version" (toString state.dataVersion).toList] ++
    (ascending state.excluded).map excludeLine

theorem toList_pushExcluded (values : List String) : ∀ body : String,
    (values.foldl pushExcluded body).toList =
      body.toList ++ (values.map excludeLine).flatMap fun l => l ++ ['\n'] := by
  induction values with
  | nil => intro body; simp
  | cons value values ih =>
    intro body
    rw [List.foldl_cons, ih, List.map_cons, List.flatMap_cons]
    simp [pushExcluded, excludeLine, metaEntry, String.toList_append]

theorem stateBody_toList (state : IndexState) :
    (stateBody state).toList = (stateLines state).flatMap fun l => l ++ ['\n'] := by
  rw [stateBody, toList_pushExcluded, stateLines, List.flatMap_append]
  simp [metaEntry, String.toList_append]

theorem stateText_toList (state : IndexState) :
    (stateText state).toList =
      (metaEntry "checksum" (hex8 (crc32c (utf8 (stateBody state))).toNat).toList ::
        stateLines state).flatMap fun l => l ++ ['\n'] := by
  rw [List.flatMap_cons, ← stateBody_toList]
  simp [stateText, metaEntry, String.toList_append]

theorem lines_stateText {state : IndexState} (h : state.Written) :
    lines (stateText state).toList =
      metaEntry "checksum" (hex8 (crc32c (utf8 (stateBody state))).toNat).toList ::
        stateLines state := by
  rw [stateText_toList]
  apply lines_of_plain
  intro l hl
  rcases List.mem_cons.mp hl with rfl | hl
  · exact metaEntry_plain (by decide) (plain_hex8 _)
  rcases List.mem_append.mp hl with hl | hl
  · simp only [List.mem_cons, List.not_mem_nil, or_false] at hl
    rcases hl with rfl | rfl | rfl
    · exact metaEntry_plain (by decide) (plain_fieldName h.field)
    · exact metaEntry_plain (by decide) (plain_toDigits _)
    · exact metaEntry_plain (by decide) (plain_toDigits _)
  · obtain ⟨value, -, rfl⟩ := List.mem_map.mp hl
    intro c hc
    rw [excludeLine, metaEntry, List.mem_append, List.mem_cons] at hc
    rcases hc with hc | rfl | hc
    · have : ∀ c ∈ "exclude".toList, c ≠ '\n' ∧ c ≠ '\r' := by simp
      exact this c hc
    · decide
    · rw [escapeValue, String.toList_ofList] at hc
      exact escape_no_newline hc

theorem stateLine_entry {scan : StateScan} (name : String) {value : String}
    (hname : name.toList.all plainChar) (hc : name ≠ "checksum")
    (hv : trim value = value) :
    stateLine scan (metaEntry name value.toList) =
      some (scan.named (metaEntry name value.toList) name value) := by
  have hs : splitOnce '=' (metaEntry name value.toList) = some (name.toList, value.toList) :=
    splitOnce_append _ fun x hx => plainChar.ne (List.all_eq_true.mp hname x hx) '=' (by decide)
  have hk : trim name = name := by
    have := trim_plain (List.all_eq_true.mp hname)
    rwa [String.ofList_toList] at this
  simp only [stateLine, hs, hk, String.ofList_toList, hv, if_neg hc]

theorem stateLine_checksum {scan : StateScan} {n : Nat} (hn : n < 2 ^ 32) :
    stateLine scan (metaEntry "checksum" (hex8 n).toList) = some { scan with stored := some n } := by
  have hs : splitOnce '=' (metaEntry "checksum" (hex8 n).toList) =
      some ("checksum".toList, (hex8 n).toList) := splitOnce_append _ (by simp)
  have hk : trim "checksum" = "checksum" := by decide +kernel
  simp only [stateLine, hs, String.ofList_toList, hk, trim_hex8, parseHex32_hex8 hn, if_true]

theorem stateLoop_excluded {values : List String} (h : ∀ v ∈ values, trim v = v) :
    ∀ scan : StateScan, stateLoop scan (values.map excludeLine) = some
      { scan with
        excluded := values.toFinset ∪ scan.excluded
        body := scan.body ++ (values.map excludeLine).flatMap fun l => l ++ ['\n'] } := by
  induction values with
  | nil => intro scan; simp [stateLoop]
  | cons value values ih =>
    intro scan
    have hline := @stateLine_entry scan "exclude" (escapeValue value) (by decide) (by decide)
      (trim_escapeValue (h value List.mem_cons_self))
    change stateLine scan (excludeLine value) = _ at hline
    rw [List.map_cons, stateLoop, hline, Option.bind_some,
      ih fun v hv => h v (List.mem_cons_of_mem _ hv)]
    simp [StateScan.named, unescapeValue_escapeValue, excludeLine, Finset.union_insert]

theorem readState_stateBytes {state : IndexState} (h : state.Written) :
    readState (some (stateBytes state)) = some state := by
  have hcrc : (crc32c (utf8 (stateBody state))).toNat < 2 ^ 32 := UInt32.toNat_lt _
  have hlast : (stateText state).toList.getLast? = some '\n' := by
    rw [stateText_toList]
    exact getLast?_flatMap_newline (by simp)
  have hfield : trim state.field = state.field := by
    have := trim_plain (plain_fieldName h.field)
    rwa [String.ofList_toList] at this
  have hset : (ascending state.excluded).toFinset = state.excluded := by
    ext v
    simp
  have hloop : stateLoop {} (lines (stateText state).toList) = some
      { field := some state.field
        attributeNo := some state.attributeNo
        dataVersion := some state.dataVersion
        excluded := state.excluded
        stored := some (crc32c (utf8 (stateBody state))).toNat
        body := (stateBody state).toList } := by
    rw [lines_stateText h, stateBody_toList, stateLines]
    simp only [stateLoop, List.cons_append, List.nil_append, stateLine_checksum hcrc,
      stateLine_entry "field" (by decide) (by decide) hfield,
      stateLine_entry "attribute" (by decide) (by decide) (trim_repr _),
      stateLine_entry "data_version" (by decide) (by decide) (trim_repr _), Option.bind_some]
    rw [stateLoop_excluded fun v hv => h.excluded v (mem_ascending.mp hv)]
    have ha := parseU64_repr h.attributeNo
    have hd := parseU64_repr h.dataVersion
    simp only [StateScan.named, ha, hd, hset, List.nil_append]
    simp
  simp [readState, stateBytes, hlast, hloop]

end RustyPick
