import RustyPick.GroupFile
import RustyPick.Layout

/-!
# RustyPick.MetaFile

The `meta` file of a section (`db/hashfile.rs`): five `name=value` lines, the first a CRC-32C of
the other four.

`readMetaChecked_metaBytes`: what `write_meta` writes, `read_meta_checked` reads back.
-/

namespace RustyPick

open Lib

/-! ## Lines and hexadecimal -/

def stripCr (line : List Char) : List Char :=
  if line.getLast? = some '\r' then line.dropLast else line

/-- `str::lines`. -/
def lines (cs : List Char) : List (List Char) :=
  let pieces := cs.splitOn '\n'
  pieces.dropLast.map stripCr ++ pieces.getLast?.toList.filter fun l => !l.isEmpty

/-- `str::split_once`. -/
def splitOnce (c : Char) (cs : List Char) : Option (List Char × List Char) :=
  match cs.dropWhile (· ≠ c) with
  | [] => none
  | _ :: rest => some (cs.takeWhile (· ≠ c), rest)

/-- `char::to_digit(16)`. -/
def hexValue (c : Char) : Option Nat :=
  if '0' ≤ c ∧ c ≤ '9' then some (c.toNat - '0'.toNat)
  else if 'a' ≤ c ∧ c ≤ 'f' then some (c.toNat - 'a'.toNat + 10)
  else if 'A' ≤ c ∧ c ≤ 'F' then some (c.toNat - 'A'.toNat + 10)
  else none

def hexFold (cs : List Char) : Option Nat :=
  cs.foldlM (fun n c => (hexValue c).map fun d => n * 16 + d) 0

/-- The value of a non-empty list of hexadecimal digits that fits a `u32`. -/
def parseHexDigits (cs : List Char) : Option Nat :=
  if cs = [] then none
  else (hexFold cs).bind fun n => if n < 2 ^ 32 then some n else none

/-- `u32::from_str_radix(_, 16)`, which admits one leading `+`. -/
def parseHex32 (s : String) : Option Nat :=
  match s.toList with
  | '+' :: cs => parseHexDigits cs
  | cs => parseHexDigits cs

/-! ## The file -/

def metaBody (m : SectionMeta) : String :=
  "version=" ++ toString m.version ++ "\nmodulus=" ++ toString m.modulus ++
    "\nrecords=" ++ toString m.records ++ "\nchecksums=" ++ (if m.checksums then "1" else "0") ++ "\n"

/-- What `write_meta` puts in place. The checksum goes first, so that a file cut short at a line
boundary does not lose it. -/
def metaText (m : SectionMeta) : String :=
  "checksum=" ++ hex8 (crc32c (utf8 (metaBody m))).toNat ++ "\n" ++ metaBody m

def metaBytes (m : SectionMeta) : Bytes := utf8 (metaText m)

/-- What the line loop of `read_meta_checked` has gathered. -/
structure MetaScan where
  sectionMeta : SectionMeta := .empty
  storedChecksum : Option Nat := none
  seen : Nat := 0
  body : List Char := []
  deriving DecidableEq, Repr

def corruptMeta (path detail : String) : IoError :=
  .invalidData ("Corrupt section metadata in " ++ path ++ ": " ++ detail)

def metaLine (path : String) (scan : MetaScan) (line : List Char) : Except IoError MetaScan :=
  match splitOnce '=' line with
  | none => .error (corruptMeta path "malformed line")
  | some (key, value) =>
    let key := trim (String.ofList key)
    let value := trim (String.ofList value)
    if key = "checksum" then
      match parseHex32 value with
      | none => .error (corruptMeta path "malformed checksum")
      | some parsed => .ok { scan with storedChecksum := some parsed }
    else
      let scan := { scan with body := scan.body ++ (line ++ ['\n']) }
      match parseU64 value with
      | none => .error (corruptMeta path "malformed value")
      | some number =>
        if key = "version" then
          .ok { scan with
            sectionMeta := { scan.sectionMeta with version := number }
            seen := scan.seen + 1 }
        else if key = "modulus" then
          .ok { scan with
            sectionMeta := { scan.sectionMeta with modulus := number }
            seen := scan.seen + 1 }
        else if key = "records" then
          .ok { scan with
            sectionMeta := { scan.sectionMeta with records := number }
            seen := scan.seen + 1 }
        else if key = "checksums" then
          .ok { scan with sectionMeta := { scan.sectionMeta with checksums := number ≠ 0 } }
        else .ok scan

def metaLoop (path : String) : MetaScan → List (List Char) → Except IoError MetaScan
  | scan, [] => .ok scan
  | scan, line :: rest =>
    match metaLine path scan line with
    | .error e => .error e
    | .ok scan => metaLoop path scan rest

/-- The checks `read_meta_checked` makes once every line is read. -/
def metaFinish (path : String) (scan : MetaScan) : Except IoError SectionMeta :=
  let found := scan.sectionMeta
  if scan.seen ≠ 3 then .error (corruptMeta path "incomplete")
  else
    let settled := if found.modulus = 0 then { found with modulus := MIN_MODULUS } else found
    match scan.storedChecksum with
    | some expected =>
      let actual := (crc32c (utf8 (String.ofList scan.body))).toNat
      if actual ≠ expected then
        .error (corruptMeta path ("checksum mismatch (" ++ hex8 actual ++ " != " ++
          hex8 expected ++ ")"))
      else .ok settled
    | none =>
      if found.checksums then .error (corruptMeta path "checksum line missing")
      else .ok settled

/-- `read_meta_checked`: `none` when there is no file, an error when there is a damaged one. -/
def readMetaChecked (path : String) (file : Option Bytes) : Except IoError (Option SectionMeta) :=
  match file with
  | none => .ok none
  | some bytes =>
    match fromUtf8? bytes with
    | none => .error (.invalidData "stream did not contain valid UTF-8")
    | some content =>
      if content.toList.getLast? ≠ some '\n' then .error (corruptMeta path "truncated")
      else
        match metaLoop path {} (lines content.toList) with
        | .error e => .error e
        | .ok scan =>
          match metaFinish path scan with
          | .error e => .error e
          | .ok found => .ok (some found)

/-! ## Round trip -/

theorem hexValue_digitChar {d : Nat} (h : d < 16) : hexValue (Nat.digitChar d) = some d := by
  interval_cases d <;> decide

theorem hexFold_append (cs : List Char) (c : Char) :
    hexFold (cs ++ [c]) = (hexFold cs).bind fun n => (hexValue c).map fun d => n * 16 + d := by
  simp only [hexFold, List.foldlM_append, List.foldlM_cons, List.foldlM_nil, Option.bind_eq_bind]
  cases List.foldlM (fun n c => Option.map (fun d => n * 16 + d) (hexValue c)) 0 cs <;> simp

theorem hexFold_hexDigits (w n : Nat) : hexFold (hexDigits w n) = some (n % 16 ^ w) := by
  induction w generalizing n with
  | zero => simp [hexDigits, hexFold, Nat.mod_one]
  | succ w ih =>
    have hd := hexValue_digitChar (Nat.mod_lt n (show 0 < 16 by decide))
    rw [hexDigits, hexFold_append, ih, Option.bind_some, hd, Option.map_some, Nat.pow_succ',
      Nat.mod_mul, Nat.mul_comm, Nat.add_comm]

theorem length_hexDigits (w n : Nat) : (hexDigits w n).length = w := by
  induction w generalizing n with
  | zero => rfl
  | succ w ih => simp [hexDigits, ih]

theorem mem_hexDigits {w n : Nat} {c : Char} (h : c ∈ hexDigits w n) :
    ∃ d, d < 16 ∧ c = Nat.digitChar d := by
  induction w generalizing n with
  | zero => simp [hexDigits] at h
  | succ w ih =>
    rw [hexDigits, List.mem_append, List.mem_singleton] at h
    rcases h with h | rfl
    · exact ih h
    · exact ⟨n % 16, Nat.mod_lt _ (by decide), rfl⟩

/-- A character no line of the file is cut or trimmed at. -/
def plainChar (c : Char) : Bool := !isWhitespace c && c ≠ '=' && c ≠ '+'

theorem plainChar_digitChar {d : Nat} (h : d < 16) : plainChar (Nat.digitChar d) = true := by
  interval_cases d <;> decide

theorem plain_hexDigits (w n : Nat) : ∀ c ∈ hexDigits w n, plainChar c = true := by
  intro c hc
  obtain ⟨d, hd, rfl⟩ := mem_hexDigits hc
  exact plainChar_digitChar hd

theorem plain_toDigits (n : Nat) : ∀ c ∈ (toString n).toList, plainChar c = true := by
  intro c hc
  have hl : (toString n).toList = Nat.toDigits 10 n := Nat.toList_repr
  rw [hl] at hc
  have hd := Nat.isDigit_of_mem_toDigits (by decide) (by decide) hc
  simp only [Char.isDigit, Bool.and_eq_true, decide_eq_true_eq, ge_iff_le, UInt32.le_iff_toNat_le]
    at hd
  have h1 : 48 ≤ c.toNat := hd.1
  have h2 : c.toNat ≤ 57 := hd.2
  have hne : ∀ e : Char, ¬ (48 ≤ e.toNat ∧ e.toNat ≤ 57) → c ≠ e := by
    rintro e he rfl
    exact he ⟨h1, h2⟩
  have hws : isWhitespace c = false := by
    simp only [isWhitespace, decide_eq_false_iff_not]
    omega
  simp [plainChar, hws, hne '=' (by decide), hne '+' (by decide)]

theorem trim_plain {cs : List Char} (h : ∀ c ∈ cs, plainChar c = true) :
    trim (String.ofList cs) = String.ofList cs := by
  have hws : ∀ c ∈ cs, isWhitespace c = false := by
    intro c hc
    have := h c hc
    simp only [plainChar, Bool.and_eq_true, Bool.not_eq_true'] at this
    exact this.1.1
  have hdrop : ∀ l : List Char, (∀ c ∈ l, isWhitespace c = false) → l.dropWhile isWhitespace = l := by
    intro l hl
    cases l with
    | nil => rfl
    | cons c l => simp [hl c List.mem_cons_self]
  have hrev : ∀ c ∈ cs.reverse, isWhitespace c = false := fun c hc => hws c (List.mem_reverse.mp hc)
  simp [trim, trimEnd, hdrop cs hws, hdrop _ hrev]

theorem trim_repr (n : Nat) : trim (toString n) = toString n := by
  have := trim_plain (plain_toDigits n)
  rwa [String.ofList_toList] at this

theorem splitOnce_append {c : Char} {a : List Char} (b : List Char) (h : ∀ x ∈ a, x ≠ c) :
    splitOnce c (a ++ c :: b) = some (a, b) := by
  have hd : (a ++ c :: b).dropWhile (· ≠ c) = c :: b := by
    rw [List.dropWhile_append_of_pos (by simpa using h)]
    simp
  have ht : (a ++ c :: b).takeWhile (· ≠ c) = a := by
    rw [List.takeWhile_append_of_pos (by simpa using h)]
    simp
  rw [splitOnce, hd, ht]

/-- A line of the file. -/
def metaEntry (name : String) (value : List Char) : List Char := name.toList ++ '=' :: value

theorem plainChar.ne {c : Char} (h : plainChar c = true) (e : Char) (he : plainChar e = false) :
    c ≠ e := by
  rintro rfl
  rw [h] at he
  cases he

/-- The scan after a numeric line, by the name on it. -/
def scanNumber (scan : MetaScan) (name : String) (number : Nat) (line : List Char) : MetaScan :=
  let scan := { scan with body := scan.body ++ (line ++ ['\n']) }
  if name = "version" then
    { scan with
      sectionMeta := { scan.sectionMeta with version := number }
      seen := scan.seen + 1 }
  else if name = "modulus" then
    { scan with
      sectionMeta := { scan.sectionMeta with modulus := number }
      seen := scan.seen + 1 }
  else if name = "records" then
    { scan with
      sectionMeta := { scan.sectionMeta with records := number }
      seen := scan.seen + 1 }
  else if name = "checksums" then
    { scan with sectionMeta := { scan.sectionMeta with checksums := number ≠ 0 } }
  else scan

theorem metaLine_number {path : String} {scan : MetaScan} (name : String) {n : Nat}
    (hname : name.toList.all plainChar) (hc : name ≠ "checksum") (hn : n ≤ u64Max) :
    metaLine path scan (metaEntry name (toString n).toList) =
      .ok (scanNumber scan name n (metaEntry name (toString n).toList)) := by
  have hs : splitOnce '=' (metaEntry name (toString n).toList) =
      some (name.toList, (toString n).toList) :=
    splitOnce_append _ fun x hx => plainChar.ne (List.all_eq_true.mp hname x hx) '=' (by decide)
  have ht : trim (String.ofList (toString n).toList) = toString n := by
    rw [String.ofList_toList, trim_repr]
  have hk : trim (String.ofList name.toList) = name := by
    rw [trim_plain (List.all_eq_true.mp hname), String.ofList_toList]
  simp only [metaLine, hs, ht, hk, if_neg hc, parseU64_repr hn, scanNumber]
  split_ifs <;> rfl

theorem plain_hex8 (n : Nat) : ∀ c ∈ (hex8 n).toList, plainChar c = true := by
  rw [hex8, String.toList_ofList]
  exact plain_hexDigits _ _

theorem trim_hex8 (n : Nat) : trim (hex8 n) = hex8 n := by
  have := trim_plain (plain_hex8 n)
  rwa [String.ofList_toList] at this

theorem parseHex32_hex8 {n : Nat} (hn : n < 2 ^ 32) : parseHex32 (hex8 n) = some n := by
  have hlog : n.log2 / 4 + 1 ≤ 8 := by
    by_cases h0 : n = 0
    · subst h0; decide
    · have := (Nat.log2_lt h0).mpr hn
      omega
  have hhex : (hex8 n).toList = hexDigits 8 n := by
    rw [hex8, max_eq_left hlog, String.toList_ofList]
  have hne : hexDigits 8 n ≠ [] := fun hc => by
    have := length_hexDigits 8 n
    rw [hc] at this
    cases this
  have hmod : n % 16 ^ 8 = n := Nat.mod_eq_of_lt (by simpa using hn)
  unfold parseHex32
  rw [hhex]
  split
  · rename_i cs hcs
    have : plainChar '+' = true := plain_hexDigits 8 n '+' (by rw [hcs]; exact List.mem_cons_self)
    exact absurd this (by decide)
  · rw [parseHexDigits, if_neg hne, hexFold_hexDigits, hmod, Option.bind_some, if_pos hn]

theorem metaLine_checksum {path : String} {scan : MetaScan} {n : Nat} (hn : n < 2 ^ 32) :
    metaLine path scan (metaEntry "checksum" (hex8 n).toList) =
      .ok { scan with storedChecksum := some n } := by
  have hs : splitOnce '=' (metaEntry "checksum" (hex8 n).toList) =
      some ("checksum".toList, (hex8 n).toList) := splitOnce_append _ (by simp)
  have hk : trim "checksum" = "checksum" := by decide +kernel
  simp only [metaLine, hs, String.ofList_toList, hk, trim_hex8, parseHex32_hex8 hn, if_true]

theorem getLast?_flatMap_newline {ls : List (List Char)} (h : ls ≠ []) :
    (ls.flatMap fun l => l ++ ['\n']).getLast? = some '\n' := by
  rcases List.eq_nil_or_concat ls with rfl | ⟨init, l, rfl⟩
  · exact absurd rfl h
  · simp [← List.append_assoc]

theorem lines_join {ls : List (List Char)} (h : ∀ l ∈ ls, '\n' ∉ l ∧ l.getLast? ≠ some '\r') :
    lines (ls.flatMap fun l => l ++ ['\n']) = ls := by
  have hjoin : ∀ ls : List (List Char), ls.flatMap (fun l => l ++ ['\n']) =
      ['\n'].intercalate (ls ++ [[]]) := by
    intro ls
    induction ls with
    | nil => rfl
    | cons l ls ih =>
      rw [List.flatMap_cons, ih, List.cons_append]
      cases ls <;> simp [List.intercalate, List.intersperse]
  have hsplit : (['\n'].intercalate (ls ++ [[]])).splitOn '\n' = ls ++ [[]] := by
    apply List.splitOn_intercalate
    · intro l hl
      rcases List.mem_append.mp hl with hl | hl
      · exact (h l hl).1
      · simp at hl
        simp [hl]
    · simp
  have hstrip : ls.map stripCr = ls := by
    conv_rhs => rw [← List.map_id ls]
    apply List.map_congr_left
    intro l hl
    simp [stripCr, (h l hl).2]
  rw [hjoin, lines, hsplit]
  simp [hstrip]

theorem lines_of_plain {ls : List (List Char)} (h : ∀ l ∈ ls, ∀ c ∈ l, c ≠ '\n' ∧ c ≠ '\r') :
    lines (ls.flatMap fun l => l ++ ['\n']) = ls := by
  apply lines_join
  intro l hl
  refine ⟨fun hc => (h l hl _ hc).1 rfl, fun hc => ?_⟩
  exact (h l hl _ (List.mem_of_getLast? hc)).2 rfl

/-- The four lines the checksum is taken over. -/
def bodyLines (m : SectionMeta) : List (List Char) :=
  [metaEntry "version" (toString m.version).toList, metaEntry "modulus" (toString m.modulus).toList,
    metaEntry "records" (toString m.records).toList,
    metaEntry "checksums" (toString (if m.checksums then 1 else 0)).toList]

theorem metaBody_toList (m : SectionMeta) :
    (metaBody m).toList = (bodyLines m).flatMap fun l => l ++ ['\n'] := by
  have hversion : "version=".toList = "version".toList ++ ['='] := by decide +kernel
  have hmodulus : "\nmodulus=".toList = '\n' :: ("modulus".toList ++ ['=']) := by
    decide +kernel
  have hrecords : "\nrecords=".toList = '\n' :: ("records".toList ++ ['=']) := by
    decide +kernel
  have hchecksums : "\nchecksums=".toList = '\n' :: ("checksums".toList ++ ['=']) := by
    decide +kernel
  have hend : "\n".toList = ['\n'] := by decide +kernel
  have hflag : (if m.checksums then "1" else "0") = toString (if m.checksums then 1 else 0) := by
    cases m.checksums <;> rfl
  delta metaBody
  simp only [bodyLines, metaEntry, hflag, String.toList_append, hversion, hmodulus,
    hrecords, hchecksums, hend, List.flatMap_cons, List.flatMap_nil, List.append_assoc,
    List.cons_append, List.nil_append, List.append_nil]

theorem metaText_toList (m : SectionMeta) :
    (metaText m).toList = (metaEntry "checksum" (hex8 (crc32c (utf8 (metaBody m))).toNat).toList ::
      bodyLines m).flatMap fun l => l ++ ['\n'] := by
  rw [List.flatMap_cons, ← metaBody_toList]
  simp [metaText, metaEntry, String.toList_append]

theorem metaEntry_plain {name : String} {value : List Char}
    (hname : name.toList.all plainChar) (hv : ∀ c ∈ value, plainChar c = true) :
    ∀ c ∈ metaEntry name value, c ≠ '\n' ∧ c ≠ '\r' := by
  intro c hc
  have hn := List.all_eq_true.mp hname
  rw [metaEntry, List.mem_append, List.mem_cons] at hc
  rcases hc with hc | rfl | hc
  · exact ⟨plainChar.ne (hn c hc) _ (by decide), plainChar.ne (hn c hc) _ (by decide)⟩
  · decide
  · exact ⟨plainChar.ne (hv c hc) _ (by decide), plainChar.ne (hv c hc) _ (by decide)⟩

theorem lines_metaText (m : SectionMeta) :
    lines (metaText m).toList =
      metaEntry "checksum" (hex8 (crc32c (utf8 (metaBody m))).toNat).toList :: bodyLines m := by
  rw [metaText_toList]
  apply lines_of_plain
  intro l hl
  simp only [bodyLines, List.mem_cons, List.not_mem_nil, or_false] at hl
  rcases hl with rfl | rfl | rfl | rfl | rfl
  · exact metaEntry_plain (by decide) (plain_hex8 _)
  all_goals exact metaEntry_plain (by decide) (plain_toDigits _)

/-- A value `write_meta` can be given. -/
def SectionMeta.Written (m : SectionMeta) : Prop :=
  m.version ≤ u64Max ∧ m.modulus ≤ u64Max ∧ m.modulus ≠ 0 ∧ m.records ≤ u64Max

theorem readMetaChecked_metaBytes {path : String} {m : SectionMeta} (h : m.Written) :
    readMetaChecked path (some (metaBytes m)) = .ok (some m) := by
  obtain ⟨hv, hm, hm0, hr⟩ := h
  have hflag : (if m.checksums then 1 else 0) ≤ u64Max := by split <;> decide
  have hcrc : (crc32c (utf8 (metaBody m))).toNat < 2 ^ 32 := UInt32.toNat_lt _
  have hlast : (metaText m).toList.getLast? = some '\n' := by
    rw [metaText_toList]
    exact getLast?_flatMap_newline (by simp)
  have hloop : metaLoop path {} (lines (metaText m).toList) = .ok
      { sectionMeta := m
        storedChecksum := some (crc32c (utf8 (metaBody m))).toNat
        seen := 3
        body := (metaBody m).toList } := by
    rw [lines_metaText, metaBody_toList]
    simp only [metaLoop, bodyLines, metaLine_checksum hcrc,
      metaLine_number "version" (by decide) (by decide) hv,
      metaLine_number "modulus" (by decide) (by decide) hm,
      metaLine_number "records" (by decide) (by decide) hr,
      metaLine_number "checksums" (by decide) (by decide) hflag]
    obtain ⟨version, modulus, records, checksums⟩ := m
    cases checksums <;> simp [scanNumber, SectionMeta.empty]
  simp only [readMetaChecked, metaBytes, fromUtf8?_utf8, hlast, hloop, metaFinish,
    String.ofList_toList, ne_eq, not_true_eq_false, if_false, if_neg hm0]

end RustyPick
