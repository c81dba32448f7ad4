import RustyPick.Lib.Map

/-!
# RustyPick.Text

The text operations of the standard library the engine is written against: UTF-8 in both
directions, whitespace trimming, decimal and hexadecimal numbers.

A Rust `String` is a Lean `String`: both are sequences of Unicode scalar values held as valid
UTF-8, and both are ordered by code point. Bytes are lists of `UInt8`. Machine integers are
natural numbers kept below `2 ^ 64` by the operations that could pass it.
-/

namespace RustyPick

abbrev Bytes := List UInt8

def u64Max : Nat := 2 ^ 64 - 1

/-- `u64::saturating_add`. -/
def satAdd (a b : Nat) : Nat := min (a + b) u64Max

/-- `u64::saturating_mul`. -/
def satMul (a b : Nat) : Nat := min (a * b) u64Max

/-! ## UTF-8 -/

/-- `str::as_bytes`. -/
def utf8 (s : String) : Bytes := s.toUTF8.data.toList

/-- `str::from_utf8`. -/
def fromUtf8? (b : Bytes) : Option String := String.fromUTF8? ⟨b.toArray⟩

def replacementChar : Char := '\uFFFD'

def isContinuation (b : UInt8) : Bool := 0x80 ≤ b ∧ b ≤ 0xBF

/-- Whether `b1` may follow the lead byte `b0` of a three or four byte sequence. -/
def secondByteOk (b0 b1 : UInt8) : Bool :=
  if b0 = 0xE0 then 0xA0 ≤ b1 ∧ b1 ≤ 0xBF
  else if b0 = 0xED then 0x80 ≤ b1 ∧ b1 ≤ 0x9F
  else if b0 = 0xF0 then 0x90 ≤ b1 ∧ b1 ≤ 0xBF
  else if b0 = 0xF4 then 0x80 ≤ b1 ∧ b1 ≤ 0x8F
  else isContinuation b1

def bits (b : UInt8) (mask : Nat) : Nat := b.toNat &&& mask

/-- The character at the front of `b`, and how many bytes it takes. Where the bytes are not UTF-8
this is `U+FFFD` and the longest prefix that could still have started a character. -/
def decodeOne : Bytes → Char × Nat
  | [] => (replacementChar, 1)
  | b0 :: rest =>
    if b0 < 0x80 then (Char.ofNat b0.toNat, 1)
    else if 0xC2 ≤ b0 ∧ b0 ≤ 0xDF then
      match rest with
      | b1 :: _ =>
        if isContinuation b1 then (Char.ofNat (bits b0 0x1F * 64 + bits b1 0x3F), 2)
        else (replacementChar, 1)
      | [] => (replacementChar, 1)
    else if 0xE0 ≤ b0 ∧ b0 ≤ 0xEF then
      match rest with
      | b1 :: rest' =>
        if secondByteOk b0 b1 then
          match rest' with
          | b2 :: _ =>
            if isContinuation b2 then
              (Char.ofNat (bits b0 0x0F * 4096 + bits b1 0x3F * 64 + bits b2 0x3F), 3)
            else (replacementChar, 2)
          | [] => (replacementChar, 2)
        else (replacementChar, 1)
      | [] => (replacementChar, 1)
    else if 0xF0 ≤ b0 ∧ b0 ≤ 0xF4 then
      match rest with
      | b1 :: rest' =>
        if secondByteOk b0 b1 then
          match rest' with
          | b2 :: rest'' =>
            if isContinuation b2 then
              match rest'' with
              | b3 :: _ =>
                if isContinuation b3 then
                  (Char.ofNat (bits b0 0x07 * 262144 + bits b1 0x3F * 4096 + bits b2 0x3F * 64 +
                    bits b3 0x3F), 4)
                else (replacementChar, 3)
              | [] => (replacementChar, 3)
            else (replacementChar, 2)
          | [] => (replacementChar, 2)
        else (replacementChar, 1)
      | [] => (replacementChar, 1)
    else (replacementChar, 1)

/-- Decode with replacement. The fuel is the number of bytes: each character takes at least one. -/
def decodeLossy : Nat → Bytes → List Char
  | 0, _ => []
  | _ + 1, [] => []
  | fuel + 1, b => (decodeOne b).1 :: decodeLossy fuel (b.drop (decodeOne b).2)

/-- `String::from_utf8_lossy`. -/
def fromUtf8Lossy (b : Bytes) : String :=
  match fromUtf8? b with
  | some s => s
  | none => String.ofList (decodeLossy b.length b)

@[simp] theorem fromUtf8?_utf8 (s : String) : fromUtf8? (utf8 s) = some s := by
  have h : (⟨(utf8 s).toArray⟩ : ByteArray) = s.toByteArray := rfl
  rw [fromUtf8?, h]
  simp [String.fromUTF8?, s.isValidUTF8, String.fromUTF8]

theorem utf8_of_fromUtf8? {b : Bytes} {s : String} (h : fromUtf8? b = some s) : utf8 s = b := by
  unfold fromUtf8? String.fromUTF8? at h
  split at h
  · cases h
    simp [utf8, String.fromUTF8]
  · cases h

@[simp] theorem fromUtf8Lossy_utf8 (s : String) : fromUtf8Lossy (utf8 s) = s := by
  simp [fromUtf8Lossy]

theorem utf8_injective {s t : String} (h : utf8 s = utf8 t) : s = t := by
  have := congrArg fromUtf8? h
  simpa using this

theorem utf8_eq_flatMap (s : String) : utf8 s = s.toList.flatMap String.utf8EncodeChar := by
  change s.toByteArray.data.toList = _
  rw [← String.utf8Encode_toList]
  simp [List.utf8Encode]

/-- No byte of a text is `0xF8` or above. -/
theorem utf8_lt {s : String} {b : UInt8} (h : b ∈ utf8 s) : b.toNat < 0xF8 := by
  rw [utf8_eq_flatMap, List.mem_flatMap] at h
  obtain ⟨c, -, hc⟩ := h
  simp only [String.utf8EncodeChar] at hc
  split_ifs at hc <;> simp only [List.mem_cons, List.not_mem_nil, or_false] at hc
  · subst hc; simp only [UInt8.toNat_ofNat']; omega
  · rcases hc with rfl | rfl <;> simp only [UInt8.toNat_ofNat'] <;> omega
  · rcases hc with rfl | rfl | rfl <;> simp only [UInt8.toNat_ofNat'] <;> omega
  · rcases hc with rfl | rfl | rfl | rfl <;> simp only [UInt8.toNat_ofNat'] <;> omega

/-- The lead bytes UTF-8 leaves out are in no text. -/
theorem mark_not_mem_utf8 {s : String} {mark : UInt8} (h : 0xF8 ≤ mark.toNat) : mark ∉ utf8 s := by
  intro hc
  have := utf8_lt hc
  omega

/-- A text of ASCII characters is one byte a character. -/
theorem utf8_ascii {cs : List Char} (h : ∀ c ∈ cs, c.toNat < 0x80) :
    utf8 (String.ofList cs) = cs.map fun c => UInt8.ofNat c.toNat := by
  rw [utf8_eq_flatMap, String.toList_ofList]
  induction cs with
  | nil => rfl
  | cons c cs ih =>
    have hc : c.val.toNat ≤ 0x7F := Nat.le_of_lt_succ (h c List.mem_cons_self)
    have hone : String.utf8EncodeChar c = [UInt8.ofNat c.toNat] := by
      simp only [String.utf8EncodeChar, if_pos hc]
      rfl
    rw [List.flatMap_cons, ih fun d hd => h d (List.mem_cons_of_mem _ hd), hone, List.map_cons]
    rfl

theorem utf8_eq_nil {s : String} : utf8 s = [] ↔ s = "" := by
  constructor
  · intro h
    exact utf8_injective (t := "") (h.trans rfl)
  · rintro rfl
    rfl

/-! ## Trimming -/

/-- Unicode `White_Space`, which is what `char::is_whitespace` tests. -/
def isWhitespace (c : Char) : Bool :=
  let n := c.toNat
  (0x09 ≤ n ∧ n ≤ 0x0D) ∨ n = 0x20 ∨ n = 0x85 ∨ n = 0xA0 ∨ n = 0x1680 ∨
    (0x2000 ≤ n ∧ n ≤ 0x200A) ∨ n = 0x2028 ∨ n = 0x2029 ∨ n = 0x202F ∨ n = 0x205F ∨ n = 0x3000

def trimEnd (cs : List Char) : List Char := (cs.reverse.dropWhile isWhitespace).reverse

/-- `str::trim`. -/
def trim (s : String) : String := String.ofList (trimEnd (s.toList.dropWhile isWhitespace))

theorem dropWhile_of_head {cs : List Char} (h : ∀ c, cs.head? = some c → isWhitespace c = false) :
    cs.dropWhile isWhitespace = cs := by
  cases cs with
  | nil => rfl
  | cons c cs => simp [h c rfl]

/-- A text whose ends are not whitespace is left alone. -/
theorem trim_of_ends {cs : List Char} (hf : ∀ c, cs.head? = some c → isWhitespace c = false)
    (hl : ∀ c, cs.getLast? = some c → isWhitespace c = false) :
    trim (String.ofList cs) = String.ofList cs := by
  have hrev : ∀ c, cs.reverse.head? = some c → isWhitespace c = false := fun c hc =>
    hl c (by rwa [List.head?_reverse] at hc)
  simp [trim, trimEnd, dropWhile_of_head hf, dropWhile_of_head hrev]

theorem head_dropWhile {p : Char → Bool} {cs : List Char} {c : Char}
    (h : (cs.dropWhile p).head? = some c) : p c = false := by
  induction cs with
  | nil => simp at h
  | cons d cs ih =>
    rw [List.dropWhile_cons] at h
    split at h
    · exact ih h
    · rename_i hd
      simp only [List.head?_cons, Option.some.injEq] at h
      subst h
      simpa using hd

/-- What `trim` leaves has no whitespace at its front. -/
theorem trim_head {s : String} {c : Char} (h : (trim s).toList.head? = some c) :
    isWhitespace c = false := by
  rw [trim, String.toList_ofList, trimEnd, List.head?_reverse] at h
  have hsuffix := List.dropWhile_suffix isWhitespace (l := (s.toList.dropWhile isWhitespace).reverse)
  have hne : ((s.toList.dropWhile isWhitespace).reverse.dropWhile isWhitespace) ≠ [] := fun hc => by
    rw [hc] at h
    simp at h
  have hlast := hsuffix.getLast hne
  rw [List.getLast?_eq_some_getLast hne, Option.some.injEq] at h
  rw [h] at hlast
  have hc : (s.toList.dropWhile isWhitespace).head? = some c := by
    rw [← List.getLast?_reverse, List.getLast?_eq_some_getLast (hsuffix.ne_nil hne), hlast]
  exact head_dropWhile hc

/-- Nor at its back. -/
theorem trim_last {s : String} {c : Char} (h : (trim s).toList.getLast? = some c) :
    isWhitespace c = false := by
  rw [trim, String.toList_ofList, trimEnd, List.getLast?_reverse] at h
  exact head_dropWhile h

@[simp] theorem trim_trim (s : String) : trim (trim s) = trim s := by
  have h : trim (String.ofList (trim s).toList) = String.ofList (trim s).toList :=
    trim_of_ends (fun c => trim_head) (fun c => trim_last)
  rwa [String.ofList_toList] at h

/-! ## ASCII letters -/

theorem toLower_cases (c : Char) :
    c.toLower = c ∨ 97 ≤ c.toLower.val ∧ c.toLower.val ≤ 122 := by
  by_cases h : 65 ≤ c.val ∧ c.val ≤ 90
  · have hval : c.toLower.val = c.val + 32 := congrArg Char.val (dif_pos h)
    rw [hval]
    simp only [UInt32.le_iff_toNat_le, UInt32.toNat_add, UInt32.toNat_ofNat] at h ⊢
    omega
  · exact .inl (dif_neg h)

theorem toUpper_val {c : Char} (h : 'a'.val ≤ c.val ∧ c.val ≤ 'z'.val) :
    c.toUpper.val = c.val + ('A'.val - 'a'.val) := by
  delta Char.toUpper
  rw [dif_pos h]

theorem toUpper_cases (c : Char) :
    c.toUpper = c ∨ 65 ≤ c.toUpper.val ∧ c.toUpper.val ≤ 90 := by
  by_cases h : 'a'.val ≤ c.val ∧ c.val ≤ 'z'.val
  · have hshift : 'A'.val - 'a'.val = 4294967264 := by simp
    have ha : 'a'.val = 97 := rfl
    have hz : 'z'.val = 122 := rfl
    rw [toUpper_val h, hshift]
    rw [ha, hz] at h
    simp only [UInt32.le_iff_toNat_le, UInt32.toNat_add, UInt32.toNat_ofNat] at h ⊢
    omega
  · exact .inl (dif_neg h)

theorem toLower_of_small {c : Char} (h : 97 ≤ c.val ∧ c.val ≤ 122) : c.toLower = c := by
  have hnot : ¬ (65 ≤ c.val ∧ c.val ≤ 90) := by
    simp only [UInt32.le_iff_toNat_le, UInt32.toNat_ofNat] at h ⊢
    omega
  exact dif_neg hnot

@[simp] theorem toLower_toLower (c : Char) : c.toLower.toLower = c.toLower := by
  rcases toLower_cases c with hsame | hletter
  · rw [hsame, hsame]
  · exact toLower_of_small hletter

/-! ## Numbers -/

/-- The number a list of decimal digits writes, `none` for anything else or past `u64::MAX`. -/
def parseDigits (cs : List Char) : Option Nat :=
  if cs = [] ∨ ¬ cs.all Char.isDigit then none
  else
    let n := Nat.ofDigitChars 10 cs 0
    if n ≤ u64Max then some n else none

/-- `str::parse::<u64>`, which admits one leading `+`. -/
def parseU64 (s : String) : Option Nat :=
  match s.toList with
  | '+' :: cs => parseDigits cs
  | cs => parseDigits cs

theorem parseDigits_toDigits {n : Nat} (h : n ≤ u64Max) :
    parseDigits (Nat.toDigits 10 n) = some n := by
  have hd : (Nat.toDigits 10 n).all Char.isDigit = true := by
    rw [List.all_eq_true]
    intro c hc
    exact Nat.isDigit_of_mem_toDigits (by omega) (by omega) hc
  simp [parseDigits, Nat.toDigits_ne_nil, hd, Nat.ofDigitChars_toDigits, h]

theorem parseU64_repr {n : Nat} (h : n ≤ u64Max) : parseU64 (toString n) = some n := by
  have hl : (toString n).toList = Nat.toDigits 10 n := Nat.toList_repr
  have hplus : ∀ cs, Nat.toDigits 10 n ≠ '+' :: cs := by
    intro cs hc
    have : '+' ∈ Nat.toDigits 10 n := by rw [hc]; exact List.mem_cons_self
    have := Nat.isDigit_of_mem_toDigits (by omega) (by omega) this
    exact absurd this (by simp)
  unfold parseU64
  rw [hl]
  split
  · rename_i cs hc
    exact absurd hc (hplus cs)
  · exact parseDigits_toDigits h

end RustyPick
