import RustyPick.Lossy

/-!
# RustyPick.Percent

Percent decoding of the parts of a request's target (`web/http.rs`).

The number after a `%` is read by the standard library, which takes a leading `+` for a sign. So
`%+F` is taken for an escape.

* `percentDecode_exact_iff`: nothing else is.
-/

namespace RustyPick

/-- `char::to_digit(16)` of one byte. -/
def hexDigit? (b : UInt8) : Option Nat :=
  if 48 ≤ b ∧ b ≤ 57 then some (b.toNat - 48)
  else if 65 ≤ b ∧ b ≤ 70 then some (b.toNat - 55)
  else if 97 ≤ b ∧ b ≤ 102 then some (b.toNat - 87)
  else none

def u8Digits (acc : Nat) : Bytes → Option UInt8
  | [] => some (UInt8.ofNat acc)
  | b :: rest =>
    match hexDigit? b with
    | none => none
    | some d => if acc * 16 + d < 256 then u8Digits (acc * 16 + d) rest else none

/-- `u8::from_str_radix(_, 16)`, which admits one leading `+`. -/
def u8FromHex : Bytes → Option UInt8
  | [] => none
  | b :: rest =>
    if rest = [] ∧ (b = 43 ∨ b = 45) then none
    else if b = 43 then u8Digits 0 rest
    else u8Digits 0 (b :: rest)

/-- What the two bytes after a `%` stand for. -/
def hexByte (b1 b2 : UInt8) : Option UInt8 :=
  (fromUtf8? [b1, b2]).bind fun h => u8FromHex (utf8 h)

def orSpace (plusIsSpace : Bool) (b : UInt8) : UInt8 := if b = 43 ∧ plusIsSpace then 32 else b

/-- The loop of `percent_decode`. -/
def percentLoop (plusIsSpace : Bool) : Bytes → Bytes
  | b :: b1 :: b2 :: rest =>
    match if b = 37 then hexByte b1 b2 else none with
    | some byte => byte :: percentLoop plusIsSpace rest
    | none => orSpace plusIsSpace b :: percentLoop plusIsSpace (b1 :: b2 :: rest)
  -- no room for an escape
  | b :: rest => orSpace plusIsSpace b :: percentLoop plusIsSpace rest
  | [] => []

def percentDecode (value : String) (plusIsSpace : Bool) : String :=
  fromUtf8Lossy (percentLoop plusIsSpace (utf8 value))

/-! ## Escapes -/

/-- An escape, and nothing else, is replaced by the byte it names. -/
inductive Decodes (plusIsSpace : Bool) : Bytes → Bytes → Prop where
  | nil : Decodes plusIsSpace [] []
  | escape {h l : UInt8} {hi lo : Nat} {rest out : Bytes} : hexDigit? h = some hi →
      hexDigit? l = some lo → Decodes plusIsSpace rest out →
      Decodes plusIsSpace (37 :: h :: l :: rest) (UInt8.ofNat (hi * 16 + lo) :: out)
  | plain {b : UInt8} {rest out : Bytes} :
      (b = 37 → ∀ h l more, rest = h :: l :: more → (hexDigit? h).isSome → hexDigit? l = none) →
      Decodes plusIsSpace rest out →
      Decodes plusIsSpace (b :: rest) ((if b = 43 ∧ plusIsSpace then 32 else b) :: out)

/-- A `%`, a sign and a digit. -/
def SignedEscape (b : Bytes) : Prop :=
  ∃ p d q, b = p ++ 37 :: 43 :: d :: q ∧ (hexDigit? d).isSome

theorem hexDigit?_lt {b : UInt8} {d : Nat} (h : hexDigit? b = some d) : d < 16 ∧ b < 0x80 := by
  simp only [hexDigit?, UInt8.le_iff_toNat_le, UInt8.reduceToNat] at h
  simp only [UInt8.lt_iff_toNat_lt, UInt8.reduceToNat]
  split_ifs at h <;> cases h <;> omega

theorem u8FromHex_unsigned {b1 b2 : UInt8} (h : b1 ≠ 43) : u8FromHex [b1, b2] =
    (hexDigit? b1).bind fun hi => (hexDigit? b2).map fun lo => UInt8.ofNat (hi * 16 + lo) := by
  simp only [u8FromHex, List.cons_ne_nil, false_and, if_false, if_neg h, u8Digits, Nat.zero_mul,
    Nat.zero_add]
  cases h1 : hexDigit? b1 with
  | none => rfl
  | some hi =>
    have hlt := (hexDigit?_lt h1).1
    dsimp only
    rw [if_pos (by omega)]
    cases h2 : hexDigit? b2 with
    | none => rfl
    | some lo =>
      have hlt' := (hexDigit?_lt h2).1
      dsimp only
      rw [if_pos (by omega)]
      rfl

theorem u8FromHex_signed (b2 : UInt8) :
    u8FromHex [43, b2] = (hexDigit? b2).map UInt8.ofNat := by
  simp only [u8FromHex, List.cons_ne_nil, false_and, if_false, if_true, u8Digits, Nat.zero_mul,
    Nat.zero_add]
  cases h2 : hexDigit? b2 with
  | none => rfl
  | some lo =>
    have hlt := (hexDigit?_lt h2).1
    dsimp only
    rw [if_pos (by omega)]
    rfl

/-- Two bytes that are no text are no number either. -/
theorem hexByte_eq (b1 b2 : UInt8) : hexByte b1 b2 = u8FromHex [b1, b2] := by
  unfold hexByte
  cases h : fromUtf8? [b1, b2] with
  | some s => exact congrArg u8FromHex (utf8_of_fromUtf8? h)
  | none =>
    rw [Option.bind_none, eq_comm, Option.eq_none_iff_forall_ne_some]
    intro byte hbyte
    have hascii : b1.toNat < 128 ∧ b2.toNat < 128 := by
      by_cases hsign : b1 = 43
      · subst hsign
        rw [u8FromHex_signed, Option.map_eq_some_iff] at hbyte
        obtain ⟨lo, hlo, -⟩ := hbyte
        exact ⟨by decide, (hexDigit?_lt hlo).2⟩
      · rw [u8FromHex_unsigned hsign, Option.bind_eq_some_iff] at hbyte
        obtain ⟨hi, hhi, hbyte⟩ := hbyte
        obtain ⟨lo, hlo, -⟩ := Option.map_eq_some_iff.mp hbyte
        exact ⟨(hexDigit?_lt hhi).2, (hexDigit?_lt hlo).2⟩
    have htext : fromUtf8? [b1, b2] ≠ none := by
      have hall : ∀ c ∈ [b1, b2], c.toNat < 128 := by simpa using hascii
      rw [← utf8_ofBytes hall, fromUtf8?_utf8]
      exact Option.some_ne_none _
    exact htext h

theorem hexByte_some {b1 b2 byte : UInt8} (h : hexByte b1 b2 = some byte) (hsign : b1 ≠ 43) :
    ∃ hi lo, hexDigit? b1 = some hi ∧ hexDigit? b2 = some lo ∧
      byte = UInt8.ofNat (hi * 16 + lo) := by
  rw [hexByte_eq, u8FromHex_unsigned hsign, Option.bind_eq_some_iff] at h
  obtain ⟨hi, hhi, h⟩ := h
  obtain ⟨lo, hlo, h⟩ := Option.map_eq_some_iff.mp h
  exact ⟨hi, lo, hhi, hlo, h.symm⟩

theorem hexByte_signed {b2 byte : UInt8} (h : hexByte 43 b2 = some byte) :
    ∃ lo, hexDigit? b2 = some lo ∧ byte = UInt8.ofNat lo := by
  rw [hexByte_eq, u8FromHex_signed] at h
  obtain ⟨lo, hlo, h⟩ := Option.map_eq_some_iff.mp h
  exact ⟨lo, hlo, h.symm⟩

theorem hexDigit?_sign : hexDigit? 43 = none := rfl

theorem hexByte_digits {b1 b2 : UInt8} {hi lo : Nat} (h1 : hexDigit? b1 = some hi)
    (h2 : hexDigit? b2 = some lo) : hexByte b1 b2 = some (UInt8.ofNat (hi * 16 + lo)) := by
  have hsign : b1 ≠ 43 := by
    rintro rfl
    rw [hexDigit?_sign] at h1
    cases h1
  rw [hexByte_eq, u8FromHex_unsigned hsign, h1, h2]
  rfl

/-! ## Where the sign stands -/

theorem SignedEscape.cons {b : UInt8} {rest : Bytes} (h : SignedEscape rest) :
    SignedEscape (b :: rest) := by
  obtain ⟨p, d, q, rfl, hd⟩ := h
  exact ⟨b :: p, d, q, rfl, hd⟩

theorem SignedEscape.tail {b : UInt8} {rest : Bytes} (h : SignedEscape (b :: rest)) :
    (b = 37 ∧ ∃ d q, rest = 43 :: d :: q ∧ (hexDigit? d).isSome) ∨ SignedEscape rest := by
  obtain ⟨p, d, q, heq, hd⟩ := h
  cases p with
  | nil =>
    cases heq
    exact Or.inl ⟨rfl, d, q, rfl, hd⟩
  | cons c p =>
    cases heq
    exact Or.inr ⟨p, d, q, rfl, hd⟩

/-- A digit starts no escape. -/
theorem SignedEscape.of_digit {b : UInt8} {hi : Nat} {rest : Bytes}
    (h : SignedEscape (b :: rest)) (hb : hexDigit? b = some hi) : SignedEscape rest := by
  rcases h.tail with ⟨rfl, -⟩ | htail
  · rw [show hexDigit? 37 = none from rfl] at hb
    cases hb
  · exact htail

theorem SignedEscape.length {b : Bytes} (h : SignedEscape b) : 3 ≤ b.length := by
  obtain ⟨p, d, q, rfl, -⟩ := h
  simp only [List.length_append, List.length_cons]
  omega

variable {plusIsSpace : Bool}

theorem percentLoop_decodes {b : Bytes} (h : ¬ SignedEscape b) :
    Decodes plusIsSpace b (percentLoop plusIsSpace b) := by
  fun_induction percentLoop plusIsSpace b with
  | case1 b b1 b2 rest byte hbyte ih =>
    by_cases hpercent : b = 37
    · subst hpercent
      rw [if_pos rfl] at hbyte
      by_cases hsign : b1 = 43
      · subst hsign
        obtain ⟨lo, hlo, -⟩ := hexByte_signed hbyte
        exact absurd ⟨[], b2, rest, rfl, by rw [hlo]; rfl⟩ h
      · obtain ⟨hi, lo, hhi, hlo, rfl⟩ := hexByte_some hbyte hsign
        exact .escape hhi hlo (ih fun hs => h hs.cons.cons.cons)
    · rw [if_neg hpercent] at hbyte
      cases hbyte
  | case2 b b1 b2 rest hnone ih =>
    refine .plain ?_ (ih fun hs => h hs.cons)
    rintro rfl h1 l more heq hh
    cases heq
    rw [if_pos rfl] at hnone
    obtain ⟨hi, hhi⟩ := Option.isSome_iff_exists.mp hh
    by_contra hl
    obtain ⟨lo, hlo⟩ := Option.ne_none_iff_exists'.mp hl
    rw [hexByte_digits hhi hlo] at hnone
    cases hnone
  | case3 b rest hshort ih =>
    refine .plain ?_ (ih fun hs => h hs.cons)
    rintro - h1 l more rfl -
    exact absurd rfl (hshort h1 l more)
  | case4 => exact .nil

/-- At the first sign the decoded bytes part. -/
theorem percentLoop_parts {b out : Bytes} (h : SignedEscape b) (hd : Decodes plusIsSpace b out) :
    ∃ p c q q', percentLoop plusIsSpace b = p ++ c :: q ∧ out = p ++ 37 :: q' ∧ c.toNat < 16 := by
  fun_induction percentLoop plusIsSpace b generalizing out with
  | case1 b b1 b2 rest byte hbyte ih =>
    by_cases hpercent : b = 37
    · subst hpercent
      rw [if_pos rfl] at hbyte
      by_cases hsign : b1 = 43
      · subst hsign
        obtain ⟨lo, hlo, rfl⟩ := hexByte_signed hbyte
        have hlt := (hexDigit?_lt hlo).1
        cases hd with
        | escape hh _ _ => rw [hexDigit?_sign] at hh; cases hh
        | plain _ hrest =>
          refine ⟨[], UInt8.ofNat lo, _, _, rfl, rfl, ?_⟩
          rw [UInt8.toNat_ofNat']
          omega
      · obtain ⟨hi, lo, hhi, hlo, rfl⟩ := hexByte_some hbyte hsign
        have hlater : SignedEscape rest := by
          rcases h.tail with ⟨-, d, q, heq, -⟩ | htail
          · cases heq
            exact absurd rfl hsign
          · exact (htail.of_digit hhi).of_digit hlo
        cases hd with
        | escape hh hl hrest =>
          rw [hhi] at hh
          rw [hlo] at hl
          cases hh
          cases hl
          obtain ⟨p, c, q, q', hloop, rfl, hc⟩ := ih hlater hrest
          exact ⟨_ :: p, c, q, q', by rw [hloop]; rfl, rfl, hc⟩
        | plain hnot _ =>
          have := hnot rfl b1 b2 rest rfl (by rw [hhi]; rfl)
          rw [hlo] at this
          cases this
    · rw [if_neg hpercent] at hbyte
      cases hbyte
  | case2 b b1 b2 rest hnone ih =>
    have hlater : SignedEscape (b1 :: b2 :: rest) := by
      rcases h.tail with ⟨rfl, d, q, heq, hdigit⟩ | htail
      · cases heq
        obtain ⟨lo, hlo⟩ := Option.isSome_iff_exists.mp hdigit
        rw [if_pos rfl, hexByte_eq, u8FromHex_signed, hlo] at hnone
        cases hnone
      · exact htail
    cases hd with
    | escape hh hl _ =>
      rw [if_pos rfl, hexByte_digits hh hl] at hnone
      cases hnone
    | plain _ hrest =>
      obtain ⟨p, c, q, q', hloop, rfl, hc⟩ := ih hlater hrest
      exact ⟨_ :: p, c, q, q', by rw [hloop]; rfl, rfl, hc⟩
  | case3 b rest hshort ih =>
    have hlen := h.length
    match rest, hshort, hlen with
    | b1 :: b2 :: more, hshort, _ => exact absurd rfl (hshort b1 b2 more)
  | case4 => exact absurd h.length (by decide)

theorem percentDecode_parts {text : String} (h : SignedEscape (utf8 text)) :
    ¬ ∃ out, Decodes plusIsSpace (utf8 text) out ∧
      percentDecode text plusIsSpace = fromUtf8Lossy out := by
  rintro ⟨out, hd, heq⟩
  obtain ⟨p, c, q, q', hloop, rfl, hc⟩ := percentLoop_parts h hd
  have hascii : c < 0x80 := by
    simp only [UInt8.lt_iff_toNat_lt, UInt8.reduceToNat]
    omega
  rw [percentDecode, hloop, fromUtf8Lossy_append hascii, fromUtf8Lossy_append (by decide)] at heq
  have hchars := List.append_cancel_left (String.ofList_injective heq)
  have hsame := congrArg Char.toNat (List.cons.inj hchars).1
  rw [toNat_ofNat_ascii _ (by omega), toNat_ofNat_ascii _ (by decide)] at hsame
  rw [hsame] at hc
  exact absurd hc (by decide)

/-! ## Percent-encoding -/

/-- The bytes that stand for themselves in an encoded text: letters, digits, and `-`, `.`, `_`,
`~`. -/
def isUnreserved (b : UInt8) : Bool :=
  (65 ≤ b && b ≤ 90) || (97 ≤ b && b ≤ 122) || (48 ≤ b && b ≤ 57) || b = 45 || b = 46 || b = 95 ||
    b = 126

def hexLetter (n : Nat) : UInt8 := if n < 10 then UInt8.ofNat (48 + n) else UInt8.ofNat (55 + n)

def percentByte (b : UInt8) : Bytes :=
  if isUnreserved b then [b] else [37, hexLetter (b.toNat / 16), hexLetter (b.toNat % 16)]

def percentEncode (text : String) : String :=
  String.ofList (((utf8 text).flatMap percentByte).map fun b => Char.ofNat b.toNat)

theorem hexLetter_spec : ∀ n < 16, hexDigit? (hexLetter n) = some n ∧ (hexLetter n).toNat < 128 := by
  decide

theorem isUnreserved_spec {b : UInt8} (h : isUnreserved b = true) :
    b ≠ 37 ∧ b ≠ 43 ∧ b.toNat < 128 := by
  have hall : ∀ n < 256, isUnreserved (UInt8.ofNat n) = true →
      UInt8.ofNat n ≠ 37 ∧ UInt8.ofNat n ≠ 43 ∧ (UInt8.ofNat n).toNat < 128 := by decide +kernel
  have hb := hall b.toNat b.toNat_lt
  rw [UInt8.ofNat_toNat] at hb
  exact hb h

theorem percentByte_ascii {b c : UInt8} (h : c ∈ percentByte b) : c.toNat < 128 := by
  have hb := b.toNat_lt
  unfold percentByte at h
  split at h
  · rename_i hu
    rw [List.mem_singleton.mp h]
    exact (isUnreserved_spec hu).2.2
  · simp only [List.mem_cons, List.not_mem_nil, or_false] at h
    rcases h with rfl | rfl | rfl
    · decide
    · exact (hexLetter_spec _ (by omega)).2
    · exact (hexLetter_spec _ (by omega)).2

theorem percentLoop_ne {b : UInt8} (h : b ≠ 37) (rest : Bytes) :
    percentLoop plusIsSpace (b :: rest) = orSpace plusIsSpace b :: percentLoop plusIsSpace rest := by
  match rest with
  | [] => rfl
  | [_] => rfl
  | b1 :: b2 :: rest => rw [percentLoop, if_neg h]

theorem percentLoop_percentByte (b : UInt8) (rest : Bytes) :
    percentLoop plusIsSpace (percentByte b ++ rest) = b :: percentLoop plusIsSpace rest := by
  have hb := b.toNat_lt
  unfold percentByte
  split
  · rename_i hu
    obtain ⟨hpercent, hplus, -⟩ := isUnreserved_spec hu
    rw [List.singleton_append, percentLoop_ne hpercent, orSpace, if_neg fun hc => hplus hc.1]
  · have hhi := (hexLetter_spec (b.toNat / 16) (by omega)).1
    have hlo := (hexLetter_spec (b.toNat % 16) (by omega)).1
    have hvalue : b.toNat / 16 * 16 + b.toNat % 16 = b.toNat := by omega
    simp only [List.cons_append, List.nil_append, percentLoop, if_true, hexByte_digits hhi hlo,
      hvalue, UInt8.ofNat_toNat]

theorem percentDecode_percentEncode (text : String) (plusIsSpace : Bool) :
    percentDecode (percentEncode text) plusIsSpace = text := by
  have hascii : ∀ c ∈ (utf8 text).flatMap percentByte, c.toNat < 128 := by
    intro c hc
    obtain ⟨b, -, hb⟩ := List.mem_flatMap.mp hc
    exact percentByte_ascii hb
  have hloop : ∀ bytes : Bytes, percentLoop plusIsSpace (bytes.flatMap percentByte) = bytes := by
    intro bytes
    induction bytes with
    | nil => rfl
    | cons b bytes ih => rw [List.flatMap_cons, percentLoop_percentByte, ih]
  rw [percentDecode, percentEncode, utf8_ofBytes hascii, hloop, fromUtf8Lossy_utf8]

/-- Escapes are decoded and nothing else, where no `%` is followed by a sign and a digit. What has
been percent-encoded comes back in any case. -/
theorem percentDecode_exact_iff (text : String) (plusIsSpace : Bool) :
    ((∃ out, Decodes plusIsSpace (utf8 text) out ∧
        percentDecode text plusIsSpace = fromUtf8Lossy out) ↔ ¬ SignedEscape (utf8 text)) ∧
      percentDecode (percentEncode text) plusIsSpace = text := by
  refine ⟨⟨fun hexact hs => percentDecode_parts hs hexact, fun h => ?_⟩,
    percentDecode_percentEncode text plusIsSpace⟩
  exact ⟨percentLoop plusIsSpace (utf8 text), percentLoop_decodes h, rfl⟩

/-- The sign and the digit after it are gone. -/
theorem signed_decoded : percentDecode "/%+F" false = "/\x0f" ∧
    ¬ ∃ out, Decodes false (utf8 "/%+F") out ∧
      percentDecode "/%+F" false = fromUtf8Lossy out := by
  refine ⟨?_, percentDecode_parts ⟨[47], 70, [], rfl, rfl⟩⟩
  decide +kernel

end RustyPick
