import RustyPick.Base64

/-!
# RustyPick.Base64Exact

Which texts `decode` takes for a spelling that `encode` would not have written (`db/base64.rs`).

Each group of four letters is decoded by itself, so padding is refused inside a group and not
before the end of the text, and the bits of a padded group that no byte takes are dropped unseen.
`respells_iff`: these two are all there is.
-/

namespace RustyPick

namespace Base64

/-! ## The text by groups -/

/-- The letters four at a time, as `chunks(4)` gives them for a text that is whole groups. -/
def groups : Bytes → List Bytes
  | c0 :: c1 :: c2 :: c3 :: rest => [c0, c1, c2, c3] :: groups rest
  | _ => []

/-- The place of a letter in the alphabet. -/
def place (c : UInt8) : Nat := (sixOf c).getD 0

/-- Two letters at least, and padding for the last one or two only. -/
def Understood : Bytes → Prop
  | [c0, c1, c2, c3] => c0 ∈ ALPHABET ∧ c1 ∈ ALPHABET ∧
      ((c2 ∈ ALPHABET ∧ (c3 ∈ ALPHABET ∨ c3 = PAD)) ∨ (c2 = PAD ∧ c3 = PAD))
  | _ => False

/-- The bits of the last letter that go into no byte. -/
def unusedBits : Bytes → Nat
  | [_, c1, c2, c3] =>
    if c2 = PAD then place c1 % 16 else if c3 = PAD then place c2 % 4 else 0
  | _ => 0

/-- Padded in its last group only, and nothing hidden in the bits the padding leaves over. -/
def Spelled (bytes : Bytes) : Prop :=
  (∀ g ∈ (groups bytes).dropLast, PAD ∉ g) ∧
    ∀ g, (groups bytes).getLast? = some g → unusedBits g = 0

/-- A text that is no base64 at all, or base64 as `encode` writes it. -/
def Exact (text : String) : Prop :=
  (utf8 text).length % 4 = 0 → (∀ g ∈ groups (utf8 text), Understood g) → Spelled (utf8 text)

/-! ## Letters -/

theorem place_letter {n : Nat} (h : n < 64) : place (letter n) = n := by
  rw [place, sixOf_letter, Option.getD_some, Nat.mod_eq_of_lt h]

theorem letter_mod (n : Nat) : letter (n % 64) = letter n := by
  rw [letter_eq, letter_eq, Nat.mod_mod]

theorem exists_letter {c : UInt8} (h : c ∈ ALPHABET) : ∃ n < 64, c = letter n := by
  obtain ⟨n, hn, rfl⟩ := List.getElem_of_mem h
  have hlt : n < 64 := by
    rw [alphabet_eq] at hn
    exact hn
  refine ⟨n, hlt, ?_⟩
  rw [letter_eq, Nat.mod_eq_of_lt hlt, List.getD, List.getElem?_eq_getElem hn, Option.getD_some]

/-- The bytes that have a place are the letters. -/
theorem mem_alphabet_of_sixOf {c : UInt8} (h : (sixOf c).isSome) : c ∈ ALPHABET := by
  rw [alphabet_eq, List.mem_map]
  refine ⟨c.toNat, ?_, UInt8.ofNat_toNat⟩
  unfold sixOf at h
  simp only [UInt8.le_iff_toNat_le, UInt8.reduceToNat] at h
  split_ifs at h with hupper hlower hdigit hplus hslash
  · simp [List.mem_range'_1]; omega
  · simp [List.mem_range'_1]; omega
  · simp [List.mem_range'_1]; omega
  · simp [hplus]
  · simp [hslash]
  · cases h

theorem mem_alphabet_iff (c : UInt8) : c ∈ ALPHABET ↔ (sixOf c).isSome := by
  refine ⟨fun h => ?_, mem_alphabet_of_sixOf⟩
  obtain ⟨n, -, rfl⟩ := exists_letter h
  rw [sixOf_letter, Option.isSome_some]

/-! ## One group -/

/-- The three forms of a group that is understood. -/
theorem understood_cases {g : Bytes} (h : Understood g) :
    ∃ n0 n1, n0 < 64 ∧ n1 < 64 ∧
      ((∃ n2 n3, n2 < 64 ∧ n3 < 64 ∧ g = [letter n0, letter n1, letter n2, letter n3]) ∨
        (∃ n2, n2 < 64 ∧ g = [letter n0, letter n1, letter n2, PAD]) ∨
        g = [letter n0, letter n1, PAD, PAD]) := by
  unfold Understood at h
  split at h
  · obtain ⟨h0, h1, ⟨h2, h3 | rfl⟩ | ⟨rfl, rfl⟩⟩ := h
    all_goals
      obtain ⟨n0, hn0, rfl⟩ := exists_letter h0
      obtain ⟨n1, hn1, rfl⟩ := exists_letter h1
      refine ⟨n0, n1, hn0, hn1, ?_⟩
    · obtain ⟨n2, hn2, rfl⟩ := exists_letter h2
      obtain ⟨n3, hn3, rfl⟩ := exists_letter h3
      exact Or.inl ⟨n2, n3, hn2, hn3, rfl⟩
    · obtain ⟨n2, hn2, rfl⟩ := exists_letter h2
      exact Or.inr (Or.inl ⟨n2, hn2, rfl⟩)
    · exact Or.inr (Or.inr rfl)
  · exact h.elim

/-- What is decoded is understood. -/
theorem decodeChunk_understood {c0 c1 c2 c3 : UInt8} {out : Bytes}
    (h : decodeChunk [c0, c1, c2, c3] = some out) : Understood [c0, c1, c2, c3] := by
  simp only [Understood, mem_alphabet_iff]
  unfold decodeChunk at h
  by_cases p0 : c0 = PAD
  · simp [collectSixes, p0] at h
  cases s0 : sixOf c0 with
  | none => simp [collectSixes, p0, s0] at h
  | some n0 =>
    by_cases p1 : c1 = PAD
    · simp [collectSixes, p0, s0, p1] at h
    cases s1 : sixOf c1 with
    | none => simp [collectSixes, p0, s0, p1, s1] at h
    | some n1 =>
      refine ⟨rfl, rfl, ?_⟩
      by_cases p2 : c2 = PAD
      · by_cases p3 : c3 = PAD
        · exact Or.inr ⟨p2, p3⟩
        · simp [collectSixes, p0, s0, p1, s1, p2, p3] at h
      cases s2 : sixOf c2 with
      | none => simp [collectSixes, p0, s0, p1, s1, p2, s2] at h
      | some n2 =>
        refine Or.inl ⟨rfl, ?_⟩
        by_cases p3 : c3 = PAD
        · exact Or.inr p3
        cases s3 : sixOf c3 with
        | none => simp [collectSixes, p0, s0, p1, s1, p2, s2, p3, s3] at h
        | some n3 => exact Or.inl rfl

section

variable {n0 n1 n2 n3 : Nat} (h0 : n0 < 64) (h1 : n1 < 64)

include h0 h1

/-- Two letters are one byte, which is spelled as they are when the second hides nothing. -/
theorem decodeChunk_two_letters :
    ∃ b0, decodeChunk [letter n0, letter n1, PAD, PAD] = some [b0] ∧
      (n1 % 16 = 0 → encodeChunks [b0] = [letter n0, letter n1, PAD, PAD]) := by
  refine ⟨UInt8.ofNat (n0 * 4 + n1 / 16), ?_, ?_⟩
  · rw [decodeChunk, collectSixes_two, show ∀ triple, collectSixes 2 triple 2 [PAD, PAD] =
      some (triple, 2) from fun _ => rfl]
    simp only [Option.some.injEq, List.cons.injEq, and_true]
    apply congrArg
    simp only [Nat.shiftRight_eq_div_pow, Nat.shiftLeft_eq]
    omega
  · intro hz
    have hb : (UInt8.ofNat (n0 * 4 + n1 / 16)).toNat = n0 * 4 + n1 / 16 := by
      rw [UInt8.toNat_ofNat']
      omega
    rw [encodeChunks]
    simp only [List.cons.injEq, and_true]
    rw [← letter_mod, ← letter_mod (tripleOf _ _ _ >>> 12)]
    refine ⟨congrArg letter ?_, congrArg letter ?_⟩ <;>
      · simp only [tripleOf_eq, hb, Nat.shiftRight_eq_div_pow, UInt8.toNat_zero]
        omega

/-- Three letters are two bytes. -/
theorem decodeChunk_three_letters (h2 : n2 < 64) :
    ∃ b0 b1, decodeChunk [letter n0, letter n1, letter n2, PAD] = some [b0, b1] ∧
      (n2 % 4 = 0 → encodeChunks [b0, b1] = [letter n0, letter n1, letter n2, PAD]) := by
  refine ⟨UInt8.ofNat (n0 * 4 + n1 / 16), UInt8.ofNat (n1 % 16 * 16 + n2 / 4), ?_, ?_⟩
  · rw [decodeChunk, collectSixes_two, collectSixes_letter (i := 2) (by omega),
      show ∀ triple, collectSixes 3 triple 3 [PAD] = some (triple, 3) from fun _ => rfl]
    simp only [Option.some.injEq, List.cons.injEq, and_true]
    refine ⟨?_, ?_⟩ <;>
      · apply UInt8.toNat_inj.mp
        simp only [UInt8.toNat_ofNat', Nat.shiftRight_eq_div_pow, Nat.shiftLeft_eq]
        omega
  · intro hz
    have hb0 : (UInt8.ofNat (n0 * 4 + n1 / 16)).toNat = n0 * 4 + n1 / 16 := by
      rw [UInt8.toNat_ofNat']
      omega
    have hb1 : (UInt8.ofNat (n1 % 16 * 16 + n2 / 4)).toNat = n1 % 16 * 16 + n2 / 4 := by
      rw [UInt8.toNat_ofNat']
      omega
    rw [encodeChunks]
    simp only [List.cons.injEq, and_true]
    rw [← letter_mod, ← letter_mod (tripleOf _ _ _ >>> 12), ← letter_mod (tripleOf _ _ _ >>> 6)]
    refine ⟨congrArg letter ?_, congrArg letter ?_, congrArg letter ?_⟩ <;>
      · simp only [tripleOf_eq, hb0, hb1, Nat.shiftRight_eq_div_pow, UInt8.toNat_zero]
        omega

/-- Four letters are three bytes, and no bit is left over. -/
theorem decodeChunk_four_letters (h2 : n2 < 64) (h3 : n3 < 64) :
    ∃ b0 b1 b2, decodeChunk [letter n0, letter n1, letter n2, letter n3] = some [b0, b1, b2] ∧
      encodeChunks [b0, b1, b2] = [letter n0, letter n1, letter n2, letter n3] := by
  refine ⟨UInt8.ofNat (n0 * 4 + n1 / 16), UInt8.ofNat (n1 % 16 * 16 + n2 / 4),
    UInt8.ofNat (n2 % 4 * 64 + n3), ?_, ?_⟩
  · rw [decodeChunk, collectSixes_two, collectSixes_letter (i := 2) (by omega),
      collectSixes_letter (i := 3) (by omega), collectSixes]
    simp only [Option.some.injEq, List.cons.injEq, and_true]
    refine ⟨?_, ?_, ?_⟩ <;>
      · apply UInt8.toNat_inj.mp
        simp only [UInt8.toNat_ofNat', Nat.shiftRight_eq_div_pow, Nat.shiftLeft_eq]
        omega
  · have hb0 : (UInt8.ofNat (n0 * 4 + n1 / 16)).toNat = n0 * 4 + n1 / 16 := by
      rw [UInt8.toNat_ofNat']
      omega
    have hb1 : (UInt8.ofNat (n1 % 16 * 16 + n2 / 4)).toNat = n1 % 16 * 16 + n2 / 4 := by
      rw [UInt8.toNat_ofNat']
      omega
    have hb2 : (UInt8.ofNat (n2 % 4 * 64 + n3)).toNat = n2 % 4 * 64 + n3 := by
      rw [UInt8.toNat_ofNat']
      omega
    rw [encodeChunks, encodeChunks]
    simp only [List.cons.injEq, and_true]
    rw [← letter_mod, ← letter_mod (tripleOf _ _ _ >>> 12), ← letter_mod (tripleOf _ _ _ >>> 6),
      ← letter_mod (tripleOf _ _ _)]
    refine ⟨congrArg letter ?_, congrArg letter ?_, congrArg letter ?_, congrArg letter ?_⟩ <;>
      · simp only [tripleOf_eq, hb0, hb1, hb2, Nat.shiftRight_eq_div_pow]
        omega

end

/-- A group that is understood decodes: to three bytes unless it is padded, and to bytes that are
spelled as it is when it leaves no bit over. -/
theorem decodeChunk_spec {g : Bytes} (h : Understood g) :
    ∃ out, decodeChunk g = some out ∧ (PAD ∉ g → out.length = 3 ∧ unusedBits g = 0) ∧
      (unusedBits g = 0 → encodeChunks out = g) := by
  obtain ⟨n0, n1, h0, h1, ⟨n2, n3, h2, h3, rfl⟩ | ⟨n2, h2, rfl⟩ | rfl⟩ := understood_cases h
  · obtain ⟨b0, b1, b2, hdec, henc⟩ := decodeChunk_four_letters h0 h1 h2 h3
    refine ⟨_, hdec, fun _ => ⟨rfl, ?_⟩, fun _ => henc⟩
    rw [unusedBits, if_neg (letter_ne_pad n2), if_neg (letter_ne_pad n3)]
  · obtain ⟨b0, b1, hdec, henc⟩ := decodeChunk_three_letters h0 h1 h2
    refine ⟨_, hdec, fun hpad => absurd (by simp) hpad, fun hbits => henc ?_⟩
    rwa [unusedBits, if_neg (letter_ne_pad n2), if_pos rfl, place_letter h2] at hbits
  · obtain ⟨b0, hdec, henc⟩ := decodeChunk_two_letters h0 h1
    refine ⟨_, hdec, fun hpad => absurd (by simp) hpad, fun hbits => henc ?_⟩
    rwa [unusedBits, if_pos rfl, place_letter h1] at hbits

/-! ## The whole text -/

theorem groups_eq_nil {bytes : Bytes} (hlen : bytes.length % 4 = 0) (h : groups bytes = []) :
    bytes = [] := by
  match bytes with
  | [] => rfl
  | [_] | [_, _] | [_, _, _] => simp at hlen
  | _ :: _ :: _ :: _ :: _ => cases h

theorem decodeChunks_cons {c0 c1 c2 c3 : UInt8} {rest bytes : Bytes} :
    decodeChunks (c0 :: c1 :: c2 :: c3 :: rest) = some bytes ↔
      ∃ front back, decodeChunk [c0, c1, c2, c3] = some front ∧ decodeChunks rest = some back ∧
        front ++ back = bytes := by
  simp only [decodeChunks, Option.bind_eq_bind, Option.bind_eq_some_iff, Option.some.injEq]
  constructor
  · rintro ⟨front, hf, back, hb, rfl⟩
    exact ⟨front, back, hf, hb, rfl⟩
  · rintro ⟨front, back, hf, hb, rfl⟩
    exact ⟨front, hf, back, hb, rfl⟩

theorem decodeChunks_isSome_iff {letters : Bytes} :
    (∃ bytes, decodeChunks letters = some bytes) ↔ ∀ g ∈ groups letters, Understood g := by
  fun_induction groups letters with
  | case1 c0 c1 c2 c3 rest ih =>
    simp only [decodeChunks_cons, List.forall_mem_cons]
    constructor
    · rintro ⟨bytes, front, back, hf, hb, -⟩
      exact ⟨decodeChunk_understood hf, ih.mp ⟨back, hb⟩⟩
    · rintro ⟨hg, hrest⟩
      obtain ⟨front, hf, -⟩ := decodeChunk_spec hg
      obtain ⟨back, hb⟩ := ih.mpr hrest
      exact ⟨_, front, back, hf, hb, rfl⟩
  | case2 letters hshort =>
    refine ⟨fun _ => by simp, fun _ => ⟨[], ?_⟩⟩
    unfold decodeChunks
    split
    · exact absurd rfl (hshort _ _ _ _ _)
    · rfl

theorem encodeChunks_append {front : Bytes} (h : front.length = 3) (back : Bytes) :
    encodeChunks (front ++ back) = encodeChunks front ++ encodeChunks back := by
  match front, h with
  | [b0, b1, b2], _ => simp [encodeChunks]

/-- What is decoded is spelled as it was, when only the last group is padded and leaves no bit
over. -/
theorem encodeChunks_decodeChunks {letters bytes : Bytes} (hlen : letters.length % 4 = 0)
    (h : decodeChunks letters = some bytes) (hs : Spelled letters) :
    encodeChunks bytes = letters := by
  fun_induction groups letters generalizing bytes with
  | case1 c0 c1 c2 c3 rest ih =>
    obtain ⟨front, back, hf, hb, rfl⟩ := decodeChunks_cons.mp h
    have hrest : rest.length % 4 = 0 := by
      simp only [List.length_cons] at hlen
      omega
    obtain ⟨out, hout, hthree, hbits⟩ := decodeChunk_spec (decodeChunk_understood hf)
    rw [hf] at hout
    cases hout
    rw [Spelled, groups] at hs
    by_cases hnil : groups rest = []
    · -- The last group of the text.
      have hempty := groups_eq_nil hrest hnil
      subst hempty
      cases hb
      rw [List.append_nil]
      exact hbits (hs.2 _ rfl)
    · rw [List.dropLast_cons_of_ne_nil hnil, List.forall_mem_cons, List.getLast?_cons_of_ne_nil hnil]
        at hs
      obtain ⟨hlength, hzero⟩ := hthree hs.1.1
      rw [encodeChunks_append hlength, hbits hzero, ih hrest hb ⟨hs.1.2, hs.2⟩]
      rfl
  | case2 letters hshort =>
    have hempty : letters = [] := by
      match letters, hlen with
      | [], _ => rfl
      | [_], hlen | [_, _], hlen | [_, _, _], hlen => simp at hlen
      | _ :: _ :: _ :: _ :: _, _ => exact absurd rfl (hshort _ _ _ _ _)
    subst hempty
    cases h
    rfl

/-- What `encode` writes is padded in its last group only and leaves no bit over. -/
theorem spelled_encodeChunks (bytes : Bytes) : Spelled (encodeChunks bytes) := by
  fun_induction encodeChunks bytes with
  | case1 => simp [Spelled, groups]
  | case2 b0 triple =>
    refine ⟨by simp [groups], ?_⟩
    intro g hg
    simp only [groups, List.getLast?_singleton, Option.some.injEq] at hg
    subst hg
    have hlt := b0.toNat_lt
    rw [unusedBits, if_pos rfl, ← letter_mod, place_letter (Nat.mod_lt _ (by omega))]
    simp only [triple, tripleOf_eq, Nat.shiftRight_eq_div_pow, UInt8.toNat_zero]
    omega
  | case3 b0 b1 triple =>
    refine ⟨by simp [groups], ?_⟩
    intro g hg
    simp only [groups, List.getLast?_singleton, Option.some.injEq] at hg
    subst hg
    rw [unusedBits, if_neg (letter_ne_pad _), if_pos rfl, ← letter_mod,
      place_letter (Nat.mod_lt _ (by omega))]
    simp only [triple, tripleOf_eq, Nat.shiftRight_eq_div_pow, UInt8.toNat_zero]
    omega
  | case4 b0 b1 b2 rest triple ih =>
    have hpad : ∀ n, PAD ≠ letter n := fun n => (letter_ne_pad n).symm
    rw [Spelled, groups]
    by_cases hnil : groups (encodeChunks rest) = []
    · rw [hnil]
      refine ⟨by simp, ?_⟩
      intro g hg
      simp only [List.getLast?_singleton, Option.some.injEq] at hg
      subst hg
      rw [unusedBits, if_neg (letter_ne_pad _), if_neg (letter_ne_pad _)]
    · rw [List.dropLast_cons_of_ne_nil hnil, List.forall_mem_cons,
        List.getLast?_cons_of_ne_nil hnil]
      exact ⟨⟨by simp [hpad], ih.1⟩, ih.2⟩

theorem utf8_encode (bytes : Bytes) : utf8 (encode bytes) = encodeChunks bytes :=
  utf8_ofBytes encodeChunks_lt

/-- The text that is accepted is the one that would have been written, exactly when every group
before the last is four letters and the last leaves no bit over. -/
theorem respells_iff (text : String) :
    (∀ bytes, decode text = some bytes → encode bytes = text) ↔ Exact text := by
  constructor
  · intro h hlen hund
    obtain ⟨bytes, hbytes⟩ := decodeChunks_isSome_iff.mpr hund
    have hdec : decode text = some bytes := by
      rw [decode, if_neg (not_not_intro hlen), hbytes]
    rw [← h bytes hdec, utf8_encode]
    exact spelled_encodeChunks bytes
  · intro h bytes hdec
    unfold decode at hdec
    split at hdec
    · cases hdec
    · rename_i hlen
      have hlen := not_not.mp hlen
      have hs := h hlen (decodeChunks_isSome_iff.mp ⟨bytes, hdec⟩)
      apply utf8_injective
      rw [utf8_encode, encodeChunks_decodeChunks hlen hdec hs]

/-- Every byte string is accepted as it is spelled, and every other spelling of it is refused unless
it is padded before its end or hides something in the bits the padding leaves over. -/
theorem base64_exact_iff (bytes : Bytes) (text : String) :
    decode (encode bytes) = some bytes ∧
      ((∀ spelled, decode text = some spelled → encode spelled = text) ↔ Exact text) :=
  ⟨decode_encode bytes, respells_iff text⟩

/-- One byte has other spellings, and padding is taken where a text goes on. -/
theorem otherSpellings_accepted :
    ¬ ∀ text bytes, decode text = some bytes → encode bytes = text := by
  intro h
  have hbits := h "Zh==" (utf8 "f") (by decide +kernel)
  revert hbits
  decide +kernel

/-- Two spellings one after the other are taken for one. -/
example :
    decode "Zg==Zg==" = some (utf8 "ff") ∧ encode (utf8 "ff") ≠ "Zg==Zg==" := by
  decide +kernel

end Base64

end RustyPick
