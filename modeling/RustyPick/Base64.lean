import RustyPick.Lossy

/-!
# RustyPick.Base64

Base64 (`db/base64.rs`), the spelling bytes that are not text have where only text will do.

* `decode_encode`: every byte string comes back from its own spelling.
-/

namespace RustyPick

namespace Base64

def ALPHABET : Bytes := utf8 "ABCDEFGHIJKLMNOPQRSTUVWXYZabcdefghijklmnopqrstuvwxyz0123456789+/"

def PAD : UInt8 := 61

/-- The letter of the low six bits. -/
def letter (n : Nat) : UInt8 := ALPHABET.getD (n &&& 0x3F) 0

def tripleOf (b0 b1 b2 : UInt8) : Nat := b0.toNat <<< 16 ||| b1.toNat <<< 8 ||| b2.toNat

/-- The letters of `encode`, three bytes at a time. -/
def encodeChunks : Bytes → Bytes
  | [] => []
  | [b0] =>
    let triple := tripleOf b0 0 0
    [letter (triple >>> 18), letter (triple >>> 12), PAD, PAD]
  | [b0, b1] =>
    let triple := tripleOf b0 b1 0
    [letter (triple >>> 18), letter (triple >>> 12), letter (triple >>> 6), PAD]
  | b0 :: b1 :: b2 :: rest =>
    let triple := tripleOf b0 b1 b2
    letter (triple >>> 18) :: letter (triple >>> 12) :: letter (triple >>> 6) :: letter triple ::
      encodeChunks rest

def encode (bytes : Bytes) : String :=
  String.ofList ((encodeChunks bytes).map fun b => Char.ofNat b.toNat)

/-- The six bits a letter stands for. -/
def sixOf (c : UInt8) : Option Nat :=
  if 65 ≤ c ∧ c ≤ 90 then some (c - 65).toNat
  else if 97 ≤ c ∧ c ≤ 122 then some (c - 97 + 26).toNat
  else if 48 ≤ c ∧ c ≤ 57 then some (c - 48 + 52).toNat
  else if c = 43 then some 62
  else if c = 47 then some 63
  else none

/-- What a chunk has from letter `i` on, added to what came before, with the number of letters. -/
def collectSixes (i triple taken : Nat) : Bytes → Option (Nat × Nat)
  | [] => some (triple, taken)
  | c :: rest =>
    if c = PAD then
      -- padding is only ever the last one or two letters
      if i < 2 ∨ ∃ p ∈ c :: rest, p ≠ PAD then none else some (triple, taken)
    else
      match sixOf c with
      | none => none
      | some six => collectSixes (i + 1) (triple ||| six <<< (18 - 6 * i)) (taken + 1) rest

def decodeChunk (chunk : Bytes) : Option Bytes :=
  match collectSixes 0 0 0 chunk with
  | some (triple, 4) =>
    some [UInt8.ofNat (triple >>> 16), UInt8.ofNat (triple >>> 8), UInt8.ofNat triple]
  | some (triple, 3) => some [UInt8.ofNat (triple >>> 16), UInt8.ofNat (triple >>> 8)]
  | some (triple, 2) => some [UInt8.ofNat (triple >>> 16)]
  | _ => none

/-- The chunks of four, for a text that is whole chunks. -/
def decodeChunks : Bytes → Option Bytes
  | c0 :: c1 :: c2 :: c3 :: rest => do
    let front ← decodeChunk [c0, c1, c2, c3]
    let back ← decodeChunks rest
    some (front ++ back)
  | _ => some []

def decode (text : String) : Option Bytes :=
  if (utf8 text).length % 4 ≠ 0 then none else decodeChunks (utf8 text)

/-! ## One chunk -/

theorem letter_eq (n : Nat) : letter n = ALPHABET.getD (n % 64) 0 := by
  rw [letter, show (0x3F : Nat) = 2 ^ 6 - 1 from rfl, Nat.and_two_pow_sub_one_eq_mod]

theorem alphabet_eq : ALPHABET = (List.range' 65 26 ++ List.range' 97 26 ++ List.range' 48 10 ++
    [43, 47]).map UInt8.ofNat := by
  decide +kernel

/-- Every letter of the alphabet reads back as its place, is not the padding, and is ASCII. -/
theorem alphabet_spec : ∀ n < 64, sixOf (ALPHABET.getD n 0) = some n ∧
    ALPHABET.getD n 0 ≠ PAD ∧ (ALPHABET.getD n 0).toNat < 128 := by
  rw [alphabet_eq]
  decide +kernel

theorem sixOf_letter (n : Nat) : sixOf (letter n) = some (n % 64) :=
  letter_eq n ▸ (alphabet_spec _ (Nat.mod_lt n (by omega))).1

theorem letter_ne_pad (n : Nat) : letter n ≠ PAD :=
  letter_eq n ▸ (alphabet_spec _ (Nat.mod_lt n (by omega))).2.1

theorem letter_lt (n : Nat) : (letter n).toNat < 128 :=
  letter_eq n ▸ (alphabet_spec _ (Nat.mod_lt n (by omega))).2.2

theorem tripleOf_eq (b0 b1 b2 : UInt8) :
    tripleOf b0 b1 b2 = b0.toNat * 65536 + b1.toNat * 256 + b2.toNat := by
  have h1 := b1.toNat_lt
  have h2 := b2.toNat_lt
  rw [tripleOf, ← Nat.shiftLeft_add_eq_or_of_lt (show b1.toNat <<< 8 < 2 ^ 16 by
    rw [Nat.shiftLeft_eq]; omega)]
  rw [show b0.toNat <<< 16 + b1.toNat <<< 8 = (b0.toNat <<< 8 + b1.toNat) <<< 8 by
    simp only [Nat.shiftLeft_eq]; omega,
    ← Nat.shiftLeft_add_eq_or_of_lt (show b2.toNat < 2 ^ 8 by omega)]
  simp only [Nat.shiftLeft_eq]
  omega

/-- A letter in its place in the triple, below what is there. -/
theorem or_six {m six k : Nat} (hsix : six < 64) :
    m <<< (k + 6) ||| six <<< k = (m * 64 + six) <<< k := by
  have hlt : six <<< k < 2 ^ (k + 6) := by
    rw [Nat.shiftLeft_eq, Nat.pow_add, Nat.mul_comm]
    exact Nat.mul_lt_mul_of_pos_left hsix (Nat.two_pow_pos k)
  rw [← Nat.shiftLeft_add_eq_or_of_lt hlt]
  simp only [Nat.shiftLeft_eq, Nat.pow_add]
  ring

/-- After `i` letters the triple is the number they spell, at the top of its 24 bits. -/
theorem collectSixes_letter {i m : Nat} (hi : i < 4) (n : Nat) (rest : Bytes) :
    collectSixes i (m <<< (24 - 6 * i)) i (letter n :: rest) =
      collectSixes (i + 1) ((m * 64 + n % 64) <<< (24 - 6 * (i + 1))) (i + 1) rest := by
  have hshift : 24 - 6 * i = (18 - 6 * i) + 6 := by omega
  have hshift' : 24 - 6 * (i + 1) = 18 - 6 * i := by omega
  rw [collectSixes, if_neg (letter_ne_pad n), sixOf_letter, hshift, hshift',
    ← or_six (Nat.mod_lt n (by omega))]

theorem collectSixes_two (n0 n1 : Nat) (rest : Bytes) :
    collectSixes 0 0 0 (letter n0 :: letter n1 :: rest) =
      collectSixes 2 ((n0 % 64 * 64 + n1 % 64) <<< 12) 2 rest := by
  have h0 := collectSixes_letter (i := 0) (m := 0) (by omega) n0 (letter n1 :: rest)
  have h1 := collectSixes_letter (i := 1) (m := n0 % 64) (by omega) n1 rest
  simp only [Nat.reduceMul, Nat.reduceAdd, Nat.reduceSub, Nat.zero_shiftLeft, Nat.zero_mul,
    Nat.zero_add] at h0 h1
  rw [h0, h1]

theorem ofNat_eq {n : Nat} {b : UInt8} (h : n % 256 = b.toNat) : UInt8.ofNat n = b := by
  apply UInt8.toNat_inj.mp
  rw [UInt8.toNat_ofNat', h]

section

variable (b0 b1 b2 : UInt8)

theorem decodeChunk_one :
    decodeChunk [letter (tripleOf b0 0 0 >>> 18), letter (tripleOf b0 0 0 >>> 12), PAD, PAD] =
      some [b0] := by
  have h0 := b0.toNat_lt
  rw [decodeChunk, collectSixes_two, show ∀ triple, collectSixes 2 triple 2 [PAD, PAD] =
    some (triple, 2) from fun _ => rfl]
  simp only [Option.some.injEq, List.cons.injEq, and_true]
  apply ofNat_eq
  simp only [tripleOf_eq, Nat.shiftRight_eq_div_pow, Nat.shiftLeft_eq, UInt8.toNat_zero]
  omega

theorem decodeChunk_two :
    decodeChunk [letter (tripleOf b0 b1 0 >>> 18), letter (tripleOf b0 b1 0 >>> 12),
      letter (tripleOf b0 b1 0 >>> 6), PAD] = some [b0, b1] := by
  have h0 := b0.toNat_lt
  have h1 := b1.toNat_lt
  rw [decodeChunk, collectSixes_two, collectSixes_letter (i := 2) (by omega),
    show ∀ triple, collectSixes 3 triple 3 [PAD] = some (triple, 3) from fun _ => rfl]
  simp only [Option.some.injEq, List.cons.injEq, and_true]
  simp only [tripleOf_eq, Nat.shiftRight_eq_div_pow, Nat.shiftLeft_eq, UInt8.toNat_zero]
  exact ⟨ofNat_eq (by omega), ofNat_eq (by omega)⟩

theorem decodeChunk_three :
    decodeChunk [letter (tripleOf b0 b1 b2 >>> 18), letter (tripleOf b0 b1 b2 >>> 12),
      letter (tripleOf b0 b1 b2 >>> 6), letter (tripleOf b0 b1 b2)] = some [b0, b1, b2] := by
  have h0 := b0.toNat_lt
  have h1 := b1.toNat_lt
  have h2 := b2.toNat_lt
  rw [decodeChunk, collectSixes_two, collectSixes_letter (i := 2) (by omega),
    collectSixes_letter (i := 3) (by omega), collectSixes]
  simp only [Option.some.injEq, List.cons.injEq, and_true]
  simp only [tripleOf_eq, Nat.shiftRight_eq_div_pow, Nat.shiftLeft_eq]
  exact ⟨ofNat_eq (by omega), ofNat_eq (by omega), ofNat_eq (by omega)⟩

end

/-! ## The whole text -/

theorem decodeChunks_encodeChunks (bytes : Bytes) :
    decodeChunks (encodeChunks bytes) = some bytes := by
  fun_induction encodeChunks bytes with
  | case1 => rfl
  | case2 b0 triple => simp [decodeChunks, triple, decodeChunk_one]
  | case3 b0 b1 triple => simp [decodeChunks, triple, decodeChunk_two]
  | case4 b0 b1 b2 rest triple ih => simp [decodeChunks, triple, decodeChunk_three, ih]

theorem length_encodeChunks (bytes : Bytes) : (encodeChunks bytes).length % 4 = 0 := by
  fun_induction encodeChunks bytes with
  | case1 => rfl
  | case2 b0 triple => simp
  | case3 b0 b1 triple => simp
  | case4 b0 b1 b2 rest triple ih => simp only [List.length_cons]; omega

theorem encodeChunks_lt {bytes : Bytes} : ∀ c ∈ encodeChunks bytes, c.toNat < 128 := by
  have hpad : PAD.toNat < 128 := by decide
  fun_induction encodeChunks bytes with
  | case1 => simp
  | case2 b0 triple => simp [letter_lt, hpad]
  | case3 b0 b1 triple => simp [letter_lt, hpad]
  | case4 b0 b1 b2 rest triple ih => simpa [letter_lt] using ih

theorem decode_encode (bytes : Bytes) : decode (encode bytes) = some bytes := by
  rw [decode, encode, utf8_ofBytes encodeChunks_lt, length_encodeChunks,
    decodeChunks_encodeChunks]
  rfl

end Base64

end RustyPick
