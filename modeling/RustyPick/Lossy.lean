import RustyPick.Text

/-!
# RustyPick.Lossy

Bytes read as UTF-8 with replacement (`String::from_utf8_lossy`).

* `fromUtf8Lossy_eq`: the characters one by one, whether or not the bytes are a text.
* `fromUtf8Lossy_append`: an ASCII byte is a character wherever it stands, and what is before it
  reads as it would alone.
-/

namespace RustyPick

theorem isContinuation_iff {b : UInt8} :
    isContinuation b = true ↔ 0x80 ≤ b.toNat ∧ b.toNat ≤ 0xBF := by
  simp [isContinuation, UInt8.le_iff_toNat_le]

theorem bits_eq {b : UInt8} (k : Nat) : bits b (2 ^ k - 1) = b.toNat % 2 ^ k :=
  Nat.and_two_pow_sub_one_eq_mod _ _

theorem toNat_ofNat_ascii : ∀ n < 128, (Char.ofNat n).toNat = n := by decide +kernel

theorem utf8_ofBytes {bytes : Bytes} (h : ∀ c ∈ bytes, c.toNat < 128) :
    utf8 (String.ofList (bytes.map fun b => Char.ofNat b.toNat)) = bytes := by
  have hchar : ∀ c ∈ bytes, (Char.ofNat c.toNat).toNat = c.toNat :=
    fun c hc => toNat_ofNat_ascii _ (h c hc)
  have hall : ∀ c ∈ bytes.map fun b => Char.ofNat b.toNat, c.toNat < 0x80 := by
    rw [List.forall_mem_map]
    intro c hc
    rw [hchar c hc]
    exact h c hc
  rw [utf8_ascii hall, List.map_map]
  conv_rhs => rw [← List.map_id bytes]
  refine List.map_congr_left fun c hc => ?_
  rw [Function.comp_apply, hchar c hc, UInt8.ofNat_toNat, id]

/-! ## A character from its own bytes -/

theorem toNat_continuation (n : Nat) :
    (UInt8.ofNat (n % 64 + 0x80)).toNat = n % 64 + 0x80 := by
  rw [UInt8.toNat_ofNat']
  omega

theorem isContinuation_ofNat (n : Nat) : isContinuation (UInt8.ofNat (n % 64 + 0x80)) = true := by
  rw [isContinuation_iff, toNat_continuation]
  omega

theorem bits_continuation (n : Nat) : bits (UInt8.ofNat (n % 64 + 0x80)) 0x3F = n % 64 := by
  rw [show (0x3F : Nat) = 2 ^ 6 - 1 from rfl, bits_eq, toNat_continuation]
  omega

theorem decodeOne_two {v : Nat} (hlo : 0x7F < v) (hhi : v ≤ 0x7FF) (rest : Bytes) :
    decodeOne (UInt8.ofNat (v / 64 % 32 + 0xC0) :: UInt8.ofNat (v % 64 + 0x80) :: rest) =
      (Char.ofNat v, 2) := by
  have h0 : (UInt8.ofNat (v / 64 % 32 + 0xC0)).toNat = v / 64 + 0xC0 := by
    rw [UInt8.toNat_ofNat']
    omega
  generalize UInt8.ofNat (v / 64 % 32 + 0xC0) = b0 at h0
  have hlead : ¬ b0 < 0x80 := by
    simp only [UInt8.lt_iff_toNat_lt, UInt8.reduceToNat]
    omega
  have htwo : 0xC2 ≤ b0 ∧ b0 ≤ 0xDF := by
    simp only [UInt8.le_iff_toNat_le, UInt8.reduceToNat]
    omega
  have hvalue : bits b0 0x1F * 64 + v % 64 = v := by
    rw [show (0x1F : Nat) = 2 ^ 5 - 1 from rfl, bits_eq, h0]
    omega
  unfold decodeOne
  dsimp only
  rw [if_neg hlead, if_pos htwo]
  simp only [isContinuation_ofNat, bits_continuation, if_true, hvalue]

theorem secondByteOk_of {b0 b1 : UInt8} (hcont : isContinuation b1 = true)
    (h0 : b0.toNat = 0xE0 → 0xA0 ≤ b1.toNat) (h1 : b0.toNat = 0xED → b1.toNat ≤ 0x9F)
    (h2 : b0.toNat = 0xF0 → 0x90 ≤ b1.toNat) (h3 : b0.toNat = 0xF4 → b1.toNat ≤ 0x8F) :
    secondByteOk b0 b1 = true := by
  have hrange := isContinuation_iff.mp hcont
  unfold secondByteOk
  split
  · rename_i heq
    have := h0 (congrArg UInt8.toNat heq)
    simp only [decide_eq_true_eq, UInt8.le_iff_toNat_le, UInt8.reduceToNat]
    omega
  split
  · rename_i heq
    have := h1 (congrArg UInt8.toNat heq)
    simp only [decide_eq_true_eq, UInt8.le_iff_toNat_le, UInt8.reduceToNat]
    omega
  split
  · rename_i heq
    have := h2 (congrArg UInt8.toNat heq)
    simp only [decide_eq_true_eq, UInt8.le_iff_toNat_le, UInt8.reduceToNat]
    omega
  split
  · rename_i heq
    have := h3 (congrArg UInt8.toNat heq)
    simp only [decide_eq_true_eq, UInt8.le_iff_toNat_le, UInt8.reduceToNat]
    omega
  · exact hcont

theorem decodeOne_three {v : Nat} (hlo : 0x7FF < v) (hhi : v ≤ 0xFFFF)
    (hsurrogate : v < 0xD800 ∨ 0xDFFF < v) (rest : Bytes) :
    decodeOne (UInt8.ofNat (v / 4096 % 16 + 0xE0) :: UInt8.ofNat (v / 64 % 64 + 0x80) ::
      UInt8.ofNat (v % 64 + 0x80) :: rest) = (Char.ofNat v, 3) := by
  have h0 : (UInt8.ofNat (v / 4096 % 16 + 0xE0)).toNat = v / 4096 + 0xE0 := by
    rw [UInt8.toNat_ofNat']
    omega
  have h1 := toNat_continuation (v / 64)
  generalize UInt8.ofNat (v / 4096 % 16 + 0xE0) = b0 at h0
  have hone : ¬ b0 < 0x80 := by
    simp only [UInt8.lt_iff_toNat_lt, UInt8.reduceToNat]
    omega
  have htwo : ¬ (0xC2 ≤ b0 ∧ b0 ≤ 0xDF) := by
    simp only [UInt8.le_iff_toNat_le, UInt8.reduceToNat]
    omega
  have hthree : 0xE0 ≤ b0 ∧ b0 ≤ 0xEF := by
    simp only [UInt8.le_iff_toNat_le, UInt8.reduceToNat]
    omega
  have hsecond : secondByteOk b0 (UInt8.ofNat (v / 64 % 64 + 0x80)) = true :=
    secondByteOk_of (isContinuation_ofNat _) (by omega) (by omega) (by omega) (by omega)
  have hvalue : bits b0 0x0F * 4096 + v / 64 % 64 * 64 + v % 64 = v := by
    rw [show (0x0F : Nat) = 2 ^ 4 - 1 from rfl, bits_eq, h0]
    omega
  unfold decodeOne
  dsimp only
  rw [if_neg hone, if_neg htwo, if_pos hthree]
  simp only [hsecond, isContinuation_ofNat, bits_continuation, if_true, hvalue]

theorem decodeOne_four {v : Nat} (hlo : 0xFFFF < v) (hhi : v < 0x110000) (rest : Bytes) :
    decodeOne (UInt8.ofNat (v / 262144 % 8 + 0xF0) :: UInt8.ofNat (v / 4096 % 64 + 0x80) ::
      UInt8.ofNat (v / 64 % 64 + 0x80) :: UInt8.ofNat (v % 64 + 0x80) :: rest) =
        (Char.ofNat v, 4) := by
  have h0 : (UInt8.ofNat (v / 262144 % 8 + 0xF0)).toNat = v / 262144 + 0xF0 := by
    rw [UInt8.toNat_ofNat']
    omega
  have h1 := toNat_continuation (v / 4096)
  generalize UInt8.ofNat (v / 262144 % 8 + 0xF0) = b0 at h0
  have hone : ¬ b0 < 0x80 := by
    simp only [UInt8.lt_iff_toNat_lt, UInt8.reduceToNat]
    omega
  have htwo : ¬ (0xC2 ≤ b0 ∧ b0 ≤ 0xDF) := by
    simp only [UInt8.le_iff_toNat_le, UInt8.reduceToNat]
    omega
  have hthree : ¬ (0xE0 ≤ b0 ∧ b0 ≤ 0xEF) := by
    simp only [UInt8.le_iff_toNat_le, UInt8.reduceToNat]
    omega
  have hfour : 0xF0 ≤ b0 ∧ b0 ≤ 0xF4 := by
    simp only [UInt8.le_iff_toNat_le, UInt8.reduceToNat]
    omega
  have hsecond : secondByteOk b0 (UInt8.ofNat (v / 4096 % 64 + 0x80)) = true :=
    secondByteOk_of (isContinuation_ofNat _) (by omega) (by omega) (by omega) (by omega)
  have hvalue : bits b0 0x07 * 262144 + v / 4096 % 64 * 4096 + v / 64 % 64 * 64 + v % 64 = v := by
    rw [show (0x07 : Nat) = 2 ^ 3 - 1 from rfl, bits_eq, h0]
    omega
  unfold decodeOne
  dsimp only
  rw [if_neg hone, if_neg htwo, if_neg hthree, if_pos hfour]
  simp only [hsecond, isContinuation_ofNat, bits_continuation, if_true, hvalue]

/-- A character is read back from its own bytes, whatever follows. -/
theorem decodeOne_utf8EncodeChar (c : Char) (rest : Bytes) :
    decodeOne (String.utf8EncodeChar c ++ rest) = (c, (String.utf8EncodeChar c).length) := by
  have hscalar : c.val.toNat < 0xD800 ∨ 0xDFFF < c.val.toNat ∧ c.val.toNat < 0x110000 := c.valid
  have hback : Char.ofNat c.val.toNat = c := Char.ofNat_toNat c
  simp only [String.utf8EncodeChar]
  generalize c.val.toNat = v at hscalar hback
  split
  · have hone : UInt8.ofNat v < 0x80 := by
      simp only [UInt8.lt_iff_toNat_lt, UInt8.toNat_ofNat', UInt8.reduceToNat]
      omega
    have hvalue : (UInt8.ofNat v).toNat = v := by
      rw [UInt8.toNat_ofNat']
      omega
    rw [List.singleton_append]
    unfold decodeOne
    dsimp only
    rw [if_pos hone, hvalue, hback]
    rfl
  split
  · exact (decodeOne_two (by omega) (by omega) rest).trans (by rw [hback]; rfl)
  split
  · exact (decodeOne_three (by omega) (by omega) (by omega) rest).trans (by rw [hback]; rfl)
  · exact (decodeOne_four (by omega) (by omega) rest).trans (by rw [hback]; rfl)

/-! ## Character after character -/

theorem one_le_decodeOne (b : Bytes) : 1 ≤ (decodeOne b).2 := by
  unfold decodeOne
  repeat' split
  all_goals exact Nat.succ_pos _

theorem decodeLossy_cons (fuel : Nat) (b0 : UInt8) (rest : Bytes) :
    decodeLossy (fuel + 1) (b0 :: rest) = (decodeOne (b0 :: rest)).1 ::
      decodeLossy fuel ((b0 :: rest).drop (decodeOne (b0 :: rest)).2) := rfl

theorem decodeLossy_fuel : ∀ {fuel fuel' : Nat} {b : Bytes}, b.length ≤ fuel → b.length ≤ fuel' →
    decodeLossy fuel b = decodeLossy fuel' b := by
  intro fuel
  induction fuel with
  | zero =>
    intro fuel' b h _
    obtain rfl := List.length_eq_zero_iff.mp (Nat.le_zero.mp h)
    cases fuel' <;> rfl
  | succ fuel ih =>
    intro fuel' b h h'
    cases b with
    | nil => cases fuel' <;> rfl
    | cons b0 rest =>
      obtain ⟨fuel', rfl⟩ := Nat.exists_eq_succ_of_ne_zero (Nat.pos_iff_ne_zero.mp
        (Nat.lt_of_lt_of_le (Nat.succ_pos _) h'))
      have hlen : ((b0 :: rest).drop (decodeOne (b0 :: rest)).2).length ≤ rest.length := by
        have := one_le_decodeOne (b0 :: rest)
        rw [List.length_drop, List.length_cons]
        omega
      rw [List.length_cons] at h h'
      rw [decodeLossy_cons, decodeLossy_cons, ih (hlen.trans (Nat.le_of_succ_le_succ h))
        (hlen.trans (Nat.le_of_succ_le_succ h'))]

theorem decodeLossy_flatMap (cs : List Char) : ∀ {fuel : Nat},
    (cs.flatMap String.utf8EncodeChar).length ≤ fuel →
    decodeLossy fuel (cs.flatMap String.utf8EncodeChar) = cs := by
  induction cs with
  | nil =>
    intro fuel _
    cases fuel <;> rfl
  | cons c cs ih =>
    intro fuel h
    have hpos : 0 < (String.utf8EncodeChar c).length := by
      rw [String.length_utf8EncodeChar]
      exact c.utf8Size_pos
    rw [List.flatMap_cons, List.length_append] at h
    obtain ⟨fuel, rfl⟩ := Nat.exists_eq_succ_of_ne_zero (show fuel ≠ 0 by omega)
    rw [List.flatMap_cons]
    have hstep : decodeLossy (fuel + 1) (String.utf8EncodeChar c ++
        cs.flatMap String.utf8EncodeChar) = c :: decodeLossy fuel
          (cs.flatMap String.utf8EncodeChar) := by
      obtain ⟨b0, rest, hcons⟩ := List.exists_cons_of_length_pos hpos
      have hone := decodeOne_utf8EncodeChar c (cs.flatMap String.utf8EncodeChar)
      rw [hcons, List.cons_append] at hone ⊢
      rw [decodeLossy_cons, hone, ← List.cons_append, List.drop_left]
    rw [hstep, ih (by omega)]

/-- With replacement a text is read as what it is, so that the test for one can be left out. -/
theorem fromUtf8Lossy_eq (b : Bytes) : fromUtf8Lossy b = String.ofList (decodeLossy b.length b) := by
  unfold fromUtf8Lossy
  cases h : fromUtf8? b with
  | none => rfl
  | some s =>
    have hb := utf8_of_fromUtf8? h
    rw [utf8_eq_flatMap] at hb
    rw [← hb, decodeLossy_flatMap s.toList le_rfl, String.ofList_toList]

/-! ## Around an ASCII byte -/

section

variable {a : UInt8} (ha : a < 0x80)

include ha

theorem not_continuation : isContinuation a = false := by
  simp only [UInt8.lt_iff_toNat_lt, UInt8.reduceToNat] at ha
  rw [← Bool.not_eq_true, isContinuation_iff]
  omega

theorem not_secondByteOk (b0 : UInt8) : secondByteOk b0 a = false := by
  have hcont := not_continuation ha
  simp only [UInt8.lt_iff_toNat_lt, UInt8.reduceToNat] at ha
  unfold secondByteOk
  split_ifs
  all_goals first
    | exact hcont
    | simp only [decide_eq_false_iff_not, UInt8.le_iff_toNat_le, UInt8.reduceToNat]
      omega

/-- A character ends before an ASCII byte at the latest. -/
theorem decodeOne_append {p : Bytes} (hp : p ≠ []) (q : Bytes) :
    decodeOne (p ++ a :: q) = decodeOne p ∧ (decodeOne p).2 ≤ p.length := by
  have hcont := not_continuation ha
  have hsecond := not_secondByteOk ha
  rcases p with _ | ⟨b0, _ | ⟨b1, _ | ⟨b2, _ | ⟨b3, p⟩⟩⟩⟩
  · exact absurd rfl hp
  all_goals
    simp only [decodeOne, List.cons_append, List.nil_append, hcont, hsecond, Bool.false_eq_true,
      if_false, List.length_cons, List.length_nil, true_and]
    repeat' split
    all_goals omega

theorem decodeLossy_append (q : Bytes) : ∀ {fuel : Nat} {p : Bytes},
    (p ++ a :: q).length ≤ fuel → decodeLossy fuel (p ++ a :: q) =
      decodeLossy p.length p ++ Char.ofNat a.toNat :: decodeLossy q.length q := by
  intro fuel
  induction fuel with
  | zero =>
    intro p h
    rw [List.length_append, List.length_cons] at h
    omega
  | succ fuel ih =>
    intro p h
    cases p with
    | nil =>
      have hone : decodeOne (a :: q) = (Char.ofNat a.toNat, 1) := by
        unfold decodeOne
        exact if_pos ha
      rw [List.nil_append, List.length_cons] at h
      rw [List.nil_append, decodeLossy_cons, hone, List.drop_one, List.tail_cons,
        decodeLossy_fuel (Nat.le_of_succ_le_succ h) le_rfl]
      rfl
    | cons b0 p =>
      obtain ⟨hone, hlen⟩ := decodeOne_append ha (List.cons_ne_nil b0 p) q
      have hpos := one_le_decodeOne (b0 :: p)
      have hdrop : ((b0 :: p).drop (decodeOne (b0 :: p)).2).length ≤ p.length := by
        rw [List.length_drop, List.length_cons]
        omega
      rw [List.cons_append] at hone
      rw [List.cons_append, List.length_cons, List.length_append] at h
      rw [List.cons_append, decodeLossy_cons, hone, ← List.cons_append,
        List.drop_append_of_le_length hlen,
        ih (by rw [List.length_append]; omega), List.length_cons, decodeLossy_cons,
        decodeLossy_fuel le_rfl hdrop]
      rfl

theorem fromUtf8Lossy_append (p q : Bytes) : fromUtf8Lossy (p ++ a :: q) =
    String.ofList ((fromUtf8Lossy p).toList ++ Char.ofNat a.toNat :: (fromUtf8Lossy q).toList) := by
  rw [fromUtf8Lossy_eq, fromUtf8Lossy_eq, fromUtf8Lossy_eq, decodeLossy_append ha q le_rfl,
    String.toList_ofList, String.toList_ofList]

end

end RustyPick
