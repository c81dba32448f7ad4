import RustyPick.Text

/-!
# RustyPick.Sequence

Minted keys (`db/sequence.rs`): the counter a queue file and an autokey file allocate their record
keys from. A key is a sequence number in twenty decimal digits, `milliseconds * 1_000_000 +
counter`.

* `formatKey_strictMono`: text order is numeric order, for every number a `u64` holds.
* `keySequence_formatKey`: a minted key is read back as the number it was minted from.
* `upcoming_of_passed`: a number it stands past is handed out again only there.
-/

namespace RustyPick

/-- Digits in a minted key. Twenty holds `u64::MAX`. -/
def KEY_DIGITS : Nat := 20

/-- Sequence numbers per millisecond. -/
def SUB_MILLISECOND : Nat := 1000000

/-- The low `w` decimal digits of `n`, most significant first. -/
def padDigits : Nat → Nat → List Char
  | 0, _ => []
  | w + 1, n => padDigits w (n / 10) ++ [Nat.digitChar (n % 10)]

/-- A sequence number as the key it is stored under. -/
def formatKey (sequence : Nat) : String := String.ofList (padDigits KEY_DIGITS sequence)

/-- The sequence number a key carries, or `none` for a key this did not mint. A digit is one byte,
so testing the number of characters of an all-digit key is testing its length in bytes. -/
def keySequence (key : String) : Option Nat :=
  if key.toList.length ≠ KEY_DIGITS ∨ ¬ key.toList.all Char.isDigit then none
  else parseU64 key

/-- When the record under `key` was minted, in milliseconds since the epoch. -/
def keyMillis (key : String) : Option Nat :=
  (keySequence key).map fun sequence => sequence / SUB_MILLISECOND

/-- The counter one file mints its keys from, a `u64`. -/
structure Sequence where
  next : Nat := 0
  dirty : Bool := false
  next_le : next ≤ u64Max := by decide
  deriving DecidableEq

namespace Sequence

def restored (next : Nat) (h : next ≤ u64Max) : Sequence :=
  { next := next, dirty := false, next_le := h }

/-- The number the next `mint` hands out. -/
def upcoming (s : Sequence) (nowMillis : Nat) : Nat := max s.next (satMul nowMillis SUB_MILLISECOND)

/-- The next sequence number, advanced to the current millisecond when the clock has moved on and
forced upwards when it has not. -/
def mint (s : Sequence) (nowMillis : Nat) : Nat × Sequence :=
  let sequence := max s.next (satMul nowMillis SUB_MILLISECOND)
  (sequence, { next := satAdd sequence 1, dirty := true, next_le := min_le_right _ _ })

/-- Pulls the counter past a key that is already there. -/
def raisePast (s : Sequence) (key : String) : Sequence :=
  match keySequence key with
  | some sequence =>
    { next := max s.next (satAdd sequence 1)
      dirty := s.dirty
      next_le := max_le s.next_le (min_le_right _ _) }
  | none => s

/-- The sequence number this would mint next. -/
def peek (s : Sequence) : Nat := s.next

end Sequence

/-! ## Text order is numeric order -/

theorem length_padDigits : ∀ w n, (padDigits w n).length = w := by
  intro w
  induction w with
  | zero => intro n; rfl
  | succ w ih => intro n; simp [padDigits, ih]

theorem append_lt_append_of_length {α : Type} [LT α] [Std.Irrefl (α := α) (· < ·)] :
    ∀ {l₁ l₂ r₁ r₂ : List α}, l₁ < l₂ → l₁.length = l₂.length → l₁ ++ r₁ < l₂ ++ r₂ := by
  intro l₁
  induction l₁ with
  | nil =>
    intro l₂ r₁ r₂ h hlen
    cases l₂ with
    | nil => exact absurd h (by simp)
    | cons b l₂ => simp at hlen
  | cons a l₁ ih =>
    intro l₂ r₁ r₂ h hlen
    cases l₂ with
    | nil => simp at hlen
    | cons b l₂ =>
      simp only [List.cons_append, List.cons_lt_cons_iff] at h ⊢
      rcases h with h | ⟨rfl, h⟩
      · exact Or.inl h
      · exact Or.inr ⟨rfl, ih h (by simpa using hlen)⟩

theorem append_singleton_lt {α : Type} [LT α] {a b : α} (h : a < b) :
    ∀ l : List α, l ++ [a] < l ++ [b] := by
  intro l
  induction l with
  | nil => exact List.cons_lt_cons_iff.mpr (Or.inl h)
  | cons x l ih => exact List.cons_lt_cons_iff.mpr (Or.inr ⟨rfl, ih⟩)

theorem digitChar_lt {a b : Nat} (hab : a < b) (hb : b < 10) :
    Nat.digitChar a < Nat.digitChar b := by
  interval_cases b <;> interval_cases a <;> decide

theorem padDigits_lt : ∀ w {m n : Nat}, m < n → n < 10 ^ w → padDigits w m < padDigits w n := by
  intro w
  induction w with
  | zero => intro m n hmn hn; simp at hn; omega
  | succ w ih =>
    intro m n hmn hn
    simp only [padDigits]
    rw [Nat.pow_succ] at hn
    -- the leading digits decide unless they agree, and then the last one does
    rcases Nat.lt_or_ge (m / 10) (n / 10) with hlt | hge
    · have hl : (padDigits w (m / 10)).length = (padDigits w (n / 10)).length := by
        simp [length_padDigits]
      exact append_lt_append_of_length (ih hlt (by omega)) hl
    · have he : m / 10 = n / 10 := by omega
      rw [he]
      exact append_singleton_lt (digitChar_lt (by omega) (Nat.mod_lt _ (by omega))) _

theorem u64Max_lt : u64Max < 10 ^ KEY_DIGITS := by decide

theorem formatKey_strictMono {m n : Nat} (h : m < n) (hn : n ≤ u64Max) :
    formatKey m < formatKey n := by
  rw [String.lt_iff]
  simp only [formatKey, String.toList_ofList]
  exact padDigits_lt _ h (lt_of_le_of_lt hn u64Max_lt)

theorem formatKey_injective {m n : Nat} (hm : m ≤ u64Max) (hn : n ≤ u64Max)
    (h : formatKey m = formatKey n) : m = n := by
  rcases Nat.lt_trichotomy m n with hlt | rfl | hgt
  · exact absurd h (ne_of_lt (formatKey_strictMono hlt hn))
  · rfl
  · exact absurd h.symm (ne_of_lt (formatKey_strictMono hgt hm))

/-! ## Reading a minted key back -/

theorem isDigit_digitChar {d : Nat} (h : d < 10) : (Nat.digitChar d).isDigit = true := by
  interval_cases d <;> decide

theorem isDigit_padDigits : ∀ w n, ∀ c ∈ padDigits w n, c.isDigit = true := by
  intro w
  induction w with
  | zero => intro n c hc; cases hc
  | succ w ih =>
    intro n c hc
    simp only [padDigits, List.mem_append, List.mem_singleton] at hc
    rcases hc with hc | rfl
    · exact ih _ c hc
    · exact isDigit_digitChar (Nat.mod_lt _ (by omega))

theorem ofDigitChars_padDigits : ∀ w n, Nat.ofDigitChars 10 (padDigits w n) 0 = n % 10 ^ w := by
  intro w
  induction w with
  | zero => intro n; simp [padDigits, Nat.mod_one]
  | succ w ih =>
    intro n
    have hd : ∀ d, d < 10 → (Nat.digitChar d).toNat - '0'.toNat = d := by
      intro d hd; interval_cases d <;> decide
    rw [padDigits, Nat.ofDigitChars_append, ih]
    simp only [Nat.ofDigitChars, List.foldl_cons, List.foldl_nil]
    rw [hd _ (Nat.mod_lt _ (by omega)), Nat.pow_succ, Nat.mul_comm (10 ^ w) 10, Nat.mod_mul]
    omega

theorem keySequence_formatKey {n : Nat} (h : n ≤ u64Max) : keySequence (formatKey n) = some n := by
  have hl : (formatKey n).toList = padDigits KEY_DIGITS n := by simp [formatKey]
  have hall : (padDigits KEY_DIGITS n).all Char.isDigit = true :=
    List.all_eq_true.mpr (isDigit_padDigits _ _)
  have hne : padDigits KEY_DIGITS n ≠ [] := by
    intro hc
    have := length_padDigits KEY_DIGITS n
    rw [hc] at this
    exact absurd this (by decide)
  have hplus : ∀ cs, padDigits KEY_DIGITS n ≠ '+' :: cs := by
    intro cs hc
    have := isDigit_padDigits KEY_DIGITS n '+' (by rw [hc]; exact List.mem_cons_self)
    exact absurd this (by simp)
  have hparse : parseU64 (formatKey n) = parseDigits (padDigits KEY_DIGITS n) := by
    unfold parseU64
    rw [hl]
    split
    · rename_i cs hc; exact absurd hc (hplus cs)
    · rfl
  have hval : Nat.ofDigitChars 10 (padDigits KEY_DIGITS n) 0 = n := by
    rw [ofDigitChars_padDigits, Nat.mod_eq_of_lt (lt_of_le_of_lt h u64Max_lt)]
  simp [keySequence, hl, length_padDigits, hall, hparse, parseDigits, hne, hval, h]

/-! ## The counter -/

namespace Sequence

@[simp] theorem mint_fst (s : Sequence) (now : Nat) : (s.mint now).1 = s.upcoming now := rfl

@[simp] theorem mint_next (s : Sequence) (now : Nat) :
    (s.mint now).2.next = satAdd (s.upcoming now) 1 := rfl

theorem upcoming_le (s : Sequence) (now : Nat) : s.upcoming now ≤ u64Max :=
  max_le s.next_le (min_le_right _ _)

theorem next_le_upcoming (s : Sequence) (now : Nat) : s.next ≤ s.upcoming now := le_max_left _ _

theorem next_le_raisePast (s : Sequence) (key : String) : s.next ≤ (s.raisePast key).next := by
  unfold raisePast
  split
  · exact le_max_left _ _
  · exact le_refl _

theorem next_le_foldl_raisePast (keys : List String) : ∀ s : Sequence,
    s.next ≤ (keys.foldl raisePast s).next := by
  induction keys with
  | nil => intro s; exact le_refl _
  | cons key keys ih => intro s; exact le_trans (next_le_raisePast s key) (ih _)

/-- The counter stands past every key it has been pulled past. -/
theorem satAdd_le_foldl_raisePast {key : String} {sequence : Nat}
    (hkey : keySequence key = some sequence) (keys : List String) : ∀ s : Sequence, key ∈ keys →
    satAdd sequence 1 ≤ (keys.foldl raisePast s).next := by
  induction keys with
  | nil => intro s h; cases h
  | cons k keys ih =>
    intro s h
    rw [List.foldl_cons]
    rcases List.mem_cons.mp h with rfl | h
    · refine le_trans ?_ (next_le_foldl_raisePast keys _)
      simp only [raisePast, hkey]
      exact le_max_right _ _
    · exact ih _ h

/-- A counter that stands past a number hands it out again only at `u64::MAX`. -/
theorem upcoming_of_passed {s : Sequence} {sequence now : Nat} (hpast : satAdd sequence 1 ≤ s.next)
    (h : s.upcoming now = sequence) : sequence = u64Max := by
  have hle := upcoming_le s now
  have hge := next_le_upcoming s now
  unfold satAdd at hpast
  omega

end Sequence

end RustyPick
