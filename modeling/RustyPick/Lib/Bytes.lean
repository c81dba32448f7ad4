import Mathlib.Tactic

/-!
# Lib.Bytes

Byte strings as lists: fixed-width little-endian numbers, and reading an exact number of bytes off
the front.
-/

namespace Lib

/-- The `w` low bytes of `n`, least significant first. -/
def toLE : Nat → Nat → List UInt8
  | 0, _ => []
  | w + 1, n => UInt8.ofNat n :: toLE w (n / 256)

def ofLE : List UInt8 → Nat
  | [] => 0
  | b :: bs => b.toNat + 256 * ofLE bs

@[simp] theorem length_toLE (w n : Nat) : (toLE w n).length = w := by
  induction w generalizing n with
  | zero => rfl
  | succ w ih => simp [toLE, ih]

theorem ofLE_toLE (w n : Nat) : ofLE (toLE w n) = n % 256 ^ w := by
  induction w generalizing n with
  | zero => simp [toLE, ofLE, Nat.mod_one]
  | succ w ih =>
    have hb : (UInt8.ofNat n).toNat = n % 256 := by simp [UInt8.toNat_ofNat']
    rw [toLE, ofLE, hb, ih, Nat.pow_succ', Nat.mod_mul]

theorem ofLE_toLE_of_lt {w n : Nat} (h : n < 256 ^ w) : ofLE (toLE w n) = n := by
  rw [ofLE_toLE, Nat.mod_eq_of_lt h]

theorem toLE_ofLE : ∀ b : List UInt8, toLE b.length (ofLE b) = b := by
  intro b
  induction b with
  | nil => rfl
  | cons a b ih =>
    rw [List.length_cons, toLE, ofLE]
    have hdiv : (a.toNat + 256 * ofLE b) / 256 = ofLE b := by
      have := a.toNat_lt
      omega
    have hmod : UInt8.ofNat (a.toNat + 256 * ofLE b) = a := by
      apply UInt8.toNat_inj.mp
      rw [UInt8.toNat_ofNat']
      have := a.toNat_lt
      omega
    rw [hdiv, hmod, ih]

theorem ofLE_lt : ∀ b : List UInt8, ofLE b < 256 ^ b.length := by
  intro b
  induction b with
  | nil => simp [ofLE]
  | cons a b ih =>
    rw [List.length_cons, ofLE, Nat.pow_succ']
    have := a.toNat_lt
    omega

/-- The first `n` elements and the rest, when there are that many. -/
def takeExact {α : Type} (n : Nat) (b : List α) : Option (List α × List α) :=
  if n ≤ b.length then some (b.take n, b.drop n) else none

theorem takeExact_append {α : Type} {n : Nat} {a : List α} (b : List α) (h : a.length = n) :
    takeExact n (a ++ b) = some (a, b) := by
  subst h
  simp [takeExact]

/-- Reading `a` off a prefix of `a ++ b`: there is not enough, or it is `a` that is read. -/
theorem takeExact_of_prefix {α : Type} {n : Nat} {a b p : List α} (h : p <+: a ++ b)
    (ha : a.length = n) :
    takeExact n p = none ∨ ∃ q, p = a ++ q ∧ q <+: b ∧ takeExact n p = some (a, q) := by
  by_cases hlen : n ≤ p.length
  · obtain ⟨q, rfl⟩ : a <+: p :=
      List.prefix_of_prefix_length_le (List.prefix_append a b) h (by omega)
    right
    exact ⟨q, rfl, (List.prefix_append_right_inj a).mp h, takeExact_append q ha⟩
  · left
    simp [takeExact, hlen]

end Lib
