import RustyPick.Text

/-!
# RustyPick.Layout

How a section is spread over group files (`db/hashfile.rs`): the hash that places a key, the
modulus a flush plans, and the metadata that records it.

`targetModulus` is a loop over `u64`. A group size large enough to make `modulus * per_group` pass
`2 ^ 64` can wrap it for ever, so the model returns `none` there: such a save performs no file
step at all.

* `targetModulus_pow`, `planModulus_pow`: every modulus planned is a power of two from
  `MIN_MODULUS` on.
* `groupOf_mod`: of two such moduli the smaller divides the larger, and the group under the smaller
  is the residue of the group under the larger.
-/

namespace RustyPick

/-- Never go below this many groups. -/
def MIN_MODULUS : Nat := 8

structure SectionMeta where
  /-- Incremented on every flush. -/
  version : Nat
  modulus : Nat
  records : Nat
  /-- True once every group of the section carries a checksum trailer. -/
  checksums : Bool
  deriving DecidableEq, Repr

def SectionMeta.empty : SectionMeta :=
  { version := 0, modulus := MIN_MODULUS, records := 0, checksums := false }

/-- One byte of FNV-1a. -/
def hashByte (hash : Nat) (byte : UInt8) : Nat :=
  ((hash ^^^ byte.toNat) * 0x00000100000001b3) % 2 ^ 64

/-- FNV-1a. -/
def hashKey (key : String) : Nat := (utf8 key).foldl hashByte 0xcbf29ce484222325

def groupOf (key : String) (modulus : Nat) : Nat :=
  if modulus = 0 then 0 else hashKey key % modulus

/-- The doubling loop of `target_modulus`, from a given modulus. A `u64` doubles at most 61 times
from `MIN_MODULUS` before it is zero, and from zero it never leaves the loop. -/
def targetModulusLoop (perGroup records : Nat) : Nat → Nat → Option Nat
  | 0, _ => none
  | fuel + 1, modulus =>
    if (modulus * perGroup) % 2 ^ 64 < records then
      targetModulusLoop perGroup records fuel ((modulus * 2) % 2 ^ 64)
    else some modulus

/-- Smallest power of two that keeps the table at or below `perGroup` records per group. -/
def targetModulus (records perGroup : Nat) : Option Nat :=
  targetModulusLoop (max perGroup 1) records 61 MIN_MODULUS

/-- The modulus to flush with: growth at once, shrinking only at a quarter. -/
def planModulus (current records perGroup : Nat) : Option Nat :=
  (targetModulus records perGroup).map fun target =>
    if current < MIN_MODULUS then target
    else if target > current ∨ target * 4 % 2 ^ 64 ≤ current then target
    else current

/-! ## Every planned modulus is a power of two -/

/-- A modulus the planner can have chosen: `8, 16, 32, …` below `2 ^ 64`. -/
def IsModulus (m : Nat) : Prop := ∃ i, i < 61 ∧ m = MIN_MODULUS * 2 ^ i

theorem IsModulus.pos {m : Nat} (h : IsModulus m) : 0 < m := by
  obtain ⟨i, -, rfl⟩ := h
  exact Nat.mul_pos (by decide) (Nat.pow_pos (by decide))

theorem IsModulus.lt {m : Nat} (h : IsModulus m) : m < 2 ^ 64 := by
  obtain ⟨i, hi, rfl⟩ := h
  have : 2 ^ i ≤ 2 ^ 60 := Nat.pow_le_pow_right (by omega) (by omega)
  calc MIN_MODULUS * 2 ^ i ≤ 8 * 2 ^ 60 := Nat.mul_le_mul_left _ this
    _ < 2 ^ 64 := by omega

theorem isModulus_min : IsModulus MIN_MODULUS := ⟨0, by decide, by simp⟩

theorem IsModulus.dvd {m n : Nat} (hm : IsModulus m) (hn : IsModulus n) (h : m ≤ n) : m ∣ n := by
  obtain ⟨i, -, rfl⟩ := hm
  obtain ⟨j, -, rfl⟩ := hn
  have hij : i ≤ j := by
    by_contra hc
    have h2 : (2 : Nat) ^ j < 2 ^ i := Nat.pow_lt_pow_right (by omega) (by omega)
    have : MIN_MODULUS * 2 ^ j < MIN_MODULUS * 2 ^ i := Nat.mul_lt_mul_of_pos_left h2 (by decide)
    omega
  exact Nat.mul_dvd_mul_left _ (Nat.pow_dvd_pow _ hij)

theorem targetModulusLoop_pow {perGroup records : Nat} :
    ∀ fuel i, i + fuel = 61 → ∀ m,
      targetModulusLoop perGroup records fuel (MIN_MODULUS * 2 ^ i) = some m → IsModulus m := by
  intro fuel
  induction fuel with
  | zero => intro i _ m h; simp [targetModulusLoop] at h
  | succ fuel ih =>
    intro i hi m h
    rw [targetModulusLoop] at h
    split at h
    · have hstep : MIN_MODULUS * 2 ^ i * 2 = MIN_MODULUS * 2 ^ (i + 1) := by
        rw [Nat.pow_succ, Nat.mul_assoc]
      rw [hstep] at h
      cases fuel with
      | zero => simp [targetModulusLoop] at h
      | succ fuel =>
        have hlt : MIN_MODULUS * 2 ^ (i + 1) < 2 ^ 64 := IsModulus.lt ⟨i + 1, by omega, rfl⟩
        rw [Nat.mod_eq_of_lt hlt] at h
        exact ih (i + 1) (by omega) m h
    · cases h
      exact ⟨i, by omega, rfl⟩

theorem targetModulus_pow {records perGroup m : Nat} (h : targetModulus records perGroup = some m) :
    IsModulus m :=
  targetModulusLoop_pow 61 0 rfl m (by simpa [targetModulus] using h)

theorem planModulus_pow {current records perGroup m : Nat} (hc : IsModulus current)
    (h : planModulus current records perGroup = some m) : IsModulus m := by
  unfold planModulus at h
  cases ht : targetModulus records perGroup with
  | none => simp [ht] at h
  | some target =>
    simp only [ht, Option.map_some, Option.some.injEq] at h
    have hp := targetModulus_pow ht
    subst h
    split
    · exact hp
    split
    · exact hp
    · exact hc

/-- Some doubling of the smallest modulus has room for the records, in `u64` arithmetic. -/
def PlanReaches (records perGroup : Nat) : Prop :=
  ∃ i, i < 61 ∧ records ≤ MIN_MODULUS * 2 ^ i * max perGroup 1 % 2 ^ 64

theorem targetModulusLoop_isSome {perGroup records : Nat} : ∀ fuel i, i + fuel = 61 →
    ((targetModulusLoop perGroup records fuel (MIN_MODULUS * 2 ^ i)).isSome = true ↔
      ∃ j, i ≤ j ∧ j < 61 ∧ records ≤ MIN_MODULUS * 2 ^ j * perGroup % 2 ^ 64) := by
  intro fuel
  induction fuel with
  | zero =>
    intro i hi
    constructor
    · intro h
      cases h
    · rintro ⟨j, hj, hj', -⟩
      omega
  | succ fuel ih =>
    intro i hi
    rw [targetModulusLoop]
    split
    · rename_i hsmall
      have hstep : MIN_MODULUS * 2 ^ i * 2 = MIN_MODULUS * 2 ^ (i + 1) := by
        rw [Nat.pow_succ, Nat.mul_assoc]
      -- the modulus wraps only when the fuel is used up
      have hnext : targetModulusLoop perGroup records fuel (MIN_MODULUS * 2 ^ i * 2 % 2 ^ 64) =
          targetModulusLoop perGroup records fuel (MIN_MODULUS * 2 ^ (i + 1)) := by
        cases fuel with
        | zero => rfl
        | succ fuel =>
          have hlt : MIN_MODULUS * 2 ^ (i + 1) < 2 ^ 64 := IsModulus.lt ⟨i + 1, by omega, rfl⟩
          rw [hstep, Nat.mod_eq_of_lt hlt]
      rw [hnext, ih (i + 1) (by omega)]
      constructor
      · rintro ⟨j, hj, hroom⟩
        exact ⟨j, by omega, hroom⟩
      · rintro ⟨j, hj, hj', hroom⟩
        rcases Nat.lt_or_eq_of_le hj with hj | rfl
        · exact ⟨j, hj, hj', hroom⟩
        · omega
    · rename_i hroom
      exact ⟨fun _ => ⟨i, le_refl _, by omega, by omega⟩, fun _ => rfl⟩

theorem planModulus_isSome (current records perGroup : Nat) :
    (planModulus current records perGroup).isSome = true ↔ PlanReaches records perGroup := by
  have h := @targetModulusLoop_isSome (max perGroup 1) records 61 0 rfl
  rw [Nat.pow_zero, Nat.mul_one] at h
  rw [planModulus, Option.isSome_map, targetModulus, h]
  constructor
  · rintro ⟨i, -, hi⟩
    exact ⟨i, hi⟩
  · rintro ⟨i, hi⟩
    exact ⟨i, Nat.zero_le _, hi⟩

/-! ## Where a key lands -/

theorem groupOf_lt {m : Nat} (h : 0 < m) (key : String) : groupOf key m < m := by
  rw [groupOf, if_neg (by omega)]
  exact Nat.mod_lt _ h

theorem groupOf_mod {m n : Nat} (hm : IsModulus m) (hn : IsModulus n) (h : m ≤ n) (key : String) :
    groupOf key n % m = groupOf key m := by
  have h1 := hm.pos
  have h2 := hn.pos
  rw [groupOf, groupOf, if_neg (by omega), if_neg (by omega)]
  exact Nat.mod_mod_of_dvd _ (hm.dvd hn h)

/-- A key either keeps its group when the modulus grows, or moves past every group the smaller
modulus has. -/
theorem groupOf_grow {m n : Nat} (hm : IsModulus m) (hn : IsModulus n) (h : m ≤ n) (key : String)
    (hne : groupOf key n ≠ groupOf key m) : m ≤ groupOf key n := by
  by_contra hc
  have := groupOf_mod hm hn h key
  rw [Nat.mod_eq_of_lt (by omega)] at this
  exact hne this

end RustyPick
