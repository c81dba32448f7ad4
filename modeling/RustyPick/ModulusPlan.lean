import RustyPick.Layout

/-!
# RustyPick.ModulusPlan

When a section is spread over more groups or fewer (`db/hashfile.rs`), and the two forecasts of it.

* `target_spec`: the loop stops at the least modulus with room for the records.
* `grows_iff`, `shrinks_iff`: the plan leaves the current modulus for a larger one exactly past its
  capacity, and for a smaller one exactly at a quarter of it.

`checkedTarget` and `checkedPlan` are the same functions with multiplications that refuse to
overflow.
-/

namespace RustyPick

/-! ## The forecasts -/

/-- `records_until_growth`. -/
def recordsUntilGrowth (modulus records perGroup : Nat) : Nat :=
  satAdd (satMul modulus (max perGroup 1)) 1 - records

/-- `records_until_shrink`. -/
def recordsUntilShrink (modulus records perGroup : Nat) : Option (Option Nat) :=
  (planModulus modulus records perGroup).map fun plan =>
    if plan < modulus then some 0
    else
      let quarter := modulus / 4
      if quarter < MIN_MODULUS then none
      else
        let ceiling := satMul quarter (max perGroup 1)
        if ceiling < records then some (records - ceiling) else none

/-! ## Arithmetic that refuses to overflow -/

def checkedMul (a b : Nat) : Option Nat := if a * b < 2 ^ 64 then some (a * b) else none

def checkedTargetLoop (perGroup records : Nat) : Nat → Nat → Option Nat
  | 0, _ => none
  | fuel + 1, modulus =>
    (checkedMul modulus perGroup).bind fun capacity =>
      if capacity < records then
        (checkedMul modulus 2).bind fun doubled => checkedTargetLoop perGroup records fuel doubled
      else some modulus

def checkedTarget (records perGroup : Nat) : Option Nat :=
  checkedTargetLoop (max perGroup 1) records 61 MIN_MODULUS

def checkedPlan (current records perGroup : Nat) : Option Nat :=
  (checkedTarget records perGroup).bind fun target =>
    if current < MIN_MODULUS ∨ target > current then some target
    else (checkedMul target 4).map fun four => if four ≤ current then target else current

theorem checkedMul_of_lt {a b : Nat} (h : a * b < 2 ^ 64) : checkedMul a b = some (a * b) :=
  if_pos h

/-! ## The target -/

/-- A power of two no smaller than `MIN_MODULUS`. -/
def IsPower (m : Nat) : Prop := MIN_MODULUS ≤ m ∧ ∃ e, m = 2 ^ e

theorem isPower_iff {m : Nat} : IsPower m ↔ ∃ i, m = MIN_MODULUS * 2 ^ i := by
  have hmin : MIN_MODULUS = 2 ^ 3 := rfl
  constructor
  · rintro ⟨hle, e, rfl⟩
    rw [hmin] at hle ⊢
    have he : 3 ≤ e := (Nat.pow_le_pow_iff_right (by omega)).mp hle
    exact ⟨e - 3, by rw [← Nat.pow_add]; congr 1; omega⟩
  · rintro ⟨i, rfl⟩
    refine ⟨Nat.le_mul_of_pos_right _ (Nat.two_pow_pos i), 3 + i, ?_⟩
    rw [hmin, Nat.pow_add]

/-- The `k`-th doubling is the first with room for the records. -/
structure Reached (records perGroup k : Nat) : Prop where
  below : ∀ j < k, MIN_MODULUS * 2 ^ j * perGroup < records
  room : records ≤ MIN_MODULUS * 2 ^ k * perGroup
  fits : MIN_MODULUS * 2 ^ k * perGroup < 2 ^ 62

theorem doubled (i : Nat) : MIN_MODULUS * 2 ^ i * 2 = MIN_MODULUS * 2 ^ (i + 1) := by
  rw [Nat.pow_succ, Nat.mul_assoc]

theorem exists_reached {records perGroup : Nat} (hpos : 1 ≤ perGroup) (hper : perGroup ≤ 2 ^ 32)
    (hrec : records ≤ 2 ^ 61) : ∃ k, Reached records perGroup k := by
  have hsome : ∃ k, records ≤ MIN_MODULUS * 2 ^ k * perGroup := by
    refine ⟨61, le_trans hrec ?_⟩
    calc 2 ^ 61 ≤ MIN_MODULUS * 2 ^ 61 := Nat.le_mul_of_pos_left _ (by decide)
      _ ≤ MIN_MODULUS * 2 ^ 61 * perGroup := Nat.le_mul_of_pos_right _ hpos
  have hbelow : ∀ j < Nat.find hsome, MIN_MODULUS * 2 ^ j * perGroup < records :=
    fun j hj => Nat.lt_of_not_le (Nat.find_min hsome hj)
  refine ⟨Nat.find hsome, hbelow, Nat.find_spec hsome, ?_⟩
  rcases Nat.eq_zero_or_pos (Nat.find hsome) with hz | hk
  · rw [hz, Nat.pow_zero, Nat.mul_one, show MIN_MODULUS = 8 from rfl]
    omega
  · -- half of the capacity was not enough
    have hhalf := hbelow (Nat.find hsome - 1) (by omega)
    have hdouble := doubled (Nat.find hsome - 1)
    rw [Nat.sub_add_cancel hk] at hdouble
    rw [← hdouble, Nat.mul_right_comm]
    omega

namespace Reached

variable {records perGroup k : Nat}

theorem lt (h : Reached records perGroup k) (hpos : 1 ≤ perGroup) :
    MIN_MODULUS * 2 ^ k < 2 ^ 62 :=
  lt_of_le_of_lt (Nat.le_mul_of_pos_right _ hpos) h.fits

theorem exponent_lt (h : Reached records perGroup k) (hpos : 1 ≤ perGroup) : k < 59 := by
  have hlt := h.lt hpos
  rw [show MIN_MODULUS = 8 from rfl] at hlt
  exact (Nat.pow_lt_pow_iff_right (a := 2) (by omega)).mp (by omega)

/-- A doubling has room exactly when it is not before the first that has. -/
theorem le_iff (h : Reached records perGroup k) (i : Nat) :
    k ≤ i ↔ records ≤ MIN_MODULUS * 2 ^ i * perGroup := by
  constructor
  · intro hki
    have hpow : 2 ^ k ≤ 2 ^ i := Nat.pow_le_pow_right (by omega) hki
    exact le_trans h.room (Nat.mul_le_mul_right _ (Nat.mul_le_mul_left _ hpow))
  · intro hroom
    by_contra hlt
    have hbelow := h.below i (Nat.lt_of_not_le hlt)
    omega

/-- From any doubling on the way the loop stops at the first with room, and nothing it computes
overflows. -/
theorem loops (h : Reached records perGroup k) (hpos : 1 ≤ perGroup) : ∀ fuel i, i ≤ k →
    k < i + fuel →
      targetModulusLoop perGroup records fuel (MIN_MODULUS * 2 ^ i) = some (MIN_MODULUS * 2 ^ k) ∧
        checkedTargetLoop perGroup records fuel (MIN_MODULUS * 2 ^ i) =
          some (MIN_MODULUS * 2 ^ k) := by
  intro fuel
  induction fuel with
  | zero =>
    intro i hik hfuel
    omega
  | succ fuel ih =>
    intro i hik hfuel
    have hcapacity : MIN_MODULUS * 2 ^ i * perGroup < 2 ^ 64 := by
      have hpow : 2 ^ i ≤ 2 ^ k := Nat.pow_le_pow_right (by omega) hik
      have hle : MIN_MODULUS * 2 ^ i * perGroup ≤ MIN_MODULUS * 2 ^ k * perGroup :=
        Nat.mul_le_mul_right _ (Nat.mul_le_mul_left _ hpow)
      have hfits := h.fits
      omega
    rw [targetModulusLoop, checkedTargetLoop, Nat.mod_eq_of_lt hcapacity,
      checkedMul_of_lt hcapacity, Option.bind_some]
    by_cases hroom : records ≤ MIN_MODULUS * 2 ^ i * perGroup
    · have hki := (h.le_iff i).mpr hroom
      have heq : i = k := by omega
      subst heq
      rw [if_neg (Nat.not_lt.mpr hroom), if_neg (Nat.not_lt.mpr hroom)]
      exact ⟨rfl, rfl⟩
    · have hne : ¬ k ≤ i := mt (h.le_iff i).mp hroom
      have hdouble : MIN_MODULUS * 2 ^ i * 2 < 2 ^ 64 := by
        have hpow : 2 ^ (i + 1) ≤ 2 ^ k := Nat.pow_le_pow_right (by omega) (by omega)
        have hle := Nat.mul_le_mul_left MIN_MODULUS hpow
        have hlt := h.lt hpos
        rw [doubled]
        omega
      rw [if_pos (Nat.lt_of_not_le hroom), if_pos (Nat.lt_of_not_le hroom),
        Nat.mod_eq_of_lt hdouble, checkedMul_of_lt hdouble, Option.bind_some, doubled]
      exact ih (i + 1) (by omega) (by omega)

theorem target_eq (h : Reached records perGroup k) (hpos : 1 ≤ perGroup) :
    targetModulus records perGroup = some (MIN_MODULUS * 2 ^ k) ∧
      checkedTarget records perGroup = some (MIN_MODULUS * 2 ^ k) := by
  have hk := h.exponent_lt hpos
  have hloops := h.loops hpos 61 0 (Nat.zero_le k) (by omega)
  rw [Nat.pow_zero, Nat.mul_one] at hloops
  rw [targetModulus, checkedTarget, max_eq_left hpos]
  exact hloops

end Reached

/-- The loop stops at the least modulus with room for the records. -/
theorem target_spec {records perGroup : Nat} (hpos : 1 ≤ perGroup) (hper : perGroup ≤ 2 ^ 32)
    (hrec : records ≤ 2 ^ 61) :
    ∃ target, checkedTarget records perGroup = some target ∧
      targetModulus records perGroup = some target ∧
      IsLeast {m | IsPower m ∧ records ≤ m * perGroup} target := by
  obtain ⟨k, h⟩ := exists_reached hpos hper hrec
  refine ⟨_, (h.target_eq hpos).2, (h.target_eq hpos).1, ⟨isPower_iff.mpr ⟨k, rfl⟩, h.room⟩, ?_⟩
  rintro m ⟨hm, hroom⟩
  obtain ⟨i, rfl⟩ := isPower_iff.mp hm
  have hki := (h.le_iff i).mpr hroom
  exact Nat.mul_le_mul_left _ (Nat.pow_le_pow_right (by omega) hki)

/-! ## The plan -/

/-- More records than the modulus has room for. -/
def Outgrown (current records perGroup : Nat) : Prop := current * perGroup < records

/-- Room enough in a quarter of the groups, where a quarter is a modulus. -/
def Sparse (current records perGroup : Nat) : Prop :=
  MIN_MODULUS ≤ current / 4 ∧ records ≤ current / 4 * perGroup

instance (current records perGroup : Nat) : Decidable (Outgrown current records perGroup) :=
  inferInstanceAs (Decidable (_ < _))

instance (current records perGroup : Nat) : Decidable (Sparse current records perGroup) :=
  inferInstanceAs (Decidable (_ ∧ _))

theorem quarter_eq {i : Nat} (hi : 2 ≤ i) :
    MIN_MODULUS * 2 ^ i / 4 = MIN_MODULUS * 2 ^ (i - 2) := by
  have hpow : 2 ^ i = 2 ^ (i - 2) * 4 := by
    rw [show (4 : Nat) = 2 ^ 2 from rfl, ← Nat.pow_add, Nat.sub_add_cancel hi]
  rw [hpow, ← Nat.mul_assoc, Nat.mul_div_cancel _ (by omega)]

namespace Reached

variable {records perGroup k : Nat} (h : Reached records perGroup k)

include h

theorem outgrown_iff (i : Nat) : Outgrown (MIN_MODULUS * 2 ^ i) records perGroup ↔ i < k := by
  rw [Outgrown, ← Nat.not_le, ← h.le_iff i, Nat.not_le]

theorem sparse_iff (i : Nat) : Sparse (MIN_MODULUS * 2 ^ i) records perGroup ↔ k + 2 ≤ i := by
  by_cases hi : 2 ≤ i
  · have hmin : MIN_MODULUS ≤ MIN_MODULUS * 2 ^ (i - 2) :=
      Nat.le_mul_of_pos_right _ (Nat.two_pow_pos _)
    rw [Sparse, quarter_eq hi, ← h.le_iff (i - 2)]
    constructor
    · rintro ⟨-, hle⟩
      omega
    · intro hle
      exact ⟨hmin, by omega⟩
  · have hsmall : MIN_MODULUS * 2 ^ i / 4 < MIN_MODULUS := by
      have hpow : 2 ^ i ≤ 2 ^ 1 := Nat.pow_le_pow_right (by omega) (by omega)
      rw [show MIN_MODULUS = 8 from rfl]
      omega
    constructor
    · rintro ⟨hge, -⟩
      omega
    · intro hle
      omega

/-- The plan leaves a modulus that the records have outgrown or are sparse in, and no other. -/
theorem plan_eq (hpos : 1 ≤ perGroup) (i : Nat) :
    planModulus (MIN_MODULUS * 2 ^ i) records perGroup =
        some (MIN_MODULUS * 2 ^ (if i < k ∨ k + 2 ≤ i then k else i)) ∧
      checkedPlan (MIN_MODULUS * 2 ^ i) records perGroup =
        some (MIN_MODULUS * 2 ^ (if i < k ∨ k + 2 ≤ i then k else i)) := by
  obtain ⟨htarget, hchecked⟩ := h.target_eq hpos
  have hmin : ¬ MIN_MODULUS * 2 ^ i < MIN_MODULUS :=
    Nat.not_lt.mpr (Nat.le_mul_of_pos_right _ (Nat.two_pow_pos i))
  have hfour : MIN_MODULUS * 2 ^ k * 4 < 2 ^ 64 := by
    have hlt := h.lt hpos
    omega
  have hgrow : MIN_MODULUS * 2 ^ k > MIN_MODULUS * 2 ^ i ↔ i < k := by
    rw [gt_iff_lt, Nat.mul_lt_mul_left (by decide), Nat.pow_lt_pow_iff_right (by decide)]
  have hshrink : MIN_MODULUS * 2 ^ k * 4 ≤ MIN_MODULUS * 2 ^ i ↔ k + 2 ≤ i := by
    rw [Nat.mul_assoc, show (4 : Nat) = 2 ^ 2 from rfl, ← Nat.pow_add,
      Nat.mul_le_mul_left_iff (by decide), Nat.pow_le_pow_iff_right (by decide)]
  rw [planModulus, checkedPlan, htarget, hchecked, Option.map_some, Option.bind_some,
    checkedMul_of_lt hfour, Option.map_some, Nat.mod_eq_of_lt hfour]
  simp only [hmin, if_false, false_or, hgrow, hshrink]
  by_cases hik : i < k
  · simp [hik]
  · by_cases hki : k + 2 ≤ i <;> simp [hik, hki]

end Reached

section

variable {records perGroup : Nat} (hpos : 1 ≤ perGroup) (hper : perGroup ≤ 2 ^ 32)
  (hrec : records ≤ 2 ^ 61)

include hpos hper hrec

/-- The plan has room for the records and is kept when they stay. -/
theorem plan_spec {current : Nat} (hcur : IsPower current) :
    ∃ plan, checkedPlan current records perGroup = some plan ∧
      planModulus current records perGroup = some plan ∧ IsPower plan ∧
      records ≤ plan * perGroup ∧ planModulus plan records perGroup = some plan := by
  obtain ⟨i, rfl⟩ := isPower_iff.mp hcur
  obtain ⟨k, h⟩ := exists_reached hpos hper hrec
  obtain ⟨hplan, hchecked⟩ := h.plan_eq hpos i
  refine ⟨_, hchecked, hplan, isPower_iff.mpr ⟨_, rfl⟩, ?_, ?_⟩
  · rw [← h.le_iff]
    split <;> omega
  · rw [(h.plan_eq hpos _).1]
    congr 3
    by_cases hmove : i < k ∨ k + 2 ≤ i
    · rw [if_pos hmove, ite_self]
    · rw [if_neg hmove, if_neg hmove]

theorem grows_iff {current : Nat} (hcur : IsPower current) :
    (∃ m, planModulus current records perGroup = some m ∧ current < m) ↔
      Outgrown current records perGroup := by
  obtain ⟨i, rfl⟩ := isPower_iff.mp hcur
  obtain ⟨k, h⟩ := exists_reached hpos hper hrec
  rw [h.outgrown_iff i, (h.plan_eq hpos i).1]
  simp only [Option.some.injEq, exists_eq_left', Nat.mul_lt_mul_left (show 0 < MIN_MODULUS by decide),
    Nat.pow_lt_pow_iff_right (show 1 < 2 by omega)]
  split <;> omega

theorem shrinks_iff {current : Nat} (hcur : IsPower current) :
    (∃ m, planModulus current records perGroup = some m ∧ m < current) ↔
      Sparse current records perGroup := by
  obtain ⟨i, rfl⟩ := isPower_iff.mp hcur
  obtain ⟨k, h⟩ := exists_reached hpos hper hrec
  rw [h.sparse_iff i, (h.plan_eq hpos i).1]
  simp only [Option.some.injEq, exists_eq_left', Nat.mul_lt_mul_left (show 0 < MIN_MODULUS by decide),
    Nat.pow_lt_pow_iff_right (show 1 < 2 by omega)]
  split <;> omega

end

/-! ## The forecasts are exact -/

section

variable {current records perGroup : Nat} (hcur : IsPower current) (hpos : 1 ≤ perGroup)
  (hper : perGroup ≤ 2 ^ 32) (hrec : records ≤ 2 ^ 60) (hcap : current * perGroup ≤ 2 ^ 60)

include hcap in
theorem satMul_eq (hpos : 1 ≤ perGroup) : satMul current (max perGroup 1) = current * perGroup := by
  have hmax : 2 ^ 60 ≤ u64Max := by decide
  rw [satMul, max_eq_left hpos]
  omega

include hcur hpos hper hrec hcap

/-- The forecast of growth is the least number of added records that brings it about. -/
theorem recordsUntilGrowth_isLeast :
    IsLeast {k | ∃ m, planModulus current (records + k) perGroup = some m ∧ current < m}
      (recordsUntilGrowth current records perGroup) := by
  have hmax : 2 ^ 60 < u64Max := by decide
  have heq : recordsUntilGrowth current records perGroup = current * perGroup + 1 - records := by
    rw [recordsUntilGrowth, satMul_eq hcap hpos, satAdd]
    omega
  constructor
  · rw [Set.mem_ofPred_eq, heq, grows_iff hpos hper (by omega) hcur, Outgrown]
    omega
  · intro k hk
    by_contra hlt
    rw [heq] at hlt
    rw [Set.mem_ofPred_eq, grows_iff hpos hper (by omega) hcur, Outgrown] at hk
    omega

/-- What the forecast of shrinking says, once the plan is known. -/
theorem recordsUntilShrink_eq :
    recordsUntilShrink current records perGroup = some
      (if Sparse current records perGroup then some 0
      else if current / 4 < MIN_MODULUS then none
      else some (records - current / 4 * perGroup)) := by
  obtain ⟨plan, -, hplan, -⟩ := plan_spec hpos hper (by omega : records ≤ 2 ^ 61) hcur
  have hshrinks := shrinks_iff hpos hper (by omega : records ≤ 2 ^ 61) hcur
  simp only [hplan, Option.some.injEq, exists_eq_left'] at hshrinks
  have hquarter : current / 4 * perGroup ≤ 2 ^ 60 :=
    le_trans (Nat.mul_le_mul_right _ (Nat.div_le_self current 4)) hcap
  rw [recordsUntilShrink, hplan, Option.map_some]
  simp only [hshrinks, satMul_eq hquarter hpos]
  by_cases hsparse : Sparse current records perGroup
  · rw [if_pos hsparse, if_pos hsparse]
  · rw [if_neg hsparse, if_neg hsparse]
    by_cases hmin : current / 4 < MIN_MODULUS
    · rw [if_pos hmin, if_pos hmin]
    · have hover : current / 4 * perGroup < records := by
        by_contra hle
        exact hsparse ⟨Nat.not_lt.mp hmin, Nat.not_lt.mp hle⟩
      rw [if_neg hmin, if_neg hmin, if_pos hover]

/-- The forecast of shrinking is the least number of removed records that brings it about, when any
does. -/
theorem recordsUntilShrink_spec :
    ∃ answer, recordsUntilShrink current records perGroup = some answer ∧
      (∀ k, answer = some k → IsLeast {k | k ≤ records ∧
        ∃ m, planModulus current (records - k) perGroup = some m ∧ m < current} k) ∧
      (answer = none ↔ ∀ k ≤ records,
        ¬ ∃ m, planModulus current (records - k) perGroup = some m ∧ m < current) := by
  have hshrinks : ∀ k, (∃ m, planModulus current (records - k) perGroup = some m ∧ m < current) ↔
      MIN_MODULUS ≤ current / 4 ∧ records - k ≤ current / 4 * perGroup :=
    fun k => shrinks_iff hpos hper (by omega) hcur
  simp only [hshrinks]
  refine ⟨_, recordsUntilShrink_eq hcur hpos hper hrec hcap, ?_⟩
  by_cases hsparse : Sparse current records perGroup
  · rw [if_pos hsparse]
    refine ⟨?_, ?_⟩
    · rintro k hk
      cases hk
      exact ⟨⟨Nat.zero_le _, hsparse.1, hsparse.2⟩, fun _ _ => Nat.zero_le _⟩
    · simp only [reduceCtorEq, false_iff]
      exact fun hnever => hnever 0 (Nat.zero_le _) hsparse
  rw [if_neg hsparse]
  by_cases hmin : current / 4 < MIN_MODULUS
  · rw [if_pos hmin]
    refine ⟨fun k hk => (nomatch hk), ?_⟩
    simp only [true_iff]
    rintro k - ⟨hge, -⟩
    omega
  · rw [if_neg hmin]
    have hover : current / 4 * perGroup < records := by
      by_contra hle
      exact hsparse ⟨Nat.not_lt.mp hmin, Nat.not_lt.mp hle⟩
    refine ⟨?_, ?_⟩
    · rintro k hk
      cases hk
      refine ⟨⟨Nat.sub_le _ _, Nat.not_lt.mp hmin, by omega⟩, ?_⟩
      rintro k ⟨hle, -, hroom⟩
      omega
    · simp only [reduceCtorEq, false_iff]
      exact fun hnever => hnever records (le_refl _) ⟨Nat.not_lt.mp hmin, by omega⟩

end

/-- The target is the least modulus with room for the records, the plan has room for them and is
kept while they stay, and the forecasts are the least changes that move it. -/
theorem modulus_planning {current records perGroup : Nat} (hcur : IsPower current)
    (hpos : 1 ≤ perGroup) (hper : perGroup ≤ 2 ^ 32) (hrec : records ≤ 2 ^ 60)
    (hcap : current * perGroup ≤ 2 ^ 60) :
    (∃ target, checkedTarget records perGroup = some target ∧
      targetModulus records perGroup = some target ∧
      IsLeast {m | IsPower m ∧ records ≤ m * perGroup} target) ∧
    (∃ plan, checkedPlan current records perGroup = some plan ∧
      planModulus current records perGroup = some plan ∧ IsPower plan ∧
      records ≤ plan * perGroup ∧ planModulus plan records perGroup = some plan) ∧
    IsLeast {k | ∃ m, planModulus current (records + k) perGroup = some m ∧ current < m}
      (recordsUntilGrowth current records perGroup) ∧
    ∃ answer, recordsUntilShrink current records perGroup = some answer ∧
      (∀ k, answer = some k → IsLeast {k | k ≤ records ∧
        ∃ m, planModulus current (records - k) perGroup = some m ∧ m < current} k) ∧
      (answer = none ↔ ∀ k ≤ records,
        ¬ ∃ m, planModulus current (records - k) perGroup = some m ∧ m < current) :=
  ⟨target_spec hpos hper (by omega), plan_spec hpos hper (by omega) hcur,
    recordsUntilGrowth_isLeast hcur hpos hper hrec hcap,
    recordsUntilShrink_spec hcur hpos hper hrec hcap⟩

/-- A section of 64 groups of four with 40 records in it: a quarter holds 64. -/
theorem sixtyFour_planning :
    (∃ target, checkedTarget 40 4 = some target ∧ targetModulus 40 4 = some target ∧
      IsLeast {m | IsPower m ∧ 40 ≤ m * 4} target) ∧
    (∃ plan, checkedPlan 64 40 4 = some plan ∧ planModulus 64 40 4 = some plan ∧ IsPower plan ∧
      40 ≤ plan * 4 ∧ planModulus plan 40 4 = some plan) ∧
    IsLeast {k | ∃ m, planModulus 64 (40 + k) 4 = some m ∧ 64 < m} (recordsUntilGrowth 64 40 4) ∧
    ∃ answer, recordsUntilShrink 64 40 4 = some answer ∧
      (∀ k, answer = some k → IsLeast {k | k ≤ 40 ∧
        ∃ m, planModulus 64 (40 - k) 4 = some m ∧ m < 64} k) ∧
      (answer = none ↔ ∀ k ≤ 40, ¬ ∃ m, planModulus 64 (40 - k) 4 = some m ∧ m < 64) :=
  modulus_planning ⟨by decide, 6, rfl⟩ (by decide) (by decide) (by decide) (by decide)

end RustyPick
