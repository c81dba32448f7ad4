import Mathlib.Tactic
import Mathlib.Algebra.Order.Floor.Div

/-!
# Lib.Histogram

Columns of one width over a range of numbers, the last cut off where the range ends, and how many
elements of a list fall into each. Column `i` of width `w` from `low` on holds the numbers from
`low + i * w` to `low + i * w + w - 1`.
-/

namespace Lib

/-! ## Columns -/

section

variable (low high width : Nat)

/-- How many columns the range takes. -/
def columnCount : Nat := (high - low + 1) ⌈/⌉ width

def columnMin (i : Nat) : Nat := low + i * width

def columnMax (i : Nat) : Nat := min (low + i * width + width - 1) high

def columnOf (v : Nat) : Nat := (v - low) / width

variable {low high width} (hwidth : 0 < width)

include hwidth

theorem columnCount_pos : 0 < columnCount low high width := by
  rw [columnCount, ← not_le, ceilDiv_le_iff_le_mul hwidth]
  omega

/-- The columns reach the end of the range. -/
theorem high_lt_end (hle : low ≤ high) : high < low + columnCount low high width * width := by
  have hcover : high - low + 1 ≤ width * columnCount low high width := le_smul_ceilDiv hwidth
  rw [Nat.mul_comm]
  omega

theorem columnMin_le (hle : low ≤ high) {i : Nat} (hi : i < columnCount low high width) :
    columnMin low width i ≤ high := by
  rw [columnCount, ← not_le, ceilDiv_le_iff_le_mul hwidth, Nat.mul_comm] at hi
  rw [columnMin]
  omega

theorem columnMin_le_columnMax (hle : low ≤ high) {i : Nat}
    (hi : i < columnCount low high width) :
    columnMin low width i ≤ columnMax low high width i := by
  have hmin := columnMin_le hwidth hle hi
  rw [columnMin] at hmin ⊢
  exact le_min (by omega) hmin

/-- A column starts where the one before it ends. -/
theorem columnMax_succ (hle : low ≤ high) {i : Nat} (hi : i + 1 < columnCount low high width) :
    columnMax low high width i + 1 = columnMin low width (i + 1) := by
  have hnext := columnMin_le hwidth hle hi
  rw [columnMin, Nat.add_mul] at hnext ⊢
  rw [columnMax]
  omega

/-- The last column ends where the range does. -/
theorem columnMax_last (hle : low ≤ high) :
    columnMax low high width (columnCount low high width - 1) = high := by
  have hend := high_lt_end hwidth hle
  have hpos : 0 < columnCount low high width := columnCount_pos hwidth
  obtain ⟨n, hn⟩ : ∃ n, columnCount low high width = n + 1 := ⟨_, (Nat.sub_add_cancel hpos).symm⟩
  rw [hn, Nat.add_mul] at hend
  rw [hn, Nat.add_sub_cancel, columnMax]
  omega

theorem columnOf_lt {v : Nat} (hle : low ≤ v) (hv : v ≤ high) :
    columnOf low width v < columnCount low high width := by
  have hend := high_lt_end hwidth (le_trans hle hv)
  rw [columnOf, Nat.div_lt_iff_lt_mul hwidth]
  omega

/-- A number falls into the column whose range holds it. -/
theorem columnOf_eq_iff {v i : Nat} (hle : low ≤ v) (hv : v ≤ high) :
    columnOf low width v = i ↔ columnMin low width i ≤ v ∧ v ≤ columnMax low high width i := by
  rw [columnOf, columnMin, columnMax, Nat.div_eq_iff hwidth, le_min_iff]
  omega

end

/-! ## Counting -/

section

variable {α : Type}

/-- How many elements have each index below `n`. -/
def tally (n : Nat) (index : α → Nat) (l : List α) : List Nat :=
  (List.range n).map fun i => l.countP fun a => index a = i

theorem sum_range_indicator {n k : Nat} (hk : k < n) :
    ((List.range n).map fun i => if k = i then 1 else 0).sum = 1 := by
  induction n with
  | zero => omega
  | succ n ih =>
    rw [List.range_succ, List.map_append, List.sum_append]
    by_cases hlt : k < n
    · simp [ih hlt, Nat.ne_of_lt hlt]
    · have heq : k = n := by omega
      subst heq
      have hzero : ((List.range k).map fun i => if k = i then 1 else 0).sum = 0 := by
        rw [List.sum_eq_zero]
        intro x hx
        obtain ⟨i, hi, rfl⟩ := List.mem_map.mp hx
        exact if_neg (by have := List.mem_range.mp hi; omega)
      simp [hzero]

/-- Every element is counted once. -/
theorem sum_tally {n : Nat} {index : α → Nat} {l : List α} (h : ∀ a ∈ l, index a < n) :
    (tally n index l).sum = l.length := by
  induction l with
  | nil => simp [tally]
  | cons a l ih =>
    have hsplit : tally n index (a :: l) =
        (List.range n).map fun i =>
          (l.countP fun a => index a = i) + if index a = i then 1 else 0 := by
      rw [tally]
      refine List.map_congr_left fun i _ => ?_
      rw [List.countP_cons]
      simp
    rw [hsplit, List.sum_map_add, sum_range_indicator (h a List.mem_cons_self), List.length_cons,
      ← ih fun b hb => h b (List.mem_cons_of_mem _ hb)]
    rfl

end

end Lib
