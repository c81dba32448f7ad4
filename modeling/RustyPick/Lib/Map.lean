import Mathlib.Tactic
import Mathlib.Data.Finset.Max
import Mathlib.Data.Finset.Card
import Mathlib.Data.String.Basic

/-!
# Lib.Map

Finite maps and ordered sets, as the rest of the development uses them.

A map is `Std.ExtTreeMap` at the canonical order of its keys: two maps with the same lookups are
equal, `toList` is sorted by key, and everything evaluates. A set is a `Finset`; `first` is the
least element, the one an ordered set pops, and `ascending` the list it iterates as.

* `dom`: the key set of a map as a `Finset`, with `card_dom` tying its size to the map's.
* `getElem?_insert_eq`, `getElem?_erase_eq`: lookups after an update, with `=` on keys in place of
  the order's comparison.
-/

namespace Lib

abbrev Map (K V : Type) [Ord K] := Std.ExtTreeMap K V compare

section Lookup

variable {K V : Type} [Ord K] [Std.TransOrd K] [Std.LawfulEqOrd K] [DecidableEq K]

theorem getElem?_insert_eq (m : Map K V) (k j : K) (v : V) :
    (m.insert k v)[j]? = if k = j then some v else m[j]? := by
  rw [Std.ExtTreeMap.getElem?_insert]
  simp only [Std.compare_eq_iff_eq]

theorem getElem?_erase_eq (m : Map K V) (k j : K) :
    (m.erase k)[j]? = if k = j then none else m[j]? := by
  rw [Std.ExtTreeMap.getElem?_erase]
  simp only [Std.compare_eq_iff_eq]

theorem getElem?_insert_ne (m : Map K V) {k j : K} (v : V) (h : k ≠ j) :
    (m.insert k v)[j]? = m[j]? := by
  rw [getElem?_insert_eq, if_neg h]

theorem getElem?_erase_ne (m : Map K V) {k j : K} (h : k ≠ j) : (m.erase k)[j]? = m[j]? := by
  rw [getElem?_erase_eq, if_neg h]

/-- The key set. -/
def dom (m : Map K V) : Finset K := m.keys.toFinset

/-- Keep the entries whose key satisfies `p`. -/
def retain (p : K → Bool) (m : Map K V) : Map K V := m.filter fun k _ => p k

omit [Std.LawfulEqOrd K] [DecidableEq K] in
theorem mem_iff_exists {m : Map K V} {k : K} : k ∈ m ↔ ∃ v, m[k]? = some v := by
  rw [← Option.isSome_iff_exists]
  simp

omit [Std.LawfulEqOrd K] [DecidableEq K] in
theorem mem_of_getElem? {m : Map K V} {k : K} {v : V} (h : m[k]? = some v) : k ∈ m :=
  mem_iff_exists.mpr ⟨v, h⟩

@[simp] theorem mem_dom {m : Map K V} {k : K} : k ∈ dom m ↔ k ∈ m := by
  simp [dom]

omit [Std.LawfulEqOrd K] in
theorem card_dom (m : Map K V) : (dom m).card = m.size := by
  rw [dom, List.toFinset_card_of_nodup Std.ExtTreeMap.nodup_keys, Std.ExtTreeMap.length_keys]

omit [DecidableEq K] in
theorem getElem?_retain (p : K → Bool) (m : Map K V) (k : K) :
    (retain p m)[k]? = if p k then m[k]? else none := by
  rw [retain, Std.ExtTreeMap.getElem?_filter']
  cases m[k]? <;> cases p k <;> simp

omit [DecidableEq K] in
@[simp] theorem mem_retain {p : K → Bool} {m : Map K V} {k : K} :
    k ∈ retain p m ↔ p k ∧ k ∈ m := by
  simp only [mem_iff_exists, getElem?_retain]
  cases p k <;> simp

end Lookup

/-! ## Ordered sets -/

section First

variable {α : Type} [LinearOrder α]

/-- The least element of a finite set. -/
def first (s : Finset α) : Option α :=
  if h : s.Nonempty then some (s.min' h) else none

theorem first_eq_some {s : Finset α} {a : α} :
    first s = some a ↔ a ∈ s ∧ ∀ b ∈ s, a ≤ b := by
  unfold first
  split
  · rename_i h
    rw [Option.some.injEq]
    constructor
    · rintro rfl
      exact ⟨s.min'_mem h, fun b hb => s.min'_le b hb⟩
    · rintro ⟨ha, hle⟩
      exact le_antisymm (s.min'_le a ha) (hle _ (s.min'_mem h))
  · rename_i h
    simp only [reduceCtorEq, false_iff, not_and]
    intro ha
    exact absurd ⟨a, ha⟩ h

theorem first_eq_none {s : Finset α} : first s = none ↔ s = ∅ := by
  unfold first
  split
  · rename_i h
    simp [h.ne_empty]
  · rename_i h
    simpa using h

theorem first_mem {s : Finset α} {a : α} (h : first s = some a) : a ∈ s :=
  (first_eq_some.mp h).1

theorem first_le {s : Finset α} {a b : α} (h : first s = some a) (hb : b ∈ s) : a ≤ b :=
  (first_eq_some.mp h).2 b hb

/-- The elements from the least on, `fuel` of them at most. -/
def ascendingFrom : Nat → Finset α → List α
  | 0, _ => []
  | fuel + 1, s =>
    match first s with
    | some a => a :: ascendingFrom fuel (s.erase a)
    | none => []

/-- The elements in increasing order, which is how an ordered set iterates. Unlike `Finset.sort`
it runs by structural recursion, so it evaluates. -/
def ascending (s : Finset α) : List α := ascendingFrom s.card s

theorem mem_ascendingFrom : ∀ (fuel : Nat) (s : Finset α), s.card ≤ fuel →
    ∀ a, a ∈ ascendingFrom fuel s ↔ a ∈ s := by
  intro fuel
  induction fuel with
  | zero =>
    intro s hs a
    have : s = ∅ := by simpa using hs
    simp [ascendingFrom, this]
  | succ fuel ih =>
    intro s hs a
    unfold ascendingFrom
    split
    · rename_i b hb
      have hcard : (s.erase b).card ≤ fuel := by
        rw [Finset.card_erase_of_mem (first_mem hb)]
        omega
      rw [List.mem_cons, ih _ hcard, Finset.mem_erase]
      constructor
      · rintro (rfl | ⟨_, h⟩)
        · exact first_mem hb
        · exact h
      · intro h
        by_cases he : a = b
        · exact Or.inl he
        · exact Or.inr ⟨he, h⟩
    · rename_i h
      simp [first_eq_none.mp h]

@[simp] theorem mem_ascending {s : Finset α} {a : α} : a ∈ ascending s ↔ a ∈ s :=
  mem_ascendingFrom s.card s (le_refl _) a

theorem pairwise_ascendingFrom : ∀ (fuel : Nat) (s : Finset α), s.card ≤ fuel →
    (ascendingFrom fuel s).Pairwise (· < ·) := by
  intro fuel
  induction fuel with
  | zero => intro s _; exact List.Pairwise.nil
  | succ fuel ih =>
    intro s hs
    unfold ascendingFrom
    split
    · rename_i b hb
      have hcard : (s.erase b).card ≤ fuel := by
        rw [Finset.card_erase_of_mem (first_mem hb)]
        omega
      refine List.Pairwise.cons ?_ (ih _ hcard)
      intro a ha
      rw [mem_ascendingFrom _ _ hcard, Finset.mem_erase] at ha
      exact lt_of_le_of_ne (first_le hb ha.2) (Ne.symm ha.1)
    · exact List.Pairwise.nil

theorem pairwise_ascending (s : Finset α) : (ascending s).Pairwise (· < ·) :=
  pairwise_ascendingFrom s.card s (le_refl _)

end First

end Lib
