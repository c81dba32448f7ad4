import Mathlib.Tactic

/-!
# Lib.Links

Chains of links, where each element names at most one other, and the head a chain ends at.

* `Leads`: a chain of a given number of links.
* `EndsWithin`: a chain of fewer than `limit` links to an element that has none.
* `headOf`: the head of a chain followed for at most `limit` steps, and the element itself where the
  chain is not over by then. `headOf_eq_iff` says when two elements have one head.
-/

namespace Lib

variable {α : Type} (link : α → Option α)

inductive Leads : Nat → α → α → Prop
  | refl (a : α) : Leads 0 a a
  | step {k : Nat} {a b c : α} : link a = some b → Leads k b c → Leads (k + 1) a c

/-- The chain from `a` is over at `r`, before the `limit`th step. -/
def EndsWithin (limit : Nat) (a r : α) : Prop := ∃ k < limit, Leads link k a r ∧ link r = none

def OnCycle (a : α) : Prop := ∃ k, Leads link (k + 1) a a

/-- Follow at most `limit` links. -/
def walk : Nat → α → Option α
  | 0, _ => none
  | limit + 1, a =>
    match link a with
    | none => some a
    | some b => walk limit b

/-- The head of the chain from `a`, or `a` itself where the chain goes on too long. -/
def headOf (limit : Nat) (a : α) : α := (walk link limit a).getD a

variable {link}

theorem walk_eq_some {limit : Nat} {a r : α} :
    walk link limit a = some r ↔ EndsWithin link limit a r := by
  induction limit generalizing a with
  | zero => simp [walk, EndsWithin]
  | succ limit ih =>
    rw [walk]
    constructor
    · intro h
      cases hlink : link a with
      | none =>
        rw [hlink] at h
        cases h
        exact ⟨0, by omega, .refl _, hlink⟩
      | some b =>
        rw [hlink] at h
        obtain ⟨k, hk, hleads, hend⟩ := ih.mp h
        exact ⟨k + 1, by omega, .step hlink hleads, hend⟩
    · rintro ⟨k, hk, hleads, hend⟩
      cases hleads with
      | refl => simp [hend]
      | @step k _ b _ hlink hleads =>
        rw [hlink]
        exact ih.mpr ⟨k, by omega, hleads, hend⟩

theorem EndsWithin.end {limit : Nat} {a r : α} (h : EndsWithin link limit a r) : link r = none := by
  obtain ⟨_, _, _, hend⟩ := h
  exact hend

/-- A chain is over where it starts when the element has no link. -/
theorem EndsWithin.of_none {limit : Nat} {a : α} (h : link a = none) (hlimit : 0 < limit) :
    EndsWithin link limit a a :=
  ⟨0, hlimit, .refl a, h⟩

theorem headOf_of_ends {limit : Nat} {a r : α} (h : EndsWithin link limit a r) :
    headOf link limit a = r := by
  rw [headOf, walk_eq_some.mpr h, Option.getD_some]

theorem headOf_of_not {limit : Nat} {a : α} (h : ∀ r, ¬ EndsWithin link limit a r) :
    headOf link limit a = a := by
  cases hw : walk link limit a with
  | none => rw [headOf, hw, Option.getD_none]
  | some r => exact absurd (walk_eq_some.mp hw) (h r)

/-- An element whose chain goes on too long is nobody's head but its own. -/
theorem headOf_alone {limit : Nat} {a b : α} (hlimit : 0 < limit)
    (h : ∀ r, ¬ EndsWithin link limit a r) (hb : headOf link limit b = a) : b = a := by
  by_cases hends : ∃ r, EndsWithin link limit b r
  · obtain ⟨r, hr⟩ := hends
    rw [headOf_of_ends hr] at hb
    subst hb
    exact absurd (EndsWithin.of_none hr.end hlimit) (h r)
  · rw [headOf_of_not fun r hr => hends ⟨r, hr⟩] at hb
    exact hb

/-- Two elements have one head when they are the same, or their chains end at one place. -/
theorem headOf_eq_iff {limit : Nat} (hlimit : 0 < limit) {a b : α} :
    headOf link limit a = headOf link limit b ↔
      a = b ∨ ∃ r, EndsWithin link limit a r ∧ EndsWithin link limit b r := by
  constructor
  · intro h
    by_cases ha : ∃ r, EndsWithin link limit a r
    · obtain ⟨r, hr⟩ := ha
      by_cases hb : ∃ r', EndsWithin link limit b r'
      · obtain ⟨r', hr'⟩ := hb
        rw [headOf_of_ends hr, headOf_of_ends hr'] at h
        subst h
        exact Or.inr ⟨r, hr, hr'⟩
      · have hb' : ∀ r', ¬ EndsWithin link limit b r' := fun r' hr' => hb ⟨r', hr'⟩
        rw [headOf_of_not hb'] at h
        exact Or.inl (headOf_alone hlimit hb' h)
    · have ha' : ∀ r, ¬ EndsWithin link limit a r := fun r hr => ha ⟨r, hr⟩
      rw [headOf_of_not ha'] at h
      exact Or.inl (headOf_alone hlimit ha' h.symm).symm
  · rintro (rfl | ⟨r, ha, hb⟩)
    · rfl
    · rw [headOf_of_ends ha, headOf_of_ends hb]

/-! ## Cycles -/

theorem Leads.link_some {k j : Nat} {a b c : α} (h : Leads link k a b)
    (h' : Leads link (k + j + 1) a c) : ∃ d, link b = some d := by
  induction h with
  | refl a =>
    cases h' with
    | step hlink _ => exact ⟨_, hlink⟩
  | @step k a b' c' hlink _ ih =>
    rw [show k + 1 + j + 1 = (k + j + 1) + 1 by omega] at h'
    cases h' with
    | step hlink' h' =>
      rw [hlink] at hlink'
      cases hlink'
      exact ih h'

theorem Leads.append {k j : Nat} {a b c : α} (h : Leads link k a b) (h' : Leads link j b c) :
    Leads link (j + k) a c := by
  induction h with
  | refl a => exact h'
  | step hlink _ ih => exact .step hlink (ih h')

/-- Round a cycle a chain can be followed for any number of rounds. -/
theorem OnCycle.rounds {a : α} (h : OnCycle link a) (n : Nat) : ∃ k, n ≤ k ∧ Leads link k a a := by
  obtain ⟨j, hj⟩ := h
  induction n with
  | zero => exact ⟨0, Nat.le_refl _, .refl a⟩
  | succ n ih =>
    obtain ⟨k, hk, hleads⟩ := ih
    exact ⟨j + 1 + k, by omega, hleads.append hj⟩

/-- The chain of an element on a cycle is never over. -/
theorem OnCycle.not_ends {a : α} (h : OnCycle link a) (limit : Nat) (r : α) :
    ¬ EndsWithin link limit a r := by
  rintro ⟨k, -, hleads, hend⟩
  obtain ⟨n, hn, hround⟩ := h.rounds (k + 1)
  obtain ⟨j, rfl⟩ : ∃ j, n = k + j + 1 := ⟨n - k - 1, by omega⟩
  obtain ⟨d, hd⟩ := hleads.link_some hround
  rw [hend] at hd
  cases hd

end Lib
