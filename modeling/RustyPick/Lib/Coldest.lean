import Mathlib.Data.List.Basic
import Mathlib.Data.List.Nodup

/-!
# Lib.Coldest

A bounded set with an order of use, coldest first. What is over the bound goes, from the cold end of
the order on; what is in use is passed over, and put at the warm end.

* `evict_spec`: exactly the idle members of some front of the order go, no more of them than have
  to, and what is left is within the bound or had its turn.
* `touch_nodup`: a member is in the order once, however often it is used.
-/

namespace Lib

variable {α : Type} [DecidableEq α]

/-- To the warm end. -/
def touch (order : List α) (a : α) : List α := order.erase a ++ [a]

theorem mem_touch {order : List α} {a b : α} : b ∈ touch order a ↔ b ∈ order ∨ b = a := by
  rw [touch, List.mem_append, List.mem_singleton]
  by_cases heq : b = a
  · exact iff_of_true (.inr heq) (.inr heq)
  · rw [List.mem_erase_of_ne heq]

theorem touch_nodup {order : List α} (h : order.Nodup) (a : α) : (touch order a).Nodup := by
  refine List.nodup_append.mpr ⟨h.erase a, List.nodup_singleton a, ?_⟩
  intro b hb c hc heq
  rw [List.mem_singleton] at hc
  rw [heq, hc] at hb
  exact h.not_mem_erase hb

/-- The members that stay, the rest of the order, and what was passed over. -/
def evict (bound : Nat) (busy : α → Bool) : List α → List α → List α × List α × List α
  | [], members => (members, [], [])
  | a :: order, members =>
    if members.length ≤ bound then (members, a :: order, [])
    else if a ∉ members then evict bound busy order members
    else if busy a then
      let (stay, rest, passed) := evict bound busy order members
      (stay, rest, a :: passed)
    else evict bound busy order (members.erase a)

/-- What came of the members and of the order, of which `front` had its turn. -/
structure Evicted (bound : Nat) (busy : α → Bool) (order members front stay rest passed : List α) :
    Prop where
  split : order = front ++ rest
  stays : ∀ a, a ∈ stay ↔ a ∈ members ∧ (a ∈ front → busy a = true)
  kept : ∀ a ∈ front, a ∈ stay → a ∈ passed
  passed : passed.Sublist front
  sublist : stay.Sublist members
  enough : stay.length ≤ bound ∨ rest = []
  sparing : min bound members.length ≤ stay.length

theorem evict_spec (bound : Nat) (busy : α → Bool) (order : List α) : ∀ members : List α,
    members.Nodup →
    ∃ front, Evicted bound busy order members front (evict bound busy order members).1
      (evict bound busy order members).2.1 (evict bound busy order members).2.2 := by
  induction order with
  | nil =>
    intro members _
    refine ⟨[], rfl, fun a => ?_, ?_, List.Sublist.refl _, List.Sublist.refl _, .inr rfl,
      Nat.min_le_right _ _⟩
    · exact ⟨fun ha => ⟨ha, fun hnil => absurd hnil List.not_mem_nil⟩, And.left⟩
    · exact fun a ha => absurd ha List.not_mem_nil
  | cons b order ih =>
    intro members hnodup
    unfold evict
    split
    next hfits =>
      refine ⟨[], rfl, fun a => ?_, ?_, List.Sublist.refl _, List.Sublist.refl _, .inl hfits,
        Nat.min_le_right _ _⟩
      · exact ⟨fun ha => ⟨ha, fun hnil => absurd hnil List.not_mem_nil⟩, And.left⟩
      · exact fun a ha => absurd ha List.not_mem_nil
    next hover =>
      split
      next hgone =>
        obtain ⟨front, h⟩ := ih members hnodup
        refine ⟨b :: front, congrArg (b :: ·) h.split, fun a => ?_, fun a ha hstay => ?_,
          h.passed.cons b, h.sublist, h.enough, h.sparing⟩
        · rw [h.stays a]
          refine and_congr_right fun hmem => ?_
          have hne : a ≠ b := fun heq => hgone (heq ▸ hmem)
          rw [List.mem_cons, or_iff_right hne]
        · rcases List.mem_cons.mp ha with rfl | hfront
          · exact absurd ((h.stays a).mp hstay).1 hgone
          · exact h.kept a hfront hstay
      next hhere =>
        split
        next hbusy =>
          obtain ⟨front, h⟩ := ih members hnodup
          refine ⟨b :: front, congrArg (b :: ·) h.split, fun a => ?_, fun a ha hstay => ?_,
            h.passed.cons_cons b, h.sublist, h.enough, h.sparing⟩
          · rw [h.stays a]
            refine and_congr_right fun _ => ⟨fun hfront hmem => ?_, fun hfront hmem => ?_⟩
            · rcases List.mem_cons.mp hmem with rfl | hmem
              · exact hbusy
              · exact hfront hmem
            · exact hfront (List.mem_cons_of_mem b hmem)
          · rcases List.mem_cons.mp ha with rfl | hfront
            · exact List.mem_cons_self
            · exact List.mem_cons_of_mem b (h.kept a hfront hstay)
        next hidle =>
          obtain ⟨front, h⟩ := ih (members.erase b) (hnodup.erase b)
          have hlength := List.length_erase_of_mem (not_not.mp hhere)
          refine ⟨b :: front, congrArg (b :: ·) h.split, fun a => ?_, fun a ha hstay => ?_,
            h.passed.cons b, h.sublist.trans List.erase_sublist, h.enough, ?_⟩
          · rw [h.stays a, hnodup.mem_erase_iff]
            constructor
            · rintro ⟨⟨hne, hmem⟩, hfront⟩
              refine ⟨hmem, fun hcons => hfront ?_⟩
              exact (List.mem_cons.mp hcons).resolve_left hne
            · rintro ⟨hmem, hfront⟩
              refine ⟨⟨?_, hmem⟩, fun hin => hfront (List.mem_cons_of_mem b hin)⟩
              rintro rfl
              exact hidle (hfront List.mem_cons_self)
          · rcases List.mem_cons.mp ha with rfl | hfront
            · exact absurd ((h.stays a).mp hstay).1 hnodup.not_mem_erase
            · exact h.kept a hfront hstay
          · have hsparing := h.sparing
            omega

end Lib
