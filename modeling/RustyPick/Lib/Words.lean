import Mathlib.Tactic

/-!
# Lib.Words

A list cut into words: the maximal runs without a separator.
-/

namespace Lib

variable {α : Type} {p : α → Bool}

def words (p : α → Bool) (l : List α) : List (List α) := (l.splitOnP p).filter fun w => w ≠ []

@[simp] theorem words_nil : words p [] = [] := rfl

theorem words_cons_sep {a : α} (h : p a = true) (l : List α) : words p (a :: l) = words p l := by
  rw [words, List.splitOnP_cons_eq_if_modifyHead, if_pos h, List.filter_cons_of_neg (by simp), words]

/-- A run that a separator or the end follows is one word. -/
theorem words_append {w l : List α} (hne : w ≠ []) (hw : ∀ a ∈ w, p a = false)
    (hl : ∀ a, l.head? = some a → p a = true) : words p (w ++ l) = w :: words p l := by
  cases l with
  | nil =>
    rw [List.append_nil, words, List.splitOnP_eq_singleton hw]
    simp [hne]
  | cons a l =>
    have ha := hl a rfl
    rw [words_cons_sep ha, words, List.splitOnP_append_cons_of_forall_mem hw a ha, words]
    simp [hne]

theorem of_mem_splitOnP {l w : List α} (h : w ∈ l.splitOnP p) : ∀ a ∈ w, p a = false := by
  induction l generalizing w with
  | nil =>
    rw [List.mem_singleton.mp h]
    exact fun a ha => absurd ha List.not_mem_nil
  | cons x l ih =>
    rw [List.splitOnP_cons_eq_if_modifyHead] at h
    split at h
    · rcases List.mem_cons.mp h with rfl | h
      · exact fun a ha => absurd ha List.not_mem_nil
      · exact ih h
    · rename_i hx
      cases hpieces : l.splitOnP p with
      | nil => exact absurd hpieces (List.splitOnP_ne_nil p l)
      | cons v rest =>
        rw [hpieces, List.modifyHead_cons] at h
        rcases List.mem_cons.mp h with rfl | h
        · intro a ha
          rcases List.mem_cons.mp ha with rfl | ha
          · exact Bool.eq_false_iff.mpr hx
          · exact ih (hpieces ▸ List.mem_cons_self) a ha
        · exact ih (hpieces ▸ List.mem_cons_of_mem v h)

theorem of_mem_words {l w : List α} (h : w ∈ words p l) : ∀ a ∈ w, p a = false :=
  of_mem_splitOnP (List.mem_filter.mp h).1

end Lib
