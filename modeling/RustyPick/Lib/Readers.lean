import RustyPick.Lib.Bytes

/-!
# Lib.Readers

Readers that take what they understand off the front of an input. A reader is `Stable` when what
follows the part it took has no say in the result. An input that a stable reader reads to its end
is read so by no other start or continuation of it (`Stable.not_cut`, `Stable.not_extended`), which
is what makes a frame self-delimiting.
-/

namespace Lib

variable {σ α β : Type}

/-- What was read, and what is left of the input. -/
abbrev Reader (σ α : Type) := List σ → Option (α × List σ)

def Stable (p : Reader σ α) : Prop :=
  ∀ ⦃input value rest⦄, p input = some (value, rest) →
    ∀ more, p (input ++ more) = some (value, rest ++ more)

theorem Stable.pure (a : α) : Stable (fun input : List σ => some (a, input)) := by
  intro input value rest h more
  cases h
  rfl

theorem Stable.fail : Stable (fun _ : List σ => (none : Option (α × List σ))) := by
  intro input value rest h
  cases h

theorem Stable.bind {p : Reader σ α} {q : α → Reader σ β} (hp : Stable p)
    (hq : ∀ a, Stable (q a)) : Stable (fun input => (p input).bind fun x => q x.1 x.2) := by
  intro input value rest h more
  obtain ⟨⟨a, left⟩, ha, hb⟩ := Option.bind_eq_some_iff.mp h
  exact Option.bind_eq_some_iff.mpr ⟨(a, left ++ more), hp ha more, hq a hb more⟩

theorem Stable.map {p : Reader σ α} (f : α → β) (hp : Stable p) :
    Stable (fun input => (p input).map fun x => (f x.1, x.2)) := by
  intro input value rest h more
  obtain ⟨⟨a, left⟩, ha, hb⟩ := Option.map_eq_some_iff.mp h
  cases hb
  exact Option.map_eq_some_iff.mpr ⟨(a, left ++ more), hp ha more, rfl⟩

theorem Stable.ite {c : Prop} [Decidable c] {p q : Reader σ α} (hp : Stable p) (hq : Stable q) :
    Stable (fun input => if c then p input else q input) := by
  intro input value rest h more
  by_cases hc : c
  · exact (if_pos hc).trans (hp ((if_pos hc).symm.trans h) more)
  · exact (if_neg hc).trans (hq ((if_neg hc).symm.trans h) more)

theorem stable_takeExact (n : Nat) : Stable (takeExact n : Reader σ (List σ)) := by
  intro input value rest h more
  unfold takeExact at h ⊢
  split at h
  · rename_i hn
    cases h
    have hlen : n ≤ (input ++ more).length := by
      rw [List.length_append]
      omega
    rw [if_pos hlen, List.take_append_of_le_length hn, List.drop_append_of_le_length hn]
  · cases h

/-- No strict start of an input that is read to its end is read to its end. -/
theorem Stable.not_cut {p : Reader σ α} (hp : Stable p) {start more : List σ} {a : α}
    (h : p (start ++ more) = some (a, [])) (hmore : more ≠ []) : ∀ b, p start ≠ some (b, []) := by
  intro b hb
  have hread := hp hb more
  rw [h, List.nil_append] at hread
  cases hread
  exact hmore rfl

/-- No continuation of an input that is read to its end is read to its end. -/
theorem Stable.not_extended {p : Reader σ α} (hp : Stable p) {input more : List σ} {a : α}
    (h : p input = some (a, [])) (hmore : more ≠ []) : ∀ b, p (input ++ more) ≠ some (b, []) := by
  intro b hb
  rw [hp h more, List.nil_append] at hb
  cases hb
  exact hmore rfl

end Lib
