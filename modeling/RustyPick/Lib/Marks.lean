import RustyPick.Lib.Map

/-!
# Lib.Marks

Which entries of a map have changed since it was last written out: all of them, or those under the
marked keys.

* `Tracks`: every change between two moments is marked at the second, and no mark is lost.
-/

namespace Lib

structure Marks (K : Type) where
  all : Bool
  keys : Finset K

section

variable {K V : Type} [Ord K] [Std.TransOrd K]
  {c c' c'' : Marks K} {m m' m'' : Map K V}

/-- The changes from `m` to `m'` are marked in `c'`, beside whatever `c` had marked. -/
def Tracks (c c' : Marks K) (m m' : Map K V) : Prop :=
  c'.all = true ∨ c'.all = c.all ∧ c.keys ⊆ c'.keys ∧ ∀ k, k ∉ c'.keys → m'[k]? = m[k]?

theorem Tracks.refl (c : Marks K) (m : Map K V) : Tracks c c m m :=
  Or.inr ⟨rfl, Finset.Subset.refl _, fun _ _ => rfl⟩

theorem Tracks.trans (h : Tracks c c' m m') (h' : Tracks c' c'' m' m'') : Tracks c c'' m m'' := by
  rcases h' with hall | ⟨hall', hkeys', hsame'⟩
  · exact Or.inl hall
  · rcases h with hall | ⟨hall, hkeys, hsame⟩
    · exact Or.inl (hall'.trans hall)
    · refine Or.inr ⟨hall'.trans hall, hkeys.trans hkeys', fun k hk => ?_⟩
      rw [hsame' k hk, hsame k fun hin => hk (hkeys' hin)]

/-- One entry changed, and its key marked. -/
theorem Tracks.touch [DecidableEq K] (c : Marks K) {key : K}
    (hother : ∀ k, k ≠ key → m'[k]? = m[k]?) : Tracks c ⟨c.all, insert key c.keys⟩ m m' := by
  refine Or.inr ⟨rfl, Finset.subset_insert _ _, fun k hk => hother k ?_⟩
  rintro rfl
  exact hk (Finset.mem_insert_self _ _)

/-- Where nothing is marked, nothing has changed. -/
theorem Tracks.unchanged (h : Tracks c c' m m') (hall : c'.all = false) (hkeys : c'.keys = ∅) :
    c.all = false ∧ c.keys = ∅ ∧ ∀ k : K, m'[k]? = m[k]? := by
  rcases h with h | ⟨hsame, hsub, heq⟩
  · rw [hall] at h
    cases h
  · refine ⟨hsame ▸ hall, Finset.subset_empty.mp (hkeys ▸ hsub), fun k => heq k ?_⟩
    rw [hkeys]
    exact Finset.notMem_empty k

end

end Lib
