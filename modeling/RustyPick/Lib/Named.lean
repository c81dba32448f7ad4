import RustyPick.Lib.Layers

/-!
# Lib.Named

Entries put into a map under names they may share: for every name the last entry that has it wins.

* `named_top`: in a list that a relation orders, what wins is above everything else of the name.
-/

namespace Lib

variable {E K V : Type} [Ord K] [Std.TransOrd K] [Std.LawfulEqOrd K] [DecidableEq K]
variable {names : E → List K} {value : E → V}

def named (names : E → List K) (value : E → V) (l : List E) : Map K V :=
  insertAll ∅ (l.flatMap fun e => (names e).map fun k => (k, value e))

omit [Std.LawfulEqOrd K] [DecidableEq K] in
@[simp] theorem named_nil : named names value [] = ∅ := rfl

/-- Values passed through `f` before they go in. -/
theorem insertAll_map {W : Type} (f : V → W) (l : List (K × V)) :
    insertAll ∅ (l.map fun e => (e.1, f e.2)) = (insertAll ∅ l).map fun _ v => f v := by
  have hinsert : ∀ m : Map K V, insertAll (m.map fun _ v => f v) (l.map fun e => (e.1, f e.2)) =
      (insertAll m l).map fun _ v => f v := by
    induction l with
    | nil => exact fun _ => rfl
    | cons e l ih =>
      intro m
      rw [List.map_cons, insertAll_cons, insertAll_cons, ← ih]
      congr 1
      apply Std.ExtTreeMap.ext_getElem?
      intro k
      rw [getElem?_insert_eq, Std.ExtTreeMap.getElem?_map, Std.ExtTreeMap.getElem?_map,
        getElem?_insert_eq]
      split <;> rfl
  have hempty := hinsert ∅
  rwa [show ((∅ : Map K V).map fun _ v => f v) = ∅ from
    Std.ExtTreeMap.ext_getElem? fun k => by simp] at hempty

theorem getElem?_named_append (l l' : List E) (k : K) :
    (named names value (l ++ l'))[k]? =
      ((named names value l')[k]?).or (named names value l)[k]? := by
  rw [named, List.flatMap_append, insertAll, List.foldl_append]
  exact getElem?_insertAll _ _ k

theorem getElem?_named_of_not_mem {l : List E} {k : K} (h : ∀ e ∈ l, k ∉ names e) :
    (named names value l)[k]? = none := by
  rw [named, getElem?_insertAll_of_ne]
  · simp
  · intro p hp heq
    obtain ⟨e, he, hp⟩ := List.mem_flatMap.mp hp
    obtain ⟨j, hj, rfl⟩ := List.mem_map.mp hp
    exact h e he (heq ▸ hj)

theorem getElem?_named_singleton {e : E} {k : K} (h : k ∈ names e) :
    (named names value [e])[k]? = some (value e) := by
  have hmem : k ∈ named names value [e] :=
    mem_insertAll.mpr (.inl ⟨value e, by simpa using h⟩)
  obtain ⟨v, hv⟩ := mem_iff_exists.mp hmem
  rcases of_getElem?_insertAll hv with hp | hp
  · rw [List.flatMap_singleton] at hp
    obtain ⟨j, -, heq⟩ := List.mem_map.mp hp
    rw [hv, ← (Prod.mk.inj heq).2]
  · simp at hp

/-- The last entry with the name. -/
theorem getElem?_named_last {l l' : List E} {e : E} {k : K} (h : k ∈ names e)
    (hlast : ∀ e' ∈ l', k ∉ names e') :
    (named names value (l ++ e :: l'))[k]? = some (value e) := by
  rw [List.append_cons, getElem?_named_append, getElem?_named_of_not_mem hlast, Option.none_or,
    getElem?_named_append, getElem?_named_singleton h, Option.some_or]

omit [Ord K] [Std.TransOrd K] [Std.LawfulEqOrd K] in
theorem exists_last {l : List E} {k : K} (h : ∃ e ∈ l, k ∈ names e) :
    ∃ before e after, l = before ++ e :: after ∧ k ∈ names e ∧ ∀ e' ∈ after, k ∉ names e' := by
  induction l with
  | nil => obtain ⟨e, he, -⟩ := h; cases he
  | cons x l ih =>
    by_cases hl : ∃ e ∈ l, k ∈ names e
    · obtain ⟨before, e, after, rfl, hk, hlast⟩ := ih hl
      exact ⟨x :: before, e, after, rfl, hk, hlast⟩
    · push Not at hl
      obtain ⟨e, he, hk⟩ := h
      rcases List.mem_cons.mp he with rfl | he
      · exact ⟨[], e, l, rfl, hk, hl⟩
      · exact absurd hk (hl e he)

omit [DecidableEq K] in
theorem mem_named {l : List E} {k : K} : k ∈ named names value l ↔ ∃ e ∈ l, k ∈ names e := by
  rw [named, mem_insertAll]
  simp

/-- What wins is above everything else of the name. -/
theorem named_top {l : List E} {R : E → E → Prop} (hR : l.Pairwise R) {k : K} {v : V}
    (h : (named names value l)[k]? = some v) :
    ∃ e ∈ l, k ∈ names e ∧ value e = v ∧ ∀ e' ∈ l, k ∈ names e' → e' = e ∨ R e' e := by
  obtain ⟨before, e, after, rfl, hk, hlast⟩ := exists_last (mem_named.mp (mem_of_getElem? h))
  rw [getElem?_named_last hk hlast] at h
  refine ⟨e, by simp, hk, Option.some.inj h, fun e' he' hk' => ?_⟩
  rcases List.mem_append.mp he' with hbefore | hafter
  · exact .inr ((List.pairwise_append.mp hR).2.2 e' hbefore e List.mem_cons_self)
  · rcases List.mem_cons.mp hafter with rfl | hafter
    · exact .inl rfl
    · exact absurd hk' (hlast e' hafter)

end Lib
