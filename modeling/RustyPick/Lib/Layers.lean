import RustyPick.Lib.Map

/-!
# Lib.Layers

Maps read in one after another, each over the ones before: for every key the last layer that has it
wins.

* `insertAll`: one list of entries over a map; `insertAll_toList` reads a map back from its list.
* `topmost`: the lookup in a stack of layers, with what it comes to when one layer or two can hold
  the key.
* `prefix_append_cases`: how far a sequence done in two parts can have got.
-/

namespace Lib

section InsertAll

variable {K V : Type} [Ord K] [Std.TransOrd K] [Std.LawfulEqOrd K] [DecidableEq K]

def insertAll (m : Map K V) (l : List (K × V)) : Map K V := l.foldl (fun m e => m.insert e.1 e.2) m

omit [Std.LawfulEqOrd K] [DecidableEq K] in
@[simp] theorem insertAll_nil (m : Map K V) : insertAll m [] = m := rfl

omit [Std.LawfulEqOrd K] [DecidableEq K] in
theorem insertAll_cons (m : Map K V) (e : K × V) (l : List (K × V)) :
    insertAll m (e :: l) = insertAll (m.insert e.1 e.2) l := rfl

theorem getElem?_insertAll_of_ne {l : List (K × V)} {k : K} (h : ∀ e ∈ l, e.1 ≠ k)
    (m : Map K V) : (insertAll m l)[k]? = m[k]? := by
  induction l generalizing m with
  | nil => rfl
  | cons e l ih =>
    rw [insertAll_cons, ih fun e he => h e (List.mem_cons_of_mem _ he),
      getElem?_insert_ne _ _ (h e List.mem_cons_self)]

/-- What the list says of a key does not depend on the map underneath. -/
theorem getElem?_insertAll (m : Map K V) (l : List (K × V)) (k : K) :
    (insertAll m l)[k]? = ((insertAll ∅ l)[k]?).or m[k]? := by
  induction l generalizing m with
  | nil => simp
  | cons e l ih =>
    rw [insertAll_cons, insertAll_cons, ih, ih (Std.ExtTreeMap.insert ∅ e.1 e.2),
      getElem?_insert_eq, getElem?_insert_eq]
    split <;> simp

theorem getElem?_insertAll_of_mem {l : List (K × V)} (hl : l.Pairwise fun a b => a.1 ≠ b.1)
    {k : K} {v : V} (h : (k, v) ∈ l) (m : Map K V) : (insertAll m l)[k]? = some v := by
  induction l generalizing m with
  | nil => simp at h
  | cons e l ih =>
    rw [List.pairwise_cons] at hl
    rcases List.mem_cons.mp h with rfl | h
    · rw [insertAll_cons, getElem?_insertAll_of_ne (fun e he => (hl.1 e he).symm)]
      simp
    · exact ih hl.2 h _

/-- Every entry of the result came from the list or was there before. -/
theorem of_getElem?_insertAll {l : List (K × V)} {m : Map K V} {k : K} {v : V}
    (h : (insertAll m l)[k]? = some v) : (k, v) ∈ l ∨ m[k]? = some v := by
  induction l generalizing m with
  | nil => exact Or.inr h
  | cons e l ih =>
    rcases ih h with h | h
    · exact Or.inl (List.mem_cons_of_mem _ h)
    · rw [getElem?_insert_eq] at h
      split at h
      · rename_i heq
        cases h
        rw [← heq]
        exact Or.inl List.mem_cons_self
      · exact Or.inr h

omit [DecidableEq K] in
theorem mem_insertAll {l : List (K × V)} {m : Map K V} {k : K} :
    k ∈ insertAll m l ↔ (∃ v, (k, v) ∈ l) ∨ k ∈ m := by
  induction l generalizing m with
  | nil => simp
  | cons e l ih =>
    obtain ⟨j, w⟩ := e
    rw [insertAll_cons, ih, Std.ExtTreeMap.mem_insert, Std.compare_eq_iff_eq]
    simp only [List.mem_cons, Prod.mk.injEq]
    constructor
    · rintro (⟨v, hv⟩ | rfl | hm)
      · exact Or.inl ⟨v, Or.inr hv⟩
      · exact Or.inl ⟨w, Or.inl ⟨rfl, rfl⟩⟩
      · exact Or.inr hm
    · rintro (⟨v, ⟨rfl, -⟩ | hv⟩ | hm)
      · exact Or.inr (Or.inl rfl)
      · exact Or.inl ⟨v, hv⟩
      · exact Or.inr (Or.inr hm)

omit [DecidableEq K] in
theorem pairwise_toList (m : Map K V) : m.toList.Pairwise fun a b => a.1 ≠ b.1 := by
  have := Std.ExtTreeMap.distinct_keys_toList (t := m)
  simpa [Std.compare_eq_iff_eq] using this

omit [Std.LawfulEqOrd K] [DecidableEq K] in
theorem values_eq (m : Map K V) : m.values = m.toList.map Prod.snd := by
  obtain ⟨⟨q⟩⟩ := m
  refine Quotient.inductionOn q ?_
  intro t
  show t.values = (Std.DTreeMap.Const.toList t).map Prod.snd
  unfold Std.DTreeMap.values Std.DTreeMap.Const.toList
  rw [Std.DTreeMap.Internal.Impl.values_eq_map_snd,
    Std.DTreeMap.Internal.Impl.Const.toList_eq_toListModel_map]
  simp

omit [DecidableEq K] in
theorem mem_values_of_getElem? {m : Map K V} {k : K} {v : V} (h : m[k]? = some v) :
    v ∈ m.values := by
  rw [values_eq]
  exact List.mem_map.mpr ⟨(k, v), Std.ExtTreeMap.mem_toList_iff_getElem?_eq_some.mpr h, rfl⟩

/-- The list of a map, its values passed through `f`, reads back as the map of those values. -/
theorem insertAll_map_toList {W : Type} (f : V → W) (m : Map K V) :
    insertAll ∅ (m.toList.map fun e => (e.1, f e.2)) = m.map fun _ v => f v := by
  apply Std.ExtTreeMap.ext_getElem?
  intro k
  rw [Std.ExtTreeMap.getElem?_map]
  cases hk : m[k]? with
  | some v =>
    have hmem : (k, v) ∈ m.toList := Std.ExtTreeMap.mem_toList_iff_getElem?_eq_some.mpr hk
    rw [Option.map_some]
    have hp : (m.toList.map fun e => (e.1, f e.2)).Pairwise fun a b => a.1 ≠ b.1 :=
      List.pairwise_map.mpr (pairwise_toList m)
    exact getElem?_insertAll_of_mem hp (List.mem_map.mpr ⟨(k, v), hmem, rfl⟩) ∅
  | none =>
    rw [Option.map_none, getElem?_insertAll_of_ne]
    · simp
    · rintro e he rfl
      obtain ⟨⟨j, v⟩, hj, rfl⟩ := List.mem_map.mp he
      have := Std.ExtTreeMap.mem_toList_iff_getElem?_eq_some.mp hj
      rw [hk] at this
      cases this

end InsertAll

/-! ## A stack of layers -/

section Topmost

variable {α : Type}

/-- The value of the highest of the first `n` layers that has one. -/
def topmost (f : Nat → Option α) : Nat → Option α
  | 0 => none
  | n + 1 => (f n).or (topmost f n)

theorem topmost_eq_none {f : Nat → Option α} {n : Nat} (h : ∀ i < n, f i = none) :
    topmost f n = none := by
  induction n with
  | zero => rfl
  | succ n ih =>
    rw [topmost, h n (Nat.lt_succ_self n), ih fun i hi => h i (Nat.lt_succ_of_lt hi)]
    rfl

theorem topmost_of_one {f : Nat → Option α} {n a : Nat} (ha : a < n)
    (h : ∀ i < n, i ≠ a → f i = none) : topmost f n = f a := by
  induction n with
  | zero => omega
  | succ n ih =>
    rw [topmost]
    by_cases hna : n = a
    · subst hna
      rw [topmost_eq_none fun i hi => h i (by omega) (by omega)]
      cases f n <;> rfl
    · rw [h n (by omega) hna, ih (by omega) fun i hi => h i (by omega)]
      rfl

/-- Where only layers `b < a` can have a value, `a` is asked first. -/
theorem topmost_of_two {f : Nat → Option α} {n a b : Nat} (ha : a < n) (hb : b < a)
    (h : ∀ i < n, i ≠ a → i ≠ b → f i = none) : topmost f n = (f a).or (f b) := by
  induction n with
  | zero => omega
  | succ n ih =>
    rw [topmost]
    by_cases hna : n = a
    · subst hna
      rw [topmost_of_one hb fun i hi => h i (by omega) (by omega)]
    · rw [h n (by omega) hna (by omega), ih (by omega) fun i hi => h i (by omega)]
      rfl

end Topmost

/-! ## Prefixes -/

theorem prefix_append_cases {α : Type} {p a b : List α} (h : p <+: a ++ b) :
    p <+: a ∨ ∃ t, p = a ++ t ∧ t <+: b := by
  rcases List.prefix_or_prefix_of_prefix h (List.prefix_append a b) with h' | ⟨t, rfl⟩
  · exact Or.inl h'
  · exact Or.inr ⟨t, rfl, (List.prefix_append_right_inj a).mp h⟩

end Lib
