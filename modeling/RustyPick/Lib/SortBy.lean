import Mathlib.Tactic
import Mathlib.Data.List.Sort

/-!
# Lib.SortBy

Sorting by a comparison that need only be an order on the elements that are sorted.

* `ConsistentOn`: a comparison is a total preorder on a set. It is kept by reading the elements
  through a function (`comap`), by reversing (`reverse`) and by breaking ties (`andThen`).
* `sortBy_sorted`, `sortBy_perm`: the sort of a list a comparison is consistent on.
* `sortBy_eq_of_perm`: without ties there is one such list, so the order of the input does not
  matter.
* `sortBy_indices`: sorting the indices of a list and reading it in their order sorts the list.
-/

namespace Lib

variable {α β : Type}

/-- A stable sort by a comparison. -/
def sortBy (cmp : α → α → Ordering) (l : List α) : List α :=
  l.mergeSort fun a b => (cmp a b).isLE

/-- The comparison is a total preorder on the set. -/
structure ConsistentOn (cmp : α → α → Ordering) (s : Set α) : Prop where
  swap : ∀ a ∈ s, ∀ b ∈ s, cmp b a = (cmp a b).swap
  trans : ∀ a ∈ s, ∀ b ∈ s, ∀ c ∈ s,
    (cmp a b).isLE → (cmp b c).isLE → (cmp a c).isLE

/-- No two elements of the set compare equal. -/
def TieFree (cmp : α → α → Ordering) (s : Set α) : Prop :=
  ∀ a ∈ s, ∀ b ∈ s, cmp a b = .eq → a = b

variable {cmp cmp' : α → α → Ordering} {s t : Set α}

namespace ConsistentOn

theorem of_transCmp [Std.TransCmp cmp] : ConsistentOn cmp s where
  swap _ _ _ _ := Std.OrientedCmp.eq_swap
  trans _ _ _ _ _ _ := Std.TransCmp.isLE_trans

theorem mono (h : ConsistentOn cmp t) (hs : s ⊆ t) : ConsistentOn cmp s where
  swap a ha b hb := h.swap a (hs ha) b (hs hb)
  trans a ha b hb c hc := h.trans a (hs ha) b (hs hb) c (hs hc)

theorem comap {cmp : β → β → Ordering} {s : Set β} (h : ConsistentOn cmp s) {f : α → β}
    {t : Set α} (hf : ∀ a ∈ t, f a ∈ s) : ConsistentOn (fun a b => cmp (f a) (f b)) t where
  swap a ha b hb := h.swap _ (hf a ha) _ (hf b hb)
  trans a ha b hb c hc := h.trans _ (hf a ha) _ (hf b hb) _ (hf c hc)

theorem congr (h : ConsistentOn cmp s) (heq : ∀ a ∈ s, ∀ b ∈ s, cmp' a b = cmp a b) :
    ConsistentOn cmp' s where
  swap a ha b hb := by rw [heq a ha b hb, heq b hb a ha, h.swap a ha b hb]
  trans a ha b hb c hc := by
    rw [heq a ha b hb, heq b hb c hc, heq a ha c hc]
    exact h.trans a ha b hb c hc

theorem reverse (h : ConsistentOn cmp s) : ConsistentOn (fun a b => (cmp a b).swap) s where
  swap a ha b hb := by rw [h.swap a ha b hb]
  trans a ha b hb c hc hab hbc := by
    rw [← h.swap a ha b hb] at hab
    rw [← h.swap b hb c hc] at hbc
    rw [← h.swap a ha c hc]
    exact h.trans c hc b hb a ha hbc hab

/-- Equal to one of two that are in order, equal to both. -/
theorem eq_of_eq (h : ConsistentOn cmp s) {a b c : α} (ha : a ∈ s) (hb : b ∈ s) (hc : c ∈ s)
    (hac : cmp a c = .eq) (hab : (cmp a b).isLE) (hbc : (cmp b c).isLE) :
    cmp a b = .eq ∧ cmp b c = .eq := by
  have hca : cmp c a = .eq := by rw [h.swap a ha c hc, hac]; rfl
  have hba := h.trans b hb c hc a ha hbc (by rw [hca]; rfl)
  have hcb := h.trans c hc a ha b hb (by rw [hca]; rfl) hab
  rw [h.swap a ha b hb] at hba
  rw [h.swap b hb c hc] at hcb
  exact ⟨Ordering.eq_eq_of_isLE_of_isLE_swap hab hba, Ordering.eq_eq_of_isLE_of_isLE_swap hbc hcb⟩

/-- The ties of one comparison broken by another. -/
theorem andThen (h : ConsistentOn cmp s) (h' : ConsistentOn cmp' s) :
    ConsistentOn (fun a b => (cmp a b).then (cmp' a b)) s where
  swap a ha b hb := by rw [h.swap a ha b hb, h'.swap a ha b hb, Ordering.swap_then]
  trans a ha b hb c hc hab hbc := by
    rw [Ordering.isLE_then_iff_and] at hab hbc ⊢
    have hac := h.trans a ha b hb c hc hab.1 hbc.1
    refine ⟨hac, ?_⟩
    by_cases heq : cmp a c = .eq
    · obtain ⟨h₁, h₂⟩ := h.eq_of_eq ha hb hc heq hab.1 hbc.1
      have hab' := hab.2.resolve_left (by rw [h₁]; decide)
      have hbc' := hbc.2.resolve_left (by rw [h₂]; decide)
      exact Or.inr (h'.trans a ha b hb c hc hab' hbc')
    · left
      cases hord : cmp a c with
      | lt => rfl
      | eq => exact absurd hord heq
      | gt => rw [hord] at hac; cases hac

theorem total (h : ConsistentOn cmp s) {a b : α} (ha : a ∈ s) (hb : b ∈ s) :
    (cmp a b).isLE ∨ (cmp b a).isLE := by
  rw [h.swap a ha b hb]
  cases cmp a b <;> simp

end ConsistentOn

/-! ## Sorting -/

theorem sortBy_perm (cmp : α → α → Ordering) (l : List α) : (sortBy cmp l).Perm l :=
  List.mergeSort_perm _ _

/-- Elements sorted by what a function makes of them. -/
theorem map_sortBy {cmp : β → β → Ordering} {cmp' : α → α → Ordering} {f : α → β} {l : List α}
    (h : ∀ a ∈ l, ∀ b ∈ l, cmp' a b = cmp (f a) (f b)) :
    (sortBy cmp' l).map f = sortBy cmp (l.map f) :=
  List.map_mergeSort fun a ha b hb => by rw [h a ha b hb]

theorem sortBy_sorted {l : List α} (h : ConsistentOn cmp {a | a ∈ l}) :
    (sortBy cmp l).Pairwise fun a b => (cmp a b).isLE := by
  -- the order is one on the elements of the list alone, so the list is sorted as a list of those
  have hsorted : (l.attach.mergeSort fun a b => (cmp a.1 b.1).isLE).Pairwise
      fun a b => (cmp a.1 b.1).isLE := by
    apply List.pairwise_mergeSort
    · intro a b c
      exact h.trans a a.2 b b.2 c c.2
    · intro a b
      simpa using h.total a.2 b.2
  have hmap : (sortBy (fun a b : {a // a ∈ l} => cmp a.1 b.1) l.attach).map Subtype.val =
      sortBy cmp (l.attach.map Subtype.val) := map_sortBy fun _ _ _ _ => rfl
  rw [List.attach_map_subtype_val] at hmap
  rw [← hmap]
  exact List.pairwise_map.mpr hsorted

/-- One sorted list for one set of elements, whatever order they come in. -/
theorem sortBy_eq_of_perm {l l' : List α} (h : ConsistentOn cmp {a | a ∈ l})
    (hties : TieFree cmp {a | a ∈ l}) (hperm : l'.Perm l) : sortBy cmp l' = sortBy cmp l := by
  have h' : ConsistentOn cmp {a | a ∈ l'} := h.mono fun a ha => hperm.mem_iff.mp ha
  have hsorted := (sortBy_perm cmp l').trans (hperm.trans (sortBy_perm cmp l).symm)
  refine hsorted.eq_of_pairwise ?_ (sortBy_sorted h') (sortBy_sorted h)
  intro a b ha hb hab hba
  have ha' : a ∈ l := hperm.mem_iff.mp ((sortBy_perm cmp l').mem_iff.mp ha)
  have hb' : b ∈ l := (sortBy_perm cmp l).mem_iff.mp hb
  rw [h.swap a ha' b hb'] at hba
  exact hties a ha' b hb' (Ordering.eq_eq_of_isLE_of_isLE_swap hab hba)

/-- A comparison of what is there. -/
def compareSome (cmp : α → α → Ordering) : Option α → Option α → Ordering
  | some a, some b => cmp a b
  | _, _ => .eq

/-- Indices sorted by what stands at them. -/
theorem sortBy_indices {cmpAt : Nat → Nat → Ordering} (l : List α)
    (h : ∀ i j a b, l[i]? = some a → l[j]? = some b → cmpAt i j = cmp a b) :
    (sortBy cmpAt (List.range l.length)).filterMap (fun i => l[i]?) = sortBy cmp l := by
  -- both are the sort of the elements under `some`
  have hindices : (sortBy cmpAt (List.range l.length)).map (fun i => l[i]?) =
      sortBy (compareSome cmp) ((List.range l.length).map fun i => l[i]?) := by
    refine List.map_mergeSort fun i hi j hj => ?_
    have hi := List.getElem?_eq_getElem (List.mem_range.mp hi)
    have hj := List.getElem?_eq_getElem (List.mem_range.mp hj)
    rw [hi, hj, h i j _ _ hi hj, compareSome]
  have hsome : (sortBy cmp l).map some = sortBy (compareSome cmp) (l.map some) :=
    List.map_mergeSort fun _ _ _ _ => rfl
  have hrange : (List.range l.length).map (fun i => l[i]?) = l.map some := by
    apply List.ext_getElem
    · simp
    · intro i hi _
      simp at hi
      simp [hi]
  have hmap := hindices.trans (hrange ▸ hsome.symm)
  have hread := congrArg (List.filterMap id) hmap
  simpa [List.filterMap_map, Function.comp_def] using hread

end Lib
