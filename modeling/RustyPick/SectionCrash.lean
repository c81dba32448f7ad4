import RustyPick.SectionSave

/-!
# RustyPick.SectionCrash

A save of a section cut short anywhere, and what loads afterwards.

Groups are written in place under the old `meta`, and `meta` comes last. While the modulus stays or
shrinks, the old `meta` still finds every key: in its old group, or in the new one below it. When
the modulus grows, a key that moves has left the group the old `meta` looks in for one it does not
look at, and is gone until `meta` is replaced.

* `load_interrupted`: what each key reads as after a proper prefix.
* `crashAtomic_iff`: every prefix loads with each key old or new exactly when the entries read back
  as they were and no surviving key moves under a growing modulus.
-/

namespace RustyPick

open Lib

section Interrupt

variable {dir : SectionDir} {previous written : SectionMeta} {M M' : Entries} {m' : Nat}
  {visited removals vs rs : List Nat} {steps : List FileStep} {after : SectionDir}

/-- What group `g` reads as in an interrupted save. -/
def interruptedGroup (M M' : Entries) (m m' : Nat) (vs rs : List Nat) (g : Nat) : Entries :=
  if g ∈ rs then ∅ else if g ∈ vs then storedForm (bucket M' m' g) else bucket M m g

theorem getElem?_interruptedGroup (m : Nat) (g : Nat) (k : String) :
    (interruptedGroup M M' m m' vs rs g)[k]? =
      if g ∈ rs then none
      else if g ∈ vs then if groupOf k m' = g then M'[k]?.map Record.stored else none
      else if groupOf k m = g then M[k]? else none := by
  unfold interruptedGroup
  split_ifs <;> simp_all

theorem groupReads_interrupted (hold : Holds dir previous M)
    (h : Interrupted dir M' m' visited removals vs rs after) (hfit : AllFit M')
    (hsize : M'.size < 2 ^ 64) {g : Nat} (hg : g < previous.modulus) :
    GroupReads after previous.checksums g
      (interruptedGroup M M' previous.modulus m' vs rs g) := by
  have hfile := h.groups g
  unfold interruptedGroup
  split_ifs at hfile ⊢
  · refine ⟨[], ?_, rfl⟩
    rw [SectionDir.readGroup, hfile]
    rfl
  · exact groupReads_newFile _ (hfit.bucket m' g) hsize hfile
  · exact (hold.groups g hg).congr h.path hfile

/-- The lookup through the old modulus, key by key. -/
theorem topmost_interrupted (hold : Holds dir previous M)
    (h : Interrupted dir M' m' visited removals vs rs after) (hm' : IsModulus m')
    (hplan : SavePlan dir previous M M' m' written visited removals steps) (k : String) :
    topmost (fun g => (interruptedGroup M M' previous.modulus m' vs rs g)[k]?) previous.modulus =
      if previous.modulus < m' ∧ groupOf k m' ≠ groupOf k previous.modulus then
        if groupOf k previous.modulus ∈ vs then none else M[k]?
      else if groupOf k previous.modulus = groupOf k m' then
        if groupOf k m' ∈ vs then M'[k]?.map Record.stored else M[k]?
      else if groupOf k previous.modulus ∈ rs then M'[k]?.map Record.stored
      else M[k]?.or (if groupOf k m' ∈ vs then M'[k]?.map Record.stored else none) := by
  have hm := hold.modulus
  have ha : groupOf k previous.modulus < previous.modulus := groupOf_lt hm.pos k
  have hb : groupOf k m' < m' := groupOf_lt hm'.pos k
  have hrs : ∀ g < m', g ∉ rs := fun g hg hc => by
    have := hplan.removals_ge g (h.removed.subset hc)
    omega
  have hvs : ∀ g ∈ vs, g < m' := fun g hg => hplan.visited_lt g (h.written.subset hg)
  by_cases hsame : groupOf k previous.modulus = groupOf k m'
  · -- the key stays in its group, so only that group can hold it
    have hnot : ¬ (previous.modulus < m' ∧ groupOf k m' ≠ groupOf k previous.modulus) :=
      fun hc => hc.2 hsame.symm
    rw [if_neg hnot, if_pos hsame, topmost_of_one ha]
    · rw [getElem?_interruptedGroup, if_neg (hrs _ (hsame ▸ hb)), if_pos hsame.symm, if_pos rfl,
        hsame]
    · intro g _ hg
      have h1 : groupOf k previous.modulus ≠ g := Ne.symm hg
      have h2 : groupOf k m' ≠ g := hsame ▸ h1
      simp [getElem?_interruptedGroup, h1, h2]
  · by_cases hgrow : previous.modulus < m'
    · -- the modulus grows: the new group is one the old modulus never looks at
      have hne : groupOf k m' ≠ groupOf k previous.modulus := Ne.symm hsame
      have hfar := groupOf_grow hm hm' (le_of_lt hgrow) k hne
      rw [if_pos ⟨hgrow, hne⟩, topmost_of_one ha]
      · rw [getElem?_interruptedGroup, if_neg (hrs _ (lt_trans ha hgrow)), if_neg hne, if_pos rfl]
      · intro g hg hga
        have h1 : groupOf k previous.modulus ≠ g := Ne.symm hga
        have h2 : groupOf k m' ≠ g := by omega
        simp [getElem?_interruptedGroup, h1, h2]
    · -- it shrinks: the old group is above every new one, and is asked first
      have hle : m' ≤ previous.modulus := Nat.not_lt.mp hgrow
      have hfar := groupOf_grow hm' hm hle k hsame
      rw [if_neg (fun hc => hgrow hc.1), if_neg hsame,
        topmost_of_two ha (lt_of_lt_of_le hb hfar)]
      · have hav : groupOf k previous.modulus ∉ vs := fun hc => by
          have := hvs _ hc
          omega
        simp only [getElem?_interruptedGroup, if_neg (hrs _ hb), if_neg hav, if_pos]
        by_cases har : groupOf k previous.modulus ∈ rs
        · have hall : vs = visited := h.order.resolve_left (List.ne_nil_of_mem har)
          have hremoved : removals ≠ [] := List.ne_nil_of_mem (h.removed.subset har)
          have hbv : groupOf k m' ∈ vs := hall ▸ hplan.full (Or.inr hremoved) _ hb
          simp [har, hbv]
        · simp [har, hsame]
      · intro g _ hga hgb
        have h1 : groupOf k previous.modulus ≠ g := Ne.symm hga
        have h2 : groupOf k m' ≠ g := Ne.symm hgb
        simp [getElem?_interruptedGroup, h1, h2]

/-- After a proper prefix the section loads, under the old metadata, with every key as it was, as
it is to be, or lost to a group the old modulus does not reach. -/
theorem load_interrupted (hold : Holds dir previous M)
    (h : Interrupted dir M' m' visited removals vs rs after) (hm' : IsModulus m')
    (hplan : SavePlan dir previous M M' m' written visited removals steps)
    (hfit : AllFit M') (hsize : M'.size < 2 ^ 64) :
    ∃ map, load after = .ok (previous, map) ∧ ∀ k : String,
      map[k]? = M[k]? ∨ map[k]? = M'[k]?.map Record.stored ∨
        (map[k]? = none ∧ previous.modulus < m' ∧
          groupOf k m' ≠ groupOf k previous.modulus) := by
  have hmeta : ∃ found, readMetaChecked after.metaPath after.metaFile = .ok found ∧
      found.getD .empty = previous := by
    rw [SectionDir.metaPath, h.path, h.metaFile]
    exact hold.metaFile
  obtain ⟨map, hload, hlook⟩ :=
    load_of_reads hmeta fun g hg => groupReads_interrupted hold h hfit hsize hg
  refine ⟨map, hload, fun k => ?_⟩
  rw [hlook, topmost_interrupted hold h hm' hplan]
  split_ifs with h1 h2
  · exact Or.inr (Or.inr ⟨rfl, h1⟩)
  · exact Or.inl rfl
  · exact Or.inr (Or.inl rfl)
  · exact Or.inl rfl
  · exact Or.inr (Or.inl rfl)
  · cases hM : M[k]? with
    | none => exact Or.inr (Or.inl rfl)
    | some r => exact Or.inl rfl
  · cases hM : M[k]? with
    | none => exact Or.inl rfl
    | some r => exact Or.inl rfl

/-- While the modulus stays, a directory left half way is as consistent as any: it holds some keys as
they were and some as they are to be. -/
theorem holds_interrupted (hold : Holds dir previous M)
    (h : Interrupted dir M' previous.modulus visited removals vs rs after)
    (hplan : SavePlan dir previous M M' previous.modulus written visited removals steps)
    (hfit : AllFit M') (hsize : M'.size < 2 ^ 64) :
    ∃ D, Holds after previous D ∧ ∀ k : String, D[k]? = M[k]? ∨ D[k]? = M'[k]?.map Record.stored := by
  have hmeta : ∃ found, readMetaChecked after.metaPath after.metaFile = .ok found ∧
      found.getD .empty = previous := by
    rw [SectionDir.metaPath, h.path, h.metaFile]
    exact hold.metaFile
  have hreads := fun g (hg : g < previous.modulus) =>
    groupReads_interrupted hold h hfit hsize hg
  obtain ⟨D, -, hlook⟩ := load_of_reads hmeta hreads
  have heach : ∀ k : String, D[k]? =
      if groupOf k previous.modulus ∈ vs then M'[k]?.map Record.stored else M[k]? := by
    intro k
    rw [hlook, topmost_interrupted hold h hold.modulus hplan]
    simp
  refine ⟨D, ⟨hmeta, hold.modulus, ?_, ?_⟩, ?_⟩
  · intro g hg
    have hsame : interruptedGroup M M' previous.modulus previous.modulus vs rs g =
        bucket D previous.modulus g := by
      have hrs : g ∉ rs := fun hc => by
        have := hplan.removals_ge g (h.removed.subset hc)
        omega
      apply Std.ExtTreeMap.ext_getElem?
      intro k
      rw [getElem?_interruptedGroup, if_neg hrs, getElem?_bucket, heach]
      by_cases hk : groupOf k previous.modulus = g
      · simp [hk]
      · simp [hk]
    rw [← hsame]
    exact hreads g hg
  · intro k r hr
    rw [heach] at hr
    split at hr
    · obtain ⟨r₀, hr₀, rfl⟩ := Option.map_eq_some_iff.mp hr
      have := hfit k r₀ hr₀
      simpa [Fits] using this
    · exact hold.fits k r hr
  · intro k
    rw [heach]
    split
    · exact Or.inr rfl
    · exact Or.inl rfl

/-- What loads at all after a proper prefix, whatever the entries: the old metadata, and each key as
it was, as it is to be, or lost. -/
theorem lookup_interrupted (hold : Holds dir previous M)
    (h : Interrupted dir M' m' visited removals vs rs after) (hm' : IsModulus m')
    (hplan : SavePlan dir previous M M' m' written visited removals steps) (hmem : InMemory M')
    {found : SectionMeta} {map : Entries} (hload : load after = .ok (found, map)) :
    found = previous ∧ ∀ k : String, map[k]? = M[k]? ∨
      (map[k]? = M'[k]?.map Record.stored ∧
        (previous.modulus < m' → groupOf k m' = groupOf k previous.modulus)) ∨
      (map[k]? = none ∧ previous.modulus < m' ∧ groupOf k m' ≠ groupOf k previous.modulus) := by
  have hmeta : ∃ found, readMetaChecked after.metaPath after.metaFile = .ok found ∧
      found.getD .empty = previous := by
    rw [SectionDir.metaPath, h.path, h.metaFile]
    exact hold.metaFile
  obtain ⟨⟨got, hgot, hfound⟩, hreads⟩ := reads_of_load hload
  obtain ⟨got', hgot', hprev⟩ := hmeta
  have hsame : found = previous := by
    rw [hgot] at hgot'
    cases hgot'
    exact hfound.symm.trans hprev
  subst hsame
  have hgroups : ∀ g < found.modulus, GroupReads after found.checksums g
      (interruptedGroup M M' found.modulus m' vs rs g) := by
    intro g hg
    obtain ⟨frames, hframes⟩ := hreads g hg
    have hfile := h.groups g
    unfold interruptedGroup
    split_ifs at hfile ⊢
    · refine ⟨[], ?_, rfl⟩
      rw [SectionDir.readGroup, hfile]
      rfl
    · exact groupReads_of_readable hmem hfile hframes
    · exact (hold.groups g hg).congr h.path hfile
  obtain ⟨map', hload', hlook⟩ := load_of_reads ⟨got, hgot, hfound⟩ hgroups
  rw [hload] at hload'
  cases hload'
  refine ⟨rfl, fun k => ?_⟩
  rw [hlook, topmost_interrupted hold h hm' hplan]
  by_cases hmoves : found.modulus < m' ∧ groupOf k m' ≠ groupOf k found.modulus
  · rw [if_pos hmoves]
    split_ifs
    · exact Or.inr (Or.inr ⟨rfl, hmoves⟩)
    · exact Or.inl rfl
  · have hstay : found.modulus < m' → groupOf k m' = groupOf k found.modulus := fun hgrow => by
      by_contra hne
      exact hmoves ⟨hgrow, hne⟩
    rw [if_neg hmoves]
    split_ifs
    · exact Or.inr (Or.inl ⟨rfl, hstay⟩)
    · exact Or.inl rfl
    · exact Or.inr (Or.inl ⟨rfl, hstay⟩)
    · cases hM : M[k]? with
      | none => exact Or.inr (Or.inl ⟨rfl, hstay⟩)
      | some r => exact Or.inl rfl
    · cases hM : M[k]? with
      | none => exact Or.inl rfl
      | some r => exact Or.inl rfl

/-- What loads at all after the whole save is what was saved. -/
theorem load_saved {dirty : Option (Finset String)} (hold : Holds dir previous M)
    (hm' : IsModulus m')
    (hplan : SavePlan dir previous M M' m' (nextMeta previous M' dirty m') visited removals steps)
    (hmem : InMemory M') {found : SectionMeta} {map : Entries}
    (hload : load (dir.performAll steps) = .ok (found, map)) :
    found = nextMeta previous M' dirty m' ∧ map = storedForm M' := by
  obtain ⟨hpath, hmetaFile, hgroups⟩ := hplan.groups_after
  obtain ⟨⟨got, hgot, hfound⟩, hreads⟩ := reads_of_load hload
  have hmeta := hgot
  rw [hmetaFile, readMetaChecked_metaBytes (nextMeta_written hm' hmem.1)] at hmeta
  cases hmeta
  have hsame : found = nextMeta previous M' dirty m' := hfound.symm
  subst hsame
  have hall : ∀ g < m', GroupReads (dir.performAll steps)
      (nextMeta previous M' dirty m').checksums g (bucket (storedForm M') m' g) := by
    intro g hg
    rw [← storedForm_bucket]
    by_cases hv : g ∈ visited
    · obtain ⟨frames, hframes⟩ := hreads g hg
      have hfile := hgroups g hg
      rw [if_pos hv] at hfile
      exact groupReads_of_readable hmem hfile hframes
    · exact hplan.groupReads_unvisited hold hg hv
  obtain ⟨map', hload', hlook⟩ := load_of_reads ⟨_, hgot, hfound⟩ hall
  rw [hload] at hload'
  cases hload'
  refine ⟨rfl, Std.ExtTreeMap.ext_getElem? fun {k} => ?_⟩
  rw [hlook]
  exact topmost_bucket hm'.pos k

/-- A key that moves under a growing modulus is not found while `meta` is the old one. -/
theorem load_beforeMeta_moved (hold : Holds dir previous M)
    (h : Interrupted dir M' m' visited removals visited removals after) (hm' : IsModulus m')
    (hplan : SavePlan dir previous M M' m' written visited removals steps)
    (hfit : AllFit M') (hsize : M'.size < 2 ^ 64) {k : String} (hgrow : previous.modulus < m')
    (hmove : groupOf k m' ≠ groupOf k previous.modulus) :
    ∃ map, load after = .ok (previous, map) ∧ map[k]? = none := by
  have hmeta : ∃ found, readMetaChecked after.metaPath after.metaFile = .ok found ∧
      found.getD .empty = previous := by
    rw [SectionDir.metaPath, h.path, h.metaFile]
    exact hold.metaFile
  obtain ⟨map, hload, hlook⟩ :=
    load_of_reads hmeta fun g hg => groupReads_interrupted hold h hfit hsize hg
  refine ⟨map, hload, ?_⟩
  have ha : groupOf k previous.modulus < m' :=
    lt_trans (groupOf_lt hold.modulus.pos k) hgrow
  have hv : groupOf k previous.modulus ∈ visited :=
    hplan.full (Or.inl (ne_of_gt hgrow)) _ ha
  rw [hlook, topmost_interrupted hold h hm' hplan, if_pos ⟨hgrow, hmove⟩, if_pos hv]

end Interrupt

/-! ## Crash atomicity -/

/-- Whatever prefix of the save reached the disk, the section loads, and each key is as `M` has it
or as `M'` has it. -/
def CrashAtomic (order : SaveOrder) (dir : SectionDir) (previous : SectionMeta) (M M' : Entries)
    (dirty : Option (Finset String)) (perGroup : Nat) : Prop :=
  ∀ pre, pre <+: (saveWithFsync order dir M' previous dirty perGroup).1 →
    ∃ sectionMeta map, load (dir.performAll pre) = .ok (sectionMeta, map) ∧
      ∀ k : String, map[k]? = M[k]? ∨ map[k]? = M'[k]?

/-- Every new entry can be read back, and as itself or as what was there before. -/
def ReadsBack (M M' : Entries) : Prop :=
  ∀ k r, M'[k]? = some r → Fits k r ∧ (r.stored = r ∨ M[k]? = some r.stored)

/-- No key that is there before and after the save moves to another group while the modulus
grows. -/
def NoneMoves (M M' : Entries) (m m' : Nat) : Prop :=
  m < m' → ∀ k, k ∈ M → k ∈ M' → groupOf k m' = groupOf k m

theorem ReadsBack.allFit {M M' : Entries} (h : ReadsBack M M') : AllFit M' :=
  fun k r hr => (h k r hr).1

theorem ReadsBack.stored_or {M M' : Entries} (h : ReadsBack M M') (k : String) :
    M'[k]?.map Record.stored = M[k]? ∨ M'[k]?.map Record.stored = M'[k]? := by
  cases hr : M'[k]? with
  | none => exact Or.inr rfl
  | some r =>
    rcases (h k r hr).2 with hs | hs
    · exact Or.inr (by rw [Option.map_some, hs])
    · exact Or.inl (by rw [Option.map_some, hs])

section Exact

variable {order : SaveOrder} {dir : SectionDir} {previous : SectionMeta} {M M' : Entries}
  {dirty : Option (Finset String)} {perGroup m' : Nat}

theorem crashAtomic_of (hold : Holds dir previous M) (hd : CoversChanges dirty M M')
    (hmem : InMemory M') (hplan : planModulus previous.modulus M'.size perGroup = some m')
    (hread : ReadsBack M M') (hmove : NoneMoves M M' previous.modulus m') :
    CrashAtomic order dir previous M M' dirty perGroup := by
  have hm' := planModulus_pow hold.modulus hplan
  obtain ⟨visited, removals, hsp, -⟩ := savePlan order hold hd hplan
  intro pre hpre
  rcases hsp.stopped hpre with rfl | ⟨vs, rs, hint⟩
  · have hdone := holds_of_save hold hsp hm' hread.allFit hmem.1
    refine ⟨_, _, load_of_holds hdone, fun k => ?_⟩
    rw [getElem?_storedForm]
    exact hread.stored_or k
  · obtain ⟨map, hload, hlook⟩ := load_interrupted hold hint hm' hsp hread.allFit hmem.1
    refine ⟨_, map, hload, fun k => ?_⟩
    rcases hlook k with hk | hk | ⟨hk, hgrow, hne⟩
    · exact Or.inl hk
    · rw [hk]
      exact hread.stored_or k
    · -- a key lost on the way was not in both maps
      by_cases hkM : k ∈ M
      · have hkM' : k ∉ M' := fun hc => hne (hmove hgrow k hkM hc)
        exact Or.inr (by rw [hk, Std.ExtTreeMap.getElem?_eq_none hkM'])
      · exact Or.inl (by rw [hk, Std.ExtTreeMap.getElem?_eq_none hkM])

theorem readsBack_of_crashAtomic (hold : Holds dir previous M) (hd : CoversChanges dirty M M')
    (hmem : InMemory M') (hplan : planModulus previous.modulus M'.size perGroup = some m')
    (h : CrashAtomic order dir previous M M' dirty perGroup) : ReadsBack M M' := by
  have hm' := planModulus_pow hold.modulus hplan
  obtain ⟨visited, removals, hsp, -⟩ := savePlan order hold hd hplan
  obtain ⟨sectionMeta, map, hload, hlook⟩ := h _ List.prefix_rfl
  obtain ⟨hpath, hmetaFile, hgroups⟩ := hsp.groups_after
  have hfit : AllFit M' := by
    intro k r hr
    by_contra hbig
    obtain ⟨⟨found, hfound, hmeta⟩, hreads⟩ := reads_of_load hload
    rw [hmetaFile, readMetaChecked_metaBytes (nextMeta_written hm' hmem.1)] at hfound
    cases hfound
    have hmod : sectionMeta.modulus = m' := by rw [← hmeta]; rfl
    have hlt := groupOf_lt hm'.pos k
    have hv : groupOf k m' ∈ visited := by
      apply hsp.covers
      intro heq
      exact hbig (hold.fits k r (heq.trans hr))
    have hfile := hgroups _ hlt
    rw [if_pos hv] at hfile
    obtain ⟨err, herr⟩ :=
      not_groupReads_newFile sectionMeta.checksums hmem.2 hmem.1 hr hbig hfile
    obtain ⟨frames, hframes⟩ := hreads (groupOf k m') (by omega)
    rw [herr] at hframes
    cases hframes
  have hdone := holds_of_save hold hsp hm' hfit hmem.1
  rw [load_of_holds hdone] at hload
  cases hload
  intro k r hr
  refine ⟨hfit k r hr, ?_⟩
  have hk := hlook k
  rw [getElem?_storedForm, hr, Option.map_some] at hk
  rcases hk with hk | hk
  · exact Or.inr hk.symm
  · exact Or.inl (by simpa using hk)

theorem noneMoves_of_crashAtomic (hold : Holds dir previous M) (hd : CoversChanges dirty M M')
    (hmem : InMemory M') (hplan : planModulus previous.modulus M'.size perGroup = some m')
    (h : CrashAtomic order dir previous M M' dirty perGroup) :
    NoneMoves M M' previous.modulus m' := by
  have hm' := planModulus_pow hold.modulus hplan
  have hread := readsBack_of_crashAtomic hold hd hmem hplan h
  obtain ⟨visited, removals, hsp, -⟩ := savePlan order hold hd hplan
  obtain ⟨pre, hpre, hint⟩ := hsp.beforeMeta
  intro hgrow k hkM hkM'
  by_contra hne
  obtain ⟨map, hload, hnone⟩ :=
    load_beforeMeta_moved hold hint hm' hsp hread.allFit hmem.1 hgrow hne
  obtain ⟨_, map', hload', hlook⟩ := h pre (hpre ▸ List.prefix_append _ _)
  rw [hload] at hload'
  cases hload'
  obtain ⟨r, hr⟩ := mem_iff_exists.mp hkM
  obtain ⟨r', hr'⟩ := mem_iff_exists.mp hkM'
  have := hlook k
  rw [hnone, hr, hr'] at this
  simp at this

/-- A save that never leaves its planning touches nothing. -/
theorem crashAtomic_of_no_plan (hold : Holds dir previous M)
    (hplan : planModulus previous.modulus M'.size perGroup = none) :
    CrashAtomic order dir previous M M' dirty perGroup := by
  intro pre hpre
  have hnil : pre = [] := by simpa [saveWithFsync, hplan] using hpre
  subst hnil
  exact ⟨_, _, load_of_holds hold, fun k => Or.inl rfl⟩

end Exact

/-- A save of `M'` over a directory that holds `M` is crash atomic exactly when the entries of `M'`
read back, and no key in both maps moves to another group under a growing modulus. -/
theorem crashAtomic_iff (order : SaveOrder) (dir : SectionDir) (previous : SectionMeta)
    (M M' : Entries) (dirty : Option (Finset String)) (perGroup : Nat)
    (hold : Holds dir previous M) (hd : CoversChanges dirty M M') (hmem : InMemory M') :
    CrashAtomic order dir previous M M' dirty perGroup ↔
      ∀ m', planModulus previous.modulus M'.size perGroup = some m' →
        ReadsBack M M' ∧ NoneMoves M M' previous.modulus m' := by
  constructor
  · intro h m' hplan
    exact ⟨readsBack_of_crashAtomic hold hd hmem hplan h,
      noneMoves_of_crashAtomic hold hd hmem hplan h⟩
  · intro h
    cases hplan : planModulus previous.modulus M'.size perGroup with
    | none => exact crashAtomic_of_no_plan hold hplan
    | some m' => exact crashAtomic_of hold hd hmem hplan (h m' hplan).1 (h m' hplan).2

/-! ## A growing section -/

def sampleRow : Record := { fields := [{ values := [Value.text "1"] }] }

def sampleRows (keys : List String) : Entries := insertAll ∅ (keys.map fun k => (k, sampleRow))

theorem sampleRows_value {keys : List String} {k : String} {r : Record}
    (h : (sampleRows keys)[k]? = some r) : r = sampleRow ∧ k ∈ keys := by
  by_cases hk : k ∈ keys
  · refine ⟨?_, hk⟩
    have hall : ∀ (l : List String) (m : Entries), (∀ q, m[k]? = some q → q = sampleRow) →
        ∀ q, (insertAll m (l.map fun k => (k, sampleRow)))[k]? = some q → q = sampleRow := by
      intro l
      induction l with
      | nil => intro m hm q hq; exact hm q hq
      | cons j l ih =>
        intro m hm q hq
        refine ih (m.insert j sampleRow) ?_ q hq
        intro q hq
        rw [getElem?_insert_eq] at hq
        split at hq
        · exact (Option.some.inj hq).symm
        · exact hm q hq
    exact hall keys ∅ (by simp) r h
  · rw [sampleRows, getElem?_insertAll_of_ne] at h
    · simp at h
    · simp only [List.mem_map]
      rintro e ⟨j, hj, rfl⟩ rfl
      exact hk hj

theorem sampleRow_fits {k : String} (h : (utf8 k).length ≤ MAX_KEY_LEN) : Fits k sampleRow :=
  ⟨h, by decide⟩

theorem sampleRows_fit {keys : List String}
    (h : keys.all (fun k => (utf8 k).length ≤ MAX_KEY_LEN) = true) : AllFit (sampleRows keys) := by
  intro k r hr
  obtain ⟨rfl, hk⟩ := sampleRows_value hr
  exact sampleRow_fits (by simpa using List.all_eq_true.mp h k hk)

theorem sampleRows_stored (keys : List String) :
    storedForm (sampleRows keys) = sampleRows keys := by
  apply Std.ExtTreeMap.ext_getElem?
  intro k
  rw [getElem?_storedForm]
  cases hr : (sampleRows keys)[k]? with
  | none => rfl
  | some r => rw [Option.map_some, (sampleRows_value hr).1]; decide

/-- The directory a save of one record leaves. -/
def oneRowDir : SectionDir :=
  SectionDir.performAll { path := "data.hf" }
    (saveWithFsync .ascending { path := "data.hf" } (sampleRows ["A"]) .empty none 1).1

def oneRowMeta : SectionMeta := { version := 1, modulus := 8, records := 1, checksums := true }

theorem holds_oneRow : Holds oneRowDir oneRowMeta (sampleRows ["A"]) := by
  have hsaved : Saved "data.hf" oneRowDir oneRowMeta (storedForm (sampleRows ["A"])) :=
    Saved.save .ascending 1 .fresh (fun keys h => by cases h) (sampleRows_fit (by decide +kernel))
      (by decide +kernel) (show planModulus _ _ _ = some 8 by decide +kernel)
  exact sampleRows_stored ["A"] ▸ holds_of_saved hsaved

/-- A save of that section with one more record. -/
theorem crashAtomic_second_row :
    CrashAtomic .ascending oneRowDir oneRowMeta (sampleRows ["A"]) (sampleRows ["A", "B"])
      none 16 := by
  have hfit : AllFit (sampleRows ["A", "B"]) := sampleRows_fit (by decide +kernel)
  refine (crashAtomic_iff .ascending oneRowDir oneRowMeta (sampleRows ["A"])
    (sampleRows ["A", "B"]) none 16 holds_oneRow (fun keys h => by cases h) ⟨by decide +kernel,
      fun k r hr => (hfit k r hr).addressable⟩).mpr fun m' hplan =>
        ⟨fun k r hr => ⟨hfit k r hr, Or.inl ?_⟩, fun hgrows => ?_⟩
  · rw [(sampleRows_value hr).1]
    decide
  · have hstays : planModulus oneRowMeta.modulus (sampleRows ["A", "B"]).size 16 = some 8 := by
      decide +kernel
    obtain rfl := Option.some.inj (hplan.symm.trans hstays)
    exact absurd hgrows (by decide)

def nineKeys : List String := ["A", "B", "C", "D", "E", "F", "G", "H", "I"]

/-- Eight more records take the modulus from 8 to 16, and `"A"` from group 4 to group 12: cut short
before `meta`, the save leaves a section in which `"A"` is not found. -/
theorem growth_loses_a_record :
    Holds oneRowDir oneRowMeta (sampleRows ["A"]) ∧
      CoversChanges none (sampleRows ["A"]) (sampleRows nineKeys) ∧
      InMemory (sampleRows nineKeys) ∧
      ¬ CrashAtomic .ascending oneRowDir oneRowMeta (sampleRows ["A"]) (sampleRows nineKeys)
        none 1 := by
  have hfit : AllFit (sampleRows nineKeys) := sampleRows_fit (by decide +kernel)
  have hcov : CoversChanges none (sampleRows ["A"]) (sampleRows nineKeys) := fun keys h => by cases h
  have hmem : InMemory (sampleRows nineKeys) :=
    ⟨by decide +kernel, fun k r hr => (hfit k r hr).addressable⟩
  refine ⟨holds_oneRow, hcov, hmem, fun h => ?_⟩
  have hplan : planModulus oneRowMeta.modulus (sampleRows nineKeys).size 1 = some 16 := by
    decide +kernel
  have hstay := noneMoves_of_crashAtomic holds_oneRow hcov hmem hplan h (by decide) "A"
    (by decide +kernel) (by decide +kernel)
  exact absurd hstay (by decide +kernel)

end RustyPick
