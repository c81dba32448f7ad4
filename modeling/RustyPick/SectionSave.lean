import RustyPick.Section

/-!
# RustyPick.SectionSave

What the steps of a save do to the directory, one prefix at a time.

* `rewriteDirty_eq`: an incremental save writes the same files a full rewrite would, for the groups
  it visits. Both modes are one sequence: groups, removals, `meta`.
* `SavePlan`: that sequence, and which groups it visits in each mode.
* `Interrupted`: the directory after any proper prefix, described by the groups already written and
  the files already removed.
* `holds_of_save`: after the whole sequence the directory holds the new map.
-/

namespace RustyPick

open Lib

/-- A map as it reads back from disk. -/
def storedForm (M : Entries) : Entries := M.map fun _ r => r.stored

@[simp] theorem getElem?_storedForm (M : Entries) (k : String) :
    (storedForm M)[k]? = M[k]?.map Record.stored := by
  rw [storedForm, Std.ExtTreeMap.getElem?_map]

/-- The file a save leaves for a group it visits. -/
def newFile (source : Entries) (modulus group : Nat) : Option Bytes :=
  if (bucket source modulus group).isEmpty then none
  else some (groupBytes (bucket source modulus group).toList)

/-! ## Writing groups -/

/-- The directory with the groups of `visited` written and the rest as it was. -/
structure Progress (source : Entries) (modulus : Nat) (before : SectionDir) (visited : List Nat)
    (after : SectionDir) : Prop where
  path : after.path = before.path
  metaFile : after.metaFile = before.metaFile
  groups : ∀ g : Nat, after.groups[g]? =
    if g ∈ visited then newFile source modulus g else before.groups[g]?

section Writing

variable {source : Entries} {modulus : Nat}

theorem Progress.refl (dir : SectionDir) : Progress source modulus dir [] dir :=
  ⟨rfl, rfl, fun g => by simp⟩

theorem Progress.trans {d₀ d₁ d₂ : SectionDir} {vs ws : List Nat}
    (h₁ : Progress source modulus d₀ vs d₁) (h₂ : Progress source modulus d₁ ws d₂) :
    Progress source modulus d₀ (vs ++ ws) d₂ := by
  refine ⟨h₂.path.trans h₁.path, h₂.metaFile.trans h₁.metaFile, fun g => ?_⟩
  rw [h₂.groups, h₁.groups]
  by_cases hw : g ∈ ws <;> by_cases hv : g ∈ vs <;> simp [hw, hv]

theorem progress_writeFrames (dir : SectionDir) (group : Nat) :
    Progress source modulus dir [group]
      (dir.performAll (writeFrames dir group (bucket source modulus group))) := by
  unfold writeFrames
  split
  · rename_i he
    split
    · refine ⟨rfl, rfl, fun g => ?_⟩
      simp only [SectionDir.performAll, List.foldl, SectionDir.perform, getElem?_erase_eq,
        List.mem_singleton, newFile, eq_comm (a := g)]
      split
      · rename_i hg; subst hg; simp [he]
      · rfl
    · rename_i hnot
      refine ⟨rfl, rfl, fun g => ?_⟩
      simp only [SectionDir.performAll, List.foldl, List.mem_singleton, newFile]
      split
      · rename_i hg
        subst hg
        rw [if_pos he]
        exact Std.ExtTreeMap.getElem?_eq_none hnot
      · rfl
  · rename_i he
    refine ⟨rfl, rfl, fun g => ?_⟩
    simp only [SectionDir.performAll, List.foldl, SectionDir.perform, getElem?_insert_eq,
      List.mem_singleton, newFile, eq_comm (a := g)]
    split
    · rename_i hg; subst hg; simp [he]
    · rfl

theorem length_writeFrames (dir : SectionDir) (group : Nat) (entries : Entries) :
    (writeFrames dir group entries).length ≤ 1 := by
  unfold writeFrames
  split_ifs <;> simp

theorem progress_rewriteAll (gs : List Nat) :
    ∀ dir, Progress source modulus dir gs (dir.performAll (rewriteAll source modulus dir gs)) := by
  induction gs with
  | nil => intro dir; exact Progress.refl dir
  | cons g gs ih =>
    intro dir
    rw [rewriteAll, SectionDir.performAll_append]
    exact (progress_writeFrames dir g).trans (ih _)

/-- Stopped anywhere, the loop has written a prefix of the groups. -/
theorem prefix_rewriteAll (gs : List Nat) :
    ∀ (dir : SectionDir) (pre : List FileStep), pre <+: rewriteAll source modulus dir gs →
      ∃ vs, vs <+: gs ∧ Progress source modulus dir vs (dir.performAll pre) := by
  induction gs with
  | nil =>
    intro dir pre h
    rw [rewriteAll, List.prefix_nil] at h
    subst h
    exact ⟨[], List.prefix_rfl, Progress.refl dir⟩
  | cons g gs ih =>
    intro dir pre h
    rw [rewriteAll] at h
    rcases prefix_append_cases h with hstep | ⟨t, rfl, ht⟩
    · by_cases hp : pre = []
      · subst hp
        exact ⟨[], List.nil_prefix, Progress.refl dir⟩
      · -- a group is one step at most, so a prefix that is not empty is all of it
        have hlen := length_writeFrames dir g (bucket source modulus g)
        have hpos := List.length_pos_iff.mpr hp
        have : pre = writeFrames dir g (bucket source modulus g) :=
          hstep.eq_of_length_le (by omega)
        subst this
        exact ⟨[g], by simp, progress_writeFrames dir g⟩
    · obtain ⟨vs, hvs, hprog⟩ := ih _ t ht
      refine ⟨g :: vs, by simpa using hvs, ?_⟩
      rw [SectionDir.performAll_append]
      exact (progress_writeFrames dir g).trans hprog

end Writing

/-! ## The incremental mode -/

theorem getElem?_foldl_updateEntry (source : Entries) (keys : List String) (k : String) :
    ∀ contents : Entries, (keys.foldl (updateEntry source) contents)[k]? =
      if k ∈ keys then source[k]? else contents[k]? := by
  induction keys with
  | nil => intro contents; simp
  | cons key keys ih =>
    intro contents
    rw [List.foldl_cons, ih]
    by_cases hk : k ∈ keys
    · simp [hk]
    · by_cases he : key = k
      · subst he
        simp only [hk, if_false, List.mem_cons, true_or, if_true, updateEntry]
        split
        · rename_i r hr; simp [hr]
        · rename_i hr; simp [hr]
      · have hne : k ≠ key := fun h => he h.symm
        simp only [hk, hne, if_false, List.mem_cons, or_self, updateEntry]
        split
        · exact getElem?_insert_ne _ _ he
        · exact getElem?_erase_ne _ he

/-- Bringing the dirty keys of a group up to date gives what the new map puts in that group. -/
theorem updated_bucket {M M' : Entries} {dirty : Finset String} {m : Nat}
    (hd : ∀ k, k ∉ dirty → M[k]? = M'[k]?) (g : Nat) :
    (dirtyIn dirty m g).foldl (updateEntry M') (bucket M m g) = bucket M' m g := by
  apply Std.ExtTreeMap.ext_getElem?
  intro k
  rw [getElem?_foldl_updateEntry, getElem?_bucket, getElem?_bucket]
  by_cases hg : groupOf k m = g
  · by_cases hk : k ∈ dirty
    · simp [dirtyIn, hk, hg]
    · simp [dirtyIn, hk, hg, hd k hk]
  · simp [dirtyIn, hg]

theorem GroupReads.congr {d d' : SectionDir} {cs : Bool} {g : Nat} {entries : Entries}
    (h : GroupReads d cs g entries) (hp : d'.path = d.path) (hg : d'.groups[g]? = d.groups[g]?) :
    GroupReads d' cs g entries := by
  obtain ⟨frames, hframes, he⟩ := h
  refine ⟨frames, ?_, he⟩
  rw [SectionDir.readGroup, SectionDir.groupPath, hp, hg]
  exact hframes

theorem rewriteDirty_eq {M M' : Entries} {dirty : Finset String} {m : Nat} {cs : Bool}
    (hd : ∀ k, k ∉ dirty → M[k]? = M'[k]?) (gs : List Nat) :
    ∀ dir, gs.Nodup → (∀ g ∈ gs, GroupReads dir cs g (bucket M m g)) →
      rewriteDirty M' dirty m cs dir gs = (rewriteAll M' m dir gs, none) := by
  induction gs with
  | nil => intro dir _ _; rfl
  | cons g gs ih =>
    intro dir hnd hreads
    obtain ⟨frames, hframes, he⟩ := hreads g List.mem_cons_self
    rw [List.nodup_cons] at hnd
    have hprog := @progress_writeFrames M' m dir g
    have hrest := ih (dir.performAll (writeFrames dir g (bucket M' m g))) hnd.2 fun j hj => by
      have hjg : j ≠ g := fun h => hnd.1 (h ▸ hj)
      exact (hreads j (List.mem_cons_of_mem _ hj)).congr hprog.path (by simp [hprog.groups, hjg])
    simp only [rewriteDirty, rewriteAll, hframes, he, updated_bucket hd, hrest]

/-! ## The whole sequence -/

/-- The steps of a save that plans modulus `m'`, in either mode. -/
structure SavePlan (dir : SectionDir) (previous : SectionMeta) (M M' : Entries) (m' : Nat)
    (written : SectionMeta) (visited removals : List Nat) (steps : List FileStep) : Prop where
  steps_eq : steps = rewriteAll M' m' dir visited ++ removals.map .removeGroup ++
    [.renameMeta (metaBytes written)]
  visited_lt : ∀ g ∈ visited, g < m'
  /-- Every key that changes is in a group that is visited. -/
  covers : ∀ k, M[k]? ≠ M'[k]? → groupOf k m' ∈ visited
  /-- A new modulus, or a removal, is only there in a full rewrite. -/
  full : m' ≠ previous.modulus ∨ removals ≠ [] → ∀ g < m', g ∈ visited
  removals_ge : ∀ g ∈ removals, m' ≤ g
  /-- Trailers are only asked for newly when every group has been written. -/
  checksums : written.checksums = previous.checksums ∨ ∀ g < m', g ∈ visited
  modulus : written.modulus = m'

theorem nodup_ascending {α : Type} [LinearOrder α] (s : Finset α) : (Lib.ascending s).Nodup :=
  (pairwise_ascending s).imp fun h => ne_of_lt h

/-- A dirty set that names every key two maps differ on. `none` stands for all keys. -/
def CoversChanges (dirty : Option (Finset String)) (M M' : Entries) : Prop :=
  ∀ keys, dirty = some keys → ∀ k, M[k]? ≠ M'[k]? → k ∈ keys

/-- A full rewrite visits every group, whatever the directory held. -/
theorem savePlan_full (order : SaveOrder) (dir : SectionDir) {previous : SectionMeta}
    (M : Entries) {M' : Entries} {dirty : Option (Finset String)} {perGroup m' : Nat}
    (hm : IsModulus previous.modulus)
    (hplan : planModulus previous.modulus M'.size perGroup = some m')
    (hfull : fullRewrite previous dirty m' = true) :
    ∃ visited removals,
      SavePlan dir previous M M' m' (nextMeta previous M' dirty m') visited removals
        (saveWithFsync order dir M' previous dirty perGroup).1 ∧
      (∀ g < m', g ∈ visited) ∧
      (saveWithFsync order dir M' previous dirty perGroup).2 =
        some (.ok (nextMeta previous M' dirty m')) := by
  have hm' : IsModulus m' := planModulus_pow hm hplan
  have hall : ∀ g < m', g ∈ order.groups (List.range m') := fun g hg =>
    (order.groups_perm _).mem_iff.mpr (List.mem_range.mpr hg)
  refine ⟨order.groups (List.range m'), (order.listing (dir.performAll (rewriteAll M' m' dir
    (order.groups (List.range m')))).groups.keys).filter (m' ≤ ·), ?_, hall, ?_⟩
  · refine ⟨?_, ?_, fun k _ => hall _ (groupOf_lt hm'.pos k), fun _ => hall, ?_, Or.inr hall, rfl⟩
    · simp [saveWithFsync, hplan, hfull, removeGroupsBeyond]
    · intro g hg
      exact List.mem_range.mp ((order.groups_perm _).mem_iff.mp hg)
    · intro g hg
      simpa using (List.mem_filter.mp hg).2
  · simp [saveWithFsync, hplan, hfull]

theorem savePlan (order : SaveOrder) {dir : SectionDir} {previous : SectionMeta} {M M' : Entries}
    {dirty : Option (Finset String)} {perGroup m' : Nat} (h : Holds dir previous M)
    (hd : CoversChanges dirty M M')
    (hplan : planModulus previous.modulus M'.size perGroup = some m') :
    ∃ visited removals,
      SavePlan dir previous M M' m' (nextMeta previous M' dirty m') visited removals
        (saveWithFsync order dir M' previous dirty perGroup).1 ∧
      (saveWithFsync order dir M' previous dirty perGroup).2 =
        some (.ok (nextMeta previous M' dirty m')) := by
  have hm' : IsModulus m' := planModulus_pow h.modulus hplan
  by_cases hfull : fullRewrite previous dirty m' = true
  · obtain ⟨visited, removals, hsp, -, hret⟩ := savePlan_full order dir M h.modulus hplan hfull
    exact ⟨visited, removals, hsp, hret⟩
  · have hnot : fullRewrite previous dirty m' = false := by simpa using hfull
    simp only [fullRewrite, Bool.or_eq_false_iff, decide_eq_false_iff_not, ne_eq, not_not] at hnot
    obtain ⟨⟨hsome, hm⟩, -⟩ := hnot
    obtain ⟨keys, rfl⟩ : ∃ keys, dirty = some keys := by
      cases dirty with
      | none => simp at hsome
      | some keys => exact ⟨keys, rfl⟩
    subst hm
    have hkeys : ∀ k, k ∉ keys → M[k]? = M'[k]? := fun k hk => by
      by_contra hne
      exact hk (hd keys rfl k hne)
    have hperm := order.groups_perm (dirtyGroups keys previous.modulus)
    have hmem : ∀ g, g ∈ order.groups (dirtyGroups keys previous.modulus) ↔
        ∃ k ∈ keys, groupOf k previous.modulus = g := fun g => by
      rw [hperm.mem_iff, dirtyGroups, mem_ascending, Finset.mem_image]
    have hlt : ∀ g ∈ order.groups (dirtyGroups keys previous.modulus), g < previous.modulus := by
      intro g hg
      obtain ⟨k, -, rfl⟩ := (hmem g).mp hg
      exact groupOf_lt hm'.pos k
    have heq : rewriteDirty M' keys previous.modulus previous.checksums dir
        (order.groups (dirtyGroups keys previous.modulus)) =
          (rewriteAll M' previous.modulus dir (order.groups (dirtyGroups keys previous.modulus)),
            none) :=
      rewriteDirty_eq hkeys _ dir (hperm.nodup_iff.mpr (nodup_ascending _)) fun g hg =>
        h.groups g (hlt g hg)
    have hflag : fullRewrite previous (some keys) previous.modulus = false := by simpa using hfull
    refine ⟨order.groups (dirtyGroups keys previous.modulus), [], ?_, ?_⟩
    · refine ⟨?_, hlt, ?_, ?_, by simp, Or.inl ?_, rfl⟩
      · simp [saveWithFsync, hplan, hflag, heq]
      · intro k hk
        exact (hmem _).mpr ⟨k, hd keys rfl k hk, rfl⟩
      · rintro (hc | hc)
        · exact absurd rfl hc
        · exact absurd rfl hc
      · simp [nextMeta, hflag]
    · simp [saveWithFsync, hplan, hflag, heq]

/-! ## Stopped anywhere -/

/-- The directory after some of the groups and some of the removals, with `meta` still to come. -/
structure Interrupted (dir : SectionDir) (M' : Entries) (m' : Nat) (visited removals : List Nat)
    (vs rs : List Nat) (after : SectionDir) : Prop where
  path : after.path = dir.path
  metaFile : after.metaFile = dir.metaFile
  written : vs <+: visited
  removed : rs <+: removals
  /-- Removals begin when every group has been written. -/
  order : rs = [] ∨ vs = visited
  groups : ∀ g : Nat, after.groups[g]? =
    if g ∈ rs then none else if g ∈ vs then newFile M' m' g else dir.groups[g]?

theorem performAll_removals (rs : List Nat) (dir : SectionDir) :
    (dir.performAll (rs.map .removeGroup)).path = dir.path ∧
      (dir.performAll (rs.map .removeGroup)).metaFile = dir.metaFile ∧
      ∀ g : Nat, (dir.performAll (rs.map .removeGroup)).groups[g]? =
        if g ∈ rs then none else dir.groups[g]? := by
  induction rs generalizing dir with
  | nil => exact ⟨rfl, rfl, fun g => by simp⟩
  | cons r rs ih =>
    obtain ⟨hp, hm, hg⟩ := ih (dir.perform (.removeGroup r))
    rw [List.map_cons, SectionDir.performAll_cons]
    refine ⟨hp, hm, fun g => ?_⟩
    rw [hg, SectionDir.perform, getElem?_erase_eq]
    by_cases hr : g ∈ rs
    · simp [hr]
    · by_cases he : r = g
      · simp [he]
      · simp [hr, he, Ne.symm he]

theorem Interrupted.of_progress {dir after : SectionDir} {M' : Entries} {m' : Nat}
    {visited removals vs rs : List Nat} (h : Progress M' m' dir vs after)
    (hv : vs <+: visited) (hr : rs <+: removals) (ho : rs = [] ∨ vs = visited) :
    Interrupted dir M' m' visited removals vs rs (after.performAll (rs.map .removeGroup)) := by
  obtain ⟨hp, hm, hg⟩ := performAll_removals rs after
  refine ⟨hp.trans h.path, hm.trans h.metaFile, hv, hr, ho, fun g => ?_⟩
  rw [hg, h.groups]

/-- A prefix of a save either stops before `meta`, or is the whole of it. -/
theorem SavePlan.stopped {dir : SectionDir} {previous written : SectionMeta} {M M' : Entries}
    {m' : Nat} {visited removals : List Nat} {steps pre : List FileStep}
    (h : SavePlan dir previous M M' m' written visited removals steps) (hpre : pre <+: steps) :
    pre = steps ∨ ∃ vs rs, Interrupted dir M' m' visited removals vs rs (dir.performAll pre) := by
  rw [h.steps_eq] at hpre
  rcases List.prefix_concat_iff.mp hpre with rfl | hpre
  · exact Or.inl h.steps_eq.symm
  refine Or.inr ?_
  rcases prefix_append_cases hpre with hpre | ⟨t, rfl, ht⟩
  · obtain ⟨vs, hvs, hprog⟩ := prefix_rewriteAll visited dir pre hpre
    exact ⟨vs, [], Interrupted.of_progress hprog hvs List.nil_prefix (Or.inl rfl)⟩
  · obtain ⟨rs, hrs, rfl⟩ := List.prefix_map_iff.mp ht
    rw [SectionDir.performAll_append]
    exact ⟨visited, rs, Interrupted.of_progress (progress_rewriteAll visited dir)
      List.prefix_rfl hrs (Or.inr rfl)⟩

/-- All the groups and all the removals, and not yet `meta`. -/
theorem SavePlan.beforeMeta {dir : SectionDir} {previous written : SectionMeta} {M M' : Entries}
    {m' : Nat} {visited removals : List Nat} {steps : List FileStep}
    (h : SavePlan dir previous M M' m' written visited removals steps) :
    ∃ pre, steps = pre ++ [.renameMeta (metaBytes written)] ∧
      Interrupted dir M' m' visited removals visited removals (dir.performAll pre) := by
  refine ⟨_, h.steps_eq, ?_⟩
  rw [SectionDir.performAll_append]
  exact Interrupted.of_progress (progress_rewriteAll visited dir) List.prefix_rfl List.prefix_rfl
    (Or.inr rfl)

/-! ## What the groups read as -/

/-- Every entry is within the reader's limits. -/
def AllFit (M : Entries) : Prop := ∀ k r, M[k]? = some r → Fits k r

theorem AllFit.bucket {M : Entries} (h : AllFit M) (m g : Nat) : AllFit (bucket M m g) := by
  intro k r hr
  rw [getElem?_bucket] at hr
  split at hr
  · exact h k r hr
  · cases hr

theorem groupReads_newFile {dir : SectionDir} {M' : Entries} {m' g : Nat} (cs : Bool)
    (hfit : AllFit (bucket M' m' g)) (hsize : M'.size < 2 ^ 64)
    (hg : dir.groups[g]? = newFile M' m' g) :
    GroupReads dir cs g (storedForm (bucket M' m' g)) := by
  rw [GroupReads, SectionDir.readGroup, hg, newFile]
  by_cases he : (bucket M' m' g).isEmpty = true
  · rw [if_pos he, Std.ExtTreeMap.isEmpty_iff.mp he]
    refine ⟨[], rfl, ?_⟩
    apply Std.ExtTreeMap.ext_getElem?
    intro k
    simp
  · rw [if_neg he]
    refine ⟨_, readGroup_groupBytes cs ?_ ?_, insertAll_map_toList _ _⟩
    · rw [Std.ExtTreeMap.length_toList]
      exact lt_of_le_of_lt Std.ExtTreeMap.size_filter_le_size hsize
    · rintro ⟨k, r⟩ hkr
      exact hfit k r (Std.ExtTreeMap.mem_toList_iff_getElem?_eq_some.mp hkr)

theorem storedForm_bucket (M : Entries) (m g : Nat) :
    storedForm (bucket M m g) = bucket (storedForm M) m g := by
  apply Std.ExtTreeMap.ext_getElem?
  intro k
  simp only [getElem?_storedForm, getElem?_bucket]
  split <;> rfl

/-- A group past the limits does not read. -/
theorem not_groupReads_newFile {dir : SectionDir} {M' : Entries} {m' : Nat} (cs : Bool)
    (haddr : ∀ k r, M'[k]? = some r → Addressable k r) (hsize : M'.size < 2 ^ 64)
    {k : String} {r : Record} (hk : M'[k]? = some r) (hbig : ¬ Fits k r)
    (hg : dir.groups[groupOf k m']? = newFile M' m' (groupOf k m')) :
    ∃ err, dir.readGroup (groupOf k m') cs = .error err := by
  have hkb : (bucket M' m' (groupOf k m'))[k]? = some r := by simpa using hk
  have hne : (bucket M' m' (groupOf k m')).isEmpty ≠ true := fun he => by
    rw [Std.ExtTreeMap.isEmpty_iff.mp he] at hkb
    simp at hkb
  rw [SectionDir.readGroup, hg, newFile, if_neg hne]
  apply readGroup_oversize
  · rw [Std.ExtTreeMap.length_toList]
    exact lt_of_le_of_lt Std.ExtTreeMap.size_filter_le_size hsize
  · rintro ⟨j, q⟩ hj
    have := Std.ExtTreeMap.mem_toList_iff_getElem?_eq_some.mp hj
    rw [getElem?_bucket] at this
    split at this
    · exact haddr j q this
    · cases this
  · exact ⟨(k, r), Std.ExtTreeMap.mem_toList_iff_getElem?_eq_some.mpr hkb, hbig⟩

/-- Lengths and counts a 64-bit process can hold. -/
def InMemory (M : Entries) : Prop :=
  M.size < 2 ^ 64 ∧ ∀ k r, M[k]? = some r → Addressable k r

/-- A group that was written and reads at all reads as what was written. -/
theorem groupReads_of_readable {dir : SectionDir} {M' : Entries} {m' g : Nat} {cs : Bool}
    (hmem : InMemory M') (hg : dir.groups[g]? = newFile M' m' g)
    {frames : List (String × Record)} (hok : dir.readGroup g cs = .ok frames) :
    GroupReads dir cs g (storedForm (bucket M' m' g)) := by
  apply groupReads_newFile cs _ hmem.1 hg
  intro k r hr
  by_contra hbig
  rw [getElem?_bucket] at hr
  split at hr
  · rename_i hk
    subst hk
    obtain ⟨err, herr⟩ := not_groupReads_newFile cs hmem.2 hmem.1 hr hbig hg
    rw [herr] at hok
    cases hok
  · cases hr

/-! ## The completed save -/

theorem nextMeta_written {previous : SectionMeta} {M' : Entries} {dirty : Option (Finset String)}
    {m' : Nat} (hm' : IsModulus m') (hsize : M'.size < 2 ^ 64) :
    (nextMeta previous M' dirty m').Written := by
  have hv : (previous.version + 1) % 2 ^ 64 < 2 ^ 64 := Nat.mod_lt _ (by decide)
  have h1 := hm'.lt
  have h2 := hm'.pos
  simp only [SectionMeta.Written, nextMeta, u64Max]
  omega

/-- The groups of the completed save: visited ones new, the rest unchanged and of unchanged keys. -/
theorem SavePlan.groups_after {dir : SectionDir} {previous written : SectionMeta} {M M' : Entries}
    {m' : Nat} {visited removals : List Nat} {steps : List FileStep}
    (h : SavePlan dir previous M M' m' written visited removals steps) :
    (dir.performAll steps).path = dir.path ∧
      (dir.performAll steps).metaFile = some (metaBytes written) ∧
      ∀ g < m', (dir.performAll steps).groups[g]? =
        if g ∈ visited then newFile M' m' g else dir.groups[g]? := by
  obtain ⟨pre, hpre, hint⟩ := h.beforeMeta
  rw [hpre, SectionDir.performAll_append]
  refine ⟨hint.path, rfl, fun g hg => ?_⟩
  have hr : g ∉ removals := fun hc => by
    have := h.removals_ge g hc
    omega
  have := hint.groups g
  rw [if_neg hr] at this
  exact this

/-- An unvisited group is there in the incremental mode only, and no key of it has changed. -/
theorem SavePlan.groupReads_unvisited {dir : SectionDir} {previous written : SectionMeta}
    {M M' : Entries} {m' : Nat} {visited removals : List Nat} {steps : List FileStep}
    (h : SavePlan dir previous M M' m' written visited removals steps) (hold : Holds dir previous M)
    {g : Nat} (hg : g < m') (hv : g ∉ visited) :
    GroupReads (dir.performAll steps) written.checksums g (storedForm (bucket M' m' g)) := by
  obtain ⟨hpath, -, hgroups⟩ := h.groups_after
  have hm : m' = previous.modulus := by
    by_contra hc
    exact hv (h.full (Or.inl hc) g hg)
  have hcs := h.checksums.resolve_right fun hall => hv (hall g hg)
  have hsame : storedForm (bucket M' m' g) = bucket M previous.modulus g := by
    apply Std.ExtTreeMap.ext_getElem?
    intro k
    rw [getElem?_storedForm, getElem?_bucket, getElem?_bucket, ← hm]
    by_cases hk : groupOf k m' = g
    · have heq : M[k]? = M'[k]? := by
        by_contra hne
        exact hv (hk ▸ h.covers k hne)
      rw [if_pos hk, if_pos hk, ← heq]
      cases hr : M[k]? with
      | none => rfl
      | some r => rw [Option.map_some, hold.stored hr]
    · simp [hk]
  rw [hsame, hcs]
  refine (hold.groups g (by omega)).congr hpath ?_
  rw [hgroups g hg, if_neg hv]

/-- The completed save, once the groups it left alone read as they are to. -/
theorem SavePlan.holds {dir : SectionDir} {previous : SectionMeta} {M M' : Entries}
    {dirty : Option (Finset String)} {m' : Nat} {visited removals : List Nat}
    {steps : List FileStep}
    (h : SavePlan dir previous M M' m' (nextMeta previous M' dirty m') visited removals steps)
    (hm' : IsModulus m') (hfit : AllFit M') (hsize : M'.size < 2 ^ 64)
    (hunvisited : ∀ g < m', g ∉ visited → GroupReads (dir.performAll steps)
      (nextMeta previous M' dirty m').checksums g (storedForm (bucket M' m' g))) :
    Holds (dir.performAll steps) (nextMeta previous M' dirty m') (storedForm M') := by
  obtain ⟨hpath, hmeta, hgroups⟩ := h.groups_after
  refine ⟨?_, hm', ?_, ?_⟩
  · rw [hmeta]
    exact ⟨_, readMetaChecked_metaBytes (nextMeta_written hm' hsize), rfl⟩
  · intro g hg
    change g < m' at hg
    change GroupReads _ _ g (bucket (storedForm M') m' g)
    rw [← storedForm_bucket]
    by_cases hv : g ∈ visited
    · apply groupReads_newFile _ (hfit.bucket m' g) hsize
      rw [hgroups g hg, if_pos hv]
    · exact hunvisited g hg hv
  · intro k r hr
    rw [getElem?_storedForm, Option.map_eq_some_iff] at hr
    obtain ⟨q, hq, rfl⟩ := hr
    have := hfit k q hq
    simpa [Fits] using this

theorem holds_of_save {dir : SectionDir} {previous : SectionMeta} {M M' : Entries}
    {dirty : Option (Finset String)} {m' : Nat} {visited removals : List Nat}
    {steps : List FileStep} (hold : Holds dir previous M)
    (h : SavePlan dir previous M M' m' (nextMeta previous M' dirty m') visited removals steps)
    (hm' : IsModulus m') (hfit : AllFit M') (hsize : M'.size < 2 ^ 64) :
    Holds (dir.performAll steps) (nextMeta previous M' dirty m') (storedForm M') :=
  h.holds hm' hfit hsize fun _ hg hv => h.groupReads_unvisited hold hg hv

/-! ## Runs of completed saves -/

/-- The directories completed saves leave, from none at all. The map is what the last of them
stored. -/
inductive Saved (path : String) : SectionDir → SectionMeta → Entries → Prop where
  | fresh : Saved path { path := path } .empty ∅
  | save {dir : SectionDir} {previous : SectionMeta} {M M' : Entries}
      {dirty : Option (Finset String)} {m' : Nat} (order : SaveOrder) (perGroup : Nat) :
      Saved path dir previous M → CoversChanges dirty M M' → AllFit M' → M'.size < 2 ^ 64 →
      planModulus previous.modulus M'.size perGroup = some m' →
      Saved path (dir.performAll (saveWithFsync order dir M' previous dirty perGroup).1)
        (nextMeta previous M' dirty m') (storedForm M')

theorem holds_fresh (path : String) : Holds { path := path } .empty ∅ := by
  refine ⟨⟨none, rfl, rfl⟩, isModulus_min, fun g _ => ⟨[], ?_, ?_⟩, fun k r hr => ?_⟩
  · simp [SectionDir.readGroup, readGroup]
  · apply Std.ExtTreeMap.ext_getElem?
    intro k
    simp
  · simp at hr

/-- Every directory completed saves leave holds the map the last one was given. -/
theorem holds_of_saved {path : String} {dir : SectionDir} {m : SectionMeta} {M : Entries}
    (h : Saved path dir m M) : Holds dir m M := by
  induction h with
  | fresh => exact holds_fresh path
  | save order perGroup _ hd hfit hsize hplan ih =>
    obtain ⟨visited, removals, hsp, -⟩ := savePlan order ih hd hplan
    exact holds_of_save ih hsp (planModulus_pow ih.modulus hplan) hfit hsize

/-! ## Records and their stored form -/

theorem toList_storedForm (M : Entries) : (storedForm M).toList = storedEntries M.toList := by
  rw [storedForm, Std.ExtTreeMap.toList_map, storedEntries]

theorem frames_storedEntries (entries : List (String × Record)) :
    frames (storedEntries entries) = frames entries := by
  unfold frames storedEntries frame
  rw [List.flatMap_map]
  simp only [Record.toBytes_stored]

theorem groupBytes_storedEntries (entries : List (String × Record)) :
    groupBytes (storedEntries entries) = groupBytes entries := by
  unfold groupBytes
  rw [frames_storedEntries]
  simp [storedEntries]

/-- A group's file depends on the stored form of its entries only. -/
theorem writeFrames_congr (dir : SectionDir) (group : Nat) {entries entries' : Entries}
    (h : storedForm entries = storedForm entries') :
    writeFrames dir group entries = writeFrames dir group entries' := by
  have hempty : entries.isEmpty = entries'.isEmpty := by
    have hsize : entries.size = entries'.size := by
      have := congrArg Std.ExtTreeMap.size h
      simpa [storedForm] using this
    rw [Std.ExtTreeMap.isEmpty_eq_size_beq_zero, Std.ExtTreeMap.isEmpty_eq_size_beq_zero, hsize]
  have hbytes : groupBytes entries.toList = groupBytes entries'.toList := by
    rw [← groupBytes_storedEntries, ← toList_storedForm, h, toList_storedForm,
      groupBytes_storedEntries]
  unfold writeFrames
  rw [hempty, hbytes]

theorem storedForm_storedForm (M : Entries) : storedForm (storedForm M) = storedForm M := by
  apply Std.ExtTreeMap.ext_getElem?
  intro k
  rw [getElem?_storedForm, getElem?_storedForm, Option.map_map]
  cases M[k]? with
  | none => rfl
  | some r => simp

theorem size_storedForm (M : Entries) : (storedForm M).size = M.size := by
  rw [storedForm, Std.ExtTreeMap.size_map]

theorem rewriteAll_stored (M : Entries) (modulus : Nat) (gs : List Nat) : ∀ dir : SectionDir,
    rewriteAll (storedForm M) modulus dir gs = rewriteAll M modulus dir gs := by
  induction gs with
  | nil => intro dir; rfl
  | cons g gs ih =>
    intro dir
    have hwrite : writeFrames dir g (bucket (storedForm M) modulus g) =
        writeFrames dir g (bucket M modulus g) := by
      apply writeFrames_congr
      rw [← storedForm_bucket, storedForm_storedForm]
    rw [rewriteAll, rewriteAll, hwrite, ih]

theorem storedForm_foldl_updateEntry (M : Entries) (keys : List String) (contents : Entries) :
    storedForm (keys.foldl (updateEntry (storedForm M)) contents) =
      storedForm (keys.foldl (updateEntry M) contents) := by
  apply Std.ExtTreeMap.ext_getElem?
  intro k
  rw [getElem?_storedForm, getElem?_storedForm, getElem?_foldl_updateEntry,
    getElem?_foldl_updateEntry, getElem?_storedForm]
  split
  · cases M[k]? with
    | none => rfl
    | some r => simp
  · rfl

theorem rewriteDirty_stored (M : Entries) (dirty : Finset String) (modulus : Nat) (cs : Bool)
    (gs : List Nat) : ∀ dir : SectionDir,
    rewriteDirty (storedForm M) dirty modulus cs dir gs = rewriteDirty M dirty modulus cs dir gs := by
  induction gs with
  | nil => intro dir; rfl
  | cons g gs ih =>
    intro dir
    rw [rewriteDirty, rewriteDirty]
    cases dir.readGroup g cs with
    | error e => rfl
    | ok frames =>
      have hwrite := writeFrames_congr dir g
        (storedForm_foldl_updateEntry M (dirtyIn dirty modulus g) (insertAll ∅ frames))
      simp only [hwrite, ih]

/-- A save writes the bytes of the records, so it cannot tell a record from its stored form. -/
theorem saveWithFsync_stored (order : SaveOrder) (dir : SectionDir) (M : Entries)
    (previous : SectionMeta) (dirty : Option (Finset String)) (perGroup : Nat) :
    saveWithFsync order dir (storedForm M) previous dirty perGroup =
      saveWithFsync order dir M previous dirty perGroup := by
  have hmeta : ∀ modulus, nextMeta previous (storedForm M) dirty modulus =
      nextMeta previous M dirty modulus := by
    intro modulus
    simp only [nextMeta, size_storedForm]
  simp only [saveWithFsync, size_storedForm, hmeta, rewriteAll_stored, rewriteDirty_stored]

end RustyPick
