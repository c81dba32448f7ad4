import RustyPick.SectionCrash

/-!
# RustyPick.SectionExact

What a completed save leaves of a section, whichever way it was made: a read-modify-write of the
dirty groups, or a rewrite of all of them.

* `saves_exact_iff`: an incremental save and a full rewrite both leave exactly the map, as long as
  the version can be counted on and the planning of the modulus comes to an end.
-/

namespace RustyPick

open Lib

/-- The file of a group has an entry under the key. -/
def InGroupFile (dir : SectionDir) (checksums : Bool) (group : Nat) (key : String) : Prop :=
  ∃ frames, dir.readGroup group checksums = .ok frames ∧ ∃ record, (key, record) ∈ frames

/-- A save from `dir` to `after` that returned `written`. -/
structure LeavesExactly (dir after : SectionDir) (previous written : SectionMeta) (M' : Entries) :
    Prop where
  load : load after = .ok (written, storedForm M')
  records : written.records = M'.size
  version : written.version = previous.version + 1
  /-- Each key is in the one file its group has. -/
  groups : ∀ g < written.modulus, ∀ k,
    InGroupFile after written.checksums g k ↔ k ∈ M' ∧ g = groupOf k written.modulus
  /-- From the modulus on nothing is added. -/
  beyond : ∀ g, written.modulus ≤ g →
    after.groups[g]? = none ∨ after.groups[g]? = dir.groups[g]?

/-- The save returns, and leaves exactly the map; a full rewrite leaves no file from the modulus
on. -/
def SaveExact (order : SaveOrder) (dir : SectionDir) (previous : SectionMeta) (M' : Entries)
    (dirty : Option (Finset String)) (perGroup : Nat) : Prop :=
  let save := saveWithFsync order dir M' previous dirty perGroup
  ∃ written, save.2 = some (.ok written) ∧
    LeavesExactly dir (dir.performAll save.1) previous written M' ∧
    (fullRewrite previous dirty written.modulus = true →
      ∀ g, written.modulus ≤ g → (dir.performAll save.1).groups[g]? = none)

section

variable {dir : SectionDir} {previous : SectionMeta} {M M' : Entries}
  {dirty : Option (Finset String)} {perGroup m' : Nat}

theorem inGroupFile_of_holds {m : SectionMeta} (h : Holds dir m M) {g : Nat} (hg : g < m.modulus)
    (k : String) : InGroupFile dir m.checksums g k ↔ k ∈ M ∧ g = groupOf k m.modulus := by
  obtain ⟨frames, hframes, hbucket⟩ := h.groups g hg
  have hin : k ∈ insertAll ∅ frames ↔ ∃ record, (k, record) ∈ frames := by
    rw [mem_insertAll]
    simp
  have hfile : InGroupFile dir m.checksums g k ↔ ∃ record, (k, record) ∈ frames := by
    constructor
    · rintro ⟨frames', hframes', hrecord⟩
      rw [hframes, Except.ok.injEq] at hframes'
      exact hframes' ▸ hrecord
    · intro hrecord
      exact ⟨frames, hframes, hrecord⟩
  rw [hfile, ← hin, hbucket, Std.ExtTreeMap.mem_iff_isSome_getElem?, getElem?_bucket,
    Std.ExtTreeMap.mem_iff_isSome_getElem?]
  split
  · rename_i hk
    simp [hk]
  · rename_i hk
    simp [Ne.symm hk]

/-- Past the modulus a save only removes. -/
theorem SavePlan.beyond {written : SectionMeta} {visited removals : List Nat}
    {steps : List FileStep}
    (h : SavePlan dir previous M M' m' written visited removals steps) {g : Nat} (hg : m' ≤ g) :
    (dir.performAll steps).groups[g]? = none ∨
      (dir.performAll steps).groups[g]? = dir.groups[g]? := by
  obtain ⟨pre, hpre, hint⟩ := h.beforeMeta
  have hv : g ∉ visited := fun hc => absurd (h.visited_lt g hc) (not_lt.mpr hg)
  have hgroup := hint.groups g
  have hafter : (dir.performAll steps).groups[g]? = (dir.performAll pre).groups[g]? := by
    rw [hpre, SectionDir.performAll_append]
    rfl
  rw [hafter, hgroup, if_neg hv]
  split
  · exact Or.inl rfl
  · exact Or.inr rfl

/-- A full rewrite removes every file past the modulus. -/
theorem beyond_of_fullRewrite (order : SaveOrder)
    (hplan : planModulus previous.modulus M'.size perGroup = some m')
    (hfull : fullRewrite previous dirty m' = true) {g : Nat} (hg : m' ≤ g) :
    (dir.performAll (saveWithFsync order dir M' previous dirty perGroup).1).groups[g]? = none := by
  have hsteps : (saveWithFsync order dir M' previous dirty perGroup).1 =
      rewriteAll M' m' dir (order.groups (List.range m')) ++
        removeGroupsBeyond order (dir.performAll (rewriteAll M' m' dir
          (order.groups (List.range m')))) m' ++
        [.renameMeta (metaBytes (nextMeta previous M' dirty m'))] := by
    simp [saveWithFsync, hplan, hfull]
  rw [hsteps, SectionDir.performAll_append, SectionDir.performAll_append]
  generalize dir.performAll (rewriteAll M' m' dir (order.groups (List.range m'))) = written
  obtain ⟨-, -, hgroups⟩ := performAll_removals
    ((order.listing written.groups.keys).filter (m' ≤ ·)) written
  have hgone := hgroups g
  -- a file that is there is listed, and a listed file is removed
  have hnone : (if g ∈ (order.listing written.groups.keys).filter (m' ≤ ·) then none
      else written.groups[g]?) = none := by
    split
    · rfl
    · rename_i hnot
      rw [Std.ExtTreeMap.getElem?_eq_none]
      intro hmem
      refine hnot (List.mem_filter.mpr ⟨?_, by simpa using hg⟩)
      exact (order.listing_perm _).mem_iff.mpr (Std.ExtTreeMap.mem_keys.mpr hmem)
  rw [hnone] at hgone
  exact hgone

theorem saveExact_of (order : SaveOrder) (hold : Holds dir previous M)
    (hd : CoversChanges dirty M M') (hfit : AllFit M') (hsize : M'.size < 2 ^ 64)
    (hversion : previous.version < u64Max) (hreach : PlanReaches M'.size perGroup) :
    SaveExact order dir previous M' dirty perGroup := by
  obtain ⟨m', hplan⟩ := Option.isSome_iff_exists.mp
    ((planModulus_isSome previous.modulus _ _).mpr hreach)
  obtain ⟨visited, removals, hsp, hret⟩ := savePlan order hold hd hplan
  have hm' := planModulus_pow hold.modulus hplan
  have hafter := holds_of_save hold hsp hm' hfit hsize
  refine ⟨nextMeta previous M' dirty m', hret, ⟨load_of_holds hafter, rfl, ?_, ?_, ?_⟩, ?_⟩
  · show (previous.version + 1) % 2 ^ 64 = previous.version + 1
    unfold u64Max at hversion
    omega
  · intro g hg k
    rw [inGroupFile_of_holds hafter hg]
    simp [storedForm]
  · intro g hg
    exact hsp.beyond hg
  · intro hfull g hg
    exact beyond_of_fullRewrite order hplan hfull hg

theorem of_saveExact (order : SaveOrder) (h : SaveExact order dir previous M' dirty perGroup)
    (hold : Holds dir previous M) (hd : CoversChanges dirty M M') :
    previous.version < u64Max ∧ PlanReaches M'.size perGroup := by
  obtain ⟨written, hret, hleaves, -⟩ := h
  cases hplan : planModulus previous.modulus M'.size perGroup with
  | none =>
    simp [saveWithFsync, hplan] at hret
  | some m' =>
    obtain ⟨visited, removals, -, hret'⟩ := savePlan order hold hd hplan
    rw [hret', Option.some.injEq, Except.ok.injEq] at hret
    refine ⟨?_, (planModulus_isSome previous.modulus _ _).mp (by rw [hplan]; rfl)⟩
    have hversion := hleaves.version
    rw [← hret] at hversion
    have hlt : (previous.version + 1) % 2 ^ 64 < 2 ^ 64 := Nat.mod_lt _ (by omega)
    simp only [nextMeta] at hversion
    unfold u64Max
    omega

end

/-- An incremental save and a full rewrite both return and leave exactly `M'`, if and only if the
version has a successor and some doubling of the smallest modulus has room for the records. -/
theorem saves_exact_iff (order : SaveOrder) (dir : SectionDir) (previous : SectionMeta)
    (M M' : Entries) (keys : Finset String) (perGroup : Nat) (hold : Holds dir previous M)
    (hd : ∀ k, M[k]? ≠ M'[k]? → k ∈ keys) (hfit : AllFit M') (hsize : M'.size < 2 ^ 64) :
    (SaveExact order dir previous M' (some keys) perGroup ∧
      SaveExact order dir previous M' none perGroup) ↔
      previous.version < u64Max ∧ PlanReaches M'.size perGroup := by
  have hsome : CoversChanges (some keys) M M' := by
    intro keys' h
    cases h
    exact hd
  have hnone : CoversChanges none M M' := by
    intro keys' h
    cases h
  constructor
  · rintro ⟨-, hfull⟩
    exact of_saveExact order hfull hold hnone
  · rintro ⟨hversion, hreach⟩
    exact ⟨saveExact_of order hold hsome hfit hsize hversion hreach,
      saveExact_of order hold hnone hfit hsize hversion hreach⟩

theorem sampleRows_second {k : String}
    (hk : (sampleRows ["A"])[k]? ≠ (sampleRows ["A", "B"])[k]?) : k ∈ ({"B"} : Finset String) := by
  rw [Finset.mem_singleton]
  by_contra hne
  have hB : sampleRows ["A", "B"] = (sampleRows ["A"]).insert "B" sampleRow := rfl
  rw [hB, getElem?_insert_ne _ _ (Ne.symm hne)] at hk
  exact hk rfl

/-- A second record, beside the first. -/
theorem saves_exact_second_row :
    SaveExact .ascending oneRowDir oneRowMeta (sampleRows ["A", "B"]) (some {"B"}) 1 ∧
      SaveExact .ascending oneRowDir oneRowMeta (sampleRows ["A", "B"]) none 1 :=
  (saves_exact_iff .ascending oneRowDir oneRowMeta (sampleRows ["A"]) (sampleRows ["A", "B"])
    {"B"} 1 holds_oneRow (fun _ => sampleRows_second) (sampleRows_fit (by decide +kernel))
    (by decide +kernel)).mpr ⟨by decide, 0, by decide, by decide +kernel⟩

/-- With room for `2 ^ 61` records a group, every capacity is zero in `u64` arithmetic, and the
planning of the modulus goes on for ever. -/
theorem save_never_plans :
    Holds oneRowDir oneRowMeta (sampleRows ["A"]) ∧ oneRowMeta.checksums = true ∧
      (∀ k, (sampleRows ["A"])[k]? ≠ (sampleRows ["A", "B"])[k]? → k ∈ ({"B"} : Finset String)) ∧
      AllFit (sampleRows ["A", "B"]) ∧
      ¬ (SaveExact .ascending oneRowDir oneRowMeta (sampleRows ["A", "B"]) (some {"B"}) (2 ^ 61) ∧
        SaveExact .ascending oneRowDir oneRowMeta (sampleRows ["A", "B"]) none (2 ^ 61)) := by
  refine ⟨holds_oneRow, rfl, fun _ => sampleRows_second, sampleRows_fit (by decide +kernel), ?_⟩
  rintro ⟨-, written, hret, -⟩
  have hnone : planModulus oneRowMeta.modulus (sampleRows ["A", "B"]).size (2 ^ 61) = none := by
    decide +kernel
  rw [saveWithFsync, hnone] at hret
  cases hret

end RustyPick
