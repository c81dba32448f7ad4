import RustyPick.Readback

/-!
# RustyPick.SectionResume

A section saved again after a save that failed.

What a failed save has written stays, and so do the keys it was told about. The next save starts
from the old metadata, which it has in memory, over groups of which some are already new.

* `save_resumed`: a save that returns leaves the map all the same, unless it is incremental and an
  earlier one was cut short while it was changing the modulus.
* `save_cut`: a save cut short anywhere leaves a section the next one can start from.
-/

namespace RustyPick

open Lib

/-! ## What a save reads of a directory -/

/-- The groups are the same, whatever `meta` says. -/
def SameGroups (d d' : SectionDir) : Prop := d.path = d'.path ∧ d.groups = d'.groups

namespace SameGroups

variable {d d' : SectionDir}

theorem readGroup (h : SameGroups d d') (group : Nat) (checksums : Bool) :
    d.readGroup group checksums = d'.readGroup group checksums := by
  rw [SectionDir.readGroup, SectionDir.readGroup, SectionDir.groupPath, SectionDir.groupPath, h.1,
    h.2]

theorem perform (h : SameGroups d d') (step : FileStep) :
    SameGroups (d.perform step) (d'.perform step) := by
  obtain ⟨hpath, hgroups⟩ := h
  cases step <;> simp [SameGroups, SectionDir.perform, hpath, hgroups]

theorem performAll (steps : List FileStep) : ∀ {d d' : SectionDir}, SameGroups d d' →
    SameGroups (d.performAll steps) (d'.performAll steps) := by
  induction steps with
  | nil => intro d d' h; exact h
  | cons step steps ih => intro _ _ h; exact ih (h.perform step)

theorem writeFrames (h : SameGroups d d') (group : Nat) (entries : Entries) :
    RustyPick.writeFrames d group entries = RustyPick.writeFrames d' group entries := by
  rw [RustyPick.writeFrames, RustyPick.writeFrames, h.2]

theorem rewriteAll (source : Entries) (modulus : Nat) (groups : List Nat) :
    ∀ {d d' : SectionDir}, SameGroups d d' →
      RustyPick.rewriteAll source modulus d groups =
        RustyPick.rewriteAll source modulus d' groups := by
  induction groups with
  | nil => intro d d' _; rfl
  | cons group groups ih =>
    intro d d' h
    rw [RustyPick.rewriteAll, RustyPick.rewriteAll, h.writeFrames]
    rw [ih (performAll _ h)]

theorem rewriteDirty (source : Entries) (dirty : Finset String) (modulus : Nat) (checksums : Bool)
    (groups : List Nat) : ∀ {d d' : SectionDir}, SameGroups d d' →
      RustyPick.rewriteDirty source dirty modulus checksums d groups =
        RustyPick.rewriteDirty source dirty modulus checksums d' groups := by
  induction groups with
  | nil => intro d d' _; rfl
  | cons group groups ih =>
    intro d d' h
    rw [RustyPick.rewriteDirty, RustyPick.rewriteDirty, h.readGroup]
    cases d'.readGroup group checksums with
    | error e => rfl
    | ok frames =>
      simp only [h.writeFrames]
      rw [ih (performAll _ h)]

theorem saveWithFsync (h : SameGroups d d') (order : SaveOrder) (source : Entries)
    (previous : SectionMeta) (dirty : Option (Finset String)) (perGroup : Nat) :
    RustyPick.saveWithFsync order d source previous dirty perGroup =
      RustyPick.saveWithFsync order d' source previous dirty perGroup := by
  have hbeyond : ∀ (steps : List FileStep) (modulus : Nat),
      removeGroupsBeyond order (d.performAll steps) modulus =
        removeGroupsBeyond order (d'.performAll steps) modulus := by
    intro steps modulus
    rw [removeGroupsBeyond, removeGroupsBeyond, (performAll steps h).2]
  simp only [RustyPick.saveWithFsync, rewriteAll _ _ _ h, rewriteDirty _ _ _ _ _ h, hbeyond]

theorem eq (h : SameGroups d d') (hmeta : d.metaFile = d'.metaFile) : d = d' := by
  obtain ⟨hpath, hgroups⟩ := h
  cases d
  cases d'
  simp_all

end SameGroups

/-- The groups hold `D`, as far as a save looks. -/
def GroupsHold (dir : SectionDir) (previous : SectionMeta) (D : Entries) : Prop :=
  ∃ d, SameGroups dir d ∧ Holds d previous D

theorem Holds.groupsHold {dir : SectionDir} {previous : SectionMeta} {D : Entries}
    (h : Holds dir previous D) : GroupsHold dir previous D := ⟨dir, ⟨rfl, rfl⟩, h⟩

/-! ## Saving again -/

/-- A save plans another modulus than the metadata it starts from has. -/
def regroups (previous : SectionMeta) (records perGroup : Nat) : Bool :=
  match planModulus previous.modulus records perGroup with
  | some modulus => modulus ≠ previous.modulus
  | none => false

/-- What a save can start from: groups that hold the map but for the keys it is told about. None of
it matters to a full rewrite. `torn` is a section of which a save that was changing the modulus has
written some groups. -/
structure Resumable (dir : SectionDir) (previous : SectionMeta) (dirty : Option (Finset String))
    (M : Entries) (torn : Bool) : Prop where
  modulus : IsModulus previous.modulus
  groups : torn = false → ∀ keys, dirty = some keys → previous.version ≠ 0 →
    ∃ D, GroupsHold dir previous D ∧ CoversChanges (some keys) D (storedForm M)

section

variable {dir : SectionDir} {previous written : SectionMeta} {M M' : Entries}
  {dirty dirty' : Option (Finset String)} {torn : Bool} {order : SaveOrder} {perGroup : Nat}
  {steps pre : List FileStep}

/-- The map is changed, and the keys are marked. -/
theorem Resumable.mark (h : Resumable dir previous dirty M torn)
    (hmarked : ∀ keys', dirty' = some keys' → ∃ keys, dirty = some keys ∧ keys ⊆ keys' ∧
      ∀ k, k ∉ keys' → M'[k]? = M[k]?) : Resumable dir previous dirty' M' torn := by
  refine ⟨h.modulus, fun hwhole keys' hkeys' hversion => ?_⟩
  obtain ⟨keys, hkeys, hsub, hsame⟩ := hmarked keys' hkeys'
  obtain ⟨D, hold, hcovers⟩ := h.groups hwhole keys hkeys hversion
  refine ⟨D, hold, ?_⟩
  intro _ heq k hk
  cases heq
  by_contra hnot
  apply hk
  rw [getElem?_storedForm, hsame k hnot, ← getElem?_storedForm]
  by_contra hne
  exact hnot (hsub (hcovers keys rfl k hne))

/-- A section as a completed save or a load leaves it. -/
theorem Holds.resumable {D : Entries} (h : Holds dir previous D)
    (hd : CoversChanges dirty D (storedForm M)) : Resumable dir previous dirty M false :=
  ⟨h.modulus, fun _ _ hkeys _ => ⟨D, h.groupsHold, hkeys ▸ hd⟩⟩

/-- `meta` is written last. -/
theorem metaFile_of_save
    (hok : saveWithFsync order dir M previous dirty perGroup = (steps, some (.ok written))) :
    (dir.performAll steps).metaFile = some (metaBytes written) := by
  have hlast : ∀ front, (dir.performAll (front ++ [.renameMeta (metaBytes written)])).metaFile =
      some (metaBytes written) := by
    intro front
    rw [SectionDir.performAll_append]
    rfl
  unfold saveWithFsync at hok
  split at hok
  · cases hok
  dsimp only at hok
  split at hok
  · simp only [Prod.mk.injEq, Option.some.injEq, Except.ok.injEq] at hok
    rw [← hok.1, hok.2]
    exact hlast _
  · split at hok
    · cases hok
    · simp only [Prod.mk.injEq, Option.some.injEq, Except.ok.injEq] at hok
      rw [← hok.1, hok.2]
      exact hlast _

/-- A save that is not a full rewrite starts from groups that hold the map but for its keys. -/
theorem Resumable.incremental (h : Resumable dir previous dirty M torn) {m' : Nat}
    (hfull : fullRewrite previous dirty m' = false) (hwhole : torn = false) :
    m' = previous.modulus ∧ ∃ D d, SameGroups dir d ∧ Holds d previous D ∧
      CoversChanges dirty D (storedForm M) := by
  simp only [fullRewrite, Bool.or_eq_false_iff, decide_eq_false_iff_not, ne_eq, not_not] at hfull
  obtain ⟨⟨hsome, hm⟩, hversion⟩ := hfull
  cases dirty with
  | none => simp at hsome
  | some keys =>
    obtain ⟨D, ⟨d, hsame, hold⟩, hcovers⟩ := h.groups hwhole keys rfl hversion
    exact ⟨hm, D, d, hsame, hold, hcovers⟩

/-- A save that returns leaves the map. A torn section has to be rewritten in full. -/
theorem save_resumed (h : Resumable dir previous dirty M torn)
    (htorn : torn = true → ∀ m', planModulus previous.modulus M.size perGroup = some m' →
      fullRewrite previous dirty m' = true) (hfit : AllFit M) (hsize : M.size < 2 ^ 64)
    (hok : saveWithFsync order dir M previous dirty perGroup = (steps, some (.ok written))) :
    Holds (dir.performAll steps) written (storedForm M) := by
  cases hplan : planModulus previous.modulus M.size perGroup with
  | none =>
    rw [saveWithFsync, hplan] at hok
    cases hok
  | some m' =>
    have hm' := planModulus_pow h.modulus hplan
    cases hfull : fullRewrite previous dirty m' with
    | true =>
      obtain ⟨visited, removals, hsp, hall, hret⟩ :=
        savePlan_full order dir ∅ h.modulus hplan hfull
      rw [hok] at hsp hret
      obtain rfl : written = nextMeta previous M dirty m' := by simpa using hret
      exact hsp.holds hm' hfit hsize fun g hg hv => absurd (hall g hg) hv
    | false =>
      have hwhole : torn = false := by
        cases torn with
        | false => rfl
        | true => rw [htorn rfl m' hplan] at hfull; cases hfull
      obtain ⟨-, D, d, hsame, hold, hcovers⟩ := h.incremental hfull hwhole
      have hok' := hok
      rw [hsame.saveWithFsync] at hok'
      have hafter := holds_of_saveOk hold hcovers hfit hsize hok'
      -- the save ends with `meta`, so the directories are the same again
      have heq := (SameGroups.performAll steps hsame).eq ((metaFile_of_save hok).trans
        (metaFile_of_save (hsame.saveWithFsync order M previous dirty perGroup ▸ hok)).symm)
      rw [heq]
      exact hafter

/-- A save cut short anywhere leaves a section the next one can start from; it is torn if the modulus
was to change. -/
theorem save_cut (h : Resumable dir previous dirty M torn) (hfit : AllFit M)
    (hsize : M.size < 2 ^ 64)
    (hpre : pre <+: (saveWithFsync order dir M previous dirty perGroup).1) :
    Resumable (dir.performAll pre) previous dirty M
      (torn || (regroups previous M.size perGroup && pre ≠ [])) := by
  refine ⟨h.modulus, fun hwhole keys hkeys hversion => ?_⟩
  simp only [Bool.or_eq_false_iff, Bool.and_eq_false_iff, decide_eq_false_iff_not, not_not] at hwhole
  obtain ⟨hwhole, hcut⟩ := hwhole
  by_cases hnil : pre = []
  · subst hnil
    exact h.groups hwhole keys hkeys hversion
  have hstays : regroups previous M.size perGroup = false := hcut.resolve_right hnil
  cases hplan : planModulus previous.modulus M.size perGroup with
  | none =>
    rw [saveWithFsync, hplan, List.prefix_nil] at hpre
    exact absurd hpre hnil
  | some m' =>
    have hm : m' = previous.modulus := by simpa [regroups, hplan] using hstays
    have hfull : fullRewrite previous dirty m' = false := by simp [fullRewrite, hkeys, hm, hversion]
    obtain ⟨-, D, d, hsame, hold, hcovers⟩ := h.incremental hfull hwhole
    rw [hsame.saveWithFsync, ← saveWithFsync_stored] at hpre
    obtain ⟨visited, removals, hsp, -⟩ := savePlan order hold hcovers
      (by rw [size_storedForm]; exact hplan)
    subst hm
    -- up to `meta` the groups are those of a save that was interrupted
    have hinterrupted : ∃ after vs rs, SameGroups (dir.performAll pre) after ∧
        Interrupted d (storedForm M) previous.modulus visited removals vs rs after := by
      rcases hsp.stopped hpre with rfl | ⟨vs, rs, hint⟩
      · obtain ⟨before, hbefore, hint⟩ := hsp.beforeMeta
        refine ⟨_, visited, removals, ?_, hint⟩
        rw [hbefore, SectionDir.performAll_append]
        exact SameGroups.performAll before hsame
      · exact ⟨_, vs, rs, SameGroups.performAll pre hsame, hint⟩
    obtain ⟨after, vs, rs, hafter, hint⟩ := hinterrupted
    obtain ⟨D', hold', hlook⟩ := holds_interrupted hold hint hsp hfit.stored
      (by rw [size_storedForm]; exact hsize)
    refine ⟨D', ⟨after, hafter, hold'⟩, ?_⟩
    intro _ heq k hk
    cases heq
    apply hcovers keys hkeys k
    rcases hlook k with hkept | hnew
    · rw [hkept] at hk
      exact hk
    · rw [← getElem?_storedForm, storedForm_storedForm] at hnew
      exact absurd hnew hk

end

end RustyPick
