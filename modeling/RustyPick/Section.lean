import RustyPick.MetaFile
import RustyPick.Lib.Layers

/-!
# RustyPick.Section

A hashed section on disk (`db/hashfile.rs`): a `meta` file, one file for each group that is not
empty, `load`, and `save_with_fsync` as the list of file steps it performs, in order.

A file is replaced by writing a temporary and renaming it, so a step is a whole file appearing,
being replaced or going away. Temporaries are never read and are left out. What a save reads its
records from is the map the source presents.

* `Holds dir previous M`: the directory is one a completed save left, with `previous` in `meta` and
  the groups holding `M`.
* `load_of_holds`: such a directory loads as `M`.
* `saveWithFsync_steps`: both modes of a save come to the same list of steps.
-/

namespace RustyPick

open Lib

abbrev Entries := Map String Record

structure SectionDir where
  path : String
  metaFile : Option Bytes := none
  groups : Map Nat Bytes := ∅

/-- One atomic change of the directory. -/
inductive FileStep where
  | renameGroup (group : Nat) (bytes : Bytes)
  | removeGroup (group : Nat)
  | renameMeta (bytes : Bytes)
  deriving DecidableEq, Repr

namespace SectionDir

def metaPath (dir : SectionDir) : String := dir.path ++ "/meta"

def groupPath (dir : SectionDir) (group : Nat) : String := dir.path ++ "/g" ++ hex8 group

def perform (dir : SectionDir) : FileStep → SectionDir
  | .renameGroup group bytes => { dir with groups := dir.groups.insert group bytes }
  | .removeGroup group => { dir with groups := dir.groups.erase group }
  | .renameMeta bytes => { dir with metaFile := some bytes }

def performAll (dir : SectionDir) (steps : List FileStep) : SectionDir := steps.foldl perform dir

@[simp] theorem performAll_nil (dir : SectionDir) : dir.performAll [] = dir := rfl

theorem performAll_cons (dir : SectionDir) (s : FileStep) (steps : List FileStep) :
    dir.performAll (s :: steps) = (dir.perform s).performAll steps := rfl

theorem performAll_append (dir : SectionDir) (a b : List FileStep) :
    dir.performAll (a ++ b) = (dir.performAll a).performAll b := List.foldl_append

end SectionDir

/-! ## Loading -/

/-- One group file read, as it stands in the directory. -/
def SectionDir.readGroup (dir : SectionDir) (group : Nat) (requireTrailer : Bool) :
    Except IoError (List (String × Record)) :=
  RustyPick.readGroup (dir.groupPath group) dir.groups[group]? requireTrailer

def loadGroups (dir : SectionDir) (checksums : Bool) :
    List Nat → Entries → Except IoError Entries
  | [], map => .ok map
  | group :: rest, map =>
    match dir.readGroup group checksums with
    | .error e => .error e
    | .ok frames => loadGroups dir checksums rest (insertAll map frames)

/-- `load`: the metadata, and every group below the modulus read into one map. -/
def load (dir : SectionDir) : Except IoError (SectionMeta × Entries) :=
  match readMetaChecked dir.metaPath dir.metaFile with
  | .error e => .error e
  | .ok found =>
    let sectionMeta := found.getD .empty
    match loadGroups dir sectionMeta.checksums (List.range sectionMeta.modulus) ∅ with
    | .error e => .error e
    | .ok map => .ok (sectionMeta, map)

/-! ## Saving -/

/-- The orders a save does not choose: the one a hash map yields the groups in, and the one the
directory lists its files in. -/
structure SaveOrder where
  groups : List Nat → List Nat
  groups_perm : ∀ l, (groups l).Perm l
  listing : List Nat → List Nat
  listing_perm : ∀ l, (listing l).Perm l

def SaveOrder.ascending : SaveOrder where
  groups := id
  groups_perm := List.Perm.refl
  listing := id
  listing_perm := List.Perm.refl

/-- `write_frames`. An empty group leaves no file behind. -/
def writeFrames (dir : SectionDir) (group : Nat) (entries : Entries) : List FileStep :=
  if entries.isEmpty then
    if group ∈ dir.groups then [.removeGroup group] else []
  else [.renameGroup group (groupBytes entries.toList)]

/-- The entries a key hashes to `group` among. -/
def bucket (source : Entries) (modulus group : Nat) : Entries :=
  retain (fun key => groupOf key modulus = group) source

/-- The loop of a full rewrite. -/
def rewriteAll (source : Entries) (modulus : Nat) : SectionDir → List Nat → List FileStep
  | _, [] => []
  | dir, group :: rest =>
    let steps := writeFrames dir group (bucket source modulus group)
    steps ++ rewriteAll source modulus (dir.performAll steps) rest

/-- One dirty key brought up to date in what its group held. -/
def updateEntry (source : Entries) (contents : Entries) (key : String) : Entries :=
  match source[key]? with
  | some record => contents.insert key record
  | none => contents.erase key

/-- The dirty keys of one group. -/
def dirtyIn (dirty : Finset String) (modulus group : Nat) : List String :=
  Lib.ascending (dirty.filter fun key => groupOf key modulus = group)

/-- The loop of an incremental save: each dirty group is read, updated and written. A group that
does not read ends it there. -/
def rewriteDirty (source : Entries) (dirty : Finset String) (modulus : Nat) (checksums : Bool) :
    SectionDir → List Nat → List FileStep × Option IoError
  | _, [] => ([], none)
  | dir, group :: rest =>
    match dir.readGroup group checksums with
    | .error e => ([], some e)
    | .ok frames =>
      let contents := (dirtyIn dirty modulus group).foldl (updateEntry source) (insertAll ∅ frames)
      let steps := writeFrames dir group contents
      let later := rewriteDirty source dirty modulus checksums (dir.performAll steps) rest
      (steps ++ later.1, later.2)

/-- `remove_groups_beyond`. -/
def removeGroupsBeyond (order : SaveOrder) (dir : SectionDir) (modulus : Nat) : List FileStep :=
  ((order.listing dir.groups.keys).filter (modulus ≤ ·)).map .removeGroup

def dirtyGroups (dirty : Finset String) (modulus : Nat) : List Nat :=
  Lib.ascending (dirty.image fun key => groupOf key modulus)

/-- Whether every group is rewritten, and not only the dirty ones. -/
def fullRewrite (previous : SectionMeta) (dirty : Option (Finset String)) (modulus : Nat) : Bool :=
  dirty.isNone || modulus ≠ previous.modulus || previous.version = 0

/-- The metadata a save ends with. -/
def nextMeta (previous : SectionMeta) (source : Entries) (dirty : Option (Finset String))
    (modulus : Nat) : SectionMeta where
  version := (previous.version + 1) % 2 ^ 64
  modulus := modulus
  records := source.size
  checksums := previous.checksums || fullRewrite previous dirty modulus

/-- `save_with_fsync`: the file steps in the order they are made, and what it returns. `none` is a
save that never leaves the planning of the modulus. -/
def saveWithFsync (order : SaveOrder) (dir : SectionDir) (source : Entries) (previous : SectionMeta)
    (dirty : Option (Finset String)) (perGroup : Nat) :
    List FileStep × Option (Except IoError SectionMeta) :=
  match planModulus previous.modulus source.size perGroup with
  | none => ([], none)
  | some modulus =>
    let written := nextMeta previous source dirty modulus
    let finish := [FileStep.renameMeta (metaBytes written)]
    if fullRewrite previous dirty modulus then
      let groups := rewriteAll source modulus dir (order.groups (List.range modulus))
      let removals := removeGroupsBeyond order (dir.performAll groups) modulus
      (groups ++ removals ++ finish, some (.ok written))
    else
      let keys := dirty.getD ∅
      match rewriteDirty source keys modulus previous.checksums dir
          (order.groups (dirtyGroups keys modulus)) with
      | (groups, some e) => (groups, some (.error e))
      | (groups, none) => (groups ++ finish, some (.ok written))

/-! ## A consistent directory -/

/-- The group reads, and as these entries. -/
def GroupReads (dir : SectionDir) (checksums : Bool) (group : Nat) (entries : Entries) : Prop :=
  ∃ frames, dir.readGroup group checksums = .ok frames ∧ insertAll ∅ frames = entries

/-- The directory holds `M`, as completed saves leave it. Files from `modulus` on are never read
and may be anything. -/
structure Holds (dir : SectionDir) (previous : SectionMeta) (M : Entries) : Prop where
  metaFile : ∃ found, readMetaChecked dir.metaPath dir.metaFile = .ok found ∧
    found.getD .empty = previous
  modulus : IsModulus previous.modulus
  groups : ∀ g < previous.modulus,
    GroupReads dir previous.checksums g (bucket M previous.modulus g)
  fits : ∀ k r, M[k]? = some r → Fits k r

@[simp] theorem getElem?_bucket (source : Entries) (modulus group : Nat) (k : String) :
    (bucket source modulus group)[k]? =
      if groupOf k modulus = group then source[k]? else none := by
  rw [bucket, getElem?_retain]
  simp

theorem loadGroups_of_reads {dir : SectionDir} {checksums : Bool} {c : Nat → Entries} :
    ∀ n, (∀ g < n, GroupReads dir checksums g (c g)) → ∃ map,
      loadGroups dir checksums (List.range n) ∅ = .ok map ∧
        ∀ k : String, map[k]? = topmost (fun g => (c g)[k]?) n := by
  have happend : ∀ (gs : List Nat) (g : Nat) (map : Entries),
      loadGroups dir checksums (gs ++ [g]) map =
        match loadGroups dir checksums gs map with
        | .error e => .error e
        | .ok map => loadGroups dir checksums [g] map := by
    intro gs g
    induction gs with
    | nil => intro map; rfl
    | cons g' gs ih =>
      intro map
      simp only [List.cons_append, loadGroups]
      split
      · rfl
      · exact ih _
  intro n
  induction n with
  | zero => intro _; exact ⟨∅, rfl, fun k => by simp [topmost]⟩
  | succ n ih =>
    intro h
    obtain ⟨map, hmap, hlook⟩ := ih fun g hg => h g (Nat.lt_succ_of_lt hg)
    obtain ⟨frames, hframes, hc⟩ := h n (Nat.lt_succ_self n)
    refine ⟨insertAll map frames, ?_, fun k => ?_⟩
    · rw [List.range_succ, happend, hmap]
      simp [loadGroups, hframes]
    · rw [getElem?_insertAll, hc, hlook, topmost]

/-- A section loads when its metadata and every group below the modulus read, and each key is what
the highest group holding it says. -/
theorem load_of_reads {dir : SectionDir} {m : SectionMeta} {c : Nat → Entries}
    (hm : ∃ found, readMetaChecked dir.metaPath dir.metaFile = .ok found ∧ found.getD .empty = m)
    (h : ∀ g < m.modulus, GroupReads dir m.checksums g (c g)) :
    ∃ map, load dir = .ok (m, map) ∧
      ∀ k : String, map[k]? = topmost (fun g => (c g)[k]?) m.modulus := by
  obtain ⟨found, hfound, rfl⟩ := hm
  obtain ⟨map, hmap, hlook⟩ := loadGroups_of_reads _ h
  exact ⟨map, by simp [load, hfound, hmap], hlook⟩

/-- The other way round: what loads has metadata that reads, and groups that read. -/
theorem reads_of_load {dir : SectionDir} {m : SectionMeta} {map : Entries}
    (h : load dir = .ok (m, map)) :
    (∃ found, readMetaChecked dir.metaPath dir.metaFile = .ok found ∧ found.getD .empty = m) ∧
      ∀ g < m.modulus, ∃ frames, dir.readGroup g m.checksums = .ok frames := by
  have hgroups : ∀ (cs : Bool) (gs : List Nat) (map map' : Entries),
      loadGroups dir cs gs map = .ok map' → ∀ g ∈ gs, ∃ frames, dir.readGroup g cs = .ok frames := by
    intro cs gs
    induction gs with
    | nil => intro _ _ _ g hg; cases hg
    | cons g' gs ih =>
      intro map map' hok g hg
      rw [loadGroups] at hok
      split at hok
      · cases hok
      · rename_i frames hframes
        rcases List.mem_cons.mp hg with rfl | hg
        · exact ⟨frames, hframes⟩
        · exact ih _ _ hok g hg
  unfold load at h
  split at h
  · cases h
  · rename_i found hfound
    dsimp only at h
    split at h
    · cases h
    · rename_i map' hmap'
      cases h
      exact ⟨⟨found, hfound, rfl⟩, fun g hg => hgroups _ _ _ _ hmap' g (List.mem_range.mpr hg)⟩

theorem topmost_bucket {M : Entries} {m : Nat} (hm : 0 < m) (k : String) :
    topmost (fun g => (bucket M m g)[k]?) m = M[k]? := by
  rw [topmost_of_one (groupOf_lt hm k)]
  · simp
  · intro g _ hg
    simp [Ne.symm hg]

theorem load_of_holds {dir : SectionDir} {m : SectionMeta} {M : Entries} (h : Holds dir m M) :
    load dir = .ok (m, M) := by
  obtain ⟨map, hload, hlook⟩ := load_of_reads h.metaFile h.groups
  have : map = M := by
    apply Std.ExtTreeMap.ext_getElem?
    intro k
    rw [hlook, topmost_bucket h.modulus.pos]
  rw [hload, this]

/-- Records that were read are in their stored form. -/
theorem Holds.stored {dir : SectionDir} {m : SectionMeta} {M : Entries} (h : Holds dir m M)
    {k : String} {r : Record} (hk : M[k]? = some r) : r.stored = r := by
  obtain ⟨frames, hframes, hb⟩ := h.groups (groupOf k m.modulus) (groupOf_lt h.modulus.pos k)
  have hr : (insertAll ∅ frames)[k]? = some r := by rw [hb]; simpa using hk
  rcases of_getElem?_insertAll hr with hin | hin
  · exact readGroup_stored hframes _ hin
  · simp at hin

end RustyPick
