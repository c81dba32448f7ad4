import RustyPick.Readback
import RustyPick.FlushRetry

/-!
# RustyPick.Cache

The table cache (`db/engine/cache.rs`) under any number of threads.

A thread that resolves a file looks in the map, loads the file from disk without the map locked, and
then puts its copy into the map unless another thread has been there first. It changes and flushes
the copy through the handle it was given. A copy leaves the map when the cache is over budget or
when its stamp no longer matches the disk's, and in either case only while nobody else has a handle
to it.

Copies carry a name of their own here, so that two copies of one file can be told apart. What a file
holds is left open: the cache never looks at it. Left open too is what a load finds of a copy that
is not within the limits of the readers, or of one whose groups a failed flush has moved about and
the next one has not all written again: a flush returns `Ok` for either.

* `Sound`: the copy in the map is the only one with handles, holds every change made so far, and
  where it is clean, or where there is none, so does the disk.
* `cache_keeps_updates`: every run keeps it, as long as no eviction drops a copy its flush failed
  for, no flush returns that may have left out a record, and no copy is put into the map that the
  disk has overtaken since it was read.
* `contents_flush_retry`: what a flush that returns leaves on disk, also after any number that have
  failed.
-/

namespace RustyPick

open Lib

/-! ## The cache -/

structure CacheCopy (C : Type) where
  file : String
  content : C
  dirty : Bool := false
  /-- A flush that failed was changing the modulus of the records and had written some groups. -/
  torn : Bool := false
  stamp : Nat

structure CacheDisk (C : Type) where
  content : C
  stamp : Nat := 0
  /-- How often a flush has written the file, in whole or in part. -/
  writes : Nat := 0

/-- A thread between its look into the map and its return to it. -/
structure CacheLoad (C : Type) where
  file : String
  stamp : Nat
  /-- The writes there had been when the load began. -/
  began : Nat
  read : Option C := none

structure CacheState (C : Type) where
  disk : String → CacheDisk C
  /-- The map: which copy of a file is the cached one. -/
  tables : Map String Nat := ∅
  copies : Map Nat (CacheCopy C) := ∅
  /-- Who has a handle to which copy. -/
  handles : List (Nat × Nat) := []
  loading : Map Nat (CacheLoad C) := ∅
  next : Nat := 0

/-- How a flush ends. -/
inductive FlushEnd (C : Type) where
  /-- `full` where it has rewritten every group. Where a load does not find what the table holds,
  it finds `left`. -/
  | returns (full : Bool) (left : Option C)
  /-- `torn` where it was changing the modulus. -/
  | fails (left : C) (torn : Bool)

/-- What a flush of the copy can come to. -/
def FlushEnd.possible {C : Type} (fits : C → Bool) (c : CacheCopy C) : FlushEnd C → Bool
  | .returns full left => left.isNone || !fits c.content || c.torn && !full
  | .fails _ _ => true

namespace CacheState

variable {C : Type}

/-- Somebody besides the map has a handle to the copy. -/
def isHeld (s : CacheState C) (id : Nat) : Bool := s.handles.any fun handle => handle.2 = id

/-- `flush_handle`. A flush that fails leaves the copy dirty. -/
def flushCopy (s : CacheState C) (id : Nat) (c : CacheCopy C) (ended : FlushEnd C) (stamp : Nat) :
    CacheState C :=
  if c.dirty then
    let writes := (s.disk c.file).writes + 1
    match ended with
    | .returns full left =>
      { s with
        disk := Function.update s.disk c.file
          { content := left.getD c.content, stamp := stamp, writes := writes }
        copies := s.copies.insert id
          { c with dirty := false, torn := c.torn && !full, stamp := stamp } }
    | .fails left torn =>
      { s with
        disk := Function.update s.disk c.file { content := left, stamp := stamp, writes := writes }
        copies := s.copies.insert id { c with torn := c.torn || torn } }
  else s

/-- The copy leaves the map. -/
def drop (s : CacheState C) (file : String) (id : Nat) : CacheState C :=
  { s with tables := s.tables.erase file, copies := s.copies.erase id }

end CacheState

inductive CacheAction (C : Type) where
  /-- The look into the map with which a thread resolves a file. -/
  | find (thread : Nat) (file : String)
  /-- The file read. A flush since the load began may have torn what is read. -/
  | read (thread : Nat) (torn : Option C)
  | loadFails (thread : Nat)
  /-- The copy put into the map, or discarded for the one that is there. -/
  | insert (thread : Nat) (file : String)
  | change (thread : Nat) (file : String) (id : Nat) (f : C → C)
  | flush (thread id : Nat) (ended : FlushEnd C) (stamp : Nat)
  | release (thread id : Nat)
  | evict (file : String) (ended : FlushEnd C) (stamp : Nat)
  | invalidate (file : String)

/-- One step under the map's lock or a table's: the handle `resolve_table` returned, if it did. What
`fits` is what a load reads back once it is written. -/
def CacheAction.perform {C : Type} (budget : Nat) (fits : C → Bool) (s : CacheState C) :
    CacheAction C → Option (Option Nat × CacheState C)
  | .find thread file =>
    if thread ∈ s.loading then none
    else
      match s.tables[file]? with
      | some id => some (some id, { s with handles := (thread, id) :: s.handles })
      | none =>
        let load : CacheLoad C :=
          { file := file, stamp := (s.disk file).stamp, began := (s.disk file).writes }
        some (none, { s with loading := s.loading.insert thread load })
  | .read thread torn =>
    match s.loading[thread]? with
    | none => none
    | some l =>
      if torn.isSome ∧ (s.disk l.file).writes = l.began then none
      else
        let l := { l with read := some (torn.getD (s.disk l.file).content) }
        some (none, { s with loading := s.loading.insert thread l })
  | .loadFails thread => some (none, { s with loading := s.loading.erase thread })
  | .insert thread file =>
    match s.loading[thread]? with
    | none => none
    | some l =>
      if l.file = file then
        let s := { s with loading := s.loading.erase thread }
        match l.read, s.tables[file]? with
        | none, _ => none
        | some _, some id => some (some id, { s with handles := (thread, id) :: s.handles })
        | some content, none =>
          some (some s.next,
            { s with
              tables := s.tables.insert file s.next
              copies := s.copies.insert s.next { file := file, content := content, stamp := l.stamp }
              handles := (thread, s.next) :: s.handles
              next := s.next + 1 })
      else none
  | .change thread file id f =>
    match s.copies[id]? with
    | none => none
    | some c =>
      if (thread, id) ∈ s.handles ∧ c.file = file then
        some (none,
          { s with copies := s.copies.insert id { c with content := f c.content, dirty := true } })
      else none
  | .flush thread id ended stamp =>
    match s.copies[id]? with
    | none => none
    | some c =>
      if (thread, id) ∈ s.handles ∧ ended.possible fits c then
        some (none, s.flushCopy id c ended stamp)
      else none
  | .release thread id => some (none, { s with handles := s.handles.erase (thread, id) })
  | .evict file ended stamp =>
    match s.tables[file]? with
    | none => none
    | some id =>
      match s.copies[id]? with
      | none => none
      | some c =>
        -- `let _ = self.flush_handle(&key, &handle); tables.remove(&key);`
        if (budget < s.tables.size ∧ ¬ s.isHeld id) ∧ ended.possible fits c then
          some (none, (s.flushCopy id c ended stamp).drop file id)
        else none
  | .invalidate file =>
    match s.tables[file]? with
    | none => none
    | some id =>
      match s.copies[id]? with
      | none => none
      | some c =>
        if ¬ s.isHeld id ∧ c.dirty = false ∧ c.stamp ≠ (s.disk file).stamp then
          some (none, s.drop file id)
        else none

/-- The file a thread is resolving with the step. -/
def CacheAction.resolves {C : Type} : CacheAction C → Option String
  | .find _ file | .insert _ file => some file
  | _ => none

structure CacheEvent (C : Type) where
  action : CacheAction C
  returned : Option Nat

inductive CacheRun {C : Type} (budget : Nat) (fits : C → Bool)
    (ok : CacheState C → CacheEvent C → Prop) :
    CacheState C → List (CacheEvent C) → CacheState C → Prop where
  | nil (s : CacheState C) : CacheRun budget fits ok s [] s
  | snoc {s s' s'' : CacheState C} {es : List (CacheEvent C)} {e : CacheEvent C} :
      CacheRun budget fits ok s es s' → ok s' e →
      e.action.perform budget fits s' = some (e.returned, s'') →
      CacheRun budget fits ok s (es ++ [e]) s''

/-! ## What is to hold -/

/-- Nothing loaded yet. -/
structure Cold {C : Type} (s : CacheState C) : Prop where
  tables : s.tables = ∅
  handles : s.handles = []

/-- What every file holds with one more step taken into account. -/
def CacheEvent.note {C : Type} (contents : String → C) (e : CacheEvent C) : String → C :=
  match e.action with
  | .change _ file _ f => Function.update contents file (f (contents file))
  | _ => contents

/-- What every file holds with each change of a run made to it, in turn. -/
def contentsAfter {C : Type} (s : CacheState C) (es : List (CacheEvent C)) : String → C :=
  es.foldl CacheEvent.note fun file => (s.disk file).content

/-- A flush that returns has left out no record: the copy is one the readers can read, and a torn one
is rewritten in full. -/
def FlushEnd.Whole {C : Type} (fits : C → Bool) (c : CacheCopy C) : FlushEnd C → Prop
  | .returns full _ => fits c.content = true ∧ (c.torn = true → full = true)
  | .fails _ _ => True

/-- What the steps have to meet: an eviction's flush does not fail, one that returns leaves out no
record, and a copy goes into an empty place only as long as the disk still has what was read. -/
def CacheCareful {C : Type} (fits : C → Bool) (s : CacheState C) (e : CacheEvent C) : Prop :=
  match e.action with
  | .flush _ id ended _ => ∀ c : CacheCopy C, s.copies[id]? = some c → c.dirty = true →
    ended.Whole fits c
  | .evict file ended _ => ∀ (id : Nat) (c : CacheCopy C), s.tables[file]? = some id →
    s.copies[id]? = some c → c.dirty = true →
    (∃ full left, ended = .returns full left) ∧ ended.Whole fits c
  | .insert thread file => file ∉ s.tables → ∀ (l : CacheLoad C) (content : C),
    s.loading[thread]? = some l → l.read = some content → content = (s.disk file).content
  | _ => True

/-! ## The invariant -/

/-- The cache and the disk against what every file is to hold. -/
structure Sound {C : Type} (s : CacheState C) (contents : String → C) : Prop where
  /-- The cached copy holds every change, and so does the disk beside a clean one. -/
  cached : ∀ (file : String) (id : Nat), s.tables[file]? = some id → ∃ c, s.copies[id]? = some c ∧
    c.file = file ∧ c.content = contents file ∧
    (c.dirty = false → (s.disk file).content = contents file)
  uncached : ∀ file, file ∉ s.tables → (s.disk file).content = contents file
  /-- Handles are to cached copies only. -/
  held : ∀ t id, (t, id) ∈ s.handles → ∃ file : String, s.tables[file]? = some id
  named : ∀ (file : String) (id : Nat), s.tables[file]? = some id → id < s.next

section

variable {C : Type} {s s' : CacheState C} {contents : String → C} {budget : Nat} {fits : C → Bool}

theorem Cold.sound (h : Cold s) : Sound s fun file => (s.disk file).content := by
  refine ⟨fun file id hid => ?_, fun file _ => rfl, fun t id hid => ?_, fun file id hid => ?_⟩
  · simp [h.tables] at hid
  · simp [h.handles] at hid
  · simp [h.tables] at hid

/-- Nothing but the loads in progress has changed. -/
theorem Sound.loading (h : Sound s contents) (loading : Map Nat (CacheLoad C)) :
    Sound { s with loading := loading } contents := ⟨h.cached, h.uncached, h.held, h.named⟩

theorem Sound.handle (h : Sound s contents) {file : String} {id : Nat}
    (hid : s.tables[file]? = some id) (thread : Nat) : Sound { s with handles := (thread, id) :: s.handles } contents := by
  refine ⟨h.cached, h.uncached, fun t id' hin => ?_, h.named⟩
  rcases List.mem_cons.mp hin with heq | hin
  · cases heq
    exact ⟨file, hid⟩
  · exact h.held t id' hin

theorem Sound.release (h : Sound s contents) (thread id : Nat) :
    Sound { s with handles := s.handles.erase (thread, id) } contents :=
  ⟨h.cached, h.uncached, fun t id' hin => h.held t id' (List.mem_of_mem_erase hin), h.named⟩

/-- A new copy in an empty place, as the disk has the file. -/
theorem Sound.insert (h : Sound s contents) {file : String} (hnone : file ∉ s.tables) {content : C}
    (hread : content = (s.disk file).content) (thread stamp : Nat) :
    Sound { s with
      tables := s.tables.insert file s.next
      copies := s.copies.insert s.next { file := file, content := content, stamp := stamp }
      handles := (thread, s.next) :: s.handles
      next := s.next + 1 } contents := by
  have hdisk := h.uncached file hnone
  refine ⟨fun file' id hid => ?_, fun file' hnot => ?_, fun t id hin => ?_, fun file' id hid => ?_⟩
  · dsimp only at hid ⊢
    rw [getElem?_insert_eq] at hid
    split at hid
    · rename_i heq
      subst heq
      cases hid
      exact ⟨{ file := file, content := content, stamp := stamp }, by simp, rfl,
        hread.trans hdisk, fun _ => hdisk⟩
    · obtain ⟨c, hc, hrest⟩ := h.cached file' id hid
      have hne : s.next ≠ id := fun heq => absurd (h.named file' id hid) (by omega)
      exact ⟨c, by rw [getElem?_insert_ne _ _ hne]; exact hc, hrest⟩
  · apply h.uncached
    intro hin
    exact hnot (Std.ExtTreeMap.mem_insert.mpr (Or.inr hin))
  · rcases List.mem_cons.mp hin with heq | hin
    · cases heq
      exact ⟨file, by simp⟩
    · obtain ⟨file', hid⟩ := h.held t id hin
      refine ⟨file', ?_⟩
      have hne : file ≠ file' := by
        rintro rfl
        exact hnone (mem_of_getElem? hid)
      dsimp only
      rw [getElem?_insert_ne _ _ hne]
      exact hid
  · dsimp only at hid ⊢
    rw [getElem?_insert_eq] at hid
    split at hid
    · cases hid
      exact Nat.lt_succ_self _
    · exact Nat.lt_succ_of_lt (h.named file' id hid)

/-- The file a held copy is of. -/
theorem Sound.file_of_held (h : Sound s contents) {t id : Nat} (hin : (t, id) ∈ s.handles)
    {c : CacheCopy C} (hc : s.copies[id]? = some c) : s.tables[c.file]? = some id := by
  obtain ⟨file, hid⟩ := h.held t id hin
  obtain ⟨c', hc', hfile, -⟩ := h.cached file id hid
  rw [hc] at hc'
  cases hc'
  rw [hfile]
  exact hid

/-- Two files have no copy in common. -/
theorem Sound.copy_ne (h : Sound s contents) {file file' : String} {id id' : Nat}
    (hid : s.tables[file]? = some id) (hid' : s.tables[file']? = some id') (hne : file ≠ file') :
    id ≠ id' := by
  rintro rfl
  obtain ⟨c, hc, hfile, -⟩ := h.cached file id hid
  obtain ⟨c', hc', hfile', -⟩ := h.cached file' id hid'
  rw [hc] at hc'
  cases hc'
  exact hne (hfile.symm.trans hfile')

theorem Sound.change (h : Sound s contents) {id : Nat} {c : CacheCopy C}
    (hc : s.copies[id]? = some c) (hid : s.tables[c.file]? = some id) (f : C → C) :
    Sound { s with copies := s.copies.insert id { c with content := f c.content, dirty := true } }
      (Function.update contents c.file (f (contents c.file))) := by
  have hcontent : c.content = contents c.file := by
    obtain ⟨c', hc', -, hcontent, -⟩ := h.cached c.file id hid
    rw [hc] at hc'
    cases hc'
    exact hcontent
  refine ⟨fun file' id' hid' => ?_, fun file' hnot => ?_, h.held, h.named⟩
  · by_cases hne : c.file = file'
    · subst hne
      rw [hid] at hid'
      cases hid'
      refine ⟨{ c with content := f c.content, dirty := true }, by simp, rfl, ?_,
        fun hclean => (by cases hclean)⟩
      rw [Function.update_self, ← hcontent]
    · obtain ⟨c', hc', hrest⟩ := h.cached file' id' hid'
      rw [Function.update_of_ne (Ne.symm hne)]
      exact ⟨c', by rw [getElem?_insert_ne _ _ (h.copy_ne hid hid' hne)]; exact hc', hrest⟩
  · have hne : c.file ≠ file' := by
      rintro rfl
      exact hnot (mem_of_getElem? hid)
    rw [Function.update_of_ne (Ne.symm hne)]
    exact h.uncached file' hnot

theorem FlushEnd.Whole.left_eq {c : CacheCopy C} {full : Bool} {left : Option C}
    (h : (FlushEnd.returns full left).Whole fits c)
    (hpossible : (FlushEnd.returns full left).possible fits c = true) : left = none := by
  obtain ⟨hfits, hfull⟩ := h
  simp only [FlushEnd.possible, hfits, Bool.not_true, Bool.or_false, Bool.or_eq_true,
    Bool.and_eq_true, Bool.not_eq_true', Option.isNone_iff_eq_none] at hpossible
  rcases hpossible with hnone | ⟨htorn, hpart⟩
  · exact hnone
  · rw [hfull htorn] at hpart
    cases hpart

/-- A flush, and what the disk has after it. -/
theorem Sound.flush (h : Sound s contents) {id : Nat} {c : CacheCopy C}
    (hc : s.copies[id]? = some c) (hid : s.tables[c.file]? = some id) {ended : FlushEnd C}
    (hpossible : ended.possible fits c = true) (hwhole : c.dirty = true → ended.Whole fits c)
    (stamp : Nat) :
    Sound (s.flushCopy id c ended stamp) contents ∧
      ((c.dirty = true → ∃ full left, ended = .returns full left) →
        ((s.flushCopy id c ended stamp).disk c.file).content = contents c.file) := by
  obtain ⟨c', hc', -, hcontent, hclean⟩ := h.cached c.file id hid
  rw [hc] at hc'
  cases hc'
  -- the other files have neither copy nor disk touched
  have hother : ∀ (copies : Map Nat (CacheCopy C)) (written : CacheDisk C),
      (∀ id', id ≠ id' → copies[id']? = s.copies[id']?) →
      (∃ c', copies[id]? = some c' ∧ c'.file = c.file ∧ c'.content = contents c.file ∧
        (c'.dirty = false → written.content = contents c.file)) →
      Sound { s with disk := Function.update s.disk c.file written, copies := copies } contents := by
    intro copies written hcopies hown
    refine ⟨fun file' id' hid' => ?_, fun file' hnot => ?_, h.held, h.named⟩
    · by_cases hne : c.file = file'
      · subst hne
        rw [hid] at hid'
        cases hid'
        dsimp only
        rw [Function.update_self]
        exact hown
      · obtain ⟨c', hc', hrest⟩ := h.cached file' id' hid'
        dsimp only
        rw [Function.update_of_ne (Ne.symm hne)]
        exact ⟨c', by rw [hcopies id' (h.copy_ne hid hid' hne)]; exact hc', hrest⟩
    · have hne : c.file ≠ file' := by
        rintro rfl
        exact hnot (mem_of_getElem? hid)
      dsimp only
      rw [Function.update_of_ne (Ne.symm hne)]
      exact h.uncached file' hnot
  unfold CacheState.flushCopy
  split
  · rename_i hdirty
    cases ended with
    | returns full left =>
      have hleft : left = none := (hwhole hdirty).left_eq hpossible
      subst hleft
      refine ⟨hother _ _ (fun id' hne => getElem?_insert_ne _ _ hne) ?_, fun _ => ?_⟩
      · exact ⟨{ c with dirty := false, torn := c.torn && !full, stamp := stamp }, by simp, rfl,
          hcontent, fun _ => hcontent⟩
      · dsimp only
        rw [Function.update_self]
        exact hcontent
    | fails left torn =>
      refine ⟨hother _ _ (fun id' hne => getElem?_insert_ne _ _ hne) ?_, fun hreturns => ?_⟩
      · refine ⟨{ c with torn := c.torn || torn }, by simp, rfl, hcontent, fun hclean => ?_⟩
        rw [hdirty] at hclean
        cases hclean
      · obtain ⟨full, left', heq⟩ := hreturns hdirty
        cases heq
  · rename_i hnot
    exact ⟨h, fun _ => hclean (by simpa using hnot)⟩

/-- A copy nobody has a handle to leaves the map, its changes on disk. -/
theorem Sound.drop (h : Sound s contents) {file : String} {id : Nat}
    (hid : s.tables[file]? = some id) (hfree : s.isHeld id = false)
    (hdisk : (s.disk file).content = contents file) : Sound (s.drop file id) contents := by
  refine ⟨fun file' id' hid' => ?_, fun file' hnot => ?_, fun t id' hin => ?_,
    fun file' id' hid' => ?_⟩
  · change (s.tables.erase file)[file']? = some id' at hid'
    rw [getElem?_erase_eq] at hid'
    split at hid'
    · cases hid'
    · rename_i hne
      obtain ⟨c, hc, hrest⟩ := h.cached file' id' hid'
      refine ⟨c, ?_, hrest⟩
      change (s.copies.erase id)[id']? = some c
      rw [getElem?_erase_ne _ (h.copy_ne hid hid' hne)]
      exact hc
  · by_cases hne : file = file'
    · exact hne ▸ hdisk
    · apply h.uncached
      intro hin
      exact hnot (Std.ExtTreeMap.mem_erase.mpr ⟨by simpa using hne, hin⟩)
  · obtain ⟨file', hid'⟩ := h.held t id' hin
    refine ⟨file', ?_⟩
    have hne : file ≠ file' := by
      rintro rfl
      rw [hid] at hid'
      cases hid'
      have hheld : s.isHeld id = true :=
        List.any_eq_true.mpr ⟨(t, id), hin, by simp⟩
      rw [hfree] at hheld
      cases hheld
    change (s.tables.erase file)[file']? = some id'
    rw [getElem?_erase_ne _ hne]
    exact hid'
  · change (s.tables.erase file)[file']? = some id' at hid'
    rw [getElem?_erase_eq] at hid'
    split at hid'
    · cases hid'
    · exact h.named file' id' hid'

/-- One step, whichever thread takes it. A handle that is returned is to the cached copy. -/
theorem Sound.step (h : Sound s contents) {e : CacheEvent C} (hok : CacheCareful fits s e)
    (hp : e.action.perform budget fits s = some (e.returned, s')) :
    Sound s' (e.note contents) ∧
      ∀ id, e.returned = some id →
        ∃ file, e.action.resolves = some file ∧ s'.tables[file]? = some id := by
  obtain ⟨action, returned⟩ := e
  cases action with
  | find thread file =>
    simp only [CacheAction.perform] at hp
    split at hp
    · cases hp
    · split at hp
      · rename_i id hid
        cases hp
        exact ⟨h.handle hid thread, fun id' hid' => ⟨file, rfl, by cases hid'; exact hid⟩⟩
      · cases hp
        exact ⟨h.loading _, fun id hid => by cases hid⟩
  | read thread torn =>
    simp only [CacheAction.perform] at hp
    split at hp
    · cases hp
    · split at hp
      · cases hp
      · cases hp
        exact ⟨h.loading _, fun id hid => by cases hid⟩
  | loadFails thread =>
    cases hp
    exact ⟨h.loading _, fun id hid => by cases hid⟩
  | insert thread file =>
    simp only [CacheAction.perform] at hp
    split at hp
    · cases hp
    · rename_i l hl
      have hloaded := h.loading (s.loading.erase thread)
      split at hp
      · split at hp
        · cases hp
        · rename_i hid
          cases hp
          exact ⟨hloaded.handle hid thread,
            fun id' hid' => ⟨file, rfl, by cases hid'; exact hid⟩⟩
        · rename_i content hread hnone
          cases hp
          have hnot : file ∉ s.tables := by
            intro hin
            obtain ⟨id, hid⟩ := mem_iff_exists.mp hin
            cases hid.symm.trans hnone
          refine ⟨hloaded.insert hnot (hok hnot l content hl hread) thread l.stamp, ?_⟩
          intro id hid
          cases hid
          exact ⟨file, rfl, by simp⟩
      · cases hp
  | change thread file id f =>
    simp only [CacheAction.perform] at hp
    split at hp
    · cases hp
    · rename_i c hc
      split at hp
      · rename_i hguard
        obtain ⟨hin, rfl⟩ := hguard
        cases hp
        exact ⟨h.change hc (h.file_of_held hin hc) f, fun id hid => by cases hid⟩
      · cases hp
  | flush thread id ended stamp =>
    simp only [CacheAction.perform] at hp
    split at hp
    · cases hp
    · rename_i c hc
      split at hp
      · rename_i hguard
        obtain ⟨hin, hpossible⟩ := hguard
        cases hp
        exact ⟨(h.flush hc (h.file_of_held hin hc) hpossible (hok c hc) stamp).1,
          fun id hid => by cases hid⟩
      · cases hp
  | release thread id =>
    cases hp
    exact ⟨h.release thread id, fun id hid => by cases hid⟩
  | evict file ended stamp =>
    simp only [CacheAction.perform] at hp
    split at hp
    · cases hp
    · rename_i id hid
      split at hp
      · cases hp
      · rename_i c hc
        split at hp
        · rename_i hguard
          cases hp
          obtain ⟨c', hc', hfile, -⟩ := h.cached file id hid
          rw [hc] at hc'
          cases hc'
          subst hfile
          obtain ⟨hsound, hdisk⟩ := h.flush hc hid hguard.2 (fun hdirty => (hok id c hid hc hdirty).2)
            stamp
          have htables : (s.flushCopy id c ended stamp).tables = s.tables ∧
              (s.flushCopy id c ended stamp).handles = s.handles := by
            unfold CacheState.flushCopy
            split
            · cases ended <;> exact ⟨rfl, rfl⟩
            · exact ⟨rfl, rfl⟩
          refine ⟨hsound.drop (htables.1 ▸ hid) ?_
            (hdisk fun hdirty => (hok id c hid hc hdirty).1), fun id hid => by cases hid⟩
          have hfree : s.isHeld id = false := by simpa using hguard.1.2
          rw [CacheState.isHeld, htables.2]
          exact hfree
        · cases hp
  | invalidate file =>
    simp only [CacheAction.perform] at hp
    split at hp
    · cases hp
    · rename_i id hid
      split at hp
      · cases hp
      · rename_i c hc
        split at hp
        · rename_i hguard
          cases hp
          obtain ⟨c', hc', -, -, hclean⟩ := h.cached file id hid
          rw [hc] at hc'
          cases hc'
          refine ⟨h.drop hid ?_ (hclean hguard.2.1), fun id hid => by cases hid⟩
          simpa using hguard.1
        · cases hp

theorem contentsAfter_snoc (s : CacheState C) (es : List (CacheEvent C)) (e : CacheEvent C) :
    contentsAfter s (es ++ [e]) = e.note (contentsAfter s es) := by
  rw [contentsAfter, List.foldl_append]
  rfl

theorem Sound.run {es : List (CacheEvent C)} (h : Cold s)
    (hrun : CacheRun budget fits (CacheCareful fits) s es s') : Sound s' (contentsAfter s es) := by
  induction hrun with
  | nil => exact h.sound
  | snoc _ hok hp ih =>
    rw [contentsAfter_snoc]
    exact (ih.step hok hp).1

end

/-- What a table holds, as the disk has it once it is flushed. -/
def Table.contents (t : Table) : Accepted := ⟨storedForm t.records, storedForm t.dictionary⟩

theorem storedForm_insert (M : Entries) (key : String) (record : Record) :
    storedForm (M.insert key record) = (storedForm M).insert key record.stored := by
  apply Std.ExtTreeMap.ext_getElem?
  intro k
  rw [getElem?_storedForm, getElem?_insert_eq, getElem?_insert_eq, getElem?_storedForm]
  split <;> rfl

theorem storedForm_erase (M : Entries) (key : String) :
    storedForm (M.erase key) = (storedForm M).erase key := by
  apply Std.ExtTreeMap.ext_getElem?
  intro k
  rw [getElem?_storedForm, getElem?_erase_eq, getElem?_erase_eq, getElem?_storedForm]
  split <;> rfl

/-- A change to a table is a change to its contents. -/
theorem contents_applyChange (t : Table) (c : Change) :
    (t.applyChange c).contents = t.contents.change c.stored := by
  obtain ⟨file, key, isDict, op⟩ := c
  cases op with
  | write record =>
    cases isDict with
    | false => exact congrArg (Accepted.mk · _) (storedForm_insert t.records key record)
    | true => exact congrArg (Accepted.mk _) (storedForm_insert t.dictionary key record)
  | delete =>
    cases isDict with
    | false => exact congrArg (Accepted.mk · _) (storedForm_erase t.records key)
    | true => exact congrArg (Accepted.mk _) (storedForm_erase t.dictionary key)

/-- A flush that returns leaves the contents of the table on disk, and the table with them, also
after any number of flushes that have failed: one that is changing a modulus leaves the groups of
the records torn, and the next has to rewrite them all. -/
theorem contents_flush_retry {s s' : FlushState} {order : FlushOrder} {perGroup : Nat}
    (h : Recoverable s) (hs : FlushCareful perGroup s) (hok : s.flush order perGroup = some s') :
    s'.table.contents = s.table.contents ∧
      ∃ t, loadTable s'.dir = .ok t ∧ t.contents = s.table.contents := by
  obtain ⟨hrecords, hdictionary⟩ := h.flush_contents hs hok
  obtain ⟨t, hload, hr, hd, -⟩ := (h.flush hs hok).2.loads
  refine ⟨by rw [Table.contents, hrecords, hdictionary]; rfl, t, hload, ?_⟩
  rw [Table.contents, hr, hd, hrecords, hdictionary]
  rfl

/-! ## Runs that can be evaluated -/

end RustyPick
