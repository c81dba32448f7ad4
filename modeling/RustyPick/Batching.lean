import Mathlib.Data.Fintype.Basic
import Mathlib.Logic.Function.Basic
import RustyPick.Lib.Tally

/-!
# RustyPick.Batching

How writes are put off (`note_write_for`, `flush_table`, `save` and `flush_if_due` of
`db/engine/mod.rs`), under any number of connections.

A connection changes a table under the table's guard, and notes the write afterwards. A note of a
durable file writes out the whole database before it is acknowledged. Any other note counts in the
file's own batch, and writes the file out when the batch is full or old. Between the count and the
write, and between the write and the fresh count, the other connections run.

Changes to a file are numbered from one on, so the `onDisk`-th and those before it are the ones on
disk. That is true of a file until a flush that fails costs it a change: an eviction drops the table
whether its flush failed or not, and a flush that returns after a failed one can have left out what
that one moved. Such files are kept count of, and nothing is said about them.

* `Batch.Sound`: what a flush under way has behind it, and how much each file can be behind.
* `acknowledged_writes`: what a connection may rely on once its write is acknowledged.
-/

namespace RustyPick

open Lib

/-! ## The engine -/

abbrev TableKey := String × String

/-- The batch of one file. -/
structure WriteMark where
  pending : Nat
  lastFlush : Nat

def WriteMark.fresh (now : Nat) : WriteMark := ⟨0, now⟩

structure FlushConfig where
  flushMaxPending : Nat
  flushInterval : Nat

/-- Where a connection is. -/
inductive Flushing where
  | idle
  /-- The change is made and not noted yet. -/
  | changed (key : TableKey) (change : Nat)
  /-- Noted: the batch is full or old. -/
  | due (key : TableKey) (change : Nat)
  /-- The file is written out, its batch not started afresh yet. -/
  | flushed (key : TableKey) (change : Nat)
  /-- In `save`, with `rest` of its snapshot to go. `began` are the changes made when it began, and
  `noted` is the durable write that waits for it. -/
  | saving (began : TableKey → Nat) (noted : Option (TableKey × Nat)) (rest : List TableKey)

/-- A write the caller was told about. A durable one waited for a save. -/
structure Acknowledged where
  key : TableKey
  change : Nat
  durable : Option (TableKey → Nat) := none

structure Batch (T : Type) where
  /-- The tables in memory. -/
  tables : List TableKey := []
  changes : TableKey → Nat := fun _ => 0
  onDisk : TableKey → Nat := fun _ => 0
  writeMarks : TableKey → Option WriteMark := fun _ => none
  lastFlush : Nat := 0
  doing : T → Flushing := fun _ => .idle
  acks : List Acknowledged := []
  /-- The saves that came to their end, each as the changes it began with. -/
  saves : List (TableKey → Nat) := []
  /-- The files a failed flush has cost a change. -/
  lost : List TableKey := []

namespace Batch

variable {T : Type}

/-- `flush_handle`: under the table's guard, everything changed so far. -/
def flushHandle (s : Batch T) (key : TableKey) : Batch T :=
  if key ∈ s.tables then { s with onDisk := Function.update s.onDisk key (s.changes key) } else s

@[simp] theorem flushHandle_changes (s : Batch T) (key : TableKey) :
    (s.flushHandle key).changes = s.changes := by
  unfold flushHandle
  split <;> rfl

@[simp] theorem flushHandle_tables (s : Batch T) (key : TableKey) :
    (s.flushHandle key).tables = s.tables := by
  unfold flushHandle
  split <;> rfl

@[simp] theorem flushHandle_doing (s : Batch T) (key : TableKey) :
    (s.flushHandle key).doing = s.doing := by
  unfold flushHandle
  split <;> rfl

@[simp] theorem flushHandle_acks (s : Batch T) (key : TableKey) :
    (s.flushHandle key).acks = s.acks := by
  unfold flushHandle
  split <;> rfl

@[simp] theorem flushHandle_saves (s : Batch T) (key : TableKey) :
    (s.flushHandle key).saves = s.saves := by
  unfold flushHandle
  split <;> rfl

@[simp] theorem flushHandle_lost (s : Batch T) (key : TableKey) :
    (s.flushHandle key).lost = s.lost := by
  unfold flushHandle
  split <;> rfl

@[simp] theorem flushHandle_writeMarks (s : Batch T) (key : TableKey) :
    (s.flushHandle key).writeMarks = s.writeMarks := by
  unfold flushHandle
  split <;> rfl

def acknowledge (s : Batch T) (a : Acknowledged) : Batch T := { s with acks := a :: s.acks }

/-- Counts a write: the file's batch, and whether it is full or old. -/
def count (config : FlushConfig) (s : Batch T) (key : TableKey) (time : Nat) : WriteMark × Bool :=
  let mark := (s.writeMarks key).getD (.fresh time)
  let mark := { mark with pending := mark.pending + 1 }
  (mark, config.flushMaxPending ≤ mark.pending ∨ config.flushInterval ≤ time - mark.lastFlush)

variable [DecidableEq T]

def now (s : Batch T) (t : T) (doing : Flushing) : Batch T :=
  { s with doing := Function.update s.doing t doing }

@[simp] theorem now_onDisk (s : Batch T) (t : T) (d : Flushing) : (s.now t d).onDisk = s.onDisk := rfl

@[simp] theorem now_acks (s : Batch T) (t : T) (d : Flushing) : (s.now t d).acks = s.acks := rfl

/-- The snapshot `save` begins with. -/
def beginSave (s : Batch T) (t : T) (noted : Option (TableKey × Nat)) : Batch T :=
  s.now t (.saving s.changes noted s.tables)

end Batch

inductive BatchAction where
  | load (key : TableKey)
  /-- The table leaves the cache, or another path writes it out. -/
  | evict (key : TableKey)
  /-- The table leaves the cache although its flush failed. -/
  | drop (key : TableKey)
  /-- The next flush of the file leaves out what an earlier one, which failed, has moved. -/
  | leaveOut (key : TableKey)
  | change (key : TableKey)
  /-- `note_write_for`, with what the file's attributes say about durability. -/
  | note (durable : Bool) (time : Nat)
  | flush
  | freshMark (time : Nat)
  /-- `flush_if_due`, with what its look at the counts came to. -/
  | tick (quiet : Bool) (time : Nat)
  | save
  | saveNext (key : TableKey)
  | saved (time : Nat)
  /-- The disk refuses: an error is answered instead. -/
  | fail

/-- One step of one connection under a lock. -/
def BatchAction.perform {T : Type} [DecidableEq T] (config : FlushConfig) (s : Batch T) (t : T) :
    BatchAction → Option (Batch T)
  | .load key => if key ∈ s.tables then none else some { s with tables := key :: s.tables }
  | .evict key =>
    some { s.flushHandle key with tables := s.tables.filter fun other => other ≠ key }
  | .drop key =>
    some { s with
      tables := s.tables.filter fun other => other ≠ key
      lost := key :: s.lost }
  | .leaveOut key => some { s with lost := key :: s.lost }
  | .change key =>
    match s.doing t with
    | .idle =>
      if key ∈ s.tables then
        let nth := s.changes key + 1
        some ({ s with changes := Function.update s.changes key nth }.now t (.changed key nth))
      else none
    | _ => none
  | .note durable time =>
    match s.doing t with
    | .changed key nth =>
      if durable then some (s.beginSave t (some (key, nth)))
      else
        let counted := s.count config key time
        let s := { s with writeMarks := Function.update s.writeMarks key (some counted.1) }
        if counted.2 then some (s.now t (.due key nth))
        else some ((s.now t .idle).acknowledge { key := key, change := nth })
    | _ => none
  | .flush =>
    match s.doing t with
    | .due key nth => some ((s.flushHandle key).now t (.flushed key nth))
    | _ => none
  | .freshMark time =>
    match s.doing t with
    | .flushed key nth =>
      let s := { s with writeMarks := Function.update s.writeMarks key (some (.fresh time)) }
      some ((s.now t .idle).acknowledge { key := key, change := nth })
    | _ => none
  | .tick quiet time =>
    match s.doing t with
    | .idle =>
      if quiet ∨ time - s.lastFlush < config.flushInterval then some s
      else some (s.beginSave t none)
    | _ => none
  | .save =>
    match s.doing t with
    | .idle => some (s.beginSave t none)
    | _ => none
  | .saveNext key =>
    match s.doing t with
    | .saving began noted rest =>
      if key ∈ rest then some ((s.flushHandle key).now t (.saving began noted (rest.erase key)))
      else none
    | _ => none
  | .saved time =>
    match s.doing t with
    | .saving began noted [] =>
      let s := { s with
        writeMarks := fun _ => none
        lastFlush := time
        saves := began :: s.saves }
      match noted with
      | none => some (s.now t .idle)
      | some (key, nth) =>
        some ((s.now t .idle).acknowledge { key := key, change := nth, durable := some began })
    | _ => none
  | .fail =>
    match s.doing t with
    | .due _ _ => some (s.now t .idle)
    | .saving _ _ _ => some (s.now t .idle)
    | _ => none

namespace Batch

variable {T : Type} [DecidableEq T]

inductive Reachable (config : FlushConfig) : Batch T → Prop where
  | start : Reachable config {}
  | step {s s' : Batch T} (t : T) (a : BatchAction) (h : Reachable config s)
    (hstep : a.perform config s t = some s') : Reachable config s'

end Batch

/-! ## What a flush has behind it -/

/-- What a connection has behind it. -/
def Flushing.Sound (lost : List TableKey) (changes onDisk : TableKey → Nat) : Flushing → Prop
  | .idle => True
  | .changed key nth => nth ≤ changes key
  | .due key nth => nth ≤ changes key
  | .flushed key nth => nth ≤ changes key ∧ (key ∉ lost → nth ≤ onDisk key)
  | .saving began noted rest =>
    (∀ key, began key ≤ changes key ∧ (key ∉ lost → began key ≤ onDisk key ∨ key ∈ rest)) ∧
      ∀ key nth, noted = some (key, nth) → nth ≤ began key

theorem Flushing.Sound.mono {lost lost' : List TableKey}
    {changes onDisk changes' onDisk' : TableKey → Nat} {d : Flushing}
    (h : d.Sound lost changes onDisk) (hlost : ∀ key, key ∉ lost' → key ∉ lost)
    (hchanges : ∀ key, changes key ≤ changes' key)
    (honDisk : ∀ key, key ∉ lost' → onDisk key ≤ onDisk' key) : d.Sound lost' changes' onDisk' := by
  cases d with
  | idle => trivial
  | changed key nth => exact Nat.le_trans h (hchanges key)
  | due key nth => exact Nat.le_trans h (hchanges key)
  | flushed key nth =>
    exact ⟨Nat.le_trans h.1 (hchanges key),
      fun hkept => Nat.le_trans (h.2 (hlost key hkept)) (honDisk key hkept)⟩
  | saving began noted rest =>
    refine ⟨fun key => ⟨Nat.le_trans (h.1 key).1 (hchanges key), fun hkept => ?_⟩, h.2⟩
    exact ((h.1 key).2 (hlost key hkept)).imp_left fun hdone =>
      Nat.le_trans hdone (honDisk key hkept)

namespace Batch

variable {T : Type} {s s' : Batch T}

structure Sound (s : Batch T) : Prop where
  loaded : ∀ key, key ∉ s.lost → s.onDisk key < s.changes key → key ∈ s.tables
  written : ∀ key, s.onDisk key ≤ s.changes key
  doing : ∀ t, (s.doing t).Sound s.lost s.changes s.onDisk
  acked : ∀ a ∈ s.acks, a.change ≤ s.changes a.key
  durable : ∀ a ∈ s.acks, ∀ began, a.durable = some began →
    a.change ≤ began a.key ∧ began ∈ s.saves
  saved : ∀ began ∈ s.saves, ∀ key, key ∉ s.lost → began key ≤ s.onDisk key

theorem Sound.init : Sound ({} : Batch T) where
  loaded key _ h := absurd h (Nat.lt_irrefl 0)
  written key := Nat.le_refl 0
  doing t := trivial
  acked a h := by cases h
  durable a h := by cases h
  saved began h := by cases h

/-- A table that is not in memory has nothing to write. -/
theorem Sound.flushHandle_self (h : Sound s) {key : TableKey} (hkept : key ∉ s.lost) :
    (s.flushHandle key).onDisk key = s.changes key := by
  unfold flushHandle
  split
  next hin => exact Function.update_self key _ _
  next hout =>
    exact Nat.le_antisymm (h.written key)
      (Nat.le_of_not_lt fun hdirty => hout (h.loaded key hkept hdirty))

theorem flushHandle_of_ne {key other : TableKey} (hne : key ≠ other) :
    (s.flushHandle other).onDisk key = s.onDisk key := by
  unfold flushHandle
  split
  · exact Function.update_of_ne hne _ _
  · rfl

theorem Sound.flushHandle_bounds (h : Sound s) (key other : TableKey) :
    s.onDisk other ≤ (s.flushHandle key).onDisk other ∧
      (s.flushHandle key).onDisk other ≤ s.changes other := by
  unfold flushHandle
  split
  · by_cases heq : other = key
    · subst heq
      simp only [Function.update_self]
      exact ⟨h.written other, Nat.le_refl _⟩
    · simp only [Function.update_of_ne heq]
      exact ⟨Nat.le_refl _, h.written other⟩
  · exact ⟨Nat.le_refl _, h.written other⟩

theorem Sound.flushHandle (h : Sound s) (key : TableKey) : Sound (s.flushHandle key) where
  loaded other hkept hdirty := by
    rw [flushHandle_lost] at hkept
    rw [flushHandle_changes] at hdirty
    rw [flushHandle_tables]
    exact h.loaded other hkept (Nat.lt_of_le_of_lt (h.flushHandle_bounds key other).1 hdirty)
  written other := by
    rw [flushHandle_changes]
    exact (h.flushHandle_bounds key other).2
  doing t := by
    rw [flushHandle_doing, flushHandle_changes, flushHandle_lost]
    exact (h.doing t).mono (fun _ hkept => hkept) (fun _ => Nat.le_refl _)
      fun other _ => (h.flushHandle_bounds key other).1
  acked a ha := by
    rw [flushHandle_acks] at ha
    rw [flushHandle_changes]
    exact h.acked a ha
  durable a ha := by
    rw [flushHandle_acks] at ha
    rw [flushHandle_saves]
    exact h.durable a ha
  saved began hbegan other hkept := by
    rw [flushHandle_saves] at hbegan
    rw [flushHandle_lost] at hkept
    exact Nat.le_trans (h.saved began hbegan other hkept) (h.flushHandle_bounds key other).1

/-- One more file that nothing is said about. -/
theorem Sound.lose (h : Sound s) (key : TableKey) : Sound { s with lost := key :: s.lost } where
  loaded _ hkept := h.loaded _ fun hin => hkept (List.mem_cons_of_mem _ hin)
  written := h.written
  doing t := (h.doing t).mono (fun other hkept hin => hkept (List.mem_cons_of_mem _ hin))
    (fun _ => Nat.le_refl _) fun _ _ => Nat.le_refl _
  acked := h.acked
  durable := h.durable
  saved began hbegan _ hkept :=
    h.saved began hbegan _ fun hin => hkept (List.mem_cons_of_mem _ hin)

theorem Sound.acknowledge (h : Sound s) {a : Acknowledged} (hchange : a.change ≤ s.changes a.key)
    (hdurable : ∀ began, a.durable = some began → a.change ≤ began a.key ∧ began ∈ s.saves) :
    Sound (s.acknowledge a) where
  loaded := h.loaded
  written := h.written
  doing := h.doing
  acked := by
    rintro b (_ | ⟨_, hb⟩)
    · exact hchange
    · exact h.acked b hb
  durable := by
    rintro b (_ | ⟨_, hb⟩)
    · exact hdurable
    · exact h.durable b hb
  saved := h.saved

theorem Sound.marked (h : Sound s) (marks : TableKey → Option WriteMark) :
    Sound { s with writeMarks := marks } :=
  ⟨h.loaded, h.written, h.doing, h.acked, h.durable, h.saved⟩

/-- The batch after `save` came to its end. -/
def endSave (s : Batch T) (began : TableKey → Nat) (time : Nat) : Batch T :=
  { s with writeMarks := fun _ => none, lastFlush := time, saves := began :: s.saves }

theorem Sound.endSave (h : Sound s) {began : TableKey → Nat} {noted : Option (TableKey × Nat)}
    (time : Nat) (hdo : (Flushing.saving began noted []).Sound s.lost s.changes s.onDisk) :
    Sound (s.endSave began time) where
  loaded := h.loaded
  written := h.written
  doing := h.doing
  acked := h.acked
  durable a ha earlier hearlier :=
    (h.durable a ha earlier hearlier).imp_right (List.mem_cons_of_mem _)
  saved := by
    rintro earlier (_ | ⟨_, hearlier⟩) key hkept
    · exact ((hdo.1 key).2 hkept).resolve_right List.not_mem_nil
    · exact h.saved earlier hearlier key hkept

def withMark (s : Batch T) (key : TableKey) (mark : WriteMark) : Batch T :=
  { s with writeMarks := Function.update s.writeMarks key (some mark) }

variable [DecidableEq T]

theorem Sound.now (h : Sound s) (t : T) {d : Flushing}
    (hd : d.Sound s.lost s.changes s.onDisk) :
    Sound (s.now t d) where
  loaded := h.loaded
  written := h.written
  doing other := by
    by_cases heq : other = t
    · subst heq
      simpa [Batch.now] using hd
    · simpa [Batch.now, heq] using h.doing other
  acked := h.acked
  durable := h.durable
  saved := h.saved

theorem Sound.nowIdle (h : Sound s) (t : T) : Sound (s.now t .idle) :=
  h.now t (d := .idle) trivial

theorem Sound.beginSave (h : Sound s) (t : T) {noted : Option (TableKey × Nat)}
    (hnoted : ∀ key nth, noted = some (key, nth) → nth ≤ s.changes key) :
    Sound (s.beginSave t noted) := by
  refine h.now t ⟨fun key => ⟨Nat.le_refl _, fun hkept => ?_⟩, hnoted⟩
  exact (Nat.lt_or_ge (s.onDisk key) (s.changes key)).symm.imp id (h.loaded key hkept)

/-! ## What a step can do -/

inductive Moves (config : FlushConfig) (s : Batch T) (t : T) : Batch T → Prop where
  | loaded (key : TableKey) : Moves config s t { s with tables := key :: s.tables }
  | evicted (key : TableKey) :
    Moves config s t
      { s.flushHandle key with tables := s.tables.filter fun other => other ≠ key }
  | dropped (key : TableKey) :
    Moves config s t
      { s with
        tables := s.tables.filter fun other => other ≠ key
        lost := key :: s.lost }
  | leftOut (key : TableKey) : Moves config s t { s with lost := key :: s.lost }
  | changed (key : TableKey) (hdoing : s.doing t = .idle) (hin : key ∈ s.tables) :
    Moves config s t
      ({ s with changes := Function.update s.changes key (s.changes key + 1) }.now t
        (.changed key (s.changes key + 1)))
  | durable (key : TableKey) (nth : Nat) (hdoing : s.doing t = .changed key nth) :
    Moves config s t (s.beginSave t (some (key, nth)))
  | due (key : TableKey) (nth time : Nat) (hdoing : s.doing t = .changed key nth) :
    Moves config s t ((s.withMark key (s.count config key time).1).now t (.due key nth))
  | counted (key : TableKey) (nth time : Nat) (hdoing : s.doing t = .changed key nth)
    (hroom : (s.count config key time).2 = false) :
    Moves config s t
      (((s.withMark key (s.count config key time).1).now t .idle).acknowledge
        { key := key, change := nth })
  | flushed (key : TableKey) (nth : Nat) (hdoing : s.doing t = .due key nth) :
    Moves config s t ((s.flushHandle key).now t (.flushed key nth))
  | freshMark (key : TableKey) (nth time : Nat) (hdoing : s.doing t = .flushed key nth) :
    Moves config s t
      (((s.withMark key (.fresh time)).now t .idle).acknowledge { key := key, change := nth })
  | waits : Moves config s t s
  | begins (hdoing : s.doing t = .idle) : Moves config s t (s.beginSave t none)
  | saveNext (key : TableKey) (began : TableKey → Nat) (noted : Option (TableKey × Nat))
    (rest : List TableKey) (hdoing : s.doing t = .saving began noted rest) (hin : key ∈ rest) :
    Moves config s t ((s.flushHandle key).now t (.saving began noted (rest.erase key)))
  | saved (began : TableKey → Nat) (time : Nat) (hdoing : s.doing t = .saving began none []) :
    Moves config s t ((s.endSave began time).now t .idle)
  | savedNoted (began : TableKey → Nat) (key : TableKey) (nth time : Nat)
    (hdoing : s.doing t = .saving began (some (key, nth)) []) :
    Moves config s t
      (((s.endSave began time).now t .idle).acknowledge
        { key := key, change := nth, durable := some began })
  | failed : Moves config s t (s.now t .idle)

theorem moves_of_perform {config : FlushConfig} {t : T} {a : BatchAction}
    (h : a.perform config s t = some s') : Moves config s t s' := by
  cases a with
  | load key =>
    simp only [BatchAction.perform] at h
    split at h
    · cases h
    · cases h
      exact .loaded key
  | evict key =>
    simp only [BatchAction.perform, Option.some.injEq] at h
    subst h
    exact .evicted key
  | drop key =>
    cases h
    exact .dropped key
  | leaveOut key =>
    cases h
    exact .leftOut key
  | change key =>
    simp only [BatchAction.perform] at h
    split at h
    next hdoing =>
      split at h
      next hin =>
        cases h
        exact .changed key hdoing hin
      · cases h
    · cases h
  | note durable time =>
    simp only [BatchAction.perform] at h
    split at h
    next key nth hdoing =>
      split at h
      · cases h
        exact .durable key nth hdoing
      · split at h
        · cases h
          exact .due key nth time hdoing
        next hroom =>
          cases h
          exact .counted key nth time hdoing (by simpa using hroom)
    · cases h
  | flush =>
    simp only [BatchAction.perform] at h
    split at h
    next key nth hdoing =>
      cases h
      exact .flushed key nth hdoing
    · cases h
  | freshMark time =>
    simp only [BatchAction.perform] at h
    split at h
    next key nth hdoing =>
      cases h
      exact .freshMark key nth time hdoing
    · cases h
  | tick quiet time =>
    simp only [BatchAction.perform] at h
    split at h
    next hdoing =>
      split at h
      · cases h
        exact .waits
      · cases h
        exact .begins hdoing
    · cases h
  | save =>
    simp only [BatchAction.perform] at h
    split at h
    next hdoing =>
      cases h
      exact .begins hdoing
    · cases h
  | saveNext key =>
    simp only [BatchAction.perform] at h
    split at h
    next began noted rest hdoing =>
      split at h
      next hin =>
        cases h
        exact .saveNext key began noted rest hdoing hin
      · cases h
    · cases h
  | saved time =>
    simp only [BatchAction.perform] at h
    split at h
    next began noted hdoing =>
      split at h
      · cases h
        exact .saved began time hdoing
      next key nth =>
        cases h
        exact .savedNoted began key nth time hdoing
    · cases h
  | fail =>
    simp only [BatchAction.perform] at h
    split at h
    · cases h
      exact .failed
    · cases h
      exact .failed
    · cases h

theorem Sound.moves {config : FlushConfig} {t : T} (h : Sound s) (hmoves : Moves config s t s') :
    Sound s' := by
  have hdo := h.doing t
  cases hmoves with
  | loaded key =>
    exact { h with
      loaded := fun other hkept hdirty => List.mem_cons_of_mem _ (h.loaded other hkept hdirty) }
  | evicted key =>
    have hflushed := h.flushHandle key
    refine { hflushed with loaded := fun other hkept hdirty => ?_ }
    have hin := hflushed.loaded other hkept hdirty
    rw [flushHandle_tables] at hin
    refine List.mem_filter.mpr ⟨hin, ?_⟩
    refine decide_eq_true fun heq => ?_
    subst heq
    simp only [flushHandle_lost] at hkept
    simp only [flushHandle_changes, h.flushHandle_self hkept] at hdirty
    exact Nat.lt_irrefl _ hdirty
  | dropped key =>
    have hlost := h.lose key
    refine { hlost with loaded := fun other hkept hdirty => ?_ }
    refine List.mem_filter.mpr ⟨hlost.loaded other hkept hdirty, ?_⟩
    exact decide_eq_true fun heq => hkept (heq ▸ List.mem_cons_self)
  | leftOut key => exact h.lose key
  | changed key hdoing hin =>
    have hle : ∀ other, s.changes other ≤ Function.update s.changes key (s.changes key + 1) other :=
      fun other => by
        by_cases heq : other = key
        · subst heq
          rw [Function.update_self]
          exact Nat.le_succ _
        · rw [Function.update_of_ne heq]
    have hmore : Sound { s with changes := Function.update s.changes key (s.changes key + 1) } :=
      { loaded := fun other hkept hdirty => by
          by_cases heq : other = key
          · exact heq ▸ hin
          · refine h.loaded other hkept ?_
            simpa [Function.update_of_ne heq] using hdirty
        written := fun other => Nat.le_trans (h.written other) (hle other)
        doing := fun other =>
          (h.doing other).mono (fun _ hkept => hkept) hle fun _ _ => Nat.le_refl _
        acked := fun a ha => Nat.le_trans (h.acked a ha) (hle a.key)
        durable := h.durable
        saved := h.saved }
    refine hmore.now t ?_
    simp only [Flushing.Sound, Function.update_self, Nat.le_refl]
  | durable key nth hdoing =>
    rw [hdoing] at hdo
    refine h.beginSave t ?_
    rintro _ _ ⟨⟩
    exact hdo
  | due key nth time hdoing =>
    rw [hdoing] at hdo
    exact (h.marked _).now t hdo
  | counted key nth time hdoing hroom =>
    rw [hdoing] at hdo
    exact ((h.marked _).nowIdle t).acknowledge hdo (by rintro _ ⟨⟩)
  | flushed key nth hdoing =>
    rw [hdoing] at hdo
    refine (h.flushHandle key).now t ?_
    rw [flushHandle_changes, flushHandle_lost]
    exact ⟨hdo, fun hkept => (h.flushHandle_self hkept).symm ▸ hdo⟩
  | freshMark key nth time hdoing =>
    rw [hdoing] at hdo
    exact ((h.marked _).nowIdle t).acknowledge hdo.1 (by rintro _ ⟨⟩)
  | waits => exact h
  | begins hdoing => exact h.beginSave t (by rintro _ _ ⟨⟩)
  | saveNext key began noted rest hdoing hin =>
    rw [hdoing] at hdo
    refine (h.flushHandle key).now t ⟨fun other => ?_, hdo.2⟩
    rw [flushHandle_changes, flushHandle_lost]
    refine ⟨(hdo.1 other).1, fun hkept => ?_⟩
    by_cases heq : other = key
    · subst heq
      rw [h.flushHandle_self hkept]
      exact .inl (hdo.1 other).1
    · rw [flushHandle_of_ne heq]
      exact ((hdo.1 other).2 hkept).imp_right (List.mem_erase_of_ne heq).mpr
  | saved began time hdoing =>
    rw [hdoing] at hdo
    exact (h.endSave time hdo).nowIdle t
  | savedNoted began key nth time hdoing =>
    rw [hdoing] at hdo
    have hnth := hdo.2 key nth rfl
    refine ((h.endSave time hdo).nowIdle t).acknowledge (Nat.le_trans hnth (hdo.1 key).1) ?_
    rintro _ ⟨⟩
    exact ⟨hnth, List.mem_cons_self⟩
  | failed => exact h.nowIdle t

theorem Reachable.sound {config : FlushConfig} (h : Reachable config s) : Sound s := by
  induction h with
  | start => exact .init
  | step t a _ hstep ih => exact ih.moves (moves_of_perform hstep)

end Batch

/-! ## How much can be behind -/

/-- The connection has seen `key` written out, and will start its batch afresh. -/
def Flushing.armed (key : TableKey) : Flushing → Bool
  | .flushed other _ => other = key
  | .saving _ _ rest => key ∉ rest
  | _ => false

namespace Batch

variable {T : Type}

/-- The acknowledged writes to `key` that are not on disk. -/
def behind (s : Batch T) (key : TableKey) : List Acknowledged :=
  s.acks.filter fun a => a.key = key ∧ s.onDisk key < a.change

def pending (s : Batch T) (key : TableKey) : Nat := ((s.writeMarks key).map WriteMark.pending).getD 0

def tally [Fintype T] (s : Batch T) (key : TableKey) : Tally T where
  waiting := (s.behind key).length
  count := s.pending key
  armed := Finset.univ.filter fun t => (s.doing t).armed key

variable {s s' : Batch T} {key : TableKey}

theorem Sound.behind_eq_nil (h : Sound s) (hclean : s.changes key ≤ s.onDisk key) :
    s.behind key = [] := by
  refine List.filter_eq_nil_iff.mpr fun a ha => ?_
  have hle := h.acked a ha
  intro hbehind
  obtain ⟨rfl, hlt⟩ := of_decide_eq_true hbehind
  omega

theorem Sound.behind_of_not_loaded (h : Sound s) (hkept : key ∉ s.lost) (hout : key ∉ s.tables) :
    s.behind key = [] :=
  h.behind_eq_nil (Nat.le_of_not_lt fun hdirty => hout (h.loaded key hkept hdirty))

theorem Sound.behind_flushHandle (h : Sound s) (hkept : key ∉ s.lost) :
    (s.flushHandle key).behind key = [] := by
  refine (h.flushHandle key).behind_eq_nil ?_
  rw [flushHandle_changes, h.flushHandle_self hkept]

theorem behind_flushHandle_of_ne {other : TableKey} (hne : key ≠ other) :
    (s.flushHandle other).behind key = s.behind key := by
  simp only [behind, flushHandle_acks, flushHandle_of_ne hne]

/-- A write that is on disk by the time it is acknowledged. -/
theorem behind_acknowledge {a : Acknowledged} (h : a.key = key → a.change ≤ s.onDisk key) :
    (s.acknowledge a).behind key = s.behind key := by
  refine List.filter_cons_of_neg ?_
  simp only [decide_eq_true_eq, not_and, Nat.not_lt]
  exact h

theorem pending_withMark (mark : WriteMark) : (s.withMark key mark).pending key = mark.pending := by
  simp only [pending, withMark, Function.update_self, Option.map_some, Option.getD_some]

theorem pending_withMark_of_ne {other : TableKey} (hne : key ≠ other) (mark : WriteMark) :
    (s.withMark other mark).pending key = s.pending key := by
  simp only [pending, withMark, Function.update_of_ne hne]

theorem count_pending (config : FlushConfig) (s : Batch T) (key : TableKey) (time : Nat) :
    (s.count config key time).1.pending = s.pending key + 1 := by
  unfold count pending
  cases s.writeMarks key with
  | none => rfl
  | some mark => rfl

/-- Room is left where a note does not find the batch full. -/
theorem pending_of_count {config : FlushConfig} {time : Nat}
    (h : (s.count config key time).2 = false) :
    s.pending key + 1 ≤ config.flushMaxPending - 1 := by
  have hcount := count_pending config s key time
  have hroom : ¬ config.flushMaxPending ≤ (s.count config key time).1.pending := by
    simp only [count, decide_eq_false_iff_not, not_or] at h
    exact h.1
  omega

variable [Fintype T] {t : T}

theorem mem_armed : t ∈ (s.tally key).armed ↔ (s.doing t).armed key := by
  simp [tally]

theorem tally_congr (hbehind : s'.behind key = s.behind key)
    (hpending : s'.pending key = s.pending key) (hdoing : s'.doing = s.doing) :
    s'.tally key = s.tally key := by
  simp only [tally, hbehind, hpending, hdoing]

theorem tally_withMark (mark : WriteMark) :
    (s.withMark key mark).tally key = { s.tally key with count := mark.pending } := by
  simp only [tally, pending_withMark]
  rfl

theorem tally_withMark_of_ne {other : TableKey} (hne : key ≠ other) (mark : WriteMark) :
    (s.withMark other mark).tally key = s.tally key :=
  tally_congr rfl (pending_withMark_of_ne hne mark) rfl

theorem tally_acknowledge {a : Acknowledged} (h : a.key = key → a.change ≤ s.onDisk key) :
    (s.acknowledge a).tally key = s.tally key :=
  tally_congr (behind_acknowledge h) rfl rfl

/-- An acknowledged write that is not on disk is one more that waits. -/
theorem tally_acknowledge_behind {a : Acknowledged} (hkey : a.key = key)
    (h : s.onDisk key < a.change) :
    (s.acknowledge a).tally key =
      { s.tally key with waiting := (s.tally key).waiting + 1 } := by
  have hbehind : (s.acknowledge a).behind key = a :: s.behind key :=
    List.filter_cons_of_pos (decide_eq_true ⟨hkey, h⟩)
  simp only [tally, hbehind, List.length_cons]
  rfl

variable [DecidableEq T] {d : Flushing} {limit : Nat}

theorem tally_now_same (h : d.armed key = (s.doing t).armed key) :
    (s.now t d).tally key = s.tally key := by
  have hsame : ∀ other, ((s.now t d).doing other).armed key = (s.doing other).armed key := by
    intro other
    by_cases heq : other = t
    · subst heq
      simpa [Batch.now] using h
    · simp [Batch.now, heq]
  simp only [tally, behind, pending, now_acks, now_onDisk, hsame]
  rfl

theorem tally_now_off (h : d.armed key = false) :
    (s.now t d).tally key = { s.tally key with armed := (s.tally key).armed.erase t } := by
  have harmed : ((s.now t d).tally key).armed = (s.tally key).armed.erase t := by
    ext other
    rw [Finset.mem_erase, mem_armed, mem_armed]
    by_cases heq : other = t
    · subst heq
      simp [Batch.now, h]
    · simp [Batch.now, heq]
  rw [← harmed]
  rfl

/-- Nothing is waiting, whoever starts the batch afresh next. -/
theorem step_of_behind_nil (hcount : s'.pending key = s.pending key) (h : s'.behind key = []) :
    Tally.Step limit (s.tally key) (s'.tally key) := by
  have hshape : s'.tally key = { s.tally key with waiting := 0, armed := (s'.tally key).armed } := by
    simp only [tally, hcount, h, List.length_nil]
  rw [hshape]
  exact .write _ _

/-- A file that is not in the snapshot has nothing to write. -/
theorem tally_beginSave (h : Sound s) (hkept : key ∉ s.lost) (noted : Option (TableKey × Nat))
    (hquiet : (s.doing t).armed key = false) :
    (s.beginSave t noted).tally key = s.tally key ∨
      Tally.Step limit (s.tally key) ((s.beginSave t noted).tally key) := by
  by_cases hin : key ∈ s.tables
  · refine .inl (tally_now_same ?_)
    rw [hquiet]
    exact decide_eq_false (not_not_intro hin)
  · exact .inr (step_of_behind_nil rfl (h.behind_of_not_loaded hkept hin))

theorem tally_flush (h : Sound s) (hkept : key ∉ s.lost) (other : TableKey)
    (hsame : key ≠ other → d.armed key = (s.doing t).armed key) :
    ((s.flushHandle other).now t d).tally key = s.tally key ∨
      Tally.Step limit (s.tally key) (((s.flushHandle other).now t d).tally key) := by
  by_cases heq : key = other
  · subst heq
    refine .inr (step_of_behind_nil ?_ (h.behind_flushHandle hkept))
    simp only [pending, Batch.now, flushHandle_writeMarks]
  · refine .inl ?_
    rw [tally_now_same (by rw [flushHandle_doing]; exact hsame heq)]
    exact tally_congr (behind_flushHandle_of_ne heq) (by simp only [pending, flushHandle_writeMarks])
      (flushHandle_doing s other)

/-- A connection that has seen the file written out starts its batch afresh. -/
theorem step_of_reset (harmed : (s.doing t).armed key)
    (hshape : s'.tally key =
      { s.tally key with count := 0, armed := (s.tally key).armed.erase t }) :
    Tally.Step limit (s.tally key) (s'.tally key) := by
  rw [hshape]
  exact .reset _ t (mem_armed.mpr harmed)

theorem tally_moves {config : FlushConfig} (h : Sound s) (hmoves : Moves config s t s')
    (hkept : key ∉ s.lost) :
    s'.tally key = s.tally key ∨
      Tally.Step (config.flushMaxPending - 1) (s.tally key) (s'.tally key) := by
  have hdo := h.doing t
  cases hmoves with
  | loaded other => exact .inl rfl
  | evicted other =>
    by_cases heq : key = other
    · subst heq
      refine .inr (step_of_behind_nil ?_ (h.behind_flushHandle hkept))
      simp only [pending, flushHandle_writeMarks]
    · exact .inl (tally_congr (behind_flushHandle_of_ne heq)
        (by simp only [pending, flushHandle_writeMarks]) (flushHandle_doing s other))
  | dropped other => exact .inl rfl
  | leftOut other => exact .inl rfl
  | changed other hdoing hin =>
    refine .inl ((tally_now_same ?_).trans rfl)
    rw [hdoing]
    rfl
  | durable other nth hdoing => exact tally_beginSave h hkept _ (by rw [hdoing]; rfl)
  | due other nth time hdoing =>
    have hnow : ((s.withMark other (s.count config other time).1).now t (.due other nth)).tally key =
        (s.withMark other (s.count config other time).1).tally key :=
      tally_now_same (by simp only [withMark, hdoing]; rfl)
    by_cases heq : key = other
    · subst heq
      right
      rw [hnow, tally_withMark, count_pending]
      exact .bump _
    · exact .inl (hnow.trans (tally_withMark_of_ne heq _))
  | counted other nth time hdoing hroom =>
    have hnow : ((s.withMark other (s.count config other time).1).now t .idle).tally key =
        (s.withMark other (s.count config other time).1).tally key :=
      tally_now_same (by simp only [withMark, hdoing]; rfl)
    by_cases heq : key = other
    · subst heq
      right
      by_cases hdone : nth ≤ s.onDisk key
      · rw [tally_acknowledge fun _ => hdone, hnow, tally_withMark, count_pending]
        exact .bump _
      · rw [tally_acknowledge_behind rfl (Nat.lt_of_not_le hdone), hnow, tally_withMark,
          count_pending]
        refine .add _ t ?_ (pending_of_count hroom)
        rw [mem_armed, hdoing]
        exact Bool.false_ne_true
    · left
      rw [tally_acknowledge fun hkey => absurd hkey.symm heq, hnow, tally_withMark_of_ne heq]
  | flushed other nth hdoing =>
    refine tally_flush h hkept other fun hne => ?_
    rw [hdoing]
    exact decide_eq_false hne.symm
  | freshMark other nth time hdoing =>
    rw [hdoing] at hdo
    by_cases heq : key = other
    · subst heq
      refine .inr (step_of_reset (t := t) (by rw [hdoing]; exact decide_eq_true rfl) ?_)
      have hdone : nth ≤ s.onDisk key := hdo.2 hkept
      rw [tally_acknowledge fun _ => hdone, tally_now_off rfl, tally_withMark]
      rfl
    · left
      rw [tally_acknowledge fun hkey => absurd hkey.symm heq, tally_now_same ?_,
        tally_withMark_of_ne heq]
      simp only [withMark, hdoing]
      exact (decide_eq_false (Ne.symm heq)).symm
  | waits => exact .inl rfl
  | begins hdoing => exact tally_beginSave h hkept _ (by rw [hdoing]; rfl)
  | saveNext other began noted rest hdoing hin =>
    refine tally_flush h hkept other fun hne => ?_
    rw [hdoing]
    simp only [Flushing.armed, List.mem_erase_of_ne hne]
  | saved began time hdoing =>
    refine .inr (step_of_reset (t := t) (by rw [hdoing]; rfl) ?_)
    rw [tally_now_off rfl]
    rfl
  | savedNoted began other nth time hdoing =>
    rw [hdoing] at hdo
    refine .inr (step_of_reset (t := t) (by rw [hdoing]; rfl) ?_)
    have hdone : other = key → nth ≤ s.onDisk key := by
      rintro rfl
      exact Nat.le_trans (hdo.2 other nth rfl)
        (((hdo.1 other).2 hkept).resolve_right List.not_mem_nil)
    rw [tally_acknowledge hdone, tally_now_off rfl]
    rfl
  | failed =>
    right
    rw [tally_now_off rfl]
    exact .leave _ t

/-! ## What an acknowledgement promises -/

omit [Fintype T] in
theorem lost_of_moves {config : FlushConfig} (hmoves : Moves config s t s')
    (hkept : key ∉ s'.lost) : key ∉ s.lost := by
  cases hmoves with
  | dropped other => exact fun hin => hkept (List.mem_cons_of_mem _ hin)
  | leftOut other => exact fun hin => hkept (List.mem_cons_of_mem _ hin)
  | evicted other => exact flushHandle_lost s other ▸ hkept
  | flushed other nth hdoing => exact flushHandle_lost s other ▸ hkept
  | saveNext other began noted rest hdoing hin => exact flushHandle_lost s other ▸ hkept
  | _ => exact hkept

theorem Reachable.bounded {config : FlushConfig} (h : Reachable config s) (hkept : key ∉ s.lost) :
    (s.tally key).Bounded (config.flushMaxPending - 1) := by
  induction h with
  | start => exact .init _ _
  | step t a hreach hstep ih =>
    have hmoves := moves_of_perform hstep
    have hkept' := lost_of_moves hmoves hkept
    rcases tally_moves hreach.sound hmoves hkept' with hsame | hmore
    · rw [hsame]
      exact ih hkept'
    · exact (ih hkept').step hmore

/-- A durable write is acknowledged when a save that began after it has come to its end, and what
had been changed when such a save began is on disk. Of one file's acknowledged writes no more are
still in memory than one batch for each connection, less the one that fills it. Of what is on disk
nothing is said for a file that a failed flush has cost a change. -/
theorem acknowledged_writes {config : FlushConfig} (h : Reachable config s) :
    (∀ a ∈ s.acks, ∀ began, a.durable = some began → a.change ≤ began a.key ∧ began ∈ s.saves) ∧
    (∀ began ∈ s.saves, ∀ key, key ∉ s.lost → began key ≤ s.onDisk key) ∧
    ∀ key, key ∉ s.lost →
      (s.behind key).length ≤ Fintype.card T * (config.flushMaxPending - 1) :=
  ⟨h.sound.durable, h.sound.saved, fun _ hkept => (h.bounded hkept).le⟩

/-! ### Two connections and a batch of two -/

/-- Steps of connections, one after the other. -/
def runAll (config : FlushConfig) : Batch T → List (T × BatchAction) → Option (Batch T)
  | s, [] => some s
  | s, (t, a) :: rest => (a.perform config s t).bind fun s => runAll config s rest

omit [Fintype T] in
theorem Reachable.runAll {config : FlushConfig} (h : Reachable config s)
    {steps : List (T × BatchAction)} (hrun : s.runAll config steps = some s') :
    Reachable config s' := by
  induction steps generalizing s with
  | nil => exact Option.some.inj hrun ▸ h
  | cons step rest ih =>
    obtain ⟨s₁, hstep, hrest⟩ := Option.bind_eq_some_iff.mp hrun
    exact ih (.step step.1 step.2 h hstep) hrest

end Batch

def pairs : FlushConfig := ⟨2, 1000⟩

def orders : TableKey := ("SYSTEM", "ORDERS")

def journal : TableKey := ("SYSTEM", "JOURNAL")

def letters : TableKey := ("SYSTEM", "LETTERS")

/-- A durable write to `journal`, then both connections write `orders` out, and each goes on before
the other has started the batch afresh. In between the cache drops `letters`, whose flush failed. -/
def overlapping : List (Bool × BatchAction) :=
  [(true, .load orders), (true, .load journal), (false, .load letters),
    (true, .change journal), (true, .note true 0), (true, .saveNext orders),
    (true, .saveNext letters), (true, .saveNext journal), (true, .saved 0),
    (false, .change letters), (false, .note false 0), (true, .drop letters),
    (true, .change orders), (true, .note false 1),
    (false, .change orders), (false, .note false 1), (false, .flush),
    (true, .change orders), (true, .note false 1), (true, .flush),
    (true, .freshMark 2), (true, .change orders), (true, .note false 2),
    (false, .freshMark 2), (false, .change orders), (false, .note false 2)]

/-- What the run leaves in memory, the changes its acknowledgements were for, and what it lost. -/
def overlapped : Option (List Nat × List Nat × List TableKey) :=
  (Batch.runAll pairs {} overlapping).map fun s =>
    ((s.behind orders).map Acknowledged.change, s.acks.map Acknowledged.change, s.lost)

theorem overlapping_behind : ∃ s : Batch Bool, Batch.Reachable pairs s ∧
    (s.behind orders).map Acknowledged.change = [5, 4] ∧
    s.acks.map Acknowledged.change = [5, 2, 4, 3, 1, 1, 1] ∧
    (s.behind orders).length ≤ Fintype.card Bool * (pairs.flushMaxPending - 1) := by
  have hrun : overlapped = some ([5, 4], [5, 2, 4, 3, 1, 1, 1], [letters]) := by decide +kernel
  obtain ⟨s, hs, hends⟩ := Option.map_eq_some_iff.mp hrun
  obtain ⟨hbehind, hends⟩ := Prod.mk.inj hends
  obtain ⟨hacks, hlost⟩ := Prod.mk.inj hends
  have hreach : Batch.Reachable pairs s := .runAll .start hs
  refine ⟨s, hreach, hbehind, hacks, (Batch.acknowledged_writes hreach).2.2 orders ?_⟩
  rw [hlost]
  decide

end RustyPick
