import RustyPick.DeadLetters

/-!
# RustyPick.LettersKept

No record is lost on its way to the dead-letter file, in the runs in which `Careful` holds at every
step.

`Tracked` is the invariant of one record: where it may be in memory, and on which disk it is. The
queue's disk may give it up only once the other disk has it.

* `letters_kept`: what holds of every record once on disk, in memory and after a crash.
* `letter_lost`: a run in which a letter is refused, and one in which the queue reaches the disk
  first.
-/

namespace RustyPick

open Lib

/-! ## A file and its disk -/

structure LetterFile.Kept (f : LetterFile) : Prop where
  data : ∃ D, Holds f.disk f.table.dataMeta D ∧
    CoversChanges f.table.savedKeys D (storedForm f.table.records)
  hashed : f.table.legacyData = false

/-- A save that has come some way: of each record, the disk has what it had or what memory has. -/
structure Saves (f f' : LetterFile) : Prop where
  records : f'.table.records = f.table.records
  order : f'.table.queue = f.table.queue
  each : ∀ k, f'.onDisk k = f.onDisk k ∨
    f'.onDisk k = f.table.records[k]?.map Record.stored

section

variable {f f' : LetterFile} {order : SaveOrder} {perGroup : Nat}

theorem onDisk_of_load {m : SectionMeta} {map : Entries} (h : load f.disk = .ok (m, map))
    (k : String) : f.onDisk k = map[k]? := by
  rw [LetterFile.onDisk, h]

theorem onDisk_of_holds {m : SectionMeta} {D : Entries} (h : Holds f.disk m D) (k : String) :
    f.onDisk k = D[k]? := onDisk_of_load (load_of_holds h) k

theorem LetterFile.Kept.marks {t : Table} (h : f.Kept) (hm : Marks f.table t) :
    LetterFile.Kept { f with table := t } := by
  obtain ⟨D, hold, hcovers⟩ := h.data
  refine ⟨⟨D, by rw [hm.dataMeta]; exact hold, ?_⟩, by rw [hm.legacyData]; exact h.hashed⟩
  intro keys hkeys k hk
  unfold Table.savedKeys at hkeys hcovers
  dsimp only at hkeys hk
  rw [hm.dirtyAll, hm.legacyData] at hkeys
  split at hkeys
  · cases hkeys
  · rename_i hall
    rw [if_neg hall] at hcovers
    cases hkeys
    by_cases hsame : t.records[k]? = f.table.records[k]?
    · apply hm.keys
      apply hcovers _ rfl k
      rw [getElem?_storedForm] at hk ⊢
      rw [← hsame]
      exact hk
    · exact hm.changed k hsame

/-- A key that is not marked is on disk as memory has it. -/
theorem LetterFile.Kept.onDisk_eq (h : f.Kept) {k : String} (hall : f.table.dirtyAll = false)
    (hk : k ∉ f.table.dirtyKeys) : f.onDisk k = f.table.records[k]?.map Record.stored := by
  obtain ⟨D, hold, hcovers⟩ := h.data
  have hsaved : f.table.savedKeys = some f.table.dirtyKeys := by
    simp [Table.savedKeys, hall, h.hashed]
  rw [onDisk_of_holds hold, ← getElem?_storedForm]
  by_contra hne
  exact hk (hcovers _ hsaved k hne)

/-- The records on disk after a flush that wrote them all. -/
theorem LetterFile.Kept.written (h : f.Kept) (hr : f.Readable) {steps : List FileStep}
    {written : SectionMeta} (hsteps : f.saveSteps order perGroup = (steps, some (.ok written))) :
    Holds (f.disk.performAll steps) written (storedForm f.table.records) := by
  obtain ⟨D, hold, hcovers⟩ := h.data
  unfold LetterFile.saveSteps at hsteps
  split at hsteps
  · exact holds_of_saveOk hold hcovers hr.1 hr.2 hsteps
  · rename_i hclean
    have hclean : f.table.dirtyAll = false ∧ f.table.dirtyKeys = ∅ := by
      simpa [Table.recordsDirty] using hclean
    have hsaved : f.table.savedKeys = some ∅ := by
      simp [Table.savedKeys, hclean.1, hclean.2, h.hashed]
    cases hsteps
    exact hcovers.eq hsaved ▸ hold

/-- A file whose disk holds its records, whatever is still marked. -/
theorem saves_of_holds {t : Table} {dir : SectionDir}
    (hold : Holds dir t.dataMeta (storedForm t.records)) (hashed : t.legacyData = false) (hrec : t.records = f.table.records)
    (hq : t.queue = f.table.queue) :
    LetterFile.Kept ⟨t, dir⟩ ∧ Saves f ⟨t, dir⟩ := by
  refine ⟨⟨⟨_, hold, fun _ _ k hk => absurd rfl hk⟩, hashed⟩, hrec, hq, fun k => Or.inr ?_⟩
  rw [← hrec]
  exact (onDisk_of_holds hold k).trans (getElem?_storedForm _ k)

theorem flush_saves (h : f.Kept) (hr : f.Readable) (hflush : f.flush order perGroup = some f') :
    f'.Kept ∧ Saves f f' := by
  unfold LetterFile.flush at hflush
  split at hflush
  · rename_i steps written hsteps
    cases hflush
    exact saves_of_holds (h.written hr hsteps) rfl rfl rfl
  · cases hflush

/-- Stopped anywhere, a save has taken a prefix of the steps that save the stored form. -/
theorem take_prefix_stored (order : SaveOrder) (perGroup : Nat) (M : Entries)
    (previous : SectionMeta) (dirty : Option (Finset String)) (dir : SectionDir) (steps : Nat) :
    (saveWithFsync order dir M previous dirty perGroup).1.take steps <+:
      (saveWithFsync order dir (storedForm M) previous dirty perGroup).1 := by
  rw [saveWithFsync_stored]
  exact List.take_prefix _ _

/-- A save cut short over an unchanged number of groups. -/
theorem cut_saves (h : f.Kept) (hr : f.Readable) {steps : Nat}
    (hplan : f.table.recordsDirty = true →
      planModulus f.table.dataMeta.modulus f.table.records.size perGroup =
        some f.table.dataMeta.modulus)
    (hshort : ¬ (f.saveSteps order perGroup).1.length ≤ steps) :
    LetterFile.Kept { f with disk := f.cut order perGroup steps } ∧
      Saves f { f with disk := f.cut order perGroup steps } := by
  obtain ⟨D, hold, hcovers⟩ := h.data
  suffices hdone : ∃ D', Holds (f.cut order perGroup steps) f.table.dataMeta D' ∧
      ∀ k : String, D'[k]? = D[k]? ∨ D'[k]? = f.table.records[k]?.map Record.stored by
    obtain ⟨D', hold', heach⟩ := hdone
    refine ⟨⟨⟨D', hold', ?_⟩, h.hashed⟩, rfl, rfl, ?_⟩
    · intro keys hkeys k hk
      apply hcovers keys hkeys k
      rcases heach k with hk' | hk'
      · rw [← hk']
        exact hk
      · rw [getElem?_storedForm] at hk
        exact absurd hk' hk
    · intro k
      rw [onDisk_of_holds hold k]
      exact (heach k).imp ((onDisk_of_holds hold' k).trans ·) ((onDisk_of_holds hold' k).trans ·)
  unfold LetterFile.saveSteps at hshort
  unfold LetterFile.cut LetterFile.saveSteps
  split at hshort
  · rename_i hdirty
    have hplan := hplan hdirty
    rw [← size_storedForm] at hplan
    obtain ⟨visited, removals, hsp, -⟩ := savePlan order hold hcovers hplan
    have hsize : (storedForm f.table.records).size < 2 ^ 64 := by
      rw [size_storedForm]
      exact hr.2
    have hpre := take_prefix_stored order perGroup f.table.records f.table.dataMeta
      f.table.savedKeys f.disk steps
    rcases hsp.stopped hpre with hall | ⟨vs, rs, hint⟩
    · rw [saveWithFsync_stored] at hall
      exact absurd ((List.take_eq_self_iff _).mp hall) hshort
    · obtain ⟨D', hold', heach⟩ := holds_interrupted hold hint hsp hr.1.stored hsize
      rw [if_pos hdirty]
      refine ⟨D', hold', fun k => (heach k).imp id fun hk => ?_⟩
      rw [hk, ← getElem?_storedForm, storedForm_storedForm, getElem?_storedForm]
  · exact absurd (Nat.zero_le steps) hshort

theorem failFlush_saves (h : f.Kept) (hr : f.Readable) (steps : Nat)
    (hplan : f.table.recordsDirty = true →
      planModulus f.table.dataMeta.modulus f.table.records.size perGroup =
        some f.table.dataMeta.modulus) :
    (f.failFlush order perGroup steps).Kept ∧ Saves f (f.failFlush order perGroup steps) := by
  -- over what a load finds, a save that has a modulus goes through
  have hok : ∃ written, (f.saveSteps order perGroup).2 = some (.ok written) := by
    unfold LetterFile.saveSteps
    split
    · rename_i hdirty
      obtain ⟨D, hold, hcovers⟩ := h.data
      have hplan := hplan hdirty
      rw [← size_storedForm] at hplan
      obtain ⟨-, -, -, hret⟩ := savePlan order hold hcovers hplan
      rw [saveWithFsync_stored] at hret
      exact ⟨_, hret⟩
    · exact ⟨_, rfl⟩
  obtain ⟨written, hwritten⟩ := hok
  have hsteps : f.saveSteps order perGroup =
      ((f.saveSteps order perGroup).1, some (.ok written)) := Prod.ext rfl hwritten
  have hfail : f.failFlush order perGroup steps =
      if (f.saveSteps order perGroup).1.length ≤ steps then
        { table := { f.table with dataMeta := written, legacyData := false }
          disk := f.disk.performAll (f.saveSteps order perGroup).1 }
      else { f with disk := f.cut order perGroup steps } := by
    unfold LetterFile.failFlush
    rw [hsteps]
  rw [hfail]
  split
  · exact saves_of_holds (h.written hr hsteps) rfl rfl rfl
  · rename_i hshort
    exact cut_saves h hr hplan hshort

end

/-! ## Letters taken in -/

theorem queueFile_records (t : Table) (persisted : PersistedQueue) :
    (t.queueFile persisted).records = t.records := by
  unfold Table.queueFile
  split
  · rfl
  · rfl
  · unfold Table.attachQueue
    split <;> rfl

theorem adoptLetters_records (letters : List DeadLetter) : ∀ t : Table,
    (t.adoptLetters letters).records =
      insertAll t.records (letters.map fun l => (l.key, l.record)) := by
  induction letters with
  | nil => intro t; rfl
  | cons l letters ih =>
    intro t
    have hcons : t.adoptLetters (l :: letters) = (t.adoptLetter l).adoptLetters letters := rfl
    rw [hcons, ih, List.map_cons, insertAll_cons]
    rfl

/-- Of each key the file has a letter's record, or what it had. -/
theorem adoptLetters_each (letters : List DeadLetter) (t : Table) (k : String) :
    (∃ l ∈ letters, l.key = k ∧ (t.adoptLetters letters).records[k]? = some l.record) ∨
      ((∀ l ∈ letters, l.key ≠ k) ∧ (t.adoptLetters letters).records[k]? = t.records[k]?) := by
  rw [adoptLetters_records]
  by_cases hin : ∃ l ∈ letters, l.key = k
  · obtain ⟨l, hl, rfl⟩ := hin
    have hmem : l.key ∈ insertAll (∅ : Entries) (letters.map fun l => (l.key, l.record)) :=
      mem_insertAll.mpr (Or.inl ⟨l.record, List.mem_map.mpr ⟨l, hl, rfl⟩⟩)
    obtain ⟨r, hr⟩ := mem_iff_exists.mp hmem
    rcases of_getElem?_insertAll hr with hin | hin
    · obtain ⟨l', hl', heq⟩ := List.mem_map.mp hin
      simp only [Prod.mk.injEq] at heq
      refine Or.inl ⟨l', hl', heq.1, ?_⟩
      rw [getElem?_insertAll, hr, heq.2, Option.some_or]
    · simp at hin
  · have hnone : ∀ l ∈ letters, l.key ≠ k := fun l hl he => hin ⟨l, hl, he⟩
    refine Or.inr ⟨hnone, getElem?_insertAll_of_ne ?_ _⟩
    intro e he
    obtain ⟨l, hl, rfl⟩ := List.mem_map.mp he
    exact hnone l hl

/-! ## The store between steps -/

structure LetterStore.Kept (s : LetterStore) : Prop where
  queue : s.queue.Kept
  dead : s.dead.Kept
  order : ∀ q, s.queue.table.queue = some q → ∃ f, Ordered f q s.queue.table

/-- Where the record `r`, once on disk under `k`, may be. `r` is in its stored form. -/
structure Tracked (s : LetterStore) (k : String) (r : Record) : Prop where
  /-- Out of the records, the key is out of the order. -/
  placed : ∀ q, s.queue.table.queue = some q → ∃ f, Ordered f q s.queue.table ∧
    (k ∉ s.queue.table.records → f k = .absent)
  queued : k ∈ s.queue.table.records → s.queue.table.records[k]?.map Record.stored = some r
  carried : ∀ l, s.InHand l → l.key = k → l.record.stored = r
  somewhere : k ∈ s.queue.table.records ∨ (∃ l, s.InHand l ∧ l.key = k) ∨
    s.dead.table.records[k]?.map Record.stored = some r
  onDisk : s.queue.onDisk k = some r ∨
    (s.dead.onDisk k = some r ∧ s.dead.table.records[k]?.map Record.stored = some r)

section

variable {name : String} {s s' : LetterStore} {k : String} {r : Record}

/-- What a section leaves of the order, while `k` is not settled. -/
theorem placed_effect {f f' : String → Place} {q q' : QueueState} {t t' : Table} {now : Nat}
    {a : QueueAction} {out : QueueOutcome} (h : Ordered f q t)
    (heff : Effect name f q t now a out f' q' t') (hk : ¬ a.disposes out k)
    (habs : k ∉ t.records → f k = .absent) (hout : k ∉ t'.records) : f' k = .absent := by
  have hswept : ∀ policy, k ∉ (t.takeExpired now policy).2.records →
      swept f q policy now k = .absent := by
    intro policy hnot
    obtain ⟨-, -, -, hrecs⟩ := takeExpired_spec h now policy
    by_cases hin : k ∈ t.records
    · by_contra hne
      obtain ⟨r, hr⟩ := mem_iff_exists.mp hin
      refine hnot (mem_of_getElem? (v := r) ?_)
      rw [hrecs, if_neg (fun hc => hne hc.2), hr]
    · simp [swept, habs hin, Place.sweep]
  cases heff with
  | idle => exact habs hout
  | repair hrec _ =>
    rw [hrec] at hout
    by_contra hne
    exact hout ((files_repaired f t k).mp hne)
  | enqueue record due hrec _ =>
    have hne : k ≠ formatKey (q.sequence.upcoming now) := fun he => hk he.symm
    rw [Function.update_of_ne hne]
    apply habs
    intro hin
    rw [hrec] at hout
    exact hout (Std.ExtTreeMap.mem_insert.mpr (Or.inr hin))
  | sweep policy _ _ hrec =>
    rw [hrec] at hout
    exact hswept policy hout
  | claim owner visibility own policy delivery _ _ hrec havail =>
    rw [hrec] at hout
    have hgone := hswept policy hout
    have hne : k ≠ delivery.key := by
      rintro rfl
      rw [hgone] at havail
      cases havail
    rw [Function.update_of_ne hne]
    exact hgone
  | ack key owner hheld hrec _ =>
    have hne : k ≠ key := fun he => hk he.symm
    rw [Function.update_of_ne hne]
    apply habs
    intro hin
    rw [hrec] at hout
    exact hout (Std.ExtTreeMap.mem_erase.mpr ⟨by simpa using Ne.symm hne, hin⟩)
  | nack key owner policy due hheld hrec _ =>
    by_cases he : k = key
    · subst he
      rw [Function.update_self]
      by_cases hmax : (effectivePolicy name policy).maxDeliveries ≤ q.deliveriesOf k
      · exact if_pos hmax
      · rw [hrec, if_neg hmax] at hout
        exact absurd hheld.1 hout
    · rw [Function.update_of_ne he]
      apply habs
      intro hin
      apply hout
      rw [hrec]
      split
      · exact Std.ExtTreeMap.mem_erase.mpr ⟨by simpa using Ne.symm he, hin⟩
      · exact hin
  | delete key hrec =>
    have hne : key ≠ k := hk
    apply habs
    intro hin
    rw [hrec] at hout
    exact hout (Std.ExtTreeMap.mem_erase.mpr ⟨by simpa using hne, hin⟩)

/-- A table without an order hands nothing out. -/
theorem perform_letters_unattached {t t' : Table} {now : Nat} {a : QueueAction}
    {out : QueueOutcome} (h : t.queue = none) (hp : a.perform name t now = some (out, t'))
    (hk : ¬ a.disposes out k) :
    a.letters name t now = [] ∧ t'.records[k]? = t.records[k]? ∧
      ∀ q, t'.queue = some q → ∃ f, Ordered f q t' ∧ (k ∉ t'.records → f k = .absent) := by
  obtain ⟨-, ⟨persisted, rfl, rfl⟩ | ⟨rfl | ⟨wanted, rfl⟩, rfl⟩ | ⟨key, rfl, rfl⟩⟩ :=
    perform_without_order h hp
  · have hatt := filed_attach h persisted
    have hrec : (t.attachQueue persisted).records = t.records := by simp [Table.attachQueue, h]
    refine ⟨rfl, by rw [hrec], fun q hq => ?_⟩
    rw [hatt.ordered.queue] at hq
    cases hq
    exact ⟨_, hatt.ordered, fun hnot => by_contra fun hne => hnot ((hatt.files k).mp hne)⟩
  · exact ⟨rfl, rfl, fun q hq => by cases h.symm.trans hq⟩
  · exact ⟨rfl, rfl, fun q hq => by cases h.symm.trans hq⟩
  · refine ⟨rfl, getElem?_erase_ne _ hk, fun q hq => ?_⟩
    cases h.symm.trans hq

theorem inHand_command {client : String} {letters : List DeadLetter} (hclient : client ∉ s.hands)
    (f : LetterFile) (l : DeadLetter) :
    LetterStore.InHand { s with
      queue := f
      hands := if letters.isEmpty then s.hands else s.hands.insert client letters } l ↔
      s.InHand l ∨ l ∈ letters := by
  unfold LetterStore.InHand
  dsimp only
  split
  · rename_i hempty
    rw [List.isEmpty_iff] at hempty
    simp [hempty]
  · constructor
    · rintro ⟨c, ls, hls, hl⟩
      rw [getElem?_insert_eq] at hls
      split at hls
      · cases hls
        exact Or.inr hl
      · exact Or.inl ⟨c, ls, hls, hl⟩
    · rintro (⟨c, ls, hls, hl⟩ | hl)
      · have hne : client ≠ c := by
          rintro rfl
          exact hclient (mem_of_getElem? hls)
        exact ⟨c, ls, by rw [getElem?_insert_ne _ _ hne]; exact hls, hl⟩
      · exact ⟨client, letters, by simp, hl⟩

theorem inHand_erase {client : String} {letters : List DeadLetter}
    (hclient : s.hands[client]? = some letters) (l : DeadLetter) :
    s.InHand l ↔ LetterStore.InHand { s with hands := s.hands.erase client } l ∨ l ∈ letters := by
  unfold LetterStore.InHand
  dsimp only
  constructor
  · rintro ⟨c, ls, hls, hl⟩
    by_cases hc : client = c
    · subst hc
      rw [hclient] at hls
      cases hls
      exact Or.inr hl
    · exact Or.inl ⟨c, ls, by rw [getElem?_erase_ne _ hc]; exact hls, hl⟩
  · rintro (⟨c, ls, hls, hl⟩ | hl)
    · rw [getElem?_erase_eq] at hls
      split at hls
      · cases hls
      · exact ⟨c, ls, hls, hl⟩
    · exact ⟨client, letters, hclient, hl⟩

/-- A section of a command that does not settle the record. -/
theorem Tracked.command (h : Tracked s k r) {t' : Table} {now : Nat} {a : QueueAction}
    {out : QueueOutcome} {client : String} (hp : a.perform name s.queue.table now = some (out, t'))
    (hclient : client ∉ s.hands) (hk : ¬ a.disposes out k) :
    Tracked { s with
      queue := { s.queue with table := t' }
      hands := if (a.letters name s.queue.table now).isEmpty then s.hands
        else s.hands.insert client (a.letters name s.queue.table now) } k r := by
  -- the order keeps no place for a key whose record has gone, and a letter is what the record was
  have hsection : (∀ q, t'.queue = some q → ∃ f, Ordered f q t' ∧ (k ∉ t'.records → f k = .absent)) ∧
      (t'.records[k]? = s.queue.table.records[k]? ∨
        (t'.records[k]? = none ∧ ∃ l ∈ a.letters name s.queue.table now, l.key = k)) ∧
      ∀ l ∈ a.letters name s.queue.table now, l.key = k →
        s.queue.table.records[k]? = some l.record := by
    cases hq : s.queue.table.queue with
    | none =>
      obtain ⟨hnone, hrec, hplaced⟩ := perform_letters_unattached hq hp hk
      refine ⟨hplaced, Or.inl hrec, fun l hl => ?_⟩
      rw [hnone] at hl
      cases hl
    | some q =>
      obtain ⟨f, hord, habs⟩ := h.placed q hq
      obtain ⟨f', q', hord', heff⟩ := perform_effect hord hp
      have hout := perform_letters hord hp hk
      refine ⟨fun q₁ hq₁ => ?_, hout.left, fun l hl hlk => ?_⟩
      · rw [hord'.queue] at hq₁
        cases hq₁
        exact ⟨f', hord', placed_effect hord heff hk habs⟩
      · obtain ⟨hplace, hrecord⟩ := hout.asWas l hl hlk
        have hin : k ∈ s.queue.table.records := by_contra fun hnot => hplace (habs hnot)
        obtain ⟨r', hr'⟩ := mem_iff_exists.mp hin
        rw [hr'] at hrecord ⊢
        rw [hrecord]
        rfl
  obtain ⟨hplaced, hleft, hletters⟩ := hsection
  refine ⟨hplaced, fun hin => ?_, fun l hl hlk => ?_, ?_, h.onDisk⟩
  · rcases hleft with hsame | ⟨hnone, -⟩
    · show t'.records[k]?.map Record.stored = some r
      rw [hsame]
      apply h.queued
      rw [Std.ExtTreeMap.mem_iff_isSome_getElem?, ← hsame, ← Std.ExtTreeMap.mem_iff_isSome_getElem?]
      exact hin
    · obtain ⟨r', hr'⟩ := mem_iff_exists.mp hin
      cases hnone.symm.trans hr'
  · rcases (inHand_command hclient _ l).mp hl with hl | hl
    · exact h.carried l hl hlk
    · have hrecord := hletters l hl hlk
      have := h.queued (mem_of_getElem? hrecord)
      rw [hrecord] at this
      exact Option.some.inj this
  · rcases h.somewhere with hin | ⟨l, hl, hlk⟩ | hdead
    · rcases hleft with hsame | ⟨-, l, hl, hlk⟩
      · left
        show k ∈ t'.records
        rw [Std.ExtTreeMap.mem_iff_isSome_getElem?, hsame, ← Std.ExtTreeMap.mem_iff_isSome_getElem?]
        exact hin
      · exact Or.inr (Or.inl ⟨l, (inHand_command hclient _ l).mpr (Or.inr hl), hlk⟩)
    · exact Or.inr (Or.inl ⟨l, (inHand_command hclient _ l).mpr (Or.inl hl), hlk⟩)
    · exact Or.inr (Or.inr hdead)

/-- Letters taken in by the dead-letter file. -/
theorem Tracked.buried (h : Tracked s k r) {client : String} {letters : List DeadLetter}
    (hclient : s.hands[client]? = some letters) (persisted : PersistedQueue) :
    Tracked { s with
      hands := s.hands.erase client
      kind := some .queue
      dead := { s.dead with
        table := (s.dead.table.queueFile persisted).adoptLetters letters } } k r := by
  have hcarried : ∀ l ∈ letters, l.key = k → l.record.stored = r :=
    fun l hl => h.carried l ((inHand_erase hclient l).mpr (Or.inr hl))
  have heach := adoptLetters_each letters (s.dead.table.queueFile persisted) k
  rw [queueFile_records] at heach
  have hkeeps : s.dead.table.records[k]?.map Record.stored = some r →
      ((s.dead.table.queueFile persisted).adoptLetters letters).records[k]?.map Record.stored =
        some r := by
    intro hdead
    rcases heach with ⟨l, hl, hlk, hrec⟩ | ⟨-, hrec⟩
    · rw [hrec, Option.map_some, hcarried l hl hlk]
    · rw [hrec]
      exact hdead
  refine ⟨h.placed, h.queued, fun l hl => ?_, ?_, ?_⟩
  · exact h.carried l ((inHand_erase hclient l).mpr (Or.inl hl))
  · rcases h.somewhere with hin | ⟨l, hl, hlk⟩ | hdead
    · exact Or.inl hin
    · rcases (inHand_erase hclient l).mp hl with hl | hl
      · exact Or.inr (Or.inl ⟨l, hl, hlk⟩)
      · refine Or.inr (Or.inr ?_)
        rcases heach with ⟨l', hl', hlk', hrec⟩ | ⟨hnone, -⟩
        · show Option.map _ _ = _
          rw [hrec, Option.map_some, hcarried l' hl' hlk']
        · exact absurd hlk (hnone l hl)
    · exact Or.inr (Or.inr (hkeeps hdead))
  · exact h.onDisk.imp id fun hd => ⟨hd.1, hkeeps hd.2⟩

/-- What the queue's disk gives up, the other disk has. -/
theorem Tracked.dead_onDisk (h : Tracked s k r) (hkept : s.Kept) (hnone : s.NoneCrossing)
    (hnot : k ∉ s.queue.table.records) :
    s.dead.onDisk k = some r ∧ s.dead.table.records[k]?.map Record.stored = some r := by
  rcases h.onDisk with hq | hd
  · have hcross := hnone k (by rw [hq]; exact Option.some_ne_none r)
    have hdead : s.dead.table.records[k]?.map Record.stored = some r := by
      rcases h.somewhere with hin | hl | hdead
      · exact absurd hin hnot
      · exact absurd (Or.inl hl) hcross
      · exact hdead
    have hall : s.dead.table.dirtyAll = false := by
      by_contra hall
      exact hcross (Or.inr (Or.inl (by simpa using hall)))
    have hkey : k ∉ s.dead.table.dirtyKeys := fun hc => hcross (Or.inr (Or.inr hc))
    rw [hkept.dead.onDisk_eq hall hkey]
    exact ⟨hdead, hdead⟩
  · exact hd

/-- On one disk or the other, while a save of the queue is on its way. -/
theorem Tracked.queue_each (h : Tracked s k r) (hkept : s.Kept) (hnone : s.NoneCrossing)
    {found : Option Record} (heach : found = s.queue.onDisk k ∨
      found = s.queue.table.records[k]?.map Record.stored) :
    found = some r ∨
      (s.dead.onDisk k = some r ∧ s.dead.table.records[k]?.map Record.stored = some r) := by
  by_cases hin : k ∈ s.queue.table.records
  · rcases heach with rfl | rfl
    · exact h.onDisk
    · exact Or.inl (h.queued hin)
  · exact Or.inr (h.dead_onDisk hkept hnone hin)

theorem Tracked.saveQueue (h : Tracked s k r) (hkept : s.Kept) (hnone : s.NoneCrossing)
    {f : LetterFile} (hs : Saves s.queue f) : Tracked { s with queue := f } k r := by
  refine ⟨?_, ?_, h.carried, ?_, h.queue_each hkept hnone (hs.each k)⟩
  · intro q hq
    dsimp only at hq ⊢
    rw [hs.order] at hq
    obtain ⟨g, hord, habs⟩ := h.placed q hq
    rw [hs.records]
    exact ⟨g, ⟨by rw [hs.order]; exact hord.queue, hord.places, hord.due⟩, habs⟩
  · dsimp only
    rw [hs.records]
    exact h.queued
  · dsimp only
    rw [hs.records]
    exact h.somewhere

theorem Tracked.saveDead (h : Tracked s k r) {f : LetterFile} (hs : Saves s.dead f) :
    Tracked { s with dead := f } k r := by
  refine ⟨h.placed, h.queued, h.carried, ?_, ?_⟩
  · dsimp only
    rw [hs.records]
    exact h.somewhere
  · dsimp only
    rw [hs.records]
    refine h.onDisk.imp id fun hd => ⟨?_, hd.2⟩
    rcases hs.each k with heach | heach
    · rw [heach]
      exact hd.1
    · rw [heach]
      exact hd.2

theorem LetterStore.Kept.setFile (h : s.Kept) {side : LetterSide} {f : LetterFile} (hf : f.Kept)
    (hs : Saves (s.file side) f) : (s.setFile side f).Kept := by
  cases side with
  | dead => exact ⟨h.queue, hf, h.order⟩
  | queue =>
    refine ⟨hf, h.dead, fun q hq => ?_⟩
    have horder : f.table.queue = s.queue.table.queue := hs.order
    obtain ⟨g, hord⟩ := h.order q (horder ▸ hq)
    exact ⟨g, ⟨hq, hord.places, hord.due⟩⟩

theorem LetterStore.Kept.step (h : s.Kept) {e : LetterEvent} (hok : Careful s e)
    (hp : e.action.perform name s e.reading = some (e.outcome, s')) : s'.Kept := by
  obtain ⟨now, action, outcome⟩ := e
  cases action with
  | command client a =>
    simp only [LetterAction.perform] at hp
    split at hp
    · cases hp
    · obtain ⟨⟨out, t'⟩, hrun, heq⟩ := Option.map_eq_some_iff.mp hp
      cases heq
      refine ⟨h.queue.marks (perform_marks hrun), h.dead, fun q hq => ?_⟩
      cases hqueue : s.queue.table.queue with
      | none =>
        rcases (perform_unattached hqueue hrun).2 with hnone | ⟨persisted, hatt⟩
        · cases hnone.symm.trans hq
        · have hfiled := filed_attach hqueue persisted
          rw [← hatt] at hfiled
          cases hfiled.ordered.queue.symm.trans hq
          exact ⟨_, hfiled.ordered⟩
      | some q₀ =>
        obtain ⟨f, hord⟩ := h.order q₀ hqueue
        obtain ⟨f', q', hord', -⟩ := perform_effect hord hrun
        cases hord'.queue.symm.trans hq
        exact ⟨f', hord'⟩
  | bury client persisted failure =>
    simp only [LetterAction.perform, Option.some.injEq, Prod.mk.injEq] at hp
    obtain ⟨-, rfl⟩ := hp
    unfold LetterStore.bury
    split
    · exact h
    · dsimp only
      split
      · exact ⟨h.queue, h.dead, h.order⟩
      · exact ⟨h.queue, h.dead, h.order⟩
      · split
        · exact ⟨h.queue, h.dead, h.order⟩
        · exact ⟨h.queue, h.dead.marks ((marks_queueFile _ persisted).trans
            (marks_adoptLetters _ _)), h.order⟩
  | flush side order perGroup =>
    obtain ⟨f, hf, heq⟩ := Option.map_eq_some_iff.mp hp
    cases heq
    have hread : (s.file side).Readable := hok.1
    have hfile : (s.file side).Kept := by
      cases side with
      | queue => exact h.queue
      | dead => exact h.dead
    obtain ⟨hkept, hs⟩ := flush_saves hfile hread hf
    exact h.setFile hkept hs
  | flushFails side order perGroup steps =>
    cases hp
    have hfile : (s.file side).Kept := by
      cases side with
      | queue => exact h.queue
      | dead => exact h.dead
    obtain ⟨hkept, hs⟩ := failFlush_saves hfile hok.1 steps hok.2.2
    exact h.setFile hkept hs

theorem Tracked.step (h : Tracked s k r) (hkept : s.Kept) {e : LetterEvent} (hok : Careful s e)
    (hp : e.action.perform name s e.reading = some (e.outcome, s')) (hk : ¬ e.settles k) :
    Tracked s' k r := by
  obtain ⟨now, action, outcome⟩ := e
  cases action with
  | command client a =>
    simp only [LetterAction.perform] at hp
    split at hp
    · cases hp
    · rename_i hclient
      obtain ⟨⟨out, t'⟩, hrun, heq⟩ := Option.map_eq_some_iff.mp hp
      cases heq
      exact h.command hrun hclient hk
  | bury client persisted failure =>
    simp only [LetterAction.perform, Option.some.injEq, Prod.mk.injEq] at hp
    obtain ⟨-, rfl⟩ := hp
    unfold LetterStore.bury
    split
    · exact h
    · rename_i letters hclient
      obtain ⟨hordinary, hdirectory, rfl⟩ := hok (mem_of_getElem? hclient)
      dsimp only
      split
      · rename_i hkind
        exact absurd hkind hdirectory
      · rename_i hkind
        exact absurd hkind hordinary
      · exact h.buried hclient persisted
  | flush side order perGroup =>
    obtain ⟨f, hf, heq⟩ := Option.map_eq_some_iff.mp hp
    cases heq
    cases side with
    | queue => exact h.saveQueue hkept (hok.2 rfl) (flush_saves hkept.queue hok.1 hf).2
    | dead => exact h.saveDead (flush_saves hkept.dead hok.1 hf).2
  | flushFails side order perGroup steps =>
    cases hp
    cases side with
    | queue =>
      exact h.saveQueue hkept (hok.2.1 rfl) (failFlush_saves hkept.queue hok.1 steps hok.2.2).2
    | dead => exact h.saveDead (failFlush_saves hkept.dead hok.1 steps hok.2.2).2

end

/-! ## Runs and crashes -/

/-- Where a crash stops the saves of the two files. -/
structure LetterCrash where
  order : SaveOrder
  perGroup : Nat
  queueSteps : Nat
  deadSteps : Nat

/-- No record of the file is in a group the old metadata does not reach, should the save stop. -/
def LetterFile.Steady (f : LetterFile) (perGroup : Nat) : Prop :=
  ∀ m', planModulus f.table.dataMeta.modulus f.table.records.size perGroup = some m' →
    f.table.dataMeta.modulus < m' → ∀ k, f.onDisk k ≠ none → k ∈ f.table.records →
      groupOf k m' = groupOf k f.table.dataMeta.modulus

/-- What a crash has to meet: as for a flush, of a file whose save had begun. -/
def LetterCrash.Careful (c : LetterCrash) (s : LetterStore) : Prop :=
  (0 < c.queueSteps → s.queue.Readable ∧ s.queue.Steady c.perGroup ∧ s.NoneCrossing) ∧
    (0 < c.deadSteps → s.dead.Readable ∧ s.dead.Steady c.perGroup)

/-- Both files load after the crash, and one of them has `r` under `k`. -/
def LetterCrash.Finds (c : LetterCrash) (s : LetterStore) (k : String) (r : Record) : Prop :=
  ∃ m m' queue dead, load (s.queue.cut c.order c.perGroup c.queueSteps) = .ok (m, queue) ∧
    load (s.dead.cut c.order c.perGroup c.deadSteps) = .ok (m', dead) ∧
    (queue[k]? = some r ∨ dead[k]? = some r)

/-- The record is in the queue and on its disk, and no client carries a letter of its key. -/
structure LetterStore.Flushed (s : LetterStore) (k : String) (r : Record) : Prop where
  queued : s.queue.table.records[k]? = some r
  onDisk : s.queue.onDisk k = some r.stored
  carried : ∀ l, s.InHand l → l.key ≠ k

/-- A file whose save stops anywhere loads, each record as it was on disk or as it is in memory. -/
theorem cut_loads {f : LetterFile} (order : SaveOrder) (perGroup steps : Nat) (h : f.Kept)
    (hok : 0 < steps → f.Readable ∧ f.Steady perGroup) :
    ∃ m map, load (f.cut order perGroup steps) = .ok (m, map) ∧
      ∀ k : String, map[k]? = f.onDisk k ∨ map[k]? = f.table.records[k]?.map Record.stored := by
  obtain ⟨D, hold, hcovers⟩ := h.data
  have hdisk : ∀ k : String, D[k]? = f.onDisk k := fun k => (onDisk_of_holds hold k).symm
  have hunmoved : (f.saveSteps order perGroup).1.take steps = [] →
      ∃ m map, load (f.cut order perGroup steps) = .ok (m, map) ∧
        ∀ k : String, map[k]? = f.onDisk k ∨ map[k]? = f.table.records[k]?.map Record.stored := by
    intro hnil
    rw [LetterFile.cut, hnil]
    exact ⟨_, _, load_of_holds hold, fun k => Or.inl (hdisk k)⟩
  rcases Nat.eq_zero_or_pos steps with rfl | hpos
  · exact hunmoved (List.take_zero ..)
  · by_cases hdirty : f.table.recordsDirty = true
    · have hsteps : f.saveSteps order perGroup = saveWithFsync order f.disk f.table.records
          f.table.dataMeta f.table.savedKeys perGroup := if_pos hdirty
      obtain ⟨⟨hfit, hsize⟩, hsteady⟩ := hok hpos
      cases hplan : planModulus f.table.dataMeta.modulus f.table.records.size perGroup with
      | none =>
        apply hunmoved
        rw [hsteps, saveWithFsync, hplan, List.take_nil]
      | some m' =>
        have hatomic : CrashAtomic order f.disk f.table.dataMeta D (storedForm f.table.records)
            f.table.savedKeys perGroup := by
          rw [← size_storedForm] at hplan hsize
          refine crashAtomic_of hold hcovers ⟨hsize, fun k r hr => ?_⟩ hplan ?_ ?_
          · exact (hfit.stored k r hr).addressable
          · intro k r hr
            refine ⟨hfit.stored k r hr, Or.inl ?_⟩
            rw [getElem?_storedForm] at hr
            obtain ⟨r₀, -, rfl⟩ := Option.map_eq_some_iff.mp hr
            exact Record.stored_stored r₀
          · intro hgrow k hkD hkM
            rw [size_storedForm] at hplan
            refine hsteady m' hplan hgrow k ?_ ?_
            · rw [← hdisk]
              obtain ⟨r, hr⟩ := mem_iff_exists.mp hkD
              rw [hr]
              exact Option.some_ne_none r
            · simpa [storedForm] using hkM
        obtain ⟨m, map, hload, heach⟩ := hatomic _ (take_prefix_stored order perGroup
          f.table.records f.table.dataMeta f.table.savedKeys f.disk steps)
        rw [LetterFile.cut, hsteps]
        refine ⟨m, map, hload, fun k => ?_⟩
        rw [← hdisk, ← getElem?_storedForm]
        exact heach k
    · apply hunmoved
      rw [LetterFile.saveSteps, if_neg hdirty, List.take_nil]

section

variable {name : String} {s s₁ s' : LetterStore} {k : String} {r : Record}

theorem LetterStore.Kept.run {es : List LetterEvent} (h : s.Kept)
    (hrun : LetterRun name Careful s es s') : s'.Kept := by
  induction hrun with
  | nil => exact h
  | cons hok hstep _ ih => exact ih (h.step hok hstep)

theorem Tracked.run {es : List LetterEvent} (h : Tracked s k r) (hkept : s.Kept)
    (hrun : LetterRun name Careful s es s') (hk : ∀ e ∈ es, ¬ e.settles k) : Tracked s' k r := by
  induction hrun with
  | nil => exact h
  | cons hok hstep _ ih =>
    exact ih (h.step hkept hok hstep (hk _ List.mem_cons_self)) (hkept.step hok hstep)
      fun e he => hk e (List.mem_cons_of_mem _ he)

theorem LetterStore.Flushed.tracked (h : s.Flushed k r) (hkept : s.Kept) :
    Tracked s k r.stored := by
  have hin : k ∈ s.queue.table.records := mem_of_getElem? h.queued
  refine ⟨fun q hq => ?_, fun _ => ?_, fun l hl hlk => absurd hlk (h.carried l hl), Or.inl hin,
    Or.inl h.onDisk⟩
  · obtain ⟨f, hord⟩ := hkept.order q hq
    exact ⟨f, hord, fun hnot => absurd hin hnot⟩
  · rw [h.queued, Option.map_some]

theorem Tracked.finds (h : Tracked s k r) (hkept : s.Kept) {c : LetterCrash} (hc : c.Careful s) :
    c.Finds s k r := by
  obtain ⟨m, queue, hqueue, hqeach⟩ := cut_loads c.order c.perGroup c.queueSteps hkept.queue
    fun hpos => ⟨(hc.1 hpos).1, (hc.1 hpos).2.1⟩
  obtain ⟨m', dead, hdead, hdeach⟩ := cut_loads c.order c.perGroup c.deadSteps hkept.dead hc.2
  refine ⟨m, m', queue, dead, hqueue, hdead, ?_⟩
  have hplaced : queue[k]? = some r ∨
      (s.dead.onDisk k = some r ∧ s.dead.table.records[k]?.map Record.stored = some r) := by
    rcases Nat.eq_zero_or_pos c.queueSteps with hzero | hpos
    · rw [hzero] at hqueue
      have hsame : queue[k]? = s.queue.onDisk k :=
        (onDisk_of_load (f := s.queue) (by simpa [LetterFile.cut] using hqueue) k).symm
      rw [hsame]
      exact h.onDisk
    · exact h.queue_each hkept (hc.1 hpos).2.2 (hqeach k)
  refine hplaced.imp id fun hd => ?_
  rcases hdeach k with heach | heach
  · rw [heach]
    exact hd.1
  · rw [heach]
    exact hd.2

/-- In every run whose steps are careful, a record once on the queue's disk and not settled since is
in the queue or in the dead-letter file, unless a client is still carrying it, and is found in one
of them after any crash that is careful too. -/
theorem letters_kept (name : String) {s s₁ s' : LetterStore} {pre post : List LetterEvent}
    {k : String} {r : Record} (hkept : s.Kept) (hpre : LetterRun name Careful s pre s₁)
    (hpost : LetterRun name Careful s₁ post s') (hflushed : s₁.Flushed k r)
    (hunsettled : ∀ e ∈ post, ¬ e.settles k) :
    ((∀ l, s'.InHand l → l.key ≠ k) →
      s'.queue.table.records[k]?.map Record.stored = some r.stored ∨
        s'.dead.table.records[k]?.map Record.stored = some r.stored) ∧
      ∀ c : LetterCrash, c.Careful s' → c.Finds s' k r.stored := by
  have hkept₁ := hkept.run hpre
  have htracked := (hflushed.tracked hkept₁).run hkept₁ hpost hunsettled
  refine ⟨fun hhands => ?_, fun c hc => htracked.finds (hkept₁.run hpost) hc⟩
  rcases htracked.somewhere with hin | ⟨l, hl, hlk⟩ | hdead
  · exact Or.inl (htracked.queued hin)
  · exact absurd hlk (hhands l hl)
  · exact Or.inr hdead

end

/-! ## Runs that can be evaluated -/

/-- A run of given actions, each with its reading of the clock, from states that pass a check. -/
def letterAll (name : String) (check : LetterStore → LetterAction → Bool) :
    LetterStore → List (Nat × LetterAction) → Option (List LetterEvent × LetterStore)
  | s, [] => some ([], s)
  | s, (now, a) :: rest =>
    if check s a then
      match a.perform name s now with
      | some (out, s') => (letterAll name check s' rest).map fun r =>
        ({ reading := now, action := a, outcome := out } :: r.1, r.2)
      | none => none
    else none

theorem letterRun_of_all {name : String} {check : LetterStore → LetterAction → Bool}
    {ok : LetterStore → LetterEvent → Prop} (hok : ∀ s e, check s e.action = true → ok s e) :
    ∀ {as : List (Nat × LetterAction)} {s s' : LetterStore} {es : List LetterEvent},
    letterAll name check s as = some (es, s') →
    LetterRun name ok s es s' ∧ es.map LetterEvent.action = as.map Prod.snd := by
  intro as
  induction as with
  | nil =>
    intro s s' es h
    cases h
    exact ⟨.nil s, rfl⟩
  | cons a rest ih =>
    intro s s' es h
    simp only [letterAll] at h
    split at h
    · rename_i hcheck
      split at h
      · rename_i out s₁ hstep
        obtain ⟨r, hr, heq⟩ := Option.map_eq_some_iff.mp h
        simp only [Prod.mk.injEq] at heq
        obtain ⟨rfl, rfl⟩ := heq
        obtain ⟨hrun, hactions⟩ := ih hr
        exact ⟨.cons (hok s _ hcheck) hstep hrun, by rw [List.map_cons, hactions, List.map_cons]⟩
      · cases h
    · cases h

/-- `Careful`, for a queue flushed with nothing on its way at all. -/
def carefulNow (s : LetterStore) : LetterAction → Bool
  | .command _ _ => true
  | .bury _ _ failure =>
    decide (s.kind ≠ some .ordinary) && decide (s.kind ≠ some .directory) && failure.isNone
  | .flush side _ _ =>
    (s.file side).table.records.toList.all (fun e => Fits e.1 e.2) &&
      decide ((s.file side).table.records.size < 2 ^ 64) && s.hands.isEmpty &&
      (side = .dead || !s.dead.table.recordsDirty)
  | .flushFails .. => false

theorem noneCrossing_of_none {s : LetterStore} (hands : s.hands.isEmpty = true)
    (hclean : s.dead.table.recordsDirty = false) : s.NoneCrossing := by
  have hclean : s.dead.table.dirtyAll = false ∧ s.dead.table.dirtyKeys = ∅ := by
    simpa [Table.recordsDirty] using hclean
  rintro k - (⟨l, ⟨c, ls, hls, -⟩, -⟩ | hall | hkey)
  · rw [Std.ExtTreeMap.isEmpty_iff.mp hands] at hls
    simp at hls
  · rw [hclean.1] at hall
    cases hall
  · rw [hclean.2] at hkey
    exact absurd hkey (Finset.notMem_empty k)

theorem careful_of_now (s : LetterStore) (e : LetterEvent) (h : carefulNow s e.action = true) :
    Careful s e := by
  obtain ⟨now, action, outcome⟩ := e
  cases action with
  | command client a => trivial
  | bury client persisted failure =>
    simp only [carefulNow, Bool.and_eq_true, decide_eq_true_eq, Option.isNone_iff_eq_none] at h
    exact fun _ => ⟨h.1.1, h.1.2, h.2⟩
  | flush side order perGroup =>
    simp only [carefulNow, Bool.and_eq_true, decide_eq_true_eq, Bool.or_eq_true] at h
    obtain ⟨⟨⟨hfit, hsize⟩, hands⟩, hclean⟩ := h
    refine ⟨⟨allFit_of_all hfit, hsize⟩, ?_⟩
    rintro rfl
    exact noneCrossing_of_none hands (by simpa using hclean)
  | flushFails side order perGroup steps => cases h

/-- A queue just created, and its dead-letter file as the listing has it. -/
def newLetters (kind : Option FileKind) : LetterStore where
  queue := { table := {}, disk := { path := "JOBS/data.hf" } }
  kind := kind
  dead := { table := {}, disk := { path := "JOBS.DEAD/data.hf" } }

theorem newLetters_kept (kind : Option FileKind) : (newLetters kind).Kept := by
  have hfile : ∀ path, LetterFile.Kept { table := {}, disk := { path := path } } := by
    intro path
    refine ⟨⟨∅, holds_fresh path, fun _ _ k hk => ?_⟩, rfl⟩
    exact absurd (by simp) hk
  exact ⟨hfile _, hfile _, fun q hq => by cases hq⟩

/-- One delivery is all a record gets. -/
def oneDelivery : QueuePolicy := { visibility := 30000, maxDeliveries := 1 }

/-- The key minted in the first millisecond. -/
def firstKey : String := formatKey SUB_MILLISECOND

/-- One job put on the queue and flushed. -/
def enqueued : List (Nat × LetterAction) :=
  [(1, .command "A" (.attach .absent)), (1, .command "A" (.enqueue sampleRow none)),
    (1, .flush .queue .ascending 16)]

/-- The job claimed and given back, its one delivery used up. -/
def exhausted : List (Nat × LetterAction) :=
  [(2, .command "A" (.dequeue "A" none oneDelivery)),
    (3, .command "A" (.nack firstKey "A" oneDelivery none))]

def flushedNow (s : LetterStore) : Bool :=
  decide (s.queue.table.records[firstKey]? = some sampleRow) &&
    decide (s.queue.onDisk firstKey = some sampleRow.stored) && s.hands.isEmpty

theorem flushed_of_now {s : LetterStore} (h : flushedNow s = true) : s.Flushed firstKey sampleRow := by
  simp only [flushedNow, Bool.and_eq_true, decide_eq_true_eq] at h
  obtain ⟨⟨hqueued, hdisk⟩, hands⟩ := h
  refine ⟨hqueued, hdisk, ?_⟩
  rintro l ⟨c, ls, hls, -⟩
  rw [Std.ExtTreeMap.isEmpty_iff.mp hands] at hls
  simp at hls

/-- No event of the job's way out acknowledges, deletes or replaces it. -/
theorem exhausted_unsettled {es : List LetterEvent} {rest : List (Nat × LetterAction)}
    (h : es.map LetterEvent.action = (exhausted ++ rest).map Prod.snd)
    (hrest : ∀ a ∈ rest, ∀ client q, a.2 ≠ .command client q) :
    ∀ e ∈ es, ¬ e.settles firstKey := by
  intro e he hsettles
  have hin : e.action ∈ (exhausted ++ rest).map Prod.snd := h ▸ List.mem_map_of_mem he
  unfold LetterEvent.settles at hsettles
  split at hsettles
  · rename_i client a haction
    rw [haction] at hin
    obtain ⟨⟨now, action⟩, ha, heq⟩ := List.mem_map.mp hin
    rcases List.mem_append.mp ha with ha | ha
    · simp only [exhausted, List.mem_cons, Prod.mk.injEq, List.not_mem_nil, or_false] at ha
      rcases ha with ⟨-, rfl⟩ | ⟨-, rfl⟩
      · cases heq
        exact hsettles
      · cases heq
        exact hsettles
    · exact hrest _ ha client a heq
  · exact hsettles

/-- The job buried and both files flushed, the dead letters first. -/
def buriedAndFlushed : List (Nat × LetterAction) :=
  [(4, .bury "A" .absent none), (5, .flush .dead .ascending 16), (5, .flush .queue .ascending 16)]

theorem letters_kept_when_buried :
    ∃ pre post s₁ s', s₁.Flushed firstKey sampleRow ∧
      LetterRun "JOBS" Careful (newLetters none) pre s₁ ∧
      LetterRun "JOBS" Careful s₁ post s' ∧
      (s'.queue.table.records[firstKey]?.map Record.stored = some sampleRow.stored ∨
        s'.dead.table.records[firstKey]?.map Record.stored = some sampleRow.stored) ∧
      ∀ c : LetterCrash, c.Careful s' → c.Finds s' firstKey sampleRow.stored := by
  have hall : (letterAll "JOBS" carefulNow (newLetters none) enqueued).any (fun r =>
      flushedNow r.2 && (letterAll "JOBS" carefulNow r.2 (exhausted ++ buriedAndFlushed)).any
        fun r' => r'.2.hands.isEmpty) = true := by
    decide +kernel
  obtain ⟨⟨pre, s₁⟩, hpre, hrest⟩ := (Option.any_eq_true _ _).mp hall
  rw [Bool.and_eq_true] at hrest
  obtain ⟨⟨post, s'⟩, hpost, hhands⟩ := (Option.any_eq_true _ _).mp hrest.2
  obtain ⟨hrun, -⟩ := letterRun_of_all careful_of_now hpre
  obtain ⟨hrun', hactions⟩ := letterRun_of_all careful_of_now hpost
  have hflushed := flushed_of_now hrest.1
  have hunsettled := exhausted_unsettled hactions (by
    intro a ha client q hq
    simp only [buriedAndFlushed, List.mem_cons, List.not_mem_nil, or_false] at ha
    rcases ha with rfl | rfl | rfl <;> cases hq)
  obtain ⟨hmemory, hcrash⟩ :=
    letters_kept "JOBS" (newLetters_kept none) hrun hrun' hflushed hunsettled
  refine ⟨pre, post, s₁, s', hflushed, hrun, hrun', hmemory ?_, hcrash⟩
  rintro l ⟨c, ls, hls, -⟩
  rw [Std.ExtTreeMap.isEmpty_iff.mp hhands] at hls
  simp at hls

/-- A run from one store to a record on disk, and on from there without settling it. -/
def LosesFirst (kind : Option FileKind) (lost : LetterStore → Prop) : Prop :=
  ∃ pre post s₁ s', LetterRun "JOBS" (fun _ _ => True) (newLetters kind) pre s₁ ∧
    LetterRun "JOBS" (fun _ _ => True) s₁ post s' ∧ s₁.Flushed firstKey sampleRow ∧
    (∀ e ∈ post, ¬ e.settles firstKey) ∧ lost s'

theorem losesFirst_of_all {kind : Option FileKind} {lost : LetterStore → Prop}
    (rest : List (Nat × LetterAction)) (check : LetterStore → Bool)
    (hrest : ∀ a ∈ rest, ∀ client q, a.2 ≠ .command client q)
    (hcheck : ∀ s, check s = true → lost s)
    (hall : (letterAll "JOBS" (fun _ _ => true) (newLetters kind) enqueued).any (fun r =>
      flushedNow r.2 && (letterAll "JOBS" (fun _ _ => true) r.2 (exhausted ++ rest)).any
        fun r' => check r'.2) = true) : LosesFirst kind lost := by
  obtain ⟨⟨pre, s₁⟩, hpre, hall⟩ := (Option.any_eq_true _ _).mp hall
  rw [Bool.and_eq_true] at hall
  obtain ⟨⟨post, s'⟩, hpost, hlost⟩ := (Option.any_eq_true _ _).mp hall.2
  obtain ⟨hrun, -⟩ := letterRun_of_all (fun _ _ _ => trivial) hpre
  obtain ⟨hrun', hactions⟩ := letterRun_of_all (fun _ _ _ => trivial) hpost
  exact ⟨pre, post, s₁, s', hrun, hrun', flushed_of_now hall.1,
    exhausted_unsettled hactions hrest, hcheck s' hlost⟩

/-- With `JOBS.DEAD` an ordinary file the letter is refused, and the job is in neither file. With no
such file yet, a flush of the queue before the letter is buried takes the job off its disk, and a
crash then finds it in neither. -/
theorem letter_lost :
    LosesFirst (some .ordinary) (fun s => s.hands = ∅ ∧ firstKey ∉ s.queue.table.records ∧
      firstKey ∉ s.dead.table.records) ∧
    LosesFirst none (fun s => s.queue.onDisk firstKey = none ∧ s.dead.onDisk firstKey = none) := by
  constructor
  · refine losesFirst_of_all [(4, .bury "A" .absent none)] (fun s => s.hands.isEmpty &&
      !s.queue.table.records.contains firstKey && !s.dead.table.records.contains firstKey) ?_ ?_ ?_
    · intro a ha client q hq
      rw [List.mem_singleton] at ha
      subst ha
      cases hq
    · intro s hs
      simpa [and_assoc, ← Std.ExtTreeMap.contains_iff_mem] using hs
    · decide +kernel
  · refine losesFirst_of_all [(4, .flush .queue .ascending 16)] (fun s =>
      decide (s.queue.onDisk firstKey = none ∧ s.dead.onDisk firstKey = none)) ?_ ?_ ?_
    · intro a ha client q hq
      rw [List.mem_singleton] at ha
      subst ha
      cases hq
    · intro s hs
      exact of_decide_eq_true hs
    · decide +kernel

end RustyPick
