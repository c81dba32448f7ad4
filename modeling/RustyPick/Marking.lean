import RustyPick.IndexExact
import RustyPick.SectionResume
import RustyPick.StateFile
import RustyPick.QueueBook
import RustyPick.Lib.Marks

/-!
# RustyPick.Marking

Every command marks what it changes, for the next flush to write.

The records are marked by key or all at once, the dictionary as a whole, each index by value or all
at once, the queue's order and the counter each by a flag of their own.

* `marked_perform`: so does any command that changes the table.
-/

namespace RustyPick

open Lib

/-! ## Marks -/

def FileIndex.marks (idx : FileIndex) : Lib.Marks String := ⟨idx.dirtyAll, idx.dirtyValues⟩

def Table.marks (t : Table) : Lib.Marks String := ⟨t.dirtyAll, t.dirtyKeys⟩

/-- What the readers of an index's files rely on. -/
structure FileIndex.Sayable (idx : FileIndex) : Prop where
  values : ∀ value, value ∈ idx.postings → (utf8 value).length ≤ MAX_KEY_LEN
  attr : idx.attr < u64Max
  excluded : ∀ value ∈ idx.excluded, trim value = value

/-- An index changed, with its marks. -/
structure IndexMarked (idx idx' : FileIndex) : Prop where
  sectionMeta : idx'.sectionMeta = idx.sectionMeta
  postings : Tracks idx.marks idx'.marks idx.postings idx'.postings
  /-- What `state` says of it is only changed by a rebuild. -/
  state : idx'.dirtyAll = true ∨ idx'.attr = idx.attr ∧ idx'.excluded = idx.excluded
  stale : idx.needsRebuild = true → idx'.needsRebuild = true ∨ idx'.dirtyAll = true
  sayable : idx.Sayable → idx'.Sayable

/-- An index that is not on disk. -/
structure IndexCreated (field : String) (idx : FileIndex) : Prop where
  name : isValidFieldName field = true
  sectionMeta : idx.sectionMeta = .empty
  dirtyAll : idx.dirtyAll = true
  sayable : idx.Sayable

structure Marked (t t' : Table) : Prop where
  dataMeta : t'.dataMeta = t.dataMeta
  legacyData : t'.legacyData = t.legacyData
  records : Tracks t.marks t'.marks t.records t'.records
  dict : t'.dictDirty = true ∨ t'.dictDirty = t.dictDirty ∧ t'.dictionary = t.dictionary
  indexes : ∀ (field : String) (idx' : FileIndex), t'.indexes[field]? = some idx' →
    (∃ idx, t.indexes[field]? = some idx ∧ IndexMarked idx idx') ∨ IndexCreated field idx'
  kept : ∀ field, field ∈ t.indexes → field ∈ t'.indexes
  queue : ∀ q', t'.queue = some q' → q'.isDirty = true ∨ t.queue = some q'
  autokey : ∀ c', t'.autokey = some c' → c'.dirty = true ∨ t.autokey = some c'

theorem IndexMarked.refl (idx : FileIndex) : IndexMarked idx idx :=
  ⟨rfl, Tracks.refl _ _, Or.inr ⟨rfl, rfl⟩, Or.inl, id⟩

theorem IndexMarked.trans {a b c : FileIndex} (h : IndexMarked a b) (h' : IndexMarked b c) :
    IndexMarked a c := by
  have hall : b.dirtyAll = true → c.dirtyAll = true := by
    intro hb
    rcases h'.postings with hc | ⟨hc, -⟩
    · exact hc
    · exact hc.trans hb
  refine ⟨h'.sectionMeta.trans h.sectionMeta, h.postings.trans h'.postings, ?_, fun hs => ?_,
    fun hs => h'.sayable (h.sayable hs)⟩
  · rcases h'.state with hc | ⟨hattr', hex'⟩
    · exact Or.inl hc
    · rcases h.state with hb | ⟨hattr, hex⟩
      · exact Or.inl (hall hb)
      · exact Or.inr ⟨hattr'.trans hattr, hex'.trans hex⟩
  · rcases h.stale hs with hb | hb
    · exact h'.stale hb
    · exact Or.inr (hall hb)

theorem Marked.refl (t : Table) : Marked t t :=
  ⟨rfl, rfl, Tracks.refl _ _, Or.inr ⟨rfl, rfl⟩, fun _ idx h => Or.inl ⟨idx, h, .refl idx⟩,
    fun _ h => h, fun _ h => Or.inr h, fun _ h => Or.inr h⟩

theorem Marked.trans {a b c : Table} (h : Marked a b) (h' : Marked b c) : Marked a c := by
  refine ⟨h'.dataMeta.trans h.dataMeta, h'.legacyData.trans h.legacyData,
    h.records.trans h'.records, ?_, ?_, fun field hf => h'.kept field (h.kept field hf), ?_, ?_⟩
  · rcases h'.dict with hc | ⟨hc, hd'⟩
    · exact Or.inl hc
    · rcases h.dict with hb | ⟨hb, hd⟩
      · exact Or.inl (hc.trans hb)
      · exact Or.inr ⟨hc.trans hb, hd'.trans hd⟩
  · intro field idx'' hidx''
    rcases h'.indexes field idx'' hidx'' with ⟨idx', hidx', hmarked'⟩ | hnew
    · rcases h.indexes field idx' hidx' with ⟨idx, hidx, hmarked⟩ | hnew
      · exact Or.inl ⟨idx, hidx, hmarked.trans hmarked'⟩
      · refine Or.inr ⟨hnew.name, hmarked'.sectionMeta.trans hnew.sectionMeta, ?_,
          hmarked'.sayable hnew.sayable⟩
        rcases hmarked'.postings with hall | ⟨hall, -⟩
        · exact hall
        · exact hall.trans hnew.dirtyAll
    · exact Or.inr hnew
  · intro q hq
    exact (h'.queue q hq).elim Or.inl (h.queue q)
  · intro c hc
    exact (h'.autokey c hc).elim Or.inl (h.autokey c)

theorem marked_foldl {α : Type} {f : Table → α → Table} (hf : ∀ t a, Marked t (f t a))
    (l : List α) : ∀ t : Table, Marked t (l.foldl f t) := by
  induction l with
  | nil => exact Marked.refl
  | cons a l ih => intro t; exact (hf t a).trans (ih (f t a))

/-! ## Indexes -/

theorem indexMarked_markStale (idx : FileIndex) : IndexMarked idx (Table.markStale idx) :=
  ⟨rfl, Tracks.refl _ _, Or.inr ⟨rfl, rfl⟩, fun _ => Or.inl rfl, fun h => ⟨h.1, h.2, h.3⟩⟩

/-- One posting list changed, and its value marked. -/
theorem indexMarked_touch (idx : FileIndex) {value : String}
    (hvalue : (utf8 value).length ≤ MAX_KEY_LEN) {postings : Map String (Finset String)}
    (hother : ∀ v, v ≠ value → postings[v]? = idx.postings[v]?) :
    IndexMarked idx { idx with
      postings := postings, dirtyValues := insert value idx.dirtyValues } := by
  refine ⟨rfl, Tracks.touch idx.marks hother, Or.inr ⟨rfl, rfl⟩, Or.inl, fun h => ⟨?_, h.2, h.3⟩⟩
  intro v hv
  by_cases hv' : v = value
  · rw [hv']
    exact hvalue
  · apply h.values v
    rw [Std.ExtTreeMap.mem_iff_isSome_getElem?] at hv ⊢
    rw [← hother v hv']
    exact hv

theorem indexMarked_withdrawValue (idx : FileIndex) (key : String) (kept : List String)
    {value : String} (hvalue : (utf8 value).length ≤ MAX_KEY_LEN) :
    IndexMarked idx (idx.withdrawValue key kept value) := by
  unfold FileIndex.withdrawValue
  split
  · exact .refl idx
  · exact indexMarked_touch idx hvalue fun v hv => getElem?_withdraw_ne hv

theorem indexMarked_postValue (idx : FileIndex) (key : String) (present : List String)
    {value : String} (hvalue : (utf8 value).length ≤ MAX_KEY_LEN) :
    IndexMarked idx (idx.postValue key present value) := by
  unfold FileIndex.postValue
  split
  · exact .refl idx
  · refine indexMarked_touch idx hvalue fun v hv => ?_
    rw [FileIndex.post, getElem?_insert_ne _ _ (Ne.symm hv)]

theorem indexMarked_apply (idx : FileIndex) (key : String) (old new : Option Record) :
    IndexMarked idx (idx.apply key old new) := by
  unfold FileIndex.apply
  have hwithdrawn := List.foldlRecOn (motive := IndexMarked idx) (idx.retained old)
    (FileIndex.withdrawValue key (idx.retained new)) (.refl idx)
    fun i hi value hv => hi.trans (indexMarked_withdrawValue i key _ (length_retained_le hv))
  exact List.foldlRecOn (motive := IndexMarked idx) (idx.retained new)
    (FileIndex.postValue key (idx.retained old)) hwithdrawn
    fun i hi value hv => hi.trans (indexMarked_postValue i key _ (length_retained_le hv))

/-- An index key has no whitespace at its ends, shortened or not. -/
theorem trim_indexKey (text : String) : trim (indexKey text) = indexKey text := by
  unfold indexKey
  dsimp only
  split
  · exact trim_trim text
  · rename_i hlong
    rw [show String.ofList (takeBytes MAX_INDEX_KEY (trim text).toList) ++ TRUNCATION_MARK =
      String.ofList (takeBytes MAX_INDEX_KEY (trim text).toList ++ ['…']) from by
        rw [String.ofList_append]; rfl]
    apply trim_of_ends
    · intro c hc
      cases htext : (trim text).toList with
      | nil =>
        exfalso
        apply hlong
        rw [utf8_eq_flatMap, htext]
        decide
      | cons d rest =>
        have hd : d.utf8Size ≤ MAX_INDEX_KEY := le_trans d.utf8Size_le_four (by decide)
        rw [htext, takeBytes, if_pos hd] at hc
        obtain rfl : d = c := by simpa using hc
        exact trim_head (by rw [htext]; rfl)
    · intro c hc
      obtain rfl : '…' = c := by simpa using hc
      decide

theorem normaliseExclusions_trim {values : Finset String} {value : String}
    (h : value ∈ normaliseExclusions values) : trim value = value := by
  obtain ⟨text, -, rfl⟩ := Finset.mem_image.mp h
  exact trim_indexKey text

theorem indexMarked_rebuild (idx : FileIndex) (records : Map String Record) {attr : Nat}
    (hattr : attr < u64Max) : IndexMarked idx (idx.rebuild records attr) :=
  ⟨rfl, Or.inl rfl, Or.inl rfl, fun _ => Or.inr rfl,
    fun h => ⟨fun _ => length_rebuilt_le, hattr, h.excluded⟩⟩

/-- A dictionary counts attributes from one, in a `u64`. -/
theorem fieldIndex_lt {t : Table} {field : String} {attr : Nat}
    (h : t.fieldIndex field = some attr) : attr < u64Max := by
  unfold Table.fieldIndex at h
  split at h
  · cases h
    decide
  · obtain ⟨entry, -, h⟩ := Option.bind_eq_some_iff.mp h
    unfold attributeOf at h
    simp only [Option.bind_eq_bind, Option.bind_eq_some_iff] at h
    obtain ⟨f, -, v, -, text, -, h⟩ := h
    split at h
    · rename_i n hn
      split at h
      · have := parseU64_le hn
        cases h
        omega
      · cases h
    · cases h

/-! ## Tables -/

section

variable {t : Table}

/-- Only the order and the counter may differ. -/
theorem marked_of_eq {t' : Table} (hmeta : t'.dataMeta = t.dataMeta)
    (hlegacy : t'.legacyData = t.legacyData) (hmarks : t'.marks = t.marks)
    (hrecords : t'.records = t.records)
    (hdict : t'.dictDirty = t.dictDirty ∧ t'.dictionary = t.dictionary)
    (hindexes : t'.indexes = t.indexes)
    (hqueue : ∀ q', t'.queue = some q' → q'.isDirty = true ∨ t.queue = some q')
    (hautokey : ∀ c', t'.autokey = some c' → c'.dirty = true ∨ t.autokey = some c') :
    Marked t t' := by
  refine ⟨hmeta, hlegacy, ?_, Or.inr hdict, fun field idx hidx => ?_, fun field hf => ?_, hqueue,
    hautokey⟩
  · rw [hmarks, hrecords]
    exact .refl _ _
  · exact Or.inl ⟨idx, hindexes ▸ hidx, .refl idx⟩
  · rw [hindexes]
    exact hf

theorem marked_queue (t : Table) {queue : Option QueueState}
    (h : ∀ q', queue = some q' → q'.isDirty = true ∨ t.queue = some q') :
    Marked t { t with queue := queue } :=
  marked_of_eq rfl rfl rfl rfl ⟨rfl, rfl⟩ rfl h fun _ hc => Or.inr hc

theorem marked_autokey (t : Table) {autokey : Option Sequence}
    (h : ∀ c', autokey = some c' → c'.dirty = true ∨ t.autokey = some c') :
    Marked t { t with autokey := autokey } :=
  marked_of_eq rfl rfl rfl rfl ⟨rfl, rfl⟩ rfl (fun _ hq => Or.inr hq) h

/-- Indexes that are the old ones, each changed and marked. -/
theorem marked_mapIndexes (t : Table) {f : String → FileIndex → FileIndex}
    (hf : ∀ field idx, t.indexes[field]? = some idx → IndexMarked idx (f field idx)) :
    Marked t { t with indexes := t.indexes.map f } := by
  refine ⟨rfl, rfl, .refl _ _, Or.inr ⟨rfl, rfl⟩, ?_, ?_, fun _ hq => Or.inr hq,
    fun _ hc => Or.inr hc⟩
  · intro field idx' hidx'
    rw [Std.ExtTreeMap.getElem?_map, Option.map_eq_some_iff] at hidx'
    obtain ⟨idx, hidx, rfl⟩ := hidx'
    exact Or.inl ⟨idx, hidx, hf field idx hidx⟩
  · intro field hfield
    exact Std.ExtTreeMap.mem_map.mpr hfield

/-- One record changed and its key marked. -/
theorem marked_record (t : Table) {key : String} {records : Map String Record}
    (hother : ∀ k, k ≠ key → records[k]? = t.records[k]?) :
    Marked t (({ t with records := records }).markDirty key) :=
  ⟨rfl, rfl, Tracks.touch t.marks hother, Or.inr ⟨rfl, rfl⟩,
    fun _ idx hidx => Or.inl ⟨idx, hidx, .refl idx⟩, fun _ hf => hf, fun _ hq => Or.inr hq,
    fun _ hc => Or.inr hc⟩

theorem marked_insertRecord (t : Table) (key : String) (record : Record) :
    Marked t (t.insertRecord key record) :=
  (marked_mapIndexes t fun _ idx _ => indexMarked_apply idx key t.records[key]? (some record)).trans
    (marked_record _ fun _ hk => getElem?_insert_ne _ _ (Ne.symm hk))

theorem marked_removeRecord (t : Table) (key : String) : Marked t (t.removeRecord key).2 :=
  (marked_mapIndexes t fun _ idx _ => indexMarked_apply idx key t.records[key]? none).trans
    (marked_record _ fun _ hk => getElem?_erase_ne _ (Ne.symm hk))

theorem marked_erase (t : Table) (key : String) :
    Marked t (({ t with records := t.records.erase key }).markDirty key) :=
  marked_record t fun _ hk => getElem?_erase_ne _ (Ne.symm hk)

theorem marked_touchAll (t : Table) (records : Map String Record) :
    Marked t ({ t with records := records }).touchAll := by
  have h := marked_mapIndexes t fun _ idx _ => indexMarked_markStale idx
  exact ⟨rfl, rfl, Or.inl rfl, Or.inl rfl, h.indexes, h.kept, h.queue, h.autokey⟩

theorem marked_markDictDirty (t : Table) (dictionary : Map String Record) :
    Marked t ({ t with dictionary := dictionary }).markDictDirty := by
  unfold Table.markDictDirty Table.recheckIndexAttributes
  dsimp only
  generalize (List.map FileIndex.field _) = moved
  have h := marked_mapIndexes t (f := fun field idx =>
    if field ∈ moved then Table.markStale idx else idx) fun field idx _ => by
      split
      · exact indexMarked_markStale idx
      · exact .refl idx
  exact ⟨rfl, rfl, h.records, Or.inl rfl, h.indexes, h.kept, h.queue, h.autokey⟩

theorem marked_rebuildStale (t : Table) : Marked t t.rebuildStaleIndexes := by
  refine marked_mapIndexes t fun field idx _ => ?_
  split
  · split
    · rename_i attr hattr
      exact indexMarked_rebuild idx t.records (fieldIndex_lt hattr)
    · exact .refl idx
  · exact .refl idx

/-- An index put in the place of an old one. -/
theorem marked_insertIndex (t : Table) {field : String} {idx' : FileIndex}
    (h : (∃ idx, t.indexes[field]? = some idx ∧ IndexMarked idx idx') ∨ IndexCreated field idx') :
    Marked t { t with indexes := t.indexes.insert field idx' } := by
  refine ⟨rfl, rfl, .refl _ _, Or.inr ⟨rfl, rfl⟩, ?_, ?_, fun _ hq => Or.inr hq,
    fun _ hc => Or.inr hc⟩
  · intro f i hi
    change (t.indexes.insert field idx')[f]? = _ at hi
    rw [getElem?_insert_eq] at hi
    split at hi
    · rename_i hf
      subst hf
      cases hi
      exact h
    · exact Or.inl ⟨i, hi, .refl i⟩
  · intro f hf
    exact Std.ExtTreeMap.mem_insert.mpr (Or.inr hf)

end

/-! ## Commands -/

/-- A write by hand does not raise a counter that is not marked: minting marks a counter, stepping
over a key does not. -/
def TableAction.RaisesMarked (t : Table) : TableAction → Prop
  | .write (some key) _ false _ _ _ _ => ∀ counter, t.autokey = some counter →
    counter.dirty = true ∨ ∀ n, keySequence key = some n → n < counter.next
  | _ => True

/-- A change of the table alone: what it was loaded from stays. -/
def TableAction.isEdit : TableAction → Bool
  | .dropIndex _ | .flush _ _ _ | .queue (.attach _) _ => false
  | _ => true

section

variable {t t' : Table}

theorem raisePast_of_lt {counter : Sequence} {key : String}
    (h : ∀ n, keySequence key = some n → n < counter.next) : counter.raisePast key = counter := by
  unfold Sequence.raisePast
  split
  · rename_i n hn
    have hlt := h n hn
    have hmax : max counter.next (satAdd n 1) = counter.next := by
      apply max_eq_left
      unfold satAdd
      omega
    cases counter
    simp_all
  · rfl

theorem raisePast_dirty (counter : Sequence) (key : String) :
    (counter.raisePast key).dirty = counter.dirty := by
  unfold Sequence.raisePast
  split <;> rfl

theorem marked_writeKey {name target : String} {key : Option String} {autokey : Bool}
    {persisted : Option UInt64} {now : Nat}
    (hraise : ∀ k, key = some k → ∀ counter, t.autokey = some counter →
      counter.dirty = true ∨ ∀ n, keySequence k = some n → n < counter.next)
    (hok : t.writeKey name key autokey persisted now = .ok (target, t')) : Marked t t' := by
  unfold Table.writeKey at hok
  split at hok
  · rename_i k
    simp only [Except.ok.injEq, Prod.mk.injEq] at hok
    rw [← hok.2]
    refine marked_autokey t fun c' hc' => ?_
    obtain ⟨counter, hcounter, rfl⟩ := Option.map_eq_some_iff.mp hc'
    rcases hraise k rfl counter hcounter with hdirty | hlt
    · exact Or.inl ((raisePast_dirty counter k).trans hdirty)
    · exact Or.inr ((raisePast_of_lt hlt).symm ▸ hcounter)
  · split at hok
    · cases hok
    · dsimp only at hok
      split at hok
      · cases hok
      · rename_i counter _
        simp only [Except.ok.injEq, Prod.mk.injEq] at hok
        rw [← hok.2]
        have hsame : ∃ autokey, t.attachAutokey persisted = { t with autokey := autokey } := by
          unfold Table.attachAutokey
          split
          · exact ⟨t.autokey, rfl⟩
          · exact ⟨_, rfl⟩
        obtain ⟨autokey, hsame⟩ := hsame
        rw [hsame]
        refine marked_autokey t fun c' hc' => Or.inl ?_
        cases hc'
        rfl

theorem marked_writeRecord {digest : Record → String} {name : String} {key : Option String}
    {record : Record} {isDict : Bool} {condition : Condition} {autokey : Bool}
    {persisted : Option UInt64} {now : Nat}
    (hraise : isDict = false → ∀ k, key = some k → ∀ counter, t.autokey = some counter →
      counter.dirty = true ∨ ∀ n, keySequence k = some n → n < counter.next) :
    Marked t (t.writeRecord digest name key record isDict condition autokey persisted now).2 := by
  unfold Table.writeRecord
  split
  · split
    · exact .refl t
    · split
      · exact .refl t
      · exact marked_markDictDirty t _
  · rename_i hdict
    split
    · exact .refl t
    · rename_i target t₁ hkey
      have hmarked := marked_writeKey (hraise (by simpa using hdict)) hkey
      split
      · exact hmarked
      · exact hmarked.trans (marked_insertRecord t₁ target record)

theorem marked_deleteRecord (t : Table) {digest : Record → String} {name key : String}
    {isDict : Bool} {condition : Condition} :
    Marked t (t.deleteRecord digest name key isDict condition).2 := by
  unfold Table.deleteRecord
  split
  · split
    · exact .refl t
    · exact marked_markDictDirty t _
  · split
    · exact .refl t
    · exact marked_removeRecord t key

theorem marked_applyChange (t : Table) (change : Change) : Marked t (t.applyChange change) := by
  unfold Table.applyChange
  split
  · exact marked_insertRecord t _ _
  · exact marked_markDictDirty t _
  · exact marked_removeRecord t _
  · exact marked_markDictDirty t _

/-! ### Queues -/

theorem isDirty_of_dirty {q : QueueState} (h : q.dirty = true) : q.isDirty = true := by
  simp [QueueState.isDirty, h]

theorem marked_takeDead (acc : List DeadLetter × Table) (key : String) :
    Marked acc.2 (Table.takeDead acc key).2 := by
  unfold Table.takeDead
  split
  · exact .refl _
  · rename_i q _
    have hforgot : Marked acc.2 { acc.2 with queue := some (q.forget key) } := by
      refine marked_queue acc.2 fun q' hq' => Or.inl ?_
      cases hq'
      exact isDirty_of_dirty rfl
    exact hforgot.trans (marked_erase _ key)

theorem marked_takeExpired (t : Table) (now : Nat) (policy : QueuePolicy) :
    Marked t (t.takeExpired now policy).2 := by
  unfold Table.takeExpired
  split
  · exact .refl t
  · rename_i q hq
    have hswept : Marked t { t with queue := some (q.expire now policy).1 } := by
      refine marked_queue t fun q' hq' => ?_
      cases hq'
      rcases expire_dirty q now policy with hdirty | hsame
      · exact Or.inl (isDirty_of_dirty hdirty)
      · rw [hsame]
        exact Or.inr hq
    have hfold : ∀ (keys : List String) (acc : List DeadLetter × Table), Marked t acc.2 →
        Marked t (keys.foldl Table.takeDead acc).2 := by
      intro keys
      induction keys with
      | nil => intro acc h; exact h
      | cons key keys ih => intro acc h; exact ih _ (h.trans (marked_takeDead acc key))
    exact hfold _ _ hswept

theorem claim_marks (q : QueueState) (owner : String) (now : Nat) (policy : QueuePolicy) :
    (q.claim owner now policy).2.isDirty = true ∨ (q.claim owner now policy).2 = q := by
  unfold QueueState.claim
  split
  · exact Or.inr rfl
  · exact Or.inl (isDirty_of_dirty rfl)

theorem releaseUntil_marks (q : QueueState) (key : String) (policy : QueuePolicy)
    (due : Option Nat) : (q.releaseUntil key policy due).2.isDirty = true := by
  unfold QueueState.releaseUntil
  dsimp only
  split
  · exact isDirty_of_dirty rfl
  · split
    · exact isDirty_of_dirty rfl
    · exact isDirty_of_dirty rfl

/-- The order is put back marked, whatever came before. -/
theorem Marked.withQueue {t t₁ : Table} (h : Marked t t₁) {q : QueueState}
    (hq : q.isDirty = true) : Marked t { t₁ with queue := some q } := by
  refine h.trans (marked_queue t₁ fun q' hq' => Or.inl ?_)
  cases hq'
  exact hq

theorem marked_queueAction {name : String} {now : Nat} {action : QueueAction} {out : QueueOutcome}
    (hedit : (TableAction.queue action now).isEdit = true)
    (hp : action.perform name t now = some (out, t')) : Marked t t' := by
  cases action with
  | attach persisted => cases hedit
  | reconcile =>
    cases hp
    refine marked_queue t fun q' hq' => Or.inl ?_
    obtain ⟨q, -, rfl⟩ := Option.map_eq_some_iff.mp hq'
    exact isDirty_of_dirty rfl
  | enqueue record due =>
    obtain ⟨q, q', -, -, hplaced, rfl⟩ := perform_enqueue hp
    have hminted : Marked t { t with queue := some (q.mint now).2 } := by
      refine marked_queue t fun q' hq' => Or.inl ?_
      cases hq'
      simp [QueueState.mint, QueueState.isDirty, Sequence.mint]
    refine (hminted.trans (marked_insertRecord _ _ record)).withQueue ?_
    rcases hplaced with ⟨-, rfl⟩ | ⟨millis, -, rfl⟩
    · exact isDirty_of_dirty rfl
    · exact isDirty_of_dirty rfl
  | dequeue owner visibility policy =>
    obtain ⟨q, hq, rfl⟩ := perform_dequeue hp
    refine (marked_takeExpired t now _).trans (marked_queue _ fun q' hq' => ?_)
    cases hq'
    rcases claim_marks q owner now _ with hdirty | hsame
    · exact Or.inl hdirty
    · rw [hsame]
      exact Or.inr hq
  | ack key owner =>
    obtain ⟨q, -, ⟨-, -, -, rfl⟩ | ⟨-, -, rfl⟩⟩ := perform_ack hp
    · exact .refl _
    · exact (marked_removeRecord t key).withQueue (isDirty_of_dirty rfl)
  | nack key owner policy due =>
    obtain ⟨q, -, ⟨-, -, -, rfl⟩ | ⟨-, -, q', ⟨-, rfl⟩ | ⟨hrelease, rfl⟩⟩⟩ := perform_nack hp
    · exact .refl _
    · have hforgot : (q'.forget key).isDirty = true := isDirty_of_dirty rfl
      exact ((Marked.refl t).withQueue hforgot).trans (marked_erase _ key)
    · refine (Marked.refl t).withQueue ?_
      have hmarks := releaseUntil_marks q key (effectivePolicy name policy) due
      rw [hrelease] at hmarks
      exact hmarks
  | peek key => cases hp; exact .refl t
  | peekSweep key policy =>
    obtain ⟨-, -, -, rfl⟩ := perform_peekSweep hp
    exact marked_takeExpired t now _
  | statistics policy =>
    obtain ⟨-, -, -, rfl⟩ := perform_statistics hp
    exact marked_takeExpired t now _
  | delete key => cases hp; exact marked_removeRecord t key

theorem marked_adoptLetters (t : Table) (letters : List DeadLetter) :
    Marked t (t.adoptLetters letters) := by
  refine marked_foldl (fun t letter => ?_) letters t
  refine (marked_insertRecord t letter.key letter.record).trans (marked_queue _ fun q' hq' => ?_)
  obtain ⟨q, -, rfl⟩ := Option.map_eq_some_iff.mp hq'
  exact Or.inl (isDirty_of_dirty rfl)

/-! ### Accounts of a client -/

/-- An account that is there already is not entered again, and nothing else is touched. -/
theorem withAccount_of_false {record : Record} {account : String}
    (h : (Table.withAccount record account).1 = false) :
    (Table.withAccount record account).2 = record := by
  unfold Table.withAccount at h ⊢
  dsimp only at h ⊢
  split at h
  · rename_i hany
    rw [if_pos hany]
    have hlong : Table.SYS_CLIENTS_ACCOUNTS_IDX + 1 ≤ record.fields.length := by
      by_contra hshort
      have hnone : (Table.padFields record.fields
          Table.SYS_CLIENTS_ACCOUNTS_IDX)[Table.SYS_CLIENTS_ACCOUNTS_IDX]? =
            some { values := [] } := by
        unfold Table.padFields
        rw [List.getElem?_append_right (by omega), List.getElem?_replicate, if_pos (by omega)]
      rw [hnone] at hany
      simp at hany
    have hpad : Table.padFields record.fields Table.SYS_CLIENTS_ACCOUNTS_IDX = record.fields := by
      unfold Table.padFields
      rw [Nat.sub_eq_zero_of_le hlong]
      simp
    rw [hpad]
  · cases h

theorem withoutAccount_of_false {record : Record} {account : String}
    (h : (Table.withoutAccount record account).1 = false) :
    (Table.withoutAccount record account).2 = record := by
  unfold Table.withoutAccount at h ⊢
  split
  · rfl
  · rename_i field hfield
    simp only [hfield, decide_eq_false_iff_not, not_lt] at h
    have hkept : (field.values.filter fun v => v.firstBytes ≠ utf8 account) = field.values :=
      List.filter_sublist.eq_of_length_le h
    dsimp only
    rw [hkept]
    have hset : record.fields.set Table.SYS_CLIENTS_ACCOUNTS_IDX { values := field.values } =
        record.fields := by
      apply List.ext_getElem?
      intro i
      rw [List.getElem?_set]
      split
      · rename_i hi
        subst hi
        rw [if_pos (List.getElem?_eq_some_iff.mp hfield).1, hfield]
      · rfl
    rw [hset]

/-- An edit in place that marks the record when it changes it. -/
theorem marked_inPlace (t : Table) {name : String} {record : Record}
    (hrecord : t.records[name]? = some record) {changed : Bool} {edited : Record}
    (hsame : changed = false → edited = record) :
    Marked t (if changed then ({ t with records := t.records.insert name edited }).markDirty name
      else { t with records := t.records.insert name edited }) := by
  cases changed with
  | true => exact marked_record t fun _ hk => getElem?_insert_ne _ _ (Ne.symm hk)
  | false =>
    have hrecords : t.records.insert name edited = t.records := by
      apply Std.ExtTreeMap.ext_getElem?
      intro k
      rw [getElem?_insert_eq]
      split
      · rename_i hk
        rw [← hk, hrecord, hsame rfl]
      · rfl
    simp only [Bool.false_eq_true, if_false, hrecords]
    exact .refl t

/-! ### Index commands -/

theorem marked_createIndex (t : Table) (file field : String) (exclude : Finset String) :
    Marked t (orUnchanged t (t.createIndexCommand file field exclude)) := by
  unfold Table.createIndexCommand Table.createIndexExcluding
  dsimp only
  split
  · exact .refl t
  · split
    · exact .refl t
    · split
      · exact .refl t
      · rename_i hname
        split
        · exact .refl t
        · rename_i attr hattr
          refine marked_insertIndex t (Or.inr ⟨by simpa using hname, rfl, rfl, ?_⟩)
          exact ⟨fun _ => length_rebuilt_le, fieldIndex_lt hattr,
            fun _ => normaliseExclusions_trim⟩

theorem marked_rebuildIndex (t : Table) (field : String) :
    Marked t (orUnchanged t (t.rebuildIndex field)) := by
  unfold Table.rebuildIndex
  dsimp only
  split
  · exact .refl t
  · rename_i idx hidx
    split
    · exact .refl t
    · rename_i attr hattr
      exact marked_insertIndex t (Or.inl ⟨idx, hidx,
        indexMarked_rebuild idx t.records (fieldIndex_lt hattr)⟩)

theorem marked_setExclusions (t : Table) (file field : String) (values : Finset String) :
    Marked t (orUnchanged t (t.setIndexExclusions file field values)) := by
  unfold Table.setIndexExclusions
  dsimp only
  split
  · exact .refl t
  · rename_i idx hidx
    split
    · exact .refl t
    · rename_i idx' hset
      refine marked_insertIndex t (Or.inl ⟨idx, hidx, ?_⟩)
      unfold FileIndex.setExcluded at hset
      dsimp only at hset
      split at hset
      · cases hset
      · cases hset
        have hbound : idx.attr < u64Max → (t.fieldIndex (trim field)).getD idx.attr < u64Max := by
          intro hattr
          cases hfield : t.fieldIndex (trim field) with
          | none => exact hattr
          | some attr => exact fieldIndex_lt hfield
        generalize (t.fieldIndex (trim field)).getD idx.attr = attr at hbound ⊢
        refine ⟨rfl, Or.inl rfl, Or.inl rfl, fun _ => Or.inr rfl, fun h => ⟨?_, ?_, ?_⟩⟩
        · exact fun _ => length_rebuilt_le
        · exact hbound h.attr
        · exact fun _ => normaliseExclusions_trim

/-! ### Any command -/

/-- A command that changes the table marks what it changes. -/
theorem marked_perform {digest : Record → String} {name : String} {action : TableAction}
    (hedit : action.isEdit = true) (hraise : action.RaisesMarked t)
    (hp : action.perform digest name t = some t') : Marked t t' := by
  cases action with
  | write key record isDict condition autokey persisted now =>
    rw [TableAction.perform, Option.some.injEq] at hp
    rw [← hp]
    refine marked_writeRecord fun hdict k hk => ?_
    subst hdict hk
    exact hraise
  | delete key isDict condition =>
    rw [TableAction.perform, Option.some.injEq] at hp
    rw [← hp]
    exact marked_deleteRecord t
  | transaction changes => cases hp; exact marked_foldl marked_applyChange changes t
  | queue action now =>
    rw [TableAction.perform, Option.map_eq_some_iff] at hp
    obtain ⟨⟨out, t₁⟩, hp, rfl⟩ := hp
    exact marked_queueAction hedit hp
  | adopt letters => cases hp; exact marked_adoptLetters t letters
  | dictionary entries => cases hp; exact marked_markDictDirty t entries
  | addAuthorizedClient client thumbprint grant => cases hp; exact marked_insertRecord t _ _
  | removeAuthorizedClient client => cases hp; exact marked_removeRecord t client
  | addClientAccount client account =>
    rw [TableAction.perform, Option.some.injEq] at hp
    rw [← hp]
    unfold Table.addClientAccount
    split
    · exact .refl t
    · rename_i record hrecord
      exact marked_inPlace t hrecord withAccount_of_false
  | removeClientAccount client account =>
    rw [TableAction.perform, Option.some.injEq] at hp
    rw [← hp]
    unfold Table.removeClientAccount
    split
    · exact .refl t
    · rename_i record hrecord
      exact marked_inPlace t hrecord withoutAccount_of_false
  | bulk records => cases hp; exact marked_touchAll t records
  | createIndex field exclude =>
    rw [TableAction.perform, Option.some.injEq] at hp
    rw [← hp]
    exact marked_createIndex t name field exclude
  | dropIndex field => cases hedit
  | rebuildIndex field =>
    rw [TableAction.perform, Option.some.injEq] at hp
    rw [← hp]
    exact marked_rebuildIndex t field
  | setExclusions field values =>
    rw [TableAction.perform, Option.some.injEq] at hp
    rw [← hp]
    exact marked_setExclusions t name field values
  | rebuildStale => cases hp; exact marked_rebuildStale t
  | flush order dir perGroup => cases hedit

end

end RustyPick
