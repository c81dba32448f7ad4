import RustyPick.TableEdit

/-!
# RustyPick.ConditionalWrite

Conditional writes and deletes as compare-and-swap, over every interleaving of clients on one live
copy of a hashed file.

A write or a delete takes the file's guard once, so a run is a sequence of the sections under it, in
the order in which the guard was held. Whether the file mints keys, the counter on disk and the clock
are whatever the client read before it came to the guard. A flush that follows the section and fails
is reported instead of its outcome, never as a failed precondition.

* `conditional_writes_swap`: what every run promises of its successes and of its refusals.
-/

namespace RustyPick

open Lib

/-- A digest of the stored bytes. The hash is a parameter: sixteen hex digits of SHA-256. -/
def Record.version (hash : Bytes → String) (r : Record) : String := hash r.toBytes

/-- The section a write or a delete is about. -/
def Table.side (t : Table) (isDict : Bool) : Map String Record :=
  if isDict then t.dictionary else t.records

inductive EditAction where
  | write (key : Option String) (record : Record) (isDict : Bool) (condition : Condition)
  | delete (key : String) (isDict : Bool) (condition : Condition)

inductive EditOutcome where
  | written (w : Written)
  | deleted (removed : Bool)
  | refused (error : DbError)
  deriving DecidableEq

/-- One section of one client, with what the client had read before it. -/
structure EditEvent where
  client : String
  action : EditAction
  autokey : Bool
  persisted : Option UInt64
  reading : Nat
  outcome : EditOutcome

def EditEvent.perform (hash : Bytes → String) (name : String) (t : Table) (e : EditEvent) :
    EditOutcome × Table :=
  match e.action with
  | .write key record isDict condition =>
    match t.writeRecord (Record.version hash) name key record isDict condition e.autokey e.persisted
        e.reading with
    | (.ok w, t') => (.written w, t')
    | (.error error, t') => (.refused error, t')
  | .delete key isDict condition =>
    match t.deleteRecord (Record.version hash) name key isDict condition with
    | (.ok removed, t') => (.deleted removed, t')
    | (.error error, t') => (.refused error, t')

inductive EditRun (hash : Bytes → String) (name : String) :
    Table → List EditEvent → Table → Prop where
  | nil (t : Table) : EditRun hash name t [] t
  | cons {t t' t'' : Table} {e : EditEvent} {es : List EditEvent} :
      e.perform hash name t = (e.outcome, t') → EditRun hash name t' es t'' →
      EditRun hash name t (e :: es) t''

/-- The condition an event carries. -/
def EditEvent.condition (e : EditEvent) : Condition :=
  match e.action with
  | .write _ _ _ condition => condition
  | .delete _ _ condition => condition

/-- An event that stored a record under the key. -/
def EditEvent.Wrote (e : EditEvent) (isDict : Bool) (key : String) (record : Record)
    (version : String) : Prop :=
  ∃ asked condition minted, e.action = .write asked record isDict condition ∧
    e.outcome = .written { key := key, version := version, minted := minted }

/-- An event that was to delete the key and was not refused. -/
def EditEvent.Deleted (e : EditEvent) (isDict : Bool) (key : String) (removed : Bool) : Prop :=
  ∃ condition, e.action = .delete key isDict condition ∧ e.outcome = .deleted removed

/-- Two tables that differ in nothing a client or a flush could see, short of the next key to be
minted. -/
structure Table.SameContents (t t' : Table) : Prop where
  records : t'.records = t.records
  dictionary : t'.dictionary = t.dictionary
  dirtyKeys : t'.dirtyKeys = t.dirtyKeys
  dirtyAll : t'.dirtyAll = t.dirtyAll
  dictDirty : t'.dictDirty = t.dictDirty
  indexes : t'.indexes = t.indexes
  queue : t'.queue = t.queue

/-- What an event that was applied found and left. -/
structure Swaps (hash : Bytes → String) (e : EditEvent) (t t' : Table) : Prop where
  /-- The version an `if_match` named is the version of the record it found, and of no other. -/
  matched : ∀ isDict key version, e.condition = .ifMatch version →
    ((∃ record new, e.Wrote isDict key record new) ∨ ∃ removed, e.Deleted isDict key removed) →
    ∃ old, (t.side isDict)[key]? = some old ∧ old.version hash = version ∧
      ∀ r : Record, r.version hash = version → r.toBytes = old.toBytes
  /-- An `if_absent` write found nothing. -/
  absent : ∀ isDict key record version, e.condition = .ifAbsent →
    e.Wrote isDict key record version → key ∉ t.side isDict
  /-- The record written is the record stored, under the version returned, and nothing else is
  touched. -/
  stored : ∀ isDict key record version, e.Wrote isDict key record version →
    (t'.side isDict)[key]? = some record ∧ record.version hash = version ∧
      t'.side isDict = (t.side isDict).insert key record ∧ t'.side (!isDict) = t.side (!isDict)
  /-- A delete removes that key and nothing else. -/
  removed : ∀ isDict key removed, e.Deleted isDict key removed →
    removed = (t.side isDict).contains key ∧ t'.side isDict = (t.side isDict).erase key ∧
      t'.side (!isDict) = t.side (!isDict)
  refused : ∀ detail, e.outcome = .refused (.preconditionFailed detail) → t.SameContents t'

/-- Every step of the run swaps, and between two successful `if_absent` writes of one key the key has
been deleted. -/
structure CompareAndSwap (hash : Bytes → String) (name : String) (t : Table) (es : List EditEvent) :
    Prop where
  steps : ∀ pre e post t₁ t₂, es = pre ++ e :: post → EditRun hash name t pre t₁ →
    e.perform hash name t₁ = (e.outcome, t₂) → Swaps hash e t₁ t₂
  exclusive : ∀ pre e₁ mid e₂ post isDict key r₁ r₂ v₁ v₂,
    es = pre ++ e₁ :: (mid ++ e₂ :: post) →
    e₁.condition = .ifAbsent → e₁.Wrote isDict key r₁ v₁ →
    e₂.condition = .ifAbsent → e₂.Wrote isDict key r₂ v₂ →
    ∃ d ∈ mid, d.Deleted isDict key true

/-! ## One section -/

section

variable {hash : Bytes → String} {name : String} {t t' : Table}

theorem Condition.check_ifMatch {digest : Record → String} {version file key : String}
    {existing : Option Record}
    (h : (Condition.ifMatch version).check digest existing file key = .ok ()) :
    ∃ old, existing = some old ∧ digest old = version := by
  cases existing with
  | none => cases h
  | some old =>
    simp only [Condition.check] at h
    split at h
    · rename_i heq
      exact ⟨old, rfl, heq⟩
    · cases h

theorem Condition.check_ifAbsent {digest : Record → String} {file key : String}
    {existing : Option Record} (h : Condition.ifAbsent.check digest existing file key = .ok ()) :
    existing = none := by
  cases existing with
  | none => rfl
  | some old => cases h

/-- Choosing the key touches the counter alone. -/
theorem writeKey_same {key : Option String} {autokey : Bool} {persisted : Option UInt64} {now : Nat}
    {target : String} (h : t.writeKey name key autokey persisted now = .ok (target, t')) :
    t.SameContents t' ∧ (key = none ∨ key = some target) := by
  cases key with
  | some key =>
    cases h
    exact ⟨⟨rfl, rfl, rfl, rfl, rfl, rfl, rfl⟩, Or.inr rfl⟩
  | none =>
    simp only [Table.writeKey] at h
    split at h
    · cases h
    · split at h
      · cases h
      · simp only [Except.ok.injEq, Prod.mk.injEq] at h
        have hattach : t.SameContents (t.attachAutokey persisted) := by
          unfold Table.attachAutokey
          split
          · exact ⟨rfl, rfl, rfl, rfl, rfl, rfl, rfl⟩
          · exact ⟨rfl, rfl, rfl, rfl, rfl, rfl, rfl⟩
        rw [← h.2]
        exact ⟨⟨hattach.records, hattach.dictionary, hattach.dirtyKeys, hattach.dirtyAll,
          hattach.dictDirty, hattach.indexes, hattach.queue⟩, Or.inl rfl⟩

/-- A write is refused and changes nothing, or it passes its check and is stored. -/
theorem writeRecord_cases (digest : Record → String) (t : Table) (name : String)
    (key : Option String) (record : Record) (isDict : Bool) (condition : Condition) (autokey : Bool)
    (persisted : Option UInt64) (now : Nat) :
    (∃ error t', t.writeRecord digest name key record isDict condition autokey
        persisted now = (.error error, t') ∧ t.SameContents t') ∨
      ∃ w t', t.writeRecord digest name key record isDict condition autokey persisted
          now = (.ok w, t') ∧
        condition.check digest (t.side isDict)[w.key]? name w.key = .ok () ∧
        w.version = digest record ∧
        t'.side isDict = (t.side isDict).insert w.key record ∧
        t'.side (!isDict) = t.side (!isDict) := by
  have hrefl : t.SameContents t := ⟨rfl, rfl, rfl, rfl, rfl, rfl, rfl⟩
  cases isDict with
  | true =>
    simp only [Table.writeRecord, if_true]
    cases key with
    | none => exact Or.inl ⟨_, t, rfl, hrefl⟩
    | some key =>
      dsimp only
      cases hc : condition.check digest t.dictionary[key]? name key with
      | error e => exact Or.inl ⟨e, t, rfl, hrefl⟩
      | ok u =>
        exact Or.inr ⟨{ key := key, version := digest record, minted := false }, _, rfl, hc,
          rfl, rfl, rfl⟩
  | false =>
    simp only [Table.writeRecord, Bool.false_eq_true, if_false]
    cases hk : t.writeKey name key autokey persisted now with
    | error e => exact Or.inl ⟨e, t, rfl, hrefl⟩
    | ok r =>
      obtain ⟨target, t₁⟩ := r
      obtain ⟨hsame, -⟩ := writeKey_same hk
      cases hc : condition.check digest t₁.records[target]? name target with
      | error e => exact Or.inl ⟨e, t₁, by simp only [hc], hsame⟩
      | ok u =>
        refine Or.inr ⟨{ key := target, version := digest record, minted := key.isNone && autokey },
          t₁.insertRecord target record, by simp only [hc], ?_, rfl, ?_, ?_⟩
        · rw [hsame.records] at hc
          exact hc
        · show t₁.records.insert target record = t.records.insert target record
          rw [hsame.records]
        · exact hsame.dictionary

theorem deleteRecord_cases (digest : Record → String) (t : Table) (name key : String) (isDict : Bool)
    (condition : Condition) :
    (∃ error, t.deleteRecord digest name key isDict condition = (.error error, t)) ∨
      ∃ t', t.deleteRecord digest name key isDict condition =
          (.ok ((t.side isDict).contains key), t') ∧
        condition.check digest (t.side isDict)[key]? name key = .ok () ∧
        t'.side isDict = (t.side isDict).erase key ∧ t'.side (!isDict) = t.side (!isDict) := by
  cases isDict with
  | true =>
    simp only [Table.deleteRecord, if_true]
    cases hc : condition.check digest t.dictionary[key]? name key with
    | error e => exact Or.inl ⟨e, rfl⟩
    | ok u => exact Or.inr ⟨_, rfl, hc, rfl, rfl⟩
  | false =>
    simp only [Table.deleteRecord, Bool.false_eq_true, if_false]
    cases hc : condition.check digest t.records[key]? name key with
    | error e => exact Or.inl ⟨e, rfl⟩
    | ok u =>
      refine Or.inr ⟨(t.removeRecord key).2, ?_, hc, rfl, rfl⟩
      simp only [Table.removeRecord, Table.side, Bool.false_eq_true, if_false]
      rw [Std.ExtTreeMap.contains_eq_isSome_getElem?]

/-- What a section can do. -/
theorem edit_cases {e : EditEvent} (h : e.perform hash name t = (e.outcome, t')) :
    (∃ error, e.outcome = .refused error ∧ t.SameContents t') ∨
    (∃ asked record isDict w, e.action = .write asked record isDict e.condition ∧
      e.outcome = .written w ∧
      e.condition.check (Record.version hash) (t.side isDict)[w.key]? name w.key = .ok () ∧
      w.version = record.version hash ∧
      t'.side isDict = (t.side isDict).insert w.key record ∧ t'.side (!isDict) = t.side (!isDict)) ∨
    ∃ key isDict, e.action = .delete key isDict e.condition ∧
      e.outcome = .deleted ((t.side isDict).contains key) ∧
      e.condition.check (Record.version hash) (t.side isDict)[key]? name key = .ok () ∧
      t'.side isDict = (t.side isDict).erase key ∧ t'.side (!isDict) = t.side (!isDict) := by
  unfold EditEvent.perform at h
  cases ha : e.action with
  | write asked record isDict condition =>
    have hcond : e.condition = condition := by simp only [EditEvent.condition, ha]
    rw [ha] at h
    simp only at h
    rcases writeRecord_cases (Record.version hash) t name asked record isDict condition e.autokey
        e.persisted e.reading with ⟨error, t₁, heq, hsame⟩ | ⟨w, t₁, heq, hcheck, hversion, hside, hother⟩
    · rw [heq, Prod.mk.injEq] at h
      exact Or.inl ⟨error, h.1.symm, h.2 ▸ hsame⟩
    · rw [heq, Prod.mk.injEq] at h
      obtain ⟨hout, rfl⟩ := h
      exact Or.inr (Or.inl ⟨asked, record, isDict, w, by rw [hcond], hout.symm,
        by rw [hcond]; exact hcheck, hversion, hside, hother⟩)
  | delete key isDict condition =>
    have hcond : e.condition = condition := by simp only [EditEvent.condition, ha]
    rw [ha] at h
    simp only at h
    rcases deleteRecord_cases (Record.version hash) t name key isDict condition with
        ⟨error, heq⟩ | ⟨t₁, heq, hcheck, hside, hother⟩
    · rw [heq, Prod.mk.injEq] at h
      exact Or.inl ⟨error, h.1.symm, h.2 ▸ ⟨rfl, rfl, rfl, rfl, rfl, rfl, rfl⟩⟩
    · rw [heq, Prod.mk.injEq] at h
      obtain ⟨hout, rfl⟩ := h
      exact Or.inr (Or.inr ⟨key, isDict, by rw [hcond], hout.symm, by rw [hcond]; exact hcheck,
        hside, hother⟩)

/-- The same, for an event known to have written. -/
theorem wrote_spec {e : EditEvent} {isDict : Bool} {key : String} {record : Record}
    {version : String} (h : e.perform hash name t = (e.outcome, t'))
    (hw : e.Wrote isDict key record version) :
    e.condition.check (Record.version hash) (t.side isDict)[key]? name key = .ok () ∧
      record.version hash = version ∧
      t'.side isDict = (t.side isDict).insert key record ∧ t'.side (!isDict) = t.side (!isDict) := by
  obtain ⟨asked, condition, minted, ha, hout⟩ := hw
  rcases edit_cases h with ⟨error, hout', -⟩ | hwrote | ⟨_, _, ha', -⟩
  · rw [hout] at hout'
    cases hout'
  · obtain ⟨asked', record', isDict', w, ha', hout', hcheck, hversion, hside, hother⟩ := hwrote
    rw [ha, EditAction.write.injEq] at ha'
    rw [hout, EditOutcome.written.injEq] at hout'
    obtain ⟨-, rfl, rfl, -⟩ := ha'
    subst hout'
    exact ⟨hcheck, hversion.symm, hside, hother⟩
  · rw [ha] at ha'
    cases ha'

theorem deleted_spec {e : EditEvent} {isDict removed : Bool} {key : String}
    (h : e.perform hash name t = (e.outcome, t')) (hd : e.Deleted isDict key removed) :
    e.condition.check (Record.version hash) (t.side isDict)[key]? name key = .ok () ∧
      removed = (t.side isDict).contains key ∧
      t'.side isDict = (t.side isDict).erase key ∧ t'.side (!isDict) = t.side (!isDict) := by
  obtain ⟨condition, ha, hout⟩ := hd
  rcases edit_cases h with ⟨error, hout', -⟩ | ⟨_, _, _, _, ha', -⟩ | hdeleted
  · rw [hout] at hout'
    cases hout'
  · rw [ha] at ha'
    cases ha'
  · obtain ⟨key', isDict', ha', hout', hcheck, hside, hother⟩ := hdeleted
    rw [ha, EditAction.delete.injEq] at ha'
    rw [hout, EditOutcome.deleted.injEq] at hout'
    obtain ⟨rfl, rfl, -⟩ := ha'
    exact ⟨hcheck, hout', hside, hother⟩

theorem swaps_step (hinj : Function.Injective hash) {e : EditEvent}
    (h : e.perform hash name t = (e.outcome, t')) : Swaps hash e t t' := by
  constructor
  · intro isDict key version hcond happlied
    have hcheck : e.condition.check (Record.version hash) (t.side isDict)[key]? name key = .ok () := by
      rcases happlied with ⟨record, new, hw⟩ | ⟨removed, hd⟩
      · exact (wrote_spec h hw).1
      · exact (deleted_spec h hd).1
    rw [hcond] at hcheck
    obtain ⟨old, hold, hversion⟩ := Condition.check_ifMatch hcheck
    refine ⟨old, hold, hversion, fun r hr => hinj ?_⟩
    rw [← hversion] at hr
    exact hr
  · intro isDict key record version hcond hw
    have hcheck := (wrote_spec h hw).1
    rw [hcond] at hcheck
    intro hmem
    rw [Std.ExtTreeMap.mem_iff_isSome_getElem?, Condition.check_ifAbsent hcheck] at hmem
    cases hmem
  · intro isDict key record version hw
    obtain ⟨-, hversion, hside, hother⟩ := wrote_spec h hw
    refine ⟨?_, hversion, hside, hother⟩
    rw [hside, Std.ExtTreeMap.getElem?_insert_self]
  · intro isDict key removed hd
    exact (deleted_spec h hd).2
  · intro detail hout
    rcases edit_cases h with ⟨_, _, hsame⟩ | ⟨_, _, _, _, _, hout', _⟩ | ⟨_, _, _, hout', _⟩
    · exact hsame
    · rw [hout] at hout'
      cases hout'
    · rw [hout] at hout'
      cases hout'

/-! ## Whole runs -/

/-- A key that is there stays, unless the section deletes it. -/
theorem kept_or_deleted_step {e : EditEvent} {isDict : Bool} {key : String}
    (h : e.perform hash name t = (e.outcome, t')) (hkey : key ∈ t.side isDict) :
    key ∈ t'.side isDict ∨ e.Deleted isDict key true := by
  rcases edit_cases h with ⟨_, _, hsame⟩ | hwrote | hdeleted
  · left
    unfold Table.side
    rw [hsame.records, hsame.dictionary]
    exact hkey
  · obtain ⟨_, record, isDict', w, -, -, -, -, hside, hother⟩ := hwrote
    left
    by_cases hd : isDict' = isDict
    · subst hd
      rw [hside]
      exact Std.ExtTreeMap.mem_insert.mpr (Or.inr hkey)
    · obtain rfl : isDict = !isDict' := by cases isDict <;> cases isDict' <;> simp_all
      rw [hother]
      exact hkey
  · obtain ⟨key', isDict', ha, hout, -, hside, hother⟩ := hdeleted
    by_cases hd : isDict' = isDict
    · subst hd
      by_cases hk : key' = key
      · subst hk
        right
        exact ⟨_, ha, by rw [hout, Std.ExtTreeMap.contains_iff_mem.mpr hkey]⟩
      · left
        rw [hside, Std.ExtTreeMap.mem_erase]
        exact ⟨by simpa using hk, hkey⟩
    · left
      obtain rfl : isDict = !isDict' := by cases isDict <;> cases isDict' <;> simp_all
      rw [hother]
      exact hkey

theorem kept_or_deleted_run {es : List EditEvent} {isDict : Bool} {key : String}
    (h : EditRun hash name t es t') (hkey : key ∈ t.side isDict) :
    key ∈ t'.side isDict ∨ ∃ d ∈ es, d.Deleted isDict key true := by
  induction h with
  | nil t => exact Or.inl hkey
  | cons hstep _ ih =>
    rcases kept_or_deleted_step hstep hkey with hkept | hdel
    · rcases ih hkept with hlast | ⟨d, hd, hdel⟩
      · exact Or.inl hlast
      · exact Or.inr ⟨d, List.mem_cons_of_mem _ hd, hdel⟩
    · exact Or.inr ⟨_, List.mem_cons_self, hdel⟩

theorem EditRun.split {pre post : List EditEvent} :
    EditRun hash name t (pre ++ post) t' →
    ∃ t₁, EditRun hash name t pre t₁ ∧ EditRun hash name t₁ post t' := by
  induction pre generalizing t with
  | nil =>
    intro h
    exact ⟨t, .nil t, h⟩
  | cons e pre ih =>
    intro h
    cases h with
    | cons hstep hrest =>
      obtain ⟨t₁, hpre, hpost⟩ := ih hrest
      exact ⟨t₁, .cons hstep hpre, hpost⟩

end

theorem conditional_writes_swap (hash : Bytes → String) (hinj : Function.Injective hash)
    (name : String) {t t' : Table} {es : List EditEvent} (hrun : EditRun hash name t es t') :
    CompareAndSwap hash name t es := by
  constructor
  · intro pre e post t₁ t₂ _ _ hstep
    exact swaps_step hinj hstep
  · intro pre e₁ mid e₂ post isDict key r₁ r₂ v₁ v₂ hes _ hw₁ hcond₂ hw₂
    subst hes
    obtain ⟨t₁, -, hrest⟩ := hrun.split
    cases hrest with
    | cons hstep₁ hrest =>
      rename_i t₂
      obtain ⟨-, -, hside, -⟩ := wrote_spec hstep₁ hw₁
      have hthere : key ∈ t₂.side isDict := by
        rw [hside]
        exact Std.ExtTreeMap.mem_insert_self
      obtain ⟨t₃, hmid, hrest⟩ := hrest.split
      rcases kept_or_deleted_run hmid hthere with hkept | hdel
      · cases hrest with
        | cons hstep₂ _ => exact absurd hkept ((swaps_step hinj hstep₂).absent _ _ _ _ hcond₂ hw₂)
      · exact hdel

/-! ## Two clients and one key -/

/-- The outcomes the sections come to, one after another. -/
def editOutcomes (hash : Bytes → String) (name : String) : Table → List EditEvent → List EditOutcome
  | _, [] => []
  | t, e :: es => (e.perform hash name t).1 :: editOutcomes hash name (e.perform hash name t).2 es

theorem editRun_of_outcomes {hash : Bytes → String} {name : String} :
    ∀ {es : List EditEvent} {t : Table},
    editOutcomes hash name t es = es.map EditEvent.outcome → ∃ t', EditRun hash name t es t' := by
  intro es
  induction es with
  | nil =>
    intro t _
    exact ⟨t, .nil t⟩
  | cons e es ih =>
    intro t h
    simp only [editOutcomes, List.map_cons, List.cons.injEq] at h
    obtain ⟨t', hrun⟩ := ih h.2
    exact ⟨t', .cons (by rw [← h.1]) hrun⟩

/-- A hash that keeps every byte. -/
def plainHash (b : Bytes) : String := String.ofList (b.map fun x => Char.ofNat x.toNat)

theorem plainHash_injective : Function.Injective plainHash := by
  have hback : ∀ n < 256, (Char.ofNat n).toNat = n := by decide +kernel
  intro a b h
  have hlist := String.ofList_injective h
  refine List.map_injective_iff.mpr ?_ hlist
  intro x y hxy
  have hnat := congrArg Char.toNat hxy
  rw [hback _ x.toNat_lt, hback _ y.toNat_lt] at hnat
  exact UInt8.toNat_inj.mp hnat

def editOf (client : String) (action : EditAction) (outcome : EditOutcome) : EditEvent :=
  { client := client
    action := action
    autokey := false
    persisted := none
    reading := 0
    outcome := outcome }

def storedAs (version : String) : EditOutcome :=
  .written { key := "K", version := version, minted := false }

/-- Two clients create, overwrite and delete `"K"`, each once too late. -/
def twoClients : List EditEvent :=
  [editOf "A" (.write (some "K") (.text "1") false .ifAbsent) (storedAs "1"),
    editOf "B" (.write (some "K") (.text "2") false .ifAbsent) (.refused (.preconditionFailed
      "Record 'K' in file 'F' already exists, and if_absent asked for it not to")),
    editOf "B" (.write (some "K") (.text "2") false (.ifMatch "1")) (storedAs "2"),
    editOf "A" (.delete "K" false (.ifMatch "1")) (.refused (.preconditionFailed
      ("Record 'K' in file 'F' has version 2, not the 1 if_match named: it was changed since " ++
        "it was read"))),
    editOf "A" (.delete "K" false (.ifMatch "2")) (.deleted true),
    editOf "B" (.write (some "K") (.text "3") false .ifAbsent) (storedAs "3")]

theorem conditional_writes_two_clients :
    ∃ t, EditRun plainHash "F" {} twoClients t ∧ CompareAndSwap plainHash "F" {} twoClients := by
  have houts : editOutcomes plainHash "F" {} twoClients = twoClients.map EditEvent.outcome := by
    decide +kernel
  obtain ⟨t, hrun⟩ := editRun_of_outcomes houts
  exact ⟨t, hrun, conditional_writes_swap plainHash plainHash_injective "F" hrun⟩

end RustyPick
