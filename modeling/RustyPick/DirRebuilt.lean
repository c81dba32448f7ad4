import RustyPick.SetFile
import RustyPick.RecordCodec

/-!
# RustyPick.DirRebuilt

`DIR` rebuilt (`sync_dir_file_for_account` in `db/engine/mod.rs`): the listing again, with the
attributes of the old entries, flushed and read back.

* `of_stored_toRecord`: attributes a request can settle come back from their entry, the path
  trimmed.
* `survive_iff`: the attributes of every file survive, exactly where what is cached of a file, and
  lost with the reload, is what its entry says.
-/

namespace RustyPick

open Lib

namespace FileAttributes

/-- The attributes with the path as an entry is read. -/
def trimmed (a : FileAttributes) : FileAttributes :=
  { a with directory := a.directory.map fun policy => { path := trim policy.path } }

/-- What `file_attributes` can produce: from requests, over the attributes of a file that is being
created, of any entry, or of an earlier request. -/
inductive Produced : FileAttributes → Prop where
  | new : Produced {}
  | read (record : Record) : Produced (of record)
  | settled {current a : FileAttributes} (h : Produced current) (req : FileRequest)
      (hok : fileAttributes req current = .ok a) : Produced a

/-! ## The limits of a policy -/

end FileAttributes

/-- A policy in whole seconds and within its limits. -/
def QueuePolicy.Within (policy : QueuePolicy) : Prop :=
  (∃ seconds, 0 < seconds ∧ seconds ≤ MAX_VISIBILITY_SECONDS ∧
    policy.visibility = seconds * 1000) ∧
  0 < policy.maxDeliveries ∧ policy.maxDeliveries ≤ MAX_DELIVERY_LIMIT

theorem QueuePolicy.within_default : QueuePolicy.Within {} :=
  ⟨⟨60, by decide, by decide, rfl⟩, by decide, by decide⟩

theorem QueuePolicy.within_fromAttributes (timeout deliveries : String) :
    (QueuePolicy.fromAttributes timeout deliveries).Within := by
  unfold QueuePolicy.fromAttributes
  constructor
  · cases hseconds : (parseU64 (trim timeout)).filter fun seconds => 0 < seconds with
    | none => exact ⟨60, by decide, by decide, rfl⟩
    | some seconds =>
      have hpos := of_decide_eq_true (Option.filter_eq_some_iff.mp hseconds).2
      exact ⟨min seconds MAX_VISIBILITY_SECONDS, lt_min hpos (by decide), min_le_right _ _, rfl⟩
  · cases hcount : (parseU32 (trim deliveries)).filter fun count => 0 < count with
    | none => exact ⟨Nat.succ_pos 4, show 5 ≤ MAX_DELIVERY_LIMIT by decide⟩
    | some count =>
      have hpos := of_decide_eq_true (Option.filter_eq_some_iff.mp hcount).2
      exact ⟨lt_min hpos (by decide), min_le_right _ _⟩

theorem limited_ok {named : Option Nat} {limit : Nat} {message : String} {n : Option Nat}
    (h : limited named limit message = .ok n) : ∀ k, n = some k → 1 ≤ k ∧ k ≤ limit := by
  intro k hk
  unfold limited at h
  split at h
  · cases h
    cases hk
  · split at h
    · rename_i hwithin
      cases h
      cases hk
      exact hwithin
    · cases h

theorem queuePolicy_within {req : FileRequest} {existing policy : QueuePolicy}
    (hexisting : existing.Within) (h : queuePolicy req existing = .ok policy) : policy.Within := by
  unfold queuePolicy at h
  obtain ⟨seconds, hseconds, h⟩ := ok_of_bind h
  obtain ⟨deliveries, hdeliveries, h⟩ := ok_of_bind h
  cases h
  constructor
  · cases seconds with
    | none => exact hexisting.1
    | some n =>
      obtain ⟨hpos, hle⟩ := limited_ok hseconds n rfl
      exact ⟨n, hpos, hle, rfl⟩
  · cases deliveries with
    | none => exact hexisting.2
    | some n =>
      obtain ⟨hpos, hle⟩ := limited_ok hdeliveries n rfl
      exact ⟨hpos, hle⟩

namespace FileAttributes

/-! ## What can be produced -/

theorem stated_of (record : Record) : (of record).Stated := by
  unfold of
  split
  · refine ⟨fun policy hp => ?_, by rintro _ ⟨⟩⟩
    obtain rfl := Option.some.inj hp
    exact ⟨rfl, rfl, rfl, trim_trim _⟩
  · refine ⟨by rintro _ ⟨⟩, fun policy hp => ?_⟩
    dsimp only at hp ⊢
    split at hp
    · rename_i hqueue
      obtain rfl := Option.some.inj hp
      exact ⟨by rw [hqueue, Bool.not_true, Bool.and_false], QueuePolicy.within_fromAttributes _ _⟩
    · cases hp

theorem trimmed_of_stated {a : FileAttributes} (h : a.Stated) : a.trimmed = a := by
  obtain ⟨durable, queue, directory, autokey⟩ := a
  cases directory with
  | none => rfl
  | some policy =>
    obtain ⟨-, -, -, hpath⟩ := h.directory policy rfl
    rw [trimmed, Option.map_some, hpath]

theorem stated_trimmed {a : FileAttributes} (hsettled : a.Settled)
    (hqueue : ∀ policy, a.queue = some policy → a.autokey = false ∧ policy.Within) :
    a.trimmed.Stated := by
  refine ⟨fun policy hp => ?_, hqueue⟩
  obtain ⟨before, hbefore, rfl⟩ := Option.map_eq_some_iff.mp hp
  obtain ⟨hdurable, hnone, hautokey⟩ := hsettled (Option.isSome_of_eq_some hbefore)
  exact ⟨hdurable, hnone, hautokey, trim_trim _⟩

theorem Produced.stated {a : FileAttributes} (h : Produced a) : a.trimmed.Stated := by
  induction h with
  | new => exact stated_trimmed AttributeStore.settled_default (by rintro _ ⟨⟩)
  | read record =>
    rw [trimmed_of_stated (stated_of record)]
    exact stated_of record
  | @settled current a _ req hok ih =>
    refine stated_trimmed (fileAttributes_settled hok) fun policy hp => ?_
    obtain ⟨-, hok⟩ := passed hok
    split at hok
    · obtain ⟨-, -, -, -, -, rfl⟩ := directoryAttributes_ok hok
      cases hp
    · obtain ⟨-, ⟨-, rfl⟩ | ⟨-, -, policy', hpolicy, rfl⟩⟩ := hashedAttributes_ok hok
      · cases hp
      · cases hp
        refine ⟨rfl, queuePolicy_within ?_ hpolicy⟩
        cases hcurrent : current.queue with
        | none => exact QueuePolicy.within_default
        | some existing => exact (ih.queue existing hcurrent).2

/-! ## The entry written, flushed and read -/

theorem stored_toRecord (a : FileAttributes) : a.toRecord.stored = a.toRecord := by
  apply Record.stored_eq
  · intro f hf
    obtain ⟨text, -, rfl⟩ := List.mem_map.mp hf
    intro v hv
    rw [List.mem_singleton.mp hv]
    exact Value.plain_text text
  · refine ⟨List.cons_ne_nil _ _, fun f hf => ?_⟩
    obtain ⟨text, -, rfl⟩ := List.mem_map.mp hf
    refine ⟨List.cons_ne_nil _ _, fun v hv => ?_⟩
    rw [List.mem_singleton.mp hv]
    exact List.cons_ne_nil _ _
  · intro hblank
    have hlen := congrArg (fun r => r.fields.length) hblank
    exact absurd hlen (by simp [toRecord, texts, Record.blank])

/-- The type, the flags and the numbers are the same words, and the path is trimmed as it is
read. -/
theorem of_toRecord_trimmed (a : FileAttributes) : of a.toRecord = of a.trimmed.toRecord := by
  have hdisplay := a.fieldDisplay_toRecord
  have hdisplay' := a.trimmed.fieldDisplay_toRecord
  obtain ⟨durable, queue, directory, autokey⟩ := a
  cases directory with
  | none => rfl
  | some policy =>
    unfold of
    rw [hdisplay DIR_TYPE_IDX DIR_TYPE_DIRECTORY rfl, hdisplay DIR_PATH_IDX policy.path rfl,
      hdisplay' DIR_TYPE_IDX DIR_TYPE_DIRECTORY rfl, hdisplay' DIR_PATH_IDX (trim policy.path) rfl,
      if_pos (by decide +kernel), if_pos (by decide +kernel), trim_trim]

theorem of_stored_toRecord {a : FileAttributes} (h : a.trimmed.Stated) :
    of (Record.fromBytes a.toRecord.toBytes) = a.trimmed := by
  have hstored : Record.fromBytes a.toRecord.toBytes = a.toRecord := stored_toRecord a
  rw [hstored, of_toRecord_trimmed, of_toRecord h]

theorem of_stored_toRecord_of (record : Record) :
    of (Record.fromBytes (of record).toRecord.toBytes) = of record := by
  have h := stated_of record
  rw [of_stored_toRecord (by rwa [trimmed_of_stated h]), trimmed_of_stated h]

theorem of_stored_toRecord_default :
    of (Record.fromBytes (toRecord {}).toBytes) = {} := of_stored_toRecord Produced.new.stated

end FileAttributes

/-! ## The listing rebuilt -/

namespace AttributeStore

open FileAttributes

/-- `DIR` flushed and read again. The cached attributes that go with it: none where `DIR` alone is
read again, all of them where the database is opened again. -/
def reload (s : AttributeStore) (account : String) (forgotten : String → Bool) : AttributeStore :=
  { s with
    entries := fun a n =>
      if a = account then (s.entries a n).map fun record => Record.fromBytes record.toBytes
      else s.entries a n
    cache := fun a n => if a = account ∧ forgotten n then none else s.cache a n }

/-- What a rebuild is to leave as it was. -/
structure Survives (before after : AttributeStore) (account : String) : Prop where
  attributes : ∀ name, before.tables account name = true →
    (after.attributesOf account name).trimmed = (before.attributesOf account name).trimmed
  listing : ∀ name, (after.entries account name).isSome ↔
    before.tables account name = true ∧ name ≠ "DIR"

variable {s : AttributeStore} {account : String}

theorem stored_trimmed (name : String) : (s.stored account name).trimmed = s.stored account name := by
  unfold stored
  split
  · cases s.entries account name with
    | none => rw [Option.map_none, Option.getD_none]; rfl
    | some record =>
      rw [Option.map_some, Option.getD_some]
      exact trimmed_of_stated (stated_of record)
  · rfl

/-- What the rebuilt `DIR` says of a file that is there is what the old one said. -/
theorem stored_rebuilt (forgotten : String → Bool) {name : String}
    (h : s.tables account name = true) :
    ((s.syncDir account).reload account forgotten).stored account name = s.stored account name := by
  unfold stored
  have htables : ((s.syncDir account).reload account forgotten).tables = s.tables := rfl
  rw [htables]
  by_cases hdir : name ≠ "DIR" ∧ s.tables account "DIR"
  · rw [if_pos hdir, if_pos hdir]
    have hentry : ((s.syncDir account).reload account forgotten).entries account name =
        some (Record.fromBytes
          (((s.entries account name).map FileAttributes.of).getD {}).toRecord.toBytes) := by
      simp only [reload, syncDir, if_true, h, hdir.1, ne_eq, not_false_eq_true, and_self,
        Option.map_some]
    rw [hentry, Option.map_some, Option.getD_some]
    cases s.entries account name with
    | none =>
      rw [Option.map_none, Option.getD_none]
      exact of_stored_toRecord_default
    | some record =>
      rw [Option.map_some, Option.getD_some]
      exact of_stored_toRecord_of record
  · rw [if_neg hdir, if_neg hdir]

theorem listing_rebuilt (forgotten : String → Bool) (name : String) :
    (((s.syncDir account).reload account forgotten).entries account name).isSome ↔
      s.tables account name = true ∧ name ≠ "DIR" := by
  simp only [reload, syncDir, if_true, Option.isSome_map]
  split
  · rename_i h
    exact iff_of_true rfl h
  · rename_i h
    exact iff_of_false Bool.false_ne_true h

/-- Attributes survive `DIR`, exactly where every file's attributes that are forgotten with the
reload are, the path trimmed, what its entry says. -/
theorem survive_iff (forgotten : String → Bool) (_ : s.tables account "DIR" = true) :
    ((∀ a, Produced a → of (Record.fromBytes a.toRecord.toBytes) = a.trimmed) ∧
      s.Survives ((s.syncDir account).reload account forgotten) account) ↔
    ∀ name, s.tables account name = true → forgotten name → ∀ a, s.cache account name = some a →
      a.trimmed = s.stored account name := by
  have hcache : ∀ name, ((s.syncDir account).reload account forgotten).cache account name =
      if forgotten name then none else s.cache account name := by
    intro name
    simp only [reload, syncDir, true_and]
  constructor
  · rintro ⟨-, hsurvives⟩ name hname hforgotten a ha
    have hsame := hsurvives.attributes name hname
    rw [attributesOf, attributesOf, hcache, if_pos hforgotten, ha, Option.getD_none,
      Option.getD_some, stored_rebuilt forgotten hname, stored_trimmed] at hsame
    exact hsame.symm
  · intro hagree
    refine ⟨fun a ha => of_stored_toRecord ha.stated, fun name hname => ?_,
      listing_rebuilt forgotten⟩
    rw [attributesOf, attributesOf, hcache, stored_rebuilt forgotten hname]
    by_cases hforgotten : forgotten name
    · rw [if_pos hforgotten, Option.getD_none, stored_trimmed]
      cases ha : s.cache account name with
      | none => rw [Option.getD_none, stored_trimmed]
      | some a => exact (hagree name hname hforgotten a ha).symm
    · rw [if_neg hforgotten]

section

/-- An account whose only file is its `DIR`. -/
def listed : AttributeStore where
  tables account name := decide (account = "SALES" ∧ name = "DIR")
  entries _ _ := none
  cache _ _ := none

theorem listed_reachable : listed.Reachable := .opened _ (fun _ _ => rfl) fun _ => by simp [listed]

def jobsQueue : FileRequest := { file := some "JOBS", queue := some true }

def queued : AttributeStore := (listed.createFile (some "SALES") jobsQueue (.ok ()) {}).2

theorem queued_cache : queued.cache =
    put listed.cache "SALES" "JOBS" (some { durable := true, queue := some {} }) := rfl

theorem queued_stored : queued.stored "SALES" "JOBS" = { durable := true, queue := some {} } := by
  decide +kernel

/-- A queue that has just been made is one after its database has been opened again. -/
theorem queued_survives :
    queued.Survives ((queued.syncDir "SALES").reload "SALES" fun _ => true) "SALES" := by
  refine ((survive_iff (fun _ => true) (by decide +kernel)).mpr fun name _ _ a ha => ?_).2
  rw [queued_cache] at ha
  by_cases hname : name = "JOBS"
  · subst hname
    rw [put_self, Option.some.injEq] at ha
    rw [queued_stored, ← ha]
    rfl
  · rw [put, if_neg fun heq => hname heq.2] at ha
    cases ha

/-- The queue is deleted, a `SET.FILE` of it is refused, and after another file has been created it
is created again, as an ordinary file. -/
def recreated : AttributeStore :=
  let deleted := queued.deleteTable "SALES" "JOBS"
  let durable : FileRequest := { file := some "JOBS", durable := some true }
  let refused := (deleted.setFile (some "SALES") durable true {}).2
  let other := (refused.createFile (some "SALES") { file := some "NOTES" } (.ok ()) {}).2
  (other.createFile (some "SALES") { file := some "JOBS" } (.ok ()) {}).2

theorem recreated_reachable : recreated.Reachable :=
  .step (.step (.step (.step (.step listed_reachable (.createFile _ _ _ _ _)) (.delete _ _ _))
    (.setFile _ _ _ _ _)) (.createFile _ _ _ _ _)) (.createFile _ _ _ _ _)

theorem recreated_cache :
    recreated.cache "SALES" "JOBS" = some { durable := true, queue := some {} } := by
  decide +kernel

theorem recreated_stored : recreated.stored "SALES" "JOBS" = {} := by decide +kernel

/-- The file answers as a queue, and as an ordinary file once its database has been opened again. -/
theorem recreated_lost : recreated.Reachable ∧ recreated.tables "SALES" "DIR" = true ∧
    ¬recreated.Survives ((recreated.syncDir "SALES").reload "SALES" fun _ => true) "SALES" := by
  refine ⟨recreated_reachable, by decide +kernel, fun hsurvives => ?_⟩
  have hexists : recreated.tables "SALES" "JOBS" = true := by decide +kernel
  have hsame := hsurvives.attributes "JOBS" hexists
  have hcache : ((recreated.syncDir "SALES").reload "SALES" fun _ => true).cache "SALES" "JOBS" =
      none := by
    simp only [reload, and_self, if_true]
  rw [attributesOf, attributesOf, hcache, Option.getD_none, stored_rebuilt _ hexists,
    recreated_stored, recreated_cache, Option.getD_some] at hsame
  exact absurd hsame (by decide)

end

end AttributeStore

end RustyPick
