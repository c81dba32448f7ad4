import RustyPick.IndexRun

/-!
# RustyPick.IndexExact

The postings of an index against those a rebuild would compute.

A query is served by an index that covers the records (`RustyPick.IndexRun`). What is reported of an
index and what is written of it need more: no key of a record that is gone, and no empty posting
list. A maintained change keeps that as a rebuild establishes it. An edit in place has to leave the
record its index keys, and a record taken out for the dead letters must have had none.

* `exact_iff`: exactness, one posting at a time.
* `postings_exact`: in every table a run of such commands reaches, every index that is not marked
  for a rebuild is exact.
-/

namespace RustyPick

open Lib

/-- No posting list is empty. -/
def NoneEmpty (postings : Map String (Finset String)) : Prop :=
  ∀ value : String, postings[value]? ≠ some ∅

/-- Posting lists without an empty one are told apart by what is posted. -/
theorem postings_ext {p p' : Map String (Finset String)} (h : NoneEmpty p) (h' : NoneEmpty p')
    (hposted : ∀ k v, Posted p k v ↔ Posted p' k v) : p = p' := by
  refine Std.ExtTreeMap.ext_getElem? fun value => ?_
  have hsame : p[value]?.getD ∅ = p'[value]?.getD ∅ := Finset.ext fun k => hposted k value
  cases hv : p[value]? with
  | none =>
    cases hv' : p'[value]? with
    | none => rfl
    | some keys =>
      rw [hv, hv', Option.getD_none, Option.getD_some] at hsame
      exact absurd (hsame ▸ hv') (h' value)
  | some keys =>
    cases hv' : p'[value]? with
    | none =>
      rw [hv, hv', Option.getD_none, Option.getD_some] at hsame
      exact absurd (hsame ▸ hv) (h value)
    | some keys' =>
      rw [hv, hv', Option.getD_some, Option.getD_some] at hsame
      rw [hsame]

namespace FileIndex

theorem noneEmpty_post {postings : Map String (Finset String)} (h : NoneEmpty postings)
    (key value : String) : NoneEmpty (post key postings value) := by
  intro v
  unfold post
  rw [getElem?_insert_eq]
  split
  · rw [ne_eq, Option.some.injEq]
    exact Finset.insert_ne_empty _ _
  · exact h v

theorem noneEmpty_withdraw {postings : Map String (Finset String)} (h : NoneEmpty postings)
    (key value : String) : NoneEmpty (withdraw key postings value) := by
  intro v
  unfold withdraw
  split
  · split
    · rw [getElem?_erase_eq]
      split
      · exact nofun
      · exact h v
    · rename_i hne
      rw [getElem?_insert_eq]
      split
      · rwa [ne_eq, Option.some.injEq]
      · exact h v
  · exact h v

theorem noneEmpty_postKeys (excluded : Finset String) (key : String) (values : List String) :
    ∀ {postings}, NoneEmpty postings → NoneEmpty (postKeys excluded key values postings) := by
  induction values with
  | nil => intro postings h; exact h
  | cons value values ih =>
    intro postings h
    rw [postKeys, List.foldl_cons]
    split
    · exact ih h
    · exact ih (noneEmpty_post h key value)

theorem noneEmpty_rebuild (idx : FileIndex) (records : Map String Record) (attr : Nat) :
    NoneEmpty (idx.rebuild records attr).postings := by
  have hfold : ∀ (entries : List (String × Record)) {postings}, NoneEmpty postings →
      NoneEmpty (entries.foldl (fun postings entry =>
        postKeys idx.excluded entry.1 (keysOf (some entry.2) attr) postings) postings) := by
    intro entries
    induction entries with
    | nil => intro postings h; exact h
    | cons entry entries ih => intro postings h; exact ih (noneEmpty_postKeys _ _ _ h)
  exact hfold records.toList fun value => by simp

theorem noneEmpty_apply {idx : FileIndex} (h : NoneEmpty idx.postings) (key : String)
    (old new : Option Record) : NoneEmpty (idx.apply key old new).postings := by
  have hwithdraw : ∀ (values kept : List String) {idx : FileIndex}, NoneEmpty idx.postings →
      NoneEmpty (values.foldl (withdrawValue key kept) idx).postings := by
    intro values kept
    induction values with
    | nil => intro idx h; exact h
    | cons value values ih =>
      intro idx h
      refine ih ?_
      unfold withdrawValue
      split
      · exact h
      · exact noneEmpty_withdraw h key value
  have hpost : ∀ (values present : List String) {idx : FileIndex}, NoneEmpty idx.postings →
      NoneEmpty (values.foldl (postValue key present) idx).postings := by
    intro values present
    induction values with
    | nil => intro idx h; exact h
    | cons value values ih =>
      intro idx h
      refine ih ?_
      unfold postValue
      split
      · exact h
      · exact noneEmpty_post h key value
  exact hpost _ _ (hwithdraw _ _ h)

/-- The postings are those a rebuild would compute. -/
def Exact (idx : FileIndex) (records : Map String Record) : Prop :=
  idx.postings = (idx.rebuild records idx.attr).postings

theorem exact_iff {idx : FileIndex} {records : Map String Record} :
    idx.Exact records ↔ NoneEmpty idx.postings ∧ ∀ k v, Posted idx.postings k v ↔
      ∃ record, records[k]? = some record ∧ v ∈ idx.retained (some record) := by
  have hrebuilt : ∀ k v, Posted (idx.rebuild records idx.attr).postings k v ↔
      ∃ record, records[k]? = some record ∧ v ∈ idx.retained (some record) := by
    intro k v
    rw [posted_rebuild]
    simp only [mem_retained]
  constructor
  · intro h
    rw [Exact] at h
    rw [h]
    exact ⟨noneEmpty_rebuild idx records idx.attr, hrebuilt⟩
  · rintro ⟨hnone, hposted⟩
    exact postings_ext hnone (noneEmpty_rebuild idx records idx.attr) fun k v =>
      (hposted k v).trans (hrebuilt k v).symm

/-- Exact postings and records that differ at one key, where `apply` is told of both records. -/
theorem exact_apply {idx : FileIndex} {records records' : Map String Record} {key : String}
    (h : idx.Exact records) (hne : ∀ k, k ≠ key → records'[k]? = records[k]?) :
    (idx.apply key records[key]? records'[key]?).Exact records' := by
  rw [exact_iff] at h ⊢
  obtain ⟨hnone, hposted⟩ := h
  refine ⟨noneEmpty_apply hnone key _ _, fun k v => ?_⟩
  rw [posted_apply, hposted]
  simp only [(apply_sameShape idx _ _ _).retained]
  have hretained : ∀ r : Option Record, v ∈ idx.retained r ↔
      ∃ record, r = some record ∧ v ∈ idx.retained (some record) := by
    intro r
    cases r with
    | none => simp [retained]
    | some record => simp
  by_cases hk : k = key
  · subst hk
    rw [← hretained, ← hretained]
    grind
  · rw [hne k hk]
    grind

end FileIndex

/-! ## Any command -/

theorem maintained_exact : Maintained FileIndex.Exact where
  rebuild := fun _ _ _ => rfl
  apply := FileIndex.exact_apply
  same := by
    intro idx idx' records h hexact
    obtain ⟨-, hattr, hpost, hex, -⟩ := h
    rw [FileIndex.Exact, hpost, hexact, hattr]
    simp only [FileIndex.rebuild, hex]

/-- An edit in place that leaves the record the index keys it had, in every index that is
consulted. -/
def KeepsIndexKeys (t : Table) (name : String) (edit : Record → Record) : Prop :=
  ∀ (record : Record) (field : String) (idx : FileIndex), t.records[name]? = some record →
    t.indexes[field]? = some idx → idx.needsRebuild = false →
    ∀ value, value ∈ idx.retained (some (edit record)) ↔ value ∈ idx.retained (some record)

/-- No index that is consulted has a key of the record. -/
def HasNoIndexKey (t : Table) (name : String) : Prop :=
  ∀ (record : Record) (field : String) (idx : FileIndex), t.records[name]? = some record →
    t.indexes[field]? = some idx → idx.needsRebuild = false → idx.retained (some record) = []

/-- What a command has to be for the postings to stay exact. -/
def TableAction.KeepsExact (file : String) (t : Table) : TableAction → Prop
  | .addClientAccount name account =>
    KeepsIndexKeys t name fun record => (Table.withAccount record account).2
  | .removeClientAccount name account =>
    KeepsIndexKeys t name fun record => (Table.withoutAccount record account).2
  | .queue action now => ∀ key ∈ action.buried file t now, HasNoIndexKey t key
  | _ => True

theorem editable_exact {t : Table} {name : String} {edit : Record → Record}
    (h : KeepsIndexKeys t name edit) : Editable FileIndex.Exact t name edit := by
  intro record field idx hrec hidx hfresh hexact
  rw [FileIndex.exact_iff] at hexact ⊢
  refine ⟨hexact.1, fun k v => ?_⟩
  rw [hexact.2, getElem?_insert_eq]
  split
  · rename_i hk
    subst hk
    simp [hrec, h record field idx hrec hidx hfresh v]
  · rfl

theorem removable_exact {t : Table} {key : String} (h : HasNoIndexKey t key) :
    Removable FileIndex.Exact t key := by
  intro field idx hidx hfresh records hfewer hexact
  rw [FileIndex.exact_iff] at hexact ⊢
  refine ⟨hexact.1, fun k v => ?_⟩
  rw [hexact.2, getElem?_erase_eq]
  split
  · rename_i hk
    subst hk
    constructor
    · rintro ⟨record, hrec, hv⟩
      rw [h record field idx (hfewer key record hrec) hidx hfresh] at hv
      cases hv
    · rintro ⟨record, hrec, -⟩
      cases hrec
  · rfl

theorem minded_exact {file : String} (t : Table) (action : TableAction)
    (h : action.KeepsExact file t) : action.Minded FileIndex.Exact file t := by
  cases action with
  | addClientAccount client account => exact editable_exact h
  | removeClientAccount client account => exact editable_exact h
  | queue action now => exact fun key hkey => removable_exact (h key hkey)
  | _ => trivial

/-- In every table a run reaches whose edits in place leave the index keys as they were and whose
dead letters have none, an index that is not marked for a rebuild has the postings a rebuild would
compute from the records. -/
theorem postings_exact (digest : Record → String) (name : String) {t₀ t : Table}
    (h₀ : EveryIndex FileIndex.Exact t₀) {actions : List TableAction}
    (hkeeps : EachMeets digest name (fun t action => action.KeepsExact name t) t₀ actions)
    (hrun : runActions digest name t₀ actions = some t) :
    ∀ (field : String) (idx : FileIndex), t.indexes[field]? = some idx →
      idx.needsRebuild = false → idx.postings = (idx.rebuild t.records idx.attr).postings := by
  intro field idx hidx hfresh
  exact (kept_run maintained_exact minded_exact actions h₀ hkeeps hrun field idx hidx).2 hfresh

/-! ### Two runs on one queue file -/

/-- A command that edits no record in place and takes none out for the dead letters. -/
def maintains (file : String) (t : Table) : TableAction → Bool
  | .addClientAccount _ _ | .removeClientAccount _ _ => false
  | .queue action now => (action.buried file t now).isEmpty
  | _ => true

/-- A run whose commands all are such, by evaluation. -/
def allMaintain (digest : Record → String) (file : String) (t : Table) : List TableAction → Bool
  | [] => true
  | action :: rest => maintains file t action &&
    match action.perform digest file t with
    | some t' => allMaintain digest file t' rest
    | none => true

theorem eachMeets_of_allMaintain {digest : Record → String} {file : String}
    (actions : List TableAction) : ∀ {t : Table}, allMaintain digest file t actions = true →
      EachMeets digest file (fun t action => action.KeepsExact file t) t actions := by
  induction actions with
  | nil => intro _ _; exact trivial
  | cons action rest ih =>
    intro t h
    obtain ⟨hone, hrest⟩ := Bool.and_eq_true_iff.mp h
    refine ⟨?_, fun t' hp => ?_⟩
    · cases action with
      | addClientAccount client account => cases hone
      | removeClientAccount client account => cases hone
      | queue action now =>
        intro key hkey
        rw [List.isEmpty_iff.mp hone] at hkey
        cases hkey
      | _ => trivial
    · rw [hp] at hrest
      exact ih hrest

def flagDictionary : Map String Record :=
  insertAll ∅ [("FLAG", Record.text "1")]

/-- A queue file with an index on `FLAG`, and one record enqueued and claimed. -/
def flaggedClaim : List TableAction :=
  [.dictionary flagDictionary, .createIndex "FLAG" ∅, .queue (.attach .absent) 0,
    .queue (.enqueue (Record.text "URGENT") none) 5,
    .queue (.dequeue "worker" none { visibility := 1000, maxDeliveries := 1 }) 5]

def flaggedKey : String := formatKey (5 * SUB_MILLISECOND)

/-- What the index on `FLAG` lists after a run on a new file, and what a rebuild would list. -/
def listedAfter (actions : List TableAction) :
    Option (List (String × Finset String) × List (String × Finset String)) :=
  (runActions (fun _ => "") "JOBS" {} actions).bind fun t => t.indexes["FLAG"]?.bind fun idx =>
    if idx.needsRebuild then none
    else some (idx.postings.toList, (idx.rebuild t.records idx.attr).postings.toList)

theorem listedAfter_eq_some {actions : List TableAction}
    {listed rebuilt : List (String × Finset String)}
    (h : listedAfter actions = some (listed, rebuilt)) :
    ∃ t idx, runActions (fun _ => "") "JOBS" {} actions = some t ∧
      t.indexes["FLAG"]? = some idx ∧ idx.needsRebuild = false ∧
      idx.postings.toList = listed ∧ (idx.rebuild t.records idx.attr).postings.toList = rebuilt := by
  obtain ⟨t, hrun, h⟩ := Option.bind_eq_some_iff.mp h
  obtain ⟨idx, hidx, h⟩ := Option.bind_eq_some_iff.mp h
  split at h
  · cases h
  · rename_i hfresh
    rw [Option.some.injEq, Prod.mk.injEq] at h
    exact ⟨t, idx, hrun, hidx, Bool.eq_false_iff.mpr hfresh, h.1, h.2⟩

/-- An acknowledged record leaves the index with the queue. -/
theorem acknowledged_leaves_the_index :
    ∃ t idx, runActions (fun _ => "") "JOBS" {} (flaggedClaim ++
        [.queue (.ack flaggedKey "worker") 6]) = some t ∧
      t.indexes["FLAG"]? = some idx ∧ idx.needsRebuild = false ∧ idx.postings.toList = [] ∧
      idx.postings = (idx.rebuild t.records idx.attr).postings := by
  have hlisted : listedAfter (flaggedClaim ++ [.queue (.ack flaggedKey "worker") 6]) =
      some ([], []) := by
    decide +kernel
  obtain ⟨t, idx, hrun, hidx, hfresh, hnone, -⟩ := listedAfter_eq_some hlisted
  refine ⟨t, idx, hrun, hidx, hfresh, hnone, ?_⟩
  refine postings_exact (fun _ => "") "JOBS" (fun field idx h => ?_) ?_ hrun "FLAG" idx hidx hfresh
  · simp at h
  · exact eachMeets_of_allMaintain _ (by decide +kernel)

/-- A record given back for the last time leaves the queue, and the index lists it still. -/
theorem buried_stays_in_the_index :
    ∃ t idx, runActions (fun _ => "") "JOBS" {} (flaggedClaim ++
        [.queue (.nack flaggedKey "worker" { visibility := 1000, maxDeliveries := 1 } none) 6]) =
        some t ∧
      t.indexes["FLAG"]? = some idx ∧ idx.needsRebuild = false ∧
      idx.postings ≠ (idx.rebuild t.records idx.attr).postings := by
  have hlisted : listedAfter (flaggedClaim ++
      [.queue (.nack flaggedKey "worker" { visibility := 1000, maxDeliveries := 1 } none) 6]) =
      some ([("URGENT", {flaggedKey})], []) := by
    decide +kernel
  obtain ⟨t, idx, hrun, hidx, hfresh, hurgent, hnone⟩ := listedAfter_eq_some hlisted
  refine ⟨t, idx, hrun, hidx, hfresh, fun h => ?_⟩
  rw [h, hnone] at hurgent
  cases hurgent

end RustyPick
