import RustyPick.Sorting
import RustyPick.ExplodeGroup

/-!
# RustyPick.Selecting

`select_entries_in` (`db/query.rs`) and `query_command` (`server/handler.rs`): the ways a selection
is carried out. Keys alone where nothing else is asked for, sorted records, exploded rows, and for a
full scan the keys of the map in the order the map has them.

* `selectEntriesIn_eq`: `SELECT` stores the entries of the rows of the general path.
* `queryCommand_scan`: a full scan answers as the general path does, where the specs put the records
  in an order.
-/

namespace RustyPick

open Lib

/-! ## `SELECT` -/

/-- `query_keys_in`. -/
def queryKeysIn (scaling : Scaling) (t : Table) (useDictSection : Bool) (query : QueryNode)
    (keysToFilter : Option (List String)) : List String :=
  collectMatchesIn scaling t useDictSection query keysToFilter fun key _ => key

def allKeysIn (t : Table) (useDictSection : Bool) (keysToFilter : Option (List String)) :
    List String :=
  let source := if useDictSection then t.dictionary else t.records
  match keysToFilter with
  | some keys => keys.filter fun key => decide (key ∈ source)
  | none => source.keys

def selectEntriesIn (c : Collation) (scaling : Scaling) (t : Table) (useDictSection : Bool)
    (query : Option QueryNode) (explode : Option ExplodeTarget)
    (keysToFilter : Option (List String)) (specs : List SortSpec) : List SelectEntry :=
  if explode ≠ none then
    (sortEntriesIn c t (queryExplodedIn scaling t useDictSection query explode keysToFilter) specs
      explode).map Prod.fst
  else if specs = [] then
    let keys := match query with
      | some node => queryKeysIn scaling t useDictSection node keysToFilter
      | none => allKeysIn t useDictSection keysToFilter
    keys.map fun key => { key := key }
  else
    let results := match query with
      | some node => queryIn scaling t useDictSection node keysToFilter
      | none => allIn t useDictSection keysToFilter
    (sortResultsIn c t results specs).map fun (key, _) => { key := key }

/-! ## `QUERY` -/

/-- What a `QUERY` or `SELECT` selects. -/
structure Clause where
  query : Option QueryNode := none
  sortSpecs : List SortSpec := []
  explode : List ExplodeSpec := []
  deriving DecidableEq, Repr

section

variable {J : Type} (c : Collation) (scaling : Scaling) (t : Table) (serialize : Record → J)
  (isDict : Bool)

/-- A full scan: the keys in the order the map lists them, sorted, and then the records. -/
def scanKeys (listing : List String) (specs : List SortSpec) : List String :=
  if specs = [] then sortBy compare listing else sortKeysIn c t isDict listing specs

def scanResponse (listing : List String) (specs : List SortSpec) : Response J :=
  { status := .ok
    results := some ((scanKeys c t isDict listing specs).filterMap fun k =>
      (if isDict then t.dictionary else t.records)[k]?.map fun record => (k, serialize record)) }

/-- The rows of the general path. -/
def generalRows (query : Option QueryNode) (explode : Option ExplodeTarget)
    (specs : List SortSpec) : List (SelectEntry × Record) :=
  sortEntriesIn c t (queryExplodedIn scaling t isDict query explode none) specs explode

/-- Its response. An exploded result carries the positions of its rows. -/
def generalResponse (clause : Clause) (explode : Option ExplodeTarget) : Response J :=
  let rows := generalRows c scaling t isDict clause.query explode clause.sortSpecs
  { status := .ok
    results := some (rows.map fun (entry, record) => (entry.key, serialize record))
    positions := if clause.explode ≠ [] then some (rows.map fun row => row.1.position) else none }

/-- `query_command`, once the clause is resolved, over a map that lists its keys as `listing`. -/
def queryCommand (listing : List String) (clause : Clause) : Response J :=
  match resolveExplodeIn t clause.explode with
  | .error message => refusal .invalidQuery message
  | .ok explode =>
    if clause.query = none ∧ clause.explode = [] then
      scanResponse c t serialize isDict listing clause.sortSpecs
    else generalResponse c scaling t serialize isDict clause explode

end

/-! ## The same entries -/

theorem queryKeysIn_eq (scaling : Scaling) (t : Table) (useDictSection : Bool) (query : QueryNode)
    (keysToFilter : Option (List String)) :
    queryKeysIn scaling t useDictSection query keysToFilter =
      (queryIn scaling t useDictSection query keysToFilter).map Prod.fst := by
  simp [queryKeysIn, queryIn, collectMatchesIn]

theorem keys_eq_toList (source : Map String Record) : source.keys = source.toList.map Prod.fst :=
  Std.ExtTreeMap.map_fst_toList_eq_keys.symm

theorem allKeysIn_eq (t : Table) (useDictSection : Bool) (keysToFilter : Option (List String)) :
    allKeysIn t useDictSection keysToFilter =
      (allIn t useDictSection keysToFilter).map Prod.fst := by
  unfold allKeysIn allIn
  cases keysToFilter with
  | none => exact keys_eq_toList _
  | some keys =>
    dsimp only
    generalize (if useDictSection then t.dictionary else t.records) = source
    induction keys with
    | nil => rfl
    | cons key keys ih =>
      simp only [entriesAt, List.filterMap_cons]
      cases hkey : source[key]? with
      | none =>
        have hmem : key ∉ source := fun hin => by
          obtain ⟨record, hrecord⟩ := mem_iff_exists.mp hin
          rw [hkey] at hrecord
          cases hrecord
        rw [List.filter_cons_of_neg (by simpa using hmem)]
        exact ih
      | some record =>
        rw [List.filter_cons_of_pos (by simpa using mem_of_getElem? hkey)]
        exact congrArg _ ih

section

variable {c : Collation} {t : Table} {specs : List SortSpec}

/-- Without a target a spec reads the whole field of every row. -/
theorem sortTexts_unexploded (id : String) (record : Record) (resolved : List (SortColumn × Bool)) :
    sortTexts id record resolved (sortNarrowings resolved none) none =
      sortTexts id record resolved [] none := by
  have hwhole : ∀ n : Nat, (sortNarrowings resolved none)[n]?.getD .whole = .whole := by
    intro n
    simp only [sortNarrowings, List.getElem?_map]
    cases resolved[n]? <;> rfl
  unfold sortTexts
  refine List.map_congr_left fun entry _ => ?_
  simp only [hwhole]
  rfl

theorem entryRow_unexploded (key : String) (record : Record) :
    entryRow c t specs none ({ key := key }, record) = resultRow c t specs (key, record) := by
  simp only [entryRow, resultRow, sortKeyFor, sortKeyAt, sortTexts_unexploded]

/-- An unexploded result sorts as its records do. -/
theorem sortEntriesIn_unexploded (found : List (String × Record)) :
    sortEntriesIn c t (found.map fun (key, record) => (({ key := key } : SelectEntry), record)) specs
        none =
      (sortResultsIn c t found specs).map fun (key, record) => ({ key := key }, record) := by
  by_cases hne : specs = []
  · simp [sortEntriesIn, sortResultsIn, hne]
  · rw [sortEntriesIn_eq hne, sortResultsIn_eq hne, sortRows, sortRows]
    refine (map_sortBy fun a _ b _ => ?_).symm
    rw [entryRow_unexploded, entryRow_unexploded]

/-- `SELECT` stores the entries of the rows of the general path. -/
theorem selectEntriesIn_eq (scaling : Scaling) (useDictSection : Bool) (query : Option QueryNode)
    (explode : Option ExplodeTarget) (keysToFilter : Option (List String)) :
    selectEntriesIn c scaling t useDictSection query explode keysToFilter specs =
      (sortEntriesIn c t (queryExplodedIn scaling t useDictSection query explode keysToFilter) specs
        explode).map Prod.fst := by
  cases explode with
  | some target => simp [selectEntriesIn]
  | none =>
    have hmatches : matchesIn scaling t useDictSection query keysToFilter =
        match query with
        | some node => queryIn scaling t useDictSection node keysToFilter
        | none => allIn t useDictSection keysToFilter := by cases query <;> rfl
    rw [queryExplodedIn, sortEntriesIn_unexploded, List.map_map]
    unfold selectEntriesIn
    simp only [ne_eq, not_true_eq_false, if_false]
    by_cases hne : specs = []
    · rw [if_pos hne, sortResultsIn, if_pos hne]
      cases query with
      | some node => simp [queryKeysIn_eq, matchesIn, Function.comp_def]
      | none => simp [allKeysIn_eq, matchesIn, Function.comp_def]
    · rw [if_neg hne]
      cases query <;> rfl

/-! ## The same scan -/

/-- The specs put the records of a section in an order, ties and all. -/
def Orders (c : Collation) (t : Table) (specs : List SortSpec) (source : Map String Record) : Prop :=
  ConsistentOn (keyOrder (resolveSortFields t specs))
    {vs : List (SortValue c.F) | ∃ key record, source[key]? = some record ∧
      vs = sortKeyFor c key record (resolveSortFields t specs)}

variable {isDict : Bool} {listing : List String}

/-- The keys of a scan are those of the sorted records, whatever order the map lists them in. -/
theorem scanKeys_eq (hlisting : listing.Perm (if isDict then t.dictionary else t.records).keys)
    (horders : Orders c t specs (if isDict then t.dictionary else t.records)) :
    scanKeys c t isDict listing specs =
      (sortResultsIn c t (if isDict then t.dictionary else t.records).toList specs).map
        Prod.fst := by
  generalize hsource : (if isDict then t.dictionary else t.records) = source at *
  rw [keys_eq_toList] at hlisting
  by_cases hne : specs = []
  · -- in key order, which is the order of the list
    rw [scanKeys, if_pos hne, sortResultsIn, if_pos hne,
      sortBy_eq_of_perm ConsistentOn.of_transCmp
        (fun a _ b _ h => Std.LawfulEqCmp.eq_of_compare h) hlisting]
    refine List.mergeSort_of_pairwise (List.pairwise_map.mpr ?_)
    exact (pairwise_toList_lt source).imp fun h => by
      rw [compare_lt_iff_lt.mpr h]
      rfl
  · have hrow : ∀ e ∈ source.toList, resultRow c t specs e = keyRow c t isDict specs e.1 := by
      intro e he
      have hget := Std.ExtTreeMap.mem_toList_iff_getElem?_eq_some.mp
        (show (e.1, e.2) ∈ source.toList from he)
      simp only [resultRow, keyRow, hsource, hget]
    have hrows : ∀ key ∈ source.toList.map Prod.fst, ∃ record, source[key]? = some record ∧
        (keyRow c t isDict specs key).2 =
          sortKeyFor c key record (resolveSortFields t specs) := by
      intro key hkey
      obtain ⟨e, he, rfl⟩ := List.mem_map.mp hkey
      have hget := Std.ExtTreeMap.mem_toList_iff_getElem?_eq_some.mp
        (show (e.1, e.2) ∈ source.toList from he)
      exact ⟨e.2, hget, by rw [← hrow e he]; rfl⟩
    have hcons : ConsistentOn (fun a b : String => rowOrder (resolveSortFields t specs)
        (keyRow c t isDict specs a) (keyRow c t isDict specs b))
        {key | key ∈ source.toList.map Prod.fst} := by
      have hkeys := horders.comap fun key (hkey : key ∈ source.toList.map Prod.fst) =>
        show (keyRow c t isDict specs key).2 ∈ _ by
          obtain ⟨record, hget, heq⟩ := hrows key hkey
          exact ⟨key, record, hget, heq⟩
      have hstrings : ConsistentOn (compare : String → String → Ordering) Set.univ :=
        ConsistentOn.of_transCmp
      exact hkeys.andThen (hstrings.comap fun _ _ => trivial)
    have hties : TieFree (fun a b : String => rowOrder (resolveSortFields t specs)
        (keyRow c t isDict specs a) (keyRow c t isDict specs b))
        {key | key ∈ source.toList.map Prod.fst} := fun a _ b _ h => key_of_rowOrder h
    rw [scanKeys, if_neg hne, sortKeysIn_eq hne, sortResultsIn_eq hne, sortRows, sortRows,
      sortBy_eq_of_perm hcons hties hlisting]
    refine (map_sortBy fun a ha b hb => ?_).symm
    rw [hrow a ha, hrow b hb]

theorem sortResultsIn_perm (found : List (String × Record)) :
    (sortResultsIn c t found specs).Perm found := by
  by_cases hne : specs = []
  · rw [sortResultsIn, if_pos hne]
  · rw [sortResultsIn_eq hne]
    exact sortBy_perm _ _

/-- A full scan answers as the general path does. -/
theorem queryCommand_scan {J : Type} (scaling : Scaling) (serialize : Record → J) {clause : Clause}
    (hquery : clause.query = none) (hexplode : clause.explode = [])
    (hlisting : listing.Perm (if isDict then t.dictionary else t.records).keys)
    (horders : Orders c t clause.sortSpecs (if isDict then t.dictionary else t.records)) :
    queryCommand c scaling t serialize isDict listing clause =
      generalResponse c scaling t serialize isDict clause none := by
  rw [queryCommand, hexplode]
  simp only [resolveExplodeIn, resolveFrom, Except.map, hquery, and_self, if_true]
  rw [scanResponse, generalResponse, hexplode, hquery, scanKeys_eq hlisting horders]
  simp only [generalRows, queryExplodedIn, matchesIn, allIn, sortEntriesIn_unexploded,
    List.map_map, List.filterMap_map, ne_eq, not_true_eq_false, if_false]
  congr 2
  -- every key that was sorted is found again
  have hall : ∀ e ∈ sortResultsIn c t (if isDict then t.dictionary else t.records).toList
      clause.sortSpecs, (if isDict then t.dictionary else t.records)[e.1]? = some e.2 :=
    fun e he => Std.ExtTreeMap.mem_toList_iff_getElem?_eq_some.mp
      ((sortResultsIn_perm _).mem_iff.mp he)
  rw [← List.filterMap_eq_map]
  refine List.filterMap_congr fun e he => ?_
  simp [hall e he]

end

/-- Every selection path gives the same rows. -/
theorem selection_paths_agree (c : Collation) (scaling : Scaling) (t : Table) :
    (∀ useDictSection query explode keysToFilter specs,
      selectEntriesIn c scaling t useDictSection query explode keysToFilter specs =
        (sortEntriesIn c t (queryExplodedIn scaling t useDictSection query explode keysToFilter)
          specs explode).map Prod.fst) ∧
    ∀ (J : Type) (serialize : Record → J) (isDict : Bool) (listing : List String)
      (clause : Clause), clause.query = none → clause.explode = [] →
      listing.Perm (if isDict then t.dictionary else t.records).keys →
      Orders c t clause.sortSpecs (if isDict then t.dictionary else t.records) →
      queryCommand c scaling t serialize isDict listing clause =
        generalResponse c scaling t serialize isDict clause none :=
  ⟨fun useDictSection query explode keysToFilter _ =>
    selectEntriesIn_eq scaling useDictSection query explode keysToFilter,
   fun _ serialize _ _ _ hquery hexplode hlisting horders =>
    queryCommand_scan scaling serialize hquery hexplode hlisting horders⟩

/-- Two records, and a map that lists the second first. -/
theorem selection_paths_agree_two :
    let t : Table := { records := (∅ : Map String Record).insert "A" {} |>.insert "B" {} }
    let clause : Clause := { sortSpecs := [{ fieldName := "ID", descending := true }] }
    queryCommand integerCollation ⟨fun _ _ => none, by simp⟩ t Record.toBytes false ["B", "A"]
        clause =
      generalResponse integerCollation ⟨fun _ _ => none, by simp⟩ t Record.toBytes false clause
        none := by
  intro t clause
  have hkeys : t.records.keys = ["A", "B"] := by decide +kernel
  have hlabel : ∀ text ∈ ({"A", "B"} : Set String),
      integerCollation.parse (trim text) = none := by
    have hone : decimalInteger (trim "A") = none := by decide +kernel
    have htwo : decimalInteger (trim "B") = none := by decide +kernel
    rintro text (rfl | rfl)
    · exact (integerCollation_parse _).trans hone
    · exact (integerCollation_parse _).trans htwo
  have hstray : NoStrayLabel integerCollation {"A", "B"} := by
    intro a ha b hb z hz m n hm
    have hnone := (integerCollation_parse _).symm.trans (hlabel a ha)
    rw [hm.1] at hnone
    cases hnone
  have horder := keyOrder_consistent
    (SortValue.compare_consistent (fun text h => Or.inr (hlabel text h)) hstray)
    (resolveSortFields t clause.sortSpecs)
  have hagree := (selection_paths_agree integerCollation ⟨fun _ _ => none, by simp⟩ t).2 _
    Record.toBytes false ["B", "A"] clause rfl rfl
  simp only [Bool.false_eq_true, if_false] at hagree
  refine hagree ?_ ?_
  · rw [hkeys]
    decide
  · refine horder.mono ?_
    rintro vs ⟨key, record, hget, rfl⟩
    have hkey : key ∈ t.records.keys := Std.ExtTreeMap.mem_keys.mpr (mem_of_getElem? hget)
    have hover : ReadsOnly {"A", "B"}
        (sortTexts key record (resolveSortFields t clause.sortSpecs) [] none) := by
      intro text htext
      have hread : text = key := by
        simpa [sortTexts, resolveSortFields, clause, sortTextAt] using htext
      rw [hkeys] at hkey
      rw [hread]
      simpa using hkey
    exact sortKeyAt_over hover

end RustyPick
