import RustyPick.Table
import Mathlib.Data.List.Sort

/-!
# RustyPick.Query

Selection (`db/query.rs`): a query node over the records of a file, evaluated record by record, and
the narrowing an index puts in front of the scan.

* `candidates_superset`: over a table whose indexes cover its records, the candidates of a node
  hold every key whose record the node accepts.
* `collectMatchesIn_eq_scan`: so the answer is the one a scan gives, in keys, records and order.
-/

namespace RustyPick

open Lib

structure QueryCondition where
  fieldName : String
  op : String
  value : String
  deriving DecidableEq, Repr

inductive LogicalOp where
  | and
  | or
  deriving DecidableEq, Repr

inductive QueryNode where
  | condition (cond : QueryCondition)
  | logical (op : LogicalOp) (left right : QueryNode)
  deriving DecidableEq, Repr

/-- `str::to_uppercase` as far as an operator can tell: no character outside ASCII has an upper case
that is part of one. -/
def toUppercase (s : String) : String := String.ofList (s.toList.map Char.toUpper)

/-! ## Comparing -/

def startsWith (c : Char) (s : String) : Bool := s.toList.head? = some c

def endsWith (c : Char) (s : String) : Bool := s.toList.getLast? = some c

/-- The match of `=`: contains for `[x]`, starts with for `x]`, ends with for `[x`, else equal. -/
def matchesPattern (recordVal searchVal : String) : Bool :=
  let record := recordVal.toList
  let search := searchVal.toList
  if 2 ≤ (utf8 searchVal).length ∧ startsWith '[' searchVal ∧ endsWith ']' searchVal then
    decide ((search.drop 1).dropLast <:+: record)
  else if 1 ≤ (utf8 searchVal).length ∧ endsWith ']' searchVal then
    decide (search.dropLast <+: record)
  else if 1 ≤ (utf8 searchVal).length ∧ startsWith '[' searchVal then
    decide (search.drop 1 <:+ record)
  else record = search

def compareValues (recordVal op searchVal : String) : Bool :=
  let recordVal := trim recordVal
  let op := toUppercase op
  if op = "=" ∨ op = "EQ" then matchesPattern recordVal searchVal
  else if op = "!=" ∨ op = "#" ∨ op = "<>" ∨ op = "NE" then !matchesPattern recordVal searchVal
  else if op = "<" ∨ op = "LT" then decide (recordVal < searchVal)
  else if op = ">" ∨ op = "GT" then decide (searchVal < recordVal)
  else if op = "<=" ∨ op = "LE" then decide (recordVal ≤ searchVal)
  else if op = ">=" ∨ op = "GE" then decide (searchVal ≤ recordVal)
  else false

/-- Whether a value is one of the forms `compareValues` reads as a wildcard. -/
def isWildcardValue (value : String) : Bool := startsWith '[' value || endsWith ']' value

/-- The floating-point half of an input conversion: a text that is a number, scaled by a power of
ten and printed without decimals. What it prints is digits, a sign, `inf` or `NaN`. -/
structure Scaling where
  scale : String → Nat → Option String
  plain : ∀ value decimals text, scale value decimals = some text → isWildcardValue text = false

/-- `apply_iconv`. -/
def applyIconv (scaling : Scaling) (value code : String) : String :=
  match code.toList with
  | 'M' :: 'D' :: c :: digits =>
    match parseU64 (String.ofList (c :: digits)) with
    | some decimals => (scaling.scale value decimals).getD value
    | none => value
  | _ => value

/-! ## Evaluating -/

abbrev FieldMap := Map String (Nat × Option String)

/-- The attribute and conversion of every field the node names and the dictionary knows. -/
def collectFieldIndices (t : Table) : QueryNode → FieldMap → FieldMap
  | .condition cond, map =>
    if cond.fieldName = "ID" then map
    else if map.contains cond.fieldName then map
    else
      match t.fieldIndexAndConversion cond.fieldName with
      | some info => map.insert cond.fieldName info
      | none => map
  | .logical _ left right, map => collectFieldIndices t right (collectFieldIndices t left map)

/-- The value a condition searches for, through the field's input conversion. -/
def searchValue (scaling : Scaling) (cond : QueryCondition) (conversion : Option String) : String :=
  match conversion with
  | some code => applyIconv scaling cond.value code
  | none => cond.value

/-- Whether one attribute of a record satisfies a comparison. -/
def evaluateField (record : Record) (attr : Nat) (op search : String) : Bool :=
  match record.fields[attr]? with
  | none => compareValues "" op search
  | some field =>
    if field.values = [] then compareValues "" op search
    else field.values.any fun v =>
      (v.subValues = [] && compareValues "" op search) ||
        v.subValues.any fun sub => compareValues (textOf sub) op search

/-- `evaluate_node_static_with_id`. -/
def evaluateNode (scaling : Scaling) (key : String) (record : Record) (map : FieldMap) :
    QueryNode → Bool
  | .condition cond =>
    if cond.fieldName = "ID" then compareValues key cond.op cond.value
    else
      match map[cond.fieldName]? with
      | none => false
      | some (attr, conversion) =>
        evaluateField record attr cond.op (searchValue scaling cond conversion)
  | .logical .and left right =>
    evaluateNode scaling key record map left && evaluateNode scaling key record map right
  | .logical .or left right =>
    evaluateNode scaling key record map left || evaluateNode scaling key record map right

/-- The keys an index can narrow a node down to, or `none` where the section has to be walked. -/
def indexCandidates (scaling : Scaling) (t : Table) (map : FieldMap) :
    QueryNode → Option (Finset String)
  | .condition cond =>
    if t.indexes.isEmpty then none
    else if ¬ (toUppercase cond.op = "=" ∨ toUppercase cond.op = "EQ") ∨ cond.fieldName = "ID" then
      none
    else if isWildcardValue cond.value then none
    else
      match map[cond.fieldName]? with
      | none => none
      | some (_, conversion) =>
        t.indexCandidates cond.fieldName (searchValue scaling cond conversion)
  | .logical op left right =>
    if t.indexes.isEmpty then none
    else
      match op, indexCandidates scaling t map left, indexCandidates scaling t map right with
      | .and, some left, some right => some (left ∩ right)
      | .and, some only, none => some only
      | .and, none, some only => some only
      | .and, none, none => none
      | .or, some left, some right => some (left ∪ right)
      | .or, _, _ => none

/-- `collect_matches_in`: the records of the section the node accepts, each through `project`, in
key order or in the order of the keys the caller gave. The counts of what an index was used for
are left out. -/
def collectMatchesIn {T : Type} (scaling : Scaling) (t : Table) (useDictSection : Bool)
    (query : QueryNode) (keysToFilter : Option (List String)) (project : String → Record → T) :
    List T :=
  let map := collectFieldIndices t query ∅
  let source := if useDictSection then t.dictionary else t.records
  let candidates := if useDictSection then none else indexCandidates scaling t map query
  let accepts := fun entry : String × Record => evaluateNode scaling entry.1 entry.2 map query
  let found := match keysToFilter, candidates with
    | none, some candidates =>
      ((ascending candidates).filterMap fun key =>
        source[key]?.map fun record => (key, record)).filter accepts
    | none, none => source.toList.filter accepts
    | some keys, candidates =>
      ((keys.filter fun key =>
          match candidates with | some candidates => decide (key ∈ candidates) | none => true)
        |>.filterMap fun key => source[key]?.map fun record => (key, record)).filter accepts
  found.map fun entry => project entry.1 entry.2

/-! ## What an index owes a query -/

/-- Every index that is consulted covers the records, and is filed under its own field. -/
def Indexed (t : Table) : Prop :=
  ∀ (field : String) (idx : FileIndex), t.indexes[field]? = some idx →
    idx.field = field ∧ (idx.needsRebuild = false → idx.Covers t.records)

theorem indexKey_trim (text : String) : indexKey (trim text) = indexKey text := by
  simp [indexKey]

/-- The texts a field is compared by are those its index keys are taken from. -/
theorem evaluateField_eq (record : Record) (attr : Nat) (op search : String) :
    evaluateField record attr op search =
      (textsOf (some record) attr).any fun text => compareValues text op search := by
  simp only [evaluateField, textsOf, Option.bind_some]
  cases record.fields[attr]? with
  | none => simp
  | some field =>
    by_cases hv : field.values = []
    · simp [hv]
    · simp only [hv, if_false, List.any_flatMap]
      congr 1
      funext v
      by_cases hs : v.subValues = []
      · simp [hs]
      · simp [hs, List.any_map, Function.comp_def]

theorem matchesPattern_plain {recordVal searchVal : String} (h : isWildcardValue searchVal = false)
    (hm : matchesPattern recordVal searchVal = true) : recordVal = searchVal := by
  simp only [isWildcardValue, Bool.or_eq_false_iff] at h
  simp only [matchesPattern, h.1, h.2, Bool.false_eq_true, and_false, if_false,
    decide_eq_true_eq] at hm
  exact String.toList_inj.mp hm

theorem searchValue_plain {scaling : Scaling} {cond : QueryCondition} {conversion : Option String}
    (h : isWildcardValue cond.value = false) :
    isWildcardValue (searchValue scaling cond conversion) = false := by
  unfold searchValue applyIconv
  split
  · split
    · split
      · rename_i decimals _
        cases hs : scaling.scale cond.value decimals with
        | none => simpa using h
        | some text => simpa using scaling.plain _ _ _ hs
      · exact h
    · exact h
  · exact h

/-- What the field map says of a field is what the dictionary says. -/
theorem collectFieldIndices_sound (t : Table) (query : QueryNode) : ∀ map : FieldMap,
    (∀ f info, map[f]? = some info → t.fieldIndexAndConversion f = some info) →
    ∀ f info, (collectFieldIndices t query map)[f]? = some info →
      t.fieldIndexAndConversion f = some info := by
  induction query with
  | condition cond =>
    intro map hmap f info h
    simp only [collectFieldIndices] at h
    split_ifs at h
    · exact hmap f info h
    · exact hmap f info h
    · split at h
      · rename_i info' hinfo
        rw [getElem?_insert_eq] at h
        split at h
        · rename_i hf
          cases h
          rw [← hf]
          exact hinfo
        · exact hmap f info h
      · exact hmap f info h
  | logical op left right ihl ihr =>
    intro map hmap
    exact ihr _ (ihl _ hmap)

theorem fieldIndex_of_conversion {t : Table} {f : String} {attr : Nat} {conversion : Option String}
    (h : t.fieldIndexAndConversion f = some (attr, conversion)) : t.fieldIndex f = some attr := by
  unfold Table.fieldIndexAndConversion at h
  unfold Table.fieldIndex
  split_ifs at h ⊢
  · cases h; rfl
  · simp only [Option.bind_eq_bind, Option.bind_eq_some_iff, Option.some.injEq,
      Prod.mk.injEq] at h
    obtain ⟨entry, hentry, idx, hidx, rfl, -⟩ := h
    simp [hentry, hidx]

/-- The candidates of a node hold every key whose record it accepts. -/
theorem candidates_superset {scaling : Scaling} {t : Table} (h : Indexed t) {map : FieldMap}
    (hmap : ∀ f info, map[f]? = some info → t.fieldIndexAndConversion f = some info)
    {key : String} {record : Record} (hrec : t.records[key]? = some record) :
    ∀ (query : QueryNode) (cands : Finset String),
      indexCandidates scaling t map query = some cands →
      evaluateNode scaling key record map query = true → key ∈ cands := by
  intro query
  induction query with
  | condition cond =>
    intro cands hcands heval
    simp only [indexCandidates] at hcands
    split_ifs at hcands with _ hop hwild
    rw [not_or, not_not] at hop
    split at hcands
    · cases hcands
    · rename_i attr conversion hinfo
      simp only [evaluateNode, if_neg hop.2, hinfo, evaluateField_eq, List.any_eq_true] at heval
      obtain ⟨text, htext, hcmp⟩ := heval
      have hplain : isWildcardValue (searchValue scaling cond conversion) = false :=
        searchValue_plain (by simpa using hwild)
      have heq : trim text = searchValue scaling cond conversion := by
        simp only [compareValues, if_pos hop.1] at hcmp
        exact matchesPattern_plain hplain hcmp
      unfold Table.indexCandidates at hcands
      split at hcands
      · rename_i idx hidx
        split at hcands
        · rename_i hattr
          rw [fieldIndex_of_conversion (hmap _ _ hinfo), Option.some.injEq] at hattr
          subst hattr
          unfold FileIndex.candidates at hcands
          split_ifs at hcands with hstale hex
          cases hcands
          rw [← heq, indexKey_trim] at hex ⊢
          have hcov := (h _ _ hidx).2 (by simpa using hstale)
          refine hcov key record hrec _ (FileIndex.mem_retained.mpr ⟨?_, hex⟩)
          exact mem_keysOf.mpr ⟨text, htext, rfl⟩
        · cases hcands
      · cases hcands
  | logical op left right ihl ihr =>
    intro cands hcands heval
    simp only [indexCandidates] at hcands
    split_ifs at hcands
    cases op with
    | and =>
      simp only [evaluateNode, Bool.and_eq_true] at heval
      cases hl : indexCandidates scaling t map left <;>
        cases hr : indexCandidates scaling t map right <;> simp only [hl, hr] at hcands
      · cases hcands
      · cases hcands; exact ihr _ hr heval.2
      · cases hcands; exact ihl _ hl heval.1
      · cases hcands
        exact Finset.mem_inter.mpr ⟨ihl _ hl heval.1, ihr _ hr heval.2⟩
    | or =>
      simp only [evaluateNode, Bool.or_eq_true] at heval
      cases hl : indexCandidates scaling t map left <;>
        cases hr : indexCandidates scaling t map right <;> simp only [hl, hr] at hcands
      · cases hcands
      · cases hcands
      · cases hcands
      · cases hcands
        rcases heval with he | he
        · exact Finset.mem_union_left _ (ihl _ hl he)
        · exact Finset.mem_union_right _ (ihr _ hr he)

/-! ## The same list -/

/-- The entries of a map at the keys of a list, in the order of the list. -/
def entriesAt (source : Map String Record) (keys : List String) : List (String × Record) :=
  keys.filterMap fun key => source[key]?.map fun record => (key, record)

theorem mem_entriesAt {source : Map String Record} {keys : List String} {e : String × Record} :
    e ∈ entriesAt source keys ↔ e.1 ∈ keys ∧ source[e.1]? = some e.2 := by
  simp only [entriesAt, List.mem_filterMap, Option.map_eq_some_iff]
  constructor
  · rintro ⟨key, hkey, record, hrec, rfl⟩
    exact ⟨hkey, hrec⟩
  · rintro ⟨hkey, hrec⟩
    exact ⟨e.1, hkey, e.2, hrec, rfl⟩

theorem pairwise_entriesAt {source : Map String Record} {keys : List String}
    (h : keys.Pairwise (· < ·)) : (entriesAt source keys).Pairwise fun a b => a.1 < b.1 := by
  apply List.Pairwise.filterMap _ _ h
  intro a b hab x hx y hy
  simp only [Option.map_eq_some_iff] at hx hy
  obtain ⟨_, -, rfl⟩ := hx
  obtain ⟨_, -, rfl⟩ := hy
  exact hab

theorem pairwise_toList_lt (source : Map String Record) :
    source.toList.Pairwise fun a b => a.1 < b.1 := by
  refine Std.ExtTreeMap.ordered_keys_toList.imp ?_
  intro a b hab
  exact compare_lt_iff_lt.mp hab

/-- Looking a superset of the matches up one by one finds what walking the whole section does. -/
theorem entriesAt_filter_eq {source : Map String Record} {cands : Finset String}
    {accepts : String × Record → Bool}
    (h : ∀ e : String × Record, source[e.1]? = some e.2 → accepts e = true → e.1 ∈ cands) :
    (entriesAt source (ascending cands)).filter accepts = source.toList.filter accepts := by
  have hasymm : Std.Antisymm fun a b : String × Record => a.1 < b.1 :=
    ⟨fun a b hab hba => absurd hab (lt_asymm hba)⟩
  have hirrefl : Std.Irrefl fun a b : String × Record => a.1 < b.1 := ⟨fun a => lt_irrefl a.1⟩
  apply List.Pairwise.eq_of_mem_iff
    ((pairwise_entriesAt (pairwise_ascending cands)).filter _) ((pairwise_toList_lt source).filter _)
  intro e
  rw [List.mem_filter, List.mem_filter, mem_entriesAt, mem_ascending]
  have hmem : e ∈ source.toList ↔ source[e.1]? = some e.2 :=
    Std.ExtTreeMap.mem_toList_iff_getElem?_eq_some
  rw [hmem]
  constructor
  · rintro ⟨⟨-, hs⟩, ha⟩
    exact ⟨hs, ha⟩
  · rintro ⟨hs, ha⟩
    exact ⟨⟨h e hs ha, hs⟩, ha⟩

/-- With the caller's keys, leaving out those that are no candidates leaves out no match. -/
theorem entriesAt_filter_keys {source : Map String Record} {cands : Finset String}
    {accepts : String × Record → Bool} (keys : List String)
    (h : ∀ e : String × Record, source[e.1]? = some e.2 → accepts e = true → e.1 ∈ cands) :
    (entriesAt source (keys.filter fun key => decide (key ∈ cands))).filter accepts =
      (entriesAt source keys).filter accepts := by
  induction keys with
  | nil => rfl
  | cons key keys ih =>
    by_cases hk : key ∈ cands
    · rw [List.filter_cons_of_pos (by simpa using hk)]
      simp only [entriesAt, List.filterMap_cons]
      cases source[key]? with
      | none => exact ih
      | some record =>
        simp only [Option.map_some, List.filter_cons]
        split
        · exact congrArg _ ih
        · exact ih
    · rw [List.filter_cons_of_neg (by simpa using hk), ih]
      simp only [entriesAt, List.filterMap_cons]
      cases hs : source[key]? with
      | none => rfl
      | some record =>
        have hno : accepts (key, record) = false := by
          by_contra hc
          exact hk (h (key, record) hs (by simpa using hc))
        simp [hno]

/-- A query answers as it would with no index at all. -/
theorem collectMatchesIn_eq_scan {T : Type} (scaling : Scaling) {t : Table} (h : Indexed t)
    (useDictSection : Bool) (query : QueryNode) (keysToFilter : Option (List String))
    (project : String → Record → T) :
    collectMatchesIn scaling t useDictSection query keysToFilter project =
      collectMatchesIn scaling { t with indexes := ∅ } useDictSection query keysToFilter project := by
  have hmap : ∀ (node : QueryNode) (map : FieldMap),
      collectFieldIndices { t with indexes := ∅ } node map = collectFieldIndices t node map := by
    intro node
    induction node with
    | condition cond => intro map; rfl
    | logical op left right ihl ihr => intro map; simp only [collectFieldIndices, ihl, ihr]
  have hnone : ∀ map, indexCandidates scaling { t with indexes := ∅ } map query = none := by
    intro map
    cases query <;> simp [indexCandidates]
  have hsound := collectFieldIndices_sound t query ∅ (by simp)
  unfold collectMatchesIn
  rw [hmap]
  cases useDictSection with
  | true => rfl
  | false =>
    simp only [Bool.false_eq_true, if_false, hnone]
    cases hc : indexCandidates scaling t (collectFieldIndices t query ∅) query with
    | none => rfl
    | some cands =>
      have hsup : ∀ e : String × Record, t.records[e.1]? = some e.2 →
          evaluateNode scaling e.1 e.2 (collectFieldIndices t query ∅) query = true →
          e.1 ∈ cands := fun e hrec heval =>
        candidates_superset h hsound hrec query cands hc heval
      congr 1
      cases keysToFilter with
      | none => exact entriesAt_filter_eq hsup
      | some keys =>
        simp only [List.filter_true]
        exact entriesAt_filter_keys keys hsup

end RustyPick
