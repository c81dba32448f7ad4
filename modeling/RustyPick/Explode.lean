import RustyPick.Association
import RustyPick.RecordCodec
import RustyPick.SelectLists
import Mathlib.Data.List.Destutter

/-!
# RustyPick.Explode

`BY.EXP` (`db/query.rs`): the rows a selected record is expanded into, one for each position of the
exploded field or group.

Selection and expansion evaluate the same criteria twice. A record is selected by the whole node; its
positions are collected from the criteria that name the exploded field, however the node combines
them.

* `keys_of_rows`: the rows of each record stand together, in the order of the selection.
* `collectPositions_sorted`, `mem_collectPositions`: a lone field's positions are in order, and are
  those whose text satisfies a criterion.
-/

namespace RustyPick

open Lib

/-! ## Rows -/

/-- How much of a row's position applies to one column. -/
inductive Narrowing where
  | whole
  | asGiven
  | valueOnly
  deriving DecidableEq, Repr

def Narrowing.apply (narrowing : Narrowing) (position : Option ValuePosition) :
    Option ValuePosition :=
  match narrowing with
  | .whole => none
  | .asGiven => position
  | .valueOnly => position.map fun pos => { value := pos.value }

def Association.memberAt (group : Association) (index : Nat) : Option AssociationMember :=
  group.members.find? fun member => member.index = index

/-- How a row's position applies to the column at `fieldIdx`. -/
def ExplodeTarget.narrowingAt (target : ExplodeTarget) (fieldIdx : Nat) : Narrowing :=
  match target with
  | .field _ index => if index = fieldIdx then .asGiven else .whole
  | .group assoc =>
    match assoc.memberAt fieldIdx with
    | some member => if member.depth = .subValue then .asGiven else .valueOnly
    | none => .whole

/-! ## Matching -/

/-- Every condition of the node that names the field. -/
def collectConditionsFor (fieldName : String) : QueryNode → List QueryCondition
  | .condition cond => if cond.fieldName = fieldName then [cond] else []
  | .logical _ left right =>
    collectConditionsFor fieldName left ++ collectConditionsFor fieldName right

/-- Each condition's search value, through the field's input conversion. -/
def searchValues (scaling : Scaling) (conditions : List QueryCondition) (map : FieldMap) :
    List String :=
  conditions.map fun cond => searchValue scaling cond (map[cond.fieldName]?.bind Prod.snd)

def anyConditionMatches (text : String) (conditions : List QueryCondition)
    (searchVals : List String) : Bool :=
  (conditions.zip searchVals).any fun (cond, search) => compareValues text cond.op search

/-- Whether a whole value satisfies any of the conditions, through any of its sub-values. -/
def valueMatches (value : Value) (conditions : List QueryCondition) (searchVals : List String) :
    Bool :=
  if value.subValues.length ≤ 1 then
    anyConditionMatches (textOf value.firstBytes) conditions searchVals
  else value.subValues.any fun sub => anyConditionMatches (textOf sub) conditions searchVals

def pushUnique (out : List ValuePosition) (pos : ValuePosition) : List ValuePosition :=
  if pos ∈ out then out else out ++ [pos]

/-- The positions of one field that satisfy any of the conditions. Without conditions every value
is one. -/
def collectPositions (scaling : Scaling) (record : Record) (fieldIdx : Nat)
    (conditions : List QueryCondition) (map : FieldMap) : List ValuePosition :=
  match record.fields[fieldIdx]? with
  | none => []
  | some field =>
    if conditions = [] then (List.range field.values.length).map fun v => { value := v }
    else
      let searchVals := searchValues scaling conditions map
      field.values.zipIdx.foldl (fun out (value, v) =>
        -- a value with one sub-value is an ordinary value
        if value.subValues.length ≤ 1 then
          if anyConditionMatches (textOf value.firstBytes) conditions searchVals then
            pushUnique out { value := v }
          else out
        else
          value.subValues.zipIdx.foldl (fun out (sub, s) =>
            if anyConditionMatches (textOf sub) conditions searchVals then
              pushUnique out { value := v, subValue := some s }
            else out) out) []

/-- What the members of a group have selected so far: values, sub-values of them, and the members
that only say how deep a selected value goes. -/
structure GroupMarks where
  values : Finset Nat := ∅
  narrowed : Map Nat (Finset Nat) := ∅
  structural : List Nat := []

namespace GroupMarks

def select (marks : GroupMarks) (v : Nat) : GroupMarks :=
  { marks with values := insert v marks.values }

def narrow (marks : GroupMarks) (v s : Nat) : GroupMarks :=
  { marks with
    values := insert v marks.values
    narrowed := marks.narrowed.insert v (insert s (marks.narrowed[v]?.getD ∅)) }

/-- The sub-values of one value that match. -/
def markSubs (matching : Bytes → Bool) (v : Nat) (subs : List (Bytes × Nat)) (marks : GroupMarks) :
    GroupMarks :=
  subs.foldl (fun marks (sub, s) => if matching sub then marks.narrow v s else marks) marks

/-- One value of a member, at the tier the member pairs at. -/
def markValue (depth : AssociationDepth) (whole : Value → Bool) (matching : Bytes → Bool)
    (marks : GroupMarks) (entry : Value × Nat) : GroupMarks :=
  match depth with
  | .value => if whole entry.1 then marks.select entry.2 else marks
  | .subValue => marks.markSubs matching entry.2 entry.1.subValues.zipIdx

/-- One member of the group. -/
def markMember (scaling : Scaling) (record : Record) (map : FieldMap) (selective : Bool)
    (marks : GroupMarks) (axis : AssociationMember × List QueryCondition) : GroupMarks :=
  let (member, conditions) := axis
  if selective ∧ conditions = [] then
    if member.depth = .subValue then
      { marks with structural := marks.structural ++ [member.index] }
    else marks
  else
    match record.fields[member.index]? with
    | none => marks
    | some field =>
      let searchVals := searchValues scaling conditions map
      field.values.zipIdx.foldl (markValue member.depth
        (fun value => conditions = [] ∨ valueMatches value conditions searchVals)
        fun sub => conditions = [] ∨ anyConditionMatches (textOf sub) conditions searchVals) marks

/-- The depth one structural member gives a value. -/
def addStructural (record : Record) (v : Nat) (subs : Finset Nat) (index : Nat) : Finset Nat :=
  match record.fields[index]?.bind fun field => field.values[v]? with
  | some value => subs ∪ Finset.range value.subValues.length
  | none => subs

def structuralSubs (record : Record) (v : Nat) (structural : List Nat) : Finset Nat :=
  structural.foldl (addStructural record v) ∅

def subRows (v : Nat) (subs : Finset Nat) : List ValuePosition :=
  (ascending subs).map fun s => { value := v, subValue := some s }

/-- The rows of one selected value. -/
def rowsOf (record : Record) (marks : GroupMarks) (v : Nat) : List ValuePosition :=
  match marks.narrowed[v]? with
  | some subs => subRows v subs
  | none =>
    let subs := structuralSubs record v marks.structural
    if subs = ∅ then [{ value := v }] else subRows v subs

end GroupMarks

/-- The positions an association group explodes a record into. -/
def collectGroupPositions (scaling : Scaling) (record : Record)
    (axes : List (AssociationMember × List QueryCondition)) (map : FieldMap) :
    List ValuePosition :=
  let selective := axes.any fun axis => decide (axis.2 ≠ [])
  let marks := axes.foldl (GroupMarks.markMember scaling record map selective) {}
  (ascending marks.values).flatMap (marks.rowsOf record)

/-! ## Selecting and expanding -/

/-- `all_in`: the records of the section, those under the caller's keys or all in key order. -/
def allIn (t : Table) (useDictSection : Bool) (keysToFilter : Option (List String)) :
    List (String × Record) :=
  let source := if useDictSection then t.dictionary else t.records
  match keysToFilter with
  | some keys => entriesAt source keys
  | none => source.toList

/-- `query_in`: the selected records. -/
def queryIn (scaling : Scaling) (t : Table) (useDictSection : Bool) (query : QueryNode)
    (keysToFilter : Option (List String)) : List (String × Record) :=
  collectMatchesIn scaling t useDictSection query keysToFilter fun key record => (key, record)

/-- The records a selection keeps, with a query or without. -/
def matchesIn (scaling : Scaling) (t : Table) (useDictSection : Bool) (query : Option QueryNode)
    (keysToFilter : Option (List String)) : List (String × Record) :=
  match query with
  | some query => queryIn scaling t useDictSection query keysToFilter
  | none => allIn t useDictSection keysToFilter

def conditionsFor (query : Option QueryNode) (fieldName : String) : List QueryCondition :=
  match query with
  | some query => collectConditionsFor fieldName query
  | none => []

def explodeMap (t : Table) (query : Option QueryNode) : FieldMap :=
  match query with
  | some query => collectFieldIndices t query ∅
  | none => ∅

/-- The positions of one selected record. -/
def positionsOf (scaling : Scaling) (t : Table) (query : Option QueryNode)
    (target : ExplodeTarget) (record : Record) : List ValuePosition :=
  match target with
  | .field name index =>
    collectPositions scaling record index (conditionsFor query name) (explodeMap t query)
  | .group group =>
    collectGroupPositions scaling record
      (group.members.map fun member => (member, conditionsFor query member.name))
      (explodeMap t query)

/-- A record without a position stays one unexploded row. -/
def rowsAt (key : String) (record : Record) (positions : List ValuePosition) :
    List (SelectEntry × Record) :=
  if positions = [] then [({ key := key }, record)]
  else positions.map fun position => ({ key := key, position := some position }, record)

def queryExplodedIn (scaling : Scaling) (t : Table) (useDictSection : Bool)
    (query : Option QueryNode) (explode : Option ExplodeTarget)
    (keysToFilter : Option (List String)) : List (SelectEntry × Record) :=
  let found := matchesIn scaling t useDictSection query keysToFilter
  match explode with
  | none => found.map fun (key, record) => ({ key := key }, record)
  | some target =>
    found.flatMap fun (key, record) => rowsAt key record (positionsOf scaling t query target record)

/-! ## The keys -/

theorem destutter'_replicate_append {α : Type} [DecidableEq α] (a : α) (n : Nat) (l : List α) :
    (List.replicate n a ++ l).destutter' (· ≠ ·) a = l.destutter' (· ≠ ·) a := by
  induction n with
  | zero => rfl
  | succ n ih =>
    rw [List.replicate_succ, List.cons_append, List.destutter'_cons_neg (h := by simp), ih]

/-- Runs of different elements merge into one of each. -/
theorem destutter_runs {α β : Type} [DecidableEq β] (f : α → β) (n : α → Nat) (l : List α)
    (h : (l.map f).Nodup) :
    (l.flatMap fun a => List.replicate (n a + 1) (f a)).destutter (· ≠ ·) = l.map f := by
  have hrest : ∀ (l : List α) (b : β), (b :: l.map f).Nodup →
      (l.flatMap fun a => List.replicate (n a + 1) (f a)).destutter' (· ≠ ·) b = b :: l.map f := by
    intro l
    induction l with
    | nil => intro b _; rfl
    | cons a l ih =>
      intro b hb
      rw [List.map_cons, List.nodup_cons, List.mem_cons, not_or] at hb
      rw [List.flatMap_cons, List.replicate_succ, List.cons_append,
        List.destutter'_cons_pos _ hb.1.1, destutter'_replicate_append, ih _ hb.2, List.map_cons]
  cases l with
  | nil => rfl
  | cons a l =>
    rw [List.map_cons] at h
    rw [List.flatMap_cons, List.replicate_succ, List.cons_append, List.destutter_cons',
      destutter'_replicate_append, hrest l _ h, List.map_cons]

theorem entriesAt_keys (source : Map String Record) (keys : List String) :
    ((entriesAt source keys).map Prod.fst).Sublist keys := by
  induction keys with
  | nil => exact List.Sublist.refl _
  | cons key keys ih =>
    simp only [entriesAt, List.filterMap_cons]
    cases source[key]? with
    | none => exact ih.cons _
    | some record => exact ih.cons_cons _

/-- A selection under distinct keys finds each of them once. -/
theorem matchesIn_nodup {scaling : Scaling} {t : Table} {useDictSection : Bool}
    {query : Option QueryNode} {keysToFilter : Option (List String)}
    (h : ∀ keys, keysToFilter = some keys → keys.Nodup) :
    ((matchesIn scaling t useDictSection query keysToFilter).map Prod.fst).Nodup := by
  have hlist : ∀ source : Map String Record, (source.toList.map Prod.fst).Nodup := fun source =>
    List.pairwise_map.mpr ((pairwise_toList_lt source).imp fun h => ne_of_lt h)
  have hascending : ∀ source (cands : Finset String),
      ((entriesAt source (ascending cands)).map Prod.fst).Nodup := fun source cands =>
    List.pairwise_map.mpr
      ((pairwise_entriesAt (pairwise_ascending cands)).imp fun h => ne_of_lt h)
  have hfilter : ∀ (l : List (String × Record)) (p : String × Record → Bool),
      (l.map Prod.fst).Nodup → ((l.filter p).map Prod.fst).Nodup := fun l p hl =>
    hl.sublist (List.filter_sublist.map _)
  cases query with
  | none =>
    cases keysToFilter with
    | none => exact hlist _
    | some keys => exact (h keys rfl).sublist (entriesAt_keys _ keys)
  | some query =>
    simp only [matchesIn, queryIn, collectMatchesIn, List.map_map]
    cases keysToFilter with
    | some keys =>
      exact hfilter _ _ ((h keys rfl).sublist
        ((entriesAt_keys _ _).trans List.filter_sublist))
    | none =>
      split
      · exact hfilter _ _ (hascending _ _)
      · exact hfilter _ _ (hlist _)
      · contradiction

theorem rowsAt_keys (key : String) (record : Record) (positions : List ValuePosition) :
    (rowsAt key record positions).map (fun row => row.1.key) =
      List.replicate (positions.length - 1 + 1) key := by
  unfold rowsAt
  split
  · rename_i h
    simp [h]
  · rename_i h
    have := List.length_pos_iff.mpr h
    rw [List.map_map, Nat.sub_add_cancel this]
    exact List.map_const'

/-- The rows of each record stand together, in the order of the selection. -/
theorem keys_of_rows {scaling : Scaling} {t : Table} {useDictSection : Bool}
    {query : Option QueryNode} (explode : Option ExplodeTarget)
    {keysToFilter : Option (List String)} (h : ∀ keys, keysToFilter = some keys → keys.Nodup) :
    ((queryExplodedIn scaling t useDictSection query explode keysToFilter).map
        fun row => row.1.key).destutter (· ≠ ·) =
      (matchesIn scaling t useDictSection query keysToFilter).map Prod.fst := by
  have hnodup : ((matchesIn scaling t useDictSection query keysToFilter).map Prod.fst).Nodup :=
    matchesIn_nodup h
  cases explode with
  | none =>
    simp only [queryExplodedIn, List.map_map]
    exact List.destutter_of_isChain _ _ hnodup.isChain
  | some target =>
    simp only [queryExplodedIn, List.map_flatMap, rowsAt_keys]
    exact destutter_runs Prod.fst
      (fun e => (positionsOf scaling t query target e.2).length - 1) _ hnodup

/-! ## Positions -/

/-- The order rows come in within a record: by value, and by sub-value within one. -/
def ValuePosition.Before (p q : ValuePosition) : Prop :=
  p.value < q.value ∨
    p.value = q.value ∧ ∃ s s', p.subValue = some s ∧ q.subValue = some s' ∧ s < s'

/-- The position names a value of the attribute, or a sub-value of one. -/
def PositionIn (record : Record) (attr : Nat) (p : ValuePosition) : Prop :=
  ∃ value, (record.valuesAt attr)[p.value]? = some value ∧
    ∀ s, p.subValue = some s → s < value.subValues.length

/-- The bytes a criterion on the attribute is compared with at a position: those of an ordinary
value, or of one of several sub-values. -/
def BytesAt (record : Record) (attr : Nat) (p : ValuePosition) (bytes : Bytes) : Prop :=
  ∃ value, (record.valuesAt attr)[p.value]? = some value ∧
    (value.subValues.length ≤ 1 ∧ p.subValue = none ∧ bytes = value.firstBytes ∨
      1 < value.subValues.length ∧ ∃ s, p.subValue = some s ∧ value.subValues[s]? = some bytes)

theorem BytesAt.positionIn {record : Record} {attr : Nat} {p : ValuePosition} {bytes : Bytes}
    (h : BytesAt record attr p bytes) : PositionIn record attr p := by
  obtain ⟨value, hvalue, ⟨-, hnone, -⟩ | ⟨-, s, hs, hbytes⟩⟩ := h
  · exact ⟨value, hvalue, by simp [hnone]⟩
  · refine ⟨value, hvalue, fun s' hs' => ?_⟩
    rw [hs] at hs'
    cases hs'
    exact (List.getElem?_eq_some_iff.mp hbytes).1

/-- A text satisfies one of the criteria. -/
def Satisfies (scaling : Scaling) (map : FieldMap) (conditions : List QueryCondition)
    (text : String) : Prop :=
  ∃ cond ∈ conditions,
    compareValues text cond.op
      (searchValue scaling cond (map[cond.fieldName]?.bind Prod.snd)) = true

theorem anyConditionMatches_iff {scaling : Scaling} {map : FieldMap}
    {conditions : List QueryCondition} {text : String} :
    anyConditionMatches text conditions (searchValues scaling conditions map) = true ↔
      Satisfies scaling map conditions text := by
  simp only [anyConditionMatches, searchValues, Satisfies]
  induction conditions with
  | nil => simp
  | cons cond conditions ih => simp [ih]

/-! ### A lone field -/

/-- The positions of one value, with their bytes. -/
def unitsAt (entry : Value × Nat) : List (ValuePosition × Bytes) :=
  if entry.1.subValues.length ≤ 1 then [({ value := entry.2 }, entry.1.firstBytes)]
  else entry.1.subValues.zipIdx.map fun (sub, s) =>
    ({ value := entry.2, subValue := some s }, sub)

theorem zipIdx_increasing {α : Type} (l : List α) (n : Nat) :
    (l.zipIdx n).Pairwise fun a b => a.2 < b.2 := by
  have h : ((l.zipIdx n).map Prod.snd).Pairwise (· < ·) := by
    rw [List.zipIdx_map_snd]
    exact List.pairwise_lt_range'
  exact List.pairwise_map.mp h

theorem value_of_mem_unitsAt {entry : Value × Nat} {u : ValuePosition × Bytes}
    (h : u ∈ unitsAt entry) : u.1.value = entry.2 := by
  unfold unitsAt at h
  split at h
  · rw [List.mem_singleton.mp h]
  · obtain ⟨⟨sub, s⟩, -, rfl⟩ := List.mem_map.mp h
    rfl

theorem units_sorted (values : List Value) :
    (values.zipIdx.flatMap unitsAt).Pairwise fun a b => a.1.Before b.1 := by
  rw [List.pairwise_flatMap]
  constructor
  · intro entry _
    unfold unitsAt
    split
    · exact List.pairwise_singleton _ _
    · refine List.pairwise_map.mpr ((zipIdx_increasing _ _).imp ?_)
      intro a b hab
      exact Or.inr ⟨rfl, a.2, b.2, rfl, rfl, hab⟩
  · refine (zipIdx_increasing _ _).imp ?_
    intro a b hab u hu w hw
    left
    rw [value_of_mem_unitsAt hu, value_of_mem_unitsAt hw]
    exact hab

theorem mem_units {values : List Value} {p : ValuePosition} {bytes : Bytes} :
    (p, bytes) ∈ values.zipIdx.flatMap unitsAt ↔ ∃ value, values[p.value]? = some value ∧
      (value.subValues.length ≤ 1 ∧ p.subValue = none ∧ bytes = value.firstBytes ∨
        1 < value.subValues.length ∧ ∃ s, p.subValue = some s ∧ value.subValues[s]? = some bytes) := by
  rw [List.mem_flatMap]
  constructor
  · rintro ⟨⟨value, v⟩, hin, hu⟩
    have hv := value_of_mem_unitsAt hu
    dsimp only at hv
    subst hv
    refine ⟨value, List.mem_zipIdx_iff_getElem?.mp hin, ?_⟩
    unfold unitsAt at hu
    split at hu
    · rename_i hlen
      simp only [List.mem_singleton, Prod.mk.injEq] at hu
      exact Or.inl ⟨hlen, by rw [hu.1], hu.2⟩
    · rename_i hlen
      obtain ⟨⟨sub, s⟩, hsub, heq⟩ := List.mem_map.mp hu
      simp only [Prod.mk.injEq] at heq
      refine Or.inr ⟨by simpa using hlen, s, by rw [← heq.1], ?_⟩
      rw [← heq.2]
      exact List.mem_zipIdx_iff_getElem?.mp hsub
  · obtain ⟨v, subValue⟩ := p
    rintro ⟨value, hvalue, ⟨hlen, hnone, rfl⟩ | ⟨hlen, s, hs, hbytes⟩⟩
    · dsimp only at hnone
      subst hnone
      refine ⟨(value, v), List.mem_zipIdx_iff_getElem?.mpr hvalue, ?_⟩
      simp [unitsAt, hlen]
    · dsimp only at hs
      subst hs
      refine ⟨(value, v), List.mem_zipIdx_iff_getElem?.mpr hvalue, ?_⟩
      simp only [unitsAt, Nat.not_le.mpr hlen, if_false, List.mem_map]
      exact ⟨(bytes, s), List.mem_zipIdx_iff_getElem?.mpr hbytes, rfl⟩

theorem ValuePosition.Before.ne {p q : ValuePosition} (h : p.Before q) : p ≠ q := by
  rintro rfl
  rcases h with h | ⟨-, s, s', hs, hs', hlt⟩
  · exact absurd h (lt_irrefl _)
  · rw [hs] at hs'
    cases hs'
    exact absurd hlt (lt_irrefl _)

/-- What is pushed once each is appended. -/
theorem foldl_pushUnique (l : List ValuePosition) : ∀ out : List ValuePosition,
    (out ++ l).Nodup → l.foldl pushUnique out = out ++ l := by
  induction l with
  | nil => intro out _; simp
  | cons p l ih =>
    intro out h
    have hp : p ∉ out := fun hin =>
      (List.nodup_append.mp h).2.2 p hin p List.mem_cons_self rfl
    rw [List.foldl_cons, pushUnique, if_neg hp, ih _ (by simpa using h)]
    simp

/-- The loop over the values collects their positions that match. -/
theorem collectPositions_eq {scaling : Scaling} {record : Record} {attr : Nat}
    {conditions : List QueryCondition} {map : FieldMap} (hc : conditions ≠ []) :
    collectPositions scaling record attr conditions map =
      (((record.valuesAt attr).zipIdx.flatMap unitsAt).filter fun u =>
        anyConditionMatches (textOf u.2) conditions (searchValues scaling conditions map)).map
          Prod.fst := by
  unfold collectPositions Record.valuesAt
  cases record.fields[attr]? with
  | none => simp
  | some field =>
    simp only [if_neg hc, Option.map_some, Option.getD_some]
    generalize searchValues scaling conditions map = searchVals
    have hnodup : (((field.values.zipIdx.flatMap unitsAt).filter fun u =>
        anyConditionMatches (textOf u.2) conditions searchVals).map Prod.fst).Nodup :=
      List.pairwise_map.mpr (((units_sorted field.values).filter _).imp fun h => h.ne)
    have hpush := foldl_pushUnique _ [] (by simpa using hnodup)
    rw [List.nil_append] at hpush
    rw [← hpush, List.foldl_map, List.foldl_filter, List.foldl_flatMap]
    congr 1
    funext out entry
    obtain ⟨value, v⟩ := entry
    dsimp only [unitsAt]
    split
    · rfl
    · rw [List.foldl_map]

theorem collectPositions_sorted (scaling : Scaling) (record : Record) (attr : Nat)
    (conditions : List QueryCondition) (map : FieldMap) :
    (collectPositions scaling record attr conditions map).Pairwise ValuePosition.Before := by
  by_cases hc : conditions = []
  · unfold collectPositions
    split
    · exact List.Pairwise.nil
    · rw [if_pos hc]
      exact List.pairwise_map.mpr (List.pairwise_lt_range.imp fun h => Or.inl h)
  · rw [collectPositions_eq hc]
    exact List.pairwise_map.mpr ((units_sorted _).filter _)

/-- With criteria on the field, its positions are those whose text satisfies one of them. -/
theorem mem_collectPositions {scaling : Scaling} {record : Record} {attr : Nat}
    {conditions : List QueryCondition} {map : FieldMap} (hc : conditions ≠ [])
    {p : ValuePosition} :
    p ∈ collectPositions scaling record attr conditions map ↔
      ∃ bytes, BytesAt record attr p bytes ∧ Satisfies scaling map conditions (textOf bytes) := by
  rw [collectPositions_eq hc]
  simp only [List.mem_map, List.mem_filter, anyConditionMatches_iff]
  constructor
  · rintro ⟨⟨p, bytes⟩, ⟨hin, hsat⟩, rfl⟩
    exact ⟨bytes, mem_units.mp hin, hsat⟩
  · rintro ⟨bytes, hat, hsat⟩
    exact ⟨(p, bytes), ⟨mem_units.mpr hat, hsat⟩, rfl⟩

theorem collectPositions_in {scaling : Scaling} {record : Record} {attr : Nat}
    {conditions : List QueryCondition} {map : FieldMap} {p : ValuePosition}
    (hp : p ∈ collectPositions scaling record attr conditions map) : PositionIn record attr p := by
  by_cases hc : conditions = []
  · unfold collectPositions at hp
    split at hp
    · simp at hp
    · rename_i field hfield
      rw [if_pos hc] at hp
      obtain ⟨v, hv, rfl⟩ := List.mem_map.mp hp
      have hlt := List.mem_range.mp hv
      exact ⟨field.values[v], by simp [Record.valuesAt, hfield, hlt], by simp⟩
  · obtain ⟨bytes, hat, -⟩ := (mem_collectPositions hc).mp hp
    exact hat.positionIn

end RustyPick
