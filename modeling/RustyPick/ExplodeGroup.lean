import RustyPick.Explode

/-!
# RustyPick.ExplodeGroup

The rows of an association group (`collect_group_positions`), and what `BY.EXP` covers.

* `mem_marks`: the values a group selects are those one of its members selects.
* `Within`: what is marked below them are sub-values some member has.
* `collectGroupPositions_sorted`, `collectGroupPositions_in`, `collectGroupPositions_covers`: so the
  rows are in order, name what is there, and leave out no value when nothing narrows them.
* `explode_covers`: the rows of a selection, of a lone field and of a group.
-/

namespace RustyPick

open Lib

namespace GroupMarks

/-- Whether a member selects a value. -/
def Selects (depth : AssociationDepth) (whole : Value → Bool) (matching : Bytes → Bool)
    (value : Value) : Prop :=
  match depth with
  | .value => whole value = true
  | .subValue => ∃ sub ∈ value.subValues, matching sub = true

theorem mem_markSubs {matching : Bytes → Bool} {v w : Nat} (subs : List (Bytes × Nat)) :
    ∀ marks : GroupMarks, w ∈ (marks.markSubs matching v subs).values ↔
      w ∈ marks.values ∨ w = v ∧ ∃ e ∈ subs, matching e.1 = true := by
  induction subs with
  | nil => intro marks; simp [markSubs]
  | cons e subs ih =>
    intro marks
    obtain ⟨sub, s⟩ := e
    rw [markSubs, List.foldl_cons]
    refine (ih _).trans ?_
    rw [List.exists_mem_cons_iff]
    by_cases hm : matching sub = true
    · simp only [hm, if_true, narrow, Finset.mem_insert, true_or, and_true]
      tauto
    · simp [hm]

theorem mem_markValue {depth : AssociationDepth} {whole : Value → Bool} {matching : Bytes → Bool}
    {marks : GroupMarks} {entry : Value × Nat} {v : Nat} :
    v ∈ (markValue depth whole matching marks entry).values ↔
      v ∈ marks.values ∨ v = entry.2 ∧ Selects depth whole matching entry.1 := by
  cases depth with
  | value =>
    simp only [markValue, Selects]
    split
    · rename_i hw
      simp [select, or_comm, hw]
    · rename_i hw
      simp [hw]
  | subValue =>
    simp only [markValue, Selects, mem_markSubs]
    have hsubs : (∃ e ∈ entry.1.subValues.zipIdx, matching e.1 = true) ↔
        ∃ sub ∈ entry.1.subValues, matching sub = true := by
      constructor
      · rintro ⟨e, he, hm⟩
        exact ⟨e.1, List.fst_mem_of_mem_zipIdx he, hm⟩
      · rintro ⟨sub, hsub, hm⟩
        obtain ⟨s, hs⟩ := List.getElem?_of_mem hsub
        exact ⟨(sub, s), List.mem_zipIdx_iff_getElem?.mpr hs, hm⟩
    rw [hsubs]

theorem mem_foldl_markValue {depth : AssociationDepth} {whole : Value → Bool}
    {matching : Bytes → Bool} {v : Nat} (entries : List (Value × Nat)) : ∀ marks : GroupMarks,
    v ∈ (entries.foldl (markValue depth whole matching) marks).values ↔
      v ∈ marks.values ∨ ∃ e ∈ entries, v = e.2 ∧ Selects depth whole matching e.1 := by
  induction entries with
  | nil => intro marks; simp
  | cons e entries ih =>
    intro marks
    rw [List.foldl_cons, ih, mem_markValue]
    simp only [List.exists_mem_cons_iff, or_assoc]

variable {scaling : Scaling} {record : Record} {map : FieldMap} {selective : Bool}

/-- Whether a member of the group selects a value of the record. -/
def AxisSelects (scaling : Scaling) (record : Record) (map : FieldMap) (selective : Bool)
    (axis : AssociationMember × List QueryCondition) (v : Nat) : Prop :=
  ¬ (selective = true ∧ axis.2 = []) ∧ ∃ value, (record.valuesAt axis.1.index)[v]? = some value ∧
    Selects axis.1.depth
      (fun value => axis.2 = [] ∨ valueMatches value axis.2 (searchValues scaling axis.2 map))
      (fun sub => axis.2 = [] ∨
        anyConditionMatches (textOf sub) axis.2 (searchValues scaling axis.2 map)) value

theorem mem_markMember {marks : GroupMarks} {axis : AssociationMember × List QueryCondition}
    {v : Nat} :
    v ∈ (markMember scaling record map selective marks axis).values ↔
      v ∈ marks.values ∨ AxisSelects scaling record map selective axis v := by
  obtain ⟨member, conditions⟩ := axis
  simp only [markMember, AxisSelects]
  split
  · rename_i hskip
    have : v ∈ (if member.depth = .subValue then
        { marks with structural := marks.structural ++ [member.index] } else marks).values ↔
        v ∈ marks.values := by
      split <;> rfl
    simp [this, hskip]
  · rename_i hskip
    simp only [hskip, not_false_eq_true, true_and, Record.valuesAt]
    cases record.fields[member.index]? with
    | none => simp
    | some field =>
      dsimp only [Option.map_some, Option.getD_some]
      rw [mem_foldl_markValue]
      constructor
      · rintro (h | ⟨e, he, rfl, hsel⟩)
        · exact Or.inl h
        · exact Or.inr ⟨e.1, List.mem_zipIdx_iff_getElem?.mp he, hsel⟩
      · rintro (h | ⟨value, hvalue, hsel⟩)
        · exact Or.inl h
        · exact Or.inr ⟨(value, v), List.mem_zipIdx_iff_getElem?.mpr hvalue, rfl, hsel⟩

/-- The values a group has selected are those some member selects. -/
theorem mem_marks {v : Nat} (axes : List (AssociationMember × List QueryCondition)) :
    ∀ marks : GroupMarks,
      v ∈ (axes.foldl (markMember scaling record map selective) marks).values ↔
        v ∈ marks.values ∨ ∃ axis ∈ axes, AxisSelects scaling record map selective axis v := by
  induction axes with
  | nil => intro marks; simp
  | cons axis axes ih =>
    intro marks
    rw [List.foldl_cons, ih, mem_markMember]
    simp only [List.exists_mem_cons_iff, or_assoc]

/-- The sub-values and the depth a group has marked are those of its members. -/
structure Within (record : Record) (indices : List Nat) (marks : GroupMarks) : Prop where
  narrowed : ∀ v subs, marks.narrowed[v]? = some subs → subs ≠ ∅ ∧
    ∀ s ∈ subs, ∃ i ∈ indices, PositionIn record i { value := v, subValue := some s }
  structural : ∀ i ∈ marks.structural, i ∈ indices

variable {indices : List Nat} {marks : GroupMarks}

theorem Within.narrow (h : marks.Within record indices) {v s i : Nat} (hi : i ∈ indices)
    (hs : PositionIn record i { value := v, subValue := some s }) :
    (marks.narrow v s).Within record indices := by
  refine ⟨fun w subs hsubs => ?_, h.structural⟩
  rw [GroupMarks.narrow, getElem?_insert_eq] at hsubs
  split at hsubs
  · rename_i hvw
    subst hvw
    cases hsubs
    refine ⟨Finset.insert_ne_empty _ _, fun s' hs' => ?_⟩
    rcases Finset.mem_insert.mp hs' with rfl | hs'
    · exact ⟨i, hi, hs⟩
    · cases hn : marks.narrowed[v]? with
      | none => simp [hn] at hs'
      | some subs =>
        rw [hn, Option.getD_some] at hs'
        exact (h.narrowed v subs hn).2 s' hs'
  · exact h.narrowed w subs hsubs

theorem Within.markSubs {matching : Bytes → Bool} {v i : Nat} (hi : i ∈ indices)
    (subs : List (Bytes × Nat))
    (hsubs : ∀ e ∈ subs, PositionIn record i { value := v, subValue := some e.2 }) :
    ∀ {marks : GroupMarks}, marks.Within record indices →
      (marks.markSubs matching v subs).Within record indices := by
  induction subs with
  | nil => intro marks h; exact h
  | cons e subs ih =>
    intro marks h
    obtain ⟨sub, s⟩ := e
    rw [GroupMarks.markSubs, List.foldl_cons]
    refine ih (fun e' he' => hsubs e' (List.mem_cons_of_mem _ he')) ?_
    by_cases hm : matching sub = true
    · simpa [hm] using h.narrow hi (hsubs (sub, s) List.mem_cons_self)
    · simpa [hm] using h

theorem Within.markValues {depth : AssociationDepth} {whole : Value → Bool}
    {matching : Bytes → Bool} {i : Nat} (hi : i ∈ indices) (entries : List (Value × Nat))
    (hentries : ∀ e ∈ entries, (record.valuesAt i)[e.2]? = some e.1) :
    ∀ {marks : GroupMarks}, marks.Within record indices →
      (entries.foldl (markValue depth whole matching) marks).Within record indices := by
  induction entries with
  | nil => intro marks h; exact h
  | cons e entries ih =>
    intro marks h
    rw [List.foldl_cons]
    refine ih (fun e' he' => hentries e' (List.mem_cons_of_mem _ he')) ?_
    cases depth with
    | value =>
      simp only [markValue]
      split
      · exact ⟨h.narrowed, h.structural⟩
      · exact h
    | subValue =>
      refine h.markSubs hi _ fun sub hsub => ⟨e.1, hentries e List.mem_cons_self, ?_⟩
      intro s hs
      cases hs
      exact (List.getElem?_eq_some_iff.mp (List.mem_zipIdx_iff_getElem?.mp hsub)).1

theorem Within.markMember {axis : AssociationMember × List QueryCondition}
    (h : marks.Within record indices) (hi : axis.1.index ∈ indices) :
    (markMember scaling record map selective marks axis).Within record indices := by
  obtain ⟨member, conditions⟩ := axis
  simp only [GroupMarks.markMember]
  split
  · split
    · refine ⟨h.narrowed, fun i hin => ?_⟩
      rcases List.mem_append.mp hin with hin | hin
      · exact h.structural i hin
      · rw [List.mem_singleton.mp hin]
        exact hi
    · exact h
  · cases hfield : record.fields[member.index]? with
    | none => exact h
    | some field =>
      refine h.markValues hi _ fun e he => ?_
      simpa [Record.valuesAt, hfield] using List.mem_zipIdx_iff_getElem?.mp he

theorem Within.markMembers (axes : List (AssociationMember × List QueryCondition))
    (haxes : ∀ axis ∈ axes, axis.1.index ∈ indices) : ∀ {marks : GroupMarks},
    marks.Within record indices →
      (axes.foldl (GroupMarks.markMember scaling record map selective) marks).Within record
        indices := by
  induction axes with
  | nil => intro marks h; exact h
  | cons axis axes ih =>
    intro marks h
    exact ih (fun a ha => haxes a (List.mem_cons_of_mem _ ha))
      (h.markMember (haxes axis List.mem_cons_self))

/-! ### The rows of a value -/

theorem mem_structuralSubs {v s : Nat} (structural : List Nat) :
    s ∈ structuralSubs record v structural ↔
      ∃ i ∈ structural, PositionIn record i { value := v, subValue := some s } := by
  have hfold : ∀ subs : Finset Nat, s ∈ structural.foldl (addStructural record v) subs ↔
      s ∈ subs ∨ ∃ i ∈ structural, PositionIn record i { value := v, subValue := some s } := by
    induction structural with
    | nil => intro subs; simp
    | cons i structural ih =>
      intro subs
      have hvalue : (record.fields[i]?.bind fun field => field.values[v]?) =
          (record.valuesAt i)[v]? := by
        unfold Record.valuesAt
        cases record.fields[i]? <;> simp
      rw [List.foldl_cons, ih, List.exists_mem_cons_iff, addStructural, hvalue, ← or_assoc]
      refine or_congr_left ?_
      cases hv : (record.valuesAt i)[v]? with
      | none => simp [PositionIn, hv]
      | some value => simp [PositionIn, hv]
  simpa [structuralSubs] using hfold ∅

theorem subRows_sorted (v : Nat) (subs : Finset Nat) :
    (subRows v subs).Pairwise ValuePosition.Before :=
  List.pairwise_map.mpr ((pairwise_ascending subs).imp fun h => Or.inr ⟨rfl, _, _, rfl, rfl, h⟩)

theorem mem_subRows {v : Nat} {subs : Finset Nat} {p : ValuePosition} :
    p ∈ subRows v subs ↔ p.value = v ∧ ∃ s ∈ subs, p.subValue = some s := by
  obtain ⟨w, sub⟩ := p
  simp only [subRows, List.mem_map, mem_ascending, ValuePosition.mk.injEq]
  constructor
  · rintro ⟨s, hs, rfl, rfl⟩
    exact ⟨rfl, s, hs, rfl⟩
  · rintro ⟨rfl, s, hs, rfl⟩
    exact ⟨s, hs, rfl, rfl⟩

theorem rowsOf_sorted (v : Nat) : (rowsOf record marks v).Pairwise ValuePosition.Before := by
  unfold rowsOf
  split
  · exact subRows_sorted _ _
  · dsimp only
    split
    · exact List.pairwise_singleton _ _
    · exact subRows_sorted _ _

theorem value_of_mem_rowsOf {v : Nat} {p : ValuePosition} (h : p ∈ rowsOf record marks v) :
    p.value = v := by
  unfold rowsOf at h
  split at h
  · exact (mem_subRows.mp h).1
  · dsimp only at h
    split at h
    · rw [List.mem_singleton.mp h]
    · exact (mem_subRows.mp h).1

/-- A value a group has selected has a row. -/
theorem rowsOf_ne_nil (h : marks.Within record indices) (v : Nat) :
    ∃ p, p ∈ rowsOf record marks v := by
  have hsubs : ∀ subs : Finset Nat, subs ≠ ∅ → ∃ p, p ∈ subRows v subs := by
    intro subs hne
    obtain ⟨s, hs⟩ := Finset.nonempty_iff_ne_empty.mpr hne
    exact ⟨{ value := v, subValue := some s }, mem_subRows.mpr ⟨rfl, s, hs, rfl⟩⟩
  unfold rowsOf
  cases hn : marks.narrowed[v]? with
  | some subs => exact hsubs subs (h.narrowed v subs hn).1
  | none =>
    dsimp only
    split
    · exact ⟨_, List.mem_singleton_self _⟩
    · rename_i hne
      exact hsubs _ hne

/-- Each row of a value some member has names a value or sub-value of a member. -/
theorem rowsOf_in (h : marks.Within record indices) {v : Nat}
    (hv : ∃ i ∈ indices, PositionIn record i { value := v }) {p : ValuePosition}
    (hp : p ∈ rowsOf record marks v) : ∃ i ∈ indices, PositionIn record i p := by
  have hsub : ∀ s, p.value = v → p.subValue = some s →
      p = { value := v, subValue := some s } := by
    intro s hpv hps
    cases p
    simp_all
  unfold rowsOf at hp
  cases hn : marks.narrowed[v]? with
  | some subs =>
    rw [hn] at hp
    obtain ⟨hpv, s, hs, hps⟩ := mem_subRows.mp hp
    rw [hsub s hpv hps]
    exact (h.narrowed v subs hn).2 s hs
  | none =>
    rw [hn] at hp
    dsimp only at hp
    split at hp
    · rw [List.mem_singleton.mp hp]
      exact hv
    · obtain ⟨hpv, s, hs, hps⟩ := mem_subRows.mp hp
      rw [hsub s hpv hps]
      obtain ⟨i, hi, hin⟩ := (mem_structuralSubs _).mp hs
      exact ⟨i, h.structural i hi, hin⟩

end GroupMarks

section Group

variable {scaling : Scaling} {record : Record} {map : FieldMap}
  {axes : List (AssociationMember × List QueryCondition)}

theorem collectGroupPositions_sorted (scaling : Scaling) (record : Record) (map : FieldMap)
    (axes : List (AssociationMember × List QueryCondition)) :
    (collectGroupPositions scaling record axes map).Pairwise ValuePosition.Before := by
  refine List.pairwise_flatMap.mpr ⟨fun v _ => GroupMarks.rowsOf_sorted v, ?_⟩
  refine (pairwise_ascending _).imp ?_
  intro v w hvw p hp q hq
  left
  rw [GroupMarks.value_of_mem_rowsOf hp, GroupMarks.value_of_mem_rowsOf hq]
  exact hvw

theorem marks_within (selective : Bool) :
    GroupMarks.Within record (axes.map fun axis => axis.1.index)
      (axes.foldl (GroupMarks.markMember scaling record map selective) {}) := by
  refine GroupMarks.Within.markMembers axes (fun axis h => List.mem_map.mpr ⟨axis, h, rfl⟩) ?_
  exact ⟨fun v subs h => by simp at h, by simp⟩

theorem collectGroupPositions_in {p : ValuePosition}
    (hp : p ∈ collectGroupPositions scaling record axes map) :
    ∃ i ∈ axes.map fun axis => axis.1.index, PositionIn record i p := by
  obtain ⟨v, hv, hp⟩ := List.mem_flatMap.mp hp
  refine GroupMarks.rowsOf_in (marks_within _) ?_ hp
  rcases (GroupMarks.mem_marks axes _).mp (mem_ascending.mp hv) with
    h | ⟨axis, haxis, -, value, hvalue, -⟩
  · simp at h
  · exact ⟨axis.1.index, List.mem_map.mpr ⟨axis, haxis, rfl⟩, value, hvalue, by simp⟩

theorem mem_valuesAt {attr : Nat} {value : Value} (h : value ∈ record.valuesAt attr) :
    ∃ f ∈ record.fields, value ∈ f.values := by
  unfold Record.valuesAt at h
  cases hfield : record.fields[attr]? with
  | none => simp [hfield] at h
  | some f => exact ⟨f, List.mem_of_getElem? hfield, by simpa [hfield] using h⟩

/-- Without a criterion on any member, every value of every member has a row. -/
theorem collectGroupPositions_covers (hnone : ∀ axis ∈ axes, axis.2 = [])
    (hfilled : ∀ f ∈ record.fields, f.Filled) {axis : AssociationMember × List QueryCondition}
    (haxis : axis ∈ axes) {v : Nat} (hv : v < (record.valuesAt axis.1.index).length) :
    ∃ p ∈ collectGroupPositions scaling record axes map, p.value = v := by
  have hselective : (axes.any fun axis => decide (axis.2 ≠ [])) = false := by
    simpa [List.any_eq_false] using hnone
  have hselects : GroupMarks.AxisSelects scaling record map
      (axes.any fun axis => decide (axis.2 ≠ [])) axis v := by
    refine ⟨by rw [hselective]; simp, (record.valuesAt axis.1.index)[v],
      List.getElem?_eq_getElem hv, ?_⟩
    rw [hnone axis haxis]
    cases axis.1.depth with
    | value => simp [GroupMarks.Selects]
    | subValue =>
      obtain ⟨f, hf, hin⟩ := mem_valuesAt (List.getElem_mem hv)
      have hsubs := (hfilled f hf).2 _ hin
      obtain ⟨sub, hsub⟩ := List.exists_mem_of_ne_nil _ hsubs
      exact ⟨sub, hsub, by simp⟩
  have hmem := (GroupMarks.mem_marks axes {}).mpr (Or.inr ⟨axis, haxis, hselects⟩)
  obtain ⟨p, hp⟩ := GroupMarks.rowsOf_ne_nil (@marks_within scaling record map axes _) v
  exact ⟨p, List.mem_flatMap.mpr ⟨v, mem_ascending.mpr hmem, hp⟩,
    GroupMarks.value_of_mem_rowsOf hp⟩

end Group

/-! ## All together -/

/-- The positions of the rows under one key. -/
def positionsUnder (rows : List (SelectEntry × Record)) (key : String) : List ValuePosition :=
  (rows.filter fun row => row.1.key = key).filterMap fun row => row.1.position

def ExplodeTarget.indices : ExplodeTarget → List Nat
  | .field _ index => [index]
  | .group assoc => assoc.members.map AssociationMember.index

theorem positionsUnder_append (rows rows' : List (SelectEntry × Record)) (key : String) :
    positionsUnder (rows ++ rows') key = positionsUnder rows key ++ positionsUnder rows' key := by
  simp [positionsUnder]

theorem positionsUnder_rowsAt (key : String) (record : Record) (positions : List ValuePosition)
    (key' : String) :
    positionsUnder (rowsAt key record positions) key' = if key = key' then positions else [] := by
  unfold positionsUnder rowsAt
  by_cases hk : key = key' <;> by_cases hp : positions = [] <;>
    simp [hk, hp, List.filterMap_map, List.filter_map, Function.comp_def]

/-- Under the key of a selected record stand its own positions. -/
theorem positionsUnder_rows {f : Record → List ValuePosition} (found : List (String × Record))
    (h : (found.map Prod.fst).Nodup) {key : String} {record : Record}
    (hin : (key, record) ∈ found) :
    positionsUnder (found.flatMap fun (key, record) => rowsAt key record (f record)) key =
      f record := by
  have hother : ∀ found : List (String × Record), key ∉ found.map Prod.fst →
      positionsUnder (found.flatMap fun (key, record) => rowsAt key record (f record)) key = [] := by
    intro found
    induction found with
    | nil => intro _; rfl
    | cons e found ih =>
      intro hk
      rw [List.map_cons, List.mem_cons, not_or] at hk
      rw [List.flatMap_cons, positionsUnder_append, ih hk.2, positionsUnder_rowsAt,
        if_neg (Ne.symm hk.1)]
      rfl
  induction found with
  | nil => simp at hin
  | cons e found ih =>
    rw [List.map_cons, List.nodup_cons] at h
    rw [List.flatMap_cons, positionsUnder_append, positionsUnder_rowsAt]
    rcases List.mem_cons.mp hin with rfl | hin
    · rw [if_pos rfl, hother found h.1, List.append_nil]
    · have hne : e.1 ≠ key := fun heq => h.1 (heq ▸ List.mem_map_of_mem hin)
      rw [if_neg hne, List.nil_append, ih h.2 hin]

/-- Explode covers exactly the matching positions of exactly the selected records. -/
theorem explode_covers {scaling : Scaling} {t : Table} {useDictSection : Bool}
    {query : Option QueryNode} {keysToFilter : Option (List String)} (target : ExplodeTarget)
    (hkeys : ∀ keys, keysToFilter = some keys → keys.Nodup) :
    let rows := queryExplodedIn scaling t useDictSection query (some target) keysToFilter
    let found := matchesIn scaling t useDictSection query keysToFilter
    (rows.map fun row => row.1.key).destutter (· ≠ ·) = found.map Prod.fst ∧
    ∀ key record, (key, record) ∈ found →
      (positionsUnder rows key).Pairwise ValuePosition.Before ∧
      (∀ p ∈ positionsUnder rows key, ∃ attr ∈ target.indices, PositionIn record attr p) ∧
      (∀ name index, target = .field name index → conditionsFor query name ≠ [] →
        ∀ p, p ∈ positionsUnder rows key ↔ ∃ bytes, BytesAt record index p bytes ∧
          Satisfies scaling (explodeMap t query) (conditionsFor query name) (textOf bytes)) ∧
      (∀ group, target = .group group →
        (∀ m ∈ group.members, conditionsFor query m.name = []) →
        (∀ f ∈ record.fields, f.Filled) →
        ∀ m ∈ group.members, ∀ v < (record.valuesAt m.index).length,
          ∃ p ∈ positionsUnder rows key, p.value = v) := by
  intro rows found
  refine ⟨keys_of_rows (some target) hkeys, fun key record hin => ?_⟩
  have hunder : positionsUnder rows key = positionsOf scaling t query target record :=
    positionsUnder_rows found (matchesIn_nodup hkeys) hin
  rw [hunder]
  cases target with
  | field name index =>
    refine ⟨collectPositions_sorted _ _ _ _ _, fun p hp => ?_, ?_, ?_⟩
    · exact ⟨index, by simp [ExplodeTarget.indices], collectPositions_in hp⟩
    · intro name' index' htarget hc p
      cases htarget
      exact mem_collectPositions hc
    · intro group htarget
      cases htarget
  | group assoc =>
    refine ⟨collectGroupPositions_sorted _ _ _ _, fun p hp => ?_, ?_, ?_⟩
    · simpa [ExplodeTarget.indices, Function.comp_def] using collectGroupPositions_in hp
    · intro name' index' htarget
      cases htarget
    · intro group htarget hnone hfilled m hm v hv
      cases htarget
      refine collectGroupPositions_covers ?_ hfilled (List.mem_map_of_mem hm) hv
      intro axis haxis
      obtain ⟨m', hm', rfl⟩ := List.mem_map.mp haxis
      exact hnone m' hm'

/-- Three accounts beside two dates. -/
def raggedRecord : Record :=
  Record.fromBytes ([FM].intercalate [[VM].intercalate [utf8 "X", utf8 "Y", utf8 "Z"],
    [VM].intercalate [utf8 "1", utf8 "2"]])

def raggedTable : Table := { records := (∅ : Map String Record).insert "A" raggedRecord }

def raggedGroup : Association :=
  { controller := "ACCOUNTS"
    members := [{ name := "ACCOUNTS", index := 0, depth := .value },
      { name := "DATES", index := 1, depth := .value }] }

/-- Exploded as a group, the third account has its row. -/
theorem explode_covers_ragged :
    let rows := queryExplodedIn ⟨fun _ _ => none, by simp⟩ raggedTable false none
      (some (.group raggedGroup)) (some ["A"])
    (rows.map fun row => row.1.key).destutter (· ≠ ·) = ["A"] ∧
      ∃ p ∈ positionsUnder rows "A", p.value = 2 := by
  intro rows
  obtain ⟨hkeys, hpositions⟩ := @explode_covers ⟨fun _ _ => none, by simp⟩ raggedTable false none
    (some ["A"]) (.group raggedGroup) (by simp)
  have hfound : matchesIn ⟨fun _ _ => none, by simp⟩ raggedTable false none (some ["A"]) =
      [("A", raggedRecord)] := by decide +kernel
  have hfilled : ∀ f ∈ raggedRecord.fields, f.Filled := by
    unfold Field.Filled
    decide +kernel
  rw [hfound] at hkeys hpositions
  exact ⟨hkeys, (hpositions "A" raggedRecord List.mem_cons_self).2.2.2 raggedGroup rfl
    (fun m _ => rfl) hfilled { name := "ACCOUNTS", index := 0, depth := .value }
    List.mem_cons_self 2 (by decide +kernel)⟩

end RustyPick
