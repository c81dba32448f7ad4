import RustyPick.Lib.Named
import RustyPick.Base64
import RustyPick.Query

/-!
# RustyPick.RecordJson

A record as JSON and back (`serialize_record_in` and `deserialize_record_in` in `db/engine/mod.rs`).

The dictionary says which attributes go out and under what names. The names it has are turned into
camel case on the way out; on the way in a name is looked up among both kinds.

* `RoundTrips`: a record written out and read back has the same values in every attribute the
  dictionary describes, whatever order the dictionary is listed in.
* `roundTrips_iff`: that it does, exactly where the names tell the attributes apart (`NamesApart`).
* `sharedName_not_roundTrips`: two fields of one camel case name, where it does not.
-/

namespace RustyPick

open Lib

/-- A `serde_json::Value`; the members of an object are in the order of their names. -/
inductive Json where
  | null
  | bool (value : Bool)
  | number (text : String)
  | string (text : String)
  | array (items : List Json)
  | object (members : List (String × Json))

def BINARY_JSON_KEY : String := "$base64"

def camelFrom (capitalizeNext : Bool) : List Char → List Char
  | [] => []
  | c :: cs =>
    if c = '.' then camelFrom true cs
    else if capitalizeNext then c.toUpper :: camelFrom false cs
    else c.toLower :: camelFrom false cs

def toCamelCase (s : String) : String := String.ofList (camelFrom false s.toList)

structure RecordSchemaField where
  fieldIdx : Nat
  camelKey : String
  conversion : Option String

/-- `record_schema`, over the dictionary in the order it lists its entries. -/
def recordSchema (entries : List (String × Record)) : List RecordSchemaField :=
  entries.filterMap fun (dictKey, dictRec) =>
    (attributeOf dictRec).map fun idx =>
      { fieldIdx := idx
        camelKey := toCamelCase dictKey
        conversion := conversionCodeFromDictRecord dictRec }

inductive RecordDecodeError where
  | notAnObject
  | unknownFields (names : List String)
  | undecodableValue (name : String)
  deriving DecidableEq

def binaryJson (sub : Bytes) : Json := .object [(BINARY_JSON_KEY, .string (Base64.encode sub))]

def isBinaryJson : Json → Bool
  | .object members => members.any fun member => member.1 = BINARY_JSON_KEY
  | _ => false

def binaryFromJson : Json → Option Bytes
  | .object members =>
    match members.lookup BINARY_JSON_KEY with
    | some (.string encoded) => Base64.decode encoded
    | _ => none
  | _ => none

/-- Sets an attribute's values, with empty fields before it where there were none. -/
def Record.setValues (record : Record) (idx : Nat) (values : List Value) : Record :=
  { fields :=
      (record.fields ++ List.replicate (idx + 1 - record.fields.length) ({} : Field)).set idx
        { values := values } }

section

/-! ## Out -/

-- `apply_conversion` of a text and a code, which prints floating-point numbers.
variable (applyConversion : String → String → String)

/-- A sub-value: its text, or the envelope where it is none. -/
def emit (conversion : Option String) (sub : Bytes) : Json :=
  match fromUtf8? sub with
  | some text =>
    match conversion with
    | some code => .string (applyConversion text code)
    | none => .string text
  | none => binaryJson sub

def serializeValue (conversion : Option String) (value : Value) : Json :=
  match value.subValues with
  | [] => .string ""
  | [only] => emit applyConversion conversion only
  | subs => .array (subs.map (emit applyConversion conversion))

def serializeField (field : Option Field) (conversion : Option String) : Json :=
  match field with
  | none => .string ""
  | some field =>
    match field.values with
    | [] => .string ""
    | [only] =>
      if only.subValues.length ≤ 1 then emit applyConversion conversion only.firstBytes
      else .array [serializeValue applyConversion conversion only]
    | values => .array (values.map (serializeValue applyConversion conversion))

def serializeRecordWithSchema (schema : List RecordSchemaField) (record : Record) : Json :=
  .object (insertAll ∅ (schema.map fun field =>
    (field.camelKey, serializeField applyConversion record.fields[field.fieldIdx]?
      field.conversion))).toList

/-- `serialize_record_in`. -/
def serializeRecordIn (entries : List (String × Record)) (record : Record) : Json :=
  serializeRecordWithSchema applyConversion (recordSchema entries) record

end

section

/-! ## In -/

-- `print`: the text of a value that is not a scalar, as `serde_json` prints it.
variable (scaling : Scaling) (print : Json → String)

def scalarText (val : Json) (conversion : Option String) : String :=
  let text :=
    match val with
    | .string s => s
    | .number n => n
    | .bool b => if b then "1" else "0"
    | other => print other
  match conversion with
  | some code => applyIconv scaling text code
  | none => text

def scalar (conversion : Option String) (v : Json) : Option Bytes :=
  if isBinaryJson v then binaryFromJson v
  else some (utf8 (scalarText scaling print v conversion))

def deserializeValue (conversion : Option String) : Json → Option Value
  | .array subs => (subs.mapM (scalar scaling print conversion)).map fun subs => ⟨subs⟩
  | other => (scalar scaling print conversion other).map fun sub => ⟨[sub]⟩

def deserializeField (val : Json) (conversion : Option String) : Option (List Value) :=
  match val with
  | .array values => values.mapM (deserializeValue scaling print conversion)
  | other => (scalar scaling print conversion other).map fun sub => [⟨[sub]⟩]

/-- The attribute under each name, in camel case and as the dictionary has it. -/
def attrMap (entries : List (String × Record)) : Map String Nat :=
  entries.foldl (fun map entry =>
    match attributeOf entry.2 with
    | some idx => (map.insert (toCamelCase entry.1) idx).insert entry.1 idx
    | none => map) ∅

/-- The conversion code under each name. -/
def convMap (entries : List (String × Record)) : Map String String :=
  entries.foldl (fun map entry =>
    match attributeOf entry.2, conversionCodeFromDictRecord entry.2 with
    | some _, some code => (map.insert (toCamelCase entry.1) code).insert entry.1 code
    | _, _ => map) ∅

/-- The members of an object put into the record one after another. -/
def decodeMembers (convs : Map String String) :
    List (String × Json × Nat) → Record → Except RecordDecodeError Record
  | [], record => .ok record
  | (key, val, idx) :: rest, record =>
    match deserializeField scaling print val convs[key]? with
    | some values => decodeMembers convs rest (record.setValues idx values)
    | none => .error (.undecodableValue key)

/-- `deserialize_record_in`, over the dictionary in the order it lists its entries. -/
def deserializeRecordIn (entries : List (String × Record)) (data : Json) :
    Except RecordDecodeError Record :=
  match data with
  | .object obj =>
    let attrs := attrMap entries
    let unknown := (obj.filter fun member => attrs[member.1]?.isNone).map Prod.fst
    if unknown ≠ [] then .error (.unknownFields unknown)
    else
      decodeMembers scaling print (convMap entries)
        (obj.filterMap fun (key, val) => attrs[key]?.map fun idx => (key, val, idx)) {}
  | _ => .error .notAnObject

end

/-! ## What is to hold -/

/-- No value list and no sub-value list is empty. -/
def Record.Full (r : Record) : Prop :=
  ∀ field ∈ r.fields, field.values ≠ [] ∧ ∀ value ∈ field.values, value.subValues ≠ []

/-- The values of an attribute; one that is absent is one empty value. -/
def attributeValues (r : Record) (attr : Nat) : List Value :=
  match r.fields[attr]? with
  | some field => field.values
  | none => [Value.text ""]

/-- The dictionary describes the attribute under the name. -/
def Describes (t : Table) (name : String) (attr : Nat) : Prop :=
  t.dictionary[name]?.bind attributeOf = some attr

/-- Written out and read back, with the dictionary listed in any order. -/
def RoundTrips (applyConversion : String → String → String) (scaling : Scaling)
    (print : Json → String) (t : Table) : Prop :=
  ∀ entries, entries.Perm t.dictionary.toList → ∀ r : Record, r.Full →
    ∃ r', deserializeRecordIn scaling print entries
        (serializeRecordIn applyConversion entries r) = .ok r' ∧
      ∀ name attr, Describes t name attr → attributeValues r' attr = attributeValues r attr

def NoConversions (t : Table) : Prop :=
  ∀ (name : String) (entry : Record), t.dictionary[name]? = some entry →
    conversionCodeFromDictRecord entry = none

/-- A camel case name that stands for this attribute and, in either spelling, for no other. -/
def Owns (t : Table) (name : String) (attr : Nat) : Prop :=
  (∃ key, Describes t key attr ∧ toCamelCase key = name) ∧
    ∀ key other, Describes t key other → toCamelCase key = name ∨ key = name → other = attr

/-- A name of the dictionary for this attribute that is the camel case name of another's. -/
def Lends (t : Table) (name : String) (attr : Nat) : Prop :=
  Describes t name attr ∧ toCamelCase name ≠ name ∧
    ∃ key other, Describes t key other ∧ toCamelCase key = name ∧ other ≠ attr

/-- Every attribute has a camel case name to itself, and one that comes after any of its dictionary
names that is another's camel case name. -/
def NamesApart (t : Table) : Prop :=
  ∀ key attr, Describes t key attr →
    (∃ name, Owns t name attr) ∧
      ∀ name, Lends t name attr → ∃ name', Owns t name' attr ∧ name < name'

/-! ## A field -/

section

variable (applyConversion : String → String → String) (scaling : Scaling) (print : Json → String)

theorem binaryFromJson_binaryJson (sub : Bytes) : binaryFromJson (binaryJson sub) = some sub :=
  Base64.decode_encode sub

theorem scalar_string (text : String) : scalar scaling print none (.string text) = some (utf8 text) :=
  rfl

/-- A sub-value comes back whether it is text or not. -/
theorem scalar_emit (sub : Bytes) :
    scalar scaling print none (emit applyConversion none sub) = some sub := by
  unfold emit
  cases htext : fromUtf8? sub with
  | some text => exact (scalar_string scaling print text).trans (by rw [utf8_of_fromUtf8? htext])
  | none => exact binaryFromJson_binaryJson sub

theorem emit_not_array (conversion : Option String) (sub : Bytes) (items : List Json) :
    emit applyConversion conversion sub ≠ .array items := by
  unfold emit
  split
  · split <;> exact Json.noConfusion
  · exact Json.noConfusion

theorem mapM_map_of_forall {α β : Type} {encode : α → β} {decode : β → Option α} {l : List α}
    (h : ∀ a ∈ l, decode (encode a) = some a) : (l.map encode).mapM decode = some l := by
  induction l with
  | nil => rfl
  | cons a l ih =>
    rw [List.forall_mem_cons] at h
    simp [h.1, ih h.2]

theorem deserializeValue_emit (sub : Bytes) :
    deserializeValue scaling print none (emit applyConversion none sub) = some ⟨[sub]⟩ := by
  unfold deserializeValue
  split
  · rename_i subs heq
    exact absurd heq (emit_not_array applyConversion none sub subs)
  · rw [scalar_emit]
    rfl

theorem deserializeValue_serializeValue {value : Value} (h : value.subValues ≠ []) :
    deserializeValue scaling print none (serializeValue applyConversion none value) =
      some value := by
  unfold serializeValue
  split
  · rename_i heq
    exact absurd heq h
  · rename_i only heq
    rw [deserializeValue_emit, ← heq]
  · simp only [deserializeValue]
    rw [mapM_map_of_forall fun sub _ => scalar_emit applyConversion scaling print sub]
    rfl

theorem deserializeField_emit (sub : Bytes) :
    deserializeField scaling print (emit applyConversion none sub) none = some [⟨[sub]⟩] := by
  unfold deserializeField
  split
  · rename_i subs heq
    exact absurd heq (emit_not_array applyConversion none sub subs)
  · rw [scalar_emit]
    rfl

/-- A field comes back whatever its shape; one that is absent comes back as one empty value. -/
theorem deserializeField_serializeField {r : Record} (h : r.Full) (attr : Nat) :
    deserializeField scaling print (serializeField applyConversion r.fields[attr]? none) none =
      some (attributeValues r attr) := by
  unfold attributeValues
  cases hfield : r.fields[attr]? with
  | none => rfl
  | some field =>
    obtain ⟨hvalues, hsubs⟩ := h field (List.mem_of_getElem? hfield)
    have hback : (field.values.map (serializeValue applyConversion none)).mapM
        (deserializeValue scaling print none) = some field.values :=
      mapM_map_of_forall fun value hvalue =>
        deserializeValue_serializeValue applyConversion scaling print (hsubs value hvalue)
    simp only [serializeField]
    split
    · rename_i heq
      exact absurd heq hvalues
    · rename_i only heq
      rw [heq] at hback hsubs
      split
      · rename_i hone
        have hne := hsubs only List.mem_cons_self
        obtain ⟨sub, hsub⟩ : ∃ sub, only.subValues = [sub] :=
          List.length_eq_one_iff.mp (by have := List.length_pos_iff.mpr hne; omega)
        rw [deserializeField_emit, Value.firstBytes, heq]
        simp only [hsub, List.head?_cons, Option.getD_some]
        rw [← hsub]
      · rw [heq]
        exact hback
    · exact hback

end

/-! ## Names -/

/-- The entries that describe an attribute. -/
def described (entries : List (String × Record)) : List (String × Nat) :=
  entries.filterMap fun e => (attributeOf e.2).map fun idx => (e.1, idx)

def outNames (e : String × Nat) : List String := [toCamelCase e.1]

def inNames (e : String × Nat) : List String := [toCamelCase e.1, e.1]

theorem attrMap_eq (entries : List (String × Record)) :
    attrMap entries = named inNames Prod.snd (described entries) := by
  have hfold : ∀ map : Map String Nat,
      entries.foldl (fun map entry =>
        match attributeOf entry.2 with
        | some idx => (map.insert (toCamelCase entry.1) idx).insert entry.1 idx
        | none => map) map =
        insertAll map ((described entries).flatMap fun e => (inNames e).map fun k => (k, e.2)) := by
    induction entries with
    | nil => exact fun _ => rfl
    | cons entry entries ih =>
      intro map
      rw [List.foldl_cons, ih]
      cases hattr : attributeOf entry.2 with
      | none => simp [described, hattr]
      | some idx => simp [described, hattr, inNames, insertAll_cons]
  exact hfold ∅

theorem convMap_eq_empty {entries : List (String × Record)}
    (h : ∀ e ∈ entries, conversionCodeFromDictRecord e.2 = none) : convMap entries = ∅ := by
  unfold convMap
  induction entries with
  | nil => rfl
  | cons entry entries ih =>
    rw [List.forall_mem_cons] at h
    rw [List.foldl_cons]
    simp only [h.1]
    cases attributeOf entry.2 <;> exact ih h.2

theorem serializeRecordIn_eq (applyConversion : String → String → String)
    {entries : List (String × Record)}
    (h : ∀ e ∈ entries, conversionCodeFromDictRecord e.2 = none) (r : Record) :
    serializeRecordIn applyConversion entries r =
      .object ((named outNames Prod.snd (described entries)).toList.map fun e =>
        (e.1, serializeField applyConversion r.fields[e.2]? none)) := by
  have hschema : (recordSchema entries).map (fun field =>
      (field.camelKey,
        serializeField applyConversion r.fields[field.fieldIdx]? field.conversion)) =
      ((described entries).flatMap fun e => (outNames e).map fun k => (k, e.2)).map fun e =>
        (e.1, serializeField applyConversion r.fields[e.2]? none) := by
    induction entries with
    | nil => rfl
    | cons entry entries ih =>
      rw [List.forall_mem_cons] at h
      have hrest := ih h.2
      cases hattr : attributeOf entry.2 with
      | none => simpa [recordSchema, described, hattr] using hrest
      | some idx => simpa [recordSchema, described, hattr, outNames, h.1] using hrest
  rw [serializeRecordIn, serializeRecordWithSchema, hschema,
    insertAll_map fun attr => serializeField applyConversion r.fields[attr]? none,
    Std.ExtTreeMap.toList_map]
  rfl

/-! ## The record that is read -/

theorem Record.getElem?_setValues_self (r : Record) (idx : Nat) (values : List Value) :
    (r.setValues idx values).fields[idx]? = some { values := values } := by
  rw [Record.setValues]
  simp only
  rw [List.getElem?_set_self]
  simp only [List.length_append, List.length_replicate]
  omega

/-- Another attribute is left alone, or was absent and is now empty. -/
theorem Record.getElem?_setValues_ne (r : Record) {idx attr : Nat} (values : List Value)
    (h : idx ≠ attr) :
    (r.setValues idx values).fields[attr]? = r.fields[attr]? ∨
      r.fields[attr]? = none ∧ (r.setValues idx values).fields[attr]? = some {} := by
  rw [Record.setValues]
  simp only
  rw [List.getElem?_set_ne h]
  rcases Nat.lt_or_ge attr r.fields.length with hlt | hge
  · exact .inl (List.getElem?_append_left hlt)
  · have hnone := List.getElem?_eq_none hge
    rw [List.getElem?_append_right hge, List.getElem?_replicate]
    split
    · exact .inr ⟨hnone, rfl⟩
    · exact .inl hnone.symm

/-- Values put into a record one attribute after another. -/
def fill (updates : List (Nat × List Value)) : Record :=
  updates.foldl (fun r u => r.setValues u.1 u.2) {}

/-- The last values of an attribute stay; one that is given none is absent or empty. -/
theorem fill_fields (updates : List (Nat × List Value)) (attr : Nat) :
    (∀ values, (insertAll ∅ updates)[attr]? = some values →
      (fill updates).fields[attr]? = some { values := values }) ∧
    ((insertAll ∅ updates)[attr]? = none →
      (fill updates).fields[attr]? = none ∨ (fill updates).fields[attr]? = some {}) := by
  induction updates using List.reverseRecOn with
  | nil => exact ⟨fun values h => by simp at h, fun _ => .inl rfl⟩
  | append_singleton updates u ih =>
    have hinsert : insertAll ∅ (updates ++ [u]) = (insertAll ∅ updates).insert u.1 u.2 := by
      rw [insertAll, List.foldl_append]
      rfl
    have hfill : fill (updates ++ [u]) = (fill updates).setValues u.1 u.2 := by
      rw [fill, List.foldl_append]
      rfl
    rw [hinsert, getElem?_insert_eq, hfill]
    by_cases heq : u.1 = attr
    · subst heq
      rw [if_pos rfl, Record.getElem?_setValues_self]
      exact ⟨fun values h => by rw [Option.some.inj h], fun h => by cases h⟩
    · rw [if_neg heq]
      rcases (fill updates).getElem?_setValues_ne u.2 heq with hsame | ⟨hnone, hempty⟩
      · rwa [hsame]
      · refine ⟨fun values h => ?_, fun _ => .inr hempty⟩
        have hsome := ih.1 values h
        rw [hnone] at hsome
        cases hsome

theorem attributeValues_fill {updates : List (Nat × List Value)} {attr : Nat}
    {values : List Value} (h : (insertAll ∅ updates)[attr]? = some values) :
    attributeValues (fill updates) attr = values := by
  rw [attributeValues, (fill_fields updates attr).1 values h]

theorem attributeValues_fill_none {updates : List (Nat × List Value)} {attr : Nat}
    (h : (insertAll ∅ updates)[attr]? = none) :
    attributeValues (fill updates) attr = [Value.text ""] ∨
      attributeValues (fill updates) attr = [] := by
  unfold attributeValues
  rcases (fill_fields updates attr).2 h with hnone | hempty
  · rw [hnone]
    exact .inl rfl
  · rw [hempty]
    exact .inr rfl

/-! ## What becomes of an attribute -/

/-- The attribute each attribute that is read has its values from: the members of the object, each
under the attribute its name is looked up as, with the one it was written from. -/
def moves (entries : List (String × Record)) : List (Nat × Nat) :=
  (named outNames Prod.snd (described entries)).toList.filterMap fun e =>
    (named inNames Prod.snd (described entries))[e.1]?.map fun idx => (idx, e.2)

/-- Every name that is written is looked up again. -/
theorem inNames_of_outNames {l : List (String × Nat)} {name : String}
    (h : name ∈ named outNames Prod.snd l) : name ∈ named inNames Prod.snd l := by
  obtain ⟨e, he, hname⟩ := mem_named.mp h
  exact mem_named.mpr ⟨e, he, List.mem_cons.mpr (.inl (List.mem_singleton.mp hname))⟩

/-- Written members put their attributes' values back. -/
theorem decodeMembers_written (applyConversion : String → String → String) (scaling : Scaling)
    (print : Json → String) {r : Record} (hr : r.Full) (attrs : Map String Nat)
    (members : List (String × Nat)) (record : Record) :
    decodeMembers scaling print ∅
        (members.filterMap fun e => attrs[e.1]?.map fun idx =>
          (e.1, serializeField applyConversion r.fields[e.2]? none, idx)) record =
      .ok ((members.filterMap fun e => attrs[e.1]?.map fun idx =>
        (idx, attributeValues r e.2)).foldl (fun r u => r.setValues u.1 u.2) record) := by
  induction members generalizing record with
  | nil => rfl
  | cons e members ih =>
    cases hidx : attrs[e.1]? with
    | none => simpa [hidx] using ih record
    | some idx =>
      have hfield := deserializeField_serializeField applyConversion scaling print hr e.2
      simpa [hidx, decodeMembers, hfield] using ih (record.setValues idx (attributeValues r e.2))

/-- A record written out and read back: for every member, the values of the attribute it was written
from. -/
theorem deserializeRecordIn_serializeRecordIn (applyConversion : String → String → String)
    (scaling : Scaling) (print : Json → String) {entries : List (String × Record)}
    (h : ∀ e ∈ entries, conversionCodeFromDictRecord e.2 = none) {r : Record} (hr : r.Full) :
    deserializeRecordIn scaling print entries (serializeRecordIn applyConversion entries r) =
      .ok (fill ((moves entries).map fun move => (move.1, attributeValues r move.2))) := by
  rw [serializeRecordIn_eq applyConversion h, deserializeRecordIn, attrMap_eq, convMap_eq_empty h]
  have hknown : ∀ e ∈ (named outNames Prod.snd (described entries)).toList,
      ((named inNames Prod.snd (described entries))[e.1]?).isSome = true := by
    intro e he
    have hmem := mem_of_getElem? (Std.ExtTreeMap.mem_toList_iff_getElem?_eq_some.mp he)
    obtain ⟨idx, hidx⟩ := mem_iff_exists.mp (inNames_of_outNames hmem)
    rw [hidx]
    rfl
  have hunknown : (((named outNames Prod.snd (described entries)).toList.map fun e =>
      (e.1, serializeField applyConversion r.fields[e.2]? none)).filter fun member =>
        ((named inNames Prod.snd (described entries))[member.1]?).isNone) = [] := by
    rw [List.filter_eq_nil_iff]
    intro member hmember
    obtain ⟨e, he, rfl⟩ := List.mem_map.mp hmember
    simp [Option.isSome_iff_ne_none.mp (hknown e he)]
  simp only [hunknown, List.map_nil, ne_eq, not_true_eq_false, if_false]
  rw [List.filterMap_map]
  refine (decodeMembers_written applyConversion scaling print hr _ _ {}).trans ?_
  rw [fill, moves, List.map_filterMap]
  simp only [Option.map_map, Function.comp_def]

/-- A record that tells one attribute from the others. -/
def marked (attr : Nat) : Record :=
  { fields := List.replicate attr ⟨[Value.text ""]⟩ ++ [⟨[Value.text "a"]⟩] }

theorem full_marked (attr : Nat) : (marked attr).Full := by
  intro field hfield
  rcases List.mem_append.mp hfield with hfield | hfield
  · rw [(List.mem_replicate.mp hfield).2]
    simp [Value.text]
  · rw [List.mem_singleton.mp hfield]
    simp [Value.text]

theorem attributeValues_marked (attr b : Nat) :
    attributeValues (marked attr) b = if b = attr then [Value.text "a"] else [Value.text ""] := by
  unfold attributeValues marked
  rcases Nat.lt_trichotomy b attr with hlt | rfl | hgt
  · rw [List.getElem?_append_left (by simpa using hlt), List.getElem?_replicate, if_pos hlt,
      if_neg (Nat.ne_of_lt hlt)]
  · rw [List.getElem?_append_right (by simp), if_pos rfl]
    simp
  · rw [List.getElem?_eq_none (by simp; omega), if_neg (by omega)]

/-- Whatever the record, an attribute comes back exactly where it is read from itself. -/
theorem comesBack_iff (applyConversion : String → String → String) (scaling : Scaling)
    (print : Json → String) {entries : List (String × Record)}
    (h : ∀ e ∈ entries, conversionCodeFromDictRecord e.2 = none) (attr : Nat) :
    (∀ r : Record, r.Full → ∃ r', deserializeRecordIn scaling print entries
        (serializeRecordIn applyConversion entries r) = .ok r' ∧
      attributeValues r' attr = attributeValues r attr) ↔
    (insertAll ∅ (moves entries))[attr]? = some attr := by
  have hsource : ∀ r : Record,
      (insertAll ∅ ((moves entries).map fun move => (move.1, attributeValues r move.2)))[attr]? =
        (insertAll ∅ (moves entries))[attr]?.map (attributeValues r) := fun r => by
    rw [insertAll_map (attributeValues r), Std.ExtTreeMap.getElem?_map]
  constructor
  · intro hall
    obtain ⟨r', hr', hback⟩ := hall (marked attr) (full_marked attr)
    rw [deserializeRecordIn_serializeRecordIn applyConversion scaling print h
      (full_marked attr)] at hr'
    cases hr'
    rw [attributeValues_marked attr attr, if_pos rfl] at hback
    have hsource := hsource (marked attr)
    cases hfrom : (insertAll ∅ (moves entries))[attr]? with
    | none =>
      rw [hfrom] at hsource
      rcases attributeValues_fill_none hsource with hempty | hempty <;>
        exact absurd (hback.symm.trans hempty) (by decide)
    | some b =>
      rw [hfrom] at hsource
      rw [attributeValues_fill hsource, attributeValues_marked] at hback
      split at hback
      · rename_i heq
        rw [heq]
      · exact absurd hback (by decide)
  · intro hfrom r hr
    refine ⟨_, deserializeRecordIn_serializeRecordIn applyConversion scaling print h hr, ?_⟩
    apply attributeValues_fill
    rw [hsource, hfrom]
    rfl

/-! ## Orders of the dictionary -/

section

variable {t : Table} {entries : List (String × Record)}

theorem mem_described (hperm : entries.Perm t.dictionary.toList) {name : String} {attr : Nat} :
    (name, attr) ∈ described entries ↔ Describes t name attr := by
  rw [described, List.mem_filterMap, Describes, Option.bind_eq_some_iff]
  constructor
  · rintro ⟨e, he, hattr⟩
    obtain ⟨idx, hidx, heq⟩ := Option.map_eq_some_iff.mp hattr
    cases heq
    exact ⟨e.2, Std.ExtTreeMap.mem_toList_iff_getElem?_eq_some.mp (hperm.mem_iff.mp he), hidx⟩
  · rintro ⟨entry, hentry, hidx⟩
    exact ⟨(name, entry),
      hperm.mem_iff.mpr (Std.ExtTreeMap.mem_toList_iff_getElem?_eq_some.mpr hentry), by simp [hidx]⟩

theorem NoConversions.code_none (h : NoConversions t) (hperm : entries.Perm t.dictionary.toList) :
    ∀ e ∈ entries, conversionCodeFromDictRecord e.2 = none := fun e he =>
  h e.1 e.2 (Std.ExtTreeMap.mem_toList_iff_getElem?_eq_some.mp (hperm.mem_iff.mp he))

/-- The dictionary can list the attributes' entries by any rank. -/
theorem exists_order (t : Table) (rank : String × Nat → Nat) :
    ∃ entries, entries.Perm t.dictionary.toList ∧
      (described entries).Pairwise fun e e' => rank e ≤ rank e' := by
  let rankOf (e : String × Record) : Nat :=
    ((attributeOf e.2).map fun idx => rank (e.1, idx)).getD 0
  let le (e e' : String × Record) : Bool := rankOf e ≤ rankOf e'
  refine ⟨t.dictionary.toList.mergeSort le, List.mergeSort_perm _ _, ?_⟩
  have hsorted : (t.dictionary.toList.mergeSort le).Pairwise fun e e' => rankOf e ≤ rankOf e' :=
    (@List.pairwise_mergeSort _ le
      (fun a b c hab hbc => decide_eq_true
        (Nat.le_trans (of_decide_eq_true hab) (of_decide_eq_true hbc)))
      (fun a b => by simpa [le] using Nat.le_total (rankOf a) (rankOf b)) _).imp
      fun hle => of_decide_eq_true hle
  refine hsorted.filterMap _ ?_
  rintro e e' hle p hp p' hp'
  obtain ⟨idx, hidx, rfl⟩ := Option.map_eq_some_iff.mp hp
  obtain ⟨idx', hidx', rfl⟩ := Option.map_eq_some_iff.mp hp'
  simpa [rankOf, hidx, hidx'] using hle

theorem moves_eq (entries : List (String × Record)) :
    insertAll ∅ (moves entries) =
      named (fun e => ((named inNames Prod.snd (described entries))[e.1]?).toList) Prod.snd
        (named outNames Prod.snd (described entries)).toList := by
  rw [moves, List.filterMap_eq_flatMap_toList]
  simp only [Option.toList_map]
  rfl

/-- What an attribute is read from: the member under the last name that is looked up as it. -/
theorem moves_top {attr source : Nat} (h : (insertAll ∅ (moves entries))[attr]? = some source) :
    ∃ name, (named outNames Prod.snd (described entries))[name]? = some source ∧
      (named inNames Prod.snd (described entries))[name]? = some attr ∧
      ∀ name', name' ∈ named outNames Prod.snd (described entries) →
        (named inNames Prod.snd (described entries))[name']? = some attr →
        name' = name ∨ name' < name := by
  rw [moves_eq] at h
  have hsorted : (named outNames Prod.snd (described entries)).toList.Pairwise
      fun e e' => e.1 < e'.1 :=
    Std.ExtTreeMap.ordered_keys_toList.imp fun hlt => compare_lt_iff_lt.mp hlt
  obtain ⟨e, he, hattr, rfl, htop⟩ := named_top hsorted h
  refine ⟨e.1, Std.ExtTreeMap.mem_toList_iff_getElem?_eq_some.mp he, Option.mem_toList.mp hattr,
    fun name' hname hattr' => ?_⟩
  obtain ⟨source, hsource⟩ := mem_iff_exists.mp hname
  rcases htop (name', source) (Std.ExtTreeMap.mem_toList_iff_getElem?_eq_some.mpr hsource)
    (Option.mem_toList.mpr hattr') with heq | hlt
  · exact .inl (congrArg Prod.fst heq)
  · exact .inr hlt

/-- A member that is looked up as an attribute gives the attribute values. -/
theorem moves_isSome {name : String} {attr : Nat}
    (hout : name ∈ named outNames Prod.snd (described entries))
    (hin : (named inNames Prod.snd (described entries))[name]? = some attr) :
    ((insertAll ∅ (moves entries))[attr]?).isSome = true := by
  obtain ⟨source, hsource⟩ := mem_iff_exists.mp hout
  rw [moves_eq, ← Std.ExtTreeMap.mem_iff_isSome_getElem?, mem_named]
  exact ⟨(name, source), Std.ExtTreeMap.mem_toList_iff_getElem?_eq_some.mpr hsource,
    Option.mem_toList.mpr hin⟩

/-- A camel case name an attribute has to itself is written from it and looked up as it. -/
theorem Owns.lookups (hperm : entries.Perm t.dictionary.toList) {name : String} {attr : Nat}
    (h : Owns t name attr) :
    (named outNames Prod.snd (described entries))[name]? = some attr ∧
      (named inNames Prod.snd (described entries))[name]? = some attr := by
  obtain ⟨⟨key, hkey, hname⟩, honly⟩ := h
  have hout : name ∈ named outNames Prod.snd (described entries) :=
    mem_named.mpr ⟨(key, attr), (mem_described hperm).mpr hkey, by simp [outNames, hname]⟩
  obtain ⟨source, hsource⟩ := mem_iff_exists.mp hout
  obtain ⟨idx, hidx⟩ := mem_iff_exists.mp (inNames_of_outNames hout)
  obtain ⟨e, he, hename, rfl, -⟩ := named_top (List.pairwise_of_forall fun _ _ => trivial) hsource
  obtain ⟨e', he', hename', rfl, -⟩ := named_top (List.pairwise_of_forall fun _ _ => trivial) hidx
  rw [hsource, hidx, honly e.1 e.2 ((mem_described hperm).mp he)
      (.inl (List.mem_singleton.mp hename).symm),
    honly e'.1 e'.2 ((mem_described hperm).mp he') (by simpa [inNames, eq_comm] using hename')]
  exact ⟨rfl, rfl⟩

/-- A name that is written from one attribute and looked up as another is lent by the other. -/
theorem lends_of_lookups (hperm : entries.Perm t.dictionary.toList) {name : String}
    {attr source : Nat} (hne : source ≠ attr)
    (hout : (named outNames Prod.snd (described entries))[name]? = some source)
    (hin : (named inNames Prod.snd (described entries))[name]? = some attr) :
    Lends t name attr := by
  obtain ⟨before, e, after, heq, hname, hlast⟩ := exists_last (mem_named.mp (mem_of_getElem? hin))
  have he : Describes t e.1 e.2 := (mem_described hperm).mp (by rw [heq]; simp)
  rw [heq, getElem?_named_last hname hlast] at hin
  cases hin
  have hcamel : toCamelCase e.1 ≠ name := by
    intro hcamel
    have hafter : ∀ e' ∈ after, name ∉ outNames e' := fun e' he' hmem =>
      hlast e' he' (List.mem_cons.mpr (.inl (List.mem_singleton.mp hmem)))
    rw [heq, getElem?_named_last (by simp [outNames, hcamel]) hafter] at hout
    exact hne (Option.some.inj hout).symm
  have hkey : e.1 = name := by
    rcases List.mem_cons.mp hname with hname | hname
    · exact absurd hname.symm hcamel
    · exact (List.mem_singleton.mp hname).symm
  obtain ⟨e', he', hename', rfl, -⟩ := named_top (List.pairwise_of_forall fun _ _ => trivial) hout
  exact ⟨hkey ▸ he, hkey ▸ hcamel,
    e'.1, e'.2, (mem_described hperm).mp he', (List.mem_singleton.mp hename').symm, hne⟩

/-- Where the names tell the attributes apart, every attribute is read from itself. -/
theorem moves_of_namesApart (h : NamesApart t) (hperm : entries.Perm t.dictionary.toList)
    {key : String} {attr : Nat} (hkey : Describes t key attr) :
    (insertAll ∅ (moves entries))[attr]? = some attr := by
  obtain ⟨⟨name, howns⟩, hlent⟩ := h key attr hkey
  obtain ⟨hout, hin⟩ := howns.lookups hperm
  obtain ⟨source, hsource⟩ :=
    Option.isSome_iff_exists.mp (moves_isSome (mem_of_getElem? hout) hin)
  obtain ⟨top, htopOut, htopIn, htop⟩ := moves_top hsource
  rw [hsource]
  by_contra hne
  -- the last name was written from another attribute, so a later one is the attribute's own
  obtain ⟨name', howns', hlt⟩ :=
    hlent top (lends_of_lookups hperm (fun heq => hne (congrArg some heq)) htopOut htopIn)
  obtain ⟨hout', hin'⟩ := howns'.lookups hperm
  rcases htop name' (mem_of_getElem? hout') hin' with rfl | hgt
  · exact lt_irrefl _ hlt
  · exact lt_asymm hlt hgt

/-- An attribute that is read from itself in every order has a name of its own. -/
theorem owns_of_moves {attr : Nat} (h : ∀ entries, entries.Perm t.dictionary.toList →
    (insertAll ∅ (moves entries))[attr]? = some attr) : ∃ name, Owns t name attr := by
  -- the attribute's entries first: a name it shares is then another's
  obtain ⟨entries, hperm, hrank⟩ := exists_order t fun e => if e.2 = attr then 0 else 1
  obtain ⟨name, hout, hin, -⟩ := moves_top (h entries hperm)
  obtain ⟨e, he, hname, hattr, -⟩ := named_top hrank hout
  refine ⟨name, ⟨e.1, hattr ▸ (mem_described hperm).mp he, (List.mem_singleton.mp hname).symm⟩,
    fun key other hkey hspelled => ?_⟩
  obtain ⟨e', he', -, hattr', htop⟩ := named_top hrank hin
  by_contra hne
  rcases htop (key, other) ((mem_described hperm).mpr hkey)
    (by simpa [inNames, eq_comm] using hspelled) with rfl | hle
  · exact hne hattr'
  · rw [if_neg hne, if_pos hattr'] at hle
    exact absurd hle (by decide)

theorem toLower_ne_dot {c : Char} (h : c ≠ '.') : c.toLower ≠ '.' := by
  rcases toLower_cases c with hsame | hletter
  · rwa [hsame]
  · rintro heq
    rw [heq] at hletter
    exact absurd hletter (by decide)

theorem toUpper_ne_dot {c : Char} (h : c ≠ '.') : c.toUpper ≠ '.' := by
  rcases toUpper_cases c with hsame | hletter
  · rwa [hsame]
  · rintro heq
    rw [heq] at hletter
    exact absurd hletter (by decide)

theorem camelFrom_no_dot (capitalizeNext : Bool) (cs : List Char) :
    '.' ∉ camelFrom capitalizeNext cs := by
  induction cs generalizing capitalizeNext with
  | nil => simp [camelFrom]
  | cons c cs ih =>
    unfold camelFrom
    split
    · exact ih true
    · rename_i hc
      split
      · simpa using ⟨(toUpper_ne_dot hc).symm, ih false⟩
      · simpa using ⟨(toLower_ne_dot hc).symm, ih false⟩

theorem camelFrom_of_no_dot {cs : List Char} (h : '.' ∉ cs) :
    camelFrom false cs = cs.map Char.toLower := by
  induction cs with
  | nil => rfl
  | cons c cs ih =>
    rw [List.mem_cons, not_or] at h
    rw [camelFrom, if_neg (Ne.symm h.1), if_neg (by decide), ih h.2]
    rfl

/-- A camel case name is only put in lower case, and that once. -/
theorem toCamelCase_twice (s : String) :
    toCamelCase (toCamelCase (toCamelCase s)) = toCamelCase (toCamelCase s) := by
  have hdot := camelFrom_no_dot false s.toList
  have htwice : toCamelCase (toCamelCase s) =
      String.ofList ((camelFrom false s.toList).map Char.toLower) := by
    rw [toCamelCase, toCamelCase, String.toList_ofList, camelFrom_of_no_dot hdot]
  have hdot' : '.' ∉ (camelFrom false s.toList).map Char.toLower := by
    rw [← camelFrom_of_no_dot hdot]
    exact camelFrom_no_dot false _
  rw [htwice, toCamelCase, String.toList_ofList, camelFrom_of_no_dot hdot', List.map_map]
  congr 1
  apply List.map_congr_left
  intro c _
  rcases toLower_cases c with hsame | hletter
  · exact congrArg Char.toLower hsame
  · exact toLower_of_small hletter

/-- A name the attribute lends is then not the last that is looked up as it. -/
theorem owns_of_lends {attr : Nat} {lent : String} (hlends : Lends t lent attr)
    (h : ∀ entries, entries.Perm t.dictionary.toList →
      (insertAll ∅ (moves entries))[attr]? = some attr) :
    ∃ name, Owns t name attr ∧ lent < name := by
  obtain ⟨hlent, hcamel, key, other, hkey, hkeyname, hother⟩ := hlends
  -- the attribute's entries, the others of the lent name, the lent one, and then the rest
  let rank (e : String × Nat) : Nat :=
    if e.2 = attr then if e.1 = lent then 2 else 0 else if toCamelCase e.1 = lent then 1 else 3
  obtain ⟨entries, hperm, hrank⟩ := exists_order t rank
  obtain ⟨name, hout, hin, htop⟩ := moves_top (h entries hperm)
  have hlentMem := (mem_described hperm).mpr hlent
  have hlentOut : lent ∈ named outNames Prod.snd (described entries) :=
    mem_named.mpr ⟨(key, other), (mem_described hperm).mpr hkey, by simp [outNames, hkeyname]⟩
  have hlentIn : (named inNames Prod.snd (described entries))[lent]? = some attr := by
    obtain ⟨idx, hidx⟩ := mem_iff_exists.mp (inNames_of_outNames hlentOut)
    obtain ⟨e, he, hname, rfl, htop⟩ := named_top hrank hidx
    rw [hidx]
    rcases htop (lent, attr) hlentMem (by simp [inNames]) with rfl | hle
    · rfl
    · by_contra hne
      have hother : e.2 ≠ attr := fun heq => hne (congrArg some heq)
      have hcamel : toCamelCase e.1 ≠ lent := by
        intro heq
        simp [rank, hother, heq] at hle
      have hkey : e.1 = lent := by
        rcases List.mem_cons.mp hname with hname | hname
        · exact absurd hname.symm hcamel
        · exact (List.mem_singleton.mp hname).symm
      have hdescribes : Describes t lent e.2 := hkey ▸ (mem_described hperm).mp he
      exact hother (Option.some.inj (hdescribes.symm.trans hlent))
  have hlentSource : (named outNames Prod.snd (described entries))[lent]? ≠ some attr := by
    intro hsource
    obtain ⟨e, he, hname, hattr, htop⟩ := named_top hrank hsource
    have hename := List.mem_singleton.mp hname
    rcases htop (key, other) ((mem_described hperm).mpr hkey) (by simp [outNames, hkeyname]) with
      rfl | hle
    · exact hother hattr
    · have hkeep : e.1 ≠ lent := fun heq => hcamel (by rw [← heq]; exact heq ▸ hename.symm)
      simp [rank, hother, hkeyname, hattr, hkeep] at hle
  have hlt : lent < name := by
    rcases htop lent hlentOut hlentIn with rfl | hlt
    · exact absurd hout hlentSource
    · exact hlt
  obtain ⟨e, he, hename, hattr, -⟩ := named_top hrank hout
  have hename := List.mem_singleton.mp hename
  refine ⟨name, ⟨⟨e.1, hattr ▸ (mem_described hperm).mp he, hename.symm⟩,
    fun key' other' hkey' hspelled => ?_⟩, hlt⟩
  by_contra hne
  obtain ⟨e', he', -, hattr', htop'⟩ := named_top hrank hin
  have hcamel' : toCamelCase key' ≠ lent := by
    intro heq
    rcases hspelled with hname | rfl
    · exact absurd (heq.symm.trans hname) (ne_of_lt hlt)
    · apply hcamel
      rw [← heq, hename]
      exact toCamelCase_twice e.1
  rcases htop' (key', other') ((mem_described hperm).mpr hkey')
    (by simpa [inNames, eq_comm] using hspelled) with rfl | hle
  · exact hne hattr'
  · simp only [rank, if_neg hne, if_neg hcamel', hattr', if_true] at hle
    split at hle <;> exact absurd hle (by decide)

theorem namesApart_of_roundTrips {applyConversion : String → String → String} {scaling : Scaling}
    {print : Json → String} (hcodes : NoConversions t)
    (h : RoundTrips applyConversion scaling print t) : NamesApart t := by
  intro key attr hkey
  have hmoves : ∀ entries, entries.Perm t.dictionary.toList →
      (insertAll ∅ (moves entries))[attr]? = some attr := by
    intro entries hperm
    refine (comesBack_iff applyConversion scaling print (hcodes.code_none hperm) attr).mp
      fun r hr => ?_
    obtain ⟨r', hr', hback⟩ := h entries hperm r hr
    exact ⟨r', hr', hback key attr hkey⟩
  exact ⟨owns_of_moves hmoves, fun name hlends => owns_of_lends hlends hmoves⟩

theorem roundTrips_of_namesApart {applyConversion : String → String → String} {scaling : Scaling}
    {print : Json → String} (hcodes : NoConversions t) (h : NamesApart t) :
    RoundTrips applyConversion scaling print t := by
  intro entries hperm r hr
  refine ⟨_, deserializeRecordIn_serializeRecordIn applyConversion scaling print
    (hcodes.code_none hperm) hr, fun key attr hkey => ?_⟩
  apply attributeValues_fill
  rw [insertAll_map (attributeValues r), Std.ExtTreeMap.getElem?_map,
    moves_of_namesApart h hperm hkey]
  rfl

end

/-- A record round trips, in whatever order the dictionary is listed, exactly where the dictionary's
names tell its attributes apart. -/
theorem roundTrips_iff (applyConversion : String → String → String) (scaling : Scaling)
    (print : Json → String) (t : Table) (hcodes : NoConversions t) :
    RoundTrips applyConversion scaling print t ↔ NamesApart t :=
  ⟨namesApart_of_roundTrips hcodes, roundTrips_of_namesApart hcodes⟩

/-- Three attributes under four names, one of them the camel case name of another's. -/
def severalNames : Table where
  dictionary := insertAll ∅ [("NAME", Record.text "1"), ("fooBar", Record.text "2"),
    ("FOO.BAR", Record.text "3"), ("BAR", Record.text "3")]

/-- A dictionary of two names that are one in camel case. -/
def sharedName : Table :=
  { dictionary :=
      ((∅ : Map String Record).insert "FOO" (Record.text "1")).insert "foo" (Record.text "2") }

theorem attributeOf_text :
    attributeOf (Record.text "1") = some 0 ∧ attributeOf (Record.text "2") = some 1 := by
  decide +kernel

/-- What the names describe. -/
def severalAttributes : List (String × Nat) :=
  [("BAR", 2), ("FOO.BAR", 2), ("NAME", 0), ("fooBar", 1)]

theorem describes_severalNames {name : String} {attr : Nat} :
    Describes severalNames name attr ↔ (name, attr) ∈ severalAttributes := by
  have hlist : described severalNames.dictionary.toList = severalAttributes := by decide +kernel
  rw [← mem_described (.refl _), hlist]

theorem describes_sharedName {name : String} {attr : Nat} :
    Describes sharedName name attr ↔ name = "FOO" ∧ attr = 0 ∨ name = "foo" ∧ attr = 1 := by
  rw [Describes, sharedName]
  simp only [getElem?_insert_eq]
  split
  · rename_i heq
    simp [← heq, attributeOf_text.2, eq_comm]
  · split
    · rename_i hne heq
      simp [← heq, attributeOf_text.1, eq_comm]
    · rename_i hfoo hFOO
      simp [Ne.symm hfoo, Ne.symm hFOO]

theorem code_none_of_text (position : String) :
    conversionCodeFromDictRecord (Record.text position) = none := rfl

theorem noConversions_severalNames : NoConversions severalNames := by
  intro name entry h
  have hcodes : ∀ e ∈ [("NAME", Record.text "1"), ("fooBar", Record.text "2"),
      ("FOO.BAR", Record.text "3"), ("BAR", Record.text "3")],
      conversionCodeFromDictRecord e.2 = none := by
    simp [code_none_of_text]
  rcases of_getElem?_insertAll h with hmem | hnone
  · exact hcodes _ hmem
  · simp at hnone

theorem noConversions_sharedName : NoConversions sharedName := by
  intro name entry h
  simp only [sharedName, getElem?_insert_eq] at h
  split at h
  · rw [← Option.some.inj h, code_none_of_text]
  · split at h
    · rw [← Option.some.inj h, code_none_of_text]
    · simp at h

/-- No conversion, for a dictionary without codes. -/
def unscaled : Scaling := { scale := fun _ _ => none, plain := by simp }

theorem owns_severalNames {name : String} {attr : Nat}
    (hin : ∃ e ∈ severalAttributes, e.2 = attr ∧ toCamelCase e.1 = name)
    (hall : ∀ e ∈ severalAttributes, toCamelCase e.1 = name ∨ e.1 = name → e.2 = attr) :
    Owns severalNames name attr := by
  obtain ⟨⟨key, other⟩, hmem, rfl, hcamel⟩ := hin
  exact ⟨⟨key, describes_severalNames.mpr hmem, hcamel⟩,
    fun key other h => hall (key, other) (describes_severalNames.mp h)⟩

/-- `FOO.BAR` is written as `fooBar`, which is the other attribute's name. -/
theorem lends_severalNames {name : String} {attr : Nat} (h : Lends severalNames name attr) :
    name = "fooBar" ∧ attr = 1 := by
  obtain ⟨hname, hcamel, key, other, hkey, heq, hne⟩ := h
  have hall : ∀ e ∈ severalAttributes, ∀ e' ∈ severalAttributes, toCamelCase e.1 ≠ e.1 →
      toCamelCase e'.1 = e.1 → e'.2 ≠ e.2 → e.1 = "fooBar" ∧ e.2 = 1 := by
    decide +kernel
  exact hall (name, attr) (describes_severalNames.mp hname) (key, other)
    (describes_severalNames.mp hkey) hcamel heq hne

theorem severalNames_roundTrips :
    RoundTrips (fun value _ => value) unscaled (fun _ => "") severalNames := by
  refine (roundTrips_iff _ _ _ severalNames noConversions_severalNames).mpr
    fun key attr hkey => ⟨?_, fun name hlends => ?_⟩
  · have howned : ∀ e ∈ severalAttributes, ∃ name ∈ ["name", "foobar", "bar"],
        (∃ e' ∈ severalAttributes, e'.2 = e.2 ∧ toCamelCase e'.1 = name) ∧
          ∀ e' ∈ severalAttributes, toCamelCase e'.1 = name ∨ e'.1 = name → e'.2 = e.2 := by
      decide +kernel
    obtain ⟨name, -, hin, hall⟩ := howned _ (describes_severalNames.mp hkey)
    exact ⟨name, owns_severalNames hin hall⟩
  · obtain ⟨rfl, rfl⟩ := lends_severalNames hlends
    exact ⟨"foobar", owns_severalNames (by decide +kernel) (by decide +kernel), by decide +kernel⟩

/-- Two names that are one in camel case: what either attribute holds does not come back. -/
theorem sharedName_not_roundTrips :
    NoConversions sharedName ∧
      ¬ RoundTrips (fun value _ => value) unscaled (fun _ => "") sharedName := by
  refine ⟨noConversions_sharedName, fun h => ?_⟩
  have hFOO : Describes sharedName "FOO" 0 := describes_sharedName.mpr (.inl ⟨rfl, rfl⟩)
  have hfoo : Describes sharedName "foo" 1 := describes_sharedName.mpr (.inr ⟨rfl, rfl⟩)
  obtain ⟨⟨name, ⟨key, hkey, hname⟩, honly⟩, -⟩ :=
    namesApart_of_roundTrips noConversions_sharedName h "FOO" 0 hFOO
  obtain ⟨rfl, -⟩ | ⟨-, h01⟩ := describes_sharedName.mp hkey
  · have hcamel : toCamelCase "foo" = name := by
      rw [← hname]
      decide +kernel
    exact absurd (honly "foo" 1 hfoo (.inl hcamel)) (by decide)
  · exact absurd h01 (by decide)

end RustyPick
