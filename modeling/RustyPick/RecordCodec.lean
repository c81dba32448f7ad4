import RustyPick.Query

/-!
# RustyPick.RecordCodec

The codec of a record in the other direction (`db/models.rs`): what a record built in memory reads
back as once it is stored.

* `Record.stored_eq`: a record without marks and without empty lists comes back as it was, the
  record of one empty sub-value apart.
* `textsOf_stored`: whatever its lists, a record without marks is compared by the same texts before
  and after. An empty list and a list of one empty element are different records and the same texts.
* `record_codec`: so no query and no index can tell them apart.
-/

namespace RustyPick

/-- Free of the three marks, so that it can be told from its neighbours. -/
def IsPlain (b : Bytes) : Prop := FM ∉ b ∧ VM ∉ b ∧ SVM ∉ b

def Value.Plain (v : Value) : Prop := ∀ sub ∈ v.subValues, IsPlain sub

def Field.Plain (f : Field) : Prop := ∀ v ∈ f.values, v.Plain

def Record.Plain (r : Record) : Prop := ∀ f ∈ r.fields, f.Plain

theorem isPlain_utf8 (s : String) : IsPlain (utf8 s) := by
  refine ⟨fun h => ?_, fun h => ?_, fun h => ?_⟩ <;>
    exact absurd (utf8_lt h) (by decide)

theorem Value.plain_text (s : String) : (Value.text s).Plain := by
  intro sub hsub
  rw [List.mem_singleton.mp hsub]
  exact isPlain_utf8 s

/-- No empty list in any tier. -/
def Field.Filled (f : Field) : Prop := f.values ≠ [] ∧ ∀ v ∈ f.values, v.subValues ≠ []

def Record.Filled (r : Record) : Prop := r.fields ≠ [] ∧ ∀ f ∈ r.fields, f.Filled

/-- One attribute of one value of one empty sub-value, which is stored as no bytes. -/
def Value.blank : Value := { subValues := [[]] }

def Field.blank : Field := { values := [Value.blank] }

def Record.blank : Record := { fields := [Field.blank] }

theorem not_mem_intercalate {a sep : UInt8} {pieces : List Bytes} (hsep : a ≠ sep)
    (h : ∀ p ∈ pieces, a ∉ p) : a ∉ [sep].intercalate pieces := by
  induction pieces with
  | nil => simp
  | cons p pieces ih =>
    have hp := h p List.mem_cons_self
    have hrest := ih fun q hq => h q (List.mem_cons_of_mem _ hq)
    cases pieces with
    | nil => simpa using hp
    | cons q pieces =>
      rw [List.intercalate_cons_cons]
      simp only [List.mem_append, List.mem_singleton, not_or]
      exact ⟨⟨hp, hsep⟩, hrest⟩

/-! ## Tier by tier -/

/-- A list of no pieces is stored as a list of one empty piece is. -/
theorem splitOn_intercalate_plain {sep : UInt8} {pieces : List Bytes}
    (h : ∀ p ∈ pieces, sep ∉ p) :
    ([sep].intercalate pieces).splitOn sep = if pieces = [] then [[]] else pieces := by
  by_cases hne : pieces = []
  · subst hne
    rfl
  · rw [if_neg hne]
    exact List.splitOn_intercalate sep h hne

theorem Value.fromBytes_toBytes {v : Value} (h : v.Plain) :
    Value.fromBytes v.toBytes = if v.subValues = [] then Value.blank else v := by
  rw [Value.fromBytes, Value.toBytes, splitOn_intercalate_plain fun p hp => (h p hp).2.2]
  split <;> rfl

theorem Value.Plain.toBytes {v : Value} (h : v.Plain) : FM ∉ v.toBytes ∧ VM ∉ v.toBytes :=
  ⟨not_mem_intercalate (by decide) fun p hp => (h p hp).1,
    not_mem_intercalate (by decide) fun p hp => (h p hp).2.1⟩

/-- What one value reads back as. -/
def Value.settled (v : Value) : Value := if v.subValues = [] then Value.blank else v

/-- What one attribute reads back as. -/
def Field.settled (f : Field) : Field :=
  if f.values = [] then Field.blank else { values := f.values.map Value.settled }

theorem Field.fromBytes_toBytes {f : Field} (h : f.Plain) :
    Field.fromBytes f.toBytes = f.settled := by
  have hvalues : ∀ p ∈ f.values.map Value.toBytes, VM ∉ p := by
    intro p hp
    obtain ⟨v, hv, rfl⟩ := List.mem_map.mp hp
    exact (h v hv).toBytes.2
  rw [Field.fromBytes, Field.toBytes, splitOn_intercalate_plain hvalues, Field.settled]
  simp only [List.map_eq_nil_iff]
  split
  · rfl
  · rw [List.map_map]
    congr 1
    exact List.map_congr_left fun v hv => Value.fromBytes_toBytes (h v hv)

theorem Field.Plain.toBytes {f : Field} (h : f.Plain) : FM ∉ f.toBytes := by
  refine not_mem_intercalate (by decide) fun p hp => ?_
  obtain ⟨v, hv, rfl⟩ := List.mem_map.mp hp
  exact (h v hv).toBytes.1

namespace Record

/-- A record without marks reads back attribute by attribute, unless it was stored as no bytes. -/
theorem stored_plain {r : Record} (h : r.Plain) :
    r.stored = if r.toBytes = [] then {} else { fields := r.fields.map Field.settled } := by
  rw [stored, fromBytes]
  split
  · rfl
  · rename_i hne
    have hfields : ∀ p ∈ r.fields.map Field.toBytes, FM ∉ p := by
      intro p hp
      obtain ⟨f, hf, rfl⟩ := List.mem_map.mp hp
      exact (h f hf).toBytes
    have hsome : r.fields ≠ [] := by
      intro hc
      simp [toBytes, hc] at hne
    rw [toBytes, splitOn_intercalate_plain hfields, if_neg (by simpa using hsome), List.map_map]
    congr 1
    exact List.map_congr_left fun f hf => Field.fromBytes_toBytes (h f hf)

end Record

/-! ## What is stored as no bytes -/

theorem intercalate_eq_nil {sep : UInt8} {pieces : List Bytes}
    (h : [sep].intercalate pieces = []) : pieces = [] ∨ pieces = [[]] := by
  match pieces with
  | [] => exact Or.inl rfl
  | [p] => exact Or.inr (by simpa using h)
  | p :: q :: pieces =>
    rw [List.intercalate_cons_cons] at h
    simp at h

/-- An attribute that is stored as no bytes holds nothing but one empty text. -/
theorem Field.toBytes_eq_nil {f : Field} (h : f.toBytes = []) :
    f.values = [] ∨ f.values = [{}] ∨ f.values = [Value.blank] := by
  rcases intercalate_eq_nil h with hc | hc
  · exact Or.inl (by simpa using hc)
  · obtain ⟨v, hv, hb⟩ := List.map_eq_singleton_iff.mp hc
    rcases intercalate_eq_nil hb with hs | hs
    · exact Or.inr (Or.inl (by rw [hv]; cases v; simp_all))
    · exact Or.inr (Or.inr (by rw [hv]; cases v; simp_all [Value.blank]))

theorem Record.toBytes_eq_nil {r : Record} (h : r.toBytes = []) :
    r.fields = [] ∨ ∃ f, r.fields = [f] ∧ f.toBytes = [] := by
  rcases intercalate_eq_nil h with hc | hc
  · exact Or.inl (by simpa using hc)
  · exact Or.inr (List.map_eq_singleton_iff.mp hc)

/-- A record in which every list holds something comes back as it was. -/
theorem Record.stored_eq {r : Record} (h : r.Plain) (hf : r.Filled) (hb : r ≠ Record.blank) :
    r.stored = r := by
  have hne : r.toBytes ≠ [] := by
    intro hc
    rcases Record.toBytes_eq_nil hc with hnil | ⟨f, hone, hbytes⟩
    · exact hf.1 hnil
    · have hfilled := hf.2 f (by rw [hone]; simp)
      rcases Field.toBytes_eq_nil hbytes with hv | hv | hv
      · exact hfilled.1 hv
      · exact hfilled.2 {} (by rw [hv]; simp) rfl
      · apply hb
        cases r
        cases f
        simp_all [Record.blank, Field.blank]
  have hsettled : ∀ f ∈ r.fields, f.settled = f := by
    intro f hmem
    have hfilled := hf.2 f hmem
    have hvalues : f.values.map Value.settled = f.values.map id :=
      List.map_congr_left fun v hv => if_neg (hfilled.2 v hv)
    rw [Field.settled, if_neg hfilled.1, hvalues, List.map_id]
  have hfields : r.fields.map Field.settled = r.fields.map id := List.map_congr_left hsettled
  rw [Record.stored_plain h, if_neg hne, hfields, List.map_id]

/-! ## The texts -/

/-- The texts of one value. -/
def Value.texts (v : Value) : List String :=
  if v.subValues = [] then [""] else v.subValues.map textOf

/-- The texts of one attribute. -/
def Field.texts (f : Field) : List String :=
  if f.values = [] then [""] else f.values.flatMap Value.texts

theorem textsOf_record (r : Record) (attr : Nat) :
    textsOf (some r) attr = (r.fields[attr]?.map Field.texts).getD [""] := by
  simp only [textsOf, Option.bind_some]
  cases r.fields[attr]? <;> rfl

theorem textOf_nil : textOf [] = "" := by decide +kernel

theorem Value.texts_settled (v : Value) : v.settled.texts = v.texts := by
  unfold Value.settled Value.texts
  split
  · simp [Value.blank, textOf_nil]
  · rfl

theorem Field.texts_settled (f : Field) : f.settled.texts = f.texts := by
  unfold Field.settled Field.texts
  split
  · simp [Field.blank, Value.texts, Value.blank, textOf_nil]
  · rename_i h
    rw [if_neg (by simpa using h), List.flatMap_map]
    congr 1
    exact funext Value.texts_settled

theorem Field.texts_of_toBytes {f : Field} (h : f.toBytes = []) : f.texts = [""] := by
  rcases Field.toBytes_eq_nil h with hv | hv | hv <;>
    simp [Field.texts, hv, Value.texts, Value.blank, textOf_nil]

/-- A record without marks is compared by the same texts before it is stored and after. -/
theorem textsOf_stored {r : Record} (h : r.Plain) (attr : Nat) :
    textsOf (some r.stored) attr = textsOf (some r) attr := by
  rw [textsOf_record, textsOf_record, Record.stored_plain h]
  split
  · rename_i hnil
    rcases Record.toBytes_eq_nil hnil with hc | ⟨f, hc, hbytes⟩
    · simp [hc]
    · cases attr with
      | zero => simp [hc, Field.texts_of_toBytes hbytes]
      | succ attr => simp [hc]
  · rw [List.getElem?_map, Option.map_map]
    congr 2
    exact funext Field.texts_settled

/-! ## What sees a record through its texts -/

theorem pushValue_eq (out : List String) (v : Value) :
    pushValue out v = v.texts.foldl pushKey out := by
  unfold pushValue Value.texts
  split
  · rename_i h
    simp [h]
  · rw [List.foldl_map]

/-- The keys of an index are taken from the texts, one after another. -/
theorem keysOf_eq (r : Record) (attr : Nat) :
    keysOf (some r) attr = (textsOf (some r) attr).foldl pushKey [] := by
  have hempty : [""] = [""].foldl pushKey [] := by decide +kernel
  rw [textsOf_record]
  simp only [keysOf, Option.bind_some]
  cases r.fields[attr]? with
  | none => exact hempty
  | some f =>
    simp only [Option.map_some, Option.getD_some, Field.texts]
    split
    · exact hempty
    · rw [List.foldl_flatMap]
      congr 1
      exact funext fun out => funext fun v => pushValue_eq out v

theorem keysOf_congr {r r' : Record} {attr : Nat}
    (h : textsOf (some r) attr = textsOf (some r') attr) :
    keysOf (some r) attr = keysOf (some r') attr := by
  rw [keysOf_eq, keysOf_eq, h]

theorem evaluateNode_congr {scaling : Scaling} {key : String} {r r' : Record} {map : FieldMap}
    (h : ∀ attr, textsOf (some r) attr = textsOf (some r') attr) (node : QueryNode) :
    evaluateNode scaling key r map node = evaluateNode scaling key r' map node := by
  induction node with
  | condition cond => simp only [evaluateNode, evaluateField_eq, h]
  | logical op left right ihl ihr => cases op <;> simp only [evaluateNode, ihl, ihr]

/-- The record codec: bytes come back as they were, a filled record without marks too, and no key
of an index and no query tells any record without marks from what it is stored as. -/
theorem record_codec :
    (∀ b, (Record.fromBytes b).toBytes = b) ∧
    (∀ r : Record, r.Plain → r.Filled → r ≠ Record.blank → Record.fromBytes r.toBytes = r) ∧
    (∀ r : Record, r.Plain →
      (∀ attr, keysOf (some r) attr = keysOf (some (Record.fromBytes r.toBytes)) attr) ∧
      ∀ scaling key map node, evaluateNode scaling key r map node =
        evaluateNode scaling key (Record.fromBytes r.toBytes) map node) := by
  refine ⟨Record.toBytes_fromBytes, fun r => Record.stored_eq, fun r h => ⟨fun attr => ?_, ?_⟩⟩
  · exact keysOf_congr (textsOf_stored h attr).symm
  · intro scaling key map node
    exact evaluateNode_congr (fun attr => (textsOf_stored h attr).symm) node

/-- A record of one text comes back as it was. One with an empty list in each tier does not, and its
index keys are the same. -/
theorem record_codec_ragged :
    Record.fromBytes (Record.toBytes { fields := [{ values := [Value.text "A"] }] }) =
        { fields := [{ values := [Value.text "A"] }] } ∧
      Record.fromBytes (Record.toBytes { fields := [{}, { values := [{}, Value.text "A"] }] }) ≠
        { fields := [{}, { values := [{}, Value.text "A"] }] } ∧
      keysOf (some { fields := [{}, { values := [{}, Value.text "A"] }] }) 1 =
        keysOf (some (Record.fromBytes
          (Record.toBytes { fields := [{}, { values := [{}, Value.text "A"] }] }))) 1 := by
  have hplain : Record.Plain { fields := [{}, { values := [{}, Value.text "A"] }] } := by
    simp [Record.Plain, Field.Plain, Value.Plain, Value.text, IsPlain]
    decide +kernel
  have hone : Record.Plain { fields := [{ values := [Value.text "A"] }] } := by
    simp [Record.Plain, Field.Plain, Value.Plain, Value.text, IsPlain]
    decide +kernel
  refine ⟨record_codec.2.1 _ hone ?_ ?_, by decide +kernel, (record_codec.2.2 _ hplain).1 1⟩
  · simp [Record.Filled, Field.Filled, Value.text]
  · decide +kernel

end RustyPick
