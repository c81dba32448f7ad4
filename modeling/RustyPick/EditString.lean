import RustyPick.RecordCodec

/-!
# RustyPick.EditString

The form in which a record is handed to a text editor (`db/models.rs`): `to_edit_string` writes one
attribute a line, `from_edit_string` reads it back, one newline at the end left out as the one an
editor adds.

`to_edit_string` ends no line of its own, so the newline left out belongs to the record whenever its
last attribute is empty. `fromEditString_toEditString` gives what every record of text reads back
as, and `editString_roundTrip_iff` says that this is the only loss.
-/

namespace RustyPick

def newlineByte : UInt8 := 10
def bracketByte : UInt8 := 93
def backslashByte : UInt8 := 92

/-- One byte of a stored record, as the editor sees it. -/
def editByte (b : UInt8) : UInt8 :=
  if b = FM then newlineByte else if b = VM then bracketByte
  else if b = SVM then backslashByte else b

/-- One byte of an edited text, as it is stored. -/
def storedByte (b : UInt8) : UInt8 :=
  if b = newlineByte then FM else if b = bracketByte then VM
  else if b = backslashByte then SVM else b

/-- `Record::to_edit_string`. -/
def Record.toEditString (r : Record) : String :=
  fromUtf8Lossy (r.toBytes.map editByte)

/-- The text without the newline it ends with, if it ends with one. -/
def editContent (b : Bytes) : Bytes :=
  if b.getLast? = some newlineByte then b.dropLast else b

/-- `Record::from_edit_string`. -/
def Record.fromEditString (s : String) : Record :=
  Record.fromBytes ((editContent (utf8 s)).map storedByte)

/-! ## Records the editor can show -/

/-- A character that the edit form does not use for a mark. -/
def EditChar (c : Char) : Prop := c ≠ '\n' ∧ c ≠ ']' ∧ c ≠ '\\'

/-- A text no character of which stands for a mark. -/
def EditText (sub : Bytes) : Prop := ∃ s : String, sub = utf8 s ∧ ∀ c ∈ s.toList, EditChar c

def Value.EditText (v : Value) : Prop := ∀ sub ∈ v.subValues, RustyPick.EditText sub

def Field.EditText (f : Field) : Prop := ∀ v ∈ f.values, v.EditText

def Record.EditText (r : Record) : Prop := ∀ f ∈ r.fields, f.EditText

/-! ## Byte by byte -/

/-- A byte that the edit form gives back. -/
def Returns (b : UInt8) : Prop := storedByte (editByte b) = b

theorem Returns.of_newline {b : UInt8} (h : Returns b) (hb : editByte b = newlineByte) :
    b = FM := by
  rw [Returns, hb] at h
  exact h.symm

theorem returns_mark {m : UInt8} (h : m = FM ∨ m = VM ∨ m = SVM) : Returns m := by
  rcases h with rfl | rfl | rfl <;> rfl

theorem editByte_utf8 {s : String} {b : UInt8} (h : b ∈ utf8 s) : editByte b = b := by
  have hne : ∀ mark : UInt8, 0xF8 ≤ mark.toNat → b ≠ mark :=
    fun mark hmark heq => mark_not_mem_utf8 hmark (heq ▸ h)
  unfold editByte
  rw [if_neg (hne FM (by decide)), if_neg (hne VM (by decide)), if_neg (hne SVM (by decide))]

/-- A byte below `0x80` in a text is a character of it. -/
theorem mem_of_ascii_mem_utf8 {s : String} {b : UInt8} (hb : b.toNat < 0x80) (h : b ∈ utf8 s) :
    Char.ofNat b.toNat ∈ s.toList := by
  rw [utf8_eq_flatMap, List.mem_flatMap] at h
  obtain ⟨c, hc, hbc⟩ := h
  suffices hcb : b.toNat = c.toNat by rwa [hcb, Char.ofNat_toNat]
  simp only [String.utf8EncodeChar] at hbc
  split_ifs at hbc <;> simp only [List.mem_cons, List.not_mem_nil, or_false] at hbc
  · subst hbc
    simp only [UInt8.toNat_ofNat'] at hb ⊢
    change c.val.toNat % 2 ^ 8 = c.val.toNat
    omega
  · rcases hbc with rfl | rfl <;> simp only [UInt8.toNat_ofNat'] at hb <;> omega
  · rcases hbc with rfl | rfl | rfl <;> simp only [UInt8.toNat_ofNat'] at hb <;> omega
  · rcases hbc with rfl | rfl | rfl | rfl <;> simp only [UInt8.toNat_ofNat'] at hb <;> omega

theorem EditText.returns {sub : Bytes} (h : EditText sub) {b : UInt8} (hb : b ∈ sub) :
    Returns b := by
  obtain ⟨s, rfl, hs⟩ := h
  rw [Returns, editByte_utf8 hb]
  unfold storedByte
  rw [if_neg, if_neg, if_neg]
  · rintro rfl
    exact (hs _ (mem_of_ascii_mem_utf8 (by decide) hb)).2.2 rfl
  · rintro rfl
    exact (hs _ (mem_of_ascii_mem_utf8 (by decide) hb)).2.1 rfl
  · rintro rfl
    exact (hs _ (mem_of_ascii_mem_utf8 (by decide) hb)).1 rfl

theorem EditText.plain {sub : Bytes} (h : EditText sub) : IsPlain sub := by
  obtain ⟨s, rfl, -⟩ := h
  exact ⟨mark_not_mem_utf8 (by decide), mark_not_mem_utf8 (by decide),
    mark_not_mem_utf8 (by decide)⟩

theorem Record.EditText.plain {r : Record} (h : r.EditText) : r.Plain :=
  fun f hf v hv sub hsub => (h f hf v hv sub hsub).plain

/-! ## Tier by tier -/

/-- What holds of the separator and of every byte of every piece holds of the joined bytes. -/
theorem forall_mem_intercalate {P : UInt8 → Prop} {sep : UInt8} {pieces : List Bytes}
    (hsep : P sep) (h : ∀ p ∈ pieces, ∀ b ∈ p, P b) : ∀ b ∈ [sep].intercalate pieces, P b := by
  induction pieces with
  | nil => simp
  | cons p pieces ih =>
    have hp := h p List.mem_cons_self
    have hrest := ih fun q hq => h q (List.mem_cons_of_mem _ hq)
    cases pieces with
    | nil => simpa using hp
    | cons q pieces =>
      rw [List.intercalate_cons_cons]
      intro b hb
      rcases List.mem_append.mp hb with hb | hb
      · rcases List.mem_append.mp hb with hb | hb
        · exact hp b hb
        · rwa [List.mem_singleton.mp hb]
      · exact hrest b hb

/-- Shown to the editor, the bytes are a text. -/
def Showable (b : Bytes) : Prop := ∃ s : String, utf8 s = b.map editByte

theorem showable_append {a b : Bytes} (ha : Showable a) (hb : Showable b) : Showable (a ++ b) := by
  obtain ⟨s, hs⟩ := ha
  obtain ⟨t, ht⟩ := hb
  refine ⟨s ++ t, ?_⟩
  rw [List.map_append, ← hs, ← ht, utf8_eq_flatMap, utf8_eq_flatMap, utf8_eq_flatMap,
    String.toList_append, List.flatMap_append]

theorem showable_mark {m : UInt8} (h : m = FM ∨ m = VM ∨ m = SVM) : Showable [m] := by
  rcases h with rfl | rfl | rfl
  · exact ⟨"\n", by decide +kernel⟩
  · exact ⟨"]", by decide +kernel⟩
  · exact ⟨"\\", by decide +kernel⟩

theorem showable_intercalate {sep : UInt8} (hsep : sep = FM ∨ sep = VM ∨ sep = SVM)
    {pieces : List Bytes} (h : ∀ p ∈ pieces, Showable p) : Showable ([sep].intercalate pieces) := by
  induction pieces with
  | nil => exact ⟨"", rfl⟩
  | cons p pieces ih =>
    have hp := h p List.mem_cons_self
    have hrest := ih fun q hq => h q (List.mem_cons_of_mem _ hq)
    cases pieces with
    | nil => simpa using hp
    | cons q pieces =>
      rw [List.intercalate_cons_cons]
      exact showable_append (showable_append hp (showable_mark hsep)) hrest

theorem EditText.showable {sub : Bytes} (h : EditText sub) : Showable sub := by
  obtain ⟨s, rfl, -⟩ := h
  refine ⟨s, ?_⟩
  have hmap := List.map_congr_left fun b (hb : b ∈ utf8 s) => editByte_utf8 hb
  rw [hmap, List.map_id']

namespace Record

theorem EditText.toBytes_showable {r : Record} (h : r.EditText) : Showable r.toBytes := by
  refine showable_intercalate (Or.inl rfl) fun p hp => ?_
  obtain ⟨f, hf, rfl⟩ := List.mem_map.mp hp
  refine showable_intercalate (Or.inr (Or.inl rfl)) fun p hp => ?_
  obtain ⟨v, hv, rfl⟩ := List.mem_map.mp hp
  exact showable_intercalate (Or.inr (Or.inr rfl)) fun sub hsub => (h f hf v hv sub hsub).showable

theorem EditText.returns {r : Record} (h : r.EditText) : ∀ b ∈ r.toBytes, Returns b := by
  refine forall_mem_intercalate (returns_mark (Or.inl rfl)) fun p hp => ?_
  obtain ⟨f, hf, rfl⟩ := List.mem_map.mp hp
  refine forall_mem_intercalate (returns_mark (Or.inr (Or.inl rfl))) fun p hp => ?_
  obtain ⟨v, hv, rfl⟩ := List.mem_map.mp hp
  exact forall_mem_intercalate (returns_mark (Or.inr (Or.inr rfl))) fun sub hsub b hb =>
    (h f hf v hv sub hsub).returns hb

/-! ## The round trip -/

theorem utf8_toEditString {r : Record} (h : r.EditText) :
    utf8 r.toEditString = r.toBytes.map editByte := by
  obtain ⟨s, hs⟩ := h.toBytes_showable
  rw [toEditString, ← hs, fromUtf8Lossy_utf8]

/-- The bytes without the field mark they end with, if they end with one. -/
def withoutLastMark (b : Bytes) : Bytes := if b.getLast? = some FM then b.dropLast else b

/-- The newline left out is the field mark the stored record ends with. -/
theorem fromEditString_eq {r : Record} (h : r.EditText) :
    fromEditString r.toEditString = fromBytes (withoutLastMark r.toBytes) := by
  have hback : ∀ l : Bytes, (∀ b ∈ l, Returns b) → (l.map editByte).map storedByte = l := by
    intro l hl
    rw [List.map_map]
    exact (List.map_congr_left hl).trans (List.map_id l)
  have hlast : (r.toBytes.map editByte).getLast? = some newlineByte ↔
      r.toBytes.getLast? = some FM := by
    rw [List.getLast?_map, Option.map_eq_some_iff]
    constructor
    · rintro ⟨b, hb, hnl⟩
      rw [hb, (h.returns b (List.mem_of_getLast? hb)).of_newline hnl]
    · intro hb
      exact ⟨FM, hb, rfl⟩
  rw [fromEditString, utf8_toEditString h, editContent, withoutLastMark]
  by_cases hfm : r.toBytes.getLast? = some FM
  · rw [if_pos (hlast.mpr hfm), if_pos hfm, ← List.map_dropLast,
      hback _ fun b hb => h.returns b (List.dropLast_subset _ hb)]
  · rw [if_neg (mt hlast.mp hfm), if_neg hfm, hback _ h.returns]

end Record

theorem intercalate_concat {sep : UInt8} {init : List Bytes} (last : Bytes) (h : init ≠ []) :
    [sep].intercalate (init ++ [last]) = [sep].intercalate init ++ [sep] ++ last := by
  induction init with
  | nil => exact absurd rfl h
  | cons p init ih =>
    cases init with
    | nil => simp [List.intercalate_cons_cons]
    | cons q init =>
      have hrest := ih (List.cons_ne_nil _ _)
      simp only [List.cons_append, List.intercalate_cons_cons] at hrest ⊢
      rw [hrest]
      simp only [List.append_assoc]

/-- An attribute in which every list holds something is stored as no bytes only when it is one
empty text. -/
theorem Field.eq_blank {f : Field} (hf : f.Filled) (h : f.toBytes = []) : f = Field.blank := by
  rcases Field.toBytes_eq_nil h with hv | hv | hv
  · exact absurd hv hf.1
  · exact absurd rfl (hf.2 {} (by rw [hv]; simp))
  · cases f
    simp_all [Field.blank]

namespace Record

/-- A stored record ends with a mark exactly when its last attribute is empty and not its only
one. -/
theorem withoutLastMark_toBytes {r : Record} (h : r.Plain) (hf : r.Filled) (hb : r ≠ blank) :
    withoutLastMark r.toBytes =
      if r.fields.getLast? = some Field.blank then ({ fields := r.fields.dropLast } : Record).toBytes
      else r.toBytes := by
  obtain ⟨init, last, hfields⟩ := (List.eq_nil_or_concat r.fields).resolve_left hf.1
  rw [List.concat_eq_append] at hfields
  have hmem : last ∈ r.fields := by rw [hfields]; simp
  have hget : r.fields.getLast? = some last := by rw [hfields, List.getLast?_concat]
  have hinit : r.fields.dropLast = init := by rw [hfields, List.dropLast_concat]
  rw [hget, hinit]
  by_cases hlast : last = Field.blank
  · subst hlast
    have hne : init.map Field.toBytes ≠ [] := by
      intro hc
      apply hb
      have hnil := List.map_eq_nil_iff.mp hc
      cases r
      simp_all [blank]
    have hbytes : r.toBytes = ({ fields := init } : Record).toBytes ++ [FM] := by
      have hempty : Field.blank.toBytes = [] := by decide
      rw [toBytes, toBytes, hfields, List.map_append, List.map_singleton,
        intercalate_concat _ hne, hempty, List.append_nil]
    rw [if_pos rfl, withoutLastMark, hbytes, List.getLast?_concat, if_pos rfl,
      List.dropLast_concat]
  · have hbytes : last.toBytes ≠ [] := fun hc => hlast (Field.eq_blank (hf.2 _ hmem) hc)
    have hend : r.toBytes.getLast? = last.toBytes.getLast? := by
      by_cases hne : init.map Field.toBytes = []
      · have hnil := List.map_eq_nil_iff.mp hne
        simp [toBytes, hfields, hnil]
      · rw [toBytes, hfields, List.map_append, List.map_singleton, intercalate_concat _ hne,
          List.getLast?_append_of_ne_nil _ hbytes]
    rw [if_neg (fun hc => hlast (Option.some.inj hc)), withoutLastMark, if_neg]
    rw [hend]
    exact fun hc => (h last hmem).toBytes (List.mem_of_getLast? hc)

/-- What a record of text reads back as once an editor has left it as it was. -/
theorem fromEditString_toEditString {r : Record} (h : r.EditText) (hf : r.Filled)
    (hb : r ≠ blank) :
    fromEditString r.toEditString =
      if r.fields.getLast? = some Field.blank then ({ fields := r.fields.dropLast } : Record).stored
      else r := by
  rw [fromEditString_eq h, withoutLastMark_toBytes h.plain hf hb]
  split
  · rfl
  · exact stored_eq h.plain hf hb

/-- A record never reads back with more attributes than it was stored with. -/
theorem stored_fields_length {r : Record} (h : r.Plain) :
    r.stored.fields.length ≤ r.fields.length := by
  rw [stored_plain h]
  split
  · exact Nat.zero_le _
  · exact le_of_eq (List.length_map _)

/-- An edit that changes nothing stores nothing different, unless the last attribute is empty. -/
theorem editString_roundTrip_iff {r : Record} (h : r.EditText) (hf : r.Filled) (hb : r ≠ blank) :
    fromEditString r.toEditString = r ↔ r.fields.getLast? ≠ some Field.blank := by
  rw [fromEditString_toEditString h hf hb]
  constructor
  · intro heq hlast
    rw [if_pos hlast] at heq
    have hplain : ({ fields := r.fields.dropLast } : Record).Plain :=
      fun f hmem => h.plain f (List.dropLast_subset _ hmem)
    have hlen := stored_fields_length hplain
    rw [heq, List.length_dropLast] at hlen
    have hpos : r.fields.length ≠ 0 := mt List.length_eq_zero_iff.mp hf.1
    omega
  · intro hlast
    exact if_neg hlast

/-- Two attributes of one text each. -/
def pair (first second : String) : Record :=
  { fields := [{ values := [Value.text first] }, { values := [Value.text second] }] }

theorem pair_editText {first second : String} (hf : ∀ c ∈ first.toList, EditChar c)
    (hs : ∀ c ∈ second.toList, EditChar c) : (pair first second).EditText := by
  simp only [EditText, pair, Field.EditText, Value.EditText, Value.text, List.forall_mem_cons,
    List.not_mem_nil, false_implies, implies_true, and_true]
  exact ⟨⟨first, rfl, hf⟩, ⟨second, rfl, hs⟩⟩

theorem pair_filled (first second : String) : (pair first second).Filled := by
  simp [Filled, Field.Filled, pair, Value.text]

theorem pair_ne_blank (first second : String) : pair first second ≠ blank := by
  simp [pair, blank]

theorem name_roundTrip :
    fromEditString (pair "" "Smith").toEditString = pair "" "Smith" ↔
      (pair "" "Smith").fields.getLast? ≠ some Field.blank :=
  editString_roundTrip_iff (pair_editText (by simp) (by simp [EditChar])) (pair_filled _ _)
    (pair_ne_blank _ _)

/-- A name and an address nobody has filled in: the editor is left at once, and the address is no
longer there. -/
theorem unchangedEdit_drops_attribute :
    ¬ ∀ r : Record, r.EditText → r.Filled → r ≠ blank → fromEditString r.toEditString = r := by
  intro h
  have hpair := h (pair "Smith" "") (pair_editText (by simp [EditChar]) (by simp))
    (pair_filled _ _) (pair_ne_blank _ _)
  revert hpair
  decide +kernel

end Record

end RustyPick
