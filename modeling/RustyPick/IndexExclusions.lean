import RustyPick.Marking

/-!
# RustyPick.IndexExclusions

The values an index does not hold (`db/index.rs`), from the text they are given in to the `state`
file they are read back from.

`indexKey_indexKey`: a key that was shortened fits as it is, or is shortened to itself. So the
exclusions of an index are keys already, and the file, whose reader trims, returns every one of
them (`exclusions_survive`).
-/

namespace RustyPick

/-! ## Characters by their bytes -/

def byteLength (cs : List Char) : Nat := (cs.map Char.utf8Size).sum

@[simp] theorem byteLength_append (cs ds : List Char) :
    byteLength (cs ++ ds) = byteLength cs + byteLength ds := by
  simp [byteLength]

theorem length_utf8 (s : String) : (utf8 s).length = byteLength s.toList := by
  rw [utf8_eq_flatMap, List.length_flatMap, byteLength]
  congr 1
  exact List.map_congr_left fun c _ => String.length_utf8EncodeChar c

theorem byteLength_takeBytes (limit : Nat) (cs : List Char) :
    byteLength (takeBytes limit cs) ≤ limit := by
  induction cs generalizing limit with
  | nil => simp [takeBytes, byteLength]
  | cons c cs ih =>
    rw [takeBytes]
    split
    · have hrest := ih (limit - c.utf8Size)
      simp only [byteLength, List.map_cons, List.sum_cons] at hrest ⊢
      omega
    · simp [byteLength]

/-- Characters that fit are taken, and what follows them has the room they leave. -/
theorem takeBytes_append {limit : Nat} {cs : List Char} (h : byteLength cs ≤ limit)
    (ds : List Char) : takeBytes limit (cs ++ ds) = cs ++ takeBytes (limit - byteLength cs) ds := by
  induction cs generalizing limit with
  | nil => rfl
  | cons c cs ih =>
    have hlen : byteLength (c :: cs) = c.utf8Size + byteLength cs := by
      simp [byteLength]
    rw [hlen] at h ⊢
    have hroom : byteLength cs ≤ limit - c.utf8Size := by omega
    rw [List.cons_append, takeBytes, if_pos (by omega), ih hroom, Nat.sub_sub]
    rfl

/-! ## The key of a key -/

theorem toList_truncated (cs : List Char) :
    (String.ofList (takeBytes MAX_INDEX_KEY cs) ++ TRUNCATION_MARK).toList =
      takeBytes MAX_INDEX_KEY cs ++ ['…'] := by
  rw [String.toList_append, String.toList_ofList]
  rfl

theorem indexKey_indexKey (value : String) : indexKey (indexKey value) = indexKey value := by
  have htrim := trim_indexKey value
  by_cases hlong : (utf8 (trim value)).length ≤ MAX_INDEX_KEY
  · have hkey : indexKey value = trim value := if_pos hlong
    rw [hkey, indexKey_trim, hkey]
  · have hkey : indexKey value =
        String.ofList (takeBytes MAX_INDEX_KEY (trim value).toList) ++ TRUNCATION_MARK :=
      if_neg hlong
    by_cases hagain : (utf8 (indexKey value)).length ≤ MAX_INDEX_KEY
    · -- The cut fell early enough for the mark to fit as well.
      rw [indexKey, htrim, if_pos hagain]
    · have hfit := byteLength_takeBytes MAX_INDEX_KEY (trim value).toList
      have hmark : takeBytes (MAX_INDEX_KEY -
          byteLength (takeBytes MAX_INDEX_KEY (trim value).toList)) ['…'] = [] := by
        rw [length_utf8, hkey, toList_truncated, byteLength_append] at hagain
        have hone : byteLength ['…'] = Char.utf8Size '…' := by simp [byteLength]
        rw [takeBytes, if_neg]
        omega
      rw [indexKey, htrim, if_neg hagain, hkey, toList_truncated, takeBytes_append hfit, hmark,
        List.append_nil]

/-! ## The file -/

/-- The indexes that were told to leave out `values`. -/
inductive Excluding (values : Finset String) : FileIndex → Prop
  | opened (field : String) (attr : Nat) :
    Excluding values (FileIndex.withExclusions field attr values)
  | replaced (idx : FileIndex) : Excluding values (idx.setExcluded values).2

theorem Excluding.excluded {values : Finset String} {idx : FileIndex} (h : Excluding values idx) :
    idx.excluded = normaliseExclusions values := by
  cases h with
  | opened field attr => rfl
  | replaced idx =>
    unfold FileIndex.setExcluded
    dsimp only
    split
    · rename_i hsame
      exact hsame.symm
    · rfl

theorem Excluding.written {values : Finset String} {idx : FileIndex} (h : Excluding values idx)
    {version : Nat} (hfield : isValidFieldName idx.field = true) (hattr : idx.attr < u64Max)
    (hversion : version ≤ u64Max) : (idx.state version).Written where
  field := hfield
  attributeNo := hattr
  dataVersion := hversion
  excluded := by
    intro value hvalue
    rw [FileIndex.state, h.excluded] at hvalue
    exact normaliseExclusions_trim hvalue

/-- A text is left out exactly when it has the key of one that was named. -/
theorem Excluding.mem_iff {values : Finset String} {idx : FileIndex} (h : Excluding values idx)
    (text : String) :
    indexKey text ∈ idx.excluded ↔ ∃ value ∈ values, indexKey value = indexKey text := by
  rw [h.excluded, normaliseExclusions, Finset.mem_image]

/-- What an index says of itself is read back as it was said: the exclusions are those it had, and
they leave out what they left out before. -/
theorem exclusions_survive {values : Finset String} {idx : FileIndex} (h : Excluding values idx)
    {version : Nat} (hfield : isValidFieldName idx.field = true) (hattr : idx.attr < u64Max)
    (hversion : version ≤ u64Max) :
    let back := readState (some (stateBytes (idx.state version)))
    back = some (idx.state version) ∧
      (∀ entries sectionMeta dataVersion text,
        indexKey text ∈ (FileIndex.loaded idx.field idx.attr entries sectionMeta back
          dataVersion).excluded ↔ ∃ value ∈ values, indexKey value = indexKey text) ∧
      (∀ text, unescapeValue (escapeValue text) = text) ∧
      ∀ text, indexKey (indexKey text) = indexKey text := by
  have hback := readState_stateBytes (h.written hfield hattr hversion)
  dsimp only
  refine ⟨hback, fun entries sectionMeta dataVersion text => ?_, unescapeValue_escapeValue,
    indexKey_indexKey⟩
  rw [hback]
  exact h.mem_iff text

/-- The orders without a status, and those that are done. -/
def settledStatuses : Finset String := {"", " CLOSED "}

theorem statusIndex_survives :
    let idx := FileIndex.withExclusions "STATUS" 2 settledStatuses
    let back := readState (some (stateBytes (idx.state 7)))
    back = some (idx.state 7) ∧
      (∀ entries sectionMeta dataVersion text,
        indexKey text ∈ (FileIndex.loaded idx.field idx.attr entries sectionMeta back
          dataVersion).excluded ↔ ∃ value ∈ settledStatuses, indexKey value = indexKey text) ∧
      (∀ text, unescapeValue (escapeValue text) = text) ∧
      ∀ text, indexKey (indexKey text) = indexKey text := by
  have hfield : isValidFieldName "STATUS" = true := by decide +kernel
  exact exclusions_survive (.opened "STATUS" 2) hfield (show 2 < u64Max by decide) (by decide)

end RustyPick
