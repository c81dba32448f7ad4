import RustyPick.SelectLists
import RustyPick.RecordCodec

/-!
# RustyPick.SavedLists

`SAVE-LIST` and `GET-LIST` (`cli/src/main.rs`): a select list as a record of `$SAVEDLISTS`.

The file name is the first attribute, the flag and the exploded field are the second, and each entry
is an attribute after these.

* `splitOn_savedData`, `parseSavedEntry_entryData`: the attributes, and one entry, read back.
* `getList_saveList`: a saved list comes back as it was.
-/

namespace RustyPick

open Lib

/-- What the commands use of the database: the active list, and the records of `$SAVEDLISTS`, if the
file is there. -/
structure ListState where
  activeSelectList : Option SelectList := none
  savedLists : Except DbError (Map String Record)

/-! ## `SAVE-LIST` -/

def flagData (list : SelectList) : Bytes :=
  utf8 (if list.isDict then "1" else "0") ++
    match list.explodeField with
    | some field => VM :: utf8 field
    | none => []

def entryData (e : SelectEntry) : Bytes :=
  utf8 e.key ++
    match e.position with
    | none => []
    | some pos =>
      VM :: (utf8 (toString pos.value) ++
        match pos.subValue with
        | none => []
        | some sub => VM :: utf8 (toString sub))

/-- The bytes `SAVE-LIST` puts together. -/
def savedData (list : SelectList) : Bytes :=
  utf8 list.tableName ++ FM :: (flagData list ++ list.entries.flatMap fun e => FM :: entryData e)

/-- `handle_save_list`: what it prints, and what it does. -/
def handleSaveList (db : ListState) (parts : List String) : String × ListState :=
  match parts[1]? with
  | none => ("Usage: SAVE-LIST <list_name>", db)
  | some listName =>
    match db.activeSelectList with
    | none => ("NO ACTIVE SELECT LIST", db)
    | some list =>
      let record := Record.fromBytes (savedData list)
      match db.savedLists with
      | .error e => ("Error: " ++ e.text, db)
      | .ok saved =>
        ("List '" ++ listName ++ "' saved",
          { activeSelectList := none, savedLists := .ok (saved.insert listName record) })

/-! ## `GET-LIST` -/

/-- The closure `number`. -/
def positionNumber (part : Option Bytes) : Option Nat :=
  part.bind fun b => parseU64 (fromUtf8Lossy b)

/-- `parse_saved_entry`. -/
def parseSavedEntry (field : Bytes) : SelectEntry :=
  let parts := field.splitOn VM
  let key := fromUtf8Lossy (parts[0]?.getD [])
  match positionNumber parts[1]? with
  | some value =>
    { key := key, position := some { value := value, subValue := positionNumber parts[2]? } }
  | none => { key := key }

/-- `splitn(2, ..)` at the value mark. -/
def splitFlags (b : Bytes) : Bytes × Option Bytes :=
  (b.takeWhile (· ≠ VM), (b.dropWhile (· ≠ VM)).tail?)

/-- What `GET-LIST` makes of a record's bytes. `none` where there are too few attributes. -/
def parseSavedList (data : Bytes) : Option SelectList :=
  match data.splitOn FM with
  | file :: flags :: entries =>
    let (dict, explode) := splitFlags flags
    some { tableName := fromUtf8Lossy file, isDict := dict = utf8 "1",
           explodeField := explode.map fromUtf8Lossy, entries := entries.map parseSavedEntry }
  | _ => none

/-- `handle_get_list`. -/
def handleGetList (db : ListState) (parts : List String) : String × ListState :=
  match parts[1]? with
  | none => ("Usage: GET-LIST <list_name>", db)
  | some listName =>
    match db.savedLists with
    | .error e => ("Error: " ++ e.text, db)
    | .ok saved =>
      match saved[listName]? with
      | none => ("LIST '" ++ listName ++ "' NOT FOUND", db)
      | some record =>
        match parseSavedList record.toBytes with
        | none => ("INVALID SAVED LIST FORMAT", db)
        | some list =>
          ("[" ++ toString list.entries.length ++ "] records retrieved",
            { db with activeSelectList := some list })

/-- `$SAVEDLISTS` written out and read back. -/
def ListState.reload (db : ListState) : ListState :=
  { db with savedLists := db.savedLists.map fun saved => saved.map fun _ record => record.stored }

/-! ## The round trip -/

/-- Positions are of type `usize`. -/
structure ValuePosition.Sized (pos : ValuePosition) : Prop where
  value : pos.value ≤ u64Max
  subValue : ∀ sub ∈ pos.subValue, sub ≤ u64Max

def SelectList.Sized (list : SelectList) : Prop :=
  ∀ e ∈ list.entries, ∀ pos ∈ e.position, pos.Sized

theorem positionNumber_toString {n : Nat} (h : n ≤ u64Max) :
    positionNumber (some (utf8 (toString n))) = some n := by
  rw [positionNumber, Option.bind_some, fromUtf8Lossy_utf8, parseU64_repr h]

/-- The pieces of an entry. -/
def entryPieces (e : SelectEntry) : List String :=
  e.key :: match e.position with
    | none => []
    | some pos => toString pos.value :: (pos.subValue.map fun sub => toString sub).toList

theorem intercalate_cons_flatMap (sep : UInt8) (p : Bytes) (pieces : List Bytes) :
    [sep].intercalate (p :: pieces) = p ++ pieces.flatMap fun q => sep :: q := by
  induction pieces generalizing p with
  | nil => simp
  | cons q pieces ih => simp [List.intercalate_cons_cons, ih]

theorem entryData_eq (e : SelectEntry) :
    entryData e = [VM].intercalate ((entryPieces e).map utf8) := by
  rw [entryData, entryPieces]
  cases e.position with
  | none => simp
  | some pos =>
    dsimp only
    cases pos.subValue with
    | none => simp [List.intercalate_cons_cons]
    | some sub => simp [List.intercalate_cons_cons]

theorem splitOn_entryData (e : SelectEntry) :
    (entryData e).splitOn VM = (entryPieces e).map utf8 := by
  rw [entryData_eq, splitOn_intercalate_plain, if_neg]
  · rw [entryPieces, List.map_cons]
    exact List.cons_ne_nil _ _
  · intro p hp
    obtain ⟨s, -, rfl⟩ := List.mem_map.mp hp
    exact (isPlain_utf8 s).2.1

theorem FM_not_mem_entryData (e : SelectEntry) : FM ∉ entryData e := by
  rw [entryData_eq]
  refine not_mem_intercalate (by decide) fun p hp => ?_
  obtain ⟨s, -, rfl⟩ := List.mem_map.mp hp
  exact (isPlain_utf8 s).1

/-- An entry reads back. -/
theorem parseSavedEntry_entryData {e : SelectEntry} (h : ∀ pos ∈ e.position, pos.Sized) :
    parseSavedEntry (entryData e) = e := by
  obtain ⟨key, position⟩ := e
  rw [parseSavedEntry, splitOn_entryData, entryPieces]
  cases position with
  | none => simp [positionNumber]
  | some pos =>
    obtain ⟨value, sub⟩ := pos
    obtain ⟨hvalue, hsub⟩ := h _ rfl
    have hfirst := positionNumber_toString hvalue
    cases sub with
    | none =>
      simp only [Option.map_none, Option.toList_none, List.map_cons, List.map_nil,
        List.getElem?_cons_succ, List.getElem?_cons_zero, hfirst, Option.getD_some, fromUtf8Lossy_utf8]
      rfl
    | some sub =>
      have hsecond := positionNumber_toString (hsub sub rfl)
      simp only [Option.map_some, Option.toList_some, List.map_cons, List.map_nil,
        List.getElem?_cons_succ, List.getElem?_cons_zero, hfirst, hsecond, Option.getD_some,
        fromUtf8Lossy_utf8]

theorem FM_not_mem_flagData (list : SelectList) : FM ∉ flagData list := by
  have hne : FM ≠ VM := by decide
  rw [flagData, List.mem_append, not_or]
  refine ⟨(isPlain_utf8 _).1, ?_⟩
  cases list.explodeField with
  | none => exact List.not_mem_nil
  | some field => exact List.not_mem_cons_of_ne_of_not_mem hne (isPlain_utf8 field).1

/-- The flag and the exploded field read back, whether the field's name is empty or there is no
field. -/
theorem splitFlags_flagData (list : SelectList) : splitFlags (flagData list) =
    (utf8 (if list.isDict then "1" else "0"), list.explodeField.map utf8) := by
  have hflag : ∀ b ∈ utf8 (if list.isDict then "1" else "0"), decide (b ≠ VM) = true := by
    intro b hb
    exact decide_eq_true fun h => (isPlain_utf8 _).2.1 (h ▸ hb)
  rw [splitFlags, flagData, List.takeWhile_append_of_pos hflag, List.dropWhile_append_of_pos hflag]
  cases list.explodeField with
  | none => simp
  | some field => simp

/-- The attributes of a saved list. -/
theorem splitOn_savedData (list : SelectList) : (savedData list).splitOn FM =
    utf8 list.tableName :: flagData list :: list.entries.map entryData := by
  have hdata : savedData list =
      [FM].intercalate (utf8 list.tableName :: flagData list :: list.entries.map entryData) := by
    rw [savedData, intercalate_cons_flatMap, List.flatMap_cons, List.flatMap_map, List.cons_append]
  rw [hdata, splitOn_intercalate_plain, if_neg (List.cons_ne_nil _ _)]
  intro p hp
  rcases List.mem_cons.mp hp with rfl | hp
  · exact (isPlain_utf8 _).1
  rcases List.mem_cons.mp hp with rfl | hp
  · exact FM_not_mem_flagData list
  · obtain ⟨e, -, rfl⟩ := List.mem_map.mp hp
    exact FM_not_mem_entryData e

theorem parseSavedList_savedData {list : SelectList} (h : list.Sized) :
    parseSavedList (savedData list) = some list := by
  obtain ⟨file, isDict, explode, entries⟩ := list
  have hentries : (entries.map entryData).map parseSavedEntry = entries := by
    rw [List.map_map]
    exact (List.map_congr_left fun e he => parseSavedEntry_entryData (h e he)).trans (List.map_id _)
  have hexplode : (explode.map utf8).map fromUtf8Lossy = explode := by
    cases explode with
    | none => rfl
    | some field => simp
  have hdict : decide (utf8 (if isDict then "1" else "0") = utf8 "1") = isDict := by
    cases isDict <;> decide
  simp only [parseSavedList, splitOn_savedData, splitFlags_flagData, hentries, hexplode, hdict,
    fromUtf8Lossy_utf8]

/-- Writing `$SAVEDLISTS` out and reading it back keeps the bytes of its records. -/
theorem toBytes_reload {db : ListState} {saved : Map String Record} {name : String} {data : Bytes}
    (hsaved : db.savedLists = .ok saved) (hname : saved[name]?.map Record.toBytes = some data)
    (times : Nat) : ∃ saved', (ListState.reload^[times] db).savedLists = .ok saved' ∧
      saved'[name]?.map Record.toBytes = some data := by
  induction times with
  | zero => exact ⟨saved, hsaved, hname⟩
  | succ times ih =>
    obtain ⟨saved', hsaved', hname'⟩ := ih
    refine ⟨saved'.map fun _ record => record.stored, ?_, ?_⟩
    · rw [Function.iterate_succ_apply', ListState.reload, hsaved']
      rfl
    · rw [Std.ExtTreeMap.getElem?_map, Option.map_map, ← hname']
      congr 1
      exact funext Record.toBytes_stored

theorem second_typed (verb name : String) (rest : List String) :
    (verb :: name :: rest)[1]? = some name := rfl

theorem handleGetList_of_data {db : ListState} {saved : Map String Record} {name : String}
    {list : SelectList} (verb : String) (rest : List String) (h : list.Sized)
    (hsaved : db.savedLists = .ok saved)
    (hname : saved[name]?.map Record.toBytes = some (savedData list)) :
    (handleGetList db (verb :: name :: rest)).2 = { db with activeSelectList := some list } := by
  obtain ⟨record, hrecord, hbytes⟩ := Option.map_eq_some_iff.mp hname
  rw [handleGetList, second_typed]
  dsimp only
  rw [hsaved]
  dsimp only
  rw [hrecord]
  dsimp only
  rw [hbytes, parseSavedList_savedData h]

/-- `GET-LIST` after `SAVE-LIST` is the list that was saved, however often `$SAVEDLISTS` has been
written out and read back in between. -/
theorem getList_saveList {db : ListState} {saved : Map String Record} {list : SelectList}
    (verb verb' name : String) (rest rest' : List String) (reloads : Nat) (h : list.Sized)
    (hactive : db.activeSelectList = some list) (hsaved : db.savedLists = .ok saved) :
    (handleGetList (ListState.reload^[reloads] (handleSaveList db (verb :: name :: rest)).2)
      (verb' :: name :: rest')).2.activeSelectList = some list := by
  have hsave : (handleSaveList db (verb :: name :: rest)).2.savedLists =
      .ok (saved.insert name (Record.fromBytes (savedData list))) := by
    rw [handleSaveList, second_typed]
    dsimp only
    rw [hactive]
    dsimp only
    rw [hsaved]
  have hname : (saved.insert name (Record.fromBytes (savedData list)))[name]?.map Record.toBytes =
      some (savedData list) := by
    rw [getElem?_insert_eq, if_pos rfl, Option.map_some, Record.toBytes_fromBytes]
  obtain ⟨saved', hsaved', hname'⟩ := toBytes_reload hsave hname reloads
  rw [handleGetList_of_data verb' rest' h hsaved' hname']

section

/-- Two values of an exploded field, and a record without a name. -/
def exploded : SelectList where
  tableName := "ORDERS"
  isDict := false
  explodeField := some ""
  entries := [{ key := "1001", position := some { value := 2, subValue := some 0 } },
    { key := "1001", position := some { value := 3 } }, { key := "" }]

theorem exploded_saved : (handleGetList (ListState.reload^[1]
    (handleSaveList { activeSelectList := some exploded, savedLists := .ok ∅ }
      ["SAVE-LIST", "LATE"]).2) ["GET-LIST", "LATE"]).2.activeSelectList = some exploded := by
  refine getList_saveList "SAVE-LIST" "GET-LIST" "LATE" [] [] 1 ?_ rfl rfl
  intro e he pos hpos
  simp only [exploded, List.mem_cons, List.not_mem_nil, or_false] at he
  rcases he with rfl | rfl | rfl
  · obtain rfl := Option.some.inj hpos
    exact ⟨by decide, fun sub hsub => Option.some.inj hsub ▸ by decide⟩
  · obtain rfl := Option.some.inj hpos
    exact ⟨by decide, fun sub hsub => nomatch hsub⟩
  · cases hpos

end

end RustyPick
