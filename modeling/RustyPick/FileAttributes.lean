import RustyPick.StateFile

/-!
# RustyPick.FileAttributes

What an account's `DIR` says about one of its files (`db/models.rs`).

An entry is a record like any other: it may have been edited by hand, and what it says that cannot
be read reads as the default.

* `of_toRecord`: attributes as a command gives them come back from the entry they are written to.
-/

namespace RustyPick

open Lib

def MAX_VISIBILITY_SECONDS : Nat := 86400

def MAX_DELIVERY_LIMIT : Nat := 1000

/-- A policy from the two `DIR` attributes, each falling back to the default when it is absent or
does not describe a number. -/
def QueuePolicy.fromAttributes (timeout deliveries : String) : QueuePolicy :=
  { visibility := (((parseU64 (trim timeout)).filter fun seconds => 0 < seconds).map fun seconds =>
      min seconds MAX_VISIBILITY_SECONDS * 1000).getD 60000
    maxDeliveries := (((parseU32 (trim deliveries)).filter fun count => 0 < count).map fun count =>
      min count MAX_DELIVERY_LIMIT).getD 5 }

/-- In milliseconds as a claim is held, in seconds as an attribute has it. -/
def QueuePolicy.visibilitySeconds (policy : QueuePolicy) : Nat := policy.visibility / 1000

/-- Where a directory file keeps its records. An empty path is the default place. -/
structure DirectoryPolicy where
  path : String := ""
  deriving DecidableEq, Repr

def DirectoryPolicy.explicitPath (policy : DirectoryPolicy) : Option String :=
  let path := trim policy.path
  if path = "" then none else some path

structure FileAttributes where
  durable : Bool := false
  queue : Option QueuePolicy := none
  directory : Option DirectoryPolicy := none
  autokey : Bool := false
  deriving DecidableEq, Repr

def DIR_TYPE_IDX : Nat := 0
def DIR_DURABLE_IDX : Nat := 1
def DIR_QUEUE_IDX : Nat := 2
def DIR_QUEUE_TIMEOUT_IDX : Nat := 3
def DIR_QUEUE_RETRIES_IDX : Nat := 4
def DIR_PATH_IDX : Nat := 5
def DIR_AUTOKEY_IDX : Nat := 6

def DIR_TYPE_FILE : String := "F"
def DIR_TYPE_DIRECTORY : String := "D"

/-- The marks between fields, values and sub-values, as they are shown. -/
def displayByte (b : UInt8) : UInt8 :=
  if b = FM then 94 else if b = VM then 93 else if b = SVM then 92 else b

/-- `get_field_display_string`. -/
def Record.fieldDisplay (record : Record) (idx : Nat) : String :=
  match record.fields[idx]? with
  | some field => fromUtf8Lossy (field.toBytes.map displayByte)
  | none => ""

/-- Upper case, as far as the words of an entry can tell: of the letters in them, only `S` has a
lower case beyond ASCII. -/
def upperLetter (c : Char) : Char := if c = 'ſ' then 'S' else c.toUpper

def upperWord (s : String) : String := String.ofList ((trim s).toList.map upperLetter)

/-- Whether the text of an attribute says yes. -/
def saysYes (text : String) : Bool :=
  upperWord text ∈ ["Y", "YES", "1", "TRUE", "DURABLE", "QUEUE"]

namespace FileAttributes

/-- `FileAttributes::of`. The type decides the rest: a directory file has no section to buffer
writes to and no order to claim from. -/
def of (record : Record) : FileAttributes :=
  if upperWord (record.fieldDisplay DIR_TYPE_IDX) = DIR_TYPE_DIRECTORY then
    { directory := some { path := trim (record.fieldDisplay DIR_PATH_IDX) } }
  else
    let isQueue := saysYes (record.fieldDisplay DIR_QUEUE_IDX)
    { durable := saysYes (record.fieldDisplay DIR_DURABLE_IDX)
      queue := if isQueue then
          some (QueuePolicy.fromAttributes (record.fieldDisplay DIR_QUEUE_TIMEOUT_IDX)
            (record.fieldDisplay DIR_QUEUE_RETRIES_IDX))
        else none
      autokey := saysYes (record.fieldDisplay DIR_AUTOKEY_IDX) && !isQueue }

def yesOrNothing (b : Bool) : String := if b then "Y" else ""

/-- The texts of the entry, in the order of its attributes. -/
def texts (a : FileAttributes) : List String :=
  [if a.directory.isSome then DIR_TYPE_DIRECTORY else DIR_TYPE_FILE,
    yesOrNothing a.durable, yesOrNothing a.queue.isSome,
    (a.queue.map fun policy => toString policy.visibilitySeconds).getD "",
    (a.queue.map fun policy => toString policy.maxDeliveries).getD "",
    (a.directory.map DirectoryPolicy.path).getD "", yesOrNothing a.autokey]

/-- `FileAttributes::to_record`. -/
def toRecord (a : FileAttributes) : Record :=
  { fields := a.texts.map fun text => { values := [Value.text text] } }

def isDirectory (a : FileAttributes) : Bool := a.directory.isSome

end FileAttributes

/-! ## An entry read back -/

theorem displayByte_utf8 {s : String} {b : UInt8} (h : b ∈ utf8 s) : displayByte b = b := by
  have hne : ∀ mark : UInt8, 0xF8 ≤ mark.toNat → b ≠ mark :=
    fun mark hmark heq => mark_not_mem_utf8 hmark (heq ▸ h)
  unfold displayByte
  rw [if_neg (hne FM (by decide)), if_neg (hne VM (by decide)), if_neg (hne SVM (by decide))]

/-- A field of one text shows that text. -/
theorem fieldDisplay_text {record : Record} {idx : Nat} {text : String}
    (h : record.fields[idx]? = some { values := [Value.text text] }) :
    record.fieldDisplay idx = text := by
  have hmap : (utf8 text).map displayByte = utf8 text := by
    conv_rhs => rw [← List.map_id (utf8 text)]
    exact List.map_congr_left fun b hb => displayByte_utf8 hb
  unfold Record.fieldDisplay
  rw [h]
  simp only [Field.toBytes, Value.toBytes, Value.text, List.map_cons, List.map_nil]
  rw [show [VM].intercalate [[SVM].intercalate [utf8 text]] = utf8 text by
    simp [List.intercalate], hmap, fromUtf8Lossy_utf8]

namespace FileAttributes

/-- What a command can give a file: a directory file is nothing else, a queue mints its own keys,
and a policy is in whole seconds and within its limits. -/
structure Stated (a : FileAttributes) : Prop where
  directory : ∀ policy, a.directory = some policy →
    a.durable = false ∧ a.queue = none ∧ a.autokey = false ∧ trim policy.path = policy.path
  queue : ∀ policy, a.queue = some policy → a.autokey = false ∧
    (∃ seconds, 0 < seconds ∧ seconds ≤ MAX_VISIBILITY_SECONDS ∧
      policy.visibility = seconds * 1000) ∧
    0 < policy.maxDeliveries ∧ policy.maxDeliveries ≤ MAX_DELIVERY_LIMIT

theorem saysYes_yesOrNothing (b : Bool) : saysYes (yesOrNothing b) = b := by
  cases b <;> decide +kernel

theorem fieldDisplay_toRecord (a : FileAttributes) (idx : Nat) (text : String)
    (h : a.texts[idx]? = some text) : a.toRecord.fieldDisplay idx = text := by
  apply fieldDisplay_text
  rw [toRecord, List.getElem?_map, h]
  rfl

theorem of_toRecord {a : FileAttributes} (h : a.Stated) : of a.toRecord = a := by
  have hdisplay := a.fieldDisplay_toRecord
  obtain ⟨durable, queue, directory, autokey⟩ := a
  cases directory with
  | some policy =>
    obtain ⟨rfl, rfl, rfl, hpath⟩ := h.directory policy rfl
    unfold of
    rw [hdisplay DIR_TYPE_IDX DIR_TYPE_DIRECTORY rfl, hdisplay DIR_PATH_IDX policy.path rfl,
      if_pos (by decide +kernel), hpath]
  | none =>
    unfold of
    rw [hdisplay DIR_TYPE_IDX DIR_TYPE_FILE rfl, hdisplay DIR_DURABLE_IDX _ rfl,
      hdisplay DIR_QUEUE_IDX _ rfl, hdisplay DIR_AUTOKEY_IDX _ rfl,
      hdisplay DIR_QUEUE_TIMEOUT_IDX _ rfl, hdisplay DIR_QUEUE_RETRIES_IDX _ rfl,
      if_neg (by decide +kernel)]
    simp only [saysYes_yesOrNothing]
    cases queue with
    | none => simp
    | some policy =>
      obtain ⟨hauto, ⟨seconds, hpos, hle, hvis⟩, hdpos, hdle⟩ := h.queue policy rfl
      obtain ⟨visibility, maxDeliveries⟩ := policy
      dsimp only at hauto hvis hdpos hdle
      subst hauto hvis
      have hseconds : parseU64 (trim (toString seconds)) = some seconds := by
        rw [trim_repr, parseU64_repr (hle.trans (by decide))]
      have hdeliveries : parseU32 (trim (toString maxDeliveries)) = some maxDeliveries := by
        rw [parseU32, trim_repr, parseU64_repr (hdle.trans (by decide))]
        simp [Option.filter, hdle.trans (show MAX_DELIVERY_LIMIT ≤ u32Max by decide)]
      have hvisible : seconds * 1000 / 1000 = seconds := Nat.mul_div_cancel _ (by decide)
      simp only [QueuePolicy.fromAttributes, QueuePolicy.visibilitySeconds, Option.map_some,
        Option.getD_some, hvisible, hseconds, hdeliveries]
      simp [Option.filter, hpos, hdpos, hle, hdle]

end FileAttributes

end RustyPick
