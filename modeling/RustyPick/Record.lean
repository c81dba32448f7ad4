import RustyPick.Text

/-!
# RustyPick.Record

The record model (`db/models.rs`): a record is a list of fields, a field a list of values, a value
a list of sub-values, and a sub-value raw bytes. On disk the four tiers are one byte string, the
pieces joined by the marks `FM`, `VM` and `SVM`.

`toBytes_fromBytes` is the direction of the codec that holds for every byte string: what is read
writes back as it was. `Record.stored` is what a record reads back as after it has been written;
`stored_stored` says a second trip changes nothing more.
-/

namespace RustyPick

/-- Field mark. -/
def FM : UInt8 := 254
/-- Value mark. -/
def VM : UInt8 := 253
/-- Sub-value mark. -/
def SVM : UInt8 := 252

structure Value where
  subValues : List Bytes := []
  deriving DecidableEq, Repr

structure Field where
  values : List Value := []
  deriving DecidableEq, Repr

structure Record where
  fields : List Field := []
  deriving DecidableEq, Repr

/-- Bytes as text, replacing what is not valid UTF-8. -/
def textOf (b : Bytes) : String := fromUtf8Lossy b

namespace Value

/-- A value holding one sub-value of text. -/
def text (s : String) : Value := { subValues := [utf8 s] }

/-- The first sub-value as text, or `none` when the value is empty. -/
def firstText (v : Value) : Option String := v.subValues.head?.map textOf

/-- The first sub-value's bytes, or nothing. -/
def firstBytes (v : Value) : Bytes := v.subValues.head?.getD []

def toBytes (v : Value) : Bytes := [SVM].intercalate v.subValues

def fromBytes (b : Bytes) : Value := { subValues := b.splitOn SVM }

end Value

/-- A record of one attribute, of one text. -/
def Record.text (s : String) : Record := { fields := [{ values := [Value.text s] }] }

namespace Field

def toBytes (f : Field) : Bytes := [VM].intercalate (f.values.map Value.toBytes)

def fromBytes (b : Bytes) : Field := { values := (b.splitOn VM).map Value.fromBytes }

end Field

namespace Record

/-- The record as it is stored: sub-values joined by `SVM`, values by `VM`, fields by `FM`. -/
def toBytes (r : Record) : Bytes := [FM].intercalate (r.fields.map Field.toBytes)

def fromBytes (b : Bytes) : Record :=
  if b = [] then {} else { fields := (b.splitOn FM).map Field.fromBytes }

end Record

theorem Value.toBytes_fromBytes (b : Bytes) : (Value.fromBytes b).toBytes = b := by
  simp [Value.toBytes, Value.fromBytes, List.intercalate_splitOn]

theorem Field.toBytes_fromBytes (b : Bytes) : (Field.fromBytes b).toBytes = b := by
  have h : Value.toBytes ∘ Value.fromBytes = id := funext Value.toBytes_fromBytes
  simp [Field.toBytes, Field.fromBytes, h, List.intercalate_splitOn]

namespace Record

theorem toBytes_fromBytes (b : Bytes) : (fromBytes b).toBytes = b := by
  have h : Field.toBytes ∘ Field.fromBytes = id := funext Field.toBytes_fromBytes
  unfold fromBytes
  split
  · rename_i hb
    subst hb; rfl
  · simp [toBytes, h, List.intercalate_splitOn]

/-- What the record reads back as once it has been written. -/
def stored (r : Record) : Record := fromBytes r.toBytes

@[simp] theorem toBytes_stored (r : Record) : r.stored.toBytes = r.toBytes :=
  toBytes_fromBytes _

@[simp] theorem stored_stored (r : Record) : r.stored.stored = r.stored := by
  rw [stored, toBytes_stored]; rfl

theorem stored_fromBytes (b : Bytes) : (fromBytes b).stored = fromBytes b := by
  rw [stored, toBytes_fromBytes]

end Record

end RustyPick
