import RustyPick.GroupFile

/-!
# RustyPick.Intent

A set of writes and deletes as it is put on disk before any of it is applied (`db/transaction.rs`).

`decode_encode`: an intent of at most `MAX_CHANGES` changes reads back, each record in its stored
form.
-/

namespace RustyPick

open Lib

/-- `b"SRPTXN01"`. -/
def TXN_MAGIC : Bytes := [0x53, 0x52, 0x50, 0x54, 0x58, 0x4E, 0x30, 0x31]

/-- Changes one transaction may carry. -/
def MAX_CHANGES : Nat := 1000

inductive ChangeOp where
  | write (record : Record)
  | delete
  deriving DecidableEq, Repr

/-- One write or delete of one record, or of one dictionary entry. -/
structure Change where
  file : String
  key : String
  isDict : Bool
  op : ChangeOp
  deriving DecidableEq, Repr

/-- What a change writes over. -/
def Change.target (c : Change) : String × String × Bool := (c.file, c.key, c.isDict)

structure Intent where
  account : String
  changes : List Change
  deriving DecidableEq, Repr

def OP_WRITE : UInt8 := 0
def OP_DELETE : UInt8 := 1
/-- Bit 0 of the flags: the change is against the dictionary. -/
def FLAG_DICT : UInt8 := 1

/-! ## Writing -/

def putBytes (bytes : Bytes) : Bytes := toLE 8 bytes.length ++ bytes

def encodeChange (c : Change) : Bytes :=
  [match c.op with | .write _ => OP_WRITE | .delete => OP_DELETE] ++
    ([if c.isDict then FLAG_DICT else 0] ++
      (putBytes (utf8 c.file) ++ (putBytes (utf8 c.key) ++
        match c.op with
        | .write record => putBytes record.toBytes
        | .delete => [])))

def encodeBody (account : String) (changes : List Change) : Bytes :=
  TXN_MAGIC ++ (putBytes (utf8 account) ++ (toLE 8 changes.length ++ changes.flatMap encodeChange))

def encode (account : String) (changes : List Change) : Bytes :=
  encodeBody account changes ++ toLE 4 (crc32c (encodeBody account changes)).toNat

/-! ## Reading -/

def readByte : Bytes → Option (UInt8 × Bytes)
  | [] => none
  | b :: rest => some (b, rest)

def readU64 (bytes : Bytes) : Option (Nat × Bytes) :=
  (takeExact 8 bytes).map fun (number, rest) => (ofLE number, rest)

def readSlice (bytes : Bytes) : Option (Bytes × Bytes) :=
  (readU64 bytes).bind fun (len, rest) => takeExact len rest

def readText (bytes : Bytes) : Option (String × Bytes) :=
  (readSlice bytes).bind fun (slice, rest) => (fromUtf8? slice).map fun text => (text, rest)

def decodeChange (bytes : Bytes) : Option (Change × Bytes) := do
  let (op, rest) ← readByte bytes
  let (flags, rest) ← readByte rest
  let (file, rest) ← readText rest
  let (key, rest) ← readText rest
  let (op, rest) ←
    if op = OP_WRITE then
      (readSlice rest).map fun (data, rest) => (ChangeOp.write (Record.fromBytes data), rest)
    else if op = OP_DELETE then some (ChangeOp.delete, rest)
    else none
  some ({ file := file, key := key, isDict := decide (flags &&& FLAG_DICT ≠ 0), op := op }, rest)

def decodeChanges : Nat → Bytes → Option (List Change × Bytes)
  | 0, bytes => some ([], bytes)
  | count + 1, bytes =>
    (decodeChange bytes).bind fun (change, rest) =>
      (decodeChanges count rest).map fun (changes, rest) => (change :: changes, rest)

/-- An intent whose checksum holds. -/
def decodeBody (body : Bytes) : Option Intent := do
  let (account, rest) ← readText (body.drop 8)
  let (count, rest) ← readU64 rest
  if count > MAX_CHANGES then none
  else
    let (changes, rest) ← decodeChanges count rest
    if rest = [] then some { account := account, changes := changes } else none

/-- What `encode` wrote, or `none` for anything that is not an intact intent. -/
def decode (bytes : Bytes) : Option Intent :=
  if bytes.length < 8 + 4 ∨ bytes.take 8 ≠ TXN_MAGIC then none
  else
    let body := bytes.take (bytes.length - 4)
    let trailer := bytes.drop (bytes.length - 4)
    if (crc32c body).toNat ≠ ofLE trailer then none else decodeBody body

/-! ## Round trip -/

/-- The change as it reads back. -/
def Change.stored (c : Change) : Change :=
  { c with op := match c.op with | .write record => .write record.stored | .delete => .delete }

@[simp] theorem Change.stored_target (c : Change) : c.stored.target = c.target := rfl

/-- Byte lengths a 64-bit process can hold. -/
def Change.Addressable (c : Change) : Prop :=
  (utf8 c.file).length < 2 ^ 64 ∧ (utf8 c.key).length < 2 ^ 64 ∧
    ∀ record, c.op = .write record → record.toBytes.length < 2 ^ 64

theorem readU64_append {n : Nat} (h : n < 2 ^ 64) (rest : Bytes) :
    readU64 (toLE 8 n ++ rest) = some (n, rest) := by
  simp [readU64, takeExact_append _ (length_toLE 8 n), ofLE_toLE_u64 h]

theorem readSlice_append {bytes : Bytes} (h : bytes.length < 2 ^ 64) (rest : Bytes) :
    readSlice (putBytes bytes ++ rest) = some (bytes, rest) := by
  simp [readSlice, putBytes, List.append_assoc, readU64_append h, takeExact_append _ rfl]

theorem readText_append {text : String} (h : (utf8 text).length < 2 ^ 64) (rest : Bytes) :
    readText (putBytes (utf8 text) ++ rest) = some (text, rest) := by
  simp [readText, readSlice_append h]

theorem decodeChange_append {c : Change} (h : c.Addressable) (rest : Bytes) :
    decodeChange (encodeChange c ++ rest) = some (c.stored, rest) := by
  obtain ⟨file, key, isDict, op⟩ := c
  obtain ⟨hf, hk, hd⟩ := h
  cases op with
  | write record =>
    simp [decodeChange, encodeChange, readByte, List.append_assoc, readText_append hf,
      readText_append hk, readSlice_append (hd record rfl), Change.stored, Record.stored]
    cases isDict <;> simp [FLAG_DICT]
  | delete =>
    have hne : ¬ OP_DELETE = OP_WRITE := by decide
    simp [decodeChange, encodeChange, readByte, List.append_assoc, readText_append hf,
      readText_append hk, Change.stored, hne]
    cases isDict <;> simp [FLAG_DICT]

theorem decodeChanges_append (changes : List Change) (h : ∀ c ∈ changes, c.Addressable)
    (rest : Bytes) :
    decodeChanges changes.length (changes.flatMap encodeChange ++ rest) =
      some (changes.map Change.stored, rest) := by
  induction changes with
  | nil => simp [decodeChanges]
  | cons c changes ih =>
    have hrest := ih fun c hc => h c (List.mem_cons_of_mem _ hc)
    simp [List.append_assoc, decodeChanges, decodeChange_append (h c List.mem_cons_self), hrest]

theorem decode_encode {account : String} {changes : List Change}
    (ha : (utf8 account).length < 2 ^ 64) (hn : changes.length ≤ MAX_CHANGES)
    (hc : ∀ c ∈ changes, c.Addressable) :
    decode (encode account changes) =
      some { account := account, changes := changes.map Change.stored } := by
  have hlen : (encode account changes).length = (encodeBody account changes).length + 4 := by
    simp [encode]
  have hmagic : (encode account changes).take 8 = TXN_MAGIC := by
    rw [encode, encodeBody, List.append_assoc]
    exact List.take_left' rfl
  have hbody : (encode account changes).take ((encode account changes).length - 4) =
      encodeBody account changes := by
    rw [hlen, Nat.add_sub_cancel, encode, List.take_left]
  have htrailer : (encode account changes).drop ((encode account changes).length - 4) =
      toLE 4 (crc32c (encodeBody account changes)).toNat := by
    rw [hlen, Nat.add_sub_cancel, encode, List.drop_left]
  have hshort : ¬ (encode account changes).length < 8 + 4 := by
    rw [hlen, encodeBody, List.length_append]
    have : TXN_MAGIC.length = 8 := rfl
    omega
  have hcrc : (crc32c (encodeBody account changes)).toNat < 256 ^ 4 := by
    simpa using (crc32c (encodeBody account changes)).toNat_lt
  have hcount : changes.length < 2 ^ 64 := lt_of_le_of_lt hn (by decide)
  have hdrop : (encodeBody account changes).drop 8 =
      putBytes (utf8 account) ++ (toLE 8 changes.length ++ (changes.flatMap encodeChange ++ [])) := by
    have hmagic : TXN_MAGIC.length = 8 := rfl
    rw [encodeBody, List.drop_left' hmagic, List.append_nil]
  simp only [decode, hshort, hmagic, hbody, htrailer, ne_eq, not_true_eq_false, or_self, if_false,
    ofLE_toLE_of_lt hcrc, decodeBody, hdrop, readText_append ha, readU64_append hcount,
    Option.bind_eq_bind, Option.bind_some, Nat.not_lt.mpr hn, gt_iff_lt,
    decodeChanges_append changes hc []]
  simp

end RustyPick
