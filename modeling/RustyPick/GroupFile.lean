import RustyPick.Error
import RustyPick.Record
import RustyPick.Lib.Bytes

/-!
# RustyPick.GroupFile

One group of a section as a file (`db/hashfile.rs`): a frame
`[key_len][key][data_len][data]` for each entry, then a trailer of a magic, the record count and a
CRC-32C of the frames.

* `readGroup_groupBytes`: a group whose entries are within the limits the reader sets reads back as
  its entries, each record in its stored form.
* `readGroup_oversize`: a group with an entry past those limits does not read back at all. The
  writer does not look at the limits.
-/

namespace RustyPick

open Lib

def MAX_KEY_LEN : Nat := 1024
def MAX_DATA_LEN : Nat := 100 * 1024 * 1024

/-- `b"SRPHFG01"`. -/
def GROUP_MAGIC : Bytes := [0x53, 0x52, 0x50, 0x48, 0x46, 0x47, 0x30, 0x31]

/-- Magic, record count and CRC-32C. -/
def TRAILER_LEN : Nat := 8 + 8 + 4

/-! ## CRC-32C -/

/-- One bit of the table's construction. -/
def crcBit (crc : UInt32) : UInt32 :=
  if crc &&& 1 ≠ 0 then (crc >>> 1) ^^^ 0x82F63B78 else crc >>> 1

/-- `CRC32C_TABLE[i]`. -/
def crcTable (i : UInt32) : UInt32 := Nat.iterate crcBit 8 i

def crcByte (crc : UInt32) (byte : UInt8) : UInt32 :=
  (crc >>> 8) ^^^ crcTable ((crc ^^^ byte.toUInt32) &&& 0xFF)

def crc32c (data : Bytes) : UInt32 := ~~~ (data.foldl crcByte 0xFFFFFFFF)

-- The check value the polynomial is published with.
example : crc32c (utf8 "123456789") = 0xE3069283 := by decide +kernel

/-- Exactly `w` lower-case hexadecimal digits. -/
def hexDigits : Nat → Nat → List Char
  | 0, _ => []
  | w + 1, n => hexDigits w (n / 16) ++ [Nat.digitChar (n % 16)]

/-- A number as `08x` formats it: at least eight digits. -/
def hex8 (n : Nat) : String := String.ofList (hexDigits (max 8 (n.log2 / 4 + 1)) n)

/-! ## Writing -/

def frame (key : String) (record : Record) : Bytes :=
  toLE 8 (utf8 key).length ++ (utf8 key ++ (toLE 8 record.toBytes.length ++ record.toBytes))

def frames (entries : List (String × Record)) : Bytes := entries.flatMap fun e => frame e.1 e.2

/-- The file `write_frames` puts in place for a group that is not empty. -/
def groupBytes (entries : List (String × Record)) : Bytes :=
  frames entries ++
    (GROUP_MAGIC ++ (toLE 8 entries.length ++ toLE 4 (crc32c (frames entries)).toNat))

/-! ## Reading -/

def corruptGroup (path detail : String) : IoError :=
  .invalidData ("Corrupt group file " ++ path ++ ": " ++ detail)

/-- Record count and checksum from the end of the file, if a trailer is there. -/
def readTrailer (file : Bytes) : Option (Nat × Nat) :=
  if file.length < TRAILER_LEN then none
  else
    let buf := file.drop (file.length - TRAILER_LEN)
    if buf.take 8 ≠ GROUP_MAGIC then none
    else some (ofLE ((buf.drop 8).take 8), ofLE (buf.drop 16))

/-- The frame loop. Fewer than eight bytes where a key length should be end it quietly; running out
anywhere else is an error. A frame takes at least sixteen bytes, so the length of the body is fuel
enough. -/
def readLoop (path : String) : Nat → Bytes → Except IoError (List (String × Record))
  | 0, _ => .ok []
  | fuel + 1, body =>
    match takeExact 8 body with
    | none => .ok []
    | some (lenBytes, rest) =>
      let keyLen := ofLE lenBytes
      if keyLen > MAX_KEY_LEN then
        .error (.invalidData ("Key too large: " ++ toString keyLen ++ " bytes in " ++ path))
      else
        match takeExact keyLen rest with
        | none => .error .unexpectedEof
        | some (keyBytes, rest) =>
          let key := fromUtf8Lossy keyBytes
          match takeExact 8 rest with
          | none => .error .unexpectedEof
          | some (dataLenBytes, rest) =>
            let dataLen := ofLE dataLenBytes
            if dataLen > MAX_DATA_LEN then
              .error (.invalidData ("Record too large: " ++ toString dataLen ++
                " bytes for key '" ++ key ++ "' in " ++ path))
            else
              match takeExact dataLen rest with
              | none => .error .unexpectedEof
              | some (data, rest) =>
                match readLoop path fuel rest with
                | .error e => .error e
                | .ok entries => .ok ((key, Record.fromBytes data) :: entries)

/-- `read_group`: the frames of one group file, checked against the trailer if there is one. A group
without a file holds nothing. -/
def readGroup (path : String) (file : Option Bytes) (requireTrailer : Bool) :
    Except IoError (List (String × Record)) :=
  match file with
  | none => .ok []
  | some file =>
    match readTrailer file with
    | none =>
      if requireTrailer then .error (corruptGroup path "trailer missing or truncated")
      else readLoop path (file.length + 1) file
    | some (expectedCount, expectedCrc) =>
      let body := file.take (file.length - TRAILER_LEN)
      match readLoop path (body.length + 1) body with
      | .error e => .error e
      | .ok entries =>
        let actual := (crc32c body).toNat
        if actual ≠ expectedCrc then
          .error (corruptGroup path ("checksum mismatch (" ++ hex8 actual ++ " != " ++
            hex8 expectedCrc ++ ")"))
        else if entries.length ≠ expectedCount then
          .error (corruptGroup path ("record count mismatch (" ++ toString entries.length ++
            " != " ++ toString expectedCount ++ ")"))
        else .ok entries

/-! ## Round trip -/

/-- Within the limits the reader sets. -/
def Fits (key : String) (record : Record) : Prop :=
  (utf8 key).length ≤ MAX_KEY_LEN ∧ record.toBytes.length ≤ MAX_DATA_LEN

instance (key : String) (record : Record) : Decidable (Fits key record) :=
  inferInstanceAs (Decidable (_ ∧ _))

/-- Lengths a `u64` can write, which every string and buffer in memory has. -/
def Addressable (key : String) (record : Record) : Prop :=
  (utf8 key).length < 2 ^ 64 ∧ record.toBytes.length < 2 ^ 64

theorem Fits.addressable {key : String} {record : Record} (h : Fits key record) :
    Addressable key record :=
  ⟨lt_of_le_of_lt h.1 (by decide), lt_of_le_of_lt h.2 (by decide)⟩

@[simp] theorem frames_nil : frames [] = [] := rfl

theorem frames_cons (key : String) (record : Record) (entries : List (String × Record)) :
    frames ((key, record) :: entries) = frame key record ++ frames entries := rfl

theorem length_frame (key : String) (record : Record) :
    (frame key record).length = 16 + (utf8 key).length + record.toBytes.length := by
  simp [frame]
  omega

theorem length_groupBytes (entries : List (String × Record)) :
    (groupBytes entries).length = (frames entries).length + TRAILER_LEN := by
  simp [groupBytes, GROUP_MAGIC, TRAILER_LEN]

theorem ofLE_toLE_u64 {n : Nat} (h : n < 2 ^ 64) : ofLE (toLE 8 n) = n := by
  apply ofLE_toLE_of_lt
  simpa using h

theorem readLoop_nil (path : String) (fuel : Nat) : readLoop path fuel [] = .ok [] := by
  cases fuel with
  | zero => rfl
  | succ fuel => simp [readLoop, takeExact]

/-- One turn of the loop over a frame that is within the limits. -/
theorem readLoop_frame {path : String} {fuel : Nat} {key : String} {record : Record} (rest : Bytes)
    (h : Fits key record) :
    readLoop path (fuel + 1) (frame key record ++ rest) =
      match readLoop path fuel rest with
      | .error e => .error e
      | .ok entries => .ok ((key, record.stored) :: entries) := by
  have hk : ¬ (utf8 key).length > MAX_KEY_LEN := Nat.not_lt.mpr h.1
  have hd : ¬ record.toBytes.length > MAX_DATA_LEN := Nat.not_lt.mpr h.2
  simp only [readLoop, frame, List.append_assoc, takeExact_append _ (length_toLE 8 _),
    ofLE_toLE_u64 h.addressable.1, ofLE_toLE_u64 h.addressable.2, takeExact_append _ rfl, hk, hd,
    if_false, fromUtf8Lossy_utf8]
  rfl

/-- One turn of the loop over a frame that is past them. -/
theorem readLoop_oversize {path : String} {fuel : Nat} {key : String} {record : Record}
    (rest : Bytes) (ha : Addressable key record) (h : ¬ Fits key record) :
    ∃ e, readLoop path (fuel + 1) (frame key record ++ rest) = .error e := by
  by_cases hk : (utf8 key).length > MAX_KEY_LEN
  · simp [readLoop, frame, List.append_assoc, takeExact_append _ (length_toLE 8 _),
      ofLE_toLE_u64 ha.1, hk]
  · have hd : record.toBytes.length > MAX_DATA_LEN := by
      by_contra hc
      exact h ⟨Nat.not_lt.mp hk, Nat.not_lt.mp hc⟩
    simp [readLoop, frame, List.append_assoc, takeExact_append _ (length_toLE 8 _),
      ofLE_toLE_u64 ha.1, ofLE_toLE_u64 ha.2, takeExact_append _ rfl, hk, hd]

/-- What the entries of a group read back as. -/
def storedEntries (entries : List (String × Record)) : List (String × Record) :=
  entries.map fun e => (e.1, e.2.stored)

theorem readLoop_frames (path : String) :
    ∀ (entries : List (String × Record)) (fuel : Nat), entries.length ≤ fuel →
      (∀ e ∈ entries, Fits e.1 e.2) →
      readLoop path fuel (frames entries) = .ok (storedEntries entries) := by
  intro entries
  induction entries with
  | nil => intro fuel _ _; exact readLoop_nil path fuel
  | cons e entries ih =>
    obtain ⟨key, record⟩ := e
    intro fuel hf hfit
    obtain ⟨fuel, rfl⟩ : ∃ f, fuel = f + 1 := ⟨fuel - 1, by simp at hf; omega⟩
    have hrest := ih fuel (by simpa using hf) fun e he => hfit e (List.mem_cons_of_mem _ he)
    rw [frames_cons, readLoop_frame _ (hfit _ List.mem_cons_self), hrest]
    rfl

theorem readLoop_frames_oversize (path : String) :
    ∀ (entries : List (String × Record)) (fuel : Nat), entries.length ≤ fuel →
      (∀ e ∈ entries, Addressable e.1 e.2) → (∃ e ∈ entries, ¬ Fits e.1 e.2) →
      ∃ err, readLoop path fuel (frames entries) = .error err := by
  intro entries
  induction entries with
  | nil => intro fuel _ _ h; simp at h
  | cons e entries ih =>
    obtain ⟨key, record⟩ := e
    intro fuel hf ha h
    obtain ⟨fuel, rfl⟩ : ∃ f, fuel = f + 1 := ⟨fuel - 1, by simp at hf; omega⟩
    rw [frames_cons]
    by_cases hfit : Fits key record
    · have hrest : ∃ e ∈ entries, ¬ Fits e.1 e.2 := by
        obtain ⟨e, he, hn⟩ := h
        rcases List.mem_cons.mp he with rfl | he
        · exact absurd hfit hn
        · exact ⟨e, he, hn⟩
      obtain ⟨err, herr⟩ :=
        ih fuel (by simpa using hf) (fun e he => ha e (List.mem_cons_of_mem _ he)) hrest
      exact ⟨err, by rw [readLoop_frame _ hfit, herr]⟩
    · exact readLoop_oversize _ (ha _ List.mem_cons_self) hfit

/-- Over the beginning of a frame and what follows it, the loop stops at once or has read the whole
frame. -/
theorem readLoop_torn {path : String} {fuel : Nat} {key : String} {record : Record}
    {body rest : Bytes} {entries : List (String × Record)} (ha : Addressable key record)
    (hb : body <+: frame key record ++ rest) (h : readLoop path (fuel + 1) body = .ok entries) :
    entries = [] ∨ ∃ body' entries', body = frame key record ++ body' ∧ body' <+: rest ∧
      readLoop path fuel body' = .ok entries' ∧ entries = (key, record.stored) :: entries' := by
  simp only [frame, List.append_assoc] at hb
  unfold readLoop at h
  rcases takeExact_of_prefix hb (length_toLE 8 _) with hn | ⟨b₁, rfl, hb₁, hs⟩
  · rw [hn] at h
    cases h
    exact Or.inl rfl
  simp only [hs, ofLE_toLE_u64 ha.1] at h
  split at h
  · cases h
  rcases takeExact_of_prefix hb₁ rfl with hn | ⟨b₂, rfl, hb₂, hs⟩
  · rw [hn] at h
    cases h
  simp only [hs, fromUtf8Lossy_utf8] at h
  rcases takeExact_of_prefix hb₂ (length_toLE 8 _) with hn | ⟨b₃, rfl, hb₃, hs⟩
  · rw [hn] at h
    cases h
  simp only [hs, ofLE_toLE_u64 ha.2] at h
  split at h
  · cases h
  rcases takeExact_of_prefix hb₃ rfl with hn | ⟨b₄, rfl, hb₄, hs⟩
  · rw [hn] at h
    cases h
  simp only [hs] at h
  split at h
  · cases h
  · rename_i entries' hrest
    cases h
    exact Or.inr ⟨b₄, entries', by simp [frame], hb₄, hrest, rfl⟩

/-- Frames cut off anywhere read as some of their entries, from the first on, if they read. -/
theorem readLoop_frames_torn {path : String} (entries : List (String × Record)) :
    ∀ {fuel : Nat} {body : Bytes} {read : List (String × Record)},
      (∀ e ∈ entries, Addressable e.1 e.2) → body <+: frames entries →
      readLoop path fuel body = .ok read → read <+: storedEntries entries := by
  induction entries with
  | nil =>
    intro fuel body read _ hb h
    rw [frames_nil, List.prefix_nil] at hb
    subst hb
    rw [readLoop_nil] at h
    cases h
    exact List.prefix_rfl
  | cons e entries ih =>
    intro fuel body read ha hb h
    obtain ⟨key, record⟩ := e
    rw [frames_cons] at hb
    cases fuel with
    | zero =>
      cases h
      exact List.nil_prefix
    | succ fuel =>
      rcases readLoop_torn (ha _ List.mem_cons_self) hb h with rfl | ⟨b, es, -, hb, hes, rfl⟩
      · exact List.nil_prefix
      · have := ih (fun e he => ha e (List.mem_cons_of_mem _ he)) hb hes
        simpa [storedEntries] using this

/-- There are at least as many bytes as frames. -/
theorem length_le_length_frames (entries : List (String × Record)) :
    entries.length ≤ (frames entries).length := by
  induction entries with
  | nil => simp
  | cons e entries ih =>
    rw [frames_cons, List.length_append, length_frame, List.length_cons]
    omega

theorem readTrailer_groupBytes {entries : List (String × Record)} (hn : entries.length < 2 ^ 64) :
    readTrailer (groupBytes entries) =
      some (entries.length, (crc32c (frames entries)).toNat) := by
  have hlen : ¬ (groupBytes entries).length < TRAILER_LEN := by rw [length_groupBytes]; omega
  have hdrop : (groupBytes entries).drop ((groupBytes entries).length - TRAILER_LEN) =
      GROUP_MAGIC ++ (toLE 8 entries.length ++ toLE 4 (crc32c (frames entries)).toNat) := by
    rw [length_groupBytes, Nat.add_sub_cancel, groupBytes, List.drop_left]
  have hmagic : GROUP_MAGIC.length = 8 := rfl
  have hcrc : (crc32c (frames entries)).toNat < 256 ^ 4 := by
    simpa using (crc32c (frames entries)).toNat_lt
  have h8 : ∀ b : Bytes, (GROUP_MAGIC ++ b).drop 8 = b := fun b => List.drop_left' hmagic
  have h16 : ∀ b : Bytes, (GROUP_MAGIC ++ b).drop 16 = b.drop 8 := fun b => by
    rw [← List.drop_drop (i := 8) (j := 8), h8]
  rw [readTrailer, if_neg hlen]
  simp only [hdrop, List.take_left' hmagic, h8, h16, ne_eq, not_true_eq_false, if_false,
    List.take_left' (length_toLE 8 _), List.drop_left' (length_toLE 8 _), ofLE_toLE_u64 hn,
    ofLE_toLE_of_lt hcrc]

theorem take_groupBytes (entries : List (String × Record)) :
    (groupBytes entries).take ((groupBytes entries).length - TRAILER_LEN) = frames entries := by
  rw [length_groupBytes, Nat.add_sub_cancel, groupBytes, List.take_left]

theorem readGroup_groupBytes {path : String} {entries : List (String × Record)} (require : Bool)
    (hn : entries.length < 2 ^ 64) (hfit : ∀ e ∈ entries, Fits e.1 e.2) :
    readGroup path (some (groupBytes entries)) require = .ok (storedEntries entries) := by
  have hle := length_le_length_frames entries
  have hloop := readLoop_frames path entries ((frames entries).length + 1) (by omega) hfit
  simp [readGroup, readTrailer_groupBytes hn, take_groupBytes, hloop, storedEntries]

theorem readGroup_oversize {path : String} {entries : List (String × Record)} (require : Bool)
    (hn : entries.length < 2 ^ 64) (ha : ∀ e ∈ entries, Addressable e.1 e.2)
    (h : ∃ e ∈ entries, ¬ Fits e.1 e.2) :
    ∃ err, readGroup path (some (groupBytes entries)) require = .error err := by
  have hle := length_le_length_frames entries
  obtain ⟨err, herr⟩ := readLoop_frames_oversize path entries
    ((frames entries).length + 1) (by omega) ha h
  exact ⟨err, by simp [readGroup, readTrailer_groupBytes hn, take_groupBytes, herr]⟩

/-! ## What a group can read as -/

theorem readLoop_stored {path : String} :
    ∀ (fuel : Nat) (body : Bytes) (entries : List (String × Record)),
      readLoop path fuel body = .ok entries → ∀ e ∈ entries, e.2.stored = e.2 := by
  intro fuel
  induction fuel with
  | zero => intro body entries h; cases h; simp
  | succ fuel ih =>
    intro body entries h
    simp only [readLoop] at h
    split at h
    · cases h; simp
    split at h
    · cases h
    split at h
    · cases h
    split at h
    · cases h
    split at h
    · cases h
    split at h
    · cases h
    split at h
    · cases h
    · rename_i rest hrest
      cases h
      intro e he
      rcases List.mem_cons.mp he with rfl | he
      · exact Record.stored_fromBytes _
      · exact ih _ _ hrest e he

/-- A record that was read is in its stored form. -/
theorem readGroup_stored {path : String} {file : Option Bytes} {require : Bool}
    {entries : List (String × Record)} (h : readGroup path file require = .ok entries) :
    ∀ e ∈ entries, e.2.stored = e.2 := by
  unfold readGroup at h
  split at h
  · cases h; simp
  split at h
  · split at h
    · cases h
    · exact readLoop_stored _ _ _ h
  · dsimp only at h
    split at h
    · cases h
    rename_i entries' hloop
    split at h
    · cases h
    split at h
    · cases h
    · cases h
      exact readLoop_stored _ _ _ hloop

end RustyPick
