import RustyPick.Intent
import RustyPick.MetaFile
import RustyPick.Lib.Readers

/-!
# RustyPick.CutFile

Files that were cut short or written past their end: an intent (`db/transaction.rs`) and the
metadata of a section (`db/hashfile.rs`).

An intent's checksum is its last four bytes, wherever the file ends, and the bytes before it are a
client's. `intent_frame`: no cut and no continuation of an intent is an intent, and not because of
the checksum.

Every field of the metadata may be missing from a file that an older build wrote, so the reader is
lenient about what it finds. `metaFile_cut`: it refuses every cut all the same, wherever it falls.
-/

namespace RustyPick

open Lib

/-! ## The readers of an intent -/

theorem stable_readByte : Stable readByte := by
  intro input value rest h more
  cases input with
  | nil => cases h
  | cons b input =>
    cases h
    rfl

theorem stable_readU64 : Stable readU64 := (stable_takeExact 8).map ofLE

theorem stable_readSlice : Stable readSlice := stable_readU64.bind stable_takeExact

theorem stable_readText : Stable readText := by
  refine stable_readSlice.bind
    (q := fun slice rest => (fromUtf8? slice).map fun text => (text, rest)) fun slice => ?_
  cases fromUtf8? slice with
  | none => exact Stable.fail
  | some text => exact Stable.pure text

/-- The operation a change names, and the record it writes. -/
def readOp (op : UInt8) : Reader UInt8 ChangeOp := fun rest =>
  if op = OP_WRITE then
    (readSlice rest).map fun (data, rest) => (ChangeOp.write (Record.fromBytes data), rest)
  else if op = OP_DELETE then some (ChangeOp.delete, rest)
  else none

theorem stable_readOp (op : UInt8) : Stable (readOp op) := by
  have hwrite := stable_readSlice.map fun data => ChangeOp.write (Record.fromBytes data)
  have hdelete : Stable fun rest : Bytes =>
      if op = OP_DELETE then some (ChangeOp.delete, rest) else none :=
    (Stable.pure ChangeOp.delete).ite Stable.fail
  exact hwrite.ite hdelete

/-- A change put together from what was read. -/
def changeOf (flags : UInt8) (file key : String) (what : ChangeOp) : Change :=
  { file := file, key := key, isDict := decide (flags &&& FLAG_DICT ≠ 0), op := what }

theorem decodeChange_eq (bytes : Bytes) :
    decodeChange bytes = (readByte bytes).bind fun op => (readByte op.2).bind fun flags =>
      (readText flags.2).bind fun file => (readText file.2).bind fun key =>
        (readOp op.1 key.2).bind fun what =>
          some (changeOf flags.1 file.1 key.1 what.1, what.2) := by
  simp only [decodeChange, readOp, changeOf, Option.bind_eq_bind]
  congr 1; funext op
  congr 1; funext flags
  congr 1; funext file
  congr 1; funext key
  split_ifs <;> rfl

theorem stable_decodeChange : Stable decodeChange := by
  rw [funext decodeChange_eq]
  exact stable_readByte.bind fun op => stable_readByte.bind fun flags =>
    stable_readText.bind fun file => stable_readText.bind fun key =>
      (stable_readOp op).bind fun what => Stable.pure (changeOf flags file key what)

theorem stable_decodeChanges (count : Nat) : Stable (decodeChanges count) := by
  induction count with
  | zero => exact Stable.pure []
  | succ count ih => exact stable_decodeChange.bind fun change => ih.map (change :: ·)

/-- The frames between the magic number and the checksum. -/
def readFrames : Reader UInt8 Intent := fun bytes =>
  (readText bytes).bind fun account => (readU64 account.2).bind fun count =>
    if count.1 > MAX_CHANGES then none
    else (decodeChanges count.1 count.2).map fun changes =>
      (Intent.mk account.1 changes.1, changes.2)

theorem stable_readFrames : Stable readFrames := by
  refine stable_readText.bind (q := fun account rest => (readU64 rest).bind fun count =>
    if count.1 > MAX_CHANGES then none
    else (decodeChanges count.1 count.2).map fun changes =>
      (Intent.mk account changes.1, changes.2))
    fun account => ?_
  refine stable_readU64.bind (q := fun count rest => if count > MAX_CHANGES then none
    else (decodeChanges count rest).map fun changes => (Intent.mk account changes.1, changes.2))
    fun count => ?_
  have hchanges := (stable_decodeChanges count).map fun changes => Intent.mk account changes
  exact Stable.fail.ite hchanges

/-- An intent is accepted when its frames end where the checksum starts. -/
theorem decodeBody_eq_some {body : Bytes} {intent : Intent} :
    decodeBody body = some intent ↔ readFrames (body.drop 8) = some (intent, []) := by
  simp only [decodeBody, readFrames, Option.bind_eq_bind, Option.bind_eq_some_iff]
  constructor
  · rintro ⟨⟨account, rest⟩, ha, ⟨count, rest'⟩, hcount, h⟩
    refine ⟨⟨account, rest⟩, ha, ⟨count, rest'⟩, hcount, ?_⟩
    split at h
    · cases h
    · rename_i hmax
      obtain ⟨⟨changes, left⟩, hchanges, h⟩ := Option.bind_eq_some_iff.mp h
      split at h
      · rename_i hleft
        cases h
        cases hleft
        rw [if_neg hmax, hchanges]
        rfl
      · cases h
  · rintro ⟨⟨account, rest⟩, ha, ⟨count, rest'⟩, hcount, h⟩
    refine ⟨⟨account, rest⟩, ha, ⟨count, rest'⟩, hcount, ?_⟩
    split at h
    · cases h
    · rename_i hmax
      obtain ⟨⟨changes, left⟩, hchanges, h⟩ := Option.map_eq_some_iff.mp h
      cases h
      rw [if_neg hmax, hchanges]
      rfl

/-! ## Cut and extended intents -/

/-- Whatever their checksum, the bytes of an intent hold its frames and nothing after them. -/
theorem frames_of_decode {bytes : Bytes} {intent : Intent} (h : decode bytes = some intent) :
    8 + 4 ≤ bytes.length ∧
      readFrames ((bytes.take (bytes.length - 4)).drop 8) = some (intent, []) := by
  unfold decode at h
  split at h
  · cases h
  · rename_i hshort
    push Not at hshort
    dsimp only at h
    split at h
    · cases h
    · exact ⟨hshort.1, decodeBody_eq_some.mp h⟩

theorem length_encode (account : String) (changes : List Change) :
    (encode account changes).length = (encodeBody account changes).length + 4 := by
  rw [encode, List.length_append, length_toLE]

theorem take_encode {account : String} {changes : List Change} {n : Nat}
    (h : n ≤ (encodeBody account changes).length) :
    (encode account changes).take n = (encodeBody account changes).take n := by
  rw [encode, List.take_append_of_le_length h]

section
variable {account : String} {changes : List Change} (ha : (utf8 account).length < 2 ^ 64)
  (hn : changes.length ≤ MAX_CHANGES) (hc : ∀ c ∈ changes, c.Addressable)

include ha hn hc

theorem readFrames_encodeBody :
    readFrames ((encodeBody account changes).drop 8) =
      some (⟨account, changes.map Change.stored⟩, []) := by
  have h := (frames_of_decode (decode_encode ha hn hc)).2
  rwa [length_encode, Nat.add_sub_cancel, take_encode (le_refl _), List.take_length] at h

theorem decode_cut {n : Nat} (h : n < (encode account changes).length) :
    decode ((encode account changes).take n) = none := by
  by_contra hsome
  obtain ⟨intent, hintent⟩ := Option.ne_none_iff_exists'.mp hsome
  obtain ⟨hlong, hframes⟩ := frames_of_decode hintent
  have hlen := length_encode account changes
  rw [List.length_take_of_le (le_of_lt h)] at hlong hframes
  rw [List.take_take, Nat.min_eq_left (Nat.sub_le _ _), take_encode (by omega)] at hframes
  -- What the cut took from the frames: at least one byte, since the checksum has only four.
  have hmore : ((encodeBody account changes).drop (n - 4)) ≠ [] := by
    rw [ne_eq, List.drop_eq_nil_iff]
    omega
  have hwhole := readFrames_encodeBody ha hn hc
  rw [← List.take_append_drop (n - 4) (encodeBody account changes),
    List.drop_append_of_le_length (by rw [List.length_take]; omega)] at hwhole
  exact stable_readFrames.not_cut hwhole hmore _ hframes

theorem decode_extended {extra : Bytes} (h : extra ≠ []) :
    decode (encode account changes ++ extra) = none := by
  by_contra hsome
  obtain ⟨intent, hintent⟩ := Option.ne_none_iff_exists'.mp hsome
  obtain ⟨hlong, hframes⟩ := frames_of_decode hintent
  have hlen := length_encode account changes
  have hpos := List.length_pos_iff.mpr h
  -- The last four bytes start after the frames, so some byte of what follows them is read as one.
  have hbody : (encode account changes ++ extra).take
      ((encode account changes ++ extra).length - 4) =
      encodeBody account changes ++
        (toLE 4 (crc32c (encodeBody account changes)).toNat ++ extra).take extra.length := by
    rw [List.length_append, hlen, encode, List.append_assoc,
      show (encodeBody account changes).length + 4 + extra.length - 4 =
        (encodeBody account changes).length + extra.length by omega, List.take_length_add_append]
  have hmore : (toLE 4 (crc32c (encodeBody account changes)).toNat ++ extra).take extra.length ≠
      [] := by
    rw [ne_eq, List.take_eq_nil_iff]
    rintro (hz | hz)
    · omega
    · exact h (List.append_eq_nil_iff.mp hz).2
  have hmagic : 8 ≤ (encodeBody account changes).length := by
    rw [encodeBody, List.length_append]
    exact Nat.le_add_right 8 _
  rw [hbody, List.drop_append_of_le_length hmagic] at hframes
  exact stable_readFrames.not_extended (readFrames_encodeBody ha hn hc) hmore _ hframes

end

/-- An intent reads back as what was written, and neither a cut of it nor anything it starts does
read back at all. -/
theorem intent_frame {account : String} {changes : List Change}
    (ha : (utf8 account).length < 2 ^ 64) (hn : changes.length ≤ MAX_CHANGES)
    (hc : ∀ c ∈ changes, c.Addressable) :
    decode (encode account changes) =
        some { account := account, changes := changes.map Change.stored } ∧
      (∀ n < (encode account changes).length, decode ((encode account changes).take n) = none) ∧
      ∀ extra ≠ [], decode (encode account changes ++ extra) = none :=
  ⟨decode_encode ha hn hc, fun _ => decode_cut ha hn hc, fun _ => decode_extended ha hn hc⟩

/-- A sale and the order it settles. -/
def saleChanges : List Change :=
  [{ file := "SALES", key := "7", isDict := false,
      op := .write { fields := [{ values := [Value.text "pen"] }] } },
    { file := "ORDERS", key := "7", isDict := false, op := .delete }]

theorem sale_frame :
    decode (encode "SHOP" saleChanges) =
        some { account := "SHOP", changes := saleChanges.map Change.stored } ∧
      (∀ n < (encode "SHOP" saleChanges).length,
        decode ((encode "SHOP" saleChanges).take n) = none) ∧
      ∀ extra ≠ [], decode (encode "SHOP" saleChanges ++ extra) = none :=
  intent_frame (by decide +kernel) (by decide) (by
    simp only [saleChanges, List.forall_mem_cons, List.not_mem_nil, false_implies, implies_true,
      and_true, Change.Addressable, ChangeOp.write.injEq, reduceCtorEq, forall_eq']
    decide +kernel)

/-! ## Cut metadata -/

theorem utf8_take {cs : List Char} (h : ∀ c ∈ cs, c.toNat < 0x80) (k : Nat) :
    (utf8 (String.ofList cs)).take k = utf8 (String.ofList (cs.take k)) := by
  rw [utf8_ascii h, utf8_ascii fun c hc => h c (List.mem_of_mem_take hc), List.map_take]

/-- Lines, each with the newline that ends it. -/
def joinLines (ls : List (List Char)) : List Char := ls.flatMap fun l => l ++ ['\n']

/-- A cut that ends with a newline falls between two lines. -/
theorem take_joinLines {ls : List (List Char)} (hplain : ∀ l ∈ ls, '\n' ∉ l) {k : Nat}
    (hlast : ((joinLines ls).take k).getLast? = some '\n') :
    ∃ j, (joinLines ls).take k = joinLines (ls.take j) := by
  induction ls generalizing k with
  | nil => simp [joinLines] at hlast
  | cons l ls ih =>
    have hcons : joinLines (l :: ls) = (l ++ ['\n']) ++ joinLines ls := by
      rw [joinLines, List.flatMap_cons]
      rfl
    rw [hcons] at hlast ⊢
    by_cases hk : k ≤ l.length
    · -- The cut falls inside the first line, which holds no newline.
      rw [List.append_assoc, List.take_append_of_le_length hk] at hlast
      exact absurd (List.mem_of_mem_take (List.mem_of_getLast? hlast))
        (hplain l List.mem_cons_self)
    · have htake : ((l ++ ['\n']) ++ joinLines ls).take k =
          (l ++ ['\n']) ++ (joinLines ls).take (k - (l.length + 1)) := by
        rw [List.take_append, List.take_of_length_le (by simp; omega)]
        simp
      rw [htake] at hlast ⊢
      by_cases hrest : (joinLines ls).take (k - (l.length + 1)) = []
      · refine ⟨1, ?_⟩
        rw [hrest, List.append_nil]
        simp [joinLines]
      · rw [List.getLast?_append_of_ne_nil _ hrest] at hlast
        obtain ⟨j, hj⟩ := ih (fun l' hl' => hplain l' (List.mem_cons_of_mem _ hl')) hlast
        refine ⟨j + 1, ?_⟩
        rw [hj, List.take_succ_cons, joinLines, joinLines, List.flatMap_cons]

/-- The lines of the file `write_meta` writes. -/
def metaLines (m : SectionMeta) : List (List Char) :=
  metaEntry "checksum" (hex8 (crc32c (utf8 (metaBody m))).toNat).toList :: bodyLines m

theorem digitChar_ascii {d : Nat} (h : d < 16) : (Nat.digitChar d).toNat < 0x80 := by
  interval_cases d <;> decide

theorem toDigits_ascii (n : Nat) : ∀ c ∈ (toString n).toList, c.toNat < 0x80 := by
  intro c hc
  have hl : (toString n).toList = Nat.toDigits 10 n := Nat.toList_repr
  rw [hl] at hc
  have hd := Nat.isDigit_of_mem_toDigits (by omega) (by omega) hc
  simp only [Char.isDigit, Bool.and_eq_true, decide_eq_true_eq, ge_iff_le, UInt32.le_iff_toNat_le]
    at hd
  exact lt_of_le_of_lt hd.2 (by simp)

theorem metaEntry_ascii {name : String} {value : List Char}
    (hname : name.toList.all fun c => c.toNat < 0x80) (hv : ∀ c ∈ value, c.toNat < 0x80) :
    ∀ c ∈ metaEntry name value, c.toNat < 0x80 := by
  intro c hc
  rw [metaEntry, List.mem_append, List.mem_cons] at hc
  rcases hc with hc | rfl | hc
  · simpa using List.all_eq_true.mp hname c hc
  · decide
  · exact hv c hc

theorem metaLines_spec (m : SectionMeta) :
    ∀ l ∈ metaLines m, ∀ c ∈ l, (c ≠ '\n' ∧ c ≠ '\r') ∧ c.toNat < 0x80 := by
  intro l hl c hc
  simp only [metaLines, bodyLines, List.mem_cons, List.not_mem_nil, or_false] at hl
  have hhex : ∀ c ∈ (hex8 (crc32c (utf8 (metaBody m))).toNat).toList, c.toNat < 0x80 := by
    intro c hc
    rw [hex8, String.toList_ofList] at hc
    obtain ⟨d, hd, rfl⟩ := mem_hexDigits hc
    exact digitChar_ascii hd
  rcases hl with rfl | rfl | rfl | rfl | rfl
  · exact ⟨metaEntry_plain (by decide) (plain_hex8 _) c hc, metaEntry_ascii (by decide) hhex c hc⟩
  all_goals
    exact ⟨metaEntry_plain (by decide) (plain_toDigits _) c hc,
      metaEntry_ascii (by simp) (toDigits_ascii _) c hc⟩

theorem metaText_ascii (m : SectionMeta) : ∀ c ∈ (metaText m).toList, c.toNat < 0x80 := by
  intro c hc
  rw [metaText_toList, List.mem_flatMap] at hc
  obtain ⟨l, hl, hc⟩ := hc
  rcases List.mem_append.mp hc with hc | hc
  · exact (metaLines_spec m l hl c hc).2
  · rw [List.mem_singleton.mp hc]
    decide

/-- The body without its last line. -/
def shortBody (m : SectionMeta) : String :=
  "version=" ++ toString m.version ++ "\nmodulus=" ++ toString m.modulus ++
    "\nrecords=" ++ toString m.records ++ "\n"

theorem shortBody_toList (m : SectionMeta) :
    (shortBody m).toList = joinLines ((bodyLines m).take 3) := by
  simp [shortBody, joinLines, bodyLines, metaEntry, String.toList_append]

section
variable {path : String} {m : SectionMeta}

/-- A cut that is not at the end of a line. -/
theorem readMetaChecked_midLine {cs : List Char} (h : cs.getLast? ≠ some '\n') :
    readMetaChecked path (some (utf8 (String.ofList cs))) =
      .error (corruptMeta path "truncated") := by
  simp [readMetaChecked, h]

/-- What the line loop has gathered after the checksum and the first `j` lines of the body. -/
theorem metaLoop_take (path : String) (h : m.Written) {j : Nat} (hj : j ≤ 3) :
    ∃ scan, metaLoop path {} ((metaLines m).take (j + 1)) = .ok scan ∧ scan.seen = j ∧
      scan.storedChecksum = some (crc32c (utf8 (metaBody m))).toNat ∧
      scan.body = joinLines ((bodyLines m).take j) := by
  obtain ⟨hv, hm, -, hr⟩ := h
  have hcrc : (crc32c (utf8 (metaBody m))).toNat < 2 ^ 32 := UInt32.toNat_lt _
  interval_cases j <;>
    simp only [metaLoop, metaLines, bodyLines, List.take_succ_cons, List.take_zero,
      metaLine_checksum hcrc, metaLine_number "version" (by decide) (by decide) hv,
      metaLine_number "modulus" (by decide) (by decide) hm,
      metaLine_number "records" (by decide) (by decide) hr] <;>
    simp [scanNumber, joinLines]

theorem readMetaChecked_cut (h : m.Written)
    (hcrc : crc32c (utf8 (shortBody m)) ≠ crc32c (utf8 (metaBody m))) {k : Nat}
    (hk : k < (metaBytes m).length) :
    ∃ e, readMetaChecked path (some ((metaBytes m).take k)) = .error e := by
  have hascii := metaText_ascii m
  have hbytes : (metaBytes m).take k = utf8 (String.ofList ((joinLines (metaLines m)).take k)) := by
    have htake := utf8_take hascii k
    rw [String.ofList_toList, metaText_toList] at htake
    exact htake
  have hlen : (joinLines (metaLines m)).length = (metaBytes m).length := by
    have hall := utf8_ascii hascii
    rw [String.ofList_toList, metaText_toList] at hall
    rw [metaBytes, hall, List.length_map]
    rfl
  rw [hbytes]
  by_cases hlast : ((joinLines (metaLines m)).take k).getLast? = some '\n'
  · obtain ⟨j, hj⟩ := take_joinLines (fun l hl hc => (metaLines_spec m l hl _ hc).1.1 rfl) hlast
    have hshort : j < 5 := by
      by_contra hge
      have hall : (metaLines m).take j = metaLines m := List.take_of_length_le (not_lt.mp hge)
      rw [hall] at hj
      have := congrArg List.length hj
      rw [List.length_take_of_le (by omega)] at this
      omega
    obtain ⟨j, rfl⟩ : ∃ i, j = i + 1 := by
      refine Nat.exists_eq_succ_of_ne_zero fun hz => ?_
      subst hz
      rw [hj] at hlast
      cases hlast
    have hlines : lines (joinLines ((metaLines m).take (j + 1))) = (metaLines m).take (j + 1) :=
      lines_of_plain fun l hl c hc => (metaLines_spec m l (List.mem_of_mem_take hl) c hc).1
    obtain ⟨scan, hloop, hseen, hstored, hbody⟩ := metaLoop_take path h (by omega : j ≤ 3)
    rw [hj] at hlast ⊢
    simp only [readMetaChecked, fromUtf8?_utf8, String.toList_ofList, hlast, hlines, hloop,
      ne_eq, not_true_eq_false, if_false]
    by_cases h3 : j = 3
    · subst h3
      have hshortBody : String.ofList scan.body = shortBody m := by
        rw [hbody, ← shortBody_toList, String.ofList_toList]
      have hne : (crc32c (utf8 (shortBody m))).toNat ≠ (crc32c (utf8 (metaBody m))).toNat :=
        fun hc => hcrc (UInt32.toNat_inj.mp hc)
      simp [metaFinish, hseen, hstored, hshortBody, hne]
    · simp [metaFinish, hseen, h3]
  · exact ⟨_, readMetaChecked_midLine hlast⟩

end

/-- The metadata of a section reads back as it was written, and no cut of it reads back at all
unless the cut body has the checksum of the whole one. -/
theorem metaFile_cut {path : String} {m : SectionMeta} (h : m.Written) :
    readMetaChecked path (some (metaBytes m)) = .ok (some m) ∧
      (crc32c (utf8 (shortBody m)) ≠ crc32c (utf8 (metaBody m)) →
        ∀ k < (metaBytes m).length,
          ∃ e, readMetaChecked path (some ((metaBytes m).take k)) = .error e) :=
  ⟨readMetaChecked_metaBytes h, fun hcrc _ => readMetaChecked_cut h hcrc⟩

/-- A section of nine records in eight groups. -/
def nineRecords : SectionMeta := { version := 4, modulus := 8, records := 9, checksums := true }

theorem nineRecords_cut :
    readMetaChecked "PARTS" (some (metaBytes nineRecords)) = .ok (some nineRecords) ∧
      ∃ e, readMetaChecked "PARTS" (some ((metaBytes nineRecords).take 20)) = .error e := by
  have hwritten : nineRecords.Written := by
    unfold SectionMeta.Written
    decide
  exact ⟨(metaFile_cut hwritten).1,
    (metaFile_cut hwritten).2 (by decide +kernel) 20 (by decide +kernel)⟩

end RustyPick
