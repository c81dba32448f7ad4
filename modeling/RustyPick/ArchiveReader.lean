import RustyPick.Archive

/-!
# RustyPick.ArchiveReader

Reading an archive (`archive::read`), and what each part of the reader takes off its source.

Each part has two lemmas: what it has taken when it succeeds, and that it succeeds where that
stands in front. `Consumes` ties the two to the running checksum and the running length, so that
neither the pieces the source arrives in nor what a sink reads of a body matters.

* `bounded_takes`: a record is taken whole, whatever the sink does with it.
* `readEntry_ok`: one pass of the loop takes the end of the file or one entry.
-/

namespace RustyPick

open Lib

namespace Archive

/-! ## What the reader takes -/

/-- The reader has taken `bytes` off its source and into its checksum. -/
structure Consumes (r : Reader) (bytes : Bytes) (r' : Reader) : Prop where
  content : r.source.content = bytes ++ r'.source.content
  failure : r'.source.failure = r.source.failure
  crc : r'.crc = bytes.foldl crcByte r.crc
  read : r'.read = r.read + bytes.length

theorem Consumes.trans {r r' r'' : Reader} {a b : Bytes} (h : Consumes r a r')
    (h' : Consumes r' b r'') : Consumes r (a ++ b) r'' where
  content := by rw [h.content, h'.content, List.append_assoc]
  failure := h'.failure.trans h.failure
  crc := by rw [h'.crc, h.crc, List.foldl_append]
  read := by rw [h'.read, h.read, List.length_append, Nat.add_assoc]

/-- What is left, where the bytes taken are known to be in front of it. -/
theorem Consumes.rest {r r' : Reader} {bytes rest : Bytes} (h : Consumes r bytes r')
    (hc : r.source.content = bytes ++ rest) : r'.source.content = rest :=
  List.append_cancel_left (h.content.symm.trans hc)

namespace Reader

theorem exactly_ok {r r' : Reader} {n : Nat} {what : String} {bytes : Bytes}
    (h : r.exactly n what = .ok (bytes, r')) : bytes.length = n ∧ Consumes r bytes r' := by
  unfold exactly at h
  rcases r.source.readExact_spec n with ⟨hle, s', hread, hc, hf⟩ | ⟨-, s', hread, -⟩
  · rw [hread] at h
    cases h
    have hlen : (r.source.content.take n).length = n := List.length_take_of_le hle
    refine ⟨hlen, ?_, hf, rfl, ?_⟩
    · rw [hc, List.take_append_drop]
    · rw [hlen]
  · rw [hread] at h
    cases h

theorem exactly_of_append {r : Reader} {bytes rest : Bytes} (what : String)
    (hc : r.source.content = bytes ++ rest) :
    ∃ r', r.exactly bytes.length what = .ok (bytes, r') ∧ Consumes r bytes r' := by
  have hok : ∃ bytes' r', r.exactly bytes.length what = .ok (bytes', r') := by
    unfold exactly
    rcases r.source.readExact_spec bytes.length with ⟨-, s', hread, -, -⟩ | ⟨hlt, -⟩
    · rw [hread]
      exact ⟨_, _, rfl⟩
    · rw [hc, List.length_append] at hlt
      omega
  obtain ⟨bytes', r', h⟩ := hok
  obtain ⟨hlen, hcons⟩ := exactly_ok h
  obtain rfl : bytes' = bytes := (List.append_inj (hcons.content.symm.trans hc) hlen).1
  exact ⟨r', h, hcons⟩

theorem byte_ok {r r' : Reader} {b : UInt8} (h : r.byte = .ok (b, r')) : Consumes r [b] r' := by
  unfold byte at h
  cases hread : r.exactly 1 "a record tag" with
  | error e => rw [hread] at h; cases h
  | ok got =>
    obtain ⟨bytes, r₁⟩ := got
    rw [hread] at h
    cases h
    obtain ⟨hlen, hcons⟩ := exactly_ok hread
    obtain ⟨a, rfl⟩ := List.length_eq_one_iff.mp hlen
    exact hcons

theorem byte_of_cons {r : Reader} {b : UInt8} {rest : Bytes}
    (hc : r.source.content = b :: rest) : ∃ r', r.byte = .ok (b, r') ∧ Consumes r [b] r' := by
  obtain ⟨r', h, hcons⟩ := exactly_of_append "a record tag"
    (show r.source.content = [b] ++ rest from hc)
  exact ⟨r', by rw [byte, show (1 : Nat) = [b].length from rfl, h]; rfl, hcons⟩

theorem length_ok {r r' : Reader} {what : String} {n : Nat} (h : r.length what = .ok (n, r')) :
    n < 2 ^ 64 ∧ Consumes r (toLE 8 n) r' := by
  unfold length at h
  cases hread : r.exactly 8 ("the length of " ++ what) with
  | error e => rw [hread] at h; cases h
  | ok got =>
    obtain ⟨bytes, r₁⟩ := got
    rw [hread] at h
    cases h
    obtain ⟨hlen, hcons⟩ := exactly_ok hread
    have hback : toLE 8 (ofLE bytes) = bytes := hlen ▸ toLE_ofLE bytes
    have hlt : ofLE bytes < 2 ^ 64 := by
      have := ofLE_lt bytes
      rw [hlen] at this
      exact this
    exact ⟨hlt, hback.symm ▸ hcons⟩

theorem length_of_append {r : Reader} {n : Nat} {rest : Bytes} (what : String) (hn : n < 2 ^ 64)
    (hc : r.source.content = toLE 8 n ++ rest) :
    ∃ r', r.length what = .ok (n, r') ∧ Consumes r (toLE 8 n) r' := by
  obtain ⟨r', h, hcons⟩ := exactly_of_append ("the length of " ++ what) hc
  rw [length_toLE] at h
  refine ⟨r', ?_, hcons⟩
  rw [length, h]
  simp only [Except.map, ofLE_toLE_of_lt (show n < 256 ^ 8 from hn)]

end Reader

/-- A length and the bytes it is of. -/
def blob (bytes : Bytes) : Bytes := toLE 8 bytes.length ++ bytes

namespace Reader

theorem key_ok {r r' : Reader} {key : String} (h : r.key = .ok (key, r')) :
    (utf8 key).length ≤ MAX_KEY_BYTES ∧ Consumes r (blob (utf8 key)) r' := by
  unfold Reader.key at h
  split at h
  · cases h
  · rename_i len r₁ hlen
    split at h
    · cases h
    · rename_i hmax
      split at h
      · cases h
      · rename_i bytes r₂ hbytes
        split at h
        · cases h
        · rename_i key' hkey
          cases h
          obtain ⟨-, hcons₁⟩ := length_ok hlen
          obtain ⟨hl, hcons₂⟩ := exactly_ok hbytes
          rw [utf8_of_fromUtf8? hkey, blob, hl]
          exact ⟨Nat.le_of_not_lt hmax, hcons₁.trans hcons₂⟩

theorem key_of_append {r : Reader} {key : String} {rest : Bytes}
    (hmax : (utf8 key).length ≤ MAX_KEY_BYTES)
    (hc : r.source.content = blob (utf8 key) ++ rest) :
    ∃ r', r.key = .ok (key, r') ∧ Consumes r (blob (utf8 key)) r' := by
  rw [blob, List.append_assoc] at hc
  obtain ⟨r₁, hlen, hcons₁⟩ := length_of_append "a key" (hmax.trans_lt (by decide)) hc
  obtain ⟨r₂, hbytes, hcons₂⟩ := exactly_of_append "a key" (hcons₁.rest hc)
  refine ⟨r₂, ?_, hcons₁.trans hcons₂⟩
  simp only [Reader.key, hlen, if_neg (Nat.not_lt.mpr hmax), hbytes, fromUtf8?_utf8]

theorem document_ok {T : Type} {r r' : Reader} {parse : Bytes → Except String T} {what : String}
    {doc : T} (h : r.document parse what = .ok (doc, r')) :
    ∃ bytes, bytes.length ≤ MAX_DOCUMENT_BYTES ∧ parse bytes = .ok doc ∧
      Consumes r (blob bytes) r' := by
  unfold document at h
  split at h
  · cases h
  · rename_i len r₁ hlen
    split at h
    · cases h
    · rename_i hmax
      split at h
      · cases h
      · rename_i bytes r₂ hbytes
        split at h
        · cases h
        · rename_i doc' hdoc
          cases h
          obtain ⟨-, hcons₁⟩ := length_ok hlen
          obtain ⟨hl, hcons₂⟩ := exactly_ok hbytes
          subst hl
          exact ⟨bytes, Nat.le_of_not_lt hmax, hdoc, hcons₁.trans hcons₂⟩

theorem document_of_append {T : Type} {r : Reader} {parse : Bytes → Except String T} {doc : T}
    {bytes rest : Bytes} (what : String) (hmax : bytes.length ≤ MAX_DOCUMENT_BYTES)
    (hparse : parse bytes = .ok doc) (hc : r.source.content = blob bytes ++ rest) :
    ∃ r', r.document parse what = .ok (doc, r') ∧ Consumes r (blob bytes) r' := by
  rw [blob, List.append_assoc] at hc
  obtain ⟨r₁, hlen, hcons₁⟩ := length_of_append what (hmax.trans_lt (by decide)) hc
  obtain ⟨r₂, hbytes, hcons₂⟩ := exactly_of_append what (hcons₁.rest hc)
  refine ⟨r₂, ?_, hcons₁.trans hcons₂⟩
  simp only [document, hlen, if_neg (Nat.not_lt.mpr hmax), hbytes, hparse]

section

variable {σ : Type} {body : Reading UInt8 IoError (Except DbError Unit × σ)}

/-- What the sink took and what was drained after it, together. -/
theorem bounded_takes (body : Reading UInt8 IoError (Except DbError Unit × σ)) (r : Reader)
    (len : Nat) :
    (len ≤ r.source.content.length ∧
      ∃ r', Consumes r (r.source.content.take len) r' ∧
        r.bounded len body = match (body.run len r.source).1 with
          | (.error e, st) => (.error e, st)
          | (.ok (), st) => (.ok r', st)) ∨
    (r.source.content.length < len ∧ ∃ e st, r.bounded len body = (.error e, st)) := by
  obtain ⟨hc, hlen, hf⟩ := body.run_spec len r.source
  unfold bounded
  generalize body.run len r.source = run at hc hlen hf
  obtain ⟨⟨outcome, st⟩, taken, left, source⟩ := run
  dsimp only at hc hlen hf ⊢
  have hcl : r.source.content.length = taken.length + source.content.length := by
    rw [hc, List.length_append]
  rcases source.take_spec (show 0 < CHUNK by decide) left with
    ⟨hle, s', htake, hc', hf'⟩ | ⟨hlt, s', htake, -⟩
  · have hboth : r.source.content.take len = taken ++ source.content.take left := by
      rw [hc, List.take_append, List.take_of_length_le (by omega)]
      congr 2
      omega
    refine Or.inl ⟨by omega,
      { source := s'
        crc := (taken ++ source.content.take left).foldl crcByte r.crc
        read := r.read + (taken ++ source.content.take left).length }, ?_, ?_⟩
    · refine ⟨?_, hf'.trans hf, by rw [hboth], by rw [hboth]⟩
      change r.source.content = r.source.content.take len ++ s'.content
      rw [hboth, hc', List.append_assoc, List.take_append_drop, ← hc]
    · rw [htake]
      cases outcome with
      | error e => rfl
      | ok u => rfl
  · refine Or.inr ⟨by omega, ?_⟩
    rw [htake]
    cases outcome with
    | error e => exact ⟨e, st, rfl⟩
    | ok u => exact ⟨_, st, rfl⟩

theorem bounded_ok {r r' : Reader} {len : Nat} {st : σ}
    (h : r.bounded len body = (.ok r', st)) :
    ∃ bytes : Bytes, bytes.length = len ∧ Consumes r bytes r' := by
  rcases bounded_takes body r len with ⟨hle, r₁, hcons, hb⟩ | ⟨-, e, st', hb⟩
  · rw [hb] at h
    split at h
    · cases h
    · cases h
      exact ⟨_, List.length_take_of_le hle, hcons⟩
  · rw [hb] at h
    cases h

theorem bounded_of_append {r : Reader} {bytes rest : Bytes} {st : σ}
    (hc : r.source.content = bytes ++ rest)
    (hrun : (body.run bytes.length r.source).1 = (.ok (), st)) :
    ∃ r', r.bounded bytes.length body = (.ok r', st) ∧ Consumes r bytes r' := by
  rcases bounded_takes body r bytes.length with ⟨-, r', hcons, hb⟩ | ⟨hlt, -⟩
  · rw [hc, List.take_left] at hcons
    rw [hrun] at hb
    exact ⟨r', hb, hcons⟩
  · rw [hc, List.length_append] at hlt
    omega

end

end Reader

/-! ## The frame -/


/-- One entry of a file, in either of its sections. -/
structure Item where
  kind : RecordKind
  key : String
  bytes : Bytes
  deriving DecidableEq, Repr

/-- Lengths a writer can state. -/
structure Item.Fits (item : Item) : Prop where
  key : (utf8 item.key).length < 2 ^ 64
  bytes : item.bytes.length < 2 ^ 64

def itemBytes (item : Item) : Bytes :=
  item.kind.tag :: (blob (utf8 item.key) ++ blob item.bytes)

def fileBytes (items : List Item) : Bytes := items.flatMap itemBytes ++ [TAG_END_OF_FILE]

/-- Every byte the checksum is over. -/
def frame (manifest : Bytes) (files : List (List Item)) (trailer : Bytes) : Bytes :=
  MAGIC ++ (blob manifest ++ (files.flatMap fileBytes ++ TAG_END_OF_ARCHIVE :: blob trailer))

/-- An archive: the frame and its checksum. -/
def sealed (frame : Bytes) : Bytes := frame ++ toLE 4 (crc32c frame).toNat

theorem kindOf_eq_some {tag : UInt8} {kind : RecordKind} (h : kindOf tag = some kind) :
    kind.tag = tag := by
  unfold kindOf at h
  split at h
  · rename_i ht
    cases h
    exact ht.symm
  · split at h
    · rename_i ht
      cases h
      exact ht.symm
    · cases h

theorem kindOf_tag (kind : RecordKind) : kindOf kind.tag = some kind := by cases kind <;> rfl

theorem tag_ne_end (kind : RecordKind) : kind.tag ≠ TAG_END_OF_FILE := by cases kind <;> decide

/-- What one pass of the loop takes: the end of the file, or one entry whose key is not too long. -/
theorem readEntry_ok {σ : Type} {sink : Sink σ} {entry : FileEntry} {st st' : σ} {r r' : Reader}
    {ended : Bool} (h : readEntry sink entry st r = (.ok (ended, r'), st')) :
    (ended = true ∧ Consumes r [TAG_END_OF_FILE] r') ∨
    (ended = false ∧ ∃ item : Item, item.Fits ∧ (utf8 item.key).length ≤ MAX_KEY_BYTES ∧
      Consumes r (itemBytes item) r') := by
  unfold readEntry at h
  split at h
  · cases h
  · rename_i tag r₁ htag
    have hcons₁ := Reader.byte_ok htag
    split at h
    · rename_i hend
      cases h
      exact Or.inl ⟨rfl, hend ▸ hcons₁⟩
    · split at h
      · cases h
      · rename_i kind hkind
        split at h
        · cases h
        · rename_i key r₂ hkey
          obtain ⟨hmax, hcons₂⟩ := Reader.key_ok hkey
          split at h
          · cases h
          · rename_i len r₃ hlen
            obtain ⟨hlt, hcons₃⟩ := Reader.length_ok hlen
            split at h
            · cases h
            · rename_i r₄ st₄ hbody
              cases h
              obtain ⟨bytes, rfl, hcons₄⟩ := Reader.bounded_ok hbody
              refine Or.inr ⟨rfl, { kind := kind, key := key, bytes := bytes },
                ⟨hmax.trans_lt (by decide), hlt⟩, hmax, ?_⟩
              have hall := hcons₁.trans (hcons₂.trans (hcons₃.trans hcons₄))
              rw [← kindOf_eq_some hkind] at hall
              exact hall

theorem readEntry_lt {σ : Type} {sink : Sink σ} {entry : FileEntry} {st st' : σ} {r r' : Reader}
    {ended : Bool} (h : readEntry sink entry st r = (.ok (ended, r'), st')) :
    r'.source.content.length < r.source.content.length := by
  rcases readEntry_ok h with ⟨-, hcons⟩ | ⟨-, item, -, -, hcons⟩
  · rw [hcons.content, List.length_append]
    exact Nat.lt_add_of_pos_left (Nat.succ_pos 0)
  · rw [hcons.content, List.length_append]
    exact Nat.lt_add_of_pos_left (Nat.succ_pos _)

/-- The entries of one file. Every pass takes something off the source. -/
def readEntries {σ : Type} (sink : Sink σ) (entry : FileEntry) (st : σ) (r : Reader) :
    Except DbError Reader × σ :=
  match _h : readEntry sink entry st r with
  | (.error e, st') => (.error e, st')
  | (.ok (true, r'), st') => (.ok r', st')
  | (.ok (false, r'), st') => readEntries sink entry st' r'
termination_by r.source.content.length
decreasing_by exact readEntry_lt (by assumption)

/-- The files, in the order of the manifest. -/
def readFiles {σ : Type} (sink : Sink σ) : Nat → List FileEntry → σ → Reader →
    Except DbError Reader × σ
  | _, [], st, r => (.ok r, st)
  | index, entry :: rest, st, r =>
    match sink.beginFile st index entry with
    | (.error e, st) => (.error e, st)
    | (.ok (), st) =>
      match readEntries sink entry st r with
      | (.error e, st) => (.error e, st)
      | (.ok r, st) =>
        match sink.endFile st entry with
        | (.error e, st) => (.error e, st)
        | (.ok (), st) => readFiles sink (index + 1) rest st r

/-- What follows the files: the trailer, and the checksum against the one accumulated. -/
def readEnd (docs : Documents) (manifest : Manifest) (r : Reader) : Except DbError Summary :=
  match r.byte with
  | .error e => .error e
  | .ok (tag, r) =>
    if tag ≠ TAG_END_OF_ARCHIVE then
      .error (refused ("the file list ended and the archive did not - found tag 0x" ++
        hexDigits tag.toNat 2))
    else
      match r.document docs.readTrailer "trailer" with
      | .error e => .error e
      | .ok (trailer, r) =>
        if trailer.files.length ≠ manifest.files.length then
          .error (refused ("the manifest describes " ++ toString manifest.files.length ++
            " files and the trailer counts " ++ toString trailer.files.length))
        else
          let computed := (~~~ r.crc).toNat
          match r.source.readExact 4 with
          | (.error e, _) => .error (short "the checksum" e)
          | (.ok stored, _) =>
            if computed ≠ ofLE stored then
              .error (refused ("its checksum does not match its contents (" ++
                hexDigits (ofLE stored) 8 ++ " stored, " ++ hexDigits computed 8 ++ " computed). " ++
                "It was truncated, altered, or written by a failed export"))
            else
              .ok { manifest := manifest, trailer := trailer, archiveBytes := r.read + 4 }

/-- `archive::read`: the source read through, every record handed to the sink on the way. -/
def read {σ : Type} (docs : Documents) (sink : Sink σ) (st : σ) (source : Feed UInt8 IoError) :
    Except DbError Summary × σ :=
  match Reader.exactly { source := source } MAGIC.length "its header" with
  | .error e => (.error e, st)
  | .ok (magic, r) =>
    if magic ≠ MAGIC then
      (.error (refused ("it does not start with an archive header. " ++
        "Check the path names an archive and not something else")), st)
    else
      match r.document docs.readManifest "manifest" with
      | .error e => (.error e, st)
      | .ok (manifest, r) =>
        if CURRENT < manifest.archiveFormat ∨ manifest.archiveFormat < OLDEST_SUPPORTED then
          (.error (refused ("it is archive format " ++ toString manifest.archiveFormat ++
            ", and this build reads " ++ toString OLDEST_SUPPORTED ++ " to " ++
            toString CURRENT)), st)
        else
          match readFiles sink 0 manifest.files st r with
          | (.error e, st) => (.error e, st)
          | (.ok r, st) => (readEnd docs manifest r, st)

/-- `archive::verify`. -/
def verify (docs : Documents) (source : Feed UInt8 IoError) : Except DbError Summary :=
  (read docs discard () source).1

end Archive

end RustyPick
