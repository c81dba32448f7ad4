import RustyPick.ArchiveFrame

/-!
# RustyPick.ArchiveRoundTrip

What the archive's writer produces, against what its reader accepts.

The reader bounds a key by 255 bytes and a document by 64 MiB, and the writer bounds neither. A
hashed file holds keys of any length.

* `write_frame`: an export writes one frame, with everything it was given, and its checksum.
* `archive_round_trip_iff`: the archive of an export reads back as what was exported if and only if
  its keys and its two documents are within those bounds; nothing shorter reads, and nothing else
  does either that no checksum of its own follows.
-/

namespace RustyPick

open Lib

namespace Archive

/-! ## What the writer puts out -/

/-- The bytes an entry is written with. -/
def Entry.bytes (e : Entry) : Bytes :=
  match e.body with
  | .inHand buffer => buffer.bytes
  | .streamed len body => body.content.take len.toNat

def Entry.item (e : Entry) : Item := { kind := e.kind, key := e.key, bytes := e.bytes }

theorem Entry.item_fits (e : Entry) : e.item.Fits := by
  refine ⟨e.keyFits, ?_⟩
  change e.bytes.length < 2 ^ 64
  unfold Entry.bytes
  split
  · rename_i buffer _
    exact buffer.fits
  · rename_i len body _
    exact (List.length_take_le _ _).trans_lt len.toNat_lt

/-- The counts of a file after its items. -/
def countOf (entry : FileEntry) (items : List Item) : FileCounts :=
  items.foldl (fun counts item => Writer.noted item.kind item.bytes.length counts)
    { account := entry.account, name := entry.name }

/-- The writer has put `bytes` into its sink and its checksum. -/
structure Puts (w : Writer) (bytes : Bytes) (w' : Writer) : Prop where
  sink : w'.sink = w.sink ++ bytes
  crc : w'.crc = bytes.foldl crcByte w.crc
  manifest : w'.manifest = w.manifest

theorem Puts.trans {w w' w'' : Writer} {a b : Bytes} (h : Puts w a w') (h' : Puts w' b w'') :
    Puts w (a ++ b) w'' where
  sink := by rw [h'.sink, h.sink, List.append_assoc]
  crc := by rw [h'.crc, h.crc, List.foldl_append]
  manifest := h'.manifest.trans h.manifest

theorem puts_put (w : Writer) (bytes : Bytes) : Puts w bytes (w.put bytes) := ⟨rfl, rfl, rfl⟩

theorem puts_putBlob (w : Writer) (bytes : Bytes) : Puts w (blob bytes) (w.putBlob bytes) :=
  (puts_put w _).trans (puts_put _ _)

/-- A file is being written, and these are its counts so far. -/
structure InFile (w : Writer) (before : List FileCounts) (counts : FileCounts) (index : Nat) :
    Prop where
  opened : w.opened = some index
  counts : w.counts = before ++ [counts]
  next : w.next = index

theorem InFile.note {w : Writer} {before : List FileCounts} {counts : FileCounts} {index : Nat}
    (h : InFile w before counts index) (kind : RecordKind) (len : Nat) :
    InFile (w.note kind len) before (Writer.noted kind len counts) index ∧
      Puts w [] (w.note kind len) := by
  have hnote : w.note kind len =
      { w with counts := before ++ [Writer.noted kind len counts] } := by
    simp only [Writer.note, h.counts, List.getLast?_concat, List.dropLast_concat]
  rw [hnote]
  exact ⟨⟨h.opened, rfl, h.next⟩, (List.append_nil _).symm, rfl, rfl⟩

/-- The three parts of a record in front of its bytes. -/
theorem openRecord_spec {w : Writer} {before : List FileCounts} {counts : FileCounts}
    {index : Nat} (h : InFile w before counts index) (kind : RecordKind) (key : String)
    (len : Nat) :
    ∃ w', w.openRecord kind key len = .ok w' ∧ InFile w' before counts index ∧
      Puts w (kind.tag :: (blob (utf8 key) ++ toLE 8 len)) w' := by
  refine ⟨((w.put [kind.tag]).putBlob (utf8 key)).put (toLE 8 len), ?_,
    ⟨h.opened, h.counts, h.next⟩,
    (puts_put w [kind.tag]).trans ((puts_putBlob _ _).trans (puts_put _ _))⟩
  simp only [Writer.openRecord, h.opened, Option.isNone_some, Bool.false_eq_true, if_false]

theorem entry_ok {w w' : Writer} {before : List FileCounts} {counts : FileCounts} {index : Nat}
    (h : InFile w before counts index) {e : Entry} (hok : w.entry e = .ok w') :
    InFile w' before (Writer.noted e.kind e.bytes.length counts) index ∧
      Puts w (itemBytes e.item) w' := by
  have hfinish : ∀ {w₁ : Writer} {bytes : Bytes}, InFile w₁ before counts index →
      Puts w (e.kind.tag :: (blob (utf8 e.key) ++ toLE 8 bytes.length)) w₁ → e.bytes = bytes →
      InFile ((w₁.put bytes).note e.kind bytes.length) before
          (Writer.noted e.kind e.bytes.length counts) index ∧
        Puts w (itemBytes e.item) ((w₁.put bytes).note e.kind bytes.length) := by
    intro w₁ bytes hin hputs hbytes
    have hin' : InFile (w₁.put bytes) before counts index := ⟨hin.opened, hin.counts, hin.next⟩
    obtain ⟨hnoted, hnone⟩ := hin'.note e.kind bytes.length
    have hall := (hputs.trans (puts_put w₁ bytes)).trans hnone
    rw [hbytes, itemBytes, Entry.item, hbytes, blob]
    refine ⟨hnoted, ?_⟩
    simpa only [blob, List.cons_append, List.append_assoc, List.append_nil] using hall
  unfold Writer.entry at hok
  split at hok
  · rename_i buffer hbody
    have hbytes : e.bytes = buffer.bytes := by rw [Entry.bytes, hbody]
    obtain ⟨w₁, hopen, hin, hputs⟩ := openRecord_spec h e.kind e.key buffer.bytes.length
    simp only [Writer.record, hopen, Except.ok.injEq] at hok
    rw [← hok]
    exact hfinish hin hputs hbytes
  · rename_i len body hbody
    obtain ⟨w₁, hopen, hin, hputs⟩ := openRecord_spec h e.kind e.key len.toNat
    simp only [Writer.recordFrom, hopen] at hok
    have hcap : 0 < min (max len.toNat 1) CHUNK :=
      lt_min (lt_max_of_lt_right (Nat.succ_pos 0)) (by decide)
    rcases body.take_spec hcap len.toNat with ⟨hle, s', htake, -, -⟩ | ⟨-, s', htake, -, -⟩
    · rw [htake] at hok
      simp only [Except.ok.injEq] at hok
      have hlen : (body.content.take len.toNat).length = len.toNat := List.length_take_of_le hle
      have hbytes : e.bytes = body.content.take len.toNat := by rw [Entry.bytes, hbody]
      rw [← hlen] at hputs
      rw [← hok]
      have hdone := hfinish hin hputs hbytes
      rwa [hlen] at hdone
    · rw [htake] at hok
      cases hshort : body.short with
      | ended => rw [hshort] at hok; cases hok
      | failed e => rw [hshort] at hok; cases hok

theorem entries_ok : ∀ {file : List Entry} {w w' : Writer} {before : List FileCounts}
    {counts : FileCounts} {index : Nat}, InFile w before counts index →
    w.entries file = .ok w' →
    InFile w' before ((file.map Entry.item).foldl
        (fun counts item => Writer.noted item.kind item.bytes.length counts) counts) index ∧
      Puts w ((file.map Entry.item).flatMap itemBytes) w' := by
  intro file
  induction file with
  | nil =>
    intro w w' before counts index h hok
    cases hok
    exact ⟨h, (List.append_nil _).symm, rfl, rfl⟩
  | cons e file ih =>
    intro w w' before counts index h hok
    unfold Writer.entries at hok
    split at hok
    · cases hok
    · rename_i w₁ hone
      obtain ⟨hin, hputs⟩ := entry_ok h hone
      obtain ⟨hin', hputs'⟩ := ih hin hok
      rw [List.map_cons, List.flatMap_cons, List.foldl_cons]
      exact ⟨hin', hputs.trans hputs'⟩

theorem files_ok : ∀ {files : List (List Entry)} {w w' : Writer}, w.opened = none →
    w.files files = .ok w' →
    Puts w ((files.map (List.map Entry.item)).flatMap fileBytes) w' ∧ w'.opened = none ∧
      w'.next = w.next + files.length ∧
      (w.next ≤ w.manifest.files.length → w'.next ≤ w.manifest.files.length) ∧
      w'.counts = w.counts ++ List.zipWith countOf (w.manifest.files.drop w.next)
        (files.map (List.map Entry.item)) := by
  intro files
  induction files with
  | nil =>
    intro w w' hopened hok
    cases hok
    refine ⟨⟨(List.append_nil _).symm, rfl, rfl⟩, hopened, rfl, id, ?_⟩
    rw [List.map_nil, List.zipWith_nil_right, List.append_nil]
  | cons file files ih =>
    intro w w' hopened hok
    unfold Writer.files at hok
    split at hok
    · cases hok
    · rename_i w₁ hbegin
      unfold Writer.beginFile at hbegin
      rw [hopened, Option.isSome_none, if_neg Bool.false_ne_true] at hbegin
      split at hbegin
      · cases hbegin
      · rename_i entry hentry
        cases hbegin
        split at hok
        · cases hok
        · rename_i w₂ hentries
          have hin : InFile
              { w with
                counts := w.counts ++ [{ account := entry.account, name := entry.name }]
                opened := some w.next } w.counts
              { account := entry.account, name := entry.name } w.next := ⟨rfl, rfl, rfl⟩
          obtain ⟨hin₂, hputs₂⟩ := entries_ok hin hentries
          split at hok
          · cases hok
          · rename_i w₃ hend
            unfold Writer.endFile at hend
            rw [hin₂.opened, Option.isNone_some, if_neg Bool.false_ne_true,
              Except.ok.injEq] at hend
            subst hend
            obtain ⟨hputs₃, hopened₃, hnext₃, hle₃, hcounts₃⟩ := ih rfl hok
            have hmanifest : w₂.manifest = w.manifest := hputs₂.manifest
            have hlt : w.next < w.manifest.files.length := (List.getElem?_eq_some_iff.mp hentry).1
            have hone : Puts w (fileBytes (file.map Entry.item))
                { ({ w₂ with opened := none } : Writer).put [TAG_END_OF_FILE] with
                  next := w₂.next + 1 } := by
              have hsink := hputs₂.trans (puts_put w₂ [TAG_END_OF_FILE])
              exact ⟨hsink.sink, hsink.crc, hsink.manifest⟩
            refine ⟨?_, hopened₃, ?_, ?_, ?_⟩
            · rw [List.map_cons, List.flatMap_cons]
              exact hone.trans hputs₃
            · rw [hnext₃, List.length_cons]
              change w₂.next + 1 + files.length = _
              rw [hin₂.next]
              omega
            · intro _
              have hle : w₂.next + 1 ≤ w₂.manifest.files.length := by
                rw [hin₂.next, hmanifest]
                exact hlt
              have := hle₃ hle
              change w'.next ≤ w₂.manifest.files.length at this
              rwa [hmanifest] at this
            · rw [hcounts₃]
              change w₂.counts ++ List.zipWith countOf (w₂.manifest.files.drop (w₂.next + 1)) _ = _
              rw [hin₂.counts, hin₂.next, hmanifest, List.drop_eq_getElem_cons hlt, List.map_cons,
                List.zipWith_cons_cons, List.append_assoc]
              rw [List.getElem?_eq_getElem hlt, Option.some.injEq] at hentry
              rw [hentry]
              rfl

/-- An export writes one frame, with all it was given in it, and the frame's checksum. -/
theorem write_frame {docs : Documents} {manifest : Manifest} {files : List (List Entry)}
    {trailer : Trailer} {bytes : Bytes} (h : write docs manifest files = .ok (trailer, bytes)) :
    ∃ md td : Buffer, docs.writeManifest manifest = .ok md ∧ docs.writeTrailer trailer = .ok td ∧
      bytes = sealed (frame md.bytes (files.map (List.map Entry.item)) td.bytes) ∧
      files.length = manifest.files.length ∧
      trailer.files = List.zipWith countOf manifest.files (files.map (List.map Entry.item)) := by
  unfold write Writer.begin at h
  split at h
  · cases h
  · rename_i w hbegin
    split at hbegin
    · cases hbegin
    · rename_i md hmd
      cases hbegin
      split at h
      · cases h
      · rename_i w' hfiles
        obtain ⟨hputs, hopened, hnext, -, hcounts⟩ := files_ok rfl hfiles
        have hstart := ((puts_put { manifest := manifest } MAGIC).trans
          (puts_putBlob _ md.bytes)).trans hputs
        have hmanifest : w'.manifest = manifest := hstart.manifest
        unfold Writer.finish at h
        rw [hopened, Option.isSome_none, if_neg Bool.false_ne_true] at h
        split at h
        · cases h
        · rename_i hall
          rw [ne_eq, not_not] at hall
          dsimp only at h
          split at h
          · cases h
          · rename_i td htd
            cases h
            have hend := hstart.trans ((puts_put w' [TAG_END_OF_ARCHIVE]).trans
              (puts_putBlob _ td.bytes))
            refine ⟨md, td, hmd, htd, ?_, ?_, hcounts⟩
            · have hframe : MAGIC ++ blob md.bytes ++
                  (files.map (List.map Entry.item)).flatMap fileBytes ++
                  ([TAG_END_OF_ARCHIVE] ++ blob td.bytes) =
                  frame md.bytes (files.map (List.map Entry.item)) td.bytes := by
                rw [frame, List.append_assoc, List.append_assoc]
                rfl
              rw [hframe] at hend
              rw [sealed, hend.sink, hend.crc]
              rfl
            · rw [← hmanifest, ← hall, hnext]
              exact (Nat.zero_add _).symm

/-! ## An export -/

/-- Attributes as an archive carries them: of a directory file, that it is one. Its path stays
behind, and the durability it has of a database that is all durable. -/
def portable (a : FileAttributes) : FileAttributes :=
  if a.directory.isSome then { directory := some {} } else a

/-- One file of an export. A visibility timeout is in whole seconds. -/
structure Exported where
  account : String
  name : String
  attributes : FileAttributes
  seconds : ∀ policy, attributes.queue = some policy → 1000 ∣ policy.visibility
  indexes : List IndexEntry
  entries : List Entry

def Exported.entry (f : Exported) : FileEntry := .of f.account f.name f.attributes f.indexes

def Exported.items (f : Exported) : List Item := f.entries.map Entry.item

def manifestOf (storageFormat takenMillis : Nat) (source : Source) (files : List Exported) :
    Manifest :=
  { archiveFormat := CURRENT, storageFormat, takenMillis, source
    files := files.map Exported.entry }

/-- `export`, from the files it holds on. -/
def exported (docs : Documents) (storageFormat takenMillis : Nat) (source : Source)
    (files : List Exported) : Except DbError (Trailer × Bytes) :=
  write docs (manifestOf storageFormat takenMillis source files) (files.map Exported.entries)

theorem attributes_of {a : FileAttributes}
    (h : ∀ policy, a.queue = some policy → 1000 ∣ policy.visibility) (account name : String)
    (indexes : List IndexEntry) :
    (FileEntry.of account name a indexes).attributes = portable a := by
  obtain ⟨durable, queue, directory, autokey⟩ := a
  cases directory with
  | some policy => rfl
  | none =>
    cases queue with
    | none => rfl
    | some policy =>
      obtain ⟨visibility, maxDeliveries⟩ := policy
      obtain ⟨seconds, hvisibility⟩ := h _ rfl
      dsimp only at hvisibility
      subst hvisibility
      simp [FileEntry.of, FileEntry.attributes, portable, QueuePolicy.visibilitySeconds,
        Nat.mul_comm]

/-- The trailer of an export: its files with their counts. -/
def trailerOf (files : List Exported) : Trailer :=
  { files := files.map fun f => countOf f.entry f.items }

theorem exported_frame {docs : Documents} {storageFormat takenMillis : Nat} {source : Source}
    {files : List Exported} {trailer : Trailer} {bytes : Bytes}
    (h : exported docs storageFormat takenMillis source files = .ok (trailer, bytes)) :
    trailer = trailerOf files ∧ ∃ md td : Buffer,
      docs.writeManifest (manifestOf storageFormat takenMillis source files) = .ok md ∧
      docs.writeTrailer trailer = .ok td ∧
      bytes = sealed (frame md.bytes (files.map Exported.items) td.bytes) := by
  obtain ⟨md, td, hmd, htd, hbytes, -, hcounts⟩ := write_frame h
  rw [List.map_map] at hbytes hcounts
  refine ⟨?_, md, td, hmd, htd, hbytes⟩
  obtain ⟨counts⟩ := trailer
  dsimp only at hcounts
  rw [hcounts, trailerOf, manifestOf, Trailer.mk.injEq]
  dsimp only
  rw [List.zipWith_map, List.zipWith_self]
  rfl

theorem allFit_items (files : List Exported) : AllFit (files.map Exported.items) := by
  intro items hitems item hitem
  obtain ⟨f, -, rfl⟩ := List.mem_map.mp hitems
  obtain ⟨e, -, rfl⟩ := List.mem_map.mp hitem
  exact e.item_fits

/-- The JSON library reads back what it wrote of these two documents. -/
structure Documents.ReadsBack (docs : Documents) (manifest : Manifest) (trailer : Trailer) :
    Prop where
  manifest : ∀ md, docs.writeManifest manifest = .ok md → docs.readManifest md.bytes = .ok manifest
  trailer : ∀ td, docs.writeTrailer trailer = .ok td → docs.readTrailer td.bytes = .ok trailer

/-- Every key, and both documents, are short enough for the reader. -/
structure WithinLimits (docs : Documents) (manifest : Manifest) (files : List Exported) : Prop where
  keys : ∀ f ∈ files, ∀ e ∈ f.entries, (utf8 e.key).length ≤ MAX_KEY_BYTES
  manifest : ∀ md, docs.writeManifest manifest = .ok md → md.bytes.length ≤ MAX_DOCUMENT_BYTES
  trailer : ∀ td, docs.writeTrailer (trailerOf files) = .ok td →
    td.bytes.length ≤ MAX_DOCUMENT_BYTES

/-- What an archive is for. -/
structure RoundTrip (docs : Documents) (manifest : Manifest) (files : List Exported)
    (trailer : Trailer) (bytes : Bytes) : Prop where
  /-- However it arrives and however a sink reads, it is accepted, and the sink is given the same
  files and entries in the same order. -/
  accepted : ∀ (buffer : Nat) (source : Feed UInt8 IoError), 0 < buffer → source.content = bytes →
    read docs (collect buffer) [] source =
      (.ok { manifest, trailer, archiveBytes := bytes.length },
        deliveries 0 manifest.files (files.map Exported.items))
  counted : trailer.files = files.map fun f => countOf f.entry f.items
  attributes : ∀ f ∈ files, f.entry.attributes = portable f.attributes
  /-- No sink makes a part of it pass for an archive. -/
  cut : ∀ (σ : Type) (sink : Sink σ) (st : σ) (source : Feed UInt8 IoError),
    source.content <+: bytes → source.content ≠ bytes →
    ∃ e, (read docs sink st source).1 = .error e
  /-- And bytes that are not followed by their own checksum are refused. -/
  altered : ∀ (σ : Type) (sink : Sink σ) (st : σ) (source : Feed UInt8 IoError),
    (∀ checked, ¬ sealed checked <+: source.content) →
    ∃ e, (read docs sink st source).1 = .error e

section

variable {docs : Documents} {storageFormat takenMillis : Nat} {source : Source}
  {files : List Exported} {trailer : Trailer} {bytes : Bytes}

theorem error_of_not_ok {σ : Type} {sink : Sink σ} {st : σ} {feed : Feed UInt8 IoError}
    (h : ∀ summary st', read docs sink st feed ≠ (.ok summary, st')) :
    ∃ e, (read docs sink st feed).1 = .error e := by
  cases hread : read docs sink st feed with
  | mk outcome st' =>
    cases outcome with
    | error e => exact ⟨e, rfl⟩
    | ok summary => exact absurd hread (h summary st')

/-- Whatever a sink is, an accepted archive in front of which this one stands is this one. -/
theorem accepted_frame {σ : Type} {sink : Sink σ} {st st' : σ} {feed : Feed UInt8 IoError}
    {summary : Summary} (rest : Bytes)
    (h : exported docs storageFormat takenMillis source files = .ok (trailer, bytes))
    (hjson : docs.ReadsBack (manifestOf storageFormat takenMillis source files) trailer)
    (hread : read docs sink st feed = (.ok summary, st')) (hc : feed.content ++ rest = bytes) :
    WithinLimits docs (manifestOf storageFormat takenMillis source files) files ∧
      feed.content = bytes := by
  obtain ⟨htrailer, md, td, hmd, htd, hbytes⟩ := exported_frame h
  obtain ⟨md', td', files', rest', hc', hparse, hlen, hreadable, hmd', htd'⟩ := read_frame hread
  rw [hbytes, hc', sealed, sealed, List.append_assoc, List.append_assoc] at hc
  have hfiles : md' = md.bytes → files'.length = (files.map Exported.items).length := by
    intro heq
    rw [heq, hjson.manifest md hmd, Except.ok.injEq] at hparse
    rw [hlen, ← hparse, manifestOf, List.length_map, List.length_map]
  obtain ⟨hm, hf, ht, hrest⟩ := frame_inj (hmd'.trans_lt (by decide)) md.fits
    (htd'.trans_lt (by decide)) td.fits hreadable.allFit (allFit_items files) hfiles hc
  refine ⟨⟨fun f hf' e he => ?_, fun md₁ hmd₁ => ?_, fun td₁ htd₁ => ?_⟩, ?_⟩
  · have hmem : f.items ∈ files' := hf ▸ List.mem_map_of_mem hf'
    exact (hreadable f.items hmem e.item (List.mem_map_of_mem he)).2
  · rw [hmd, Except.ok.injEq] at hmd₁
    rw [← hmd₁, ← hm]
    exact hmd'
  · rw [← htrailer, htd, Except.ok.injEq] at htd₁
    rw [← htd₁, ← ht]
    exact htd'
  · -- the two checksums are of one frame, so nothing is left over
    rw [hm, hf, ht] at hc' hrest
    have hnil := List.append_cancel_left (hrest.trans (List.append_nil _).symm)
    obtain ⟨rfl, -⟩ := List.append_eq_nil_iff.mp hnil
    rw [hc', hbytes, List.append_nil]

/-- Within the limits, the archive is accepted as it was written. -/
theorem accepted_of_withinLimits {buffer : Nat} {feed : Feed UInt8 IoError}
    (h : exported docs storageFormat takenMillis source files = .ok (trailer, bytes))
    (hjson : docs.ReadsBack (manifestOf storageFormat takenMillis source files) trailer)
    (hlimits : WithinLimits docs (manifestOf storageFormat takenMillis source files) files)
    (hbuffer : 0 < buffer) (hc : feed.content = bytes) :
    read docs (collect buffer) [] feed =
      (.ok { manifest := manifestOf storageFormat takenMillis source files, trailer,
             archiveBytes := bytes.length },
        deliveries 0 (manifestOf storageFormat takenMillis source files).files
          (files.map Exported.items)) := by
  obtain ⟨htrailer, md, td, hmd, htd, hbytes⟩ := exported_frame h
  have hreadable : Readable (files.map Exported.items) := by
    intro items hitems item hitem
    refine ⟨allFit_items files items hitems item hitem, ?_⟩
    obtain ⟨f, hf, rfl⟩ := List.mem_map.mp hitems
    obtain ⟨e, he, rfl⟩ := List.mem_map.mp hitem
    exact hlimits.keys f hf e he
  have hcontent : feed.content =
      sealed (frame md.bytes (files.map Exported.items) td.bytes) ++ [] := by
    rw [hc, hbytes, List.append_nil]
  have hread := read_of_frame hbuffer hcontent (hjson.manifest md hmd) (hjson.trailer td htd) rfl
    (by rw [manifestOf, List.length_map, List.length_map])
    (by rw [htrailer, trailerOf, manifestOf, List.length_map, List.length_map]) hreadable
    (hlimits.manifest md hmd) (hlimits.trailer td (htrailer ▸ htd))
  rw [hread, hbytes]

end

/-- For every export that is written, the archive is what an archive is for if and only if every
key in it and its two documents are within the reader's limits. -/
theorem archive_round_trip_iff (docs : Documents) (storageFormat takenMillis : Nat)
    (source : Source) (files : List Exported) {trailer : Trailer} {bytes : Bytes}
    (h : exported docs storageFormat takenMillis source files = .ok (trailer, bytes))
    (hjson : docs.ReadsBack (manifestOf storageFormat takenMillis source files) trailer) :
    RoundTrip docs (manifestOf storageFormat takenMillis source files) files trailer bytes ↔
      WithinLimits docs (manifestOf storageFormat takenMillis source files) files := by
  constructor
  · intro hround
    have hread := hround.accepted 1 { pieces := [bytes] } Nat.one_pos
      (by rw [Feed.content, List.flatten_singleton])
    exact (accepted_frame [] h hjson hread
      (by rw [Feed.content, List.flatten_singleton, List.append_nil])).1
  · intro hlimits
    refine ⟨fun buffer feed hbuffer hc => accepted_of_withinLimits h hjson hlimits hbuffer hc, ?_,
      fun f _ => attributes_of f.seconds _ _ _, ?_, ?_⟩
    · rw [(exported_frame h).1, trailerOf]
    · intro σ sink st feed hprefix hne
      obtain ⟨rest, hc⟩ := hprefix
      exact error_of_not_ok fun summary st' hread => hne (accepted_frame rest h hjson hread hc).2
    · intro σ sink st feed hnone
      refine error_of_not_ok fun summary st' hread => ?_
      obtain ⟨md, td, files', rest, hc, -⟩ := read_frame hread
      exact hnone (frame md files' td) ⟨rest, hc.symm⟩

/-! ### One file with one record -/

/-- The JSON library on one manifest and one trailer. -/
def documentsOf (manifest : Manifest) (manifestText : Buffer) (trailer : Trailer)
    (trailerText : Buffer) : Documents where
  writeManifest := fun m => if m = manifest then .ok manifestText else .error ""
  writeTrailer := fun t => if t = trailer then .ok trailerText else .error ""
  readManifest := fun b => if b = manifestText.bytes then .ok manifest else .error ""
  readTrailer := fun b => if b = trailerText.bytes then .ok trailer else .error ""

theorem documentsOf_readsBack (manifest : Manifest) (manifestText : Buffer) (trailer : Trailer)
    (trailerText : Buffer) :
    (documentsOf manifest manifestText trailer trailerText).ReadsBack manifest trailer := by
  constructor
  · intro md hmd
    simp only [documentsOf, if_true, Except.ok.injEq] at hmd ⊢
    rw [hmd, if_pos rfl]
  · intro td htd
    simp only [documentsOf, if_true, Except.ok.injEq] at htd ⊢
    rw [htd, if_pos rfl]

/-- An ordinary file with one record, which is empty. -/
def notes (key : String) (h : (utf8 key).length < 2 ^ 64) : Exported :=
  { account := "SALES", name := "NOTES", attributes := {}
    seconds := nofun
    indexes := []
    entries := [{ kind := .data, key, body := .inHand ⟨[], by decide⟩, keyFits := h }] }

def notesSource : Source := .file "SALES" "NOTES"

def notesManifestText : Buffer where
  bytes := utf8 ("\x7b\"archive_format\":1,\"storage_format\":1,\"taken_millis\":0,\"source\":" ++
    "\x7b\"scope\":\"FILE\",\"account\":\"SALES\",\"file\":\"NOTES\"\x7d,\"files\":[\x7b" ++
    "\"account\":\"SALES\",\"name\":\"NOTES\",\"kind\":\"FILE\",\"durable\":false," ++
    "\"autokey\":false,\"indexes\":[]\x7d]\x7d")
  fits := by decide +kernel

def notesTrailerText : Buffer where
  bytes := utf8 ("\x7b\"files\":[\x7b\"account\":\"SALES\",\"name\":\"NOTES\",\"records\":1," ++
    "\"dictionary\":0,\"bytes\":0\x7d]\x7d")
  fits := by decide +kernel

/-- The library on the documents of such an export, which do not depend on the key. -/
def notesDocuments : Documents :=
  documentsOf (manifestOf 1 0 notesSource [notes "" (by decide +kernel)]) notesManifestText
    { files := [{ account := "SALES", name := "NOTES", records := 1 }] } notesTrailerText

theorem notes_exported (key : String) (h : (utf8 key).length < 2 ^ 64) :
    ∃ bytes, exported notesDocuments 1 0 notesSource [notes key h] =
      .ok (trailerOf [notes key h], bytes) :=
  ⟨_, rfl⟩

theorem notes_readsBack (key : String) (h : (utf8 key).length < 2 ^ 64) :
    notesDocuments.ReadsBack (manifestOf 1 0 notesSource [notes key h])
      (trailerOf [notes key h]) :=
  documentsOf_readsBack _ _ _ _

theorem short_key_round_trip :
    ∃ bytes, exported notesDocuments 1 0 notesSource [notes "1" (by decide +kernel)] =
        .ok (trailerOf [notes "1" (by decide +kernel)], bytes) ∧
      RoundTrip notesDocuments (manifestOf 1 0 notesSource [notes "1" (by decide +kernel)])
        [notes "1" (by decide +kernel)] (trailerOf [notes "1" (by decide +kernel)]) bytes := by
  obtain ⟨bytes, h⟩ := notes_exported "1" (by decide +kernel)
  refine ⟨bytes, h, (archive_round_trip_iff _ _ _ _ _ h (notes_readsBack _ _)).mpr ?_⟩
  refine ⟨fun f hf e he => ?_, fun md hmd => ?_, fun td htd => ?_⟩
  · rw [List.mem_singleton.mp hf] at he
    rw [List.mem_singleton.mp he]
    decide +kernel
  · cases hmd
    decide +kernel
  · cases htd
    decide +kernel

/-- A key of 256 bytes, which a hashed file holds. -/
def longKey : String := String.ofList (List.replicate 256 'K')

/-- The archive of a file with a longer key is written, and no sink ever reads it through. -/
theorem long_key_not_accepted :
    ∃ bytes, exported notesDocuments 1 0 notesSource [notes longKey (by decide +kernel)] =
        .ok (trailerOf [notes longKey (by decide +kernel)], bytes) ∧
      (∀ feed : Feed UInt8 IoError, feed.content = bytes →
        ∃ e, (read notesDocuments discard () feed).1 = .error e) ∧
      ¬ RoundTrip notesDocuments (manifestOf 1 0 notesSource [notes longKey (by decide +kernel)])
        [notes longKey (by decide +kernel)] (trailerOf [notes longKey (by decide +kernel)])
        bytes := by
  obtain ⟨bytes, h⟩ := notes_exported longKey (by decide +kernel)
  have hkey : ¬ WithinLimits notesDocuments
      (manifestOf 1 0 notesSource [notes longKey (by decide +kernel)])
      [notes longKey (by decide +kernel)] := by
    intro hlimits
    have := hlimits.keys _ (List.mem_singleton.mpr rfl) _ (List.mem_singleton.mpr rfl)
    exact absurd this (by decide +kernel)
  have hrefused : ∀ {σ : Type} (sink : Sink σ) (st : σ) (feed : Feed UInt8 IoError),
      feed.content = bytes → ∃ e, (read notesDocuments sink st feed).1 = .error e := by
    intro σ sink st feed hc
    refine error_of_not_ok fun summary st' hread => hkey ?_
    exact (accepted_frame [] h (notes_readsBack _ _) hread (by rw [hc, List.append_nil])).1
  refine ⟨bytes, h, hrefused discard (), fun hround => ?_⟩
  have hc : Feed.content ({ pieces := [bytes] } : Feed UInt8 IoError) = bytes := by
    rw [Feed.content, List.flatten_singleton]
  obtain ⟨e, he⟩ := hrefused (collect 1) [] { pieces := [bytes] } hc
  rw [hround.accepted 1 _ Nat.one_pos hc] at he
  cases he

end Archive

end RustyPick
