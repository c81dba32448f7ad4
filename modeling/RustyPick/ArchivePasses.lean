import RustyPick.ArchiveRoundTrip

/-!
# RustyPick.ArchivePasses

An archive is read twice: once to verify it, and once into the sink that applies it (`import` in
`db/engine/archive.rs`).

`deliver` says what an archive delivers, without any sink: the files, and every record with the
bytes that stand in the stream for it.

* `bounded_quiet`: where the stream stands after a record does not depend on what the sink read.
* `Refines`: what a pass over a sink has in common with `deliver`; `read_refines` that it does.
* `read_verified`: the second pass sees what the first has seen.
-/

namespace RustyPick

open Lib

namespace Archive

/-! ## What a sink is called with -/

/-- A call of the sink. Of a record's body it has what the sink was given, and whether it was told
that there is no more. -/
inductive Call where
  | beginFile (index : Nat) (entry : FileEntry)
  | record (entry : FileEntry) (kind : RecordKind) (key : String) (len : Nat)
    (given : Reading.Heard UInt8)
  | endFile (entry : FileEntry)

/-- The call without what was read. -/
def Call.request : Call → Call
  | .record entry kind key len _ => .record entry kind key len {}
  | call => call

structure Returned where
  call : Call
  outcome : Except DbError Unit

/-- The sink, and the calls of it in their order. -/
def Sink.logged {σ : Type} (sink : Sink σ) : Sink (List Returned × σ) where
  beginFile := fun (log, st) index entry =>
    let (outcome, st) := sink.beginFile st index entry
    (outcome, (log ++ [⟨.beginFile index entry, outcome⟩], st))
  record := fun (log, st) entry kind key len =>
    (sink.record st entry kind key len).hear
      (fun given (outcome, st) =>
        (outcome, (log ++ [⟨.record entry kind key len given, outcome⟩], st))) {}
  endFile := fun (log, st) entry =>
    let (outcome, st) := sink.endFile st entry
    (outcome, (log ++ [⟨.endFile entry, outcome⟩], st))

/-- The calls a pass makes. -/
def calls {σ : Type} (docs : Documents) (sink : Sink σ) (st : σ) (source : Feed UInt8 IoError) :
    List Returned :=
  (read docs sink.logged ([], st) source).2.1

/-! ## The same stream, cut differently -/

/-- Two readers at the same place of the same stream. -/
structure Same (r r' : Reader) : Prop where
  content : r.source.content = r'.source.content
  failure : r.source.failure = r'.source.failure
  crc : r.crc = r'.crc
  read : r.read = r'.read

theorem Same.short {r r' : Reader} (h : Same r r') : r.source.short = r'.source.short := by
  rw [Feed.short, Feed.short, h.failure]

theorem Same.consumes {r r' r₁ r₁' : Reader} {bytes : Bytes} (h : Same r r')
    (hr : Consumes r bytes r₁) (hr' : Consumes r' bytes r₁') : Same r₁ r₁' where
  content := List.append_cancel_left (hr.content.symm.trans (h.content.trans hr'.content))
  failure := hr.failure.trans (h.failure.trans hr'.failure.symm)
  crc := by rw [hr.crc, hr'.crc, h.crc]
  read := by rw [hr.read, hr'.read, h.read]

/-- The same failure, or the same thing read and the same place. -/
inductive Agree {T : Type} : Except DbError (T × Reader) → Except DbError (T × Reader) → Prop where
  | error (e : DbError) : Agree (.error e) (.error e)
  | ok (t : T) {r r' : Reader} (h : Same r r') : Agree (.ok (t, r)) (.ok (t, r'))

section

variable {r r' : Reader}

theorem Agree.map {T U : Type} {x y : Except DbError (T × Reader)} (f : T → U) (h : Agree x y) :
    Agree (x.map fun (t, r) => (f t, r)) (y.map fun (t, r) => (f t, r)) := by
  cases h with
  | error e => exact .error e
  | ok t h => exact .ok (f t) h

theorem exactly_agree (h : Same r r') (n : Nat) (what : String) :
    Agree (r.exactly n what) (r'.exactly n what) := by
  rw [Reader.exactly, Reader.exactly]
  have hlen : r.source.content.length = r'.source.content.length := by rw [h.content]
  rcases r.source.readExact_spec n with ⟨hle, s, hs, hc, hf⟩ | ⟨hlt, s, hs, -⟩
  · rcases r'.source.readExact_spec n with ⟨-, s', hs', hc', hf'⟩ | ⟨hlt', -⟩
    · rw [hs, hs', h.content]
      refine .ok _ ⟨?_, ?_, ?_, ?_⟩
      · rw [hc, hc', h.content]
      · rw [hf, hf', h.failure]
      · rw [h.crc]
      · rw [h.read]
    · exact absurd hle (by omega)
  · rcases r'.source.readExact_spec n with ⟨hle', -⟩ | ⟨-, s', hs', -⟩
    · exact absurd hle' (by omega)
    · rw [hs, hs', h.short]
      exact .error _

theorem byte_agree (h : Same r r') : Agree r.byte r'.byte :=
  (exactly_agree h 1 "a record tag").map fun bytes : Bytes => bytes.headD 0

theorem length_agree (h : Same r r') (what : String) : Agree (r.length what) (r'.length what) :=
  (exactly_agree h 8 ("the length of " ++ what)).map ofLE

theorem key_agree (h : Same r r') : Agree r.key r'.key := by
  rw [Reader.key, Reader.key]
  have hlen := length_agree h "a key"
  generalize r.length "a key" = x, r'.length "a key" = y at hlen
  cases hlen with
  | error e => exact .error e
  | @ok len r r' h =>
    dsimp only
    split
    · exact .error _
    · have hbytes := exactly_agree h len "a key"
      generalize r.exactly len "a key" = x, r'.exactly len "a key" = y at hbytes
      cases hbytes with
      | error e => exact .error e
      | ok bytes h =>
        dsimp only
        cases fromUtf8? bytes with
        | none => exact .error _
        | some key => exact .ok key h

theorem document_agree {T : Type} (h : Same r r') (parse : Bytes → Except String T)
    (what : String) : Agree (r.document parse what) (r'.document parse what) := by
  rw [Reader.document, Reader.document]
  have hlen := length_agree h what
  generalize r.length what = x, r'.length what = y at hlen
  cases hlen with
  | error e => exact .error e
  | @ok len r r' h =>
    dsimp only
    split
    · exact .error _
    · have hbytes := exactly_agree h len what
      generalize r.exactly len what = x, r'.exactly len what = y at hbytes
      cases hbytes with
      | error e => exact .error e
      | ok bytes h =>
        dsimp only
        cases parse bytes with
        | error e => exact .error _
        | ok doc => exact .ok doc h

theorem readEnd_same (h : Same r r') (docs : Documents) (manifest : Manifest) :
    readEnd docs manifest r = readEnd docs manifest r' := by
  rw [readEnd, readEnd]
  have htag := byte_agree h
  generalize r.byte = x, r'.byte = y at htag
  cases htag with
  | error e => rfl
  | @ok tag r r' h =>
    dsimp only
    split
    · rfl
    · have hdoc := document_agree h docs.readTrailer "trailer"
      generalize r.document docs.readTrailer "trailer" = x,
        r'.document docs.readTrailer "trailer" = y at hdoc
      cases hdoc with
      | error e => rfl
      | @ok trailer r r' h =>
        dsimp only
        split
        · rfl
        · have hlen : r.source.content.length = r'.source.content.length := by rw [h.content]
          rcases r.source.readExact_spec 4 with ⟨hle, s, hs, -⟩ | ⟨hlt, s, hs, -⟩
          · rcases r'.source.readExact_spec 4 with ⟨-, s', hs', -⟩ | ⟨hlt', -⟩
            · rw [hs, hs', h.content, h.crc, h.read]
            · exact absurd hle (by omega)
          · rcases r'.source.readExact_spec 4 with ⟨hle', -⟩ | ⟨-, s', hs', -⟩
            · exact absurd hle' (by omega)
            · rw [hs, hs', h.short]

end

/-! ## What an archive delivers -/

/-- What stands in front of an entry's body, and `none` at the end of the file. -/
def entryHeader (entry : FileEntry) (r : Reader) :
    Except DbError (Option (RecordKind × String × Nat) × Reader) :=
  match r.byte with
  | .error e => .error e
  | .ok (tag, r) =>
    if tag = TAG_END_OF_FILE then .ok (none, r)
    else
      match kindOf tag with
      | none => .error (refused ("an unknown record tag 0x" ++ hexDigits tag.toNat 2 ++
          " inside file '" ++ entry.name ++ "'"))
      | some kind =>
        match r.key with
        | .error e => .error e
        | .ok (key, r) =>
          match r.length "a record" with
          | .error e => .error e
          | .ok (len, r) => .ok (some (kind, key, len), r)

/-- The next `len` bytes passed over. -/
def Reader.skip (r : Reader) (len : Nat) : Except DbError Reader :=
  (r.bounded len (.done (.ok (), ()))).1

/-- The rest of a pass of the loop. -/
def afterHeader {σ : Type} (sink : Sink σ) (entry : FileEntry) (st : σ) :
    Except DbError (Option (RecordKind × String × Nat) × Reader) →
      Except DbError (Bool × Reader) × σ
  | .error e => (.error e, st)
  | .ok (none, r) => (.ok (true, r), st)
  | .ok (some (kind, key, len), r) =>
    match r.bounded len (sink.record st entry kind key len) with
    | (.error e, st) => (.error e, st)
    | (.ok r, st) => (.ok (false, r), st)

theorem readEntry_eq {σ : Type} (sink : Sink σ) (entry : FileEntry) (st : σ) (r : Reader) :
    readEntry sink entry st r = afterHeader sink entry st (entryHeader entry r) := by
  unfold entryHeader readEntry
  cases r.byte with
  | error e => rfl
  | ok got =>
    obtain ⟨tag, r⟩ := got
    dsimp only
    split
    · rfl
    · cases kindOf tag with
      | none => rfl
      | some kind =>
        dsimp only
        cases r.key with
        | error e => rfl
        | ok got =>
          obtain ⟨key, r⟩ := got
          dsimp only
          cases r.length "a record" with
          | error e => rfl
          | ok got => rfl

theorem entryHeader_agree {r r' : Reader} (h : Same r r') (entry : FileEntry) :
    Agree (entryHeader entry r) (entryHeader entry r') := by
  rw [entryHeader, entryHeader]
  have htag := byte_agree h
  generalize r.byte = x, r'.byte = y at htag
  cases htag with
  | error e => exact .error e
  | @ok tag r r' h =>
    dsimp only
    split
    · exact .ok none h
    · cases kindOf tag with
      | none => exact .error _
      | some kind =>
        have hkey := key_agree h
        generalize r.key = x, r'.key = y at hkey
        cases hkey with
        | error e => exact .error e
        | @ok key r r' h =>
          dsimp only
          have hlen := length_agree h "a record"
          generalize r.length "a record" = x, r'.length "a record" = y at hlen
          cases hlen with
          | error e => exact .error e
          | ok len h => exact .ok _ h

theorem entryHeader_lt {entry : FileEntry} {r r' : Reader}
    {header : Option (RecordKind × String × Nat)} (h : entryHeader entry r = .ok (header, r')) :
    r'.source.content.length < r.source.content.length := by
  unfold entryHeader at h
  cases htag : r.byte with
  | error e => rw [htag] at h; cases h
  | ok got =>
    obtain ⟨tag, r₁⟩ := got
    have hcons := Reader.byte_ok htag
    have hlt : r₁.source.content.length < r.source.content.length := by
      rw [hcons.content, List.length_append, List.length_singleton]
      omega
    rw [htag] at h
    dsimp only at h
    split at h
    · cases h
      exact hlt
    · split at h
      · cases h
      · split at h
        · cases h
        · rename_i key r₂ hkey
          split at h
          · cases h
          · rename_i len r₃ hlen
            cases h
            have hcons₂ := (Reader.key_ok hkey).2.trans (Reader.length_ok hlen).2
            have hle := congrArg List.length hcons₂.content
            rw [List.length_append] at hle
            omega

section

variable {σ : Type} {body : Reading UInt8 IoError (Except DbError Unit × σ)} {r : Reader}
  {len : Nat}

/-- A body that is read without a failure of the sink's: the stream goes on after it, wherever the
reading stopped. -/
theorem bounded_quiet (h : (body.run len r.source).1.1 = .ok ()) :
    (len ≤ r.source.content.length ∧ ∃ r', Consumes r (r.source.content.take len) r' ∧
      (r.bounded len body).1 = .ok r') ∨
    (r.source.content.length < len ∧
      (r.bounded len body).1 = .error (short "a record" r.source.short)) := by
  rcases Reader.bounded_takes body r len with ⟨hle, r', hcons, hb⟩ | ⟨hlt, -⟩
  · refine Or.inl ⟨hle, r', hcons, ?_⟩
    rw [hb]
    generalize (body.run len r.source).1 = result at h
    obtain ⟨outcome, st⟩ := result
    dsimp only at h
    rw [h]
  · refine Or.inr ⟨hlt, ?_⟩
    obtain ⟨hc, hlen, hf⟩ := body.run_spec len r.source
    unfold Reader.bounded
    generalize body.run len r.source = run at h hc hlen hf
    obtain ⟨⟨outcome, st⟩, taken, left, source⟩ := run
    dsimp only at h hc hlen hf ⊢
    rw [hc, List.length_append] at hlt
    have hshort : source.short = r.source.short := by rw [Feed.short, Feed.short, hf]
    rcases source.take_spec (show 0 < CHUNK by decide) left with ⟨hle, -⟩ | ⟨-, s', htake, -⟩
    · omega
    · rw [htake, h, hshort]

theorem skip_cases (r : Reader) (len : Nat) :
    (len ≤ r.source.content.length ∧ ∃ r', Consumes r (r.source.content.take len) r' ∧
      r.skip len = .ok r') ∨
    (r.source.content.length < len ∧ r.skip len = .error (short "a record" r.source.short)) := by
  rw [Reader.skip]
  exact bounded_quiet rfl

theorem returned_of_bounded {r' : Reader} (h : (r.bounded len body).1 = .ok r') :
    (body.run len r.source).1.1 = .ok () := by
  unfold Reader.bounded at h
  generalize body.run len r.source = run at h
  obtain ⟨⟨outcome, st⟩, taken, left, source⟩ := run
  dsimp only at h ⊢
  generalize source.take CHUNK left = drained at h
  obtain ⟨stopped, drained, source'⟩ := drained
  cases outcome with
  | error e => cases h
  | ok u => rfl

/-- What a sink was given is the front of the record. -/
theorem given_prefix (body : Reading UInt8 IoError (Except DbError Unit × σ)) (r : Reader)
    (len : Nat) : (body.run len r.source).2.1 <+: r.source.content.take len := by
  obtain ⟨hc, hlen, -⟩ := body.run_spec len r.source
  rw [List.prefix_take_iff]
  exact ⟨⟨_, hc.symm⟩, by omega⟩

theorem bounded_logged (sink : Sink σ) (log : List Returned) (st : σ) (entry : FileEntry)
    (kind : RecordKind) (key : String) :
    r.bounded len (sink.logged.record (log, st) entry kind key len) =
      ((r.bounded len (sink.record st entry kind key len)).1,
        (log ++ [⟨.record entry kind key len
          ⟨((sink.record st entry kind key len).run len r.source).2.1,
            (sink.record st entry kind key len).ended len r.source⟩,
          ((sink.record st entry kind key len).run len r.source).1.1⟩],
        (r.bounded len (sink.record st entry kind key len)).2)) := by
  rw [Sink.logged]
  unfold Reader.bounded
  dsimp only
  rw [Reading.run_hear, List.nil_append, Bool.false_or]
  generalize (sink.record st entry kind key len).run len r.source = run
  obtain ⟨⟨outcome, st'⟩, taken, left, source⟩ := run
  dsimp only
  generalize source.take CHUNK left = drained
  obtain ⟨stopped, drained, source'⟩ := drained
  cases outcome with
  | error e => rfl
  | ok u => cases stopped <;> rfl

end

theorem skip_le {r r' : Reader} {len : Nat} (h : r.skip len = .ok r') :
    r'.source.content.length ≤ r.source.content.length := by
  rcases skip_cases r len with ⟨-, r₁, hcons, hskip⟩ | ⟨-, hskip⟩
  · rw [hskip] at h
    cases h
    rw [hcons.content, List.length_append]
    exact Nat.le_add_left _ _
  · rw [hskip] at h
    cases h

/-- The records of one file, each with the bytes that stand for it in the stream. -/
def deliverEntries (entry : FileEntry) (r : Reader) : Except DbError Reader × List Call :=
  match _h : entryHeader entry r with
  | .error e => (.error e, [])
  | .ok (none, r₁) => (.ok r₁, [])
  | .ok (some (kind, key, len), r₁) =>
    let call := Call.record entry kind key len ⟨r₁.source.content.take len, true⟩
    match _h' : r₁.skip len with
    | .error e => (.error e, [call])
    | .ok r₂ =>
      let (outcome, rest) := deliverEntries entry r₂
      (outcome, call :: rest)
termination_by r.source.content.length
decreasing_by exact (skip_le _h').trans_lt (entryHeader_lt _h)

def deliverFiles : Nat → List FileEntry → Reader → Except DbError Reader × List Call
  | _, [], r => (.ok r, [])
  | index, entry :: rest, r =>
    match deliverEntries entry r with
    | (.error e, records) => (.error e, .beginFile index entry :: records)
    | (.ok r, records) =>
      let (outcome, files) := deliverFiles (index + 1) rest r
      (outcome, .beginFile index entry :: (records ++ .endFile entry :: files))

/-- What the archive delivers. -/
def deliver (docs : Documents) (source : Feed UInt8 IoError) :
    Except DbError Summary × List Call :=
  match Reader.exactly { source := source } MAGIC.length "its header" with
  | .error e => (.error e, [])
  | .ok (magic, r) =>
    if magic ≠ MAGIC then
      (.error (refused ("it does not start with an archive header. " ++
        "Check the path names an archive and not something else")), [])
    else
      match r.document docs.readManifest "manifest" with
      | .error e => (.error e, [])
      | .ok (manifest, r) =>
        if CURRENT < manifest.archiveFormat ∨ manifest.archiveFormat < OLDEST_SUPPORTED then
          (.error (refused ("it is archive format " ++ toString manifest.archiveFormat ++
            ", and this build reads " ++ toString OLDEST_SUPPORTED ++ " to " ++
            toString CURRENT)), [])
        else
          match deliverFiles 0 manifest.files r with
          | (.error e, files) => (.error e, files)
          | (.ok r, files) => (readEnd docs manifest r, files)

/-! ## A pass over a sink -/

/-- The sink is called for what is delivered, and given the bytes of the record as far as it reads.
Where it reads to the end, until it is told that there is no more or has as many bytes as were
announced, it has been given all of them. -/
inductive Call.Gets : Call → Call → Prop where
  | beginFile (index : Nat) (entry : FileEntry) :
      Gets (.beginFile index entry) (.beginFile index entry)
  | record (entry : FileEntry) (kind : RecordKind) (key : String) (len : Nat)
      {given : Reading.Heard UInt8} {bytes : Bytes} (front : given.items <+: bytes)
      (all : given.ended = true ∨ given.items.length = len → given.items = bytes) :
      Gets (.record entry kind key len given) (.record entry kind key len ⟨bytes, true⟩)
  | endFile (entry : FileEntry) : Gets (.endFile entry) (.endFile entry)

/-- And the call succeeds. -/
def Returned.Gets (c : Returned) (d : Call) : Prop := c.outcome = .ok () ∧ c.call.Gets d

inductive Arrive : Except DbError Reader → Except DbError Reader → Prop where
  | error (e : DbError) : Arrive (.error e) (.error e)
  | ok {r r' : Reader} (h : Same r r') : Arrive (.ok r) (.ok r')

/-- The ways a sink can fail a call. -/
inductive Sink.Fails {σ : Type} (sink : Sink σ) : Prop where
  | beginFile (st : σ) (index : Nat) (entry : FileEntry)
      (h : (sink.beginFile st index entry).1 ≠ .ok ())
  | record (st : σ) (entry : FileEntry) (kind : RecordKind) (key : String) (len : Nat)
      (source : Feed UInt8 IoError)
      (h : ((sink.record st entry kind key len).run len source).1.1 ≠ .ok ())
  | endFile (st : σ) (entry : FileEntry) (h : (sink.endFile st entry).1 ≠ .ok ())

/-- Unless a call of the sink failed, the pass is what is delivered. -/
def Refines {σ : Type} (sink : Sink σ) (made : List Returned) (outcome : Except DbError Reader)
    (delivered : Except DbError Reader × List Call) : Prop :=
  (sink.Fails ∧ ∃ c ∈ made, c.outcome ≠ .ok ()) ∨
    (Arrive outcome delivered.1 ∧ List.Forall₂ Returned.Gets made delivered.2)

section

variable {σ : Type} {sink : Sink σ} {entry : FileEntry} {st st' : σ} {r r' : Reader}

theorem readEntries_error {e : DbError} (h : readEntry sink entry st r = (.error e, st')) :
    readEntries sink entry st r = (.error e, st') := by
  rw [readEntries]
  split <;> simp_all

theorem readEntries_ended (h : readEntry sink entry st r = (.ok (true, r'), st')) :
    readEntries sink entry st r = (.ok r', st') := by
  rw [readEntries]
  split <;> simp_all

theorem readEntries_next (h : readEntry sink entry st r = (.ok (false, r'), st')) :
    readEntries sink entry st r = readEntries sink entry st' r' := by
  rw [readEntries]
  split <;> simp_all

theorem deliverEntries_error {e : DbError} (h : entryHeader entry r = .error e) :
    deliverEntries entry r = (.error e, []) := by
  rw [deliverEntries]
  split <;> simp_all

theorem deliverEntries_ended (h : entryHeader entry r = .ok (none, r')) :
    deliverEntries entry r = (.ok r', []) := by
  rw [deliverEntries]
  split <;> simp_all

section

variable {kind : RecordKind} {key : String} {len : Nat}

theorem deliverEntries_short {e : DbError}
    (h : entryHeader entry r = .ok (some (kind, key, len), r')) (hskip : r'.skip len = .error e) :
    deliverEntries entry r =
      (.error e, [.record entry kind key len ⟨r'.source.content.take len, true⟩]) := by
  rw [deliverEntries]
  split
  · rename_i hheader
    cases h.symm.trans hheader
  · rename_i hheader
    cases h.symm.trans hheader
  · rename_i hheader
    cases h.symm.trans hheader
    dsimp only
    split
    · rename_i hskip'
      cases hskip.symm.trans hskip'
      rfl
    · rename_i hskip'
      cases hskip.symm.trans hskip'

theorem deliverEntries_next {r₂ : Reader}
    (h : entryHeader entry r = .ok (some (kind, key, len), r')) (hskip : r'.skip len = .ok r₂) :
    deliverEntries entry r = ((deliverEntries entry r₂).1,
      .record entry kind key len ⟨r'.source.content.take len, true⟩ ::
        (deliverEntries entry r₂).2) := by
  rw [deliverEntries]
  split
  · rename_i hheader
    cases h.symm.trans hheader
  · rename_i hheader
    cases h.symm.trans hheader
  · rename_i hheader
    cases h.symm.trans hheader
    dsimp only
    split
    · rename_i hskip'
      cases hskip.symm.trans hskip'
    · rename_i hskip'
      cases hskip.symm.trans hskip'
      rfl

end

/-- A record in both: the same record for the same place, whatever the sink made of the body. -/
theorem bounded_arrives {body : Reading UInt8 IoError (Except DbError Unit × σ)} {len : Nat}
    (h : Same r r') (hok : (body.run len r.source).1.1 = .ok ()) :
    Arrive (r.bounded len body).1 (r'.skip len) := by
  have hlen : r.source.content.length = r'.source.content.length := by rw [h.content]
  rcases bounded_quiet hok with ⟨hle, r₁, hcons, hb⟩ | ⟨hlt, hb⟩
  · rcases skip_cases r' len with ⟨-, r₁', hcons', hskip⟩ | ⟨hlt', -⟩
    · rw [hb, hskip]
      rw [← h.content] at hcons'
      exact .ok (h.consumes hcons hcons')
    · exact absurd hle (by omega)
  · rcases skip_cases r' len with ⟨hle', -⟩ | ⟨-, hskip⟩
    · exact absurd hle' (by omega)
    · rw [hb, hskip, h.short]
      exact .error _

/-- What the sink is given of a record. -/
theorem record_gets (h : Same r r') (body : Reading UInt8 IoError (Except DbError Unit × σ))
    (entry : FileEntry) (kind : RecordKind) (key : String) (len : Nat) :
    Call.Gets (.record entry kind key len
        ⟨(body.run len r.source).2.1, body.ended len r.source⟩)
      (.record entry kind key len ⟨r'.source.content.take len, true⟩) := by
  have hfront := given_prefix body r len
  rw [h.content] at hfront
  refine .record entry kind key len hfront fun hall => ?_
  rcases hall with hended | hlen
  · rw [← h.content]
    exact body.ended_run len r.source hended
  · refine hfront.eq_of_length_le ?_
    rw [hlen]
    exact List.length_take_le _ _

end

section

variable {σ : Type} {sink : Sink σ} {outcome outcome' : Except DbError Reader}
variable {made : List Returned} {records : List Call}

theorem Refines.cons {c : Returned} {d : Call} (hget : c.Gets d)
    (h : Refines sink made outcome (outcome', records)) :
    Refines sink (c :: made) outcome (outcome', d :: records) := by
  rcases h with ⟨hsink, failed, hmem, hfailed⟩ | ⟨harrive, hall⟩
  · exact Or.inl ⟨hsink, failed, List.mem_cons_of_mem _ hmem, hfailed⟩
  · exact Or.inr ⟨harrive, .cons hget hall⟩

theorem Refines.append {before : List Returned} {first : List Call}
    (hbefore : List.Forall₂ Returned.Gets before first)
    (h : Refines sink made outcome (outcome', records)) :
    Refines sink (before ++ made) outcome (outcome', first ++ records) := by
  induction hbefore with
  | nil => exact h
  | cons hget _ ih => exact ih.cons hget

end

theorem entries_refine {σ : Type} (sink : Sink σ) (entry : FileEntry) : ∀ (n : Nat) (st : σ)
    (log : List Returned) (r r' : Reader), r.source.content.length < n → Same r r' →
    ∃ made, readEntries sink.logged entry (log, st) r = ((readEntries sink entry st r).1,
        (log ++ made, (readEntries sink entry st r).2)) ∧
      Refines sink made (readEntries sink entry st r).1 (deliverEntries entry r') := by
  intro n
  induction n with
  | zero => exact fun _ _ r _ hn => absurd hn (Nat.not_lt_zero _)
  | succ n ih =>
    intro st log r r' hn h
    have hread := readEntry_eq sink entry st r
    have hlogged := readEntry_eq sink.logged entry (log, st) r
    have hlt : ∀ header r₁, entryHeader entry r = .ok (header, r₁) →
        r₁.source.content.length < r.source.content.length := fun _ _ => entryHeader_lt
    have hagree := entryHeader_agree h entry
    generalize hx : entryHeader entry r = x at hread hlogged hlt hagree
    generalize hy : entryHeader entry r' = y at hagree
    cases hagree with
    | error e =>
      refine ⟨[], ?_, Or.inr ?_⟩
      · rw [readEntries_error hread, readEntries_error hlogged, List.append_nil]
      · rw [readEntries_error hread, deliverEntries_error hy]
        exact ⟨.error e, .nil⟩
    | @ok header r₁ r₁' h₁ =>
      have hlt := hlt header r₁ rfl
      cases header with
      | none =>
        refine ⟨[], ?_, Or.inr ?_⟩
        · rw [readEntries_ended hread, readEntries_ended hlogged, List.append_nil]
        · rw [readEntries_ended hread, deliverEntries_ended hy]
          exact ⟨.ok h₁, .nil⟩
      | some header =>
        obtain ⟨kind, key, len⟩ := header
        rw [afterHeader, bounded_logged] at hlogged
        rw [afterHeader] at hread
        have hgets := record_gets h₁ (sink.record st entry kind key len) entry kind key len
        have harrives : ((sink.record st entry kind key len).run len r₁.source).1.1 = .ok () →
            Arrive (r₁.bounded len (sink.record st entry kind key len)).1 (r₁'.skip len) :=
          bounded_arrives h₁
        have hreturned : ∀ r₂, (r₁.bounded len (sink.record st entry kind key len)).1 = .ok r₂ →
            ((sink.record st entry kind key len).run len r₁.source).1.1 = .ok () :=
          fun _ => returned_of_bounded
        generalize hrun : (sink.record st entry kind key len).run len r₁.source = run at *
        generalize (sink.record st entry kind key len).ended len r₁.source = ended at *
        generalize hout : r₁.bounded len (sink.record st entry kind key len) = out at *
        obtain ⟨outcome, st₁⟩ := out
        dsimp only at hread hlogged harrives hreturned
        cases outcome with
        | error e =>
          refine ⟨[⟨.record entry kind key len ⟨run.2.1, ended⟩, run.1.1⟩], ?_, ?_⟩
          · rw [readEntries_error hread, readEntries_error hlogged]
          · by_cases hok : run.1.1 = .ok ()
            · have harrive := harrives hok
              generalize hskip : r₁'.skip len = y at harrive
              cases harrive
              rw [readEntries_error hread, deliverEntries_short hy hskip]
              exact Or.inr ⟨.error e, .cons ⟨hok, hgets⟩ .nil⟩
            · refine Or.inl ⟨.record st entry kind key len r₁.source ?_, _,
                List.mem_singleton_self _, hok⟩
              rwa [hrun]
        | ok r₂ =>
          have hok := hreturned r₂ rfl
          have harrive := harrives hok
          have hlt₂ : r₂.source.content.length < n := by
            obtain ⟨bytes, -, hcons⟩ := Reader.bounded_ok hout
            have hle := congrArg List.length hcons.content
            rw [List.length_append] at hle
            omega
          generalize hskip : r₁'.skip len = y at harrive
          cases harrive with
          | @ok _ r₂' h₂ =>
            obtain ⟨made, hmade, hrefines⟩ := ih st₁ _ r₂ r₂' hlt₂ h₂
            refine ⟨⟨.record entry kind key len ⟨run.2.1, ended⟩, run.1.1⟩ :: made, ?_, ?_⟩
            · rw [readEntries_next hread, readEntries_next hlogged, hmade, List.append_assoc,
                List.singleton_append]
            · rw [readEntries_next hread, deliverEntries_next hy hskip]
              exact hrefines.cons ⟨hok, hgets⟩

theorem files_refine {σ : Type} (sink : Sink σ) : ∀ (files : List FileEntry) (index : Nat) (st : σ)
    (log : List Returned) (r r' : Reader), Same r r' →
    ∃ made, readFiles sink.logged index files (log, st) r =
        ((readFiles sink index files st r).1, (log ++ made, (readFiles sink index files st r).2)) ∧
      Refines sink made (readFiles sink index files st r).1 (deliverFiles index files r') := by
  intro files
  induction files with
  | nil =>
    intro index st log r r' h
    refine ⟨[], ?_, Or.inr ⟨.ok h, .nil⟩⟩
    rw [readFiles, readFiles, List.append_nil]
  | cons entry files ih =>
    intro index st log r r' h
    have hbegin : sink.logged.beginFile (log, st) index entry = ((sink.beginFile st index entry).1,
        (log ++ [⟨.beginFile index entry, (sink.beginFile st index entry).1⟩],
          (sink.beginFile st index entry).2)) := rfl
    rw [readFiles, readFiles, hbegin]
    generalize hbegun : sink.beginFile st index entry = begun
    obtain ⟨outcome, st₁⟩ := begun
    cases outcome with
    | error e =>
      refine ⟨[⟨.beginFile index entry, .error e⟩], rfl, Or.inl ?_⟩
      exact ⟨.beginFile st index entry (by rw [hbegun]; rintro ⟨⟩), _, List.mem_singleton_self _,
        by rintro ⟨⟩⟩
    | ok u =>
      dsimp only
      obtain ⟨made, hmade, hrefines⟩ := entries_refine sink entry (r.source.content.length + 1) st₁
        (log ++ [⟨.beginFile index entry, .ok ()⟩]) r r' (Nat.lt_succ_self _) h
      rw [hmade]
      generalize readEntries sink entry st₁ r = entries at hrefines ⊢
      rw [deliverFiles]
      generalize deliverEntries entry r' = delivered at hrefines ⊢
      obtain ⟨outcome, st₂⟩ := entries
      obtain ⟨outcome', records⟩ := delivered
      dsimp only at hrefines ⊢
      cases outcome with
      | error e =>
        refine ⟨⟨.beginFile index entry, .ok ()⟩ :: made, ?_, ?_⟩
        · rw [List.append_assoc, List.singleton_append]
        · rcases hrefines with ⟨hsink, c, hc, hfailed⟩ | ⟨harrive, hall⟩
          · exact Or.inl ⟨hsink, c, List.mem_cons_of_mem _ hc, hfailed⟩
          · cases harrive
            exact Or.inr ⟨.error e, .cons ⟨rfl, .beginFile index entry⟩ hall⟩
      | ok r₁ =>
        have hend : sink.logged.endFile
            (log ++ [⟨.beginFile index entry, .ok ()⟩] ++ made, st₂) entry =
          ((sink.endFile st₂ entry).1,
            (log ++ [⟨.beginFile index entry, .ok ()⟩] ++ made ++
              [⟨.endFile entry, (sink.endFile st₂ entry).1⟩], (sink.endFile st₂ entry).2)) := rfl
        dsimp only
        rw [hend]
        generalize hended : sink.endFile st₂ entry = ended
        obtain ⟨outcome, st₃⟩ := ended
        cases outcome with
        | error e =>
          refine ⟨⟨.beginFile index entry, .ok ()⟩ :: (made ++ [⟨.endFile entry, .error e⟩]), ?_,
            Or.inl ⟨.endFile st₂ entry (by rw [hended]; rintro ⟨⟩), ⟨.endFile entry, .error e⟩,
              by simp, by rintro ⟨⟩⟩⟩
          simp only [List.append_assoc, List.cons_append, List.nil_append]
        | ok u =>
          dsimp only
          rcases hrefines with ⟨hsink, c, hc, hfailed⟩ | ⟨harrive, hall⟩
          · obtain ⟨made', hmade', -⟩ := ih (index + 1) st₃
              (log ++ [⟨.beginFile index entry, .ok ()⟩] ++ made ++ [⟨.endFile entry, .ok ()⟩])
              r₁ r₁ ⟨rfl, rfl, rfl, rfl⟩
            rw [hmade']
            refine ⟨⟨.beginFile index entry, .ok ()⟩ ::
              (made ++ ⟨.endFile entry, .ok ()⟩ :: made'), ?_,
              Or.inl ⟨hsink, c, List.mem_cons_of_mem _ (List.mem_append_left _ hc), hfailed⟩⟩
            simp only [List.append_assoc, List.cons_append, List.nil_append]
          · cases harrive with
            | @ok _ r₁' h₁ =>
              obtain ⟨made', hmade', hrefines'⟩ := ih (index + 1) st₃
                (log ++ [⟨.beginFile index entry, .ok ()⟩] ++ made ++ [⟨.endFile entry, .ok ()⟩])
                r₁ r₁' h₁
              rw [hmade']
              refine ⟨⟨.beginFile index entry, .ok ()⟩ ::
                (made ++ ⟨.endFile entry, .ok ()⟩ :: made'), ?_, ?_⟩
              · simp only [List.append_assoc, List.cons_append, List.nil_append]
              · have hended : Refines sink (⟨.endFile entry, .ok ()⟩ :: made') _ (_, _ :: _) :=
                  hrefines'.cons ⟨rfl, .endFile entry⟩
                exact (hended.append hall).cons ⟨rfl, .beginFile index entry⟩

/-! ## The two passes -/

/-- A pass over a sink whose calls all succeed is what the stream delivers, however it is cut. -/
theorem read_refines {σ : Type} (docs : Documents) (sink : Sink σ) (st : σ)
    {source source' : Feed UInt8 IoError} (hcontent : source.content = source'.content)
    (hfailure : source.failure = source'.failure)
    (hquiet : sink.Fails → ∀ c ∈ calls docs sink st source, c.outcome = .ok ()) :
    (read docs sink st source).1 = (deliver docs source').1 ∧
      List.Forall₂ Returned.Gets (calls docs sink st source) (deliver docs source').2 := by
  have hstart : Same { source := source } { source := source' } := ⟨hcontent, hfailure, rfl, rfl⟩
  have hmagic := exactly_agree hstart MAGIC.length "its header"
  unfold calls read at hquiet ⊢
  unfold deliver
  generalize Reader.exactly { source := source } MAGIC.length "its header" = x,
    Reader.exactly { source := source' } MAGIC.length "its header" = y at hmagic hquiet ⊢
  cases hmagic with
  | error e => exact ⟨rfl, .nil⟩
  | @ok magic r r' h =>
    dsimp only at hquiet ⊢
    split
    · exact ⟨rfl, .nil⟩
    · rename_i hmagic
      rw [if_neg hmagic] at hquiet
      have hdoc := document_agree h docs.readManifest "manifest"
      generalize r.document docs.readManifest "manifest" = x,
        r'.document docs.readManifest "manifest" = y at hdoc hquiet ⊢
      cases hdoc with
      | error e => exact ⟨rfl, .nil⟩
      | @ok manifest r r' h =>
        dsimp only at hquiet ⊢
        split
        · exact ⟨rfl, .nil⟩
        · rename_i hformat
          rw [if_neg hformat] at hquiet
          obtain ⟨made, hmade, hrefines⟩ := files_refine sink manifest.files 0 st [] r r' h
          rw [hmade, List.nil_append] at hquiet ⊢
          generalize readFiles sink 0 manifest.files st r = files at hquiet hrefines ⊢
          generalize deliverFiles 0 manifest.files r' = delivered at hrefines ⊢
          obtain ⟨outcome, st'⟩ := files
          obtain ⟨outcome', records⟩ := delivered
          rcases hrefines with ⟨hsink, c, hc, hfailed⟩ | ⟨harrive, hgets⟩
          · have hall : ∀ c ∈ made, c.outcome = .ok () := by
              cases outcome with
              | error e => exact hquiet hsink
              | ok r => exact hquiet hsink
            exact absurd (hall c hc) hfailed
          · cases harrive with
            | error e => exact ⟨rfl, hgets⟩
            | ok h => exact ⟨readEnd_same h docs manifest, hgets⟩

/-- The verifying pass fails no call. -/
theorem not_discard_fails : ¬discard.Fails := by
  intro h
  cases h with
  | beginFile st index entry h => exact h rfl
  | record st entry kind key len source h => exact h rfl
  | endFile st entry h => exact h rfl

section

/-- Keeps every body, read to its end byte by byte. -/
def keep : Sink (List Bytes) where
  beginFile st _ _ := (.ok (), st)
  record st _ _ _ len :=
    .toEnd 1 (fun bytes => (.ok (), st ++ [bytes])) (fun _ => (.ok (), st)) (len + 1) []
  endFile st _ := (.ok (), st)

end

end Archive

end RustyPick
