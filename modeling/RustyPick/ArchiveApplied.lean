import RustyPick.ArchivePasses

/-!
# RustyPick.ArchiveApplied

A sink that reads every record to its end, as the step it takes for each thing it is given.

* `read_applied`: over an archive that verifies, a pass is that step for one thing after another, up
  to the first that fails, whatever pieces the stream arrives in.
* `verify_of_read`: what any sink reads through verifies.
* `Sink.Keeps.read`: over any stream, a pass keeps what every call keeps.
-/

namespace RustyPick

open Lib

namespace Archive

/-- One step after another, to the first that fails. -/
def applyAll {σ δ : Type} (step : σ → δ → Except DbError Unit × σ) :
    σ → List δ → Except DbError Unit × σ
  | st, [] => (.ok (), st)
  | st, d :: rest =>
    match step st d with
    | (.error e, st) => (.error e, st)
    | (.ok (), st) => applyAll step st rest

section

variable {σ δ : Type} {step : σ → δ → Except DbError Unit × σ}

theorem applyAll_cons_error {st st' : σ} {d : δ} {e : DbError} (h : step st d = (.error e, st'))
    (rest : List δ) : applyAll step st (d :: rest) = (.error e, st') := by
  simp only [applyAll, h]

theorem applyAll_cons_ok {st st' : σ} {d : δ} (h : step st d = (.ok (), st')) (rest : List δ) :
    applyAll step st (d :: rest) = applyAll step st' rest := by
  simp only [applyAll, h]

/-- A run is a run of its first part, and of the rest where that has not failed. -/
theorem applyAll_append (step : σ → δ → Except DbError Unit × σ) (st : σ) (a b : List δ) :
    (∃ e, (applyAll step st a).1 = .error e ∧ applyAll step st (a ++ b) = applyAll step st a) ∨
    ((applyAll step st a).1 = .ok () ∧
      applyAll step st (a ++ b) = applyAll step (applyAll step st a).2 b) := by
  induction a generalizing st with
  | nil => exact Or.inr ⟨rfl, rfl⟩
  | cons d a ih =>
    rw [List.cons_append]
    rcases hstep : step st d with ⟨outcome, st'⟩
    cases outcome with
    | error e =>
      rw [applyAll_cons_error hstep, applyAll_cons_error hstep]
      exact Or.inl ⟨e, rfl, rfl⟩
    | ok u =>
      rw [applyAll_cons_ok hstep, applyAll_cons_ok hstep]
      exact ih st'

end

/-- The sink reads to the end of each record, and takes this step then. -/
structure Sink.Applies {σ : Type} (sink : Sink σ)
    (step : σ → Delivered → Except DbError Unit × σ) : Prop where
  beginFile : ∀ st index entry, sink.beginFile st index entry = step st (.beginFile index entry)
  record : ∀ st entry kind key len (source : Feed UInt8 IoError), len ≤ source.content.length →
    ((sink.record st entry kind key len).run len source).1 =
      step st (.record entry { kind, key, bytes := source.content.take len })
  endFile : ∀ st entry, sink.endFile st entry = step st (.endFile entry)

theorem collect_applies {buffer : Nat} (hbuffer : 0 < buffer) :
    (collect buffer).Applies fun st d => (.ok (), st ++ [d]) where
  beginFile _ _ _ := rfl
  record st entry kind key len source hle := by
    rw [collect, Reading.toEnd_run hbuffer _ _ _ _ _ _ (Nat.lt_succ_self _) hle, List.nil_append]
  endFile _ _ := rfl

theorem applyAll_collect (ds : List Delivered) (st : List Delivered) :
    applyAll (fun st d => (.ok (), st ++ [d])) st ds = (.ok (), st ++ ds) := by
  induction ds generalizing st with
  | nil => rw [applyAll, List.append_nil]
  | cons d ds ih =>
    have hone : applyAll (fun st d => (.ok (), st ++ [d])) st (d :: ds) =
        applyAll (fun st d => (.ok (), st ++ [d])) (st ++ [d]) ds := rfl
    rw [hone, ih, List.append_assoc, List.singleton_append]

/-- One record of a sink that applies. -/
theorem readEntry_applied {σ : Type} {sink : Sink σ}
    {step : σ → Delivered → Except DbError Unit × σ} (h : sink.Applies step) {entry : FileEntry}
    {kind : RecordKind} {key : String} {len : Nat} {r r₁ : Reader} (st : σ)
    (hheader : entryHeader entry r = .ok (some (kind, key, len), r₁))
    (hle : len ≤ r₁.source.content.length) :
    ∃ r₂, Consumes r₁ (r₁.source.content.take len) r₂ ∧
      readEntry sink entry st r =
        ((step st (.record entry { kind, key, bytes := r₁.source.content.take len })).1.map
            fun _ => (false, r₂),
          (step st (.record entry { kind, key, bytes := r₁.source.content.take len })).2) := by
  have hrun := h.record st entry kind key len r₁.source hle
  rcases Reader.bounded_takes (sink.record st entry kind key len) r₁ len with
    ⟨-, r₂, hcons, hbounded⟩ | ⟨hlt, -⟩
  · refine ⟨r₂, hcons, ?_⟩
    rw [readEntry_eq, hheader, afterHeader, hbounded, hrun]
    obtain ⟨outcome, st'⟩ :=
      step st (.record entry { kind, key, bytes := r₁.source.content.take len })
    cases outcome <;> rfl
  · omega

/-- The records of a file that is delivered to its end. -/
theorem entries_applied (entry : FileEntry) : ∀ (n : Nat) (r' r₂' : Reader) (cs : List Call),
    r'.source.content.length < n → deliverEntries entry r' = (.ok r₂', cs) →
    ∃ items : List Item, ∀ {σ : Type} {sink : Sink σ}
      {step : σ → Delivered → Except DbError Unit × σ}, sink.Applies step → ∀ (st : σ) (r : Reader),
      Same r r' → ∃ r₂, Same r₂ r₂' ∧ readEntries sink entry st r =
        ((applyAll step st (items.map (.record entry))).1.map fun _ => r₂,
          (applyAll step st (items.map (.record entry))).2) := by
  intro n
  induction n with
  | zero => exact fun _ _ _ hn => absurd hn (Nat.not_lt_zero _)
  | succ n ih =>
    intro r' r₂' cs hn hdeliver
    rcases hheader : entryHeader entry r' with e | ⟨header, r₁'⟩
    · rw [deliverEntries_error hheader] at hdeliver
      cases hdeliver
    have hlt := entryHeader_lt hheader
    cases header with
    | none =>
      rw [deliverEntries_ended hheader] at hdeliver
      cases hdeliver
      refine ⟨[], fun happlies st r hsame => ?_⟩
      have hagree := entryHeader_agree hsame entry
      rw [hheader] at hagree
      generalize hx : entryHeader entry r = x at hagree
      cases hagree with
      | ok _ hsame₁ =>
        refine ⟨_, hsame₁, ?_⟩
        rw [readEntries_ended (by rw [readEntry_eq, hx, afterHeader])]
        rfl
    | some header =>
      obtain ⟨kind, key, len⟩ := header
      rcases skip_cases r₁' len with ⟨hle, r₃', hcons', hskip⟩ | ⟨-, hskip⟩
      · rw [deliverEntries_next hheader hskip] at hdeliver
        have hshort := skip_le hskip
        obtain ⟨rest, hrest⟩ := ih r₃' r₂' (deliverEntries entry r₃').2 (by omega)
          (Prod.ext (Prod.mk.inj hdeliver).1 rfl)
        refine ⟨{ kind, key, bytes := r₁'.source.content.take len } :: rest,
          fun {σ sink step} happlies st r hsame => ?_⟩
        have hagree := entryHeader_agree hsame entry
        rw [hheader] at hagree
        generalize hx : entryHeader entry r = x at hagree
        cases hagree with
        | @ok _ r₁ _ hsame₁ =>
          have hcontent := hsame₁.content
          obtain ⟨r₃, hcons, hentry⟩ := readEntry_applied happlies st hx (by rw [hcontent]; exact hle)
          rw [hcontent] at hcons hentry
          have hsame₃ := hsame₁.consumes hcons hcons'
          rw [List.map_cons]
          rcases hstep : step st (.record entry { kind, key, bytes := r₁'.source.content.take len })
            with ⟨outcome, st'⟩
          rw [hstep] at hentry
          cases outcome with
          | error e =>
            obtain ⟨r₂, hsame₂, -⟩ := hrest happlies st r₃ hsame₃
            refine ⟨r₂, hsame₂, ?_⟩
            rw [readEntries_error hentry, applyAll_cons_error hstep]
            rfl
          | ok u =>
            obtain ⟨r₂, hsame₂, hread⟩ := hrest happlies st' r₃ hsame₃
            refine ⟨r₂, hsame₂, ?_⟩
            rw [readEntries_next hentry, hread, applyAll_cons_ok hstep]
      · rw [deliverEntries_short hheader hskip] at hdeliver
        cases hdeliver

theorem files_applied : ∀ (entries : List FileEntry) (index : Nat) (r' r₂' : Reader)
    (cs : List Call), deliverFiles index entries r' = (.ok r₂', cs) →
    ∃ files : List (List Item), files.length = entries.length ∧ ∀ {σ : Type} {sink : Sink σ}
      {step : σ → Delivered → Except DbError Unit × σ}, sink.Applies step → ∀ (st : σ) (r : Reader),
      Same r r' → ∃ r₂, Same r₂ r₂' ∧ readFiles sink index entries st r =
        ((applyAll step st (deliveries index entries files)).1.map fun _ => r₂,
          (applyAll step st (deliveries index entries files)).2) := by
  intro entries
  induction entries with
  | nil =>
    intro index r' r₂' cs hdeliver
    cases hdeliver
    exact ⟨[], rfl, fun _ st r hsame => ⟨r, hsame, rfl⟩⟩
  | cons entry rest ih =>
    intro index r' r₂' cs hdeliver
    rw [deliverFiles] at hdeliver
    rcases hrecords : deliverEntries entry r' with ⟨outcome, records⟩
    rw [hrecords] at hdeliver
    cases outcome with
    | error e => cases hdeliver
    | ok r₁' =>
      obtain ⟨items, hitems⟩ := entries_applied entry _ r' r₁' records (Nat.lt_succ_self _) hrecords
      obtain ⟨files, hlen, hfiles⟩ := ih (index + 1) r₁' r₂' (deliverFiles (index + 1) rest r₁').2
        (Prod.ext (Prod.mk.inj hdeliver).1 rfl)
      refine ⟨items :: files, congrArg Nat.succ hlen, fun {σ sink step} happlies st r hsame => ?_⟩
      rw [deliveries, readFiles, happlies.beginFile]
      rcases hbegin : step st (.beginFile index entry) with ⟨begun, st₁⟩
      cases begun with
      | error e =>
        obtain ⟨r₁, hsame₁, -⟩ := hitems happlies st r hsame
        obtain ⟨r₂, hsame₂, -⟩ := hfiles happlies st r₁ hsame₁
        rw [applyAll_cons_error hbegin]
        exact ⟨r₂, hsame₂, rfl⟩
      | ok u =>
        obtain ⟨r₁, hsame₁, hread⟩ := hitems happlies st₁ r hsame
        dsimp only
        rw [applyAll_cons_ok hbegin, hread]
        rcases applyAll_append step st₁ (items.map (.record entry))
            (.endFile entry :: deliveries (index + 1) rest files) with
          ⟨e, herror, hall⟩ | ⟨hok, hall⟩
        · obtain ⟨r₂, hsame₂, -⟩ := hfiles happlies st₁ r₁ hsame₁
          refine ⟨r₂, hsame₂, ?_⟩
          rw [hall, herror]
          rfl
        · rw [hall, hok]
          generalize (applyAll step st₁ (items.map (.record entry))).2 = st₂
          dsimp only [Except.map]
          rw [happlies.endFile]
          rcases hend : step st₂ (.endFile entry) with ⟨ended, st₃⟩
          cases ended with
          | error e =>
            obtain ⟨r₂, hsame₂, -⟩ := hfiles happlies st₂ r₁ hsame₁
            rw [applyAll_cons_error hend]
            exact ⟨r₂, hsame₂, rfl⟩
          | ok u =>
            rw [applyAll_cons_ok hend]
            exact hfiles happlies st₃ r₁ hsame₁

/-- A pass over an archive that verifies: one step after another, for the files it describes and the
entries that stand in it. -/
theorem read_applied {docs : Documents} {source' : Feed UInt8 IoError} {summary : Summary}
    (hverify : verify docs source' = .ok summary) :
    ∃ files : List (List Item), files.length = summary.manifest.files.length ∧
      ∀ {σ : Type} {sink : Sink σ} {step : σ → Delivered → Except DbError Unit × σ},
      sink.Applies step → ∀ (st : σ) (source : Feed UInt8 IoError),
      source.content = source'.content → source.failure = source'.failure →
      read docs sink st source =
        ((applyAll step st (deliveries 0 summary.manifest.files files)).1.map fun _ => summary,
          (applyAll step st (deliveries 0 summary.manifest.files files)).2) := by
  have hself : source'.content = source'.content := rfl
  have hdeliver : (deliver docs source').1 = .ok summary :=
    (read_refines docs discard () hself rfl fun h => absurd h not_discard_fails).1.symm.trans hverify
  unfold deliver at hdeliver
  rcases hmagic : Reader.exactly { source := source' } MAGIC.length "its header" with e | ⟨magic, r'⟩
  · rw [hmagic] at hdeliver
    cases hdeliver
  rw [hmagic] at hdeliver
  dsimp only at hdeliver
  split at hdeliver
  · cases hdeliver
  rename_i hfound
  rcases hdoc : r'.document docs.readManifest "manifest" with e | ⟨manifest, r₁'⟩
  · rw [hdoc] at hdeliver
    cases hdeliver
  rw [hdoc] at hdeliver
  dsimp only at hdeliver
  split at hdeliver
  · cases hdeliver
  rename_i hformat
  rcases hfiles : deliverFiles 0 manifest.files r₁' with ⟨outcome, records⟩
  rw [hfiles] at hdeliver
  cases outcome with
  | error e => cases hdeliver
  | ok r₂' =>
    have hend : readEnd docs manifest r₂' = .ok summary := hdeliver
    obtain ⟨rfl, -⟩ := readEnd_ok hend
    obtain ⟨files, hlen, happly⟩ := files_applied summary.manifest.files 0 r₁' r₂' records hfiles
    refine ⟨files, hlen, fun {σ sink step} happlies st source hcontent hfailure => ?_⟩
    have hstart : Same { source := source } { source := source' } := ⟨hcontent, hfailure, rfl, rfl⟩
    have hagree := exactly_agree hstart MAGIC.length "its header"
    rw [hmagic] at hagree
    unfold read
    generalize Reader.exactly { source := source } MAGIC.length "its header" = x at hagree
    cases hagree with
    | @ok _ r _ hsame =>
      have hagree := document_agree hsame docs.readManifest "manifest"
      rw [hdoc] at hagree
      dsimp only
      rw [if_neg hfound]
      generalize r.document docs.readManifest "manifest" = x at hagree
      cases hagree with
      | @ok _ r₁ _ hsame₁ =>
        obtain ⟨r₂, hsame₂, hread⟩ := happly happlies st r₁ hsame₁
        dsimp only
        rw [if_neg hformat, hread]
        obtain ⟨outcome, st'⟩ := applyAll step st (deliveries 0 summary.manifest.files files)
        cases outcome with
        | error e => rfl
        | ok u =>
          dsimp only [Except.map]
          rw [readEnd_same hsame₂ docs summary.manifest, hend]

/-! ## Whatever the sink -/

theorem entries_delivered {σ : Type} (sink : Sink σ) (entry : FileEntry) : ∀ (n : Nat) {st st' : σ}
    {r r' r₂ : Reader}, r.source.content.length < n → Same r r' →
    readEntries sink entry st r = (.ok r₂, st') →
    ∃ r₂', Same r₂ r₂' ∧ (deliverEntries entry r').1 = .ok r₂' := by
  intro n
  induction n with
  | zero => exact fun hn => absurd hn (Nat.not_lt_zero _)
  | succ n ih =>
    intro st st' r r' r₂ hn hsame hread
    have hagree := entryHeader_agree hsame entry
    rcases hheader : entryHeader entry r with e | ⟨header, r₁⟩
    · rw [readEntries_error (by rw [readEntry_eq, hheader, afterHeader])] at hread
      cases hread
    have hlt := entryHeader_lt hheader
    rw [hheader] at hagree
    generalize hheader' : entryHeader entry r' = x at hagree
    cases hagree with
    | @ok _ _ r₁' hsame₁ =>
      cases header with
      | none =>
        rw [readEntries_ended (by rw [readEntry_eq, hheader, afterHeader])] at hread
        obtain rfl := Except.ok.inj (Prod.mk.inj hread).1
        exact ⟨r₁', hsame₁, by rw [deliverEntries_ended hheader']⟩
      | some header =>
        obtain ⟨kind, key, len⟩ := header
        rcases hbounded : r₁.bounded len (sink.record st entry kind key len) with ⟨e | r₃, st₃⟩
        · rw [readEntries_error (by rw [readEntry_eq, hheader, afterHeader, hbounded])] at hread
          cases hread
        · have hok := congrArg Prod.fst hbounded
          have harrive := bounded_arrives hsame₁ (returned_of_bounded hok)
          rw [hok] at harrive
          generalize hskip : r₁'.skip len = y at harrive
          cases harrive with
          | @ok _ r₃' hsame₃ =>
            rw [readEntries_next (by rw [readEntry_eq, hheader, afterHeader, hbounded])] at hread
            have hshort := skip_le hskip
            rw [← hsame₃.content, ← hsame₁.content] at hshort
            obtain ⟨r₂', hsame₂, hdeliver⟩ := ih (by omega) hsame₃ hread
            exact ⟨r₂', hsame₂, by rw [deliverEntries_next hheader' hskip, hdeliver]⟩

theorem files_delivered {σ : Type} (sink : Sink σ) : ∀ (entries : List FileEntry) (index : Nat)
    {st st' : σ} {r r' r₂ : Reader}, Same r r' →
    readFiles sink index entries st r = (.ok r₂, st') →
    ∃ r₂', Same r₂ r₂' ∧ (deliverFiles index entries r').1 = .ok r₂' := by
  intro entries
  induction entries with
  | nil =>
    intro index st st' r r' r₂ hsame hread
    obtain rfl := Except.ok.inj (Prod.mk.inj hread).1
    exact ⟨r', hsame, rfl⟩
  | cons entry rest ih =>
    intro index st st' r r' r₂ hsame hread
    rw [readFiles] at hread
    rcases hbegin : sink.beginFile st index entry with ⟨e | u, st₁⟩
    · rw [hbegin] at hread
      cases hread
    rw [hbegin] at hread
    dsimp only at hread
    rcases hrecords : readEntries sink entry st₁ r with ⟨e | r₁, st₂⟩
    · rw [hrecords] at hread
      cases hread
    rw [hrecords] at hread
    dsimp only at hread
    rcases hend : sink.endFile st₂ entry with ⟨e | u, st₃⟩
    · rw [hend] at hread
      cases hread
    rw [hend] at hread
    obtain ⟨r₁', hsame₁, hdeliver⟩ :=
      entries_delivered sink entry _ (Nat.lt_succ_self _) hsame hrecords
    obtain ⟨r₂', hsame₂, hfiles⟩ := ih (index + 1) hsame₁ hread
    refine ⟨r₂', hsame₂, ?_⟩
    rw [deliverFiles]
    rcases hpair : deliverEntries entry r' with ⟨outcome, records⟩
    rw [hpair] at hdeliver
    dsimp only at hdeliver
    rw [hdeliver]
    exact hfiles

/-- What any sink reads through verifies. -/
theorem verify_of_read {σ : Type} {docs : Documents} {sink : Sink σ} {st st' : σ}
    {source : Feed UInt8 IoError} {summary : Summary}
    (h : read docs sink st source = (.ok summary, st')) : verify docs source = .ok summary := by
  have hself : source.content = source.content := rfl
  have hrefines := (read_refines docs discard () hself rfl fun h => absurd h not_discard_fails).1
  rw [verify, hrefines]
  unfold read at h
  unfold deliver
  generalize Reader.exactly { source := source } MAGIC.length "its header" = start at h ⊢
  rcases start with e | ⟨magic, r⟩
  · cases h
  dsimp only at h ⊢
  split at h
  · cases h
  rename_i hmagic
  rw [if_neg hmagic]
  generalize r.document docs.readManifest "manifest" = document at h ⊢
  rcases document with e | ⟨manifest, r₁⟩
  · cases h
  dsimp only at h ⊢
  split at h
  · cases h
  rename_i hformat
  rw [if_neg hformat]
  rcases hfiles : readFiles sink 0 manifest.files st r₁ with ⟨e | r₂, st₂⟩
  · rw [hfiles] at h
    cases h
  rw [hfiles] at h
  obtain ⟨r₂', hsame, hdeliver⟩ :=
    files_delivered sink manifest.files 0 (⟨rfl, rfl, rfl, rfl⟩ : Same r₁ r₁) hfiles
  rcases hpair : deliverFiles 0 manifest.files r₁ with ⟨outcome, records⟩
  rw [hpair] at hdeliver
  dsimp only at hdeliver ⊢
  rw [hdeliver]
  dsimp only
  rw [← readEnd_same hsame]
  exact (Prod.mk.inj h).1

/-! ## Over any stream -/

section

variable {σ : Type} {sink : Sink σ} {P Q R : σ → Prop}

/-- Every call of the sink keeps `R`, however much of a record it is given: `P` between two files
and `Q` within one see to it. -/
structure Sink.Keeps (sink : Sink σ) (P Q R : σ → Prop) : Prop where
  between : ∀ st, P st → R st
  within : ∀ st, Q st → R st
  beginFile : ∀ st index entry, P st → R (sink.beginFile st index entry).2 ∧
    ((sink.beginFile st index entry).1 = .ok () → Q (sink.beginFile st index entry).2)
  record : ∀ st entry kind key len (source : Feed UInt8 IoError), Q st →
    Q ((sink.record st entry kind key len).run len source).1.2
  endFile : ∀ st entry, Q st → R (sink.endFile st entry).2 ∧
    ((sink.endFile st entry).1 = .ok () → P (sink.endFile st entry).2)

theorem bounded_state (body : Reading UInt8 IoError (Except DbError Unit × σ)) (r : Reader)
    (len : Nat) : (r.bounded len body).2 = (body.run len r.source).1.2 := by
  unfold Reader.bounded
  generalize body.run len r.source = run
  obtain ⟨⟨outcome, st⟩, taken, left, source⟩ := run
  dsimp only
  generalize source.take CHUNK left = drained
  obtain ⟨stopped, drained, source'⟩ := drained
  cases outcome <;> cases stopped <;> rfl

theorem Sink.Keeps.readEntry (h : sink.Keeps P Q R) (entry : FileEntry) {st : σ} (r : Reader)
    (hst : Q st) : Q (readEntry sink entry st r).2 := by
  rw [readEntry_eq]
  rcases entryHeader entry r with e | ⟨_ | ⟨kind, key, len⟩, r₁⟩
  · exact hst
  · exact hst
  · have hrecord := h.record st entry kind key len r₁.source hst
    rw [← bounded_state] at hrecord
    rw [afterHeader]
    generalize r₁.bounded len (sink.record st entry kind key len) = bounded at hrecord
    obtain ⟨outcome, st'⟩ := bounded
    cases outcome <;> exact hrecord

theorem Sink.Keeps.readEntries (h : sink.Keeps P Q R) (entry : FileEntry) : ∀ (n : Nat) (st : σ)
    (r : Reader), r.source.content.length < n → Q st → Q (readEntries sink entry st r).2 := by
  intro n
  induction n with
  | zero => exact fun _ _ hn => absurd hn (Nat.not_lt_zero _)
  | succ n ih =>
    intro st r hn hst
    have hone := h.readEntry entry r hst
    rcases hentry : Archive.readEntry sink entry st r with ⟨e | ⟨_ | _, r'⟩, st'⟩
    · rw [readEntries_error hentry]
      rw [hentry] at hone
      exact hone
    · have hlt := readEntry_lt hentry
      rw [hentry] at hone
      rw [readEntries_next hentry]
      exact ih st' r' (by omega) hone
    · rw [readEntries_ended hentry]
      rw [hentry] at hone
      exact hone

theorem Sink.Keeps.readFiles (h : sink.Keeps P Q R) (entries : List FileEntry) : ∀ (index : Nat)
    (st : σ) (r : Reader), P st → R (readFiles sink index entries st r).2 := by
  induction entries with
  | nil => exact fun _ st _ hst => h.between st hst
  | cons entry rest ih =>
    intro index st r hst
    have hbegin := h.beginFile st index entry hst
    rw [Archive.readFiles]
    generalize sink.beginFile st index entry = begun at hbegin
    obtain ⟨outcome, st₁⟩ := begun
    cases outcome with
    | error e => exact hbegin.1
    | ok u =>
      have hread := h.readEntries entry _ st₁ r (Nat.lt_succ_self _) (hbegin.2 rfl)
      dsimp only
      generalize Archive.readEntries sink entry st₁ r = read at hread
      obtain ⟨outcome, st₂⟩ := read
      cases outcome with
      | error e => exact h.within st₂ hread
      | ok r' =>
        have hend := h.endFile st₂ entry hread
        dsimp only
        generalize sink.endFile st₂ entry = ended at hend
        obtain ⟨outcome, st₃⟩ := ended
        cases outcome with
        | error e => exact hend.1
        | ok u => exact ih (index + 1) st₃ r' (hend.2 rfl)

/-- What every call keeps, a pass over any stream keeps. -/
theorem Sink.Keeps.read (h : sink.Keeps P Q R) (docs : Documents) (st : σ)
    (source : Feed UInt8 IoError) (hst : P st) : R (read docs sink st source).2 := by
  unfold Archive.read
  have hnone := h.between st hst
  rcases Reader.exactly { source := source } MAGIC.length "its header" with e | ⟨magic, r⟩
  · exact hnone
  dsimp only
  split
  · exact hnone
  rcases r.document docs.readManifest "manifest" with e | ⟨manifest, r₁⟩
  · exact hnone
  dsimp only
  split
  · exact hnone
  have hfiles := h.readFiles manifest.files 0 st r₁ hst
  generalize Archive.readFiles sink 0 manifest.files st r₁ = read at hfiles
  obtain ⟨outcome, st'⟩ := read
  cases outcome <;> exact hfiles

end

end Archive

end RustyPick
