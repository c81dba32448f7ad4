import RustyPick.StateFile
import RustyPick.Directory
import RustyPick.Lib.Crash

/-!
# RustyPick.Format

The format version of a storage directory (`db/format.rs`): the `.format` stamp, and what a build
does with a directory another build has written.

A build is the two versions it declares and its steps. What a step converts is not looked at here:
it is a program on the directory's other entries, which may fail and may be cut short.

* `openStorage_refuses_iff`: what is refused is refused by its stamp alone, untouched.
* `opened_at_current`: in every sequence of starts, by any builds, cut short anywhere, a directory
  that was opened is stamped with the version of the build that serves it, and laid out in it.
-/

namespace RustyPick

open Lib

/-! ## The stamp -/

/-- What was found where a state file was expected. -/
inductive State where
  | missing
  | unreadable
  | body (text : List Char)
  deriving DecidableEq, Repr

/-- `statefile::read`. -/
def State.read (file : Option Bytes) : State :=
  match file with
  | none => .missing
  | some bytes =>
    match readStateFile (some bytes) with
    | none => .unreadable
    | some text => .body text

inductive FormatError where
  | incompatibleStorage (storageDir detail : String)
  | db (e : DbError)
  deriving DecidableEq, Repr

inductive Format.Opened where
  | created
  | current
  | adopted
  | migrated (start : Nat)
  deriving DecidableEq, Repr

/-- A storage directory: the stamp, the temporary a stamp is written through, and the rest. -/
structure StorageDir (D : Type) where
  present : Bool := true
  stamp : Option Bytes := none
  temporary : Bool := false
  data : D

/-- What a build declares. A version is a `u32`. -/
structure Build (D : Type) where
  current : Nat
  oldestSupported : Nat
  steps : List (Nat × Prog D DbError Unit) := []
  current_le : current ≤ u32Max
  oldestSupported_le : oldestSupported ≤ u32Max

def STAMP : String := ".format"

def stampPath (storageDir : String) : String := joinPath storageDir STAMP

def stampBody (version : Nat) : String := "version=" ++ toString version ++ "\n"

section Build

variable {D : Type} (b : Build D) (storageDir : String)

/-- `version_of`. -/
def versionOf (stamp : Option Bytes) : Except FormatError (Option Nat) :=
  match State.read stamp with
  | .missing => .ok none
  | .unreadable => .error (.incompatibleStorage storageDir ("its " ++ STAMP ++
      " stamp is unreadable, so the format it was written in cannot be determined. Restore the " ++
      "directory from a backup, or remove " ++ stampPath storageDir ++ " to have it adopted as " ++
      "format " ++ toString b.oldestSupported ++ " - only if you know it was written by a build " ++
      "that used that format"))
  | .body text =>
    match (stateField "version" text).bind parseU32 with
    | some version => .ok (some version)
    | none => .error (.incompatibleStorage storageDir
        ("its " ++ STAMP ++ " stamp does not name a version"))

/-- `stamp`: a temporary written, and renamed into place. -/
def stampAs (version : Nat) : Prog (StorageDir D) FormatError Unit := do
  Prog.change fun s => { s with temporary := true }
  Prog.change fun s =>
    { s with stamp := some (stateFileBytes (stampBody version)), temporary := false }

/-- A step on what the directory holds beside its stamp. -/
def runStep (step : Prog D DbError Unit) : Prog (StorageDir D) FormatError Unit :=
  Prog.within StorageDir.data (fun s d => { s with data := d }) fun d =>
    { visited := (step d).visited, outcome := (step d).outcome.mapError .db }

def noMigration (start reached : Nat) : FormatError :=
  .incompatibleStorage storageDir ("it is at storage format " ++ toString start ++
    " and this build writes " ++ toString b.current ++ ", but it carries no migration from " ++
    toString reached ++ ". This is a bug in the build, not in the directory")

/-- The loop of `migrate`, with `left` versions to climb. -/
def climb (start : Nat) : Nat → Nat → Prog (StorageDir D) FormatError Unit
  | 0, _ => Prog.done ()
  | left + 1, reached =>
    match b.steps.find? fun step => step.1 = reached with
    | none => Prog.stop (noMigration b storageDir start reached)
    | some step => do
      runStep step.2
      stampAs (reached + 1)
      climb start left (reached + 1)

/-- `migrate`. -/
def migrate (start : Nat) : Prog (StorageDir D) FormatError Format.Opened := do
  climb b storageDir start (b.current - start) start
  Prog.done (if b.current ≤ start then .current else .migrated start)

/-- `is_empty`: nothing at all, a temporary that was left behind included. -/
def StorageDir.isEmpty (empty : D → Bool) (s : StorageDir D) : Bool :=
  s.stamp.isNone && !s.temporary && empty s.data

def newerBuild (found : Nat) : FormatError :=
  .incompatibleStorage storageDir ("it is at storage format " ++ toString found ++
    ", and this build writes " ++ toString b.current ++ " (and opens " ++
    toString b.oldestSupported ++ " upwards). It was written by a newer build: run that one " ++
    "against it, or restore this directory from a backup taken before the upgrade")

def olderBuild (found : Nat) : FormatError :=
  .incompatibleStorage storageDir ("it is at storage format " ++ toString found ++
    ", and this build opens " ++ toString b.oldestSupported ++ " upwards. Bring it forward with " ++
    "a build that still supports " ++ toString found ++ " before upgrading to this one")

/-- A directory with a stamp that names a version. -/
def openStamped (found : Nat) : Prog (StorageDir D) FormatError Format.Opened :=
  if found = b.current then Prog.done .current
  else if b.current < found then Prog.stop (newerBuild b storageDir found)
  else if found < b.oldestSupported then Prog.stop (olderBuild b storageDir found)
  else migrate b storageDir found

/-- A directory without a stamp. -/
def openUnstamped (empty : D → Bool) : Prog (StorageDir D) FormatError Format.Opened := do
  let s ← Prog.look
  if s.isEmpty empty then do
    stampAs b.current
    Prog.done .created
  else do
    stampAs b.oldestSupported
    let opened ← migrate b storageDir b.oldestSupported
    Prog.done (if opened = .current then .adopted else opened)

/-- A directory that is not there is made. -/
def makePresent (s : StorageDir D) : Prog (StorageDir D) FormatError Unit :=
  if s.present then Prog.done () else Prog.change fun s => { s with present := true }

/-- `open`. -/
def openStorage (empty : D → Bool) : Prog (StorageDir D) FormatError Format.Opened := do
  let s ← Prog.look
  makePresent s
  match versionOf b storageDir s.stamp with
  | .error e => Prog.stop e
  | .ok (some found) => openStamped b storageDir found
  | .ok none => openUnstamped b storageDir empty

end Build

/-! ## The stamp read back -/

/-- The version a stamp names. -/
def stampedVersion (stamp : Option Bytes) : Option Nat :=
  match State.read stamp with
  | .body text => (stateField "version" text).bind parseU32
  | _ => none

theorem stampedVersion_stampBody {version : Nat} (h : version ≤ u32Max) :
    stampedVersion (some (stateFileBytes (stampBody version))) = some version := by
  have hbody : (stampBody version).toList =
      [metaEntry "version" (toString version).toList].flatMap fun l => l ++ ['\n'] := by
    simp [stampBody, metaEntry, String.toList_append]
  have hlines : lines (stampBody version).toList =
      [metaEntry "version" (toString version).toList] := by
    rw [hbody]
    apply lines_of_plain
    intro l hl
    rw [List.mem_singleton.mp hl]
    exact metaEntry_plain (by decide) (plain_toDigits _)
  have hname : stripFront "version".toList (metaEntry "version" (toString version).toList) =
      some ('=' :: (toString version).toList) := stripFront_append "version".toList _
  have heq : stripFront ['='] ('=' :: (toString version).toList) =
      some (toString version).toList := stripFront_append ['='] _
  have hfield : stateField "version" (stampBody version).toList = some (toString version) := by
    rw [stateField, hlines, List.findSome?_cons]
    simp only [hname, Option.bind_some, heq, Option.map_some, String.ofList_toList, trim_repr]
  simp only [stampedVersion, State.read, readStateFile_stateFileBytes, hfield, Option.bind_some,
    PersistedQueue.parseU32_repr h]

theorem versionOf_cases {D : Type} (b : Build D) (storageDir : String) (stamp : Option Bytes) :
    (stamp = none ∧ versionOf b storageDir stamp = .ok none) ∨
    (∃ version, stampedVersion stamp = some version ∧
      versionOf b storageDir stamp = .ok (some version)) ∨
    (stamp ≠ none ∧ stampedVersion stamp = none ∧
      ∃ detail, versionOf b storageDir stamp = .error (.incompatibleStorage storageDir detail)) := by
  cases stamp with
  | none => exact Or.inl ⟨rfl, rfl⟩
  | some bytes =>
    right
    unfold versionOf stampedVersion
    cases hread : State.read (some bytes) with
    | missing =>
      unfold State.read at hread
      dsimp only at hread
      split at hread <;> cases hread
    | unreadable => exact Or.inr ⟨by simp, rfl, _, rfl⟩
    | body text =>
      dsimp only
      cases hversion : (stateField "version" text).bind parseU32 with
      | none => exact Or.inr ⟨by simp, rfl, _, rfl⟩
      | some version => exact Or.inl ⟨version, rfl, rfl⟩

/-! ## Layouts -/

/-- What a version says of the data, and what a step from it may leave of them when it is cut. -/
structure Layouts (D : Type) where
  Laid : Nat → D → Prop
  Partway : Nat → D → Prop
  laid_partway : ∀ {v d}, Laid v d → Partway v d
  next_partway : ∀ {v d}, Laid (v + 1) d → Partway v d

/-- `every_supported_version_has_a_way_forward`. -/
structure Build.Supports {D : Type} (b : Build D) : Prop where
  oldest_le : b.oldestSupported ≤ b.current
  rung : ∀ v, b.oldestSupported ≤ v → v < b.current → ∃ step ∈ b.steps, step.1 = v

/-- A build's ladder: no rung is missing, and a step can be begun wherever it was cut before, at its
very end included. -/
structure Build.Climbs {D : Type} (L : Layouts D) (b : Build D) : Prop extends b.Supports where
  step : ∀ step ∈ b.steps, Triple (L.Partway step.1) step.2 (fun _ => L.Laid (step.1 + 1))
    (fun _ => L.Partway step.1) (L.Partway step.1)

section Opening

variable {D : Type} {L : Layouts D} {b : Build D} {storageDir : String}

def StorageDir.stampedAs (s : StorageDir D) (version : Nat) : StorageDir D :=
  { s with stamp := some (stateFileBytes (stampBody version)), temporary := false }

theorem stampAs_triple {version : Nat} {P C : StorageDir D → Prop} {Q : Unit → StorageDir D → Prop}
    {F : FormatError → StorageDir D → Prop} (hC : ∀ s, P s → C s ∧ C { s with temporary := true } ∧
      C (s.stampedAs version)) (hQ : ∀ s, P s → Q () (s.stampedAs version)) :
    Triple P (stampAs version) Q F C := by
  unfold stampAs
  refine Triple.bind (Q := fun _ t => C t ∧ C (t.stampedAs version) ∧ Q () (t.stampedAs version))
    (Triple.change (fun s hs => ⟨(hC s hs).1, (hC s hs).2.1⟩)
      fun s hs => ⟨(hC s hs).2.1, (hC s hs).2.2, hQ s hs⟩) ?_
  intro _
  exact Triple.change (fun s hs => ⟨hs.1, hs.2.1⟩) fun s hs => hs.2.2

theorem runStep_triple {v : Nat} {step : Prog D DbError Unit} {X : D → Prop}
    (h : Triple (L.Partway v) step (fun _ => X) (fun _ => L.Partway v) (L.Partway v))
    (keep : StorageDir D → Prop) (hkeep : ∀ s d, keep s → keep { s with data := d }) :
    Triple (fun s => keep s ∧ L.Partway v s.data) (runStep step) (fun _ s => keep s ∧ X s.data)
      (fun e _ => ∃ d, e = .db d) (fun s => keep s ∧ L.Partway v s.data) := by
  have hmapped : Triple (L.Partway v)
      (fun d => { visited := (step d).visited, outcome := (step d).outcome.mapError .db } :
        Prog D FormatError Unit) (fun _ => X) (fun e _ => ∃ d, e = .db d) (L.Partway v) := by
    refine ⟨h.cut, fun s hs => ?_⟩
    have hends := h.ends s hs
    unfold Course.Ends at hends ⊢
    dsimp only
    cases hout : (step s).outcome with
    | ok _ => rw [hout] at hends; exact hends
    | error e => exact ⟨e, rfl⟩
  exact Triple.within hmapped (fun s => rfl) (fun s hs => hs.2)
    (fun s hs _ d hd => ⟨hkeep s d hs.1, hd⟩) (fun s _ e d he => he)
    (fun s hs d hd => ⟨hkeep s d hs.1, hd⟩)

/-- Where a climb may be cut: a step of the build's has been begun from the version on the stamp, or
the data are laid out in it. -/
structure Climbing (L : Layouts D) (b : Build D) (s : StorageDir D) : Prop where
  stamped : s.stamp ≠ none
  laid : ∀ v, stampedVersion s.stamp = some v →
    L.Laid v s.data ∨ L.Partway v s.data ∧ v < b.current

def StampedAt (v : Nat) (s : StorageDir D) : Prop :=
  s.present = true ∧ stampedVersion s.stamp = some v

/-- A directory a build serves. -/
def Served (L : Layouts D) (b : Build D) (s : StorageDir D) : Prop :=
  StampedAt b.current s ∧ L.Laid b.current s.data

theorem StampedAt.ne_none {v : Nat} {s : StorageDir D} (h : StampedAt v s) : s.stamp ≠ none := by
  intro hs
  have := h.2
  rw [hs] at this
  cases this

theorem StampedAt.climbing {v : Nat} {s : StorageDir D} (h : StampedAt v s)
    (hd : L.Laid v s.data ∨ L.Partway v s.data ∧ v < b.current) : Climbing L b s := by
  refine ⟨h.ne_none, fun w hw => ?_⟩
  rw [h.2] at hw
  cases hw
  exact hd

theorem stampedAt_stampedAs {v : Nat} (hv : v ≤ u32Max) {s : StorageDir D}
    (hs : s.present = true) : StampedAt v (s.stampedAs v) :=
  ⟨hs, stampedVersion_stampBody hv⟩

/-- The loop: by induction on the versions left to climb. -/
theorem climb_triple (hb : b.Climbs L) (start : Nat) : ∀ left reached,
    b.oldestSupported ≤ reached → reached + left = b.current →
    Triple (fun s => StampedAt reached s ∧ L.Partway reached s.data ∧
        (left = 0 → L.Laid reached s.data))
      (climb b storageDir start left reached) (fun _ s => Served L b s) (fun e _ => ∃ d, e = .db d)
      (Climbing L b)
  | 0, reached, _, hsum => by
    refine Triple.done () (fun s hs => hs.1.climbing (Or.inl (hs.2.2 rfl))) fun s hs => ?_
    rw [Nat.add_zero] at hsum
    rw [Served, ← hsum]
    exact ⟨hs.1, hs.2.2 rfl⟩
  | left + 1, reached, hle, hsum => by
    obtain ⟨step, hstep, hrung⟩ := hb.rung reached hle (by omega)
    have hfind : ∃ step, (b.steps.find? fun step => step.1 = reached) = some step :=
      Option.isSome_iff_exists.mp (List.find?_isSome.mpr ⟨step, hstep, by simp [hrung]⟩)
    obtain ⟨step, hfind⟩ := hfind
    have hfrom : step.1 = reached := by simpa using List.find?_some hfind
    have hrun := hb.step step (List.mem_of_find?_eq_some hfind)
    rw [hfrom] at hrun
    unfold climb
    rw [hfind]
    dsimp only
    refine Triple.bind (Q := fun _ s => StampedAt reached s ∧ L.Laid (reached + 1) s.data)
      ((runStep_triple hrun (StampedAt reached) fun s d hs => hs).mono
        (fun s hs => ⟨hs.1, hs.2.1⟩) (fun _ s hs => hs) (fun e s he => he)
        fun s hs => hs.1.climbing (Or.inr ⟨hs.2, by omega⟩)) ?_
    intro _
    refine Triple.bind
      (Q := fun _ s => StampedAt (reached + 1) s ∧ L.Laid (reached + 1) s.data)
      (stampAs_triple (fun s hs => ?_) fun s hs => ?_) ?_
    · have hpart := L.next_partway hs.2
      have hlt : reached < b.current := by omega
      exact ⟨hs.1.climbing (Or.inr ⟨hpart, hlt⟩),
        StampedAt.climbing (s := { s with temporary := true }) hs.1 (Or.inr ⟨hpart, hlt⟩),
        (stampedAt_stampedAs (by have := b.current_le; omega) hs.1.1).climbing (Or.inl hs.2)⟩
    · exact ⟨stampedAt_stampedAs (by have := b.current_le; omega) hs.1.1, hs.2⟩
    · intro _
      exact (climb_triple hb start left (reached + 1) (by omega) (by omega)).mono
        (fun s hs => ⟨hs.1, L.laid_partway hs.2, fun _ => hs.2⟩) (fun _ s hs => hs)
        (fun e s he => he) fun s hs => hs

theorem migrate_triple (hb : b.Climbs L) {start : Nat} (hle : b.oldestSupported ≤ start)
    (hcurrent : start ≤ b.current) :
    Triple (fun s => StampedAt start s ∧ L.Partway start s.data ∧
        (start = b.current → L.Laid start s.data))
      (migrate b storageDir start) (fun _ s => Served L b s) (fun e _ => ∃ d, e = .db d)
      (Climbing L b) := by
  unfold migrate
  refine Triple.bind (Q := fun _ s => Served L b s)
    ((climb_triple hb start (b.current - start) start hle (by omega)).mono
      (fun s hs => ⟨hs.1, hs.2.1, fun h => hs.2.2 (by omega)⟩) (fun _ s hs => hs) (fun e s he => he)
      fun s hs => hs) ?_
  intro _
  exact Triple.done _ (fun s hs => hs.1.climbing (Or.inl hs.2)) fun s hs => hs

/-! ## Opening -/

/-- A directory between two starts. Without a stamp it is of the first version there was. With one,
it is laid out as the stamp says, or a build among those tried since it was last served has begun to
convert it further. -/
structure KeptPartway (L : Layouts D) (first : Nat) (tried : List (Build D)) (s : StorageDir D) :
    Prop where
  unstamped : s.stamp = none → L.Laid first s.data
  stamped : ∀ v, stampedVersion s.stamp = some v →
    L.Laid v s.data ∨ L.Partway v s.data ∧ ∃ b ∈ tried, v < b.current

/-- A build is not started while an upgrade to a newer one is unfinished, and the oldest version it
supports is the first if it finds no stamp. -/
structure MayStart (first : Nat) (tried : List (Build D)) (b : Build D) (s : StorageDir D) :
    Prop where
  newest : ∀ b' ∈ tried, b'.current ≤ b.current
  adopts : s.stamp = none → b.oldestSupported = first

theorem Climbing.kept {first : Nat} {tried : List (Build D)} {s : StorageDir D}
    (h : Climbing L b s) : KeptPartway L first (tried ++ [b]) s where
  unstamped := fun hs => absurd hs h.stamped
  stamped := fun v hv => (h.laid v hv).imp id fun ⟨hpart, hlt⟩ =>
    ⟨hpart, b, List.mem_append_right _ List.mem_cons_self, hlt⟩

theorem KeptPartway.tried_append {first : Nat} {tried : List (Build D)} {s : StorageDir D}
    (h : KeptPartway L first tried s) (b : Build D) : KeptPartway L first (tried ++ [b]) s where
  unstamped := h.unstamped
  stamped := fun v hv => (h.stamped v hv).imp id fun ⟨hpart, b', hb', hlt⟩ =>
    ⟨hpart, b', List.mem_append_left _ hb', hlt⟩

theorem Served.kept {first : Nat} {s : StorageDir D} (h : Served L b s) :
    KeptPartway L first [] s where
  unstamped := fun hs => absurd hs h.1.ne_none
  stamped := fun v hv => by
    rw [h.1.2] at hv
    cases hv
    exact Or.inl h.2

/-- An unstamped directory. It is laid out as the version it is adopted as, and an empty one as any. -/
theorem openUnstamped_triple (hb : b.Climbs L) {empty : D → Bool} {first : Nat}
    (hempty : ∀ d, empty d = true → ∀ v, L.Laid v d)
    (tried : List (Build D)) :
    Triple (fun s => s.present = true ∧ s.stamp = none ∧ L.Laid b.oldestSupported s.data ∧
        b.oldestSupported = first)
      (openUnstamped b storageDir empty) (fun _ s => Served L b s) (fun e _ => ∃ d, e = .db d)
      (KeptPartway L first (tried ++ [b])) := by
  have hkept : ∀ s : StorageDir D, s.stamp = none → L.Laid b.oldestSupported s.data →
      b.oldestSupported = first → KeptPartway L first (tried ++ [b]) s := by
    intro s hs hd hfirst
    refine ⟨fun _ => hfirst ▸ hd, fun v hv => ?_⟩
    rw [hs] at hv
    cases hv
  unfold openUnstamped
  refine Triple.bind (Triple.look fun s hs => hkept s hs.2.1 hs.2.2.1 hs.2.2.2) fun s => ?_
  by_cases hnothing : s.isEmpty empty = true
  · rw [if_pos hnothing]
    have hdata : ∀ v, L.Laid v s.data := by
      unfold StorageDir.isEmpty at hnothing
      exact hempty _ (Bool.and_eq_true_iff.mp hnothing).2
    refine Triple.bind (Q := fun _ t => Served L b t) (stampAs_triple ?_ ?_) ?_
    · rintro _ ⟨rfl, hp, hs, hd, hfirst⟩
      exact ⟨hkept _ hs hd hfirst, hkept _ hs hd hfirst,
        ((stampedAt_stampedAs b.current_le hp).climbing (Or.inl (hdata _))).kept⟩
    · rintro _ ⟨rfl, hp, -⟩
      exact ⟨stampedAt_stampedAs b.current_le hp, hdata _⟩
    · intro _
      exact Triple.done _ (fun t ht => (ht.1.climbing (Or.inl ht.2)).kept) fun t ht => ht
  · rw [if_neg hnothing]
    refine Triple.bind (Q := fun _ t => StampedAt b.oldestSupported t ∧
      L.Laid b.oldestSupported t.data) (stampAs_triple ?_ ?_) ?_
    · rintro _ ⟨rfl, hp, hs, hd, hfirst⟩
      exact ⟨hkept _ hs hd hfirst, hkept _ hs hd hfirst,
        ((stampedAt_stampedAs b.oldestSupported_le hp).climbing (Or.inl hd)).kept⟩
    · rintro _ ⟨rfl, hp, hs, hd, -⟩
      exact ⟨stampedAt_stampedAs b.oldestSupported_le hp, hd⟩
    · intro _
      refine Triple.bind (Q := fun _ t => Served L b t)
        ((migrate_triple hb (le_refl _) hb.oldest_le).mono
          (fun t ht => ⟨ht.1, L.laid_partway ht.2, fun _ => ht.2⟩) (fun _ t ht => ht)
          (fun e t he => he) fun t ht => ht.kept) ?_
      intro opened
      exact Triple.done _ (fun t ht => (ht.1.climbing (Or.inl ht.2)).kept) fun t ht => ht

theorem openStamped_triple (hb : b.Climbs L) {first : Nat} (tried : List (Build D)) (found : Nat) :
    Triple (fun s => StampedAt found s ∧ KeptPartway L first tried s ∧
        ∀ b' ∈ tried, b'.current ≤ b.current)
      (openStamped b storageDir found) (fun _ s => Served L b s) (fun _ _ => True)
      (KeptPartway L first (tried ++ [b])) := by
  have hkept : ∀ s : StorageDir D, StampedAt found s ∧ KeptPartway L first tried s ∧
      (∀ b' ∈ tried, b'.current ≤ b.current) → KeptPartway L first (tried ++ [b]) s :=
    fun s hs => hs.2.1.tried_append b
  -- What an unfinished upgrade has begun to convert is below the version of this build.
  have hlaid : ∀ s : StorageDir D, StampedAt b.current s → KeptPartway L first tried s →
      (∀ b' ∈ tried, b'.current ≤ b.current) → L.Laid b.current s.data := by
    intro s hs hk hnewest
    rcases hk.stamped _ hs.2 with hd | ⟨-, b', hb', hlt⟩
    · exact hd
    · have := hnewest b' hb'
      omega
  unfold openStamped
  split
  · rename_i hfound
    refine Triple.done _ hkept fun s hs => ?_
    rw [hfound] at hs
    exact ⟨hs.1, hlaid s hs.1 hs.2.1 hs.2.2⟩
  · split
    · exact Triple.stop _ hkept fun _ _ => trivial
    · split
      · exact Triple.stop _ hkept fun _ _ => trivial
      · refine (migrate_triple hb (by omega) (by omega)).mono (fun s hs => ⟨hs.1, ?_, ?_⟩)
          (fun _ s hs => hs) (fun _ _ _ => trivial) fun s hs => hs.kept
        · rcases hs.2.1.stamped _ hs.1.2 with hd | hd
          · exact L.laid_partway hd
          · exact hd.1
        · intro heq
          omega

theorem openStorage_triple (hb : b.Climbs L) {empty : D → Bool} {first : Nat}
    (hempty : ∀ d, empty d = true → ∀ v, L.Laid v d)
    (storageDir : String) (tried : List (Build D)) :
    Triple (fun s => KeptPartway L first tried s ∧ MayStart first tried b s)
      (openStorage b storageDir empty) (fun _ s => Served L b s) (fun _ _ => True)
      (KeptPartway L first (tried ++ [b])) := by
  unfold openStorage
  refine Triple.bind (Triple.look fun s hs => hs.1.tried_append b) fun s => ?_
  refine Triple.bind (Q := fun _ t => t.present = true ∧ t.stamp = s.stamp ∧
    KeptPartway L first tried t ∧ MayStart first tried b t) ?_ fun _ => ?_
  · unfold makePresent
    split
    · rename_i hpresent
      refine Triple.done _ (fun t ht => ht.2.1.tried_append b) ?_
      rintro _ ⟨rfl, hk, hm⟩
      exact ⟨hpresent, rfl, hk, hm⟩
    · refine Triple.change (fun t ht => ⟨ht.2.1.tried_append b, ?_⟩) ?_
      · exact KeptPartway.tried_append (s := { t with present := true })
          ⟨ht.2.1.unstamped, ht.2.1.stamped⟩ b
      · rintro _ ⟨rfl, hk, hm⟩
        exact ⟨rfl, rfl, ⟨hk.unstamped, hk.stamped⟩, ⟨hm.newest, hm.adopts⟩⟩
  · rcases versionOf_cases b storageDir s.stamp with ⟨hnone, h⟩ | ⟨found, hfound, h⟩ |
      ⟨-, -, detail, h⟩
    · rw [h]
      refine (openUnstamped_triple hb hempty tried).mono ?_ (fun _ t ht => ht)
        (fun _ _ _ => trivial) fun t ht => ht
      rintro t ⟨hp, hstamp, hk, hm⟩
      have hnone := hstamp.trans hnone
      have hfirst := hm.adopts hnone
      exact ⟨hp, hnone, hfirst ▸ hk.unstamped hnone, hfirst⟩
    · rw [h]
      refine (openStamped_triple hb tried found).mono ?_ (fun _ t ht => ht)
        (fun _ _ _ => trivial) fun t ht => ht
      rintro t ⟨hp, hstamp, hk, hm⟩
      exact ⟨⟨hp, by rw [hstamp, hfound]⟩, hk, hm.newest⟩
    · rw [h]
      exact Triple.stop _ (fun t ht => ht.2.2.1.tried_append b) fun _ _ => trivial

end Opening

/-! ## Every start -/

section Starts

variable {D : Type} (L : Layouts D) (empty : D → Bool) (storageDir : String) (first : Nat)

/-- A server at work keeps its own layout, and leaves the stamp alone. -/
structure Works (b : Build D) (s t : StorageDir D) : Prop where
  present : t.present = s.present
  stamp : t.stamp = s.stamp
  laid : L.Laid b.current s.data → L.Laid b.current t.data

/-- The life of a directory under any builds, in any order `MayStart` allows. -/
def StorageLife : List { b : Build D // b.Climbs L } → StorageDir D →
    Option ({ b : Build D // b.Climbs L } × Format.Opened) → Prop :=
  Life (fun b => openStorage b.1 storageDir empty)
    (fun tried b s => MayStart first (tried.map Subtype.val) b.1 s) (fun b _ => Works L b.1)
    (KeptPartway L first [])

variable {L empty storageDir first}

theorem StorageLife.cut {tried : List { b : Build D // b.Climbs L }} {s t : StorageDir D}
    (b : { b : Build D // b.Climbs L }) (h : StorageLife L empty storageDir first tried s none)
    (hmay : MayStart first (tried.map Subtype.val) b.1 s)
    (ht : t ∈ s :: (openStorage b.1 storageDir empty s).visited) :
    StorageLife L empty storageDir first (tried ++ [b]) t none := Life.cut b h hmay ht

theorem StorageLife.returned {tried : List { b : Build D // b.Climbs L }} {s : StorageDir D}
    {opened : Format.Opened} (b : { b : Build D // b.Climbs L })
    (h : StorageLife L empty storageDir first tried s none)
    (hmay : MayStart first (tried.map Subtype.val) b.1 s)
    (hok : (openStorage b.1 storageDir empty s).outcome = .ok opened) :
    StorageLife L empty storageDir first [] ((openStorage b.1 storageDir empty s).last s)
      (some (b, opened)) := Life.returned b h hmay hok

theorem opened_at_current (hempty : ∀ d, empty d = true → ∀ v, L.Laid v d)
    {tried : List { b : Build D // b.Climbs L }} {s : StorageDir D}
    {serving : Option ({ b : Build D // b.Climbs L } × Format.Opened)}
    (h : StorageLife L empty storageDir first tried s serving) :
    (∀ b opened, serving = some (b, opened) → s.present = true ∧
      stampedVersion s.stamp = some b.1.current ∧ L.Laid b.1.current s.data) ∧
    (serving = none → KeptPartway L first (tried.map Subtype.val) s) := by
  have hprog : ∀ (tried : List { b : Build D // b.Climbs L }) (b : { b : Build D // b.Climbs L }),
      Triple (fun s => KeptPartway L first (tried.map Subtype.val) s ∧
          MayStart first (tried.map Subtype.val) b.1 s)
        (openStorage b.1 storageDir empty) (fun _ s => Served L b.1 s) (fun _ _ => True)
        (KeptPartway L first ((tried ++ [b]).map Subtype.val)) := by
    intro tried b
    rw [List.map_append, List.map_singleton]
    exact openStorage_triple b.2 hempty storageDir (tried.map Subtype.val)
  have hwork : ∀ (b : { b : Build D // b.Climbs L }) (_ : Format.Opened) (s t : StorageDir D),
      Served L b.1 s → Works L b.1 s t → Served L b.1 t := by
    intro b _ s t hs hw
    refine ⟨⟨hw.present.trans hs.1.1, ?_⟩, hw.laid hs.2⟩
    rw [hw.stamp]
    exact hs.1.2
  obtain ⟨hkept, hserved⟩ := Life.keeps
    (C := fun tried s => KeptPartway L first (tried.map Subtype.val) s)
    (fun s hs => hs) hprog hwork (fun b _ s hs => hs.kept) h
  refine ⟨fun b opened hb => ?_, hkept⟩
  obtain ⟨⟨hpresent, hstamp⟩, hlaid⟩ := hserved b opened hb
  exact ⟨hpresent, hstamp, hlaid⟩

end Starts

section Upgrade

/-- Data that are the number of their version. -/
def numbered : Layouts Nat where
  Laid := fun v d => d = v
  Partway := fun v d => d = v ∨ d = v + 1
  laid_partway := Or.inl
  next_partway := Or.inr

def secondBuild : Build Nat where
  current := 2
  oldestSupported := 1
  steps := [(1, Prog.change fun _ => 2)]
  current_le := by decide
  oldestSupported_le := by decide

theorem secondBuild_climbs : secondBuild.Climbs numbered where
  oldest_le := by decide
  rung := fun v hv hlt => ⟨(1, Prog.change fun _ => 2), List.mem_cons_self,
    Nat.le_antisymm hv (Nat.lt_succ_iff.mp hlt)⟩
  step := by
    intro step hstep
    rw [List.mem_singleton.mp hstep]
    exact Triple.change (fun _ hd => ⟨hd, Or.inr rfl⟩) fun _ _ => rfl

/-- A directory from before there were stamps, its first start cut short and its second not. -/
theorem adopted_and_migrated : ∃ s, StorageLife numbered (fun _ => false) "db_storage" 1 [] s
    (some (⟨secondBuild, secondBuild_climbs⟩, .migrated 1)) ∧
      stampedVersion s.stamp = some 2 ∧ s.data = 2 := by
  have hstart : StorageLife numbered (fun _ => false) "db_storage" 1 [] { data := 1 } none :=
    Life.start ⟨fun _ => rfl, by rintro v ⟨⟩⟩
  have hwritten : { data := 1, temporary := true } ∈ { data := 1 } ::
      (openStorage secondBuild "db_storage" (fun _ => false) { data := 1 }).visited :=
    List.mem_cons_of_mem _ List.mem_cons_self
  have hcut : StorageLife numbered (fun _ => false) "db_storage" 1
      [⟨secondBuild, secondBuild_climbs⟩] { data := 1, temporary := true } none :=
    StorageLife.cut ⟨secondBuild, secondBuild_climbs⟩ hstart ⟨by rintro b ⟨⟩, fun _ => rfl⟩ hwritten
  have hopened : (openStorage secondBuild "db_storage" (fun _ => false)
      { data := 1, temporary := true }).outcome = .ok (.migrated 1) := rfl
  generalize hlast : (openStorage secondBuild "db_storage" (fun _ => false)
    { data := 1, temporary := true }).last { data := 1, temporary := true } = s
  have hserved : StorageLife numbered (fun _ => false) "db_storage" 1 [] s
      (some (⟨secondBuild, secondBuild_climbs⟩, .migrated 1)) := by
    rw [← hlast]
    exact StorageLife.returned ⟨secondBuild, secondBuild_climbs⟩ hcut
      ⟨fun b hb => by rw [List.mem_singleton.mp hb], fun _ => rfl⟩ hopened
  obtain ⟨-, hstamp, hdata⟩ :=
    (opened_at_current (fun d hd => by cases hd) hserved).1 _ _ rfl
  exact ⟨s, hserved, hstamp, hdata⟩

end Upgrade

/-! ## What is refused -/

section Refusals

variable {D : Type} {b : Build D}

/-- Layouts that say nothing. -/
def anyLayout (D : Type) : Layouts D where
  Laid := fun _ _ => True
  Partway := fun _ _ => True
  laid_partway := fun _ => trivial
  next_partway := fun _ => trivial

theorem Build.Supports.climbs (h : b.Supports) : b.Climbs (anyLayout D) where
  toSupports := h
  step := fun step _ => by
    refine ⟨fun _ _ _ _ => trivial, fun d _ => ?_⟩
    unfold Course.Ends
    split <;> trivial

def Refused (c : Course (StorageDir D) FormatError Format.Opened) : Prop :=
  ∃ storageDir detail, c.outcome = .error (.incompatibleStorage storageDir detail)

theorem not_refused_of_ends {c : Course (StorageDir D) FormatError Format.Opened} {s : StorageDir D}
    {Q : Format.Opened → StorageDir D → Prop} (h : c.Ends s Q fun e _ => ∃ d, e = .db d) :
    ¬Refused c := by
  rintro ⟨storageDir, detail, hout⟩
  unfold Course.Ends at h
  rw [hout] at h
  obtain ⟨d, hd⟩ := h
  cases hd

theorem openStorage_eq {storageDir : String} {empty : D → Bool} {s : StorageDir D}
    (hpresent : s.present = true) :
    (∀ e, versionOf b storageDir s.stamp = .error e →
      openStorage b storageDir empty s = ⟨[], .error e⟩) ∧
    ∀ found, versionOf b storageDir s.stamp = .ok (some found) →
      openStorage b storageDir empty s = openStamped b storageDir found s := by
  unfold openStorage
  rw [Prog.look_bind]
  unfold makePresent
  rw [if_pos hpresent, Prog.done_bind]
  refine ⟨fun e h => ?_, fun found h => ?_⟩
  · rw [h]
    rfl
  · rw [h]

/-- Without a stamp nothing is refused: what fails is a step. -/
theorem openStorage_unstamped (hb : b.Supports) (storageDir : String) (empty : D → Bool)
    {s : StorageDir D} (hs : s.stamp = none) : ¬Refused (openStorage b storageDir empty s) := by
  have htriple : Triple (fun t : StorageDir D => t.stamp = none) (openStorage b storageDir empty)
      (fun _ _ => True) (fun e _ => ∃ d, e = .db d) (fun _ => True) := by
    unfold openStorage
    refine Triple.bind (Triple.look fun _ _ => trivial) fun t => ?_
    refine Triple.bind (Q := fun _ u => u.present = true ∧ u.stamp = none ∧ t.stamp = none) ?_
      fun _ => ?_
    · unfold makePresent
      split
      · rename_i hpresent
        refine Triple.done _ (fun _ _ => trivial) ?_
        rintro _ ⟨rfl, hnone⟩
        exact ⟨hpresent, hnone, hnone⟩
      · refine Triple.change (fun _ _ => ⟨trivial, trivial⟩) ?_
        rintro _ ⟨rfl, hnone⟩
        exact ⟨rfl, hnone, hnone⟩
    · rcases versionOf_cases b storageDir t.stamp with ⟨-, h⟩ | ⟨found, hfound, -⟩ | ⟨hne, -⟩
      · rw [h]
        exact (openUnstamped_triple (L := anyLayout D) hb.climbs (fun _ _ _ => trivial) []).mono
          (fun u hu => ⟨hu.1, hu.2.1, trivial, rfl⟩) (fun _ _ _ => trivial) (fun _ _ he => he)
          fun _ _ => trivial
      · refine Triple.mono (P := fun _ => False) ⟨fun _ h => h.elim, fun _ h => h.elim⟩
          (fun u hu => ?_) (fun _ _ h => h) (fun _ _ h => h) fun _ h => h
        rw [hu.2.2] at hfound
        cases hfound
      · exact Triple.mono (P := fun _ => False) ⟨fun _ h => h.elim, fun _ h => h.elim⟩
          (fun u hu => hne hu.2.2) (fun _ _ h => h) (fun _ _ h => h) fun _ h => h
  exact not_refused_of_ends (htriple.ends s hs)

/-- What a build refuses is refused by the stamp: one that cannot be read, or that names a version
the build does not open. Nothing is changed then. -/
theorem openStorage_refuses_iff (hb : b.Supports) (storageDir : String) (empty : D → Bool)
    {s : StorageDir D} (hpresent : s.stamp ≠ none → s.present = true) :
    (Refused (openStorage b storageDir empty s) ↔ s.stamp ≠ none ∧
      ∀ v, stampedVersion s.stamp = some v → v < b.oldestSupported ∨ b.current < v) ∧
    (Refused (openStorage b storageDir empty s) →
      (openStorage b storageDir empty s).visited = []) := by
  have hle := hb.oldest_le
  rcases versionOf_cases b storageDir s.stamp with ⟨hnone, -⟩ | ⟨found, hfound, h⟩ |
    ⟨hne, hnot, detail, h⟩
  · have hok := openStorage_unstamped hb storageDir empty hnone
    exact ⟨iff_of_false hok fun hs => hs.1 hnone, fun hs => absurd hs hok⟩
  · have hne : s.stamp ≠ none := by
      intro hs
      rw [hs] at hfound
      cases hfound
    have hall : (∀ v, stampedVersion s.stamp = some v → v < b.oldestSupported ∨ b.current < v) ↔
        found < b.oldestSupported ∨ b.current < found := by
      constructor
      · exact fun hv => hv found hfound
      · intro hv v hv'
        rw [hfound] at hv'
        cases hv'
        exact hv
    rw [(openStorage_eq (hpresent hne)).2 found h, hall]
    unfold openStamped
    split
    · have hok :
          ¬Refused (Prog.done .current s : Course (StorageDir D) FormatError Format.Opened) := by
        rintro ⟨_, _, hout⟩
        cases hout
      exact ⟨iff_of_false hok (by omega), fun hs => absurd hs hok⟩
    · split
      · exact ⟨iff_of_true ⟨_, _, rfl⟩ ⟨hne, by omega⟩, fun _ => rfl⟩
      · split
        · exact ⟨iff_of_true ⟨_, _, rfl⟩ ⟨hne, by omega⟩, fun _ => rfl⟩
        · have hok : ¬Refused (migrate b storageDir found s) :=
            not_refused_of_ends ((migrate_triple (L := anyLayout D) hb.climbs (by omega)
              (by omega)).ends s ⟨⟨hpresent hne, hfound⟩, trivial, fun _ => trivial⟩)
          exact ⟨iff_of_false hok (by omega), fun hs => absurd hs hok⟩
  · rw [(openStorage_eq (hpresent hne)).1 _ h]
    refine ⟨iff_of_true ⟨_, _, rfl⟩ ⟨hne, fun v hv => ?_⟩, fun _ => rfl⟩
    rw [hnot] at hv
    cases hv

namespace Format

def CURRENT : Nat := 1

def OLDEST_SUPPORTED : Nat := 1

/-- The build this repository is: `STEPS` is empty. -/
def thisBuild (D : Type) : Build D where
  current := CURRENT
  oldestSupported := OLDEST_SUPPORTED
  current_le := by decide
  oldestSupported_le := by decide

theorem thisBuild_supports (D : Type) : (thisBuild D).Supports where
  oldest_le := le_refl _
  rung := fun v hv hlt => absurd (show CURRENT ≤ v from hv) (Nat.not_le.mpr hlt)

end Format

theorem newer_stamp_refused : Refused (openStorage (Format.thisBuild Unit) "db_storage"
    (fun _ => false) { stamp := some (stateFileBytes (stampBody 2)), data := () }) := by
  refine (openStorage_refuses_iff (Format.thisBuild_supports Unit) "db_storage" _
    fun _ => rfl).1.mpr ⟨by simp, fun v hv => ?_⟩
  rw [stampedVersion_stampBody (by decide)] at hv
  cases hv
  exact Or.inr (by decide)

example : (openStorage (Format.thisBuild Unit) "db_storage" (fun _ => true)
    { present := false, data := () }).outcome = .ok .created := rfl

end Refusals

end RustyPick
