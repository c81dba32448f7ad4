import RustyPick.Lib.HostDir
import RustyPick.Lib.SortBy
import RustyPick.Directory

/-!
# RustyPick.SharedDirectory

A directory file with several clients at work on it (`db/directory.rs`, `db/engine/directory.rs`).

There is no lock. A write creates a temporary file, fills it and renames it over its key; a listing
or a statistics scan goes through the names and removes every temporary it comes across, which is
meant for the debris of a crash. Each of those steps is a step of its own here, and the clients take
theirs in any order.

* `writes_and_scans_undisturbed`: as long as no scan comes across the temporary of a write that is
  under way, writes succeed and reads are whole.
* `scans_fail_write`: when one does, the write fails.
-/

namespace RustyPick

open Lib

namespace Directory

def TMP_PREFIX : String := ".tmp."

/-- `tmp_path`, for the process and the number it is at. -/
def tmpPath (pid nonce : Nat) : String := TMP_PREFIX ++ toString pid ++ "." ++ toString nonce

/-- `name.starts_with(TMP_PREFIX)`. -/
def isTmp (name : String) : Bool := TMP_PREFIX.toList.isPrefixOf name.toList

/-- `name.starts_with('.')`. -/
def isHidden (name : String) : Bool := name.toList.head? = some '.'

/-! ## Writes -/

/-- `write`, `store` of a source that had some length when it was looked at, and `stage` with the
length announced. -/
inductive WriteKind where
  | write
  | store (declared : Nat)
  | staged (expected : Nat)
  deriving DecidableEq

structure WriteJob where
  kind : WriteKind := .write
  key : String
  /-- What there is to write: the value, what the source is found to hold, the body that arrives. -/
  bytes : Bytes
  deriving DecidableEq

/-- What is checked before anything is created. -/
def WriteJob.check (max : Nat) (job : WriteJob) : Except DbError Unit :=
  match job.kind with
  | .write =>
    if max < job.bytes.length then .error (oversize job.key job.bytes.length max "written")
    else validateKey job.key
  | .store declared =>
    if max < declared then .error (oversize job.key declared max "stored")
    else validateKey job.key
  | .staged expected => stage none job.key expected max

/-- What is checked once the bytes are there. -/
def WriteJob.recheck (max : Nat) (job : WriteJob) : Except DbError Unit :=
  match job.kind with
  | .write => .ok ()
  | .store _ =>
    if max < job.bytes.length then .error (oversize job.key job.bytes.length max "stored")
    else .ok ()
  | .staged expected =>
    match validateKey job.key with
    | .error e => .error e
    | .ok () =>
      if job.bytes.length ≠ expected then .error (shortBody job.key expected job.bytes.length)
      else .ok ()

/-! ## Scans -/

structure DirectoryStats where
  recordCount : Nat := 0
  bytes : Nat := 0
  largestBytes : Nat := 0
  deriving DecidableEq

/-- A pass over the names: `keys`, `sweep_tmp`, and `stats`, which follows the sweep. -/
inductive Scan where
  | keys (found : List String)
  | sweep
  | stats (sum : DirectoryStats)
  deriving DecidableEq

/-- Whether a pass removes the temporaries it comes across. -/
def Scan.sweeps : Scan → Bool
  | .stats _ => false
  | _ => true

/-- What a pass does with one name. -/
def Scan.visit (d : HostDir) (name : String) : Scan → Scan × HostDir
  | .keys found =>
    if isTmp name then (.keys found, d.remove name)
    else if isHidden name ∨ name ∉ d.names then (.keys found, d)
    else (.keys (found ++ [name]), d)
  | .sweep => (.sweep, if isTmp name then d.remove name else d)
  | .stats sum =>
    if isHidden name then (.stats sum, d)
    else
      match d.read name with
      | none => (.stats sum, d)
      | some bytes =>
        (.stats
          { recordCount := sum.recordCount + 1
            bytes := sum.bytes + bytes.length
            largestBytes := max sum.largestBytes bytes.length }, d)

/-! ## Clients -/

inductive Client where
  | idle
  /-- A temporary name is reserved. -/
  | named (job : WriteJob) (tmp : String)
  /-- The temporary file is open, with some of the bytes to come. -/
  | writing (job : WriteJob) (tmp : String) (file : Nat) (left : Bytes)
  | wrote (result : Except DbError Unit)
  /-- The names read from the directory and not looked at yet. -/
  | scanning (scan : Scan) (names : List String)
  | listed (keys : List String)
  | counted (stats : DirectoryStats)
  /-- The record is there and not too large. -/
  | reading (key : String)
  | opened (key : String) (file : Nat)
  | read (key : String) (result : Except DbError (Option Bytes))

/-- Whether a client is done with its last request. -/
def Client.resting : Client → Bool
  | .idle | .wrote _ | .listed _ | .counted _ | .read _ _ => true
  | _ => false

structure Shared where
  dir : HostDir := {}
  pid : Nat := 1
  /-- `TMP_COUNTER`. -/
  nonce : Nat := 0
  clients : Nat → Client := fun _ => .idle
  /-- Every record there has been. -/
  written : List (String × Bytes) := []

def Shared.become (s : Shared) (i : Nat) (c : Client) : Shared :=
  { s with clients := Function.update s.clients i c }

/-- One step of one client. -/
inductive Action where
  | write (i : Nat) (job : WriteJob)
  | create (i : Nat)
  | append (i n : Nat)
  | commit (i : Nat)
  /-- A transfer abandoned. -/
  | discard (i : Nat)
  | list (i : Nat)
  | statistics (i : Nat)
  /-- More names are read of the directory. -/
  | fill (i : Nat) (names : List String)
  | visit (i : Nat)
  | finish (i : Nat)
  | read (i : Nat) (key : String)
  | open (i : Nat)
  | readToEnd (i : Nat)

/-- The rename, and what clears up after a write whichever way it went. -/
def Shared.rename (s : Shared) (i : Nat) (job : WriteJob) (tmp : String) : Shared :=
  match s.dir.rename tmp job.key with
  | some dir =>
    { s.become i (.wrote (.ok ())) with dir := dir, written := (job.key, job.bytes) :: s.written }
  | none =>
    { s.become i (.wrote (.error (.io noSuchFile))) with dir := s.dir.remove tmp }

/-- `read` up to where the record's size is known. -/
def Shared.lookUp (max : Nat) (s : Shared) (key : String) : Client :=
  match validateKey key with
  | .error e => .read key (.error e)
  | .ok () =>
    match s.dir.read key with
    | none => .read key (.ok none)
    | some bytes =>
      if max < bytes.length then .read key (.error (oversize key bytes.length max "read"))
      else .reading key

def Action.perform (max : Nat) (s : Shared) : Action → Option Shared
  | .write i job =>
    if ¬ (s.clients i).resting then none
    else
      match job.check max with
      | .error e => some (s.become i (.wrote (.error e)))
      | .ok () =>
        some { s.become i (.named job (tmpPath s.pid s.nonce)) with nonce := s.nonce + 1 }
  | .create i =>
    match s.clients i with
    | .named job tmp =>
      some { s.become i (.writing job tmp (s.dir.target tmp) job.bytes) with dir := s.dir.create tmp }
    | _ => none
  | .append i n =>
    match s.clients i with
    | .writing job tmp file left =>
      some { s.become i (.writing job tmp file (left.drop n)) with
        dir := s.dir.append file (left.take n) }
    | _ => none
  | .commit i =>
    match s.clients i with
    | .writing job tmp _ [] =>
      match job.recheck max with
      | .error e => some { s.become i (.wrote (.error e)) with dir := s.dir.remove tmp }
      | .ok () => some (s.rename i job tmp)
    | _ => none
  | .discard i =>
    match s.clients i with
    | .named { kind := .staged _, .. } tmp | .writing { kind := .staged _, .. } tmp _ _ =>
      some { s.become i .idle with dir := s.dir.remove tmp }
    | _ => none
  | .list i => if (s.clients i).resting then some (s.become i (.scanning (.keys []) [])) else none
  | .statistics i => if (s.clients i).resting then some (s.become i (.scanning .sweep [])) else none
  | .fill i names =>
    match s.clients i with
    | .scanning scan left =>
      if ∀ name ∈ names, name ∈ s.dir.names then
        some (s.become i (.scanning scan (left ++ names)))
      else none
    | _ => none
  | .visit i =>
    match s.clients i with
    | .scanning scan (name :: left) =>
      some { s.become i (.scanning (scan.visit s.dir name).1 left) with
        dir := (scan.visit s.dir name).2 }
    | _ => none
  | .finish i =>
    match s.clients i with
    | .scanning (.keys found) [] => some (s.become i (.listed (sortBy compare found)))
    | .scanning .sweep [] => some (s.become i (.scanning (.stats {}) []))
    | .scanning (.stats sum) [] => some (s.become i (.counted sum))
    | _ => none
  | .read i key => if (s.clients i).resting then some (s.become i (s.lookUp max key)) else none
  | .open i =>
    match s.clients i with
    | .reading key =>
      match s.dir.names[key]? with
      | none => some (s.become i (.read key (.error (.io noSuchFile))))
      | some file => some (s.become i (.opened key file))
    | _ => none
  | .readToEnd i =>
    match s.clients i with
    | .opened key file => some (s.become i (.read key (.ok (some (s.dir.files file)))))
    | _ => none

/-- The states that the clients' steps lead to in any order, each step meeting `ok` where it is
taken. -/
inductive SharedRun (max : Nat) (ok : Shared → Action → Prop) :
    Shared → List Action → Shared → Prop where
  | nil (s : Shared) : SharedRun max ok s [] s
  | snoc {s s₁ s₂ : Shared} {as : List Action} {a : Action} :
      SharedRun max ok s as s₁ → ok s₁ a → a.perform max s₁ = some s₂ →
      SharedRun max ok s (as ++ [a]) s₂

/-! ## What is to hold -/

/-- What a step leaves of writes and reads: a write that passes its checks succeeds and its bytes are
the record, a record that is there is read whole, and one is not there only if none was written. -/
structure Undisturbed (max : Nat) (s s' : Shared) (a : Action) : Prop where
  committed : ∀ i job tmp file, a = .commit i → s.clients i = .writing job tmp file [] →
    job.recheck max = .ok () →
    s'.clients i = .wrote (.ok ()) ∧ s'.dir.read job.key = some job.bytes
  found : ∀ i key, a = .read i key → validateKey key = .ok () →
    s'.clients i = .reading key ∨
      s'.clients i = .read key (.ok none) ∧ ∀ bytes, (key, bytes) ∉ s.written
  opened : ∀ i key, a = .open i → s.clients i = .reading key →
    ∃ file, s'.clients i = .opened key file
  whole : ∀ i key file, a = .readToEnd i → s.clients i = .opened key file →
    ∃ bytes, s'.clients i = .read key (.ok (some bytes)) ∧ (key, bytes) ∈ s.written

/-- No scan comes across the temporary of a write between its creation and its rename. -/
def Unswept (s : Shared) (a : Action) : Prop :=
  match a with
  | .visit i => ∀ scan name names, s.clients i = .scanning scan (name :: names) →
    scan.sweeps = true → isTmp name = true →
    ∀ j job file left, s.clients j ≠ .writing job name file left
  | _ => True

/-! ## Names -/

theorem tmpPath_injective {pid n m : Nat} (h : tmpPath pid n = tmpPath pid m) : n = m := by
  unfold tmpPath at h
  have hrepr : (toString n).toList = (toString m).toList := by
    simpa using congrArg String.toList h
  change n.repr.toList = m.repr.toList at hrepr
  rw [Nat.toList_repr, Nat.toList_repr] at hrepr
  have hn := Nat.ofDigitChars_toDigits (n := n) (b := 10) (by omega) (by omega)
  rw [hrepr, Nat.ofDigitChars_toDigits (by omega) (by omega)] at hn
  exact hn.symm

theorem isHidden_of_isTmp {name : String} (h : isTmp name = true) : isHidden name = true := by
  obtain ⟨rest, hrest⟩ := List.isPrefixOf_iff_prefix.mp h
  simp [isHidden, ← hrest, TMP_PREFIX]

theorem isTmp_tmpPath (pid nonce : Nat) : isTmp (tmpPath pid nonce) = true := by
  simp [isTmp, tmpPath, List.append_assoc]

/-- No key names a temporary. -/
theorem not_hidden_of_valid {key : String} (h : validateKey key = .ok ()) :
    isHidden key = false := by
  unfold validateKey at h
  simp only [] at h
  split at h
  · cases h
  · split at h
    · cases h
    · split at h
      · cases h
      · split at h
        · cases h
        · rename_i hdot
          simpa [isHidden] using hdot

theorem WriteJob.key_of_check {max : Nat} {job : WriteJob} (h : job.check max = .ok ()) :
    validateKey job.key = .ok () := by
  unfold WriteJob.check at h
  split at h
  · split at h
    · cases h
    · exact h
  · split at h
    · cases h
    · exact h
  · exact (stage_ok h).1

/-- What passes both checks is within the limit. -/
theorem WriteJob.length_le {max : Nat} {job : WriteJob} (h : job.check max = .ok ())
    (h' : job.recheck max = .ok ()) : job.bytes.length ≤ max := by
  unfold WriteJob.check at h
  unfold WriteJob.recheck at h'
  split at h
  · split at h
    · cases h
    · exact not_lt.mp ‹_›
  · rename_i hkind
    rw [hkind] at h'
    dsimp only at h'
    split at h'
    · cases h'
    · exact not_lt.mp ‹_›
  · rename_i hkind
    rw [hkind, (stage_ok h).1] at h'
    dsimp only at h'
    split at h'
    · cases h'
    · rename_i heq
      rw [not_not.mp heq]
      exact (stage_ok h).2

/-! ## What every step keeps -/

/-- The temporary name a client has in use. -/
def Client.tmp : Client → Option String
  | .named _ tmp | .writing _ tmp _ _ => some tmp
  | _ => none

/-- The temporary file a client has open. -/
def Client.live : Client → Option String
  | .writing _ tmp _ _ => some tmp
  | _ => none

theorem Client.tmp_of_live {c : Client} {tmp : String} (h : c.live = some tmp) :
    c.tmp = some tmp := by
  cases c <;> cases h
  rfl

/-- What a client relies on. -/
def Client.Served (max : Nat) (s : Shared) : Client → Prop
  | .named job tmp => job.check max = .ok () ∧ ∃ n < s.nonce, tmp = tmpPath s.pid n
  | .writing job tmp file left =>
    job.check max = .ok () ∧ (∃ n < s.nonce, tmp = tmpPath s.pid n) ∧
      s.dir.names[tmp]? = some file ∧ s.dir.files file ++ left = job.bytes
  | .reading key => isHidden key = false ∧ key ∈ s.dir.names
  | .opened key file =>
    (key, s.dir.files file) ∈ s.written ∧ file < s.dir.next ∧
      ∀ name, s.dir.names[name]? = some file → isHidden name = false
  | _ => True

structure Shared.Inv (max : Nat) (s : Shared) : Prop where
  sound : s.dir.Sound
  served : ∀ i, (s.clients i).Served max s
  apart : ∀ i j tmp, (s.clients i).tmp = some tmp → (s.clients j).tmp = some tmp → i = j
  /-- Every file that is not hidden is a record. -/
  records : ∀ key file, isHidden key = false → s.dir.names[key]? = some file →
    (key, s.dir.files file) ∈ s.written ∧ (s.dir.files file).length ≤ max
  /-- And no record is lost. -/
  present : ∀ key bytes, (key, bytes) ∈ s.written → isHidden key = false ∧ key ∈ s.dir.names

section

variable {max : Nat} {s s' : Shared}

theorem Client.hidden_of_tmp {c : Client} {tmp : String} (h : c.Served max s)
    (htmp : c.tmp = some tmp) : isHidden tmp = true ∧ isTmp tmp = true := by
  cases c <;> cases htmp
  · obtain ⟨-, n, -, rfl⟩ := h
    exact ⟨isHidden_of_isTmp (isTmp_tmpPath _ _), isTmp_tmpPath _ _⟩
  · obtain ⟨-, ⟨n, -, rfl⟩, -⟩ := h
    exact ⟨isHidden_of_isTmp (isTmp_tmpPath _ _), isTmp_tmpPath _ _⟩

/-- A directory with other names for hidden files alone, and other content for hidden files alone:
what the clients that use none of them rely on is left. -/
structure Aside (d d' : HostDir) (touched : String → Prop) : Prop where
  hidden : ∀ name, touched name → isHidden name = true
  names : ∀ name, ¬ touched name → d'.names[name]? = d.names[name]?
  files : ∀ file, file < d.next →
    (∀ name, d.names[name]? = some file → ¬ touched name) → d'.files file = d.files file
  next : d.next ≤ d'.next
  /-- A touched name does not come to stand for a file that had no such name. -/
  fresh : ∀ name file, touched name → d'.names[name]? = some file →
    d.names[name]? = some file ∨ d.next ≤ file

theorem Client.Served.aside {c : Client} (h : c.Served max s) {dir : HostDir}
    {touched : String → Prop} (hsound : s.dir.Sound) (ha : Aside s.dir dir touched)
    (hown : ∀ tmp, c.live = some tmp → ¬ touched tmp) : c.Served max { s with dir := dir } := by
  cases c with
  | named job tmp => exact h
  | writing job tmp file left =>
    obtain ⟨hcheck, hname, hfile, hleft⟩ := h
    have hun := hown tmp rfl
    refine ⟨hcheck, hname, (ha.names tmp hun).trans hfile, ?_⟩
    have hsame : dir.files file = s.dir.files file := by
      refine ha.files file (hsound.made hfile) fun name hname ht => ?_
      rw [hsound.single hname hfile] at ht
      exact hun ht
    change dir.files file ++ left = job.bytes
    rw [hsame, hleft]
  | reading key =>
    obtain ⟨hkey, hin⟩ := h
    refine ⟨hkey, ?_⟩
    have hun : ¬ touched key := fun ht => by
      rw [ha.hidden key ht] at hkey
      cases hkey
    obtain ⟨file, hfile⟩ := mem_iff_exists.mp hin
    exact mem_of_getElem? ((ha.names key hun).trans hfile)
  | opened key file =>
    obtain ⟨hwritten, hmade, hnames⟩ := h
    have hun : ∀ name, s.dir.names[name]? = some file → ¬ touched name := fun name hname ht => by
      have hvisible := hnames name hname
      rw [ha.hidden name ht] at hvisible
      cases hvisible
    have hsame := ha.files file hmade hun
    refine ⟨?_, hmade.trans_le ha.next, fun name hname => ?_⟩
    · change (key, dir.files file) ∈ s.written
      rw [hsame]
      exact hwritten
    · by_cases ht : touched name
      · rcases ha.fresh name file ht hname with hold | hnew
        · exact hnames name hold
        · exact absurd hmade (not_lt.mpr hnew)
      · exact hnames name ((ha.names name ht).symm.trans hname)
  | idle | wrote | scanning | listed | counted | read => trivial

/-- The records of a directory changed aside. -/
theorem Shared.Inv.recordsAside (h : s.Inv max) {dir : HostDir} {touched : String → Prop}
    (ha : Aside s.dir dir touched) :
    (∀ key file, isHidden key = false → dir.names[key]? = some file →
      (key, dir.files file) ∈ s.written ∧ (dir.files file).length ≤ max) ∧
    ∀ key bytes, (key, bytes) ∈ s.written → isHidden key = false ∧ key ∈ dir.names := by
  have hun : ∀ key, isHidden key = false → ¬ touched key := fun key hkey ht => by
    rw [ha.hidden key ht] at hkey
    cases hkey
  constructor
  · intro key file hkey hfile
    rw [ha.names key (hun key hkey)] at hfile
    have hsame := ha.files file (h.sound.made hfile) fun name hname ht => by
      rw [h.sound.single hname hfile] at ht
      exact hun key hkey ht
    rw [hsame]
    exact h.records key file hkey hfile
  · intro key bytes hwritten
    obtain ⟨hkey, hin⟩ := h.present key bytes hwritten
    obtain ⟨file, hfile⟩ := mem_iff_exists.mp hin
    exact ⟨hkey, mem_of_getElem? ((ha.names key (hun key hkey)).trans hfile)⟩

/-- A step that changes the directory aside and one client. -/
theorem Shared.Inv.step (h : s.Inv max) {i : Nat} {c : Client} {dir : HostDir}
    {touched : String → Prop} (ha : Aside s.dir dir touched) (hsound : dir.Sound)
    (hothers : ∀ j tmp, j ≠ i → (s.clients j).live = some tmp → ¬ touched tmp)
    (hc : c.Served max { s with dir := dir })
    (htmp : ∀ tmp, c.tmp = some tmp → (s.clients i).tmp = some tmp) :
    { s.become i c with dir := dir }.Inv max where
  sound := hsound
  served j := by
    unfold Shared.become
    dsimp only
    by_cases hj : j = i
    · subst hj
      rw [Function.update_self]
      cases c <;> exact hc
    · rw [Function.update_of_ne hj]
      have hserved := (h.served j).aside h.sound ha fun tmp htmp => hothers j tmp hj htmp
      cases hcj : s.clients j <;> rw [hcj] at hserved <;> exact hserved
  apart j k tmp hj hk := by
    have hold : ∀ l, ((s.become i c).clients l).tmp = some tmp → (s.clients l).tmp = some tmp := by
      intro l hl
      unfold Shared.become at hl
      dsimp only at hl
      by_cases hli : l = i
      · subst hli
        rw [Function.update_self] at hl
        exact htmp tmp hl
      · rwa [Function.update_of_ne hli] at hl
    exact h.apart j k tmp (hold j hj) (hold k hk)
  records := (h.recordsAside ha).1
  present := (h.recordsAside ha).2

theorem Aside.refl (d : HostDir) : Aside d d fun _ => False :=
  ⟨fun _ h => h.elim, fun _ _ => rfl, fun _ _ _ => rfl, le_refl _, fun _ _ h => h.elim⟩

/-- A step that changes one client alone. -/
theorem Shared.Inv.become (h : s.Inv max) {i : Nat} {c : Client} (hc : c.Served max s)
    (htmp : ∀ tmp, c.tmp = some tmp → (s.clients i).tmp = some tmp) : (s.become i c).Inv max :=
  h.step (Aside.refl s.dir) h.sound (fun _ _ _ _ ht => ht) hc htmp

theorem aside_create {tmp : String} (ht : isHidden tmp = true) :
    Aside s.dir (s.dir.create tmp) fun name => name = tmp where
  hidden name hname := hname ▸ ht
  names name hname := getElem?_insert_ne _ _ (Ne.symm hname)
  files file hmade hnames := by
    refine Function.update_of_ne ?_ _ _
    rintro rfl
    unfold HostDir.target at hmade hnames
    cases hfile : s.dir.names[tmp]? with
    | none =>
      rw [hfile] at hmade
      exact lt_irrefl _ hmade
    | some f =>
      rw [hfile] at hnames
      exact hnames tmp hfile rfl
  next := le_max_left _ _
  fresh name file hname hfile := by
    subst hname
    have htarget : s.dir.target name = file :=
      Option.some.inj (Std.ExtTreeMap.getElem?_insert_self.symm.trans hfile)
    rw [← htarget]
    unfold HostDir.target
    cases s.dir.names[name]? with
    | none => exact Or.inr (le_refl _)
    | some f => exact Or.inl rfl

theorem aside_append {tmp : String} {file : Nat} (hfile : s.dir.names[tmp]? = some file)
    (ht : isHidden tmp = true) (chunk : Bytes) :
    Aside s.dir (s.dir.append file chunk) fun name => name = tmp where
  hidden name hname := hname ▸ ht
  names _ _ := rfl
  files other _ hnames := by
    refine Function.update_of_ne ?_ _ _
    rintro rfl
    exact hnames tmp hfile rfl
  next := le_refl _
  fresh _ _ _ hname := Or.inl hname

theorem aside_remove {name : String} (ht : isHidden name = true) :
    Aside s.dir (s.dir.remove name) fun other => other = name where
  hidden _ hother := hother ▸ ht
  names _ hother := getElem?_erase_ne _ (Ne.symm hother)
  files _ _ _ := rfl
  next := le_refl _
  fresh _ _ hother hfile := absurd hother (HostDir.getElem?_of_remove hfile).1

/-! ## A rename -/

/-- The directory after a write's rename: its temporary name is gone, its key stands for the file
and nothing else is changed. -/
theorem Shared.Inv.rename (h : s.Inv max) {i : Nat} {job : WriteJob} {tmp : String} {file : Nat}
    (hi : s.clients i = .writing job tmp file []) (hcheck : job.recheck max = .ok ()) :
    (s.rename i job tmp).Inv max ∧ (s.rename i job tmp).clients i = .wrote (.ok ()) ∧
      (s.rename i job tmp).dir.read job.key = some job.bytes := by
  have hserved := h.served i
  rw [hi] at hserved
  obtain ⟨hfirst, hname, hfile, hbytes⟩ := hserved
  rw [List.append_nil] at hbytes
  have hkey := not_hidden_of_valid (WriteJob.key_of_check hfirst)
  have htmp := (Client.hidden_of_tmp (h.served i) (by rw [hi]; rfl) : isHidden tmp = true ∧ _).1
  obtain ⟨dir, hrename⟩ : ∃ dir, s.dir.rename tmp job.key = some dir :=
    ⟨_, by rw [HostDir.rename, hfile]; rfl⟩
  obtain ⟨renamed, hrenamed, hfiles, hnext, hnames⟩ := HostDir.rename_eq_some hrename
  obtain rfl : file = renamed := Option.some.inj (hfile.symm.trans hrenamed)
  have hvisible : ∀ name, isHidden name = false → name ≠ tmp := fun name hname hc => by
    rw [hc, htmp] at hname
    cases hname
  have hget : ∀ name, name ≠ job.key → name ≠ tmp → dir.names[name]? = s.dir.names[name]? := by
    intro name hnekey hnetmp
    rw [hnames, getElem?_insert_ne _ _ (Ne.symm hnekey), getElem?_erase_ne _ (Ne.symm hnetmp)]
  have hself : dir.names[job.key]? = some file := by
    rw [hnames]
    exact Std.ExtTreeMap.getElem?_insert_self
  have hstays : ∀ name, isHidden name = false → name ∈ s.dir.names → name ∈ dir.names := by
    intro name hname hin
    by_cases hk : name = job.key
    · exact mem_of_getElem? (hk ▸ hself)
    · obtain ⟨f, hf⟩ := mem_iff_exists.mp hin
      exact mem_of_getElem? ((hget name hk (hvisible name hname)).trans hf)
  have hsteps : s.rename i job tmp = { s.become i (.wrote (.ok ())) with
      dir := dir, written := (job.key, job.bytes) :: s.written } := by
    rw [Shared.rename, hrename]
  rw [hsteps]
  refine ⟨⟨h.sound.rename hrename, fun j => ?_, fun j k t hj hk => ?_, fun key f hk hf => ?_,
    fun key bytes hw => ?_⟩, Function.update_self .., ?_⟩
  · unfold Shared.become
    dsimp only
    by_cases hj : j = i
    · subst hj
      rw [Function.update_self]
      trivial
    · rw [Function.update_of_ne hj]
      have hold := h.served j
      cases hcj : s.clients j with
      | named job' tmp' => rw [hcj] at hold; exact hold
      | writing job' tmp' file' left =>
        rw [hcj] at hold
        obtain ⟨hcheck', hname', hfile', hleft⟩ := hold
        have hapart : tmp' ≠ tmp := by
          rintro rfl
          exact hj (h.apart j i tmp' (by rw [hcj]; rfl) (by rw [hi]; rfl))
        have htmp' := (Client.hidden_of_tmp (h.served j) (by rw [hcj]; rfl) :
          isHidden tmp' = true ∧ _).1
        have hne : tmp' ≠ job.key := by
          rintro rfl
          rw [htmp'] at hkey
          cases hkey
        exact ⟨hcheck', hname', (hget tmp' hne hapart).trans hfile', by rw [hfiles]; exact hleft⟩
      | reading key =>
        rw [hcj] at hold
        obtain ⟨hvis, hin⟩ := hold
        exact ⟨hvis, hstays key hvis hin⟩
      | opened key f =>
        rw [hcj] at hold
        obtain ⟨hwritten, hmade, hnamed⟩ := hold
        refine ⟨List.mem_cons_of_mem _ (by rw [hfiles]; exact hwritten), by rw [hnext]; exact hmade,
          fun name hn => ?_⟩
        rcases HostDir.getElem?_of_rename hrename hn with ⟨rfl, -⟩ | ⟨-, -, hn⟩
        · exact hkey
        · exact hnamed name hn
      | idle | wrote | scanning | listed | counted | read => trivial
  · have hold : ∀ l, ((s.become i (.wrote (.ok ()))).clients l).tmp = some t →
        (s.clients l).tmp = some t := by
      intro l hl
      unfold Shared.become at hl
      dsimp only at hl
      by_cases hli : l = i
      · subst hli
        rw [Function.update_self] at hl
        cases hl
      · rwa [Function.update_of_ne hli] at hl
    exact h.apart j k t (hold j hj) (hold k hk)
  · change (key, dir.files f) ∈ _ ∧ _
    rw [hfiles]
    rcases HostDir.getElem?_of_rename hrename hf with ⟨rfl, hmoved⟩ | ⟨-, -, hold⟩
    · obtain rfl : file = f := Option.some.inj (hfile.symm.trans hmoved)
      rw [hbytes]
      exact ⟨List.mem_cons_self, WriteJob.length_le hfirst hcheck⟩
    · obtain ⟨hwritten, hlen⟩ := h.records key f hk hold
      exact ⟨List.mem_cons_of_mem _ hwritten, hlen⟩
  · rcases List.mem_cons.mp hw with heq | hw
    · cases heq
      exact ⟨hkey, mem_of_getElem? hself⟩
    · obtain ⟨hvis, hin⟩ := h.present key bytes hw
      exact ⟨hvis, hstays key hvis hin⟩
  · change dir.names[job.key]?.map dir.files = _
    rw [hself, Option.map_some, hfiles, hbytes]

/-! ## One step -/

/-- A visit removes a temporary or changes no name. -/
theorem Scan.visit_dir (scan : Scan) (d : HostDir) (name : String) :
    (scan.visit d name).2 = d ∨
      scan.sweeps = true ∧ isTmp name = true ∧ (scan.visit d name).2 = d.remove name := by
  cases scan with
  | keys found =>
    simp only [Scan.visit]
    split
    · exact Or.inr ⟨rfl, ‹_›, rfl⟩
    · split <;> exact Or.inl rfl
  | sweep =>
    simp only [Scan.visit]
    split
    · exact Or.inr ⟨rfl, ‹_›, rfl⟩
    · exact Or.inl rfl
  | stats sum =>
    simp only [Scan.visit]
    split
    · exact Or.inl rfl
    · split <;> exact Or.inl rfl

theorem served_lookUp (key : String) : (s.lookUp max key).Served max s := by
  unfold Shared.lookUp
  cases hkey : validateKey key with
  | error e => trivial
  | ok u =>
    dsimp only
    split
    · trivial
    · rename_i bytes hread
      split
      · trivial
      · obtain ⟨file, hfile, -⟩ := Option.map_eq_some_iff.mp hread
        exact ⟨not_hidden_of_valid hkey, mem_of_getElem? hfile⟩

theorem tmp_lookUp (key : String) : (s.lookUp max key).tmp = none := by
  unfold Shared.lookUp
  split
  · rfl
  · split
    · rfl
    · split <;> rfl

/-- A client that throws away its temporary name. -/
theorem Shared.Inv.dropTmp (h : s.Inv max) {i : Nat} {tmp : String} {c : Client}
    (hi : (s.clients i).tmp = some tmp) (hc : ∀ s, c.Served max s) (hnone : c.tmp = none) :
    { s.become i c with dir := s.dir.remove tmp }.Inv max := by
  have hhidden := (Client.hidden_of_tmp (h.served i) hi).1
  refine h.step (aside_remove hhidden) (h.sound.remove tmp) (fun j t hj ht htmp => ?_) (hc _)
    (fun t ht => ?_)
  · exact hj (h.apart j i tmp (Client.tmp_of_live (htmp ▸ ht)) hi)
  · rw [hnone] at ht
    cases ht

/-- A new write takes a name no other has. -/
theorem Shared.Inv.begin (h : s.Inv max) {i : Nat} {job : WriteJob}
    (hcheck : job.check max = .ok ()) :
    { s.become i (.named job (tmpPath s.pid s.nonce)) with nonce := s.nonce + 1 }.Inv max := by
  have hold : ∀ j tmp, (s.clients j).tmp = some tmp → ∃ n < s.nonce, tmp = tmpPath s.pid n := by
    intro j tmp htmp
    have hserved := h.served j
    cases hcj : s.clients j <;> rw [hcj] at htmp hserved <;> cases htmp
    · exact hserved.2
    · exact hserved.2.1
  have hfresh : ∀ j, (s.clients j).tmp ≠ some (tmpPath s.pid s.nonce) := by
    intro j hj
    obtain ⟨n, hn, heq⟩ := hold j _ hj
    exact hn.ne (tmpPath_injective heq).symm
  refine ⟨h.sound, fun j => ?_, fun j k tmp hj hk => ?_, h.records, h.present⟩
  · unfold Shared.become
    dsimp only
    by_cases hj : j = i
    · subst hj
      rw [Function.update_self]
      exact ⟨hcheck, s.nonce, Nat.lt_succ_self _, rfl⟩
    · rw [Function.update_of_ne hj]
      have hserved := h.served j
      cases hcj : s.clients j with
      | named job tmp =>
        rw [hcj] at hserved
        obtain ⟨hc, n, hn, heq⟩ := hserved
        exact ⟨hc, n, hn.trans (Nat.lt_succ_self _), heq⟩
      | writing job tmp file left =>
        rw [hcj] at hserved
        obtain ⟨hc, ⟨n, hn, heq⟩, hfile⟩ := hserved
        exact ⟨hc, ⟨n, hn.trans (Nat.lt_succ_self _), heq⟩, hfile⟩
      | reading key => rw [hcj] at hserved; exact hserved
      | opened key file => rw [hcj] at hserved; exact hserved
      | idle | wrote | scanning | listed | counted | read => trivial
  · unfold Shared.become at hj hk
    dsimp only at hj hk
    by_cases hji : j = i <;> by_cases hki : k = i
    · rw [hji, hki]
    · subst hji
      rw [Function.update_self] at hj
      rw [Function.update_of_ne hki] at hk
      cases hj
      exact absurd hk (hfresh k)
    · subst hki
      rw [Function.update_self] at hk
      rw [Function.update_of_ne hji] at hj
      cases hk
      exact absurd hj (hfresh j)
    · rw [Function.update_of_ne hji] at hj
      rw [Function.update_of_ne hki] at hk
      exact h.apart j k tmp hj hk

/-- No step takes the temporary of a write away or touches a record but to replace it. -/
theorem Shared.Inv.perform (h : s.Inv max) {a : Action} (hok : Unswept s a)
    (hp : a.perform max s = some s') : s'.Inv max := by
  cases a with
  | write i job =>
    simp only [Action.perform] at hp
    split at hp
    · cases hp
    split at hp
    · cases hp
      exact h.become trivial fun tmp ht => by cases ht
    · rename_i hcheck
      cases hp
      exact h.begin hcheck
  | create i =>
    simp only [Action.perform] at hp
    split at hp
    · rename_i job tmp hi
      cases hp
      have hserved := h.served i
      rw [hi] at hserved
      have hhidden := (Client.hidden_of_tmp (h.served i) (by rw [hi]; rfl) :
        isHidden tmp = true ∧ _).1
      refine h.step (aside_create hhidden) (h.sound.create tmp) (fun j t hj ht htmp => ?_)
        ⟨hserved.1, hserved.2, Std.ExtTreeMap.getElem?_insert_self, ?_⟩ (fun t ht => ?_)
      · exact hj (h.apart j i tmp (Client.tmp_of_live (htmp ▸ ht)) (by rw [hi]; rfl))
      · change Function.update s.dir.files _ [] _ ++ _ = _
        rw [Function.update_self, List.nil_append]
      · rw [hi]
        exact ht
    · cases hp
  | append i n =>
    simp only [Action.perform] at hp
    split at hp
    · rename_i job tmp file left hi
      cases hp
      have hserved := h.served i
      rw [hi] at hserved
      obtain ⟨hcheck, hname, hfile, hleft⟩ := hserved
      have hhidden := (Client.hidden_of_tmp (h.served i) (by rw [hi]; rfl) :
        isHidden tmp = true ∧ _).1
      refine h.step (aside_append hfile hhidden _) (h.sound.append _ _)
        (fun j t hj ht htmp => ?_) ⟨hcheck, hname, hfile, ?_⟩ (fun t ht => ?_)
      · exact hj (h.apart j i tmp (Client.tmp_of_live (htmp ▸ ht)) (by rw [hi]; rfl))
      · change Function.update s.dir.files _ _ _ ++ _ = _
        rw [Function.update_self, List.append_assoc, List.take_append_drop, hleft]
      · rw [hi]
        exact ht
    · cases hp
  | commit i =>
    simp only [Action.perform] at hp
    split at hp
    · rename_i job tmp file hi
      split at hp
      · cases hp
        exact h.dropTmp (by rw [hi]; rfl) (fun _ => trivial) rfl
      · rename_i hcheck
        cases hp
        exact (h.rename hi hcheck).1
    · cases hp
  | discard i =>
    simp only [Action.perform] at hp
    split at hp
    · rename_i hi
      cases hp
      exact h.dropTmp (by rw [hi]; rfl) (fun _ => trivial) rfl
    · rename_i hi
      cases hp
      exact h.dropTmp (by rw [hi]; rfl) (fun _ => trivial) rfl
    · cases hp
  | list i =>
    simp only [Action.perform] at hp
    split at hp
    · cases hp
      exact h.become trivial fun tmp ht => by cases ht
    · cases hp
  | statistics i =>
    simp only [Action.perform] at hp
    split at hp
    · cases hp
      exact h.become trivial fun tmp ht => by cases ht
    · cases hp
  | fill i names =>
    simp only [Action.perform] at hp
    split at hp
    · split at hp
      · cases hp
        exact h.become trivial fun tmp ht => by cases ht
      · cases hp
    · cases hp
  | visit i =>
    simp only [Action.perform] at hp
    split at hp
    · rename_i scan name left hi
      cases hp
      rcases scan.visit_dir s.dir name with hsame | ⟨hsweeps, htmp, hremoved⟩
      · rw [hsame]
        exact h.become trivial fun tmp ht => by cases ht
      · rw [hremoved]
        refine h.step (aside_remove (isHidden_of_isTmp htmp)) (h.sound.remove name)
          (fun j t _ ht heq => ?_) trivial fun tmp ht => by cases ht
        cases hj : s.clients j <;> rw [hj] at ht <;> cases ht
        exact hok scan name left hi hsweeps htmp j _ _ _ (heq ▸ hj)
    · cases hp
  | finish i =>
    simp only [Action.perform] at hp
    split at hp <;> cases hp <;> exact h.become trivial fun tmp ht => by cases ht
  | read i key =>
    simp only [Action.perform] at hp
    split at hp
    · cases hp
      exact h.become (served_lookUp key) fun tmp ht => by rw [tmp_lookUp] at ht; cases ht
    · cases hp
  | «open» i =>
    simp only [Action.perform] at hp
    split at hp
    · rename_i key hi
      split at hp
      · cases hp
        exact h.become trivial fun tmp ht => by cases ht
      · rename_i file hfile
        cases hp
        have hserved := h.served i
        rw [hi] at hserved
        refine h.become ⟨(h.records key file hserved.1 hfile).1, h.sound.made hfile,
          fun name hname => ?_⟩ fun tmp ht => by cases ht
        rw [h.sound.single hname hfile]
        exact hserved.1
    · cases hp
  | readToEnd i =>
    simp only [Action.perform] at hp
    split at hp
    · cases hp
      exact h.become trivial fun tmp ht => by cases ht
    · cases hp

theorem Shared.Inv.run (h : s.Inv max) {as : List Action} (hrun : SharedRun max Unswept s as s') :
    s'.Inv max := by
  induction hrun with
  | nil => exact h
  | snoc _ hok hp ih => exact ih.perform hok hp

/-- What a step does for the client that takes it. -/
theorem Shared.Inv.undisturbed (h : s.Inv max) {a : Action} (hp : a.perform max s = some s') :
    Undisturbed max s s' a where
  committed i job tmp file ha hi hcheck := by
    subst ha
    simp only [Action.perform, hi, hcheck] at hp
    cases hp
    exact (h.rename hi hcheck).2
  found i key ha hkey := by
    subst ha
    simp only [Action.perform] at hp
    split at hp
    · cases hp
      have hself : (s.become i (s.lookUp max key)).clients i = s.lookUp max key :=
        Function.update_self ..
      rw [hself, Shared.lookUp, hkey]
      dsimp only
      cases hread : s.dir.read key with
      | none =>
        refine Or.inr ⟨rfl, fun bytes hw => ?_⟩
        obtain ⟨file, hfile⟩ := mem_iff_exists.mp (h.present key bytes hw).2
        rw [HostDir.read, hfile] at hread
        cases hread
      | some bytes =>
        obtain ⟨file, hfile, rfl⟩ := Option.map_eq_some_iff.mp hread
        have hlen := (h.records key file (not_hidden_of_valid hkey) hfile).2
        dsimp only
        rw [if_neg (not_lt.mpr hlen)]
        exact Or.inl rfl
    · cases hp
  opened i key ha hi := by
    subst ha
    have hserved := h.served i
    rw [hi] at hserved
    obtain ⟨file, hfile⟩ := mem_iff_exists.mp hserved.2
    simp only [Action.perform, hi, hfile] at hp
    cases hp
    exact ⟨file, Function.update_self ..⟩
  whole i key file ha hi := by
    subst ha
    have hserved := h.served i
    rw [hi] at hserved
    simp only [Action.perform, hi] at hp
    cases hp
    exact ⟨s.dir.files file, Function.update_self .., hserved.1⟩

end

/-- A directory with no client at work on it, whose records are the files that are not hidden, none
of them over the limit. -/
structure Start (max : Nat) (s : Shared) : Prop where
  idle : ∀ i, s.clients i = .idle
  sound : s.dir.Sound
  records : ∀ key file, isHidden key = false → s.dir.names[key]? = some file →
    (key, s.dir.files file) ∈ s.written ∧ (s.dir.files file).length ≤ max
  present : ∀ key bytes, (key, bytes) ∈ s.written → isHidden key = false ∧ key ∈ s.dir.names

theorem Start.inv {max : Nat} {s : Shared} (h : Start max s) : s.Inv max where
  sound := h.sound
  served i := by rw [h.idle i]; trivial
  apart i j tmp hi _ := by rw [h.idle i] at hi; cases hi
  records := h.records
  present := h.present

theorem start_empty (max pid : Nat) : Start max { pid := pid } where
  idle _ := rfl
  sound := HostDir.sound_empty
  records key file _ h := by simp at h
  present key bytes h := by cases h

/-- In every interleaving of writes, listings, statistics and reads in which no scan comes across the
temporary of a write between its creation and its rename, every write that passes its checks
succeeds with its bytes as the record, and every read is of one whole write. -/
theorem writes_and_scans_undisturbed {max : Nat} {s s₁ s₂ : Shared} {as : List Action} {a : Action}
    (hs : Start max s) (hrun : SharedRun max Unswept s as s₁)
    (hp : a.perform max s₁ = some s₂) : Undisturbed max s₁ s₂ a :=
  (hs.inv.run hrun).undisturbed hp

/-! ## Runs by evaluation -/

def sharedAll (max : Nat) (check : Shared → Action → Bool) : Shared → List Action → Option Shared
  | s, [] => some s
  | s, a :: as =>
    if check s a then (a.perform max s).bind fun s => sharedAll max check s as else none

theorem sharedRun_of_all {max : Nat} {check : Shared → Action → Bool}
    {ok : Shared → Action → Prop} (hok : ∀ s a, check s a = true → ok s a) :
    ∀ {as pre : List Action} {s s₁ s' : Shared}, SharedRun max ok s pre s₁ → sharedAll max check s₁ as = some s' →
    SharedRun max ok s (pre ++ as) s' := by
  intro as
  induction as with
  | nil =>
    intro pre s s₁ s' hrun h
    cases h
    rw [List.append_nil]
    exact hrun
  | cons a as ih =>
    intro pre s s₁ s' hrun h
    rw [sharedAll] at h
    split at h
    · rename_i hcheck
      obtain ⟨s₂, hp, hrest⟩ := Option.bind_eq_some_iff.mp h
      rw [List.append_cons]
      exact ih (.snoc hrun (hok _ _ hcheck) hp) hrest
    · cases h

/-- A record of three bytes. -/
def threeBytes : WriteJob := { key := "K", bytes := [1, 2, 3] }

def threeBytesTmp : String := tmpPath 1 0

/-- The write up to its rename. -/
def fillThree : List Action := [.write 0 threeBytes, .create 0, .append 0 2, .append 0 1]

/-- No temporary is come across. -/
def sweepsNothing (s : Shared) : Action → Bool
  | .visit i =>
    match s.clients i with
    | .scanning scan (name :: _) => !(scan.sweeps && isTmp name)
    | _ => true
  | _ => true

theorem unswept_of_sweepsNothing (s : Shared) (a : Action) (h : sweepsNothing s a = true) :
    Unswept s a := by
  cases a with
  | visit i =>
    intro scan name names hclient hsweeps htmp
    simp [sweepsNothing, hclient, hsweeps, htmp] at h
  | _ => trivial

/-- The record in place, another one on its way, and a listing that comes across the first. -/
def listedMeanwhile : List Action :=
  fillThree ++ [.commit 0, .write 0 { key := "J", bytes := [4] }, .create 0, .list 1, .fill 1 ["K"],
    .visit 1, .append 0 1]

theorem written_beside_listing :
    ∃ s s', SharedRun 100 Unswept {} listedMeanwhile s ∧
      (Action.commit 0).perform 100 s = some s' ∧ Undisturbed 100 s s' (.commit 0) := by
  have hall : ((sharedAll 100 sweepsNothing {} listedMeanwhile).any fun s =>
      ((Action.commit 0).perform 100 s).isSome) = true := by
    decide +kernel
  obtain ⟨s, hs, hcommit⟩ := (Option.any_eq_true _ _).mp hall
  obtain ⟨s', hs'⟩ := Option.isSome_iff_exists.mp hcommit
  have hrun := sharedRun_of_all unswept_of_sweepsNothing (.nil {}) hs
  exact ⟨s, s', hrun, hs', writes_and_scans_undisturbed (start_empty 100 1) hrun hs'⟩

/-- A client that has been told its write found no such file. -/
def Client.lost : Client → Bool
  | .wrote (.error e) => e = .io noSuchFile
  | _ => false

/-- A scan that goes by between the creation and the rename: the write fails. -/
def FailsWrite (scan : Nat → Action) : Prop :=
  ∃ s, SharedRun 100 (fun _ _ => True) {}
      (fillThree ++ [scan 1, .fill 1 [threeBytesTmp], .visit 1, .commit 0]) s ∧
    (s.clients 0).lost = true ∧ s.dir.read "K" = none

theorem scans_fail_write : FailsWrite .list ∧ FailsWrite .statistics := by
  have hfails : ∀ scan : Nat → Action, ((sharedAll 100 (fun _ _ => true) {}
      (fillThree ++ [scan 1, .fill 1 [threeBytesTmp], .visit 1, .commit 0])).any fun s =>
        (s.clients 0).lost && decide (s.dir.read "K" = none)) = true → FailsWrite scan := by
    intro scan h
    obtain ⟨s, hs, hlost⟩ := (Option.any_eq_true _ _).mp h
    obtain ⟨hlost, hread⟩ := Bool.and_eq_true_iff.mp hlost
    have hrun := sharedRun_of_all (fun _ _ _ => trivial) (.nil {}) hs
    exact ⟨s, hrun, hlost, of_decide_eq_true hread⟩
  exact ⟨hfails _ (by decide +kernel), hfails _ (by decide +kernel)⟩

end Directory

end RustyPick
