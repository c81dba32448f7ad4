import RustyPick.SharedDirectory

/-!
# RustyPick.DirectoryListing

What a directory file lists (`keys` and `size` in `db/directory.rs`, `directory_records` in
`db/engine/directory.rs`), with everything that may be in the host directory behind it: files of
any names, other programs' directories and links, the debris of writes.

* `directoryRecords_iff`: the listing is that of the plain files with valid keys, exactly where no
  plain file has a name that is UTF-8, does not begin with a dot and is no valid key.
-/

namespace RustyPick

open Lib

namespace Directory

/-! ## The host directory -/

/-- What the host says a path leads to. Neither file nor directory is opened without a failure. -/
inductive Kind where
  | file (content : Bytes)
  | directory
  | special (failure : IoError)
  deriving DecidableEq, Repr

inductive Entry where
  | plain (kind : Kind)
  /-- It leads out of the directory, or nowhere. -/
  | link (target : Option Kind)
  deriving DecidableEq, Repr

/-- `fs::metadata`, which follows links. -/
def Entry.metadata : Entry → Option Kind
  | plain kind => some kind
  | link target => target

/-- A directory, in the order in which the host gives its entries. -/
structure HostDirectory where
  entries : List (Bytes × Entry)
  distinct : (entries.map Prod.fst).Nodup
  named : ∀ e ∈ entries, e.1 ≠ [] ∧ 0x2F ∉ e.1

namespace HostDirectory

def entryNamed (dir : HostDirectory) (name : Bytes) : Option Entry :=
  (dir.entries.find? fun e => e.1 = name).map Prod.snd

def metadata (dir : HostDirectory) (name : Bytes) : Option Kind :=
  (dir.entryNamed name).bind Entry.metadata

def without (dir : HostDirectory) (name : Bytes) : HostDirectory where
  entries := dir.entries.filter fun e => e.1 ≠ name
  distinct := dir.distinct.sublist (List.filter_sublist.map Prod.fst)
  named e he := dir.named e (List.mem_of_mem_filter he)

def isADirectory : IoError := .other "Is a directory (os error 21)"

/-- `fs::remove_file`. `false` where there is nothing of the name. -/
def removeFile (dir : HostDirectory) (name : Bytes) : Except IoError Bool × HostDirectory :=
  match dir.entryNamed name with
  | none => (.ok false, dir)
  | some (.plain .directory) => (.error isADirectory, dir)
  | some _ => (.ok true, dir.without name)

variable {dir : HostDirectory} {name : Bytes}

theorem entryNamed_eq_some {e : Entry} : dir.entryNamed name = some e ↔ (name, e) ∈ dir.entries := by
  rw [entryNamed, Option.map_eq_some_iff]
  constructor
  · rintro ⟨⟨name', e'⟩, hfind, rfl⟩
    have hname : name' = name := by simpa using List.find?_some hfind
    exact hname ▸ List.mem_of_find?_eq_some hfind
  · intro hmem
    cases hfind : dir.entries.find? fun e => e.1 = name with
    | none => exact absurd (decide_eq_true rfl) (List.find?_eq_none.mp hfind (name, e) hmem)
    | some e' =>
      have hname : e'.1 = name := by simpa using List.find?_some hfind
      have heq := List.inj_on_of_nodup_map dir.distinct (List.mem_of_find?_eq_some hfind) hmem hname
      exact ⟨e', rfl, by rw [heq]⟩

theorem entryNamed_without {other : Bytes} (h : name ≠ other) :
    (dir.without name).entryNamed other = dir.entryNamed other := by
  ext e
  simp only [entryNamed_eq_some, without, List.mem_filter, decide_not, Bool.not_eq_true',
    decide_eq_false_iff_not, Ne.symm h, not_false_eq_true, and_true]

theorem entryNamed_removeFile {other : Bytes} (h : name ≠ other) :
    (dir.removeFile name).2.entryNamed other = dir.entryNamed other := by
  unfold removeFile
  split
  · rfl
  · rfl
  · exact entryNamed_without h

end HostDirectory

/-! ## The operations on one record -/

def notARecord (key why : String) : DbError := .invalidRequest ("'" ++ key ++ "' " ++ why)

/-- `record_path`: the name of the record's file. -/
def recordPath (key : String) : Except DbError Bytes :=
  match validateKey key with
  | .error e => .error e
  | .ok () => .ok (utf8 key)

/-- `read`. -/
def read (dir : HostDirectory) (key : String) (maxBytes : Nat) : Except DbError (Option Bytes) := do
  let path ← recordPath key
  match dir.metadata path with
  | some .directory => .error (notARecord key "is a directory, not a record")
  | none => .ok none
  | some (.special failure) => .error (.io failure)
  | some (.file content) =>
    if maxBytes < content.length then .error (oversize key content.length maxBytes "read")
    else .ok (some content)

/-- `size`. -/
def size (dir : HostDirectory) (key : String) : Except DbError (Option Nat) := do
  let path ← recordPath key
  match dir.metadata path with
  | some (.file content) => .ok (some content.length)
  | some _ => .ok none
  | none => .ok none

/-- `open`: what can be read from the handle. -/
def openRecord (dir : HostDirectory) (key : String) (maxBytes : Nat) :
    Except DbError (Option (Bytes × Nat)) := do
  let path ← recordPath key
  match dir.metadata path with
  | none => .ok none
  | some .directory => .error (notARecord key "is a directory, not a record")
  | some (.special failure) => .error (.io failure)
  | some (.file content) =>
    if maxBytes < content.length then .error (oversize key content.length maxBytes "read")
    else .ok (some (content, content.length))

/-- `remove`. -/
def remove (dir : HostDirectory) (key : String) : Except DbError Bool × HostDirectory :=
  match recordPath key with
  | .error e => (.error e, dir)
  | .ok path =>
    match dir.removeFile path with
    | (.ok removed, dir) => (.ok removed, dir)
    | (.error e, dir) => (.error (.io e), dir)

/-! ## Listing -/

/-- `sweep_one`. -/
def sweepOne (dir : HostDirectory) (name : Bytes) : HostDirectory := (dir.removeFile name).2

/-- `Path::is_file`. -/
def isFile (e : Entry) : Bool :=
  match e.metadata with
  | some (.file _) => true
  | _ => false

/-- The loop of `keys`. -/
def scan (dir : HostDirectory) : List (Bytes × Entry) → List String × HostDirectory
  | [] => ([], dir)
  | e :: entries =>
    match fromUtf8? e.1 with
    | none => scan dir entries
    | some name =>
      if isTmp name then scan (sweepOne dir e.1) entries
      else if isHidden name ∨ ¬isFile e.2 then scan dir entries
      else
        let (keys, dir) := scan dir entries
        (name :: keys, dir)

/-- `keys`. -/
def keys (dir : HostDirectory) : List String × HostDirectory :=
  let (keys, dir) := scan dir dir.entries
  (keys.mergeSort fun a b => decide (a ≤ b), dir)

structure DirectoryRecord where
  key : String
  bytes : Nat
  deriving DecidableEq, Repr

/-- The loop of `directory_records`. -/
def sizes (dir : HostDirectory) : List String → Except DbError (List DirectoryRecord)
  | [] => .ok []
  | key :: keys => do
    let bytes ← size dir key
    let records ← sizes dir keys
    .ok ({ key := key, bytes := bytes.getD 0 } :: records)

end Directory

open Directory

/-- `directory_records`, with the host directories as the listing leaves them. -/
def Directories.directoryRecords (db : Directories) (host : String → HostDirectory)
    (account name : String) : Except DbError (List DirectoryRecord) × (String → HostDirectory) :=
  match db.directoryRoot account name with
  | .error e => (.error e, host)
  | .ok root =>
    let (keys, dir) := keys (host root)
    (sizes dir keys, Function.update host root dir)

namespace Directory

/-! ## Which keys are valid -/

/-- What `validate_key` asks of the name of a host file that does not begin with a dot. -/
structure NameIsKey (name : String) : Prop where
  short : name.utf8ByteSize ≤ MAX_KEY_BYTES
  noBackslash : '\\' ∉ name.toList
  noControl : ∀ c ∈ name.toList, isControl c = false

theorem validateKey_ok_iff {key : String} : validateKey key = .ok () ↔
    key ≠ "" ∧ '/' ∉ key.toList ∧ isHidden key = false ∧ NameIsKey key := by
  unfold validateKey
  constructor
  · intro h
    split at h
    · cases h
    rename_i hne
    split at h
    · cases h
    rename_i hlen
    split at h
    · cases h
    rename_i hsep
    split at h
    · cases h
    rename_i hdot
    split at h
    · cases h
    rename_i hcontrol
    push Not at hsep
    refine ⟨hne, hsep.1, decide_eq_false hdot, not_lt.mp hlen, hsep.2, fun c hc => ?_⟩
    simpa using List.find?_eq_none.mp hcontrol c hc
  · rintro ⟨hne, hslash, hdot, hlen, hback, hcontrol⟩
    have hfind : key.toList.find? isControl = none :=
      List.find?_eq_none.mpr fun c hc => by rw [hcontrol c hc]; decide
    rw [if_neg hne, if_neg (not_lt.mpr hlen), if_neg (by tauto), if_neg (of_decide_eq_false hdot),
      hfind]

/-! ## What the loops do -/

/-- The key an entry is listed under, if it is. -/
def keyOf (e : Bytes × Entry) : Option String :=
  (fromUtf8? e.1).filter fun name => isHidden name = false ∧ isFile e.2

variable {dir : HostDirectory} {entries : List (Bytes × Entry)}

theorem keyOf_eq_some {e : Bytes × Entry} {key : String} :
    keyOf e = some key ↔ e.1 = utf8 key ∧ isHidden key = false ∧ isFile e.2 := by
  rw [keyOf, Option.filter_eq_some_iff, decide_eq_true_eq]
  refine and_congr_left' ⟨fun h => (utf8_of_fromUtf8? h).symm, fun h => ?_⟩
  rw [h, fromUtf8?_utf8]

theorem keyOf_of_name {e : Bytes × Entry} {name : String} (h : fromUtf8? e.1 = some name) :
    keyOf e = if isHidden name = false ∧ isFile e.2 then some name else none := by
  rw [keyOf, h, Option.filter_some]
  simp only [decide_eq_true_eq]

theorem scan_fst (dir : HostDirectory) (entries : List (Bytes × Entry)) :
    (scan dir entries).1 = entries.filterMap keyOf := by
  induction entries generalizing dir with
  | nil => rfl
  | cons e entries ih =>
    rw [scan, List.filterMap_cons]
    cases hname : fromUtf8? e.1 with
    | none => rw [keyOf, hname]; exact ih dir
    | some name =>
      rw [keyOf_of_name hname]
      dsimp only
      split
      · rename_i htmp
        rw [if_neg fun hkeep => Bool.false_ne_true (hkeep.1.symm.trans (isHidden_of_isTmp htmp))]
        exact ih _
      · split
        · rename_i hskip
          rw [if_neg (by rcases hskip with h | h <;> simp [h])]
          exact ih dir
        · rename_i hkeep
          simp only [not_or, Bool.not_eq_true, Bool.not_eq_false] at hkeep
          rw [if_pos hkeep, ← ih dir]

theorem keys_fst (dir : HostDirectory) :
    (keys dir).1 = (dir.entries.filterMap keyOf).mergeSort fun a b => decide (a ≤ b) := by
  rw [← scan_fst dir]
  rfl

/-- Only debris is swept. -/
theorem entryNamed_scan {key : String} (h : isHidden key = false) (dir : HostDirectory)
    (entries : List (Bytes × Entry)) :
    (scan dir entries).2.entryNamed (utf8 key) = dir.entryNamed (utf8 key) := by
  induction entries generalizing dir with
  | nil => rfl
  | cons e entries ih =>
    rw [scan]
    cases hname : fromUtf8? e.1 with
    | none => exact ih dir
    | some name =>
      dsimp only
      split
      · rename_i htmp
        have hne : e.1 ≠ utf8 key := by
          intro heq
          rw [heq, fromUtf8?_utf8, Option.some.injEq] at hname
          exact Bool.false_ne_true (h.symm.trans (hname ▸ isHidden_of_isTmp htmp))
        rw [ih, sweepOne, HostDirectory.entryNamed_removeFile hne]
      · split
        · exact ih dir
        · exact ih dir

/-- The content of the plain file of the name, if there is one. -/
def HostDirectory.plainFile (dir : HostDirectory) (name : String) : Option Bytes :=
  match dir.metadata (utf8 name) with
  | some (.file content) => some content
  | _ => none

theorem plainFile_isSome_iff {key : String} :
    (dir.plainFile key).isSome ↔ ∃ e, (utf8 key, e) ∈ dir.entries ∧ isFile e := by
  simp only [HostDirectory.plainFile, HostDirectory.metadata, ← HostDirectory.entryNamed_eq_some]
  cases dir.entryNamed (utf8 key) with
  | none => simp
  | some e =>
    simp only [Option.bind_some, isFile, Option.some.injEq, exists_eq_left']
    split <;> simp

theorem mem_keys {key : String} :
    key ∈ (keys dir).1 ↔ isHidden key = false ∧ (dir.plainFile key).isSome := by
  rw [keys_fst, plainFile_isSome_iff]
  simp only [List.mem_mergeSort, List.mem_filterMap, keyOf_eq_some]
  constructor
  · rintro ⟨⟨_, e⟩, he, rfl, hdot, hfile⟩
    exact ⟨hdot, e, he, hfile⟩
  · rintro ⟨hdot, e, he, hfile⟩
    exact ⟨(utf8 key, e), he, rfl, hdot, hfile⟩

theorem nodup_filterMap_keyOf (h : (entries.map Prod.fst).Nodup) :
    (entries.filterMap keyOf).Nodup := by
  have hnames : (entries.filterMap keyOf).map utf8 =
      (entries.filter fun e => (keyOf e).isSome).map Prod.fst := by
    induction entries with
    | nil => rfl
    | cons e entries ih =>
      have ih := ih (List.nodup_cons.mp h).2
      cases hkey : keyOf e with
      | none => rw [List.filterMap_cons_none hkey, List.filter_cons_of_neg (by simp [hkey]), ih]
      | some key =>
        rw [List.filterMap_cons_some hkey, List.filter_cons_of_pos (by simp [hkey]), List.map_cons,
          List.map_cons, ih, (keyOf_eq_some.mp hkey).1]
  apply List.Nodup.of_map utf8
  rw [hnames]
  exact List.Nodup.sublist (List.filter_sublist.map Prod.fst) h

theorem keys_sorted (dir : HostDirectory) : (keys dir).1.Pairwise (· < ·) := by
  have hnodup : (keys dir).1.Nodup := by
    rw [keys_fst]
    exact (List.mergeSort_perm _ _).nodup_iff.mpr (nodup_filterMap_keyOf dir.distinct)
  have hsorted : (keys dir).1.Pairwise (· ≤ ·) := by
    have hle : ((dir.entries.filterMap keyOf).mergeSort fun a b => decide (a ≤ b)).Pairwise
        fun a b => decide (a ≤ b) = true :=
      List.pairwise_mergeSort
        (fun a b c hab hbc => decide_eq_true ((of_decide_eq_true hab).trans (of_decide_eq_true hbc)))
        (fun a b => by simpa using le_total a b) _
    rw [keys_fst]
    exact hle.imp of_decide_eq_true
  exact (hsorted.and hnodup).imp fun h => lt_of_le_of_ne h.1 h.2

theorem plainFile_keys {key : String} (h : isHidden key = false) (dir : HostDirectory) :
    (keys dir).2.plainFile key = dir.plainFile key := by
  have hentry : (keys dir).2.entryNamed (utf8 key) = dir.entryNamed (utf8 key) :=
    entryNamed_scan h dir _
  rw [HostDirectory.plainFile, HostDirectory.plainFile, HostDirectory.metadata,
    HostDirectory.metadata, hentry]

theorem size_of_valid {key : String} (h : validateKey key = .ok ()) :
    size dir key = .ok ((dir.plainFile key).map List.length) := by
  have hpath : recordPath key = .ok (utf8 key) := by rw [recordPath, h]
  rw [size, hpath, HostDirectory.plainFile]
  change (match dir.metadata (utf8 key) with
    | some (.file content) => Except.ok (some content.length)
    | some _ => .ok none
    | none => .ok none) = _
  cases dir.metadata (utf8 key) with
  | none => rfl
  | some kind => cases kind <;> rfl

theorem size_of_invalid {key : String} {e : DbError} (h : validateKey key = .error e) :
    size dir key = .error e := by
  rw [size, recordPath, h]
  rfl

theorem sizes_ok_iff {ks : List String} {records : List DirectoryRecord} :
    sizes dir ks = .ok records ↔
      (∀ key ∈ ks, validateKey key = .ok ()) ∧
        records = ks.map fun key => ⟨key, ((dir.plainFile key).map List.length).getD 0⟩ := by
  induction ks generalizing records with
  | nil => simp [sizes, eq_comm]
  | cons key ks ih =>
    rw [sizes]
    cases hvalid : validateKey key with
    | error e =>
      rw [size_of_invalid hvalid]
      simp [hvalid, bind, Except.bind]
    | ok u =>
      rw [size_of_valid hvalid]
      cases hrest : sizes dir ks with
      | error e =>
        have hno : ¬∀ k ∈ ks, validateKey k = .ok () := fun hall => by
          have := ih.mpr ⟨hall, rfl⟩
          rw [hrest] at this
          cases this
        simp [bind, Except.bind, hvalid, hno]
      | ok rest =>
        obtain ⟨hall, rfl⟩ := ih.mp hrest
        have hall' : ∀ k ∈ key :: ks, validateKey k = .ok () :=
          List.forall_mem_cons.mpr ⟨hvalid, hall⟩
        refine ⟨fun h => ⟨hall', ?_⟩, fun h => ?_⟩
        · exact (Except.ok.inj h).symm
        · rw [h.2]
          rfl

/-! ## The listing -/

/-- What a listing is to be. -/
structure Lists (dir : HostDirectory) (records : List DirectoryRecord) : Prop where
  sorted : (records.map DirectoryRecord.key).Pairwise (· < ·)
  exactly : ∀ key bytes, ⟨key, bytes⟩ ∈ records ↔ validateKey key = .ok () ∧
    ∃ content, dir.plainFile key = some content ∧ content.length = bytes
  accepted : ∀ r ∈ records, recordPath r.key = .ok (utf8 r.key)

theorem slash_mem_utf8 {s : String} (h : '/' ∈ s.toList) : 0x2F ∈ utf8 s := by
  rw [utf8_eq_flatMap, List.mem_flatMap]
  exact ⟨'/', h, by decide⟩

/-- The name of a host file is short of a valid key by `NameIsKey` and the dot alone. -/
theorem validateKey_plainFile {name : String} (hfile : (dir.plainFile name).isSome) :
    validateKey name = .ok () ↔ isHidden name = false ∧ NameIsKey name := by
  obtain ⟨e, he, -⟩ := plainFile_isSome_iff.mp hfile
  obtain ⟨hne, hslash⟩ := dir.named _ he
  have hne' : name ≠ "" := fun h => hne (by rw [h]; rfl)
  have hslash' : '/' ∉ name.toList := fun h => hslash (slash_mem_utf8 h)
  rw [validateKey_ok_iff]
  simp only [hne', hslash', ne_eq, not_false_eq_true, true_and]

theorem lists_keys (hvalid : ∀ key ∈ (keys dir).1, validateKey key = .ok ()) :
    Lists dir ((keys dir).1.map fun key =>
      ⟨key, (((keys dir).2.plainFile key).map List.length).getD 0⟩) := by
  refine ⟨?_, fun key bytes => ?_, fun r hr => ?_⟩
  · rw [List.map_map]
    exact (List.map_id _).symm ▸ keys_sorted dir
  · rw [List.mem_map]
    constructor
    · rintro ⟨k, hk, heq⟩
      obtain ⟨rfl, rfl⟩ := DirectoryRecord.mk.inj heq
      obtain ⟨hdot, hfile⟩ := mem_keys.mp hk
      obtain ⟨content, hcontent⟩ := Option.isSome_iff_exists.mp hfile
      refine ⟨hvalid k hk, content, hcontent, ?_⟩
      rw [plainFile_keys hdot, hcontent]
      rfl
    · rintro ⟨hkey, content, hcontent, rfl⟩
      have hdot := (validateKey_ok_iff.mp hkey).2.2.1
      refine ⟨key, mem_keys.mpr ⟨hdot, by rw [hcontent]; rfl⟩, ?_⟩
      rw [plainFile_keys hdot, hcontent]
      rfl
  · obtain ⟨key, hk, rfl⟩ := List.mem_map.mp hr
    rw [recordPath, hvalid key hk]

/-- What a listed record answers to the operations on it. -/
theorem operations_of_valid {key : String} {content : Bytes} (hkey : validateKey key = .ok ())
    (hfile : dir.plainFile key = some content) {maxBytes : Nat} (hmax : content.length ≤ maxBytes) :
    size dir key = .ok (some content.length) ∧ read dir key maxBytes = .ok (some content) ∧
      openRecord dir key maxBytes = .ok (some (content, content.length)) ∧
      (remove dir key).1 = .ok true := by
  have hpath : recordPath key = .ok (utf8 key) := by rw [recordPath, hkey]
  have hmeta : dir.metadata (utf8 key) = some (.file content) := by
    rw [HostDirectory.plainFile] at hfile
    split at hfile
    · rename_i hm
      rw [hm, Option.some.inj hfile]
    · cases hfile
  have hsize : ¬maxBytes < content.length := not_lt.mpr hmax
  refine ⟨by rw [size_of_valid hkey, hfile]; rfl, ?_, ?_, ?_⟩
  · rw [read, hpath]
    simp only [bind, Except.bind, hmeta, if_neg hsize]
  · rw [openRecord, hpath]
    simp only [bind, Except.bind, hmeta, if_neg hsize]
  · rw [remove, hpath]
    dsimp only
    rw [HostDirectory.removeFile]
    rw [HostDirectory.metadata] at hmeta
    cases hentry : dir.entryNamed (utf8 key) with
    | none => rw [hentry] at hmeta; cases hmeta
    | some e =>
      cases e with
      | link target => rfl
      | plain kind =>
        rw [hentry] at hmeta
        obtain rfl := Option.some.inj hmeta
        rfl

end Directory

namespace Directories

/-- A directory file is listed, exactly where each plain file of its directory whose name is UTF-8
and does not begin with a dot has at most 255 bytes, no backslash and no control character in its
name. -/
theorem directoryRecords_iff (db : Directories) (host : String → HostDirectory)
    {account name root : String} (h : db.directoryRoot account name = .ok root) :
    (∃ records, (db.directoryRecords host account name).1 = .ok records ∧
      Lists (host root) records) ↔
    ∀ file content, (host root).plainFile file = some content → isHidden file = false →
      NameIsKey file := by
  have hrecords : (db.directoryRecords host account name).1 =
      sizes (keys (host root)).2 (keys (host root)).1 := by
    rw [directoryRecords, h]
  rw [hrecords]
  constructor
  · rintro ⟨records, hok, -⟩ file content hfile hdot
    have hsome : ((host root).plainFile file).isSome := by rw [hfile]; rfl
    have hvalid := (sizes_ok_iff.mp hok).1 file (mem_keys.mpr ⟨hdot, hsome⟩)
    exact ((validateKey_plainFile hsome).mp hvalid).2
  · intro hnames
    have hvalid : ∀ key ∈ (keys (host root)).1, validateKey key = .ok () := by
      intro key hkey
      obtain ⟨hdot, hsome⟩ := mem_keys.mp hkey
      obtain ⟨content, hcontent⟩ := Option.isSome_iff_exists.mp hsome
      exact (validateKey_plainFile hsome).mpr ⟨hdot, hnames key content hcontent hdot⟩
    exact ⟨_, sizes_ok_iff.mpr ⟨hvalid, rfl⟩, lists_keys hvalid⟩

section

/-- A directory file that points at `/srv/scans`. -/
def scans : Directories where
  attributes _ _ := { directory := some { path := "/srv/scans" } }
  storage account := "db_storage/" ++ account
  host _ := ∅
  maxRecordBytes := 64 * 1024 * 1024

/-- One record, a sub-directory and what an interrupted write left. -/
def scanned : HostDirectory where
  entries := [(utf8 "thumbnails", .plain .directory), (utf8 ".tmp.1.0", .plain (.file [0])),
    (utf8 "invoice.pdf", .plain (.file [37, 80, 68, 70]))]
  distinct := by decide
  named := by decide

theorem scanned_listed : ∃ records,
    (scans.directoryRecords (fun _ => scanned) "MAIN" "SCANS").1 = .ok records ∧
      Lists scanned records := by
  have hroot : scans.directoryRoot "MAIN" "SCANS" = .ok "/srv/scans" := by decide
  refine (directoryRecords_iff scans (fun _ => scanned) hroot).mpr ?_
  intro file content hfile hdot
  obtain ⟨e, he, hplain⟩ := plainFile_isSome_iff.mp (Option.isSome_of_eq_some hfile)
  simp only [scanned, List.mem_cons, Prod.mk.injEq, List.not_mem_nil, or_false] at he
  rcases he with ⟨-, rfl⟩ | ⟨hname, -⟩ | ⟨hname, -⟩
  · cases hplain
  · rw [utf8_injective hname] at hdot
    exact absurd hdot (by decide)
  · rw [utf8_injective hname]
    exact ⟨by decide, by decide, fun c hc =>
      of_decide_eq_true (List.all_eq_true.mp (by decide +kernel :
        "invoice.pdf".toList.all (fun c => decide (isControl c = false)) = true) c hc)⟩

/-- A file another program has put there. -/
def drawn : HostDirectory where
  entries := [(utf8 "a\\b", .plain (.file []))]
  distinct := by decide
  named := by decide

theorem backslash_unlisted : drawn.plainFile "a\\b" = some [] ∧
    ¬∃ records, (scans.directoryRecords (fun _ => drawn) "MAIN" "SCANS").1 = .ok records := by
  refine ⟨by decide, ?_⟩
  rintro ⟨records, hok⟩
  have hroot : scans.directoryRoot "MAIN" "SCANS" = .ok "/srv/scans" := by decide
  rw [directoryRecords, hroot] at hok
  have hmem : "a\\b" ∈ (keys drawn).1 := mem_keys.mpr ⟨by decide, by decide⟩
  exact absurd ((sizes_ok_iff.mp hok).1 _ hmem) (by decide)

end

end Directories

end RustyPick
