import RustyPick.TransferFrame

/-!
# RustyPick.TransferStore

A streamed record is stored whole or not at all, where the disk does not fail at its very end.

Whether to commit is decided from the number of bytes that came off the socket. A write that failed
is told when the next chunk is written, or by the flush. Told before the last chunk, it leaves that
number short, and nothing is stored. Told at the last chunk or by the flush it does not: what
reached the staging file is then renamed over the key, and the answer is OK.

* `put_bytes_whole_iff`: the record is stored whole or left as it was, if and only if the staging
  file is not cut short in that way.
-/

namespace RustyPick

open Lib

namespace Transfer

variable {J : Type}

/-- The record after a `PUT.BYTES`: the announced bytes the client sent where the answer is OK, and
what it was before where it is not. -/
structure StoredWhole (req : Request) (account file key : String) (db : Directories)
    (socket : Socket) (after : Transferred J Directories) : Prop where
  stored : after.response.status = .ok → ∃ length, req.length = some length ∧
    length ≤ socket.reader.content.length ∧
    after.db.record account file key = some (socket.reader.content.take length)
  kept : after.response.status ≠ .ok →
    after.db.record account file key = db.record account file key

/-- The request is accepted and all of its body comes; the file it is staged in loses some of it at
the end; and the commit goes through. -/
def TailLost (req : Request) (db : Directories) (client : ClientInfo) (mishaps : Mishaps)
    (meanwhile : Directories → Directories) (reader : Feed UInt8 Stop) : Prop :=
  ∃ staged root, blocking mishaps.stagePool (stageBytes (J := J) req db client mishaps.made) =
      .ok staged ∧
    staged.length ≤ reader.content.length ∧
    mishaps.disk.Drops (reader.reads CHUNK staged.length).length
      (reader.content.take staged.length) ∧
    mishaps.commitPool = none ∧ mishaps.rename = none ∧
    (meanwhile db).directoryRoot staged.account staged.file = .ok root

/-- A commit answers OK with the staged bytes under the key, or refuses and changes nothing. -/
theorem commitBytes_spec (staged : StagedWrite) (arrived : Nat) (db : Directories)
    (left : Option Bytes) (failure : Option IoError) :
    ((commitBytes (J := J) staged arrived db left failure).1.status = .ok ∧
      arrived = staged.length ∧ failure = none ∧
      (∃ root, db.directoryRoot staged.account staged.file = .ok root) ∧
      ∃ bytes, left = some bytes ∧
        (commitBytes (J := J) staged arrived db left failure).2.record staged.account staged.file
          staged.key = some bytes) ∨
    ((commitBytes (J := J) staged arrived db left failure).1.status = .error ∧
      (commitBytes (J := J) staged arrived db left failure).2 = db) := by
  obtain ⟨hok, herror⟩ := db.commitDirectoryRecord_spec staged.account staged.file staged.key left
    failure arrived staged.length
  unfold commitBytes
  cases hcommit : db.commitDirectoryRecord staged.account staged.file staged.key left failure
      arrived staged.length with
  | mk result db' =>
    rw [hcommit] at hok herror
    cases result with
    | ok u =>
      obtain ⟨harrived, hfailure, hsome, hrecord⟩ := hok rfl
      obtain ⟨bytes, rfl⟩ := Option.isSome_iff_exists.mp hsome
      refine Or.inl ⟨rfl, harrived, hfailure, ?_, bytes, rfl, hrecord⟩
      cases hroot : db.directoryRoot staged.account staged.file with
      | error e =>
        rw [Directories.commitDirectoryRecord, hroot] at hcommit
        cases hcommit
      | ok root => exact ⟨root, rfl⟩
    | error e => exact Or.inr ⟨rfl, herror nofun⟩

theorem commitBytes_ok {staged : StagedWrite} {db : Directories} {root : String} {bytes : Bytes}
    (hroot : db.directoryRoot staged.account staged.file = .ok root)
    (hkey : Directory.validateKey staged.key = .ok ()) :
    (commitBytes (J := J) staged staged.length db (some bytes) none).1.status = .ok := by
  have hcommit : (db.commitDirectoryRecord staged.account staged.file staged.key (some bytes) none
      staged.length staged.length).1 = .ok () :=
    Directories.commitDirectoryRecord_ok hroot hkey
  unfold commitBytes
  generalize db.commitDirectoryRecord staged.account staged.file staged.key (some bytes) none
    staged.length staged.length = committed at hcommit
  obtain ⟨result, db'⟩ := committed
  cases result with
  | ok u => rfl
  | error e => cases hcommit

theorem stageBytes_error {req : Request} {db : Directories} {client : ClientInfo}
    {made : Option IoError} (response : Response J)
    (h : stageBytes req db client made = .error response) : response.status = .error := by
  unfold stageBytes at h
  cases haccount : transferAccount (J := J) req client with
  | error e =>
    rw [haccount] at h
    cases h
    exact transferAccount_error haccount
  | ok account =>
    cases hfile : requestedFile (J := J) req with
    | error e =>
      rw [haccount, hfile] at h
      cases h
      exact requestedFile_error hfile
    | ok file =>
      rw [haccount, hfile] at h
      simp only [bind, Except.bind] at h
      repeat' split at h
      all_goals
        cases h
        try rfl

theorem put_bytes_whole_iff (encode : Response J → Option String) {req : Request}
    {db : Directories} {client : ClientInfo} (maxRecordBytes : Nat) (mishaps : Mishaps)
    {meanwhile : Directories → Directories} (socket : Socket) {account file key : String}
    (haccount : transferAccount (J := J) req client = .ok account) (hfile : req.file = some file)
    (hkey : req.key = some key)
    (hmeanwhile : (meanwhile db).record account file key = db.record account file key) :
    StoredWhole req account file key db socket
      (putBytes encode req db client maxRecordBytes mishaps meanwhile socket) ↔
    ¬ TailLost (J := J) req db client mishaps meanwhile socket.reader := by
  unfold putBytes
  cases hstage : blocking mishaps.stagePool (stageBytes (J := J) req db client mishaps.made) with
  | error response =>
    dsimp only
    refine iff_of_true ⟨fun hok => ?_, fun _ => rfl⟩ ?_
    · rw [blocking_error stageBytes_error hstage] at hok
      cases hok
    · rintro ⟨staged, root, hstaged, -⟩
      rw [hstage] at hstaged
      cases hstaged
  | ok staged =>
    obtain ⟨ha, hf, hk, hlength, root', hroot'⟩ := stageBytes_ok (blocking_ok hstage)
    obtain rfl : account = staged.account := Except.ok.inj (haccount.symm.trans ha)
    obtain rfl : file = staged.file := Option.some.inj (hfile.symm.trans hf)
    obtain rfl : key = staged.key := Option.some.inj (hkey.symm.trans hk)
    have hvalid := Directories.stageDirectoryRecord_ok hroot'
    have hunique : ∀ staged', blocking mishaps.stagePool
        (stageBytes (J := J) req db client mishaps.made) = .ok staged' → staged' = staged :=
      fun staged' h => Except.ok.inj (h.symm.trans hstage)
    dsimp only
    generalize hreceive : receiveInto mishaps.disk staged.length socket.reader = r
    obtain ⟨received, left, reader⟩ := r
    dsimp only
    cases hpool : mishaps.commitPool with
    | some e =>
      refine iff_of_true ⟨nofun, fun _ => hmeanwhile⟩ ?_
      rintro ⟨-, -, -, -, -, hnone, -⟩
      rw [hpool] at hnone
      cases hnone
    | none =>
      dsimp only
      rcases receiveInto_spec mishaps.disk staged.length socket.reader with
        ⟨hle, received', left', reader', h, -, hleaves⟩ | ⟨hlt, n, left', reader', hn, h⟩
      · rw [hreceive] at h
        cases h
        have hbody : (socket.reader.content.take staged.length).length = staged.length :=
          List.length_take_of_le hle
        rcases commitBytes_spec (J := J) staged (arrivedOf received) (meanwhile db) left
            mishaps.rename with
          ⟨hok, harrived, hrename, ⟨root, hroot⟩, bytes, rfl, hrecord⟩ | ⟨herror, hdb⟩
        · -- committed: whole exactly where the staged file is the body
          constructor
          · rintro hwhole ⟨staged', root', hs, -, hdrops, -⟩
            obtain rfl := hunique staged' hs
            obtain ⟨-, bytes', hb, hne⟩ := hleaves.dropped hdrops
            cases hb
            obtain ⟨length, hl, -, hstored⟩ := hwhole.stored hok
            obtain rfl := Option.some.inj (hlength.symm.trans hl)
            exact hne (Option.some.inj (hrecord.symm.trans hstored))
          · intro hnot
            refine ⟨fun _ => ⟨staged.length, hlength, hle, ?_⟩, fun h => absurd hok h⟩
            have hkept := hleaves.kept (harrived.trans hbody.symm) (fun hd =>
              hnot ⟨staged, root, hstage, hle, hd, hpool, hrename, hroot⟩) bytes rfl
            exact hrecord.trans (congrArg some hkept)
        · -- refused: nothing is stored, and the tail was not lost
          refine iff_of_true ⟨fun h => ?_, fun _ => ?_⟩ ?_
          · rw [herror] at h
            cases h
          · exact (congrArg (Directories.record · staged.account staged.file staged.key) hdb).trans
              hmeanwhile
          · rintro ⟨staged', root', hs, -, hdrops, -, hrename, hroot⟩
            obtain rfl := hunique staged' hs
            obtain ⟨harrived, bytes, rfl, -⟩ := hleaves.dropped hdrops
            rw [harrived, hbody, hrename, commitBytes_ok hroot hvalid] at herror
            cases herror
      · rw [hreceive] at h
        cases h
        rcases commitBytes_spec (J := J) staged n (meanwhile db) left mishaps.rename with
          ⟨-, harrived, -⟩ | ⟨herror, hdb⟩
        · exact absurd harrived (Nat.ne_of_lt hn)
        · refine iff_of_true ⟨fun h => ?_, fun _ => ?_⟩ ?_
          · rw [show arrivedOf (.error (.socket n)) = n from rfl, herror] at h
            cases h
          · exact (congrArg (Directories.record · staged.account staged.file staged.key) hdb).trans
              hmeanwhile
          · rintro ⟨staged', -, hs, hle, -⟩
            obtain rfl := hunique staged' hs
            omega

/-- The second of the two reads completes the body, and its write fails, which the flush tells. -/
def fullDisk : Mishaps := { disk := { writes := [.stored, .lost 2] } }

/-- Cut short by a byte, and answered OK. -/
theorem short_record_answered_ok :
    (putBytes encodeThree (putThree "SALES") scans scanner 67108864 fullDisk id
      { reader := threeBytes, writer := {} }).response = threeStored ∧
    (putBytes encodeThree (putThree "SALES") scans scanner 67108864 fullDisk id
      { reader := threeBytes, writer := {} }).db.record "SALES" "SCANS" "a.pdf" = some [10, 65] ∧
    ¬ StoredWhole (putThree "SALES") "SALES" "SCANS" "a.pdf" scans
      { reader := threeBytes, writer := {} }
      (putBytes encodeThree (putThree "SALES") scans scanner 67108864 fullDisk id
        { reader := threeBytes, writer := {} }) := by
  have hok : (putBytes encodeThree (putThree "SALES") scans scanner 67108864 fullDisk id
      { reader := threeBytes, writer := {} }).response = threeStored := by decide +kernel
  have hrecord : (putBytes encodeThree (putThree "SALES") scans scanner 67108864 fullDisk id
      { reader := threeBytes, writer := {} }).db.record "SALES" "SCANS" "a.pdf" =
        some [10, 65] := by decide +kernel
  refine ⟨hok, hrecord, fun h => ?_⟩
  obtain ⟨length, hlength, -, hstored⟩ := h.stored (by rw [hok]; rfl)
  cases hlength
  rw [hrecord] at hstored
  revert hstored
  decide

/-- The body in three reads. -/
def threeReads : Feed UInt8 Stop := { pieces := [[10], [65], [10, 123, 34]] }

/-- The first write fails, which the second tells, before the body is complete: nothing is stored. -/
theorem full_disk_stores_nothing :
    transferAccount (J := Unit) (putThree "SALES") scanner = .ok "SALES" ∧
    StoredWhole (putThree "SALES") "SALES" "SCANS" "a.pdf" scans
      { reader := threeReads, writer := {} }
      (putBytes encodeThree (putThree "SALES") scans scanner 67108864
        { disk := { writes := [.lost 0] } } id { reader := threeReads, writer := {} }) := by
  have haccount : transferAccount (J := Unit) (putThree "SALES") scanner = .ok "SALES" := by
    decide +kernel
  refine ⟨haccount, (put_bytes_whole_iff encodeThree 67108864 _ _ haccount rfl rfl rfl).mpr ?_⟩
  rintro ⟨staged, root, hstaged, -, hdrops, -⟩
  obtain rfl : staged = { account := "SALES", file := "SCANS", key := "a.pdf", length := 3 } :=
    Except.ok.inj (hstaged.symm.trans (by decide +kernel))
  have hreads : (threeReads.reads CHUNK 3).length = 3 := by decide +kernel
  rw [Disk.Drops] at hdrops
  dsimp only at hdrops
  rw [hreads, firstFault_lost] at hdrops
  dsimp only at hdrops
  omega

/-- The same in two reads: told at the chunk that completes the body, and the record is empty. -/
example :
    ((putBytes encodeThree (putThree "SALES") scans scanner 67108864
      { disk := { writes := [.lost 0] } } id { reader := threeBytes, writer := {} }).db.record
        "SALES" "SCANS" "a.pdf") = some [] := by decide +kernel

end Transfer

end RustyPick
