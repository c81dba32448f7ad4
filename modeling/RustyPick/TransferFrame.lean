import RustyPick.Transfer

/-!
# RustyPick.TransferFrame

After a transfer the connection is at a request boundary, or it is closed.

An upload that is refused before its body writes its answer without looking whether the write
succeeded, and goes on where the body could be drained. Every other path that loses an answer closes
the connection.

* `receiveInto_spec`: the body is off the socket, and how the receive ended follows from the first
  write to the file that failed; or the socket gave out.
* `transfer_framing`: a connection is left open only at a request boundary, with one response line
  written, if and only if no answer to a refused upload is lost in that way.
-/

namespace RustyPick

open Lib

namespace Transfer

variable {J : Type}

/-! ## What comes off the socket -/

theorem drain_spec (reader : Feed UInt8 Stop) (length : Nat) :
    (length ≤ reader.content.length ∧ ∃ reader', drain reader length = (.ok (), reader') ∧
      reader'.content = reader.content.drop length) ∨
    (reader.content.length < length ∧ ∃ n reader', n < length ∧
      drain reader length = (.error n, reader')) := by
  unfold drain
  rcases reader.take_spec (show 0 < CHUNK by decide) length with
    ⟨hle, reader', htake, hcontent, -⟩ | ⟨hlt, reader', htake, -⟩
  · rw [htake]
    exact Or.inl ⟨hle, reader', rfl, hcontent⟩
  · rw [htake]
    exact Or.inr ⟨hlt, _, reader', hlt, rfl⟩

theorem drainOwed_spec (taken owed : Nat) (reader : Feed UInt8 Stop) :
    (owed ≤ reader.content.length ∧ ∃ reader', drainOwed taken owed reader = (.body taken, reader') ∧
      reader'.content = reader.content.drop owed) ∨
    (reader.content.length < owed ∧ ∃ n reader', n < taken + owed ∧
      drainOwed taken owed reader = (.socket n, reader')) := by
  unfold drainOwed
  rcases drain_spec reader owed with ⟨hle, reader', hdrain, hc⟩ | ⟨hlt, n, reader', hn, hdrain⟩
  · rw [hdrain]
    exact .inl ⟨hle, reader', rfl, hc⟩
  · rw [hdrain]
    exact .inr ⟨hlt, _, reader', Nat.add_lt_add_left hn taken, rfl⟩

/-- The first of `n` writes that is not stored, and what becomes of it. -/
def firstFault : List WriteFate → Nat → Option (Nat × WriteFate)
  | _, 0 => none
  | [], _ + 1 => none
  | .stored :: writes, n + 1 => (firstFault writes n).map fun fault => (fault.1 + 1, fault.2)
  | fate :: _, _ + 1 => some (0, fate)

theorem firstFault_lost (kept n : Nat) (writes : List WriteFate) :
    firstFault (.lost kept :: writes) (n + 1) = some (0, .lost kept) := rfl

theorem firstFault_refused (n : Nat) (writes : List WriteFate) :
    firstFault (.refused :: writes) (n + 1) = some (0, .refused) := rfl

/-- All of the body counts as arrived, and part of it is not in the file. -/
def Shortened (total : Nat) (whole : Bytes) (received : Except TransferError Nat)
    (file : StagingFile) : Prop :=
  received = .error (.body total) ∧ file.bytes.length < whole.length

/-- How the receive of a whole body ends, by the first write that fails. A write that is lost is told
one write later, or at the flush. -/
def EndsAs (fault : Option (Nat × WriteFate)) (reads total : Nat) (whole : Bytes)
    (received : Except TransferError Nat) (file : StagingFile) : Prop :=
  match fault with
  | none => received = .ok total ∧ file.bytes = whole ∧ file.lost = false
  | some (i, .lost kept) =>
    if i + 1 = reads then received = .ok total ∧ file.bytes = whole.take kept ∧ file.lost = true
    else if i + 2 = reads then Shortened total whole received file
    else ∃ n, n < total ∧ received = .error (.body n)
  | some (i, _) =>
    if i + 1 = reads then Shortened total whole received file
    else ∃ n, n < total ∧ received = .error (.body n)

theorem EndsAs.shift {fault : Option (Nat × WriteFate)} {reads total : Nat} {whole : Bytes}
    {received : Except TransferError Nat} {file : StagingFile}
    (h : EndsAs fault reads total whole received file) :
    EndsAs (fault.map fun fault => (fault.1 + 1, fault.2)) (reads + 1) total whole received
      file := by
  cases fault with
  | none => exact h
  | some fault =>
    obtain ⟨i, fate⟩ := fault
    have hlast : (i + 1 + 1 = reads + 1) = (i + 1 = reads) := by simp
    have hnext : (i + 1 + 2 = reads + 1) = (i + 2 = reads) := by simp
    cases fate <;> simpa only [EndsAs, Option.map_some, hlast, hnext] using h

/-! ### A chunk taken off the socket -/

section

/-- The next chunk, or nothing where the socket gives out. -/
theorem read_chunk (reader : Feed UInt8 Stop) {owed : Nat} (hask : 0 < owed) :
    (reader.content = [] ∧ ∃ outcome reader', reader.read (min CHUNK owed) = (outcome, reader') ∧
      (outcome = .ok [] ∨ ∃ e, outcome = .error e)) ∨
    ∃ a got reader', reader.read (min CHUNK owed) = (.ok (a :: got), reader') ∧
      (a :: got).length ≤ owed ∧ reader.content = (a :: got) ++ reader'.content ∧
      reader.content.take owed =
        (a :: got) ++ reader'.content.take (owed - (a :: got).length) ∧
      reader.content.drop owed = reader'.content.drop (owed - (a :: got).length) := by
  have hmin : 0 < min CHUNK owed := lt_min (by decide) hask
  rcases reader.read_spec hmin with ⟨hnone, -, -, hend⟩ | ⟨got, reader', hread, hne, hgot, hc, -⟩
  · refine .inl ⟨hnone, _, _, rfl, ?_⟩
    exact hend.imp And.left fun ⟨e, he, _⟩ => ⟨e, he⟩
  · obtain ⟨a, got, rfl⟩ := List.exists_cons_of_ne_nil hne
    have hgot : (a :: got).length ≤ owed := hgot.trans (min_le_right _ _)
    refine .inr ⟨a, got, reader', hread, hgot, hc, ?_, ?_⟩
    · rw [hc, List.take_append, List.take_of_length_le hgot]
    · rw [hc, List.drop_append, List.drop_of_length_le hgot, List.nil_append]

end

/-- Told of a failure at this chunk: all of the body counts as arrived where it is the last. -/
theorem told_spec (taken : Nat) (reader : Feed UInt8 Stop) {fuel owed : Nat} {chunk : Bytes}
    (hchunk : chunk.length ≤ owed) (hfuel : owed - chunk.length ≤ fuel) :
    (owed - chunk.length ≤ reader.content.length ∧ ∃ n reader',
      drainOwed (taken + chunk.length) (owed - chunk.length) reader = (.body n, reader') ∧
      reader'.content = reader.content.drop (owed - chunk.length) ∧
      if (Feed.readsLoop CHUNK fuel (owed - chunk.length) reader).length = 0 then n = taken + owed
      else n < taken + owed) ∨
    (reader.content.length < owed - chunk.length ∧ ∃ n reader', n < taken + owed ∧
      drainOwed (taken + chunk.length) (owed - chunk.length) reader = (.socket n, reader')) := by
  rcases drainOwed_spec (taken + chunk.length) (owed - chunk.length) reader with
    ⟨hle, reader', hdrain, hc⟩ | ⟨hlt, n, reader', hn, hdrain⟩
  · refine .inl ⟨hle, _, reader', hdrain, hc, ?_⟩
    split
    next hlast =>
      have hrest := Feed.readsLoop_eq_nil (show 0 < CHUNK by decide) hfuel hle
        (List.length_eq_zero_iff.mp hlast)
      omega
    next hmore =>
      by_contra hge
      have hzero : owed - chunk.length = 0 := by omega
      rw [hzero] at hmore
      cases fuel <;> simp [Feed.readsLoop] at hmore
  · exact .inr ⟨hlt, n, reader', by omega, hdrain⟩

/-- With a failure still to be told, the next write tells it, and stores nothing. -/
theorem receiveLoop_lost (taken : Nat) (file : StagingFile) (reader : Feed UInt8 Stop)
    {fuel owed : Nat} (hle : owed ≤ fuel) (hlost : file.lost = true) :
    (owed ≤ reader.content.length ∧ ∃ received file' reader',
      receiveLoop fuel taken owed file reader = (received, file', reader') ∧
      reader'.content = reader.content.drop owed ∧ file'.bytes = file.bytes ∧
      match (Feed.readsLoop CHUNK fuel owed reader).length with
      | 0 => received = .ok (taken + owed) ∧ file'.lost = true
      | 1 => received = .error (.body (taken + owed))
      | _ => ∃ n, n < taken + owed ∧ received = .error (.body n)) ∨
    (reader.content.length < owed ∧ ∃ n file' reader', n < taken + owed ∧
      receiveLoop fuel taken owed file reader = (.error (.socket n), file', reader')) := by
  cases owed with
  | zero =>
    refine .inl ⟨Nat.zero_le _, .ok taken, file, reader, ?_, rfl, rfl, ?_⟩
    · cases fuel <;> rfl
    · cases fuel <;> exact ⟨rfl, hlost⟩
  | succ owed =>
    obtain ⟨fuel, rfl⟩ := Nat.exists_eq_succ_of_ne_zero (show fuel ≠ 0 by omega)
    rcases read_chunk reader (show 0 < owed + 1 by omega) with
      ⟨hnone, outcome, reader', hread, hend⟩ | ⟨a, got, reader', hread, hgot, hc, htake, hdrop⟩
    · refine .inr ⟨by simp [hnone], taken, file, reader', by omega, ?_⟩
      rw [receiveLoop, hread]
      rcases hend with rfl | ⟨e, rfl⟩ <;> rfl
    · have hpos : 0 < (a :: got).length := Nat.succ_pos _
      have hlen : reader.content.length = (a :: got).length + reader'.content.length := by
        rw [hc, List.length_append]
      have hreads : Feed.readsLoop CHUNK (fuel + 1) (owed + 1) reader =
          (a :: got) :: Feed.readsLoop CHUNK fuel (owed + 1 - (a :: got).length) reader' := by
        rw [Feed.readsLoop, hread]
      have hwrite : file.writeAll (a :: got) = (false, { file with lost := false }) :=
        if_pos hlost
      rw [receiveLoop, hread, hreads, List.length_cons]
      dsimp only
      rw [hwrite]
      dsimp only
      rcases told_spec taken reader' hgot (show _ ≤ fuel by omega) with
        ⟨hle', n, reader'', hdrain, hc', hn⟩ | ⟨hlt, n, reader'', hn, hdrain⟩
      · rw [hdrain]
        refine .inl ⟨by omega, _, _, reader'', rfl, by rw [hc', hdrop], rfl, ?_⟩
        cases hmore : (Feed.readsLoop CHUNK fuel (owed + 1 - (a :: got).length) reader').length with
        | zero =>
          rw [hmore, if_pos rfl] at hn
          subst hn
          rfl
        | succ m =>
          rw [hmore, if_neg (Nat.succ_ne_zero m)] at hn
          exact ⟨n, hn, rfl⟩
      · rw [hdrain]
        exact .inr ⟨by omega, n, _, reader'', hn, rfl⟩

/-- How the loop ends: the body is off the socket, or the socket gave out. -/
def LoopEnds (fuel taken owed : Nat) (file : StagingFile) (reader : Feed UInt8 Stop) : Prop :=
  (owed ≤ reader.content.length ∧ ∃ received file' reader',
    receiveLoop fuel taken owed file reader = (received, file', reader') ∧
    reader'.content = reader.content.drop owed ∧
    EndsAs (firstFault file.writes (Feed.readsLoop CHUNK fuel owed reader).length)
      (Feed.readsLoop CHUNK fuel owed reader).length (taken + owed)
      (file.bytes ++ reader.content.take owed) received file') ∨
  (reader.content.length < owed ∧ ∃ n file' reader', n < taken + owed ∧
    receiveLoop fuel taken owed file reader = (.error (.socket n), file', reader'))

section

variable {fuel taken owed : Nat} {file : StagingFile} {reader reader' : Feed UInt8 Stop} {a : UInt8}
  {got : Bytes} (hread : reader.read (min CHUNK (owed + 1)) = (.ok (a :: got), reader'))

include hread

theorem readsLoop_next : Feed.readsLoop CHUNK (fuel + 1) (owed + 1) reader =
    (a :: got) :: Feed.readsLoop CHUNK fuel (owed + 1 - (a :: got).length) reader' := by
  rw [Feed.readsLoop, hread]

variable (hgot : (a :: got).length ≤ owed + 1)
  (hc : reader.content = (a :: got) ++ reader'.content)
  (htake : reader.content.take (owed + 1) =
    (a :: got) ++ reader'.content.take (owed + 1 - (a :: got).length))
  (hdrop : reader.content.drop (owed + 1) =
    reader'.content.drop (owed + 1 - (a :: got).length))

include hgot hc htake hdrop

/-- A chunk that is stored, and the rest. -/
theorem LoopEnds.stored (writes : List WriteFate)
    (hwrite : file.writeAll (a :: got) =
      (true, { bytes := file.bytes ++ (a :: got), writes := writes }))
    (hfault : ∀ n, firstFault file.writes (n + 1) =
      (firstFault writes n).map fun fault => (fault.1 + 1, fault.2))
    (h : LoopEnds fuel (taken + (a :: got).length) (owed + 1 - (a :: got).length)
      { bytes := file.bytes ++ (a :: got), writes := writes } reader') :
    LoopEnds (fuel + 1) taken (owed + 1) file reader := by
  have hlen : reader.content.length = (a :: got).length + reader'.content.length := by
    rw [hc, List.length_append]
  have htotal : taken + (a :: got).length + (owed + 1 - (a :: got).length) =
      taken + (owed + 1) := by omega
  unfold LoopEnds at h ⊢
  rw [receiveLoop, readsLoop_next hread, hread, List.length_cons, hfault]
  dsimp only
  rw [hwrite]
  rcases h with ⟨hle, received, file', reader'', hloop, hc', hends⟩ |
    ⟨hlt, n, file', reader'', hn, hloop⟩
  · rw [htotal, List.append_assoc, ← htake] at hends
    exact .inl ⟨by omega, received, file', reader'', hloop, by rw [hc', hdrop], hends.shift⟩
  · exact .inr ⟨by omega, n, file', reader'', by omega, hloop⟩

/-- A chunk that is lost, which is told at the next. -/
theorem LoopEnds.lost {kept : Nat} {writes : List WriteFate} (hle : owed + 1 ≤ fuel + 1)
    (hwrites : file.writes = .lost kept :: writes) (hsound : file.lost = false) :
    LoopEnds (fuel + 1) taken (owed + 1) file reader := by
  have hlen : reader.content.length = (a :: got).length + reader'.content.length := by
    rw [hc, List.length_append]
  have hpos : 0 < (a :: got).length := Nat.succ_pos _
  have htotal : taken + (a :: got).length + (owed + 1 - (a :: got).length) =
      taken + (owed + 1) := by omega
  have hwrite : file.writeAll (a :: got) =
      (true, { bytes := (file.bytes ++ (a :: got)).take kept, lost := true, writes := writes }) := by
    rw [StagingFile.writeAll, hsound, hwrites]
    rfl
  unfold LoopEnds
  rw [receiveLoop, readsLoop_next hread, hread, List.length_cons, hwrites, firstFault_lost]
  dsimp only
  rw [hwrite]
  dsimp only
  rcases receiveLoop_lost (taken + (a :: got).length)
      { bytes := (file.bytes ++ (a :: got)).take kept, lost := true, writes := writes } reader'
      (show owed + 1 - (a :: got).length ≤ fuel by omega) rfl with
    ⟨hle', received, file', reader'', hloop, hc', hbytes, hends⟩ | ⟨hlt, n, file', reader'', hn, hloop⟩
  · refine .inl ⟨by omega, received, file', reader'', hloop, by rw [hc', hdrop], ?_⟩
    have hshort := List.length_take_le' kept (file.bytes ++ (a :: got))
    rw [htotal] at hends
    unfold EndsAs
    dsimp only
    generalize hreads : Feed.readsLoop CHUNK fuel (owed + 1 - (a :: got).length) reader' = chunks
      at hends
    match chunks with
    | [] =>
      have hnone := Feed.readsLoop_eq_nil (show 0 < CHUNK by decide)
        (show owed + 1 - (a :: got).length ≤ fuel by omega) hle' hreads
      rw [if_pos (by simp), htake, hnone, List.take_zero, List.append_nil]
      exact ⟨hends.1, hbytes, hends.2⟩
    | [last] =>
      rw [if_neg (by simp), if_pos (by simp)]
      refine ⟨hends, ?_⟩
      have hrest : 0 < owed + 1 - (a :: got).length := by
        by_contra hzero
        rw [Nat.eq_zero_of_not_pos hzero] at hreads
        cases fuel <;> cases hreads
      have hwhole : (file.bytes ++ reader.content.take (owed + 1)).length =
          (file.bytes ++ (a :: got)).length + (owed + 1 - (a :: got).length) := by
        rw [htake, ← List.append_assoc, List.length_append, List.length_take_of_le hle']
      rw [hbytes, hwhole]
      dsimp only
      omega
    | _ :: _ :: more =>
      rw [if_neg (by simp), if_neg (by simp)]
      exact hends
  · exact .inr ⟨by omega, n, file', reader'', by omega, hloop⟩

/-- A chunk that is not taken, which is told at once. -/
theorem LoopEnds.refused {writes : List WriteFate} (hle : owed + 1 ≤ fuel + 1)
    (hwrites : file.writes = .refused :: writes) (hsound : file.lost = false) :
    LoopEnds (fuel + 1) taken (owed + 1) file reader := by
  have hlen : reader.content.length = (a :: got).length + reader'.content.length := by
    rw [hc, List.length_append]
  have hpos : 0 < (a :: got).length := Nat.succ_pos _
  have hwrite : file.writeAll (a :: got) = (false, { file with writes := writes }) := by
    rw [StagingFile.writeAll, hsound, hwrites]
    rfl
  unfold LoopEnds
  rw [receiveLoop, readsLoop_next hread, hread, List.length_cons, hwrites, firstFault_refused]
  dsimp only
  rw [hwrite]
  dsimp only
  rcases told_spec taken reader' hgot
      (show owed + 1 - (a :: got).length ≤ fuel by omega) with
    ⟨hle', n, reader'', hdrain, hc', hn⟩ | ⟨hlt, n, reader'', hn, hdrain⟩
  · rw [hdrain]
    refine .inl ⟨by omega, _, _, reader'', rfl, by rw [hc', hdrop], ?_⟩
    unfold EndsAs
    dsimp only
    split at hn
    next hlast =>
      rw [if_pos (by omega), hn]
      refine ⟨rfl, ?_⟩
      dsimp only
      rw [htake, List.length_append, List.length_append]
      omega
    next hmore =>
      rw [if_neg (by omega)]
      exact ⟨n, hn, rfl⟩
  · rw [hdrain]
    exact .inr ⟨by omega, n, _, reader'', hn, rfl⟩

end

theorem receiveLoop_spec : ∀ (fuel taken owed : Nat) (file : StagingFile)
    (reader : Feed UInt8 Stop), owed ≤ fuel → file.lost = false →
    LoopEnds fuel taken owed file reader := by
  intro fuel
  induction fuel with
  | zero =>
    intro taken owed file reader hle hsound
    obtain rfl := Nat.le_zero.mp hle
    exact .inl ⟨Nat.zero_le _, _, _, reader, rfl, rfl,
      by simp [EndsAs, firstFault, Feed.readsLoop, hsound]⟩
  | succ fuel ih =>
    intro taken owed file reader hle hsound
    cases owed with
    | zero =>
      exact .inl ⟨Nat.zero_le _, _, _, reader, rfl, rfl,
        by simp [EndsAs, firstFault, Feed.readsLoop, hsound]⟩
    | succ owed =>
      rcases read_chunk reader (show 0 < owed + 1 by omega) with
        ⟨hnone, outcome, reader', hread, hend⟩ | ⟨a, got, reader', hread, hgot, hc, htake, hdrop⟩
      · -- nothing is left on the socket
        refine .inr ⟨by simp [hnone], taken, file, reader', by omega, ?_⟩
        rw [receiveLoop, hread]
        rcases hend with rfl | ⟨e, rfl⟩ <;> rfl
      have hrest : owed + 1 - (a :: got).length ≤ fuel := by
        have hpos : 0 < (a :: got).length := Nat.succ_pos _
        omega
      cases hwrites : file.writes with
      | nil =>
        refine .stored hread hgot hc htake hdrop [] ?_ (fun n => ?_)
          (ih _ _ _ _ hrest rfl)
        · rw [StagingFile.writeAll, hsound, hwrites]
          rfl
        · rw [hwrites]
          cases n <;> rfl
      | cons fate writes =>
        cases fate with
        | stored =>
          refine .stored hread hgot hc htake hdrop writes ?_ (fun n => ?_)
            (ih _ _ _ _ hrest rfl)
          · rw [StagingFile.writeAll, hsound, hwrites]
            rfl
          · rw [hwrites, firstFault]
        | lost kept => exact .lost hread hgot hc htake hdrop hle hwrites hsound
        | refused => exact .refused hread hgot hc htake hdrop hle hwrites hsound

/-- The file that is left is not the body although all of the body counts as arrived: creating it
failed and the body is empty but what is there is not, or the write of the last chunk or of the one
before it failed. -/
def Disk.Drops (disk : Disk) (reads : Nat) (body : Bytes) : Prop :=
  match disk.create with
  | some left => body = [] ∧ ∃ bytes, left = some bytes ∧ bytes ≠ []
  | none =>
    match firstFault disk.writes reads with
    | some (i, .lost kept) => (i + 1 = reads ∧ kept < body.length) ∨ i + 2 = reads
    | some (i, _) => i + 1 = reads
    | none => False

/-- What a receive leaves behind where all of the body came. -/
structure Leaves (disk : Disk) (reads : Nat) (body : Bytes)
    (received : Except TransferError Nat) (left : Option Bytes) : Prop where
  untorn : tornBy received = false
  kept : arrivedOf received = body.length → ¬ disk.Drops reads body →
    ∀ bytes, left = some bytes → bytes = body
  dropped : disk.Drops reads body → arrivedOf received = body.length ∧
    ∃ bytes, left = some bytes ∧ bytes ≠ body

/-- What the flush makes of the last write. -/
def flushed (received : Except TransferError Nat) (file : StagingFile) :
    Except TransferError Nat :=
  match received with
  | .ok taken => if file.lost then .error (.body taken) else .ok taken
  | .error e => .error e

section

variable {disk : Disk} {reads : Nat} {body : Bytes} {received : Except TransferError Nat}
  {file : StagingFile}

theorem Leaves.shortened (hdrops : disk.Drops reads body)
    (h : Shortened body.length body received file) :
    Leaves disk reads body (flushed received file) (some file.bytes) := by
  obtain ⟨rfl, hlt⟩ := h
  exact ⟨rfl, fun _ hnot => absurd hdrops hnot, fun _ =>
    ⟨rfl, _, rfl, fun heq => absurd (congrArg List.length heq) (Nat.ne_of_lt hlt)⟩⟩

theorem Leaves.early (hdrops : ¬ disk.Drops reads body)
    (h : ∃ n, n < body.length ∧ received = .error (.body n)) (left : Option Bytes) :
    Leaves disk reads body (flushed received file) left := by
  obtain ⟨n, hn, rfl⟩ := h
  exact ⟨rfl, fun harrived => absurd harrived (Nat.ne_of_lt hn), fun hd => absurd hd hdrops⟩

theorem leaves_of_endsAs (hcreate : disk.create = none)
    (h : EndsAs (firstFault disk.writes reads) reads body.length body received file) :
    Leaves disk reads body (flushed received file) (some file.bytes) := by
  cases hfault : firstFault disk.writes reads with
  | none =>
    rw [hfault] at h
    obtain ⟨rfl, hbytes, hsound⟩ := h
    have hnot : ¬ disk.Drops reads body := by
      rw [Disk.Drops, hcreate, hfault]
      exact id
    rw [flushed, hsound]
    exact ⟨rfl, fun _ _ bytes hb => (Option.some.inj hb).symm.trans hbytes,
      fun hd => absurd hd hnot⟩
  | some fault =>
    obtain ⟨i, fate⟩ := fault
    rw [hfault] at h
    cases fate with
    | stored | refused =>
      have hdrops : disk.Drops reads body ↔ i + 1 = reads := by rw [Disk.Drops, hcreate, hfault]
      unfold EndsAs at h
      dsimp only at h
      split at h
      next hlast => exact .shortened (hdrops.mpr hlast) h
      next hmore => exact .early (fun hd => hmore (hdrops.mp hd)) h _
    | lost kept =>
      have hdrops : disk.Drops reads body ↔
          (i + 1 = reads ∧ kept < body.length) ∨ i + 2 = reads := by
        rw [Disk.Drops, hcreate, hfault]
      unfold EndsAs at h
      dsimp only at h
      split at h
      next hlast =>
        obtain ⟨rfl, hbytes, hlost⟩ := h
        rw [flushed, hlost]
        refine ⟨rfl, fun _ hnot bytes hb => ?_, fun hd => ⟨rfl, _, rfl, fun heq => ?_⟩⟩
        · have hge : body.length ≤ kept :=
            not_lt.mp fun hlt => hnot (hdrops.mpr (.inl ⟨hlast, hlt⟩))
          rw [← Option.some.inj hb, hbytes, List.take_of_length_le hge]
        · have hlen := congrArg List.length heq
          rw [hbytes, List.length_take] at hlen
          rcases hdrops.mp hd with ⟨-, hlt⟩ | hnext
          · omega
          · omega
      next hmore =>
        split at h
        next hnext => exact .shortened (hdrops.mpr (.inr hnext)) h
        next hlater =>
          refine .early (fun hd => ?_) h _
          rcases hdrops.mp hd with ⟨hlast, -⟩ | hnext
          · exact hmore hlast
          · exact hlater hnext

end

theorem receiveInto_spec (disk : Disk) (length : Nat) (reader : Feed UInt8 Stop) :
    (length ≤ reader.content.length ∧ ∃ received left reader',
      receiveInto disk length reader = (received, left, reader') ∧
      reader'.content = reader.content.drop length ∧
      Leaves disk (reader.reads CHUNK length).length (reader.content.take length) received left) ∨
    (reader.content.length < length ∧ ∃ n left reader', n < length ∧
      receiveInto disk length reader = (.error (.socket n), left, reader')) := by
  unfold receiveInto
  cases hcreate : disk.create with
  | some left =>
    dsimp only
    rcases drainOwed_spec 0 length reader with ⟨hle, reader', hdrain, hc⟩ |
      ⟨hlt, n, reader', hn, hdrain⟩
    · rw [hdrain]
      have hbody : (reader.content.take length).length = length := List.length_take_of_le hle
      refine Or.inl ⟨hle, _, left, reader', rfl, hc, rfl, ?_, ?_⟩
      · intro harrived hnot bytes hbytes
        have hnil : reader.content.take length = [] := List.length_eq_zero_iff.mp harrived.symm
        rw [hnil]
        by_contra hne
        exact hnot (by rw [Disk.Drops, hcreate]; exact ⟨hnil, bytes, hbytes, hne⟩)
      · intro hdrops
        rw [Disk.Drops, hcreate] at hdrops
        obtain ⟨hnil, bytes, hbytes, hne⟩ := hdrops
        exact ⟨by rw [hnil]; rfl, bytes, hbytes, by rw [hnil]; exact hne⟩
    · rw [hdrain]
      rw [Nat.zero_add] at hn
      exact Or.inr ⟨hlt, n, left, reader', hn, rfl⟩
  | none =>
    dsimp only
    rcases receiveLoop_spec length 0 length { writes := disk.writes } reader le_rfl rfl with
      ⟨hle, received, file, reader', hloop, hc, hends⟩ | ⟨hlt, n, file, reader', hn, hloop⟩
    · rw [hloop]
      have hbody : (reader.content.take length).length = length := List.length_take_of_le hle
      rw [Nat.zero_add, List.nil_append] at hends
      have hends : EndsAs (firstFault disk.writes (reader.reads CHUNK length).length)
          (reader.reads CHUNK length).length (reader.content.take length).length
          (reader.content.take length) received file := by
        rw [hbody]
        exact hends
      have hleaves := leaves_of_endsAs hcreate hends
      refine .inl ⟨hle, flushed received file, some file.bytes, reader', ?_, hc, hleaves⟩
      cases received with
      | ok taken =>
        dsimp only [flushed]
        split <;> rfl
      | error e => rfl
    · rw [hloop]
      rw [Nat.zero_add] at hn
      exact Or.inr ⟨hlt, n, some file.bytes, reader', hn, rfl⟩

/-! ## Where a connection is left -/

section Uploads

variable {encode : Response J → Option String}

/-- The reader is past the body, and one response line has been written. -/
structure AtBoundary (announced : Option Nat) (before after : Socket) : Prop where
  consumed : ∃ length, announced = some length ∧ length ≤ before.reader.content.length ∧
    after.reader.content = before.reader.content.drop length
  answered : ∃ line, IsLine line ∧ after.writer.taken = before.writer.taken ++ line

/-- An upload is refused, its body can be drained and comes in full, and the write of the answer
fails. -/
def AnswerLost (announced : Option Nat) (limit : Nat) (socket : Socket) : Prop :=
  (∃ length, announced = some length ∧ length ≤ limit ∧ length ≤ socket.reader.content.length) ∧
    socket.writer.fault ≠ none

theorem writeResponse_true (hcompact : Compact encode) {writer : Outlet UInt8}
    {response : Response J} (h : (writeResponse encode writer response).1 = true) :
    ∃ line, IsLine line ∧
      (writeResponse encode writer response).2.taken = writer.taken ++ line :=
  ⟨_, isLine_responseLine hcompact response, Outlet.writeAll_of_true h⟩

/-- What a write that failed has taken is not a line. -/
theorem writeResponse_fault (hcompact : Compact encode) {writer : Outlet UInt8}
    (response : Response J) (h : writer.fault ≠ none) :
    ¬ ∃ line, IsLine line ∧
      (writeResponse encode writer response).2.taken = writer.taken ++ line := by
  obtain ⟨text, htext, hnot⟩ := isLine_responseLine hcompact response
  obtain ⟨n, hn⟩ := Option.ne_none_iff_exists'.mp h
  rintro ⟨line, ⟨text', rfl, -⟩, htaken⟩
  unfold writeResponse Outlet.writeAll at htaken
  rw [hn, htext] at htaken
  have hline := List.append_cancel_left htaken
  have hmem : (10 : UInt8) ∈ (text ++ [10]).take (min n ((text ++ [10]).length - 1)) := by
    rw [hline]
    simp
  have hle : min n ((text ++ [10]).length - 1) ≤ text.length := by
    rw [List.length_append, List.length_singleton, Nat.add_sub_cancel]
    exact min_le_right _ _
  rw [List.take_append_of_le_length hle] at hmem
  exact hnot (List.mem_of_mem_take hmem)

theorem refuseUpload_boundary_iff (hcompact : Compact encode) (announced : Option Nat) (limit : Nat)
    (socket : Socket) (response : Response J) :
    ((refuseUpload encode announced limit socket response).1.close = false →
      AtBoundary announced socket (refuseUpload encode announced limit socket response).2) ↔
    ¬ AnswerLost announced limit socket := by
  unfold refuseUpload
  dsimp only
  split
  · rename_i hdrainable
    obtain ⟨length, rfl, hlimit⟩ : ∃ length, announced = some length ∧ length ≤ limit := by
      cases announced with
      | none => cases hdrainable
      | some length => exact ⟨length, rfl, of_decide_eq_true hdrainable⟩
    rw [Option.getD_some]
    rcases drain_spec socket.reader length with ⟨hle, reader', hdrain, hc⟩ |
      ⟨hlt, n, reader', -, hdrain⟩
    · rw [hdrain]
      dsimp only
      constructor
      · rintro hall ⟨-, hfault⟩
        exact writeResponse_fault hcompact response hfault (hall rfl).answered
      · intro hnot _
        have hfault : socket.writer.fault = none :=
          not_not.mp fun hf => hnot ⟨⟨length, rfl, hlimit, hle⟩, hf⟩
        refine ⟨⟨length, rfl, hle, hc⟩, writeResponse_true hcompact ?_⟩
        unfold writeResponse Outlet.writeAll
        rw [hfault]
    · rw [hdrain]
      refine iff_of_true nofun ?_
      rintro ⟨⟨length', hlength, -, hle⟩, -⟩
      cases hlength
      omega
  · rename_i hdrainable
    refine iff_of_true nofun ?_
    rintro ⟨⟨length, rfl, hlimit, -⟩, -⟩
    exact hdrainable (decide_eq_true hlimit)

theorem concludeUpload_open (hcompact : Compact encode) {received : Except TransferError Nat}
    {response : Response J} {socket : Socket}
    (h : (concludeUpload encode received response socket).1.close = false) :
    tornBy received = false ∧
      (concludeUpload encode received response socket).2.reader = socket.reader ∧
      ∃ line, IsLine line ∧
        (concludeUpload encode received response socket).2.writer.taken =
          socket.writer.taken ++ line := by
  unfold concludeUpload at h ⊢
  dsimp only at h ⊢
  split at h
  · cases h
  · rename_i hfine
    rw [Bool.not_eq_true, Bool.or_eq_false_iff, Bool.not_eq_false'] at hfine
    exact ⟨hfine.1, rfl, writeResponse_true hcompact hfine.2⟩

/-- An upload that gets as far as its body goes on at a request boundary or not at all. -/
theorem received_boundary (hcompact : Compact encode) {disk : Disk} {length : Nat} {socket : Socket}
    {received : Except TransferError Nat} {left : Option Bytes} {reader : Feed UInt8 Stop}
    (hreceive : receiveInto disk length socket.reader = (received, left, reader))
    (response : Response J)
    (hopen : (concludeUpload encode received response
      { socket with reader := reader }).1.close = false) :
    AtBoundary (some length) socket
      (concludeUpload encode received response { socket with reader := reader }).2 := by
  obtain ⟨htorn, hreader, hline⟩ := concludeUpload_open hcompact hopen
  rcases receiveInto_spec disk length socket.reader with
    ⟨hle, received', left', reader', h, hc, -⟩ | ⟨-, n, left', reader', -, h⟩
  · rw [hreceive] at h
    cases h
    exact ⟨⟨length, rfl, hle, by rw [hreader, hc]⟩, hline⟩
  · rw [hreceive] at h
    cases h
    cases htorn

theorem requestedFile_ok {req : Request} {file : String}
    (h : requestedFile (J := J) req = .ok file) : req.file = some file := by
  unfold requestedFile at h
  cases hf : req.file with
  | none => rw [hf] at h; cases h
  | some file' => rw [hf] at h; cases h; rfl

/-- What a staged write was asked for. -/
theorem stageBytes_ok {req : Request} {db : Directories} {client : ClientInfo}
    {made : Option IoError} {staged : StagedWrite}
    (h : stageBytes (J := J) req db client made = .ok staged) :
    transferAccount (J := J) req client = .ok staged.account ∧ req.file = some staged.file ∧
      req.key = some staged.key ∧ req.length = some staged.length ∧
      ∃ root, db.stageDirectoryRecord made staged.account staged.file staged.key staged.length =
        .ok root := by
  unfold stageBytes at h
  cases haccount : transferAccount (J := J) req client with
  | error e => rw [haccount] at h; cases h
  | ok account =>
    cases hfile : requestedFile (J := J) req with
    | error e => rw [haccount, hfile] at h; cases h
    | ok file =>
      rw [haccount, hfile] at h
      simp only [bind, Except.bind] at h
      split at h
      · rename_i key hkey
        split at h
        · rename_i length hlength
          split at h
          · split at h
            · rename_i root hstage
              cases h
              exact ⟨rfl, requestedFile_ok hfile, (Option.filter_eq_some_iff.mp hkey).1, hlength,
                root, hstage⟩
            · cases h
          · cases h
        · cases h
      · cases h

theorem stageArchive_ok {req : Request} {client : ClientInfo} {made : Option IoError}
    {staged : StagedArchive} (h : stageArchive (J := J) req client made = .ok staged) :
    req.length = some staged.length := by
  unfold stageArchive at h
  split at h
  · cases hlength : req.length with
    | none => rw [hlength] at h; cases h
    | some length =>
      rw [hlength] at h
      cases made with
      | some e => cases h
      | none => cases h; rfl
  · cases h

theorem blocking_ok {α : Type} {pool : Option String} {work : Except (Response J) α} {a : α}
    (h : blocking pool work = .ok a) : work = .ok a := by
  cases pool with
  | some e => cases h
  | none => exact h

theorem putBytes_boundary_iff (hcompact : Compact encode) (req : Request) (db : Directories)
    (client : ClientInfo) (maxRecordBytes : Nat) (mishaps : Mishaps)
    (meanwhile : Directories → Directories) (socket : Socket) :
    ((putBytes encode req db client maxRecordBytes mishaps meanwhile socket).outcome.close = false →
      AtBoundary req.length socket
        (putBytes encode req db client maxRecordBytes mishaps meanwhile socket).socket) ↔
    ¬ ((∃ response, blocking mishaps.stagePool
        (stageBytes (J := J) req db client mishaps.made) = .error response) ∧
      AnswerLost req.length maxRecordBytes socket) := by
  unfold putBytes
  cases hstage : blocking mishaps.stagePool (stageBytes (J := J) req db client mishaps.made) with
  | error response =>
    dsimp only
    rw [refuseUpload_boundary_iff hcompact]
    simp
  | ok staged =>
    dsimp only
    obtain ⟨-, -, -, hlength, -⟩ := stageBytes_ok (blocking_ok hstage)
    refine iff_of_true (fun hopen => ?_) (by simp)
    rw [hlength]
    exact received_boundary hcompact rfl _ hopen

theorem importBytes_boundary_iff {D : Type} (hcompact : Compact encode) (importer : Importer J D)
    (req : Request) (db : D) (client : ClientInfo) (maxArchiveBytes : Nat) (mishaps : Mishaps)
    (meanwhile : D → D) (socket : Socket) :
    ((importBytes encode importer req db client maxArchiveBytes mishaps meanwhile
        socket).outcome.close = false →
      AtBoundary req.length socket
        (importBytes encode importer req db client maxArchiveBytes mishaps meanwhile
          socket).socket) ↔
    ¬ ((∃ response, blocking mishaps.stagePool
        (stageArchive (J := J) req client mishaps.made) = .error response) ∧
      AnswerLost req.length maxArchiveBytes socket) := by
  unfold importBytes
  cases hstage : blocking mishaps.stagePool (stageArchive (J := J) req client mishaps.made) with
  | error response =>
    dsimp only
    rw [refuseUpload_boundary_iff hcompact]
    simp
  | ok staged =>
    dsimp only
    have hlength := stageArchive_ok (blocking_ok hstage)
    refine iff_of_true ?_ (by simp)
    split
    · exact nofun
    · intro hopen
      rw [hlength]
      exact received_boundary hcompact rfl _ hopen

end Uploads

section Downloads

variable {encode : Response J → Option String}

/-- A response line that is not OK; or an OK line with a length, and that many bytes after it. -/
def Announced (encode : Response J → Option String) (before after : Outlet UInt8) : Prop :=
  (∃ response, response.status = .error ∧
    after.taken = before.taken ++ responseLine encode response) ∨
  ∃ (n : Nat) (report : Option J) (body : Bytes), body.length = n ∧
    after.taken = before.taken ++
      responseLine encode { status := .ok, length := some n, archive := report } ++ body

theorem sendLoop_open : ∀ (fuel owed : Nat) (file : Feed UInt8 IoError) (writer : Outlet UInt8),
    (sendLoop fuel owed file writer).1.close = false →
    ∃ body : Bytes, body.length = owed ∧
      (sendLoop fuel owed file writer).2.taken = writer.taken ++ body := by
  intro fuel
  induction fuel with
  | zero =>
    intro owed file writer h
    cases owed with
    | zero => exact ⟨[], rfl, (List.append_nil _).symm⟩
    | succ owed => cases h
  | succ fuel ih =>
    intro owed file writer h
    cases owed with
    | zero => exact ⟨[], rfl, (List.append_nil _).symm⟩
    | succ owed =>
      have hwant : 0 < min (owed + 1) CHUNK := lt_min (Nat.succ_pos owed) (by decide)
      have hle : (file.take (min (owed + 1) CHUNK) (min (owed + 1) CHUNK)).2.1.length ≤ owed + 1 := by
        rcases file.take_spec hwant (min (owed + 1) CHUNK) with
          ⟨-, file', htake, -⟩ | ⟨hlt, file', htake, -⟩
        · rw [htake]
          exact (List.length_take_le _ _).trans (min_le_left _ _)
        · rw [htake]
          exact hlt.le.trans (min_le_left _ _)
      rw [sendLoop] at h ⊢
      generalize file.take (min (owed + 1) CHUNK) (min (owed + 1) CHUNK) = taken at h hle ⊢
      split at h
      · cases h
      · cases h
      · rename_i chunk file' _ _
        dsimp only at hle
        cases hwrite : writer.writeAll chunk with
        | mk written writer' =>
          rw [hwrite] at h
          cases written with
          | false => cases h
          | true =>
            have htrue : (writer.writeAll chunk).1 = true := by rw [hwrite]
            have htaken : writer'.taken = writer.taken ++ chunk := by
              rw [← Outlet.writeAll_of_true htrue, hwrite]
            obtain ⟨body, hbody, hall⟩ := ih _ file' writer' h
            refine ⟨chunk ++ body, ?_, ?_⟩
            · rw [List.length_append, hbody]
              omega
            · rw [hall, htaken, List.append_assoc]

/-- `sendBody` announces a length and sends that many bytes, or closes. -/
theorem sendBody_announced (opened : Opened) (report : Option J) (writer : Outlet UInt8)
    (h : (sendBody encode opened report writer).1.close = false) :
    Announced encode writer (sendBody encode opened report writer).2 := by
  unfold sendBody at h ⊢
  generalize hwrite : writeResponse encode writer _ = w at h ⊢
  obtain ⟨written, writer'⟩ := w
  cases written with
  | false => cases h
  | true =>
    have htaken := Outlet.writeAll_of_true (congrArg Prod.fst hwrite)
    obtain ⟨body, hbody, hall⟩ := sendLoop_open _ _ _ writer' h
    refine Or.inr ⟨opened.length, report, body, hbody, ?_⟩
    rw [hall]
    exact congrArg (· ++ body) ((congrArg (fun w => w.2.taken) hwrite).symm.trans htaken)

theorem refuseDownload_announced {response : Response J} (hstatus : response.status = .error)
    (writer : Outlet UInt8) (h : (refuseDownload encode writer response).1.close = false) :
    Announced encode writer (refuseDownload encode writer response).2 := by
  unfold refuseDownload at h ⊢
  generalize hwrite : writeResponse encode writer response = w at h ⊢
  obtain ⟨written, writer'⟩ := w
  cases written with
  | false => cases h
  | true =>
    have htaken := Outlet.writeAll_of_true (congrArg Prod.fst hwrite)
    exact Or.inl ⟨response, hstatus, (congrArg (fun w => w.2.taken) hwrite).symm.trans htaken⟩

/-- Work that only refuses with an error does so through the pool as well. -/
theorem blocking_error {α : Type} {pool : Option String} {work : Except (Response J) α}
    (hwork : ∀ response, work = .error response → response.status = .error)
    {response : Response J} (h : blocking pool work = .error response) :
    response.status = .error := by
  cases pool with
  | some e => cases h; rfl
  | none => exact hwork response h

theorem transferAccount_error {req : Request} {client : ClientInfo} {response : Response J}
    (h : transferAccount req client = .error response) : response.status = .error := by
  unfold transferAccount at h
  split at h
  · cases h
  · split at h
    · cases h; rfl
    · cases h; rfl

theorem requestedFile_error {req : Request} {response : Response J}
    (h : requestedFile req = .error response) : response.status = .error := by
  unfold requestedFile at h
  split at h
  · cases h
  · cases h; rfl

theorem openBytes_error {req : Request} {db : Directories} {client : ClientInfo}
    {found : String → String → Except DbError (Option Opened)} (response : Response J)
    (h : openBytes req db client found = .error response) : response.status = .error := by
  unfold openBytes at h
  cases haccount : transferAccount (J := J) req client with
  | error e =>
    rw [haccount] at h
    cases h
    exact transferAccount_error haccount
  | ok account =>
    cases hfile : requestedFile (J := J) req with
    | error e =>
      rw [haccount, hfile] at h
      cases h
      exact requestedFile_error hfile
    | ok file =>
      rw [haccount, hfile] at h
      simp only [bind, Except.bind] at h
      repeat' split at h
      all_goals
        cases h
        try rfl

theorem openArchive_error {req : Request} {client : ClientInfo}
    {produce : Archive.Source → Except DbError (Opened × J)} (response : Response J)
    (h : openArchive req client produce = .error response) : response.status = .error := by
  unfold openArchive at h
  split at h
  · dsimp only at h
    cases hsource : exportSource (J := J) req
        ((transferAccount (J := J) req client).toOption.getD "") with
    | error e =>
      rw [hsource] at h
      cases h
      unfold exportSource at hsource
      split at hsource
      · cases hfile : requestedFile (J := J) req with
        | error e =>
          rw [hfile] at hsource
          cases hsource
          exact requestedFile_error hfile
        | ok file => rw [hfile] at hsource; cases hsource
      · split at hsource
        · cases hsource
        · cases hsource
    | ok source =>
      rw [hsource] at h
      simp only [bind, Except.bind] at h
      split at h
      · cases h; rfl
      · cases h
  · cases h; rfl

theorem getBytes_announced (req : Request) (db : Directories) (client : ClientInfo)
    (pool : Option String) (found : String → String → Except DbError (Option Opened))
    (writer : Outlet UInt8) (h : (getBytes encode req db client pool found writer).1.close = false) :
    Announced encode writer (getBytes encode req db client pool found writer).2 := by
  unfold getBytes at h ⊢
  cases hopen : blocking pool (openBytes (J := J) req db client found) with
  | error response =>
    rw [hopen] at h
    exact refuseDownload_announced (blocking_error openBytes_error hopen) writer h
  | ok opened =>
    rw [hopen] at h
    exact sendBody_announced opened none writer h

theorem exportBytes_announced (req : Request) (client : ClientInfo) (pool : Option String)
    (produce : Archive.Source → Except DbError (Opened × J)) (writer : Outlet UInt8)
    (h : (exportBytes encode req client pool produce writer).1.close = false) :
    Announced encode writer (exportBytes encode req client pool produce writer).2 := by
  unfold exportBytes at h ⊢
  cases hopen : blocking pool (openArchive req client produce) with
  | error response =>
    rw [hopen] at h
    exact refuseDownload_announced (blocking_error openArchive_error hopen) writer h
  | ok found =>
    obtain ⟨opened, report⟩ := found
    rw [hopen] at h
    exact sendBody_announced opened (some report) writer h

end Downloads

/-! ## Every transfer -/

/-- The four commands together. The two uploads go on at a request boundary or not at all if and
only if no answer is lost; the two downloads always do. -/
theorem transfer_framing {D : Type} {encode : Response J → Option String}
    (hcompact : Compact encode) :
    (∀ (req : Request) (db : Directories) (client : ClientInfo) (maxRecordBytes : Nat)
        (mishaps : Mishaps) (meanwhile : Directories → Directories) (socket : Socket),
      ((putBytes encode req db client maxRecordBytes mishaps meanwhile socket).outcome.close =
          false →
        AtBoundary req.length socket
          (putBytes encode req db client maxRecordBytes mishaps meanwhile socket).socket) ↔
      ¬ ((∃ response, blocking mishaps.stagePool
          (stageBytes (J := J) req db client mishaps.made) = .error response) ∧
        AnswerLost req.length maxRecordBytes socket)) ∧
    (∀ (importer : Importer J D) (req : Request) (db : D) (client : ClientInfo)
        (maxArchiveBytes : Nat) (mishaps : Mishaps) (meanwhile : D → D) (socket : Socket),
      ((importBytes encode importer req db client maxArchiveBytes mishaps meanwhile
          socket).outcome.close = false →
        AtBoundary req.length socket
          (importBytes encode importer req db client maxArchiveBytes mishaps meanwhile
            socket).socket) ↔
      ¬ ((∃ response, blocking mishaps.stagePool
          (stageArchive (J := J) req client mishaps.made) = .error response) ∧
        AnswerLost req.length maxArchiveBytes socket)) ∧
    (∀ (req : Request) (db : Directories) (client : ClientInfo) (pool : Option String)
        (found : String → String → Except DbError (Option Opened)) (writer : Outlet UInt8),
      (getBytes encode req db client pool found writer).1.close = false →
        Announced encode writer (getBytes encode req db client pool found writer).2) ∧
    (∀ (req : Request) (client : ClientInfo) (pool : Option String)
        (produce : Archive.Source → Except DbError (Opened × J)) (writer : Outlet UInt8),
      (exportBytes encode req client pool produce writer).1.close = false →
        Announced encode writer (exportBytes encode req client pool produce writer).2) :=
  ⟨putBytes_boundary_iff hcompact, importBytes_boundary_iff hcompact, getBytes_announced,
    exportBytes_announced⟩

/-- A client of one account. -/
def scanner : ClientInfo :=
  { name := "scanner", thumbprint := "0123456789ab", allowedAccounts := ["SALES"], isAdmin := false,
    capabilities := [], expiresAt := none, enqueueFiles := [] }

/-- A database whose files are all directory files. -/
def scans : Directories :=
  { attributes := fun _ _ => { directory := some {} }
    storage := fun account => "db_storage/" ++ account
    host := fun _ => ∅
    maxRecordBytes := 67108864 }

def putThree (account : String) : Request :=
  { command := "PUT.BYTES", account := some account, file := some "SCANS", key := some "a.pdf",
    length := some 3 }

/-- The body, and the first bytes of the request after it. -/
def threeBytes : Feed UInt8 Stop := { pieces := [[10, 65], [10, 123, 34]] }

/-- The two responses to such a request. -/
def threeStored : Response Unit := { status := .ok, length := some 3 }

def accountRefused : Response Unit :=
  refusal .accessDenied "Access denied for account OPS: Not in allowed list"

def encodeThree (response : Response Unit) : Option String :=
  if response = threeStored then some "\x7b\"status\":\"OK\",\"length\":3\x7d"
  else if response = accountRefused then
    some ("\x7b\"status\":\"ERROR\",\"message\":\"Access denied for account OPS: Not in allowed " ++
      "list\",\"code\":\"ACCESS_DENIED\"\x7d")
  else none

theorem encodeThree_compact : Compact encodeThree := by
  intro response text h
  unfold encodeThree at h
  split at h
  · cases h
    decide +kernel
  · split at h
    · cases h
      decide +kernel
    · cases h

theorem three_bytes_at_boundary :
    (putBytes encodeThree (putThree "SALES") scans scanner 67108864 {} id
      { reader := threeBytes, writer := {} }).outcome = .done ∧
    AtBoundary (some 3) { reader := threeBytes, writer := {} }
      (putBytes encodeThree (putThree "SALES") scans scanner 67108864 {} id
        { reader := threeBytes, writer := {} }).socket := by
  have hdone : (putBytes encodeThree (putThree "SALES") scans scanner 67108864 {} id
      { reader := threeBytes, writer := {} }).outcome = .done := by decide +kernel
  refine ⟨hdone, ((transfer_framing (D := Unit) encodeThree_compact).1 (putThree "SALES") scans
    scanner 67108864 {} id { reader := threeBytes, writer := {} }).mpr ?_ (by rw [hdone]; rfl)⟩
  rintro ⟨-, -, hfault⟩
  exact hfault rfl

/-- Refused, with the client gone as far as the answer is concerned and its body on the socket: the
connection is kept. -/
theorem lost_answer_goes_on :
    (putBytes encodeThree (putThree "OPS") scans scanner 67108864 {} id
      { reader := threeBytes, writer := { faults := [some 0] } }).outcome = .refused ∧
    ¬ ((putBytes encodeThree (putThree "OPS") scans scanner 67108864 {} id
        { reader := threeBytes, writer := { faults := [some 0] } }).outcome.close = false →
      AtBoundary (putThree "OPS").length
        { reader := threeBytes, writer := { faults := [some 0] } }
        (putBytes encodeThree (putThree "OPS") scans scanner 67108864 {} id
          { reader := threeBytes, writer := { faults := [some 0] } }).socket) := by
  refine ⟨by decide +kernel, ?_⟩
  rw [putBytes_boundary_iff encodeThree_compact, not_not]
  exact ⟨⟨accountRefused, by decide +kernel⟩, ⟨3, rfl, by decide, by decide⟩, by decide⟩

end Transfer

end RustyPick
