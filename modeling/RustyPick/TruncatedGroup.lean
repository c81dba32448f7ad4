import RustyPick.GroupFile
import RustyPick.Lib.Layers

/-!
# RustyPick.TruncatedGroup

`write_frames` and `read_group` (`db/hashfile.rs`) as the two ends of one file, and what is read
when the file has been cut short.

* `readLoop_cut`: over a cut of the frames the loop that ends quietly has read whole frames, and
  fewer than eight bytes of the next one are left.
* `trailer_not_in_frame`: so a trailer cannot start where those bytes end. Whatever a record spells,
  the last byte of a key length is zero and no byte of the magic is.
* `truncated_group_refused`: a cut is an error, and the whole file is its entries.
-/

namespace RustyPick

open Lib

/-- `entries.sort_by(|left, right| left.0.cmp(right.0))`. -/
def sortByKey (entries : List (String × Record)) : List (String × Record) :=
  entries.mergeSort fun left right => decide (left.1 ≤ right.1)

/-- The file `write_frames` leaves at its path. An empty group leaves none. -/
def writtenFrames (entries : List (String × Record)) : Option Bytes :=
  if entries = [] then none else some (groupBytes (sortByKey entries))

/-- `read_group`: its result and the map it leaves. -/
def readGroupInto (map : Map String Record) (path : String) (file : Option Bytes)
    (requireTrailer : Bool) : Except IoError Unit × Map String Record :=
  match readGroup path file requireTrailer with
  | .error e => (.error e, map)
  | .ok frames => (.ok (), insertAll map frames)

theorem sortByKey_perm (entries : List (String × Record)) : (sortByKey entries).Perm entries :=
  List.mergeSort_perm _ _

/-- Any group at all reads back in one piece, its entries in key order. -/
theorem readGroupInto_written {path : String} {entries : List (String × Record)}
    (map : Map String Record) (require : Bool) (hn : entries.length < 2 ^ 64)
    (hfit : ∀ e ∈ entries, Fits e.1 e.2) :
    readGroupInto map path (some (groupBytes (sortByKey entries))) require =
      (.ok (), insertAll map (storedEntries (sortByKey entries))) := by
  have hperm := sortByKey_perm entries
  have hread : readGroup path (some (groupBytes (sortByKey entries))) require =
      .ok (storedEntries (sortByKey entries)) :=
    readGroup_groupBytes require (by rwa [hperm.length_eq])
      fun e he => hfit e (hperm.mem_iff.mp he)
  simp only [readGroupInto, hread]

/-- Where no two entries share a key, what was read is those entries over the map. -/
theorem getElem?_insertAll_storedEntries {entries : List (String × Record)}
    (hkeys : entries.Pairwise fun a b => a.1 ≠ b.1) (map : Map String Record) (k : String) :
    (∀ r, (k, r) ∈ entries →
      (insertAll map (storedEntries (sortByKey entries)))[k]? = some r.stored) ∧
    ((∀ e ∈ entries, e.1 ≠ k) →
      (insertAll map (storedEntries (sortByKey entries)))[k]? = map[k]?) := by
  have hperm := sortByKey_perm entries
  have hsorted : (storedEntries (sortByKey entries)).Pairwise fun a b => a.1 ≠ b.1 :=
    List.pairwise_map.mpr (hperm.symm.pairwise hkeys fun h => h.symm)
  constructor
  · intro r hr
    refine getElem?_insertAll_of_mem hsorted ?_ map
    exact List.mem_map.mpr ⟨(k, r), hperm.mem_iff.mpr hr, rfl⟩
  · intro hk
    refine getElem?_insertAll_of_ne ?_ map
    intro e he
    obtain ⟨e', he', rfl⟩ := List.mem_map.mp he
    exact hk e' (hperm.mem_iff.mp he')

/-! ## A cut of the frames -/

/-- The loop ends quietly over a cut of the frames only where a frame ends, or in the length of a
key. -/
theorem readLoop_cut {path : String} (entries : List (String × Record)) :
    ∀ {fuel : Nat} {body : Bytes} {read : List (String × Record)}, body.length < fuel →
      (∀ e ∈ entries, Addressable e.1 e.2) → body <+: frames entries →
      readLoop path fuel body = .ok read →
      ∃ whole rest left, entries = whole ++ rest ∧ body = frames whole ++ left ∧
        left.length < 8 ∧ left <+: frames rest := by
  induction entries with
  | nil =>
    intro fuel body read _ _ hb _
    rw [frames_nil, List.prefix_nil] at hb
    exact ⟨[], [], [], rfl, hb, by simp, List.nil_prefix⟩
  | cons e entries ih =>
    obtain ⟨key, record⟩ := e
    intro fuel body read hfuel ha hb h
    obtain ⟨fuel, rfl⟩ : ∃ f, fuel = f + 1 := ⟨fuel - 1, by omega⟩
    have hb' := hb
    rw [frames_cons] at hb'
    by_cases hshort : body.length < 8
    · exact ⟨[], (key, record) :: entries, body, rfl, by simp, hshort, hb⟩
    rcases readLoop_torn (ha _ List.mem_cons_self) hb' h with
      rfl | ⟨body', read', rfl, hb', hrest, rfl⟩
    · -- eight bytes of a key length were there, so the loop did not stop at once
      exfalso
      unfold readLoop at h
      rw [takeExact, if_pos (by omega)] at h
      dsimp only at h
      repeat' split at h
      all_goals simp at h
    · have hlen : body'.length < fuel := by
        have := length_frame key record
        simp only [List.length_append] at hfuel
        omega
      obtain ⟨whole, rest, left, rfl, rfl, hleft, hpre⟩ :=
        ih hlen (fun e he => ha e (List.mem_cons_of_mem _ he)) hb' hrest
      refine ⟨(key, record) :: whole, rest, left, rfl, ?_, hleft, hpre⟩
      rw [frames_cons, List.append_assoc]

/-- The last byte of a key length the reader admits. -/
theorem frame_seventh {key : String} {record : Record} (h : Fits key record) (rest : Bytes) :
    (frame key record ++ rest)[7]? = some 0 := by
  have hk : (utf8 key).length < 256 ^ 7 := lt_of_le_of_lt h.1 (by decide)
  have hbyte : (toLE 8 (utf8 key).length)[7]? = some 0 := by
    simp only [toLE, List.getElem?_cons_succ, List.getElem?_cons_zero, Option.some.injEq]
    have hz : (utf8 key).length / 256 / 256 / 256 / 256 / 256 / 256 / 256 = 0 := by omega
    rw [hz]
    rfl
  have hlen : 7 < (toLE 8 (utf8 key).length).length := by simp
  rw [frame, List.append_assoc, List.getElem?_append_left hlen]
  exact hbyte

/-- No trailer starts in the first eight bytes of a frame. -/
theorem trailer_not_in_frame {key : String} {record : Record} (h : Fits key record)
    {left trailer rest : Bytes} (hleft : left.length < 8) (hlen : 8 ≤ trailer.length)
    (hmagic : trailer.take 8 = GROUP_MAGIC)
    (hpre : left ++ trailer <+: frame key record ++ rest) : False := by
  have h7 : (left ++ trailer)[7]? = some 0 := by
    rw [← frame_seventh h rest]
    exact (List.prefix_iff_getElem?.mp hpre 7 (by simp; omega)) ▸
      (List.getElem?_eq_getElem (by simp; omega))
  rw [List.getElem?_append_right (by omega)] at h7
  have hat : GROUP_MAGIC[7 - left.length]? = some 0 := by
    rw [← hmagic, List.getElem?_take_of_lt (by omega)]
    exact h7
  have hbytes : ∀ b ∈ GROUP_MAGIC, b ≠ 0 := by decide +kernel
  exact hbytes 0 (List.mem_of_getElem? hat) rfl

/-- A file cut short has no trailer, or its frames do not read. -/
theorem readGroup_truncated {path : String} {entries : List (String × Record)}
    (hfit : ∀ e ∈ entries, Fits e.1 e.2) {cut : Bytes} (hcut : cut <+: groupBytes entries)
    (hne : cut ≠ groupBytes entries) : ∃ e, readGroup path (some cut) true = .error e := by
  cases htrailer : readTrailer cut with
  | none =>
    exact ⟨corruptGroup path "trailer missing or truncated", by simp [readGroup, htrailer]⟩
  | some found =>
    obtain ⟨count, crc⟩ := found
    cases hloop : readLoop path ((cut.take (cut.length - TRAILER_LEN)).length + 1)
        (cut.take (cut.length - TRAILER_LEN)) with
    | error e => exact ⟨e, by simp only [readGroup, htrailer, hloop]⟩
    | ok read =>
      exfalso
      -- the last twenty bytes of the cut start with the magic
      have hlong : TRAILER_LEN ≤ cut.length := by
        by_contra hc
        simp [readTrailer, Nat.not_le.mp hc] at htrailer
      have hmagic : (cut.drop (cut.length - TRAILER_LEN)).take 8 = GROUP_MAGIC := by
        by_contra hc
        simp [readTrailer, Nat.not_lt.mpr hlong, hc] at htrailer
      -- and what is before them is a cut of the frames that does not reach their end
      have hshort : cut.length < (groupBytes entries).length := by
        rcases Nat.lt_or_ge cut.length (groupBytes entries).length with h | h
        · exact h
        · exact absurd (hcut.eq_of_length (Nat.le_antisymm hcut.length_le h)) hne
      rw [length_groupBytes] at hshort
      have hbody : cut.take (cut.length - TRAILER_LEN) <+: frames entries := by
        refine List.prefix_of_prefix_length_le ((List.take_prefix _ _).trans hcut)
          (List.prefix_append _ _) ?_
        rw [List.length_take]
        omega
      obtain ⟨whole, rest, left, rfl, hsplit, hleft, -⟩ := readLoop_cut entries (Nat.lt_succ_self _)
        (fun e he => (hfit e he).addressable) hbody hloop
      cases rest with
      | nil =>
        have := congrArg List.length hsplit
        simp only [List.length_take, List.length_append, List.append_nil] at this hshort
        omega
      | cons e rest =>
        obtain ⟨key, record⟩ := e
        have hwhole : frames (whole ++ (key, record) :: rest) =
            frames whole ++ (frame key record ++ frames rest) := by
          simp [frames]
        have hpre : left ++ cut.drop (cut.length - TRAILER_LEN) <+:
            frame key record ++ (frames rest ++ (GROUP_MAGIC ++
              (toLE 8 (whole ++ (key, record) :: rest).length ++
                toLE 4 (crc32c (frames (whole ++ (key, record) :: rest))).toNat))) := by
          rw [← List.take_append_drop (cut.length - TRAILER_LEN) cut, hsplit, groupBytes, hwhole,
            List.append_assoc, List.append_assoc, List.prefix_append_right_inj,
            List.append_assoc] at hcut
          rw [hwhole]
          exact hcut
        refine trailer_not_in_frame (hfit (key, record) (by simp)) hleft ?_ hmagic hpre
        rw [List.length_drop]
        have : TRAILER_LEN = 20 := rfl
        omega

/-! ## The whole file or nothing -/

/-- A group cut short anywhere is refused and adds nothing to the map; the whole file adds exactly
its entries, each as the codec returns it. -/
theorem truncated_group_refused {path : String} {entries : List (String × Record)}
    (hne : entries ≠ []) (hn : entries.length < 2 ^ 64) (hfit : ∀ e ∈ entries, Fits e.1 e.2)
    (map : Map String Record) :
    ∃ file, writtenFrames entries = some file ∧
      (∀ cut, cut <+: file → cut ≠ file →
        ∃ e, readGroupInto map path (some cut) true = (.error e, map)) ∧
      readGroup path (some file) true = .ok (storedEntries (sortByKey entries)) ∧
      (sortByKey entries).Perm entries ∧
      (readGroupInto map path (some file) true).1 = .ok () ∧
      ((entries.Pairwise fun a b => a.1 ≠ b.1) → ∀ k,
        (∀ r, (k, r) ∈ entries →
          (readGroupInto map path (some file) true).2[k]? =
            some (Record.fromBytes r.toBytes)) ∧
        ((∀ e ∈ entries, e.1 ≠ k) →
          (readGroupInto map path (some file) true).2[k]? = map[k]?)) := by
  have hperm := sortByKey_perm entries
  have hfit' : ∀ e ∈ sortByKey entries, Fits e.1 e.2 := fun e he => hfit e (hperm.mem_iff.mp he)
  have hwhole : readGroupInto map path (some (groupBytes (sortByKey entries))) true = _ :=
    readGroupInto_written map true hn hfit
  refine ⟨groupBytes (sortByKey entries), by simp [writtenFrames, hne], ?_, ?_, hperm, ?_, ?_⟩
  · intro cut hcut hcutne
    obtain ⟨e, (he : readGroup path (some cut) true = _)⟩ := readGroup_truncated hfit' hcut hcutne
    exact ⟨e, by simp only [readGroupInto, he]⟩
  · exact readGroup_groupBytes true (by rwa [hperm.length_eq]) hfit'
  · rw [hwhole]
  · intro hkeys k
    rw [hwhole]
    exact getElem?_insertAll_storedEntries hkeys map k

/-- A record that spells a whole trailer, checksum included: the cut right after it is refused like
any other. -/
theorem forged_trailer_refused :
    ∃ file, writtenFrames [("A", Record.fromBytes (groupBytes []))] = some file ∧
      ∀ cut, cut <+: file → cut ≠ file →
        ∃ e, readGroupInto ∅ "0" (some cut) true = (.error e, ∅) := by
  obtain ⟨file, hfile, hcut, -⟩ := @truncated_group_refused "0"
    [("A", Record.fromBytes (groupBytes []))] (by simp) (by simp) (by decide +kernel) ∅
  exact ⟨file, hfile, hcut⟩

end RustyPick
