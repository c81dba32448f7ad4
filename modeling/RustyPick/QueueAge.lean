import RustyPick.Queue

/-!
# RustyPick.QueueAge

How long the oldest record of a queue has been waiting (`db/queue.rs`): the scan that stops at the
first key it can date, against the minimum over every key.

A key that was minted is twenty digits, so among such keys text order is numeric order, whatever
other keys stand between them (`keyMillis_mono`).
-/

namespace RustyPick

open Lib

/-! ## Minted keys in text order -/

theorem digitChar_toNat {c : Char} (h : c.isDigit = true) :
    c.toNat - '0'.toNat < 10 ∧ Nat.digitChar (c.toNat - '0'.toNat) = c := by
  simp only [Char.isDigit, Bool.and_eq_true, decide_eq_true_eq, ge_iff_le, UInt32.le_iff_toNat_le]
    at h
  have h0 : '0'.toNat = 48 := rfl
  have h1 : 48 ≤ c.toNat := h.1
  have h2 : c.toNat ≤ 57 := h.2
  have hlt : c.toNat - '0'.toNat < 10 := by omega
  refine ⟨hlt, ?_⟩
  apply Char.toNat_inj.mp
  rw [Nat.toNat_digitChar_of_lt_ten hlt]
  omega

/-- The digits of the number that a text of digits spells are the text. -/
theorem padDigits_ofDigitChars {cs : List Char} (h : ∀ c ∈ cs, c.isDigit = true) :
    padDigits cs.length (Nat.ofDigitChars 10 cs 0) = cs := by
  induction cs using List.reverseRecOn with
  | nil => rfl
  | append_singleton cs c ih =>
    have hc := digitChar_toNat (h c (by simp))
    have hcs := ih fun d hd => h d (List.mem_append_left _ hd)
    have hvalue : Nat.ofDigitChars 10 (cs ++ [c]) 0 =
        10 * Nat.ofDigitChars 10 cs 0 + (c.toNat - '0'.toNat) := by
      rw [Nat.ofDigitChars_append]
      rfl
    have hdiv : Nat.ofDigitChars 10 (cs ++ [c]) 0 / 10 = Nat.ofDigitChars 10 cs 0 := by omega
    have hmod : Nat.ofDigitChars 10 (cs ++ [c]) 0 % 10 = c.toNat - '0'.toNat := by omega
    rw [List.length_append, List.length_singleton, padDigits, hdiv, hmod, hcs, hc.2]

/-- A key that carries a number is the key that number is stored under. -/
theorem formatKey_keySequence {key : String} {n : Nat} (h : keySequence key = some n) :
    key = formatKey n ∧ n ≤ u64Max := by
  unfold keySequence at h
  split at h
  · cases h
  rename_i hform
  push Not at hform
  obtain ⟨hlen, hall⟩ := hform
  have hdigits := List.all_eq_true.mp hall
  have hparse : parseU64 key = parseDigits key.toList := by
    unfold parseU64
    split
    · rename_i cs hcs
      have hplus := hdigits '+' (by rw [hcs]; exact List.mem_cons_self)
      exact absurd hplus (by simp)
    · rfl
  rw [hparse, parseDigits] at h
  split at h
  · cases h
  dsimp only at h
  split at h
  · rename_i hle
    cases h
    refine ⟨?_, hle⟩
    rw [formatKey, ← hlen, padDigits_ofDigitChars hdigits, String.ofList_toList]
  · cases h

/-- Among the keys that carry a time, the first in text order carries the earliest. -/
theorem keyMillis_mono {j k : String} {m n : Nat} (hle : j ≤ k) (hj : keyMillis j = some m)
    (hk : keyMillis k = some n) : m ≤ n := by
  obtain ⟨a, ha, rfl⟩ := Option.map_eq_some_iff.mp hj
  obtain ⟨b, hb, rfl⟩ := Option.map_eq_some_iff.mp hk
  obtain ⟨rfl, hamax⟩ := formatKey_keySequence ha
  obtain ⟨rfl, -⟩ := formatKey_keySequence hb
  apply Nat.div_le_div_right
  by_contra hlt
  exact absurd hle (not_le_of_gt (formatKey_strictMono (Nat.lt_of_not_le hlt) hamax))

/-! ## Lists with the same minimum -/

/-- A list among another's elements, holding something at or below each of them, has the same
minimum. -/
theorem min?_eq_of_below {l r : List Nat} (hsub : ∀ a ∈ l, a ∈ r)
    (hbelow : ∀ b ∈ r, ∃ a ∈ l, a ≤ b) : l.min? = r.min? := by
  cases hr : r.min? with
  | none =>
    rw [List.min?_eq_none_iff] at hr ⊢
    refine List.eq_nil_iff_forall_not_mem.mpr fun a ha => ?_
    have hmem := hsub a ha
    rw [hr] at hmem
    cases hmem
  | some m =>
    obtain ⟨hm, hleast⟩ := List.min?_eq_some_iff.mp hr
    obtain ⟨a, ha, hle⟩ := hbelow m hm
    have heq : a = m := le_antisymm hle (hleast a (hsub a ha))
    rw [heq] at ha
    exact List.min?_eq_some_iff.mpr ⟨ha, fun b hb => hleast b (hsub b hb)⟩

/-- A list with an element has a minimum at or below it. -/
theorem exists_min? {l : List Nat} {a : Nat} (h : a ∈ l) : ∃ m, l.min? = some m ∧ m ≤ a := by
  cases hm : l.min? with
  | none =>
    rw [List.min?_eq_none_iff] at hm
    rw [hm] at h
    cases h
  | some m => exact ⟨m, rfl, (List.min?_eq_some_iff.mp hm).2 a h⟩

namespace QueueState

/-! ## The naive age -/

/-- Since when a record has been waiting: since it came due, if it was held back, and since its key
was minted otherwise. -/
def waitingSince (q : QueueState) (key : String) : Option Nat :=
  match q.due[key]? with
  | some millis => some millis
  | none => keyMillis key

/-- The keys that are available or claimed. -/
def unacknowledged (q : QueueState) : Finset String := q.available ∪ dom q.claims

/-- The minimum over every key, and how long ago that is. -/
def naiveOldestSeconds (q : QueueState) (nowMillis : Nat) : Option Nat :=
  ((ascending q.unacknowledged).filterMap q.waitingSince).min?.map
    fun oldest => (nowMillis - oldest) / 1000

theorem mem_unacknowledged {q : QueueState} {key : String} :
    key ∈ q.unacknowledged ↔ key ∈ q.available ∨ key ∈ q.claims := by
  simp [unacknowledged]

theorem waitingSince_due {q : QueueState} {key : String} {millis : Nat}
    (h : q.due[key]? = some millis) : q.waitingSince key = some millis := by
  rw [waitingSince, h]

theorem waitingSince_minted {q : QueueState} {key : String} (h : key ∉ q.due) :
    q.waitingSince key = keyMillis key := by
  rw [waitingSince, Std.ExtTreeMap.getElem?_eq_none h]

section

variable (q : QueueState)

/-- What the scan of the available keys finds first. -/
def oldestWaiting : Option Nat :=
  ((ascending q.available).filter fun key => key ∉ q.due).findSome? keyMillis

def releasedTimes : List Nat :=
  (q.due.toList.filter fun entry => entry.1 ∈ q.available ∨ entry.1 ∈ q.claims).map Prod.snd

def claimedTimes : List Nat := (q.claims.keys.filter fun key => key ∉ q.due).filterMap keyMillis

/-- The three times the age is taken from. -/
def candidateTimes : List Nat :=
  [q.oldestWaiting, q.releasedTimes.min?, q.claimedTimes.min?].filterMap id

theorem mem_candidateTimes {m : Nat} :
    m ∈ q.candidateTimes ↔ q.oldestWaiting = some m ∨ q.releasedTimes.min? = some m ∨
      q.claimedTimes.min? = some m := by
  simp only [candidateTimes, List.mem_filterMap, List.mem_cons, List.not_mem_nil, or_false, id_eq,
    exists_eq_right, eq_comm (a := some m)]

end

variable {q : QueueState} {m : Nat}

/-- The scan stops at a key that is waiting since then, and no other available key has waited
longer. -/
theorem oldestWaiting_spec (h : q.oldestWaiting = some m) :
    (∃ key ∈ q.available, key ∉ q.due ∧ keyMillis key = some m) ∧
      ∀ key ∈ q.available, key ∉ q.due → ∀ n, keyMillis key = some n → m ≤ n := by
  obtain ⟨before, first, after, hsplit, hfirst, hnone⟩ := List.findSome?_eq_some_iff.mp h
  have hmem : ∀ key, key ∈ before ++ first :: after ↔ key ∈ q.available ∧ key ∉ q.due := by
    intro key
    rw [← hsplit]
    simp
  have hsorted : (before ++ first :: after).Pairwise (· < ·) := by
    rw [← hsplit]
    exact (pairwise_ascending _).filter _
  have hown := (hmem first).mp (by simp)
  refine ⟨⟨first, hown.1, hown.2, hfirst⟩, fun key hkey hdue n hn => ?_⟩
  rcases List.mem_append.mp ((hmem key).mpr ⟨hkey, hdue⟩) with hb | ha
  · rw [hnone key hb] at hn
    cases hn
  · rcases List.mem_cons.mp ha with rfl | ha
    · rw [hfirst] at hn
      exact le_of_eq (Option.some.inj hn)
    · have hlt := (List.pairwise_cons.mp (List.pairwise_append.mp hsorted).2.1).1 key ha
      exact keyMillis_mono (le_of_lt hlt) hfirst hn

/-- An available key that carries a time stops the scan. -/
theorem oldestWaiting_isSome {key : String} (hkey : key ∈ q.available) (hdue : key ∉ q.due)
    {n : Nat} (hn : keyMillis key = some n) : ∃ m, q.oldestWaiting = some m ∧ m ≤ n := by
  cases hm : q.oldestWaiting with
  | none =>
    have hnone := List.findSome?_eq_none_iff.mp hm key (by simp [hkey, hdue])
    rw [hn] at hnone
    cases hnone
  | some m => exact ⟨m, rfl, (oldestWaiting_spec hm).2 key hkey hdue n hn⟩

theorem mem_releasedTimes :
    m ∈ q.releasedTimes ↔ ∃ key, q.due[key]? = some m ∧ (key ∈ q.available ∨ key ∈ q.claims) := by
  simp only [releasedTimes, List.mem_map, List.mem_filter, decide_eq_true_eq, Prod.exists,
    Std.ExtTreeMap.mem_toList_iff_getElem?_eq_some]
  constructor
  · rintro ⟨key, millis, ⟨hdue, hin⟩, rfl⟩
    exact ⟨key, hdue, hin⟩
  · rintro ⟨key, hdue, hin⟩
    exact ⟨key, m, ⟨hdue, hin⟩, rfl⟩

theorem mem_claimedTimes :
    m ∈ q.claimedTimes ↔ ∃ key ∈ q.claims, key ∉ q.due ∧ keyMillis key = some m := by
  simp [claimedTimes, and_assoc]

/-- Every time the age is taken from is one that some unacknowledged key has been waiting since. -/
theorem candidateTimes_subset (h : m ∈ q.candidateTimes) :
    m ∈ (ascending q.unacknowledged).filterMap q.waitingSince := by
  simp only [List.mem_filterMap, mem_ascending, mem_unacknowledged]
  rcases q.mem_candidateTimes.mp h with h | h | h
  · obtain ⟨key, hkey, hdue, hm⟩ := (oldestWaiting_spec h).1
    exact ⟨key, Or.inl hkey, (waitingSince_minted hdue).trans hm⟩
  · obtain ⟨key, hdue, hin⟩ := mem_releasedTimes.mp (List.min?_mem h)
    exact ⟨key, hin, waitingSince_due hdue⟩
  · obtain ⟨key, hkey, hdue, hm⟩ := mem_claimedTimes.mp (List.min?_mem h)
    exact ⟨key, Or.inr hkey, (waitingSince_minted hdue).trans hm⟩

/-- No unacknowledged key has been waiting longer than the age is taken from. -/
theorem candidateTimes_below {n : Nat}
    (h : n ∈ (ascending q.unacknowledged).filterMap q.waitingSince) :
    ∃ m ∈ q.candidateTimes, m ≤ n := by
  simp only [List.mem_filterMap, mem_ascending, mem_unacknowledged] at h
  obtain ⟨key, hin, hn⟩ := h
  cases hdue : q.due[key]? with
  | some millis =>
    rw [waitingSince_due hdue] at hn
    cases hn
    obtain ⟨m, hm, hle⟩ := exists_min? (mem_releasedTimes.mpr ⟨key, hdue, hin⟩)
    exact ⟨m, q.mem_candidateTimes.mpr (Or.inr (Or.inl hm)), hle⟩
  | none =>
    have hout : key ∉ q.due := by
      intro hmem
      rw [Std.ExtTreeMap.mem_iff_isSome_getElem?, hdue] at hmem
      cases hmem
    rw [waitingSince_minted hout] at hn
    rcases hin with hin | hin
    · obtain ⟨m, hm, hle⟩ := oldestWaiting_isSome hin hout hn
      exact ⟨m, q.mem_candidateTimes.mpr (Or.inl hm), hle⟩
    · obtain ⟨m, hm, hle⟩ := exists_min? (mem_claimedTimes.mpr ⟨key, hin, hout, hn⟩)
      exact ⟨m, q.mem_candidateTimes.mpr (Or.inr (Or.inr hm)), hle⟩

/-- The age that is reported is the naive one. -/
theorem oldestUnacknowledgedSeconds_eq (q : QueueState) (nowMillis : Nat) :
    q.oldestUnacknowledgedSeconds nowMillis = q.naiveOldestSeconds nowMillis := by
  have hmin := min?_eq_of_below (fun _ => candidateTimes_subset (q := q)) fun _ =>
    candidateTimes_below
  rw [naiveOldestSeconds, ← hmin]
  rfl

end QueueState

end RustyPick
