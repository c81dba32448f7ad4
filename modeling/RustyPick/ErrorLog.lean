import RustyPick.Record
import RustyPick.Sequence

/-!
# RustyPick.ErrorLog

The error log (`log_error` in `db/engine/mod.rs`): each entry is a record of `$LOGS` under a key
that begins with its time, and the keys that sort first are trimmed.

Every part of the time is padded to its width but the microseconds, so within one second the text
order need not be the order of time.

* `key_lt_iff`: where it is.
* `newest_iff`: the log holds the newest entries after every call, exactly where the oldest entry
  that is trimmed sorts before the newer ones of its second.
-/

namespace RustyPick

open Lib

namespace ErrorLog

/-- What `OffsetDateTime::now_utc` gives. -/
structure DateTime where
  year : Nat
  month : Nat
  day : Nat
  hour : Nat
  minute : Nat
  second : Nat
  microsecond : Nat
  year_lt : year < 10000 := by decide
  month_lt : month ≤ 12 := by decide
  day_lt : day ≤ 31 := by decide
  hour_lt : hour < 24 := by decide
  minute_lt : minute < 60 := by decide
  second_lt : second < 60 := by decide
  microsecond_lt : microsecond < 1000000 := by decide

namespace DateTime

/-- The time to the second. -/
def clock (t : DateTime) : List Nat := [t.year, t.month, t.day, t.hour, t.minute, t.second]

/-- The order of time. -/
def Before (a b : DateTime) : Prop :=
  a.clock < b.clock ∨ a.clock = b.clock ∧ a.microsecond < b.microsecond

/-- `date_str`, `time_str` and the separators after them. -/
def stamp (t : DateTime) : List Char :=
  padDigits 4 t.year ++ (padDigits 2 t.month ++ (padDigits 2 t.day ++ ('*' ::
    (padDigits 2 t.hour ++ (padDigits 2 t.minute ++ (padDigits 2 t.second ++ ['*']))))))

end DateTime

/-- The settings of the log, and how a time is shown. -/
structure Settings where
  logDetail : String
  maxLogRecords : Nat
  display : DateTime → String

/-- One call of `log_error`, and the time at which it is made. -/
structure Call where
  time : DateTime
  account : String
  message : String

def Call.key (c : Call) : String :=
  String.ofList (c.time.stamp ++
    ((toString c.time.microsecond).toList ++ '*' :: c.account.toList))

def Call.record (cfg : Settings) (c : Call) : Record where
  fields := [{ values := [Value.text c.message] },
    if cfg.logDetail = "detailed" then
      { values := [Value.text ("UTC: " ++ cfg.display c.time)] }
    else {}]

/-- The loop that trims. The keys come in their order. -/
def trimLoop (max : Nat) : List String → Map String Record → Map String Record
  | [], log => log
  | oldest :: keys, log =>
    if max < (oldest :: keys).length then trimLoop max keys (log.erase oldest) else log

/-- `log_error`, as far as `$LOGS` goes. -/
def logError (cfg : Settings) (log : Map String Record) (c : Call) : Map String Record :=
  let log := log.insert c.key (c.record cfg)
  if cfg.maxLogRecords < log.size then trimLoop cfg.maxLogRecords log.keys log else log

def logAfter (cfg : Settings) (calls : List Call) : Map String Record :=
  calls.foldl (logError cfg) ∅

/-! ## Text order and the order of time -/

section

variable {r r' : List Char}

theorem pad_lt {w m n : Nat} (h : m < n) (hn : n < 10 ^ w) :
    padDigits w m ++ r < padDigits w n ++ r' :=
  append_lt_append_of_length (padDigits_lt w h hn)
    ((length_padDigits w m).trans (length_padDigits w n).symm)

theorem star_lt (h : r < r') : '*' :: r < '*' :: r' := List.cons_lt_cons_iff.mpr (Or.inr ⟨rfl, h⟩)

theorem append_lt_iff : ∀ l : List Char, l ++ r < l ++ r' ↔ r < r' := by
  intro l
  induction l with
  | nil => exact Iff.rfl
  | cons c l ih =>
    rw [List.cons_append, List.cons_append, List.cons_lt_cons_iff, ih]
    simp only [lt_irrefl, false_or, true_and]

/-- A digit sorts after the separator, so a number that goes on sorts after one that ends. -/
theorem digits_lt_iff : ∀ {x y : List Char}, x ≠ y → (∀ c ∈ x, c.isDigit) → (∀ c ∈ y, c.isDigit) →
    (x ++ '*' :: r < y ++ '*' :: r' ↔ x < y) := by
  have hstar : ∀ c : Char, c.isDigit = true → '*' < c := by
    intro c hc
    rw [Char.isDigit, Bool.and_eq_true, decide_eq_true_eq] at hc
    exact lt_of_lt_of_le (by simp) hc.1
  intro x
  induction x with
  | nil =>
    intro y hne _ hy
    cases y with
    | nil => exact absurd rfl hne
    | cons d y =>
      have hd := hstar d (hy d List.mem_cons_self)
      simp [List.cons_lt_cons_iff, hd]
  | cons c x ih =>
    intro y hne hx hy
    have hc := hstar c (hx c List.mem_cons_self)
    cases y with
    | nil => simp [List.cons_lt_cons_iff, hc.not_gt, hc.ne']
    | cons d y =>
      rw [List.cons_append, List.cons_append, List.cons_lt_cons_iff, List.cons_lt_cons_iff]
      by_cases hcd : c = d
      · subst hcd
        rw [ih (fun h => hne (h ▸ rfl)) (fun e he => hx e (List.mem_cons_of_mem c he))
          (fun e he => hy e (List.mem_cons_of_mem c he))]
      · simp only [hcd, false_and]

end

namespace DateTime

variable {a b : DateTime}

theorem stamp_eq (h : a.clock = b.clock) : a.stamp = b.stamp := by
  simp only [clock, List.cons.injEq, and_true] at h
  obtain ⟨hy, hmo, hd, hh, hmi, hs⟩ := h
  rw [stamp, stamp, hy, hmo, hd, hh, hmi, hs]

theorem stamp_lt (h : a.clock < b.clock) (r r' : List Char) : a.stamp ++ r < b.stamp ++ r' := by
  have hmonth := b.month_lt
  have hday := b.day_lt
  have hhour := b.hour_lt
  have hminute := b.minute_lt
  have hsecond := b.second_lt
  simp only [clock, List.cons_lt_cons_iff, List.not_lt_nil, and_false, or_false] at h
  simp only [stamp, List.append_assoc, List.cons_append]
  rcases h with h | ⟨hy, h⟩
  · exact pad_lt h b.year_lt
  rw [hy]
  apply List.append_left_lt
  rcases h with h | ⟨hmo, h⟩
  · exact pad_lt h (by omega)
  rw [hmo]
  apply List.append_left_lt
  rcases h with h | ⟨hd, h⟩
  · exact pad_lt h (by omega)
  rw [hd]
  apply List.append_left_lt
  apply star_lt
  rcases h with h | ⟨hh, h⟩
  · exact pad_lt h (by omega)
  rw [hh]
  apply List.append_left_lt
  rcases h with h | ⟨hmi, h⟩
  · exact pad_lt h (by omega)
  rw [hmi]
  apply List.append_left_lt
  exact pad_lt h (by omega)

/-- Where the two fall into one second, the earlier microsecond is the lesser text. -/
def Sorts (a b : DateTime) : Prop :=
  a.clock = b.clock → toString a.microsecond < toString b.microsecond

end DateTime

theorem digits_isDigit (n : Nat) : ∀ c ∈ (toString n).toList, c.isDigit := by
  intro c hc
  have hl : (toString n).toList = Nat.toDigits 10 n := Nat.toList_repr
  rw [hl] at hc
  exact Nat.isDigit_of_mem_toDigits (by omega) (by omega) hc

variable {a b : Call}

theorem digits_injective {m n : Nat} (h : toString m = toString n) : m = n := by
  have hdigits : Nat.toDigits 10 m = Nat.toDigits 10 n := by
    have hl := congrArg String.toList h
    rwa [show (toString m).toList = Nat.toDigits 10 m from Nat.toList_repr,
      show (toString n).toList = Nat.toDigits 10 n from Nat.toList_repr] at hl
  have hback := congrArg (fun cs => Nat.ofDigitChars 10 cs 0) hdigits
  simpa only [Nat.ofDigitChars_toDigits (b := 10) (by omega) (by omega)] using hback

/-- Within one second the order of the keys is that of the microseconds as text. -/
theorem key_lt_of_clock (hclock : a.time.clock = b.time.clock)
    (hne : a.time.microsecond ≠ b.time.microsecond) :
    a.key < b.key ↔ toString a.time.microsecond < toString b.time.microsecond := by
  rw [String.lt_iff, Call.key, Call.key, String.toList_ofList, String.toList_ofList,
    DateTime.stamp_eq hclock, append_lt_iff,
    digits_lt_iff (fun h => hne (digits_injective (String.toList_inj.mp h)))
      (digits_isDigit _) (digits_isDigit _), String.lt_iff]

theorem key_lt_iff (h : a.time.Before b.time) : a.key < b.key ↔ a.time.Sorts b.time := by
  rw [DateTime.Sorts]
  rcases h with hclock | ⟨hclock, hmicro⟩
  · have hne : a.time.clock ≠ b.time.clock := fun heq => by
      rw [heq] at hclock
      exact lt_irrefl _ hclock
    simp only [hne, false_imp_iff, iff_true]
    rw [String.lt_iff, Call.key, Call.key, String.toList_ofList, String.toList_ofList]
    exact DateTime.stamp_lt hclock _ _
  · simp only [hclock, true_imp_iff]
    exact key_lt_of_clock hclock hmicro.ne

/-- Two entries are never under one key. -/
theorem key_ne (h : a.time.Before b.time) : a.key ≠ b.key := by
  intro heq
  have hab : ¬a.key < b.key := fun hlt => (heq ▸ hlt).false
  have hba : ¬b.key < a.key := fun hlt => (heq ▸ hlt).false
  rw [key_lt_iff h] at hab
  rcases h with hclock | ⟨hclock, hmicro⟩
  · exact hab fun hsame => absurd hclock (hsame ▸ lt_irrefl _)
  · rw [DateTime.Sorts] at hab
    rw [key_lt_of_clock hclock.symm hmicro.ne'] at hba
    push Not at hab
    rcases lt_trichotomy (toString a.time.microsecond) (toString b.time.microsecond) with
      hlt | he | hlt
    · exact absurd hlt (not_lt.mpr hab.2)
    · exact hmicro.ne (digits_injective he)
    · exact hba hlt

/-! ## Trimming -/

/-- The log of these calls and no others. -/
def contents (cfg : Settings) (calls : List Call) : Map String Record :=
  calls.foldl (fun log c => log.insert c.key (c.record cfg)) ∅

/-- The newest entries, as many as there may be. -/
def newest (cfg : Settings) (calls : List Call) : List Call :=
  calls.drop (calls.length - cfg.maxLogRecords)

/-- What the log is to hold after these calls. -/
structure HoldsNewest (cfg : Settings) (calls : List Call) : Prop where
  entries : logAfter cfg calls = contents cfg (newest cfg calls)
  count : (logAfter cfg calls).size = min calls.length cfg.maxLogRecords

variable {cfg : Settings} {calls : List Call}

theorem mem_contents {key : String} : key ∈ contents cfg calls ↔ ∃ c ∈ calls, c.key = key := by
  induction calls using List.reverseRecOn with
  | nil => simp [contents]
  | append_singleton calls c ih =>
    rw [contents, List.foldl_append, ← contents]
    simp only [List.foldl_cons, List.foldl_nil, Std.ExtTreeMap.mem_insert, Std.compare_eq_iff_eq, ih,
      List.mem_append, List.mem_singleton]
    constructor
    · rintro (rfl | ⟨d, hd, rfl⟩)
      · exact ⟨c, Or.inr rfl, rfl⟩
      · exact ⟨d, Or.inl hd, rfl⟩
    · rintro ⟨d, hd | rfl, rfl⟩
      · exact Or.inr ⟨d, hd, rfl⟩
      · exact Or.inl rfl

theorem contents_concat (c : Call) :
    contents cfg (calls ++ [c]) = (contents cfg calls).insert c.key (c.record cfg) := by
  rw [contents, List.foldl_append]
  rfl

/-- One after the other in time. -/
def InOrder (calls : List Call) : Prop := calls.Pairwise fun a b => a.time.Before b.time

theorem size_contents (h : InOrder calls) : (contents cfg calls).size = calls.length := by
  induction calls using List.reverseRecOn with
  | nil => rfl
  | append_singleton calls c ih =>
    obtain ⟨hcalls, -, hnew⟩ := List.pairwise_append.mp h
    have hnot : c.key ∉ contents cfg calls := by
      rw [mem_contents]
      rintro ⟨d, hd, hkey⟩
      exact key_ne (hnew d hd c (List.mem_singleton_self c)) hkey
    rw [contents_concat, Std.ExtTreeMap.size_insert,
      if_neg fun hc => hnot (Std.ExtTreeMap.contains_iff_mem.mp hc), ih hcalls, List.length_append,
      List.length_singleton]

/-- Without its oldest entry the log is that of the others. -/
theorem erase_contents {oldest : Call} (h : InOrder (oldest :: calls)) :
    (contents cfg (oldest :: calls)).erase oldest.key = contents cfg calls := by
  induction calls using List.reverseRecOn with
  | nil =>
    apply Std.ExtTreeMap.ext_getElem?
    intro k
    rw [getElem?_erase_eq, contents, List.foldl_cons, List.foldl_nil, getElem?_insert_eq]
    split <;> rfl
  | append_singleton calls c ih =>
    rw [← List.cons_append] at h ⊢
    obtain ⟨hcalls, -, hnew⟩ := List.pairwise_append.mp h
    have hne : c.key ≠ oldest.key :=
      (key_ne (hnew oldest List.mem_cons_self c (List.mem_singleton_self c))).symm
    rw [contents_concat, contents_concat, ← ih hcalls]
    apply Std.ExtTreeMap.ext_getElem?
    intro k
    rw [getElem?_erase_eq, getElem?_insert_eq, getElem?_insert_eq, getElem?_erase_eq]
    by_cases hk : c.key = k
    · rw [if_pos hk, if_pos hk, if_neg fun ho => hne (hk.trans ho.symm)]
    · rw [if_neg hk, if_neg hk]

/-- With one entry too many, the key that sorts first goes. -/
theorem trimLoop_one {max : Nat} {log : Map String Record} (h : log.size = max + 1) :
    ∃ first ∈ log, (∀ k ∈ log, k ≠ first → first < k) ∧
      trimLoop max log.keys log = log.erase first := by
  have hlen : log.keys.length = max + 1 := Std.ExtTreeMap.length_keys.trans h
  have hsorted := Std.ExtTreeMap.ordered_keys (t := log)
  cases hkeys : log.keys with
  | nil =>
    rw [hkeys, List.length_nil] at hlen
    omega
  | cons first keys =>
    rw [hkeys, List.length_cons] at hlen
    rw [hkeys] at hsorted
    refine ⟨first, Std.ExtTreeMap.mem_keys.mp (hkeys ▸ List.mem_cons_self), ?_, ?_⟩
    · intro k hk hne
      have hmem : k ∈ first :: keys := hkeys ▸ Std.ExtTreeMap.mem_keys.mpr hk
      have hk' := (List.mem_cons.mp hmem).resolve_left hne
      exact compare_lt_iff_lt.mp ((List.pairwise_cons.mp hsorted).1 k hk')
    · rw [trimLoop, if_pos (by rw [List.length_cons]; omega)]
      cases keys with
      | nil => rfl
      | cons second keys => rw [trimLoop, if_neg (by omega)]

/-- One call on a full log keeps the newest entries, exactly where the oldest key sorts first. -/
theorem logError_full {oldest new : Call} {win : List Call} (h : InOrder (oldest :: (win ++ [new])))
    (hlen : win.length + 1 = cfg.maxLogRecords) :
    logError cfg (contents cfg (oldest :: win)) new = contents cfg (win ++ [new]) ↔
      ∀ b ∈ win ++ [new], oldest.time.Sorts b.time := by
  have hlog : (contents cfg (oldest :: win)).insert new.key (new.record cfg) =
      contents cfg (oldest :: (win ++ [new])) := (contents_concat new).symm
  have hsize : (contents cfg (oldest :: (win ++ [new]))).size = cfg.maxLogRecords + 1 := by
    rw [size_contents h, List.length_cons, List.length_append, List.length_singleton, hlen]
  obtain ⟨first, hfirst, hleast, htrim⟩ := trimLoop_one hsize
  obtain ⟨hbefore, hrest⟩ := List.pairwise_cons.mp h
  have hmem : oldest.key ∈ contents cfg (oldest :: (win ++ [new])) :=
    mem_contents.mpr ⟨oldest, List.mem_cons_self, rfl⟩
  rw [logError, hlog, if_pos (by rw [hsize]; exact Nat.lt_succ_self _), htrim]
  constructor
  · intro heq b hb
    have hgone : oldest.key ∉ contents cfg (win ++ [new]) := by
      rw [mem_contents]
      rintro ⟨c, hc, hkey⟩
      exact key_ne (hbefore c hc) hkey.symm
    have hold : oldest.key = first := by
      by_contra hne
      rw [← heq, Std.ExtTreeMap.mem_erase] at hgone
      exact hgone ⟨fun hc => hne (Std.compare_eq_iff_eq.mp hc).symm, hmem⟩
    have hkey := hleast b.key (mem_contents.mpr ⟨b, List.mem_cons_of_mem _ hb, rfl⟩)
      (hold ▸ (key_ne (hbefore b hb)).symm)
    exact (key_lt_iff (hbefore b hb)).mp (hold ▸ hkey)
  · intro hsorts
    have hold : first = oldest.key := by
      obtain ⟨c, hc, rfl⟩ := mem_contents.mp hfirst
      rcases List.mem_cons.mp hc with rfl | hc
      · rfl
      · by_contra hne
        have hlt := (key_lt_iff (hbefore c hc)).mpr (hsorts c hc)
        exact (hlt.trans (hleast oldest.key hmem fun heq => hne heq.symm)).false
    rw [hold, erase_contents h]

theorem logError_room {new : Call} (h : InOrder (calls ++ [new]))
    (hlen : calls.length < cfg.maxLogRecords) :
    logError cfg (contents cfg calls) new = contents cfg (calls ++ [new]) := by
  have hlog : (contents cfg calls).insert new.key (new.record cfg) =
      contents cfg (calls ++ [new]) := (contents_concat new).symm
  rw [logError, hlog, if_neg]
  rw [size_contents h, List.length_append, List.length_singleton]
  omega

/-! ## Whole runs -/

theorem length_newest (cfg : Settings) (calls : List Call) :
    (newest cfg calls).length = min calls.length cfg.maxLogRecords := by
  rw [newest, List.length_drop]
  omega

theorem holdsNewest_iff (h : InOrder calls) :
    HoldsNewest cfg calls ↔ logAfter cfg calls = contents cfg (newest cfg calls) := by
  constructor
  · exact HoldsNewest.entries
  · intro heq
    have hnewest : InOrder (newest cfg calls) := h.sublist (List.drop_sublist _ _)
    exact ⟨heq, by rw [heq, size_contents hnewest, length_newest]⟩

theorem logAfter_concat (c : Call) :
    logAfter cfg (calls ++ [c]) = logError cfg (logAfter cfg calls) c := by
  rw [logAfter, List.foldl_append]
  rfl

/-- What one call more preserves. -/
theorem holdsNewest_concat (hmax : 1 ≤ cfg.maxLogRecords) {new : Call}
    (h : InOrder (calls ++ [new])) (hcalls : HoldsNewest cfg calls) :
    HoldsNewest cfg (calls ++ [new]) ↔
      ∀ oldest newer, (oldest :: newer) <:+ calls ++ [new] → newer.length = cfg.maxLogRecords →
        ∀ b ∈ newer, oldest.time.Sorts b.time := by
  rw [holdsNewest_iff h, logAfter_concat, hcalls.entries]
  by_cases hroom : calls.length < cfg.maxLogRecords
  · have hall : newest cfg calls = calls := by
      rw [newest, Nat.sub_eq_zero_of_le hroom.le, List.drop_zero]
    have hall' : newest cfg (calls ++ [new]) = calls ++ [new] := by
      rw [newest, List.length_append, List.length_singleton, Nat.sub_eq_zero_of_le hroom,
        List.drop_zero]
    rw [hall, hall']
    refine iff_of_true (logError_room h hroom) ?_
    intro oldest newer hsuffix hlen
    have hle := hsuffix.length_le
    rw [List.length_cons, List.length_append, List.length_singleton] at hle
    omega
  · -- the newest of the calls before are the oldest entry and a window
    obtain ⟨oldest, win, hwin⟩ : ∃ oldest win, newest cfg calls = oldest :: win := by
      apply List.exists_cons_of_length_pos
      rw [length_newest]
      omega
    have hlen : win.length + 1 = cfg.maxLogRecords := by
      have hl := length_newest cfg calls
      rw [hwin, List.length_cons] at hl
      omega
    have hsplit : calls = calls.take (calls.length - cfg.maxLogRecords) ++ oldest :: win := by
      rw [← hwin, newest, List.take_append_drop]
    have hsuffix : oldest :: (win ++ [new]) <:+ calls ++ [new] := by
      refine ⟨calls.take (calls.length - cfg.maxLogRecords), ?_⟩
      rw [← List.cons_append, ← List.append_assoc, ← hsplit]
    have hnew : newest cfg (calls ++ [new]) = win ++ [new] := by
      have hd : (win ++ [new]) <:+ calls ++ [new] := (List.suffix_cons _ _).trans hsuffix
      rw [List.suffix_iff_eq_drop.mp hd, newest]
      congr 1
      simp only [List.length_append, List.length_singleton]
      omega
    rw [hwin, hnew, logError_full (h.sublist hsuffix.sublist) hlen]
    constructor
    · intro hsorts o newer ho hn
      have heq : o :: newer = oldest :: (win ++ [new]) := by
        apply (List.suffix_of_suffix_length_le ho hsuffix _).eq_of_length
        · simp only [List.length_cons, List.length_append, List.length_nil]
          omega
        · simp only [List.length_cons, List.length_append, List.length_nil]
          omega
      rw [List.cons.injEq] at heq
      obtain ⟨rfl, rfl⟩ := heq
      exact hsorts
    · intro hall
      apply hall oldest (win ++ [new]) hsuffix
      rw [List.length_append, List.length_singleton, hlen]

/-- The log holds the newest entries after each of the calls, exactly where every entry that is
trimmed sorts before the newer ones of its second. -/
theorem newest_iff (cfg : Settings) (calls : List Call) (hmax : 1 ≤ cfg.maxLogRecords)
    (h : InOrder calls) :
    (∀ seen, seen <+: calls → HoldsNewest cfg seen) ↔
      ∀ oldest newer, (oldest :: newer) <:+: calls → newer.length = cfg.maxLogRecords →
        ∀ b ∈ newer, oldest.time.Sorts b.time := by
  induction calls using List.reverseRecOn with
  | nil =>
    constructor
    · intro _ oldest newer hwithin
      exact absurd (List.infix_nil.mp hwithin) (List.cons_ne_nil _ _)
    · intro _ seen hseen
      rw [List.prefix_nil.mp hseen]
      exact (holdsNewest_iff h).mpr (by rw [newest, List.drop_nil]; rfl)
  | append_singleton calls new ih =>
    have ih := ih (h.sublist (List.sublist_append_left _ _))
    constructor
    · intro hholds oldest newer hwithin
      have hbefore : ∀ seen, seen <+: calls → HoldsNewest cfg seen := fun seen hseen =>
        hholds seen (hseen.trans (List.prefix_append calls [new]))
      rcases List.infix_concat_iff.mp hwithin with hsuffix | hwithin
      · exact (holdsNewest_concat hmax h (hbefore calls (List.prefix_refl _))).mp
          (hholds _ (List.prefix_refl _)) oldest newer hsuffix
      · exact ih.mp hbefore oldest newer hwithin
    · intro hsorts seen hseen
      have hbefore := ih.mpr fun oldest newer hwithin =>
        hsorts oldest newer (hwithin.trans (List.infix_append [] calls [new]))
      rcases List.prefix_concat_iff.mp hseen with rfl | hseen
      · exact (holdsNewest_concat hmax h (hbefore calls (List.prefix_refl _))).mpr
          fun oldest newer hsuffix => hsorts oldest newer hsuffix.isInfix
      · exact hbefore seen hseen

section

def oneRecord : Settings where
  logDetail := "basic"
  maxLogRecords := 1
  display _ := ""

/-- The first second of the year 2026. -/
def started (microsecond : Nat) (h : microsecond < 1000000) : DateTime where
  year := 2026
  month := 1
  day := 1
  hour := 0
  minute := 0
  second := 0
  microsecond := microsecond
  microsecond_lt := h

def tenth : Call where
  time := started 10 (by decide)
  account := "MAIN"
  message := "disk full"

def eleventh : Call where
  time := started 11 (by decide)
  account := "MAIN"
  message := "disk full"

theorem eleventh_held : HoldsNewest oneRecord [tenth, eleventh] := by
  have hbefore : tenth.time.Before eleventh.time := Or.inr ⟨rfl, by decide⟩
  have horder : InOrder [tenth, eleventh] := List.pairwise_pair.mpr hbefore
  apply (newest_iff oneRecord [tenth, eleventh] (by decide) horder).mpr _ _ (List.prefix_refl _)
  intro oldest newer hwithin hlen b hb
  have hall : oldest :: newer = [tenth, eleventh] := by
    apply hwithin.eq_of_length
    rw [List.length_cons, hlen]
    rfl
  obtain ⟨rfl, rfl⟩ := List.cons.inj hall
  rw [List.mem_singleton.mp hb]
  exact fun _ => by decide

def ninth : Call where
  time := started 9 (by decide)
  account := "MAIN"
  message := "disk full"

/-- The entry just made is the one that goes. -/
theorem newest_trimmed :
    1 ≤ oneRecord.maxLogRecords ∧ InOrder [ninth, tenth] ∧ ¬HoldsNewest oneRecord [ninth, tenth] := by
  have hbefore : ninth.time.Before tenth.time := Or.inr ⟨rfl, by decide⟩
  have horder : InOrder [ninth, tenth] := List.pairwise_pair.mpr hbefore
  have hfirst : HoldsNewest oneRecord [ninth] := by
    have hone : InOrder ([] ++ [ninth]) := List.pairwise_singleton _ _
    have hroom : logError oneRecord (contents oneRecord []) ninth =
        contents oneRecord ([] ++ [ninth]) := logError_room hone (by decide)
    exact (holdsNewest_iff hone).mpr hroom
  refine ⟨by decide, horder, fun hholds => ?_⟩
  have hsorts := (holdsNewest_concat (by decide) horder hfirst).mp hholds ninth [tenth]
    (List.suffix_refl _) rfl tenth (List.mem_singleton_self _)
  exact absurd (hsorts rfl) (by decide)

end

end ErrorLog

end RustyPick
