import Mathlib.Tactic

/-!
# Lib.Feed

A stream as reads see it: it arrives in pieces, and one read gives out some of what is left of the
first piece. What a reader makes of a stream is to depend on its content alone.

* `read_spec`: one read takes a part of the content off the front, or finds the end.
* `take_spec`: so a loop over reads takes exactly as much as it is asked for, or all there is.
* `Reading.run_spec`: and a reader that is not known, given no more than a bound, takes a part off
  the front too.
* `Reading.ended_run`: a reader that is told there is no more has been given all there was.
* `Reading.run_hear`: what it was given can be told, and nothing else changes.
-/

namespace Lib

/-- What is still to arrive: the pieces, and then the end of the stream or a failure. -/
structure Feed (α ε : Type) where
  pieces : List (List α)
  failure : Option ε := none

/-- Why a read that needs more finds nothing. -/
inductive Short (ε : Type) where
  | ended
  | failed (e : ε)
  deriving DecidableEq, Repr

namespace Feed

variable {α ε : Type}

def content (s : Feed α ε) : List α := s.pieces.flatten

/-- What stands at the end. -/
def short (s : Feed α ε) : Short ε :=
  match s.failure with
  | none => .ended
  | some e => .failed e

/-- One read of at most `want` items. An empty piece is not seen. -/
def readPieces (want : Nat) : List (List α) → List α × List (List α)
  | [] => ([], [])
  | [] :: rest => readPieces want rest
  | (a :: piece) :: rest => ((a :: piece).take want, (a :: piece).drop want :: rest)

/-- One read: some items, or none at the end of the stream, or the failure there. -/
def read (s : Feed α ε) (want : Nat) : Except ε (List α) × Feed α ε :=
  match readPieces want s.pieces, s.failure with
  | ([], []), some e => (.error e, { s with pieces := [] })
  | (got, rest), _ => (.ok got, { s with pieces := rest })

theorem readPieces_append (want : Nat) (pieces : List (List α)) :
    (readPieces want pieces).1 ++ (readPieces want pieces).2.flatten = pieces.flatten ∧
      (readPieces want pieces).1.length ≤ want := by
  induction pieces with
  | nil => exact ⟨rfl, Nat.zero_le _⟩
  | cons piece rest ih =>
    cases piece with
    | nil => exact ih
    | cons a piece =>
      refine ⟨?_, List.length_take_le _ _⟩
      simp [readPieces, ← List.append_assoc]

theorem readPieces_eq_nil {want : Nat} (hwant : 0 < want) (pieces : List (List α))
    (h : (readPieces want pieces).1 = []) : pieces.flatten = [] ∧ (readPieces want pieces).2 = [] := by
  induction pieces with
  | nil => exact ⟨rfl, rfl⟩
  | cons piece rest ih =>
    cases piece with
    | nil => exact ih h
    | cons a piece =>
      obtain ⟨n, rfl⟩ := Nat.exists_eq_succ_of_ne_zero hwant.ne'
      simp [readPieces] at h

/-- What a read gives out comes off the front, and the rest stays. -/
theorem read_append (s : Feed α ε) (want : Nat) :
    ∃ got, got.length ≤ want ∧ s.content = got ++ (s.read want).2.content ∧
      (s.read want).2.failure = s.failure ∧
      ((s.read want).1 = .ok got ∨ ∃ e, (s.read want).1 = .error e ∧ got = []) := by
  obtain ⟨happend, hle⟩ := readPieces_append want s.pieces
  unfold read
  generalize readPieces want s.pieces = r at happend hle
  obtain ⟨got, rest⟩ := r
  refine ⟨got, hle, ?_⟩
  split
  · rename_i e hr hf
    cases hr
    exact ⟨happend.symm, rfl, Or.inr ⟨e, rfl, rfl⟩⟩
  · rename_i hr _
    cases hr
    exact ⟨happend.symm, rfl, Or.inl rfl⟩

/-- A read for at least one item gives some of the content, or finds there is none left. -/
theorem read_spec (s : Feed α ε) {want : Nat} (hwant : 0 < want) :
    (s.content = [] ∧ (s.read want).2.content = [] ∧ (s.read want).2.failure = s.failure ∧
      ((s.read want).1 = .ok [] ∧ s.short = .ended ∨
        ∃ e, (s.read want).1 = .error e ∧ s.short = .failed e)) ∨
    ∃ got s', s.read want = (.ok got, s') ∧ got ≠ [] ∧ got.length ≤ want ∧
      s.content = got ++ s'.content ∧ s'.failure = s.failure := by
  obtain ⟨happend, hle⟩ := readPieces_append want s.pieces
  have hnil := readPieces_eq_nil hwant s.pieces
  unfold read short
  generalize readPieces want s.pieces = r at happend hle hnil
  obtain ⟨got, rest⟩ := r
  cases got with
  | nil =>
    obtain ⟨hcontent, hrest⟩ := hnil rfl
    dsimp only at hrest
    subst hrest
    refine Or.inl ⟨hcontent, ?_⟩
    cases s.failure with
    | none => exact ⟨rfl, rfl, Or.inl ⟨rfl, rfl⟩⟩
    | some e => exact ⟨rfl, rfl, Or.inr ⟨e, rfl, rfl⟩⟩
  | cons a got =>
    exact Or.inr ⟨a :: got, { s with pieces := rest }, rfl, List.cons_ne_nil _ _, hle,
      happend.symm, rfl⟩

/-- Reads of at most `cap` items each, until there are `want`: why it stopped short, if it did, and
what was taken. Every read that goes on takes at least one item, so `want` of them are enough. -/
def takeLoop (cap : Nat) : Nat → Nat → Feed α ε → Option (Short ε) × List α × Feed α ε
  | _, 0, s => (none, [], s)
  | 0, _ + 1, s => (some s.short, [], s)
  | fuel + 1, want + 1, s =>
    match s.read (min cap (want + 1)) with
    | (.error e, s) => (some (.failed e), [], s)
    | (.ok [], s) => (some .ended, [], s)
    | (.ok got, s) =>
      let (stopped, rest, s) := takeLoop cap fuel (want + 1 - got.length) s
      (stopped, got ++ rest, s)

def take (s : Feed α ε) (cap want : Nat) : Option (Short ε) × List α × Feed α ε :=
  takeLoop cap want want s

/-- The reads it makes. -/
def readsLoop (cap : Nat) : Nat → Nat → Feed α ε → List (List α)
  | _, 0, _ => []
  | 0, _ + 1, _ => []
  | fuel + 1, want + 1, s =>
    match s.read (min cap (want + 1)) with
    | (.ok (a :: got), s) => (a :: got) :: readsLoop cap fuel (want + 1 - (a :: got).length) s
    | _ => []

def reads (s : Feed α ε) (cap want : Nat) : List (List α) := readsLoop cap want want s

/-- Where there is something to read and enough of it, there is a read. -/
theorem readsLoop_eq_nil {cap fuel want : Nat} (hcap : 0 < cap) (hfuel : want ≤ fuel)
    {s : Feed α ε} (hle : want ≤ s.content.length) (h : readsLoop cap fuel want s = []) :
    want = 0 := by
  cases want with
  | zero => rfl
  | succ want =>
    obtain ⟨fuel, rfl⟩ := Nat.exists_eq_succ_of_ne_zero (by omega : fuel ≠ 0)
    rcases s.read_spec (lt_min hcap (Nat.succ_pos want)) with ⟨hnone, -⟩ | ⟨got, s', hread, hne, -⟩
    · rw [hnone] at hle
      exact absurd hle (Nat.not_succ_le_zero want)
    · obtain ⟨a, got, rfl⟩ := List.exists_cons_of_ne_nil hne
      rw [readsLoop, hread] at h
      cases h

theorem takeLoop_spec {cap : Nat} (hcap : 0 < cap) : ∀ (fuel want : Nat) (s : Feed α ε),
    want ≤ fuel →
    (want ≤ s.content.length ∧ ∃ s', takeLoop cap fuel want s = (none, s.content.take want, s') ∧
      s'.content = s.content.drop want ∧ s'.failure = s.failure) ∨
    (s.content.length < want ∧ ∃ s', takeLoop cap fuel want s = (some s.short, s.content, s') ∧
      s'.content = [] ∧ s'.failure = s.failure) := by
  intro fuel
  induction fuel with
  | zero =>
    intro want s hle
    obtain rfl := Nat.le_zero.mp hle
    exact Or.inl ⟨Nat.zero_le _, s, rfl, rfl, rfl⟩
  | succ fuel ih =>
    intro want s hle
    cases want with
    | zero => exact Or.inl ⟨Nat.zero_le _, s, rfl, rfl, rfl⟩
    | succ want =>
      have hask : 0 < min cap (want + 1) := lt_min hcap (Nat.succ_pos want)
      rcases read_spec s hask with ⟨hnone, hc, hf, hend⟩ | ⟨got, s', hread, hne, hgot, hc, hf⟩
      · -- nothing is left
        refine Or.inr ⟨by simp [hnone], (s.read (min cap (want + 1))).2, ?_, hc, hf⟩
        rw [takeLoop, hnone]
        rcases hend with ⟨hread, hshort⟩ | ⟨e, hread, hshort⟩
        · rw [hshort, ← Prod.mk.eta (p := s.read _), hread]
        · rw [hshort, ← Prod.mk.eta (p := s.read _), hread]
      · obtain ⟨a, got, rfl⟩ := List.exists_cons_of_ne_nil hne
        have hgot : (a :: got).length ≤ want + 1 := hgot.trans (min_le_right _ _)
        have hlen : want + 1 - (a :: got).length ≤ fuel := by
          rw [List.length_cons]
          omega
        have htake : s.content.take (want + 1) =
            (a :: got) ++ s'.content.take (want + 1 - (a :: got).length) := by
          rw [hc, List.take_append, List.take_of_length_le hgot]
        have hdrop : s.content.drop (want + 1) =
            s'.content.drop (want + 1 - (a :: got).length) := by
          rw [hc, List.drop_append, List.drop_of_length_le hgot, List.nil_append]
        have hcl : s.content.length = (a :: got).length + s'.content.length := by
          rw [hc, List.length_append]
        rw [takeLoop, hread]
        dsimp only
        rcases ih _ s' hlen with ⟨hle', s'', hloop, hc', hf'⟩ | ⟨hlt, s'', hloop, hc', hf'⟩
        · refine Or.inl ⟨by omega, s'', ?_, ?_, hf'.trans hf⟩
          · rw [hloop, htake]
          · rw [hc', hdrop]
        · refine Or.inr ⟨by omega, s'', ?_, hc', hf'.trans hf⟩
          rw [hloop, hc]
          simp only [short, hf]

theorem take_spec (s : Feed α ε) {cap : Nat} (hcap : 0 < cap) (want : Nat) :
    (want ≤ s.content.length ∧ ∃ s', s.take cap want = (none, s.content.take want, s') ∧
      s'.content = s.content.drop want ∧ s'.failure = s.failure) ∨
    (s.content.length < want ∧ ∃ s', s.take cap want = (some s.short, s.content, s') ∧
      s'.content = [] ∧ s'.failure = s.failure) :=
  takeLoop_spec hcap want want s le_rfl

/-- Exactly `n` items, or none and the reason. -/
def readExact (s : Feed α ε) (n : Nat) : Except (Short ε) (List α) × Feed α ε :=
  match s.take n n with
  | (none, got, s) => (.ok got, s)
  | (some e, _, s) => (.error e, s)

theorem readExact_spec (s : Feed α ε) (n : Nat) :
    (n ≤ s.content.length ∧ ∃ s', s.readExact n = (.ok (s.content.take n), s') ∧
      s'.content = s.content.drop n ∧ s'.failure = s.failure) ∨
    (s.content.length < n ∧ ∃ s', s.readExact n = (.error s.short, s') ∧ s'.content = []) := by
  cases n with
  | zero => exact Or.inl ⟨Nat.zero_le _, s, rfl, rfl, rfl⟩
  | succ n =>
    rcases take_spec s (Nat.succ_pos n) (n + 1) with ⟨hle, s', h, hc, hf⟩ | ⟨hlt, s', h, hc, hf⟩
    · exact Or.inl ⟨hle, s', by rw [readExact, h], hc, hf⟩
    · exact Or.inr ⟨hlt, s', by rw [readExact, h], hc⟩

end Feed

/-! ## A reader that is not known -/

/-- A reader as the tree of its reads. -/
inductive Reading (α ε ρ : Type) where
  | done (result : ρ)
  | read (want : Nat) (next : Except ε (List α) → Reading α ε ρ)

namespace Reading

variable {α ε ρ : Type}

/-- A reader run over at most the next `left` items: its result, what it took, and how much of the
bound is left. -/
def run : Reading α ε ρ → Nat → Feed α ε → ρ × List α × Nat × Feed α ε
  | .done result, left, s => (result, [], left, s)
  | .read _ next, 0, s => (next (.ok [])).run 0 s
  | .read want next, left + 1, s =>
    match s.read (min want (left + 1)) with
    | (.error e, s) => (next (.error e)).run (left + 1) s
    | (.ok got, s) =>
      let (result, taken, left, s) := (next (.ok got)).run (left + 1 - got.length) s
      (result, got ++ taken, left, s)

theorem run_spec (r : Reading α ε ρ) : ∀ (left : Nat) (s : Feed α ε),
    s.content = (r.run left s).2.1 ++ (r.run left s).2.2.2.content ∧
      (r.run left s).2.1.length + (r.run left s).2.2.1 = left ∧
      (r.run left s).2.2.2.failure = s.failure := by
  induction r with
  | done result => intro left s; exact ⟨rfl, Nat.zero_add _, rfl⟩
  | read want next ih =>
    intro left s
    cases left with
    | zero => exact ih (.ok []) 0 s
    | succ left =>
      obtain ⟨got, hle, happend, hfailure, hread⟩ := s.read_append (min want (left + 1))
      generalize hr : s.read (min want (left + 1)) = r at happend hfailure hread
      obtain ⟨outcome, s'⟩ := r
      rw [run, hr]
      rcases hread with hread | ⟨e, hread, rfl⟩
      · dsimp only at hread
        subst hread
        obtain ⟨hc, hlen, hf⟩ := ih (.ok got) (left + 1 - got.length) s'
        have hgot : got.length ≤ left + 1 := hle.trans (min_le_right _ _)
        refine ⟨?_, ?_, hf.trans hfailure⟩
        · rw [happend, List.append_assoc, ← hc]
        · rw [List.length_append, Nat.add_assoc]
          exact (congrArg (got.length + ·) hlen).trans (Nat.add_sub_cancel' hgot)
      · dsimp only at hread
        subst hread
        obtain ⟨hc, hlen, hf⟩ := ih (.error e) (left + 1) s'
        exact ⟨happend.trans hc, hlen, hf.trans hfailure⟩

/-- Whether a read that asks for something is answered that there is no more. -/
def ended : Reading α ε ρ → Nat → Feed α ε → Bool
  | .done _, _, _ => false
  | .read want next, 0, s => decide (0 < want) || (next (.ok [])).ended 0 s
  | .read want next, left + 1, s =>
    match s.read (min want (left + 1)) with
    | (.error e, s) => (next (.error e)).ended (left + 1) s
    | (.ok got, s) =>
      decide (0 < want ∧ got = []) || (next (.ok got)).ended (left + 1 - got.length) s

theorem taken_of_nothing (r : Reading α ε ρ) {left : Nat} {s : Feed α ε}
    (h : left = 0 ∨ s.content = []) : (r.run left s).2.1 = s.content.take left := by
  obtain ⟨hc, hlen, -⟩ := r.run_spec left s
  rcases h with rfl | hnone
  · rw [List.take_zero]
    exact List.length_eq_zero_iff.mp (Nat.eq_zero_of_add_eq_zero_right hlen)
  · rw [hnone, List.take_nil]
    exact (List.append_eq_nil_iff.mp (hc.symm.trans hnone)).1

/-- Told that there is no more, it has been given all there was, as far as the bound. -/
theorem ended_run (r : Reading α ε ρ) : ∀ (left : Nat) (s : Feed α ε),
    r.ended left s = true → (r.run left s).2.1 = s.content.take left := by
  induction r with
  | done result => exact fun _ _ h => nomatch h
  | read want next ih =>
    intro left s h
    cases left with
    | zero => exact taken_of_nothing (.read want next) (.inl rfl)
    | succ left =>
      by_cases hnone : s.content = []
      · exact taken_of_nothing (.read want next) (.inr hnone)
      obtain ⟨got, hle, happend, -, hread⟩ := s.read_append (min want (left + 1))
      have hsome : 0 < want → (s.read (min want (left + 1))).1 = .ok got → got ≠ [] := by
        intro hwant hok
        have hask : 0 < min want (left + 1) := lt_min hwant (Nat.succ_pos left)
        rcases s.read_spec hask with ⟨hempty, -⟩ | ⟨got', s', hread', hne, -⟩
        · exact absurd hempty hnone
        · rw [hread'] at hok
          cases hok
          exact hne
      generalize hr : s.read (min want (left + 1)) = found at happend hread hsome
      obtain ⟨outcome, s'⟩ := found
      rw [ended, hr] at h
      rw [run, hr]
      rcases hread with hread | ⟨e, hread, rfl⟩
      · dsimp only at hread
        subst hread
        have hgot : got.length ≤ left + 1 := hle.trans (min_le_right _ _)
        have hlater : (next (.ok got)).ended (left + 1 - got.length) s' = true := by
          rcases Bool.or_eq_true_iff.mp h with hnow | hlater
          · obtain ⟨hwant, hnil⟩ := of_decide_eq_true hnow
            exact absurd hnil (hsome hwant rfl)
          · exact hlater
        dsimp only
        rw [ih _ _ _ hlater, happend, List.take_append, List.take_of_length_le hgot]
      · dsimp only at hread
        subst hread
        dsimp only at h ⊢
        rw [ih _ _ _ h, happend, List.nil_append]

/-- What a reader was given, and whether it was told that there is no more. -/
structure Heard (α : Type) where
  items : List α := []
  ended : Bool := false
  deriving DecidableEq

/-- The reader as it is, with what it was given put to its result. -/
def hear {ρ' : Type} (put : Heard α → ρ → ρ') : Heard α → Reading α ε ρ → Reading α ε ρ'
  | heard, .done result => .done (put heard result)
  | heard, .read want next => .read want fun
    | .error e => (next (.error e)).hear put heard
    | .ok got => (next (.ok got)).hear put
        ⟨heard.items ++ got, heard.ended || decide (0 < want ∧ got = [])⟩

theorem run_hear {ρ' : Type} (put : Heard α → ρ → ρ') (r : Reading α ε ρ) :
    ∀ (heard : Heard α) (left : Nat) (s : Feed α ε), (r.hear put heard).run left s =
      (put ⟨heard.items ++ (r.run left s).2.1, heard.ended || r.ended left s⟩ (r.run left s).1,
        (r.run left s).2) := by
  induction r with
  | done result =>
    intro heard left s
    rw [hear, run, run, ended, List.append_nil, Bool.or_false]
  | read want next ih =>
    intro heard left s
    cases left with
    | zero =>
      rw [hear, run, run, ended, ih, List.append_nil]
      simp only [and_true, Bool.or_assoc]
    | succ left =>
      rw [hear, run, run, ended]
      generalize s.read (min want (left + 1)) = r
      obtain ⟨outcome, s'⟩ := r
      cases outcome with
      | error e => exact ih _ _ _ _
      | ok got =>
        dsimp only
        rw [ih]
        dsimp only
        rw [List.append_assoc, Bool.or_assoc]

/-- Reads of `want` items each until one finds none. -/
def toEnd (want : Nat) (found : List α → ρ) (failed : ε → ρ) : Nat → List α → Reading α ε ρ
  | 0, taken => .done (found taken)
  | fuel + 1, taken => .read want fun
    | .error e => .done (failed e)
    | .ok [] => .done (found taken)
    | .ok got => toEnd want found failed fuel (taken ++ got)

/-- Given more reads than there are items within the bound, it finds all of them. -/
theorem toEnd_run {want : Nat} (hwant : 0 < want) (found : List α → ρ) (failed : ε → ρ) :
    ∀ (fuel left : Nat) (taken : List α) (s : Feed α ε), left < fuel → left ≤ s.content.length →
    ((toEnd want found failed fuel taken).run left s).1 = found (taken ++ s.content.take left) := by
  intro fuel
  induction fuel with
  | zero => intro left taken s hlt; exact absurd hlt (Nat.not_lt_zero _)
  | succ fuel ih =>
    intro left taken s hlt hle
    cases left with
    | zero => simp [toEnd, run]
    | succ left =>
      have hask : 0 < min want (left + 1) := lt_min hwant (Nat.succ_pos left)
      rcases s.read_spec hask with ⟨hnone, -⟩ | ⟨got, s', hread, hne, hgot, hc, -⟩
      · simp [hnone] at hle
      · obtain ⟨a, got, rfl⟩ := List.exists_cons_of_ne_nil hne
        have hgot : (a :: got).length ≤ left + 1 := hgot.trans (min_le_right _ _)
        have hlen : s.content.length = (a :: got).length + s'.content.length := by
          rw [hc, List.length_append]
        have hpos : 0 < (a :: got).length := Nat.succ_pos _
        rw [toEnd, run, hread]
        dsimp only
        rw [ih _ _ s' (by omega) (by omega), hc, List.take_append, List.take_of_length_le hgot,
          List.append_assoc]

/-- However it ends, it has found something or failed. -/
theorem toEnd_result (want : Nat) (found : List α → ρ) (failed : ε → ρ) :
    ∀ (fuel left : Nat) (taken : List α) (s : Feed α ε),
    (∃ got, ((toEnd want found failed fuel taken).run left s).1 = found got) ∨
      ∃ e, ((toEnd want found failed fuel taken).run left s).1 = failed e := by
  intro fuel
  induction fuel with
  | zero => exact fun left taken s => .inl ⟨taken, rfl⟩
  | succ fuel ih =>
    intro left taken s
    cases left with
    | zero => exact .inl ⟨taken, rfl⟩
    | succ left =>
      rw [toEnd, run]
      rcases s.read (min want (left + 1)) with ⟨e | got, s'⟩
      · exact .inr ⟨e, rfl⟩
      · cases got with
        | nil => exact .inl ⟨taken, rfl⟩
        | cons a got => exact ih _ _ s'

end Reading

end Lib
