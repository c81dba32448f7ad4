import Mathlib.Data.Fintype.Card
import Mathlib.Data.Finset.Card

/-!
# Lib.Tally

A batch that several agents write out. Each that does so puts the count of the batch back to zero
afterwards, and by then it may have missed what the others have put in since.

* `Bounded.step`: every agent can make the batch forget once, and not again before the batch has
  been written out.
* `Bounded.le`: so what is waiting is at most one full batch for each agent.
-/

namespace Lib

/-- A batch, and the agents that have seen it written out and have not put the count back yet. -/
structure Tally (T : Type) where
  waiting : Nat
  count : Nat
  armed : Finset T

namespace Tally

variable {T : Type}

inductive Step [DecidableEq T] (limit : Nat) : Tally T → Tally T → Prop where
  /-- Put in, while there is room. -/
  | add (s : Tally T) (t : T) (hfree : t ∉ s.armed) (hroom : s.count + 1 ≤ limit) :
    Step limit s { s with waiting := s.waiting + 1, count := s.count + 1 }
  | bump (s : Tally T) : Step limit s { s with count := s.count + 1 }
  | write (s : Tally T) (armed : Finset T) : Step limit s { s with waiting := 0, armed := armed }
  | reset (s : Tally T) (t : T) (h : t ∈ s.armed) :
    Step limit s { s with count := 0, armed := s.armed.erase t }
  | leave (s : Tally T) (t : T) : Step limit s { s with armed := s.armed.erase t }

variable [Fintype T]

/-- The batch has been forgotten `r` times since it was last written out, by agents that had seen it
written out by then. -/
def Bounded (limit : Nat) (s : Tally T) : Prop :=
  ∃ r, s.waiting ≤ limit * r + min s.count limit ∧
    (r + s.armed.card < Fintype.card T ∨ r = 0 ∧ s.waiting = 0)

variable {limit : Nat} {s s' : Tally T}

theorem Bounded.init (count : Nat) (armed : Finset T) : Bounded limit ⟨0, count, armed⟩ :=
  ⟨0, Nat.zero_le _, .inr ⟨rfl, rfl⟩⟩

theorem Bounded.step [DecidableEq T] (h : Bounded limit s) (hstep : Step limit s s') :
    Bounded limit s' := by
  obtain ⟨r, hwaiting, hwho⟩ := h
  cases hstep with
  | add t hfree hroom =>
    have hcard : s.armed.card < Fintype.card T := Finset.card_lt_univ_of_notMem hfree
    refine ⟨r, ?_, .inl ?_⟩
    · dsimp only
      omega
    · dsimp only
      omega
  | bump => exact ⟨r, by dsimp only; omega, hwho⟩
  | write armed => exact .init _ _
  | reset t harmed =>
    have hcard := Finset.card_erase_of_mem harmed
    have hsome := Finset.card_pos.mpr ⟨t, harmed⟩
    rcases hwho with hlt | ⟨rfl, hnone⟩
    · refine ⟨r + 1, ?_, .inl ?_⟩
      · have hmul : limit * (r + 1) = limit * r + limit := Nat.mul_succ limit r
        dsimp only
        omega
      · dsimp only
        omega
    · exact ⟨0, by dsimp only; omega, .inr ⟨rfl, hnone⟩⟩
  | leave t =>
    have hcard := Finset.card_erase_le (s := s.armed) (a := t)
    refine ⟨r, hwaiting, hwho.imp_left fun hlt => ?_⟩
    dsimp only
    omega

theorem Bounded.le (h : Bounded limit s) : s.waiting ≤ Fintype.card T * limit := by
  obtain ⟨r, hwaiting, hlt | ⟨rfl, hnone⟩⟩ := h
  · have hr : r + 1 ≤ Fintype.card T := by omega
    calc s.waiting ≤ limit * r + limit := by omega
      _ = limit * (r + 1) := (Nat.mul_succ limit r).symm
      _ ≤ limit * Fintype.card T := Nat.mul_le_mul_left limit hr
      _ = Fintype.card T * limit := Nat.mul_comm _ _
  · rw [hnone]
    exact Nat.zero_le _

end Tally

end Lib
