import Mathlib.Tactic

/-!
# Lib.Crash

Programs that change a state one change after the other, and may be cut short between any two.

A program is known by the states it goes through and by how it ends. `Triple P p Q F C` says that,
begun in `P`, it is in `C` wherever it is cut, `Q` holds where it returns and `F` where it fails.

* `Triple.bind`, `Triple.change`, `Triple.within`: the rules of the constructs.
* `Life.keeps`: a program that is begun again after every cut, by whichever of a family of programs
  comes next, and a service between a return and the next beginning.
-/

namespace Lib

/-- What became of a program: the states after each of its changes, and how it ended. -/
structure Course (S E A : Type) where
  visited : List S
  outcome : Except E A

namespace Course

variable {S E A : Type}

/-- The state a course that began in `s` ends in. -/
def last (c : Course S E A) (s : S) : S := c.visited.getLastD s

/-- How a course that began in `s` ended, and where. -/
def Ends (c : Course S E A) (s : S) (Q : A → S → Prop) (F : E → S → Prop) : Prop :=
  match c.outcome with
  | .ok a => Q a (c.last s)
  | .error e => F e (c.last s)

end Course

def Prog (S E A : Type) : Type := S → Course S E A

namespace Prog

variable {S T E A B : Type}

def done (a : A) : Prog S E A := fun _ => ⟨[], .ok a⟩

def stop (e : E) : Prog S E A := fun _ => ⟨[], .error e⟩

/-- The state as it is. -/
def look : Prog S E S := fun s => ⟨[], .ok s⟩

/-- One change, made as a whole. -/
def change (f : S → S) : Prog S E Unit := fun s => ⟨[f s], .ok ()⟩

def bind (p : Prog S E A) (f : A → Prog S E B) : Prog S E B := fun s =>
  match (p s).outcome with
  | .error e => ⟨(p s).visited, .error e⟩
  | .ok a =>
    ⟨(p s).visited ++ (f a ((p s).last s)).visited, (f a ((p s).last s)).outcome⟩

instance : Monad (Prog S E) where
  pure := done
  bind := bind

theorem done_bind (a : A) (f : A → Prog S E B) (s : S) : (done a >>= f) s = f a s := rfl

theorem look_bind (f : S → Prog S E B) (s : S) : (look >>= f) s = f s s := rfl

/-- A program on a part of the state. -/
def within (view : S → T) (put : S → T → S) (p : Prog T E A) : Prog S E A := fun s =>
  ⟨(p (view s)).visited.map (put s), (p (view s)).outcome⟩

end Prog

/-- From `P`: `C` wherever the program is cut, `Q` where it returns, `F` where it fails. -/
structure Triple {S E A : Type} (P : S → Prop) (p : Prog S E A) (Q : A → S → Prop)
    (F : E → S → Prop) (C : S → Prop) : Prop where
  cut : ∀ s, P s → ∀ t ∈ s :: (p s).visited, C t
  ends : ∀ s, P s → (p s).Ends s Q F

namespace Triple

variable {S T E A B : Type} {P P' : S → Prop} {Q Q' : A → S → Prop} {R : B → S → Prop}
  {F F' : E → S → Prop} {C C' : S → Prop} {p : Prog S E A}

theorem mono (h : Triple P p Q F C) (hP : ∀ s, P' s → P s) (hQ : ∀ a s, Q a s → Q' a s)
    (hF : ∀ e s, F e s → F' e s) (hC : ∀ s, C s → C' s) : Triple P' p Q' F' C' where
  cut := fun s hs t ht => hC t (h.cut s (hP s hs) t ht)
  ends := fun s hs => by
    have hends := h.ends s (hP s hs)
    unfold Course.Ends at hends ⊢
    cases hout : (p s).outcome with
    | ok a => rw [hout] at hends; exact hQ a _ hends
    | error e => rw [hout] at hends; exact hF e _ hends

theorem done (a : A) (hC : ∀ s, P s → C s) (hQ : ∀ s, P s → Q a s) :
    Triple P (Prog.done a) Q F C where
  cut := fun s hs t ht => by rw [List.mem_singleton.mp ht]; exact hC s hs
  ends := fun s hs => hQ s hs

theorem stop (e : E) (hC : ∀ s, P s → C s) (hF : ∀ s, P s → F e s) :
    Triple P (Prog.stop e) Q F C where
  cut := fun s hs t ht => by rw [List.mem_singleton.mp ht]; exact hC s hs
  ends := fun s hs => hF s hs

theorem look (hC : ∀ s, P s → C s) :
    Triple P Prog.look (fun s t => s = t ∧ P t) F C where
  cut := fun s hs t ht => by rw [List.mem_singleton.mp ht]; exact hC s hs
  ends := fun s hs => ⟨rfl, hs⟩

theorem change {f : S → S} {Q : Unit → S → Prop} (hC : ∀ s, P s → C s ∧ C (f s))
    (hQ : ∀ s, P s → Q () (f s)) : Triple P (Prog.change f) Q F C where
  cut := fun s hs t ht => by
    rcases List.mem_cons.mp ht with rfl | ht
    · exact (hC _ hs).1
    · rw [List.mem_singleton.mp ht]
      exact (hC s hs).2
  ends := fun s hs => hQ s hs

theorem bind {f : A → Prog S E B} (hp : Triple P p Q F C) (hf : ∀ a, Triple (Q a) (f a) R F C) :
    Triple P (p >>= f) R F C := by
  show Triple P (Prog.bind p f) R F C
  refine ⟨fun s hs t ht => ?_, fun s hs => ?_⟩
  · have hcut := hp.cut s hs
    have hends := hp.ends s hs
    unfold Prog.bind at ht
    unfold Course.Ends at hends
    cases hout : (p s).outcome with
    | error e => rw [hout] at ht; exact hcut t ht
    | ok a =>
      rw [hout] at ht hends
      rcases List.mem_cons.mp ht with rfl | ht
      · exact hcut _ List.mem_cons_self
      · rcases List.mem_append.mp ht with ht | ht
        · exact hcut t (List.mem_cons_of_mem _ ht)
        · exact (hf a).cut _ hends t (List.mem_cons_of_mem _ ht)
  · have hends := hp.ends s hs
    unfold Course.Ends at hends
    unfold Prog.bind
    cases hout : (p s).outcome with
    | error e => rw [hout] at hends; exact hends
    | ok a =>
      rw [hout] at hends
      have hrest := (hf a).ends _ hends
      unfold Course.Ends at hrest ⊢
      have hlast : (⟨(p s).visited ++ (f a ((p s).last s)).visited,
          (f a ((p s).last s)).outcome⟩ : Course S E B).last s =
          (f a ((p s).last s)).last ((p s).last s) := by
        simp only [Course.last, List.getLastD_eq_getLast?, List.getLast?_append]
        cases (f a _).visited.getLast? <;> rfl
      dsimp only
      rw [hlast]
      exact hrest

/-- A program on a part of the state leaves the rest of it as it was. -/
theorem within {U : Type} {q : Prog U E A} {view : S → U} {put : S → U → S} {PU : U → Prop}
    {QU : A → U → Prop} {FU : E → U → Prop} {CU : U → Prop} (hq : Triple PU q QU FU CU)
    (hput : ∀ s, put s (view s) = s) (hP : ∀ s, P s → PU (view s))
    (hQ : ∀ s, P s → ∀ a u, QU a u → Q a (put s u)) (hF : ∀ s, P s → ∀ e u, FU e u → F e (put s u))
    (hC : ∀ s, P s → ∀ u, CU u → C (put s u)) : Triple P (Prog.within view put q) Q F C := by
  have hlast : ∀ s, ((Prog.within view put q) s).last s = put s ((q (view s)).last (view s)) := by
    intro s
    simp only [Prog.within, Course.last, List.getLastD_eq_getLast?, List.getLast?_map]
    cases (q (view s)).visited.getLast? with
    | none => exact (hput s).symm
    | some u => rfl
  refine ⟨fun s hs t ht => ?_, fun s hs => ?_⟩
  · have hcut := hq.cut _ (hP s hs)
    rcases List.mem_cons.mp ht with rfl | ht
    · rw [← hput t]
      exact hC t hs _ (hcut _ List.mem_cons_self)
    · obtain ⟨u, hu, rfl⟩ := List.mem_map.mp ht
      exact hC s hs u (hcut u (List.mem_cons_of_mem _ hu))
  · have hends := hq.ends _ (hP s hs)
    unfold Course.Ends at hends ⊢
    rw [hlast]
    dsimp only [Prog.within]
    cases hout : (q (view s)).outcome with
    | ok a => rw [hout] at hends; exact hQ s hs a _ hends
    | error e => rw [hout] at hends; exact hF s hs e _ hends

end Triple

/-! ## Beginning again -/

section Life

variable {ι S E A : Type}

/-- A state that programs are begun on, one at a time, each where `may` lets it be. Each is cut
somewhere, or returns and is followed by a service that works on the state until it stops. The list
is of the programs begun since one has returned. -/
inductive Life (prog : ι → Prog S E A) (may : List ι → ι → S → Prop) (work : ι → A → S → S → Prop)
    (start : S → Prop) : List ι → S → Option (ι × A) → Prop where
  | start {s : S} (h : start s) : Life prog may work start [] s none
  | cut {tried : List ι} {s t : S} (i : ι) : Life prog may work start tried s none →
      may tried i s → t ∈ s :: (prog i s).visited →
      Life prog may work start (tried ++ [i]) t none
  | returned {tried : List ι} {s : S} {a : A} (i : ι) : Life prog may work start tried s none →
      may tried i s → (prog i s).outcome = .ok a →
      Life prog may work start [] ((prog i s).last s) (some (i, a))
  | work {s t : S} {i : ι} {a : A} : Life prog may work start [] s (some (i, a)) →
      work i a s t → Life prog may work start [] t (some (i, a))
  | stop {s : S} {i : ι} {a : A} : Life prog may work start [] s (some (i, a)) →
      Life prog may work start [] s none

/-- Where the condition a cut leaves is one the next program can begin in, it holds between programs
for ever, and what a program returns with holds for as long as its service lasts. -/
theorem Life.keeps {prog : ι → Prog S E A} {may : List ι → ι → S → Prop}
    {work : ι → A → S → S → Prop} {start : S → Prop} {C : List ι → S → Prop}
    {Q : ι → A → S → Prop} {F : ι → E → S → Prop} (hstart : ∀ s, start s → C [] s)
    (hprog : ∀ tried i, Triple (fun s => C tried s ∧ may tried i s) (prog i) (Q i) (F i)
      (C (tried ++ [i])))
    (hwork : ∀ i a s t, Q i a s → work i a s t → Q i a t)
    (hstop : ∀ i a s, Q i a s → C [] s) {tried : List ι} {s : S} {serving : Option (ι × A)}
    (h : Life prog may work start tried s serving) :
    (serving = none → C tried s) ∧ ∀ i a, serving = some (i, a) → Q i a s := by
  induction h with
  | start h =>
    refine ⟨fun _ => hstart _ h, ?_⟩
    rintro i a ⟨⟩
  | @cut tried s t i _ hmay ht ih =>
    refine ⟨fun _ => (hprog tried i).cut s ⟨ih.1 rfl, hmay⟩ t ht, ?_⟩
    rintro j a ⟨⟩
  | @returned tried s a i _ hmay hok ih =>
    refine ⟨?_, ?_⟩
    · rintro ⟨⟩
    · rintro j b ⟨⟩
      have hends := (hprog tried i).ends s ⟨ih.1 rfl, hmay⟩
      unfold Course.Ends at hends
      rw [hok] at hends
      exact hends
  | @work s t i a _ hw ih =>
    refine ⟨?_, ?_⟩
    · rintro ⟨⟩
    · rintro j b ⟨⟩
      exact hwork i a s t (ih.2 i a rfl) hw
  | @stop s i a _ ih =>
    refine ⟨fun _ => hstop i a s (ih.2 i a rfl), ?_⟩
    rintro j b ⟨⟩

end Life

end Lib
