import RustyPick.Lib.Map

/-!
# Lib.Signal

Waiting for something that others put into a shared state.

A waiter registers for the signal, then tries to get what it waits for, and sleeps if there was
nothing, until the signal is raised, its nap is over or its deadline has come. Whoever puts something
in raises the signal afterwards, once it has let go of the state, and the signal wakes all who are
registered then.

* `Reached.sound`: while no signal is owed, nothing is ready that a waiter sleeps on without having
  been woken; and nobody sleeps past its deadline, or longer than one nap.
-/

namespace Lib

inductive Phase where
  | outside
  | registered (woken : Bool)
  | missed (woken : Bool)
  | asleep (since till : Nat) (woken : Bool)
  deriving DecidableEq, Repr

namespace Phase

/-- The signal. Whoever is not registered does not hear it. -/
def wake : Phase → Phase
  | .outside => .outside
  | .registered _ => .registered true
  | .missed _ => .missed true
  | .asleep since till _ => .asleep since till true

/-- Tried, found nothing, and has not been woken since it registered. -/
def unwoken : Phase → Bool
  | .missed false => true
  | .asleep _ _ false => true
  | _ => false

@[simp] theorem unwoken_wake (p : Phase) : p.wake.unwoken = false := by cases p <;> rfl

end Phase

structure Waiter where
  deadline : Nat
  phase : Phase := .outside
  deriving DecidableEq, Repr

/-- What is waited on: how a waiter tries, with whether it found something; and what the others do
to it, with whether the signal is to be raised for it. -/
structure Shared (σ α β : Type) where
  attempt : α → σ → Option (Bool × σ)
  work : β → σ → Option (Bool × σ)

structure Hall (σ : Type) where
  shared : σ
  clock : Nat := 0
  waiters : Map Nat Waiter := ∅
  /-- How many waiters there have been, which numbers the next. -/
  arrived : Nat := 0
  /-- The signals that are still to be raised. -/
  owed : Nat := 0

inductive HallAction (α β : Type) where
  | pass (time : Nat)
  | arrive (wait : Nat)
  | register (id : Nat)
  | attempt (id : Nat) (a : α)
  /-- After an attempt that found nothing: to sleep, or, past the deadline, to leave. -/
  | rest (id : Nat)
  /-- Awake again, whether woken or not. -/
  | rise (id : Nat)
  | leave (id : Nat)
  | work (b : β)
  | raise
  /-- Raised for something that is none of these waiters' business. -/
  | raiseElsewhere
  /-- Not raised after all: whoever owed it failed before it came to it. -/
  | forgo

namespace Hall

variable {σ α β : Type} (S : Shared σ α β) (nap : Nat)

def wakeAll (h : Hall σ) : Hall σ :=
  { h with waiters := h.waiters.map fun _ w => { w with phase := w.phase.wake } }

def moved (h : Hall σ) (id : Nat) (w : Waiter) (phase : Phase) : Hall σ :=
  { h with waiters := h.waiters.insert id { w with phase := phase } }

/-- One step, where it can be taken. -/
def perform (h : Hall σ) : HallAction α β → Option (Hall σ)
  | .pass time => some { h with clock := h.clock + time }
  | .arrive wait => some { h with
      waiters := h.waiters.insert h.arrived { deadline := h.clock + wait }
      arrived := h.arrived + 1 }
  | .register id =>
    match h.waiters[id]? with
    | some w => if w.phase = .outside then some (h.moved id w (.registered false)) else none
    | none => none
  | .attempt id a =>
    match h.waiters[id]? with
    | none => none
    | some w =>
      match w.phase with
      | .registered woken =>
        match S.attempt a h.shared with
        | none => none
        | some (true, s) => some { h with shared := s, waiters := h.waiters.erase id }
        | some (false, s) => some (({ h with shared := s } : Hall σ).moved id w (.missed woken))
      | _ => none
  | .rest id =>
    match h.waiters[id]? with
    | none => none
    | some w =>
      match w.phase with
      | .missed woken =>
        if w.deadline ≤ h.clock then some { h with waiters := h.waiters.erase id }
        else some (h.moved id w (.asleep h.clock (min w.deadline (h.clock + nap)) woken))
      | _ => none
  | .rise id =>
    match h.waiters[id]? with
    | none => none
    | some w =>
      match w.phase with
      | .asleep _ till woken =>
        if woken = true ∨ till ≤ h.clock then some (h.moved id w .outside) else none
      | _ => none
  | .leave id => some { h with waiters := h.waiters.erase id }
  | .work b =>
    match S.work b h.shared with
    | none => none
    | some (announce, s) =>
      some { h with shared := s, owed := if announce then h.owed + 1 else h.owed }
  | .raise => if h.owed = 0 then none else some { h.wakeAll with owed := h.owed - 1 }
  | .raiseElsewhere => some h.wakeAll
  | .forgo => if h.owed = 0 then none else some { h with owed := h.owed - 1 }

/-- What is reached from nobody waiting and nothing owed, every step meeting `ok`. -/
inductive Reached (ok : HallAction α β → Prop) (s₀ : σ) : Hall σ → Prop where
  | start : Reached ok s₀ { shared := s₀ }
  | step {h h' : Hall σ} (a : HallAction α β) : Reached ok s₀ h → ok a →
      h.perform S nap a = some h' → Reached ok s₀ h'

/-- The steps of a list, as long as each can be taken. -/
def runAll (h : Hall σ) : List (HallAction α β) → Option (Hall σ)
  | [] => some h
  | a :: as => (h.perform S nap a).bind fun h' => h'.runAll as

theorem runAll_append : ∀ {as bs : List (HallAction α β)} {h h' : Hall σ},
    h.runAll S nap (as ++ bs) = some h' →
      ∃ h₁, h.runAll S nap as = some h₁ ∧ h₁.runAll S nap bs = some h' := by
  intro as
  induction as with
  | nil => intro bs h h' hrun; exact ⟨h, rfl, hrun⟩
  | cons a as ih =>
    intro bs h h' hrun
    obtain ⟨h₁, hp, hrest⟩ := Option.bind_eq_some_iff.mp hrun
    obtain ⟨h₂, has, hbs⟩ := ih hrest
    exact ⟨h₂, Option.bind_eq_some_iff.mpr ⟨h₁, hp, has⟩, hbs⟩

theorem Reached.runAll {ok : HallAction α β → Prop} {s₀ : σ} :
    ∀ {as : List (HallAction α β)} {h h' : Hall σ}, Reached S nap ok s₀ h → (∀ a ∈ as, ok a) →
      h.runAll S nap as = some h' → Reached S nap ok s₀ h' := by
  intro as
  induction as with
  | nil => intro h h' hr _ hrun; cases hrun; exact hr
  | cons a as ih =>
    intro h h' hr hok hrun
    obtain ⟨h₁, hp, hrest⟩ := Option.bind_eq_some_iff.mp hrun
    exact ih (.step a hr (hok a List.mem_cons_self) hp)
      (fun a' ha' => hok a' (List.mem_cons_of_mem _ ha')) hrest

/-! ## What the waiters are -/

section Waiters

variable {S nap}

theorem waiter_moved {h : Hall σ} {id id' : Nat} {w w' : Waiter} {phase : Phase}
    (hw : (h.moved id w phase).waiters[id']? = some w') :
    (id' = id ∧ w' = { w with phase := phase }) ∨ h.waiters[id']? = some w' := by
  unfold moved at hw
  rw [getElem?_insert_eq] at hw
  split at hw
  · rename_i heq
    exact Or.inl ⟨heq.symm, (Option.some.inj hw).symm⟩
  · exact Or.inr hw

theorem waiter_erase {h : Hall σ} {id id' : Nat} {w : Waiter}
    (hw : (h.waiters.erase id)[id']? = some w) : h.waiters[id']? = some w := by
  rw [getElem?_erase_eq] at hw
  split at hw
  · cases hw
  · exact hw

theorem waiter_wakeAll {h : Hall σ} {id : Nat} {w : Waiter} (hw : h.wakeAll.waiters[id]? = some w) :
    ∃ w₀, h.waiters[id]? = some w₀ ∧ w = { w₀ with phase := w₀.phase.wake } := by
  unfold wakeAll at hw
  rw [Std.ExtTreeMap.getElem?_map] at hw
  obtain ⟨w₀, hw₀, rfl⟩ := Option.map_eq_some_iff.mp hw
  exact ⟨w₀, hw₀, rfl⟩

end Waiters

/-- What a step does to the shared state, what is owed and the waiters. -/
inductive Change (S : Shared σ α β) (nap : Nat) (h : Hall σ) : HallAction α β → Hall σ → Prop where
  | quiet {a : HallAction α β} {h' : Hall σ} : a ≠ .forgo → h'.shared = h.shared →
      h'.owed = h.owed → h.clock ≤ h'.clock →
      (∀ (id : Nat) (w : Waiter), h'.waiters[id]? = some w → h.waiters[id]? = some w ∨
        w.phase = .outside ∨ w.phase = .registered false) → Change S nap h a h'
  | found {id : Nat} {a : α} {s : σ} : S.attempt a h.shared = some (true, s) →
      Change S nap h (.attempt id a) { h with shared := s, waiters := h.waiters.erase id }
  | missed {id : Nat} {a : α} {s : σ} {w : Waiter} {woken : Bool} :
      S.attempt a h.shared = some (false, s) → h.waiters[id]? = some w →
      w.phase = .registered woken →
      Change S nap h (.attempt id a) (({ h with shared := s } : Hall σ).moved id w (.missed woken))
  | asleep {id : Nat} {w : Waiter} {woken : Bool} : h.waiters[id]? = some w →
      w.phase = .missed woken → h.clock < w.deadline →
      Change S nap h (.rest id)
        (h.moved id w (.asleep h.clock (min w.deadline (h.clock + nap)) woken))
  | work {b : β} {announce : Bool} {s : σ} : S.work b h.shared = some (announce, s) →
      Change S nap h (.work b)
        { h with shared := s, owed := if announce then h.owed + 1 else h.owed }
  | raised {a : HallAction α β} {h' : Hall σ} : a ≠ .forgo → h'.waiters = h.wakeAll.waiters →
      h'.shared = h.shared → h'.clock = h.clock → Change S nap h a h'
  | forgone : h.owed ≠ 0 → Change S nap h .forgo { h with owed := h.owed - 1 }

theorem perform_change {h h' : Hall σ} {a : HallAction α β} (hp : h.perform S nap a = some h') :
    Change S nap h a h' := by
  cases a with
  | pass time =>
    cases hp
    exact .quiet (by simp) rfl rfl (by simp) fun id w hw => Or.inl hw
  | arrive wait =>
    cases hp
    refine .quiet (by simp) rfl rfl (le_refl _) fun id w hw => ?_
    rw [getElem?_insert_eq] at hw
    split at hw
    · cases hw
      exact Or.inr (Or.inl rfl)
    · exact Or.inl hw
  | register id =>
    simp only [perform] at hp
    split at hp
    · split at hp
      · cases hp
        refine .quiet (by simp) rfl rfl (le_refl _) fun id' w' hw' => ?_
        rcases waiter_moved hw' with ⟨-, rfl⟩ | hw'
        · exact Or.inr (Or.inr rfl)
        · exact Or.inl hw'
      · cases hp
    · cases hp
  | attempt id a =>
    simp only [perform] at hp
    split at hp
    · cases hp
    · rename_i w hw
      split at hp
      · rename_i woken hphase
        split at hp
        · cases hp
        · rename_i s hattempt
          cases hp
          exact .found hattempt
        · rename_i s hattempt
          cases hp
          exact .missed hattempt hw hphase
      · cases hp
  | rest id =>
    simp only [perform] at hp
    split at hp
    · cases hp
    · rename_i w hw
      split at hp
      · rename_i woken hphase
        split at hp
        · cases hp
          exact .quiet (by simp) rfl rfl (le_refl _) fun id' w' hw' => Or.inl (waiter_erase hw')
        · rename_i hlt
          cases hp
          exact .asleep hw hphase (Nat.not_le.mp hlt)
      · cases hp
  | rise id =>
    simp only [perform] at hp
    split at hp
    · cases hp
    · split at hp
      · split at hp
        · cases hp
          refine .quiet (by simp) rfl rfl (le_refl _) fun id' w' hw' => ?_
          rcases waiter_moved hw' with ⟨-, rfl⟩ | hw'
          · exact Or.inr (Or.inl rfl)
          · exact Or.inl hw'
        · cases hp
      · cases hp
  | leave id =>
    cases hp
    exact .quiet (by simp) rfl rfl (le_refl _) fun id' w' hw' => Or.inl (waiter_erase hw')
  | work b =>
    simp only [perform] at hp
    split at hp
    · cases hp
    · rename_i announce s hwork
      cases hp
      exact .work hwork
  | raise =>
    simp only [perform] at hp
    split at hp
    · cases hp
    · cases hp
      exact .raised (by simp) rfl rfl rfl
  | raiseElsewhere =>
    cases hp
    exact .raised (by simp) rfl rfl rfl
  | forgo =>
    simp only [perform] at hp
    split at hp
    · cases hp
    · rename_i howed
      cases hp
      exact .forgone howed

/-- Steps that follow, after each of which the shared state is as `P` says. -/
inductive Onward (ok : HallAction α β → Prop) (P : σ → Prop) : Hall σ → Hall σ → Prop where
  | here (h : Hall σ) : Onward ok P h h
  | step {h h' h'' : Hall σ} (a : HallAction α β) : Onward ok P h h' → ok a →
      h'.perform S nap a = some h'' → P h''.shared → Onward ok P h h''

/-! ## No wake-up is lost -/

section Invariant

variable {S : Shared σ α β} {nap : Nat}

theorem Onward.reached {ok : HallAction α β → Prop} {P : σ → Prop} {s₀ : σ} {h h' : Hall σ}
    (ho : Onward S nap ok P h h') (hr : Reached S nap ok s₀ h) : Reached S nap ok s₀ h' := by
  induction ho with
  | here => exact hr
  | step a _ hok hp _ ih => exact .step a ih hok hp

/-- The shared state changes by an attempt or by the work of others, and otherwise not. -/
theorem perform_shared {h h' : Hall σ} {a : HallAction α β} (hp : h.perform S nap a = some h') :
    h'.shared = h.shared ∨ (∃ x found, S.attempt x h.shared = some (found, h'.shared)) ∨
      ∃ b announce, S.work b h.shared = some (announce, h'.shared) := by
  cases perform_change S nap hp with
  | quiet _ hshared => exact Or.inl hshared
  | found hattempt => exact Or.inr (Or.inl ⟨_, _, hattempt⟩)
  | missed hattempt => exact Or.inr (Or.inl ⟨_, _, hattempt⟩)
  | asleep => exact Or.inl rfl
  | work hwork => exact Or.inr (Or.inr ⟨_, _, hwork⟩)
  | raised _ _ hshared => exact Or.inl hshared
  | forgone => exact Or.inl rfl

structure Sound (nap : Nat) (Ready : σ → Prop) (h : Hall σ) : Prop where
  deaf : ∀ (id : Nat) (w : Waiter), h.waiters[id]? = some w → w.phase.unwoken = true →
    h.owed = 0 → ¬Ready h.shared
  naps : ∀ (id : Nat) (w : Waiter) (since till : Nat) (woken : Bool), h.waiters[id]? = some w →
    w.phase = .asleep since till woken →
      till ≤ w.deadline ∧ till ≤ since + nap ∧ since ≤ h.clock

/-- What is ready goes on being ready until it is found, becomes ready for a signal only, and is not
ready where an attempt finds nothing. -/
structure Announced (S : Shared σ α β) (Ready : σ → Prop) : Prop where
  missed : ∀ {a s s'}, S.attempt a s = some (false, s') → ¬Ready s'
  found : ∀ {a s s'}, S.attempt a s = some (true, s') → ¬Ready s → ¬Ready s'
  silent : ∀ {b s s'}, S.work b s = some (false, s') → ¬Ready s → ¬Ready s'

variable {Ready : σ → Prop}

theorem sound_step (hS : Announced S Ready) {h h' : Hall σ} {a : HallAction α β}
    (hs : Sound nap Ready h) (ha : a ≠ .forgo) (hc : Change S nap h a h') : Sound nap Ready h' := by
  cases hc with
  | quiet _ hshared howed hclock hwaiters =>
    refine ⟨fun id w hw hun h0 => ?_, fun id w since till woken hw hphase => ?_⟩
    · rw [hshared]
      rcases hwaiters id w hw with hw | hphase | hphase
      · exact hs.deaf id w hw hun (howed ▸ h0)
      · rw [hphase] at hun; cases hun
      · rw [hphase] at hun; cases hun
    · rcases hwaiters id w hw with hw | hout | hout
      · obtain ⟨h1, h2, h3⟩ := hs.naps id w since till woken hw hphase
        exact ⟨h1, h2, h3.trans hclock⟩
      · rw [hout] at hphase; cases hphase
      · rw [hout] at hphase; cases hphase
  | found hattempt =>
    refine ⟨fun id w hw hun h0 => ?_, fun id w since till woken hw => ?_⟩
    · exact hS.found hattempt (hs.deaf id w (waiter_erase hw) hun h0)
    · exact hs.naps id w since till woken (waiter_erase hw)
  | @missed id a s w woken hattempt hw hphase =>
    refine ⟨fun _ _ _ _ _ => hS.missed hattempt, fun id' w' since till woken' hw' hasleep => ?_⟩
    rcases waiter_moved hw' with ⟨-, rfl⟩ | hw'
    · cases hasleep
    · exact hs.naps id' w' since till woken' hw' hasleep
  | @asleep id w woken hw hphase hlt =>
    refine ⟨fun id' w' hw' hun h0 => ?_, fun id' w' since till woken' hw' hasleep => ?_⟩
    · rcases waiter_moved hw' with ⟨-, rfl⟩ | hw'
      · refine hs.deaf id w hw ?_ h0
        rw [hphase]
        cases woken with
        | false => rfl
        | true => cases hun
      · exact hs.deaf id' w' hw' hun h0
    · rcases waiter_moved hw' with ⟨-, rfl⟩ | hw'
      · cases hasleep
        exact ⟨min_le_left _ _, min_le_right _ _, le_refl _⟩
      · exact hs.naps id' w' since till woken' hw' hasleep
  | @work b announce s hwork =>
    refine ⟨fun id w hw hun h0 => ?_, hs.naps⟩
    cases announce with
    | true => exact absurd h0 (by simp)
    | false => exact hS.silent hwork (hs.deaf id w hw hun h0)
  | raised _ hwaiters _ hclock =>
    refine ⟨fun id w hw hun => ?_, fun id w since till woken hw hasleep => ?_⟩
    · rw [hwaiters] at hw
      obtain ⟨w₀, -, rfl⟩ := waiter_wakeAll hw
      rw [Phase.unwoken_wake] at hun
      cases hun
    · rw [hwaiters] at hw
      obtain ⟨w₀, hw₀, rfl⟩ := waiter_wakeAll hw
      rw [hclock]
      cases hphase : w₀.phase with
      | asleep since₀ till₀ woken₀ =>
        have hnaps := hs.naps id w₀ since₀ till₀ woken₀ hw₀ hphase
        simp only [hphase, Phase.wake, Phase.asleep.injEq] at hasleep
        obtain ⟨rfl, rfl, -⟩ := hasleep
        exact hnaps
      | outside => simp [hphase, Phase.wake] at hasleep
      | registered woken₀ => simp [hphase, Phase.wake] at hasleep
      | missed woken₀ => simp [hphase, Phase.wake] at hasleep
  | forgone _ => exact absurd rfl ha

theorem Reached.sound (hS : Announced S Ready) {ok : HallAction α β → Prop}
    (hok : ∀ a, ok a → a ≠ .forgo) {s₀ : σ} {h : Hall σ} (hr : Reached S nap ok s₀ h) :
    Sound nap Ready h := by
  induction hr with
  | start =>
    refine ⟨fun id w hw => ?_, fun id w since till woken hw => ?_⟩
    · simp at hw
    · simp at hw
  | step a _ ha hp ih => exact sound_step hS ih (hok a ha) (perform_change S nap hp)

end Invariant

end Hall

end Lib
