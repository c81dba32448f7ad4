import RustyPick.QueueRun
import RustyPick.Lib.Signal

/-!
# RustyPick.Waiting

A DEQUEUE that waits (`dequeue_waiting` in `server/mod.rs`) among the commands of other clients
(`db/engine/queue.rs`).

A waiter registers for the arrivals signal before each attempt, and the attempt is a plain DEQUEUE.
ENQUEUE and NACK raise the signal once their section is over and the write has been noted, and only
for a record that can be claimed at once.

* `waiters_hear_of_arrivals`: a record that was put in for a signal and is still there leaves no
  waiter asleep, once every signal that is owed has been raised.
-/

namespace RustyPick

open Lib

def WAIT_RECHECK : Nat := 1000

/-- A queue file, with the keys it owes to a command that raises the signal: those that have been
available ever since. -/
structure WaitedQueue where
  table : Table
  news : Finset String := ∅

def Table.available (t : Table) : Finset String := (t.queue.map QueueState.available).getD ∅

/-- The table a section leaves, and the news after it. -/
def WaitedQueue.leaves (s : WaitedQueue) (announced : Option String) (t : Table) : WaitedQueue where
  table := t
  news := (s.news ∪ announced.toFinset).filter fun key => key ∈ t.available

/-- One attempt: a DEQUEUE, with the reading of the clock it is given. -/
structure DequeueAttempt where
  owner : String
  visibility : Option Nat := none
  policy : QueuePolicy := {}
  reading : Nat

/-- A section of another command. -/
structure QueueSection where
  action : QueueAction
  reading : Nat

/-- The key a section makes available for which its command raises the signal. -/
def announcedKey : QueueAction → QueueOutcome → Option String
  | .enqueue _ none, .enqueued key => some key
  | .nack key _ _ none, .settled => some key
  | _, _ => none

def waitedQueue (name : String) : Shared WaitedQueue DequeueAttempt QueueSection where
  attempt := fun a s =>
    (s.table.dequeue name a.owner a.visibility a.policy a.reading).map fun r =>
      (r.1.isSome, s.leaves none r.2.2)
  work := fun b s =>
    (b.action.perform name s.table b.reading).map fun r =>
      ((announcedKey b.action r.1).isSome, s.leaves (announcedKey b.action r.1) r.2)

/-! ## News -/

theorem mem_leaves_news {s : WaitedQueue} {announced : Option String} {t : Table} {key : String} :
    key ∈ (s.leaves announced t).news ↔
      (key ∈ s.news ∨ announced = some key) ∧ key ∈ t.available := by
  simp [WaitedQueue.leaves, Finset.mem_filter, Option.mem_toFinset, Option.mem_def]

theorem leaves_news_empty {s : WaitedQueue} {t : Table} (h : ¬s.news.Nonempty) :
    ¬(s.leaves none t).news.Nonempty := by
  rintro ⟨key, hkey⟩
  obtain ⟨hnews | hnone, -⟩ := mem_leaves_news.mp hkey
  · exact h ⟨key, hnews⟩
  · cases hnone

/-- A DEQUEUE that hands nothing out leaves nothing available. -/
theorem dequeue_none_available {name owner : String} {t t' : Table} {visibility : Option Nat}
    {policy : QueuePolicy} {now : Nat} {dead : List DeadLetter}
    (h : t.dequeue name owner visibility policy now = some (none, dead, t')) :
    t'.available = ∅ := by
  obtain ⟨q, hq, heq⟩ := Option.map_eq_some_iff.mp h
  simp only [Prod.mk.injEq, Option.map_eq_none_iff] at heq
  obtain ⟨hclaim, -, rfl⟩ := heq
  unfold QueueState.claim at hclaim ⊢
  cases hfirst : first q.available with
  | none =>
    rw [hfirst] at hclaim
    show q.available = ∅
    exact first_eq_none.mp hfirst
  | some key => rw [hfirst] at hclaim; cases hclaim

theorem waitedQueue_announced (name : String) :
    Hall.Announced (waitedQueue name) fun s => s.news.Nonempty where
  missed := by
    intro a s s' h
    obtain ⟨⟨delivery, dead, t⟩, hr, heq⟩ := Option.map_eq_some_iff.mp h
    simp only [Prod.mk.injEq, Option.isSome_eq_false_iff, Option.isNone_iff_eq_none] at heq
    obtain ⟨rfl, rfl⟩ := heq
    rintro ⟨key, hkey⟩
    have havailable := (mem_leaves_news.mp hkey).2
    rw [dequeue_none_available hr] at havailable
    cases havailable
  found := by
    intro a s s' h hs
    obtain ⟨r, -, heq⟩ := Option.map_eq_some_iff.mp h
    obtain ⟨-, rfl⟩ := Prod.mk.injEq .. ▸ heq
    exact leaves_news_empty hs
  silent := by
    intro b s s' h hs
    obtain ⟨r, -, heq⟩ := Option.map_eq_some_iff.mp h
    simp only [Prod.mk.injEq, Option.isSome_eq_false_iff, Option.isNone_iff_eq_none] at heq
    obtain ⟨hnone, rfl⟩ := heq
    rw [hnone]
    exact leaves_news_empty hs

/-- News stay news for as long as the record is there. -/
theorem news_perform {name : String} {nap : Nat} {h h' : Hall WaitedQueue}
    {a : HallAction DequeueAttempt QueueSection} {key : String}
    (hp : h.perform (waitedQueue name) nap a = some h') (hnews : key ∈ h.shared.news)
    (hthere : key ∈ h'.shared.table.available) : key ∈ h'.shared.news := by
  rcases Hall.perform_shared hp with hshared | ⟨x, found, hattempt⟩ |
    ⟨b, announce, hwork⟩
  · rw [hshared]
    exact hnews
  · obtain ⟨r, -, heq⟩ := Option.map_eq_some_iff.mp hattempt
    obtain ⟨-, hshared⟩ := Prod.mk.injEq .. ▸ heq
    rw [← hshared] at hthere ⊢
    exact mem_leaves_news.mpr ⟨Or.inl hnews, hthere⟩
  · obtain ⟨r, -, heq⟩ := Option.map_eq_some_iff.mp hwork
    obtain ⟨-, hshared⟩ := Prod.mk.injEq .. ▸ heq
    rw [← hshared] at hthere ⊢
    exact mem_leaves_news.mpr ⟨Or.inl hnews, hthere⟩

theorem news_onward {name : String} {nap : Nat}
    {ok : HallAction DequeueAttempt QueueSection → Prop} {h h' : Hall WaitedQueue} {key : String}
    (ho : Hall.Onward (waitedQueue name) nap ok (fun s => key ∈ s.table.available) h h')
    (hnews : key ∈ h.shared.news) : key ∈ h'.shared.news := by
  induction ho with
  | here => exact hnews
  | step a _ _ hp hthere ih => exact news_perform hp ih hthere

/-- `h` is reached, a section of another client announces `key`, and the record stays available until
`h'`. Nobody's write fails to be noted. -/
structure Arrives (name key : String) (t₀ : Table) (h h' : Hall WaitedQueue) : Prop where
  arrival : ∃ h₀ b r, Hall.Reached (waitedQueue name) WAIT_RECHECK (· ≠ .forgo) ⟨t₀, ∅⟩ h₀ ∧
    b.action.perform name h₀.shared.table b.reading = some r ∧
    announcedKey b.action r.1 = some key ∧ key ∈ r.2.available ∧
    h₀.perform (waitedQueue name) WAIT_RECHECK (.work b) = some h
  onward : Hall.Onward (waitedQueue name) WAIT_RECHECK (· ≠ .forgo)
    (fun s => key ∈ s.table.available) h h'

theorem Arrives.reached {name key : String} {t₀ : Table} {h h' : Hall WaitedQueue}
    (ha : Arrives name key t₀ h h') :
    Hall.Reached (waitedQueue name) WAIT_RECHECK (· ≠ .forgo) ⟨t₀, ∅⟩ h' := by
  obtain ⟨h₀, b, r, hr, -, -, -, hp⟩ := ha.arrival
  exact ha.onward.reached (.step (.work b) hr (by simp) hp)

theorem Arrives.news {name key : String} {t₀ : Table} {h h' : Hall WaitedQueue}
    (ha : Arrives name key t₀ h h') : key ∈ h'.shared.news := by
  obtain ⟨h₀, b, r, -, hr, hannounced, hthere, hp⟩ := ha.arrival
  refine news_onward ha.onward ?_
  simp only [Hall.perform, waitedQueue, hr, Option.map_some, Option.some.injEq] at hp
  rw [← hp]
  exact mem_leaves_news.mpr ⟨Or.inr hannounced, hthere⟩

/-- A record that was put in for a signal and is still there leaves no waiter asleep unwoken, once
every signal owed has been raised. In the meantime, and for what comes back by itself, nobody sleeps
longer than `WAIT_RECHECK` or past its deadline. -/
theorem waiters_hear_of_arrivals {name key : String} {t₀ : Table} {h h' : Hall WaitedQueue}
    (ha : Arrives name key t₀ h h') {id : Nat} {w : Waiter} (hw : h'.waiters[id]? = some w) :
    (h'.owed = 0 → w.phase.unwoken = false) ∧
    ∀ since till woken, w.phase = .asleep since till woken →
      till ≤ w.deadline ∧ till ≤ since + WAIT_RECHECK ∧ since ≤ h'.clock := by
  have hsound := Hall.Reached.sound (waitedQueue_announced name) (fun _ hok => hok) ha.reached
  refine ⟨fun h0 => ?_, fun since till woken => hsound.naps id w since till woken hw⟩
  cases hun : w.phase.unwoken with
  | false => rfl
  | true => exact absurd ⟨key, ha.news⟩ (hsound.deaf id w hw hun h0)

/-! ### A record put in while a consumer sleeps -/

/-- To sleep, having found nothing. -/
def toSleep : List (HallAction DequeueAttempt QueueSection) :=
  [.arrive 60000, .register 0, .attempt 0 { owner := "W", reading := 0 }, .rest 0]

def arrivingWork : QueueSection := { action := .enqueue {} none, reading := 5 }

def arrivingKey : String := "00000000000005000000"

/-- What the waiter does, and what is owed, after the work and what follows it. -/
def sleeping (rest : List (HallAction DequeueAttempt QueueSection)) : Option (Option Phase × Nat) :=
  (Hall.runAll (waitedQueue "JOBS") WAIT_RECHECK ({ shared := ⟨emptyQueue, ∅⟩ } : Hall WaitedQueue)
    (toSleep ++ .work arrivingWork :: rest)).map fun h => (h.waiters[0]?.map Waiter.phase, h.owed)

/-- What the work announces after those steps, and whether that is there then. -/
def arriving : Option (Option String × Bool) :=
  (Hall.runAll (waitedQueue "JOBS") WAIT_RECHECK ({ shared := ⟨emptyQueue, ∅⟩ } : Hall WaitedQueue)
    toSleep).bind fun h =>
      (arrivingWork.action.perform "JOBS" h.shared.table arrivingWork.reading).map fun r =>
        (announcedKey arrivingWork.action r.1, arrivingKey ∈ r.2.available)

example : sleeping [] = some (some (.asleep 0 1000 false), 1) := by decide +kernel

theorem sleeper_woken : ∃ h h' w, Arrives "JOBS" arrivingKey emptyQueue h h' ∧
    h'.waiters[0]? = some w ∧ w.phase = .asleep 0 1000 true ∧ w.phase.unwoken = false := by
  have hraised : sleeping [.raise] = some (some (.asleep 0 1000 true), 0) := by decide +kernel
  have hannounced : arriving = some (some arrivingKey, true) := by decide +kernel
  obtain ⟨h', hrun, hend⟩ := Option.map_eq_some_iff.mp hraised
  obtain ⟨hphase, howed⟩ := Prod.mk.inj hend
  obtain ⟨w, hw, hasleep⟩ := Option.map_eq_some_iff.mp hphase
  obtain ⟨h₀, hsleep, hrest⟩ := Hall.runAll_append _ _ hrun
  obtain ⟨h, hwork, hrest⟩ := Option.bind_eq_some_iff.mp hrest
  obtain ⟨h₁, hraise, hend⟩ := Option.bind_eq_some_iff.mp hrest
  obtain rfl : h₁ = h' := Option.some.inj hend
  unfold arriving at hannounced
  rw [hsleep, Option.bind_some] at hannounced
  obtain ⟨r, hr, hkey⟩ := Option.map_eq_some_iff.mp hannounced
  obtain ⟨hkey, hthere⟩ := Prod.mk.inj hkey
  have hthere := of_decide_eq_true hthere
  have hreached : Hall.Reached (waitedQueue "JOBS") WAIT_RECHECK (· ≠ .forgo) ⟨emptyQueue, ∅⟩ h₀ :=
    Hall.Reached.runAll _ _ .start (by simp [toSleep]) hsleep
  have harrives : Arrives "JOBS" arrivingKey emptyQueue h h₁ := by
    refine ⟨⟨h₀, arrivingWork, r, hreached, hr, hkey, hthere, hwork⟩, ?_⟩
    refine .step .raise (.here h) (by simp) hraise ?_
    simp only [Hall.perform, waitedQueue, hr, Option.map_some, Option.some.injEq] at hwork
    simp only [Hall.perform] at hraise
    split at hraise
    · cases hraise
    · obtain rfl := Option.some.inj hraise
      rw [← hwork]
      exact hthere
  exact ⟨h, h₁, w, harrives, hw, hasleep, (waiters_hear_of_arrivals harrives hw).1 howed⟩

end RustyPick
