import Mathlib.Logic.Function.Basic
import RustyPick.Lib.Coldest
import RustyPick.Batching

/-!
# RustyPick.Eviction

Which tables stay in memory (`resolve_table`, `touch_lru`, `forget_lru`, `evict_if_over_budget` and
`invalidate_if_stale` of `db/engine/cache.rs`), under any number of threads.

The map of loaded tables and the order of their use are behind locks of their own. A thread puts a
table into the map first and to the warm end of the order afterwards; a table leaves the map first
and the order afterwards. In between, the other threads run.

An eviction is one step here, as it has both locks. The other threads can drop handles and settle
claims all the same while it writes tables out; since it looks at each table once, what is dropped
before that counts as dropped before the eviction, and what is dropped after that as dropped after
it.

* `Residency.Sound`: every table in the map is in the order, or on its way there.
* `evicts_coldest`: so an eviction brings the map within its budget, or down to what is in use. It
  takes the coldest idle tables, and no more than it must.
-/

namespace RustyPick

open Lib

/-- Where a thread is. -/
inductive Resolving where
  | idle
  /-- The table was there, and has not been touched yet. -/
  | found (key : TableKey)
  /-- The table was put into the map, and has not been touched yet. -/
  | loaded (key : TableKey)
  /-- About to look whether the map is over budget. -/
  | touched
  /-- The table has left the map, and not the order yet. -/
  | leaving (key : TableKey)
  deriving DecidableEq

structure Residency (T : Type) where
  tables : List TableKey := []
  lruOrder : List TableKey := []
  /-- Who has a handle to which table. -/
  handles : List (T × TableKey) := []
  /-- The queues somebody holds a record of. -/
  claimed : List TableKey := []
  doing : T → Resolving := fun _ => .idle

inductive ResidencyAction where
  /-- The look into the map. -/
  | find (key : TableKey)
  /-- The copy that was loaded put into the map, or dropped for the one that is there. -/
  | insert (key : TableKey)
  | touch
  /-- `evict_if_over_budget`, at what it finds in use when it looks. -/
  | evict
  | release (key : TableKey)
  /-- `invalidate_if_stale`, as far as the map. -/
  | invalidate (key : TableKey)
  /-- The file or its account is deleted. -/
  | delete (key : TableKey)
  | forget
  | claims (keys : List TableKey)

namespace Residency

variable {T : Type} [DecidableEq T]

def now (s : Residency T) (t : T) (doing : Resolving) : Residency T :=
  { s with doing := Function.update s.doing t doing }

def held (s : Residency T) (key : TableKey) : Bool := s.handles.any fun handle => handle.2 = key

def isLoaded (s : Residency T) (key : TableKey) : Bool := s.tables.any fun other => other = key

/-- Not to be evicted, however cold. -/
def busy (s : Residency T) (key : TableKey) : Bool :=
  s.held key || s.claimed.any fun other => other = key

def touchLru (s : Residency T) (key : TableKey) : Residency T :=
  { s with lruOrder := Lib.touch s.lruOrder key }

def evictIfOverBudget (maxLoaded : Nat) (s : Residency T) : Residency T :=
  if s.tables.length ≤ maxLoaded then s
  else
    let (tables, rest, skipped) := Lib.evict maxLoaded s.busy s.lruOrder s.tables
    { s with tables := tables, lruOrder := rest ++ skipped }

def hold (s : Residency T) (t : T) (key : TableKey) : Residency T :=
  { s with handles := (t, key) :: s.handles }

end Residency

/-- One step of one thread under the map's lock or the order's. -/
def ResidencyAction.perform {T : Type} [DecidableEq T] (maxLoaded : Nat) (s : Residency T) (t : T) :
    ResidencyAction → Option (Residency T)
  | .find key =>
    if s.doing t = .idle ∧ s.isLoaded key = true then
      some ((s.hold t key).now t (.found key))
    else none
  | .insert key =>
    if s.doing t = .idle then
      let tables := if s.isLoaded key then s.tables else key :: s.tables
      some (({ s with tables := tables }.hold t key).now t (.loaded key))
    else none
  | .touch =>
    match s.doing t with
    | .found key => some ((s.touchLru key).now t .idle)
    | .loaded key => some ((s.touchLru key).now t .touched)
    | _ => none
  | .evict =>
    if s.doing t = .touched then some ((s.evictIfOverBudget maxLoaded).now t .idle) else none
  | .release key =>
    if s.doing t = .idle ∧ (t, key) ∈ s.handles then
      some { s with handles := s.handles.erase (t, key) }
    else none
  | .invalidate key =>
    if s.doing t = .idle ∧ s.isLoaded key = true ∧ s.held key = false then
      some ({ s with tables := s.tables.erase key }.now t (.leaving key))
    else none
  | .delete key =>
    if s.doing t = .idle then some ({ s with tables := s.tables.erase key }.now t (.leaving key))
    else none
  | .forget =>
    match s.doing t with
    | .leaving key => some ({ s with lruOrder := s.lruOrder.erase key }.now t .idle)
    | _ => none
  | .claims keys => some { s with claimed := keys }

namespace Residency

variable {T : Type}

/-- A table does not come back between its leaving the map and its leaving the order. -/
def Orderly (s : Residency T) (t : T) (a : ResidencyAction) : Prop :=
  a = .forget → ∀ key, s.doing t = .leaving key → key ∉ s.tables

/-! ## The order knows the map -/

/-- A thread is about to put the table at the warm end, and has a handle to it. -/
def Coming (s : Residency T) (key : TableKey) : Prop :=
  ∃ t, (s.doing t = .found key ∨ s.doing t = .loaded key) ∧ (t, key) ∈ s.handles

structure Sound (s : Residency T) : Prop where
  tables : s.tables.Nodup
  order : s.lruOrder.Nodup
  known : ∀ key ∈ s.tables, key ∈ s.lruOrder ∨ s.Coming key

variable {s s' : Residency T} {t : T}

theorem Sound.init : Sound ({} : Residency T) :=
  ⟨List.nodup_nil, List.nodup_nil, fun _ h => absurd h List.not_mem_nil⟩

theorem isLoaded_iff {key : TableKey} : s.isLoaded key = true ↔ key ∈ s.tables := by
  simp [isLoaded]

theorem Coming.held {key : TableKey} (h : s.Coming key) : s.held key = true := by
  obtain ⟨t, -, hhandle⟩ := h
  exact List.any_eq_true.mpr ⟨_, hhandle, decide_eq_true rfl⟩

theorem Coming.hold {key : TableKey} (h : s.Coming key) (t : T) (other : TableKey) :
    (s.hold t other).Coming key := by
  obtain ⟨t', hdoing, hhandle⟩ := h
  exact ⟨t', hdoing, List.mem_cons_of_mem _ hhandle⟩

theorem Sound.evict (h : Sound s) (maxLoaded : Nat) : Sound (s.evictIfOverBudget maxLoaded) := by
  unfold evictIfOverBudget
  split
  · exact h
  · obtain ⟨front, he⟩ := evict_spec maxLoaded s.busy s.lruOrder s.tables h.tables
    have horder := h.order
    rw [he.split] at horder
    refine ⟨h.tables.sublist he.sublist, ?_, fun key hkey => ?_⟩
    · have hswap := (he.passed.append_right _).nodup horder
      exact (List.perm_append_comm.nodup_iff).mp hswap
    · rcases h.known key (he.sublist.subset hkey) with hin | hcoming
      · rw [he.split, List.mem_append] at hin
        refine .inl (List.mem_append.mpr ?_)
        exact hin.symm.imp_right fun hfront => he.kept key hfront hkey
      · exact .inr hcoming

theorem quiet_of_idle (h : s.doing t = .idle) (key : TableKey) :
    s.doing t ≠ .found key ∧ s.doing t ≠ .loaded key := by
  rw [h]
  exact ⟨by rintro ⟨⟩, by rintro ⟨⟩⟩

variable [DecidableEq T]

inductive Reachable (maxLoaded : Nat) : Residency T → Prop where
  | start : Reachable maxLoaded {}
  | step {s s' : Residency T} (t : T) (a : ResidencyAction) (h : Reachable maxLoaded s)
    (horderly : s.Orderly t a) (hstep : a.perform maxLoaded s t = some s') : Reachable maxLoaded s'

/-- Whoever is not the thread that moves stays where it is. -/
theorem Coming.now {key : TableKey} {d : Resolving} (h : s.Coming key)
    (hquiet : s.doing t ≠ .found key ∧ s.doing t ≠ .loaded key) : (s.now t d).Coming key := by
  obtain ⟨other, hdoing, hhandle⟩ := h
  have hne : other ≠ t := by
    rintro rfl
    exact hdoing.elim hquiet.1 hquiet.2
  refine ⟨other, ?_, hhandle⟩
  simpa only [Residency.now, Function.update_of_ne hne] using hdoing

theorem Coming.of_idle {key : TableKey} {d : Resolving} (h : s.Coming key)
    (hidle : s.doing t = .idle) : (s.now t d).Coming key :=
  h.now (by rw [hidle]; exact ⟨by rintro ⟨⟩, by rintro ⟨⟩⟩)

theorem coming_now {key : TableKey} {d : Resolving} (hd : d = .found key ∨ d = .loaded key) :
    ((s.hold t key).now t d).Coming key := by
  refine ⟨t, ?_, List.mem_cons_self⟩
  simpa only [Residency.now, Function.update_self] using hd

theorem Sound.now (h : Sound s) {d : Resolving}
    (hquiet : ∀ key, s.doing t ≠ .found key ∧ s.doing t ≠ .loaded key) : Sound (s.now t d) :=
  ⟨h.tables, h.order, fun key hkey => (h.known key hkey).imp_right fun hc => hc.now (hquiet key)⟩

/-- Touched, the table is in the order. -/
theorem Sound.touch (h : Sound s) {key : TableKey} {d : Resolving}
    (hdoing : s.doing t = .found key ∨ s.doing t = .loaded key) :
    Sound ((s.touchLru key).now t d) := by
  refine ⟨h.tables, touch_nodup h.order key, fun other hother => ?_⟩
  by_cases heq : other = key
  · exact .inl (mem_touch.mpr (.inr heq))
  · refine (h.known other hother).imp (fun hin => mem_touch.mpr (.inl hin)) fun hc => ?_
    have hquiet : s.doing t ≠ .found other ∧ s.doing t ≠ .loaded other := by
      rcases hdoing with hfound | hloaded
      · rw [hfound]
        exact ⟨by rintro ⟨⟩; exact heq rfl, by rintro ⟨⟩⟩
      · rw [hloaded]
        exact ⟨by rintro ⟨⟩, by rintro ⟨⟩; exact heq rfl⟩
    exact hc.now (s := s.touchLru key) hquiet

/-- A table leaves the map. -/
theorem Sound.leave (h : Sound s) (key : TableKey) (hidle : s.doing t = .idle) :
    Sound ({ s with tables := s.tables.erase key }.now t (.leaving key)) :=
  ⟨h.tables.erase key, h.order, fun other hother =>
    (h.known other (List.mem_of_mem_erase hother)).imp_right fun hc => hc.of_idle hidle⟩

theorem Sound.step {maxLoaded : Nat} {a : ResidencyAction} (h : Sound s) (horderly : s.Orderly t a)
    (hstep : a.perform maxLoaded s t = some s') : Sound s' := by
  cases a with
  | find key =>
    simp only [ResidencyAction.perform] at hstep
    split at hstep
    next hfind =>
      cases hstep
      exact ⟨h.tables, h.order, fun other hother => (h.known other hother).imp_right fun hc =>
        (hc.hold t key).of_idle hfind.1⟩
    · cases hstep
  | insert key =>
    simp only [ResidencyAction.perform] at hstep
    split at hstep
    next hidle =>
      cases hstep
      have hknown : ∀ other ∈ s.tables, other ∈ s.lruOrder ∨
          ((s.hold t key).now t (.loaded key)).Coming other := fun other hother =>
        (h.known other hother).imp_right fun hc => (hc.hold t key).of_idle hidle
      split
      · exact ⟨h.tables, h.order, hknown⟩
      next hnew =>
        have hout : key ∉ s.tables := fun hin => hnew (isLoaded_iff.mpr hin)
        refine ⟨List.nodup_cons.mpr ⟨hout, h.tables⟩, h.order, fun other hother => ?_⟩
        rcases List.mem_cons.mp hother with rfl | hother
        · exact .inr (coming_now (.inr rfl))
        · exact hknown other hother
    · cases hstep
  | touch =>
    simp only [ResidencyAction.perform] at hstep
    split at hstep
    next key hdoing =>
      cases hstep
      exact h.touch (.inl hdoing)
    next key hdoing =>
      cases hstep
      exact h.touch (.inr hdoing)
    · cases hstep
  | evict =>
    simp only [ResidencyAction.perform] at hstep
    split at hstep
    next hdoing =>
      cases hstep
      refine (h.evict maxLoaded).now fun key => ?_
      have hsame : (s.evictIfOverBudget maxLoaded).doing = s.doing := by
        unfold evictIfOverBudget
        split <;> rfl
      rw [hsame, hdoing]
      exact ⟨by rintro ⟨⟩, by rintro ⟨⟩⟩
    · cases hstep
  | release key =>
    simp only [ResidencyAction.perform] at hstep
    split at hstep
    next hidle =>
      cases hstep
      refine ⟨h.tables, h.order, fun other hother => (h.known other hother).imp_right ?_⟩
      rintro ⟨t', hdoing, hhandle⟩
      refine ⟨t', hdoing, (List.mem_erase_of_ne ?_).mpr hhandle⟩
      rintro ⟨⟩
      exact hdoing.elim (quiet_of_idle hidle.1 key).1 (quiet_of_idle hidle.1 key).2
    · cases hstep
  | invalidate key =>
    simp only [ResidencyAction.perform] at hstep
    split at hstep
    next hidle =>
      cases hstep
      exact h.leave key hidle.1
    · cases hstep
  | delete key =>
    simp only [ResidencyAction.perform] at hstep
    split at hstep
    next hidle =>
      cases hstep
      exact h.leave key hidle
    · cases hstep
  | forget =>
    simp only [ResidencyAction.perform] at hstep
    split at hstep
    next key hdoing =>
      cases hstep
      have hout := horderly rfl key hdoing
      refine ⟨h.tables, h.order.erase key, fun other hother => ?_⟩
      have hne : other ≠ key := fun heq => hout (heq ▸ hother)
      refine (h.known other hother).imp (List.mem_erase_of_ne hne).mpr fun hc => ?_
      refine Coming.now (s := { s with lruOrder := s.lruOrder.erase key }) hc ?_
      rw [hdoing]
      exact ⟨by rintro ⟨⟩, by rintro ⟨⟩⟩
    · cases hstep
  | claims keys =>
    simp only [ResidencyAction.perform, Option.some.injEq] at hstep
    subst hstep
    exact ⟨h.tables, h.order, h.known⟩

theorem Reachable.sound {maxLoaded : Nat} (h : Reachable maxLoaded s) : Sound s := by
  induction h with
  | start => exact .init
  | step t a _ horderly hstep ih => exact ih.step horderly hstep

/-! ## What an eviction leaves -/

/-- An eviction brings the map within its budget, or leaves nothing in it that was not in use when it
was looked at. What it takes are the idle tables of a front of the order, as many as it must. -/
theorem evicts_coldest {maxLoaded : Nat} (h : Reachable maxLoaded s)
    (hstep : ResidencyAction.evict.perform maxLoaded s t = some s') :
    (s'.tables.length ≤ maxLoaded ∨ ∀ key ∈ s'.tables, s.busy key = true) ∧
    min maxLoaded s.tables.length ≤ s'.tables.length ∧
    ∃ front rest, s.lruOrder = front ++ rest ∧
      ∀ key, key ∈ s'.tables ↔ key ∈ s.tables ∧ (key ∈ front → s.busy key = true) := by
  simp only [ResidencyAction.perform] at hstep
  split at hstep
  · cases hstep
    unfold evictIfOverBudget
    split
    next hfits =>
      refine ⟨.inl hfits, Nat.min_le_right _ _, [], s.lruOrder, rfl, fun key => ?_⟩
      exact ⟨fun hkey => ⟨hkey, fun hnil => absurd hnil List.not_mem_nil⟩, And.left⟩
    · obtain ⟨front, he⟩ := evict_spec maxLoaded s.busy s.lruOrder s.tables h.sound.tables
      refine ⟨he.enough.imp_right fun hrest key hkey => ?_, he.sparing, front, _, he.split,
        he.stays⟩
      obtain ⟨hmem, hfront⟩ := (he.stays key).mp hkey
      rcases h.sound.known key hmem with hin | hcoming
      · rw [he.split, hrest, List.append_nil] at hin
        exact hfront hin
      · exact Bool.or_eq_true_iff.mpr (.inl hcoming.held)
  · cases hstep

/-- Steps of threads, one after the other. -/
def runAll (maxLoaded : Nat) : Residency T → List (T × ResidencyAction) → Option (Residency T)
  | s, [] => some s
  | s, (t, a) :: rest => (a.perform maxLoaded s t).bind fun s => runAll maxLoaded s rest

theorem Reachable.runAll {maxLoaded : Nat} (h : Reachable maxLoaded s)
    {steps : List (T × ResidencyAction)} (hnone : ∀ step ∈ steps, step.2 ≠ .forget)
    (hrun : s.runAll maxLoaded steps = some s') : Reachable maxLoaded s' := by
  induction steps generalizing s with
  | nil => exact Option.some.inj hrun ▸ h
  | cons step rest ih =>
    obtain ⟨s₁, hstep, hrest⟩ := Option.bind_eq_some_iff.mp hrun
    have horderly : s.Orderly step.1 step.2 := fun hforget =>
      absurd hforget (hnone step List.mem_cons_self)
    exact ih (.step step.1 step.2 h horderly hstep)
      (fun step hin => hnone step (List.mem_cons_of_mem _ hin)) hrest

end Residency

/-- Two files used one after the other, and the second is still in use. -/
def ordersThenJournal : List (Bool × ResidencyAction) :=
  [(true, .insert orders), (true, .touch), (true, .evict), (true, .release orders),
    (true, .insert journal), (true, .touch)]

/-- What is in the map before the eviction and after it. -/
def roomForOne : Option (List TableKey × Option (List TableKey)) :=
  (Residency.runAll 1 {} ordersThenJournal).map fun s =>
    (s.tables, (ResidencyAction.evict.perform 1 s true).map Residency.tables)

theorem orders_leaves : ∃ s s' : Residency Bool, Residency.Reachable 1 s ∧
    ResidencyAction.evict.perform 1 s true = some s' ∧ s.tables = [journal, orders] ∧
    s'.tables = [journal] ∧ (s'.tables.length ≤ 1 ∨ ∀ key ∈ s'.tables, s.busy key = true) := by
  have hrun : roomForOne = some ([journal, orders], some [journal]) := by decide +kernel
  obtain ⟨s, hs, hends⟩ := Option.map_eq_some_iff.mp hrun
  obtain ⟨hbefore, hafter⟩ := Prod.mk.inj hends
  obtain ⟨s', hevict, htables⟩ := Option.map_eq_some_iff.mp hafter
  have hreach : Residency.Reachable 1 s :=
    .runAll .start (by simp [ordersThenJournal]) hs
  exact ⟨s, s', hreach, hevict, hbefore, htables, (Residency.evicts_coldest hreach hevict).1⟩

/-- A table that comes back before it was forgotten stays for good, idle as it is. -/
example : (Residency.runAll 1 {}
    [(true, .insert orders), (true, .touch), (true, .evict), (true, .release orders),
      (true, .invalidate orders),
      (false, .insert orders), (false, .touch), (false, .evict), (false, .release orders),
      (true, .forget),
      (false, .insert journal), (false, .touch), (false, .evict)]).map
    (fun s => (s.tables, s.busy orders)) = some ([journal, orders], false) := by decide +kernel

end RustyPick
