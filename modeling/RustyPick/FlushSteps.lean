import RustyPick.TableFile

/-!
# RustyPick.FlushSteps

What a file's directory is after any prefix of the steps of a flush.

A step touches one part of the directory: the record section, the dictionary or one index. So the
part depends on its own steps only (`data_performAll`, `indexDir_performAll`), and in the order of
`flush_locked` an index has steps behind it only once the records and the dictionary are done
(`flush_stopped`).

* `dict_stopped`: what a half-written dictionary loads as.
* `saveIndexes_stopped`: each index has a prefix of its own save behind it, or nothing.
-/

namespace RustyPick

open Lib

/-! ## Kinds of steps -/

/-- Steps on the records and on the flat file they replace. -/
def IsData : TableStep → Prop
  | .data _ => True
  | .removeFlat => True
  | _ => False

def IsDict : TableStep → Prop
  | .truncateDict => True
  | .appendDict _ => True
  | _ => False

/-- Steps on the queue's book and the counter. -/
def IsBook : TableStep → Prop
  | .renameBook _ => True
  | .renameCounter _ => True
  | _ => False

/-- Steps other than those of `field`. -/
def OtherThan (field : String) : TableStep → Prop
  | .index f _ => f ≠ field
  | _ => True

/-- Steps after those of the records. -/
def AfterData : TableStep → Prop
  | .data _ => False
  | .removeFlat => False
  | _ => True

theorem IsData.not_isDict {s : TableStep} (h : IsData s) : ¬ IsDict s := by
  cases s <;> first | exact id | exact h.elim

theorem IsData.otherThan {s : TableStep} (h : IsData s) (field : String) : OtherThan field s := by
  cases s <;> trivial

theorem IsDict.otherThan {s : TableStep} (h : IsDict s) (field : String) : OtherThan field s := by
  cases s <;> trivial

theorem IsDict.afterData {s : TableStep} (h : IsDict s) : AfterData s := by
  cases s <;> trivial

theorem IsBook.not_isDict {s : TableStep} (h : IsBook s) : ¬ IsDict s := by
  cases s <;> first | exact id | exact h.elim

theorem IsBook.otherThan {s : TableStep} (h : IsBook s) (field : String) : OtherThan field s := by
  cases s <;> trivial

theorem IsBook.afterData {s : TableStep} (h : IsBook s) : AfterData s := by
  cases s <;> trivial

/-! ## The steps of one part -/

def dataSteps (steps : List TableStep) : List FileStep :=
  steps.filterMap fun | .data step => some step | _ => none

def indexSteps (field : String) (steps : List TableStep) : List IndexStep :=
  steps.filterMap fun
    | .index f step => if f = field then some step else none
    | _ => none

@[simp] theorem dataSteps_append (a b : List TableStep) :
    dataSteps (a ++ b) = dataSteps a ++ dataSteps b := List.filterMap_append

@[simp] theorem indexSteps_append (field : String) (a b : List TableStep) :
    indexSteps field (a ++ b) = indexSteps field a ++ indexSteps field b := List.filterMap_append

@[simp] theorem dataSteps_map_data (steps : List FileStep) :
    dataSteps (steps.map .data) = steps := by
  simp [dataSteps, List.filterMap_map]

@[simp] theorem indexSteps_map_index (field : String) (steps : List IndexStep) :
    indexSteps field (steps.map (.index field)) = steps := by
  simp [indexSteps, List.filterMap_map]

theorem indexSteps_of_other {field : String} {steps : List TableStep}
    (h : ∀ s ∈ steps, OtherThan field s) : indexSteps field steps = [] := by
  rw [indexSteps, List.filterMap_eq_nil_iff]
  intro s hs
  have := h s hs
  cases s <;> simp_all [OtherThan]

theorem path_performAll (steps : List TableStep) :
    ∀ dir : TableDir, (dir.performAll steps).path = dir.path := by
  induction steps with
  | nil => intro dir; rfl
  | cons s steps ih =>
    intro dir
    rw [TableDir.performAll, List.foldl_cons]
    refine (ih (dir.perform s)).trans ?_
    cases s <;> rfl

theorem data_performAll (steps : List TableStep) :
    ∀ dir : TableDir, (dir.performAll steps).data = dir.data.performAll (dataSteps steps) := by
  induction steps with
  | nil => intro dir; rfl
  | cons s steps ih =>
    intro dir
    rw [TableDir.performAll, List.foldl_cons]
    refine (ih (dir.perform s)).trans ?_
    cases s <;> rfl

theorem indexDir_perform_ne {field f : String} (h : f ≠ field) (dir : TableDir) (s : IndexStep) :
    (dir.perform (.index f s)).indexDir field = dir.indexDir field := by
  simp only [TableDir.perform, TableDir.indexDir]
  rw [getElem?_insert_ne _ _ h]

theorem indexDir_perform_self (field : String) (dir : TableDir) (s : IndexStep) :
    (dir.perform (.index field s)).indexDir field = (dir.indexDir field).perform s := by
  simp [TableDir.perform, TableDir.indexDir]

theorem indexDir_performAll (field : String) (steps : List TableStep) : ∀ dir : TableDir,
    (dir.performAll steps).indexDir field =
      (dir.indexDir field).performAll (indexSteps field steps) := by
  induction steps with
  | nil => intro dir; rfl
  | cons s steps ih =>
    intro dir
    rw [TableDir.performAll, List.foldl_cons]
    refine (ih (dir.perform s)).trans ?_
    cases s with
    | index f s =>
      by_cases hf : f = field
      · subst hf
        rw [indexDir_perform_self]
        simp [indexSteps, IndexDir.performAll]
      · rw [indexDir_perform_ne hf]
        simp [indexSteps, hf]
    | data s => rfl
    | removeFlat => rfl
    | truncateDict => rfl
    | appendDict bytes => rfl
    | renameBook book => rfl
    | renameCounter next => rfl

/-! ## The order of a flush -/

theorem saveBooks_isBook (t : Table) : ∀ s ∈ (saveBooks t).1, IsBook s := by
  unfold saveBooks
  split
  rename_i book t₁ hbook
  have hall : ∀ s ∈ book, IsBook s := by
    split at hbook
    · split at hbook
      · cases hbook
        simp [IsBook]
      · cases hbook
        simp
    · cases hbook
      simp
  split
  · split
    · intro s hs
      rcases List.mem_append.mp hs with hs | hs
      · exact hall s hs
      · rw [List.mem_singleton] at hs
        subst hs
        trivial
    · exact hall
  · exact hall

/-- The books are all that is touched. -/
theorem saveBooks_eq (t : Table) : ∃ queue autokey,
    (saveBooks t).2 = { t with queue := queue, autokey := autokey } := by
  unfold saveBooks
  split
  rename_i book t₁ hbook
  have hsame : ∃ queue, t₁ = { t with queue := queue } := by
    split at hbook
    · split at hbook
      · cases hbook
        exact ⟨_, rfl⟩
      · cases hbook
        exact ⟨t.queue, rfl⟩
    · cases hbook
      exact ⟨t.queue, rfl⟩
  obtain ⟨queue, rfl⟩ := hsame
  split
  · split
    · exact ⟨_, _, rfl⟩
    · exact ⟨_, t.autokey, rfl⟩
  · exact ⟨_, t.autokey, rfl⟩

theorem saveBooks_same (t : Table) :
    (saveBooks t).2.indexes = t.indexes ∧ (saveBooks t).2.records = t.records ∧
      (saveBooks t).2.dictionary = t.dictionary := by
  obtain ⟨queue, autokey, h⟩ := saveBooks_eq t
  rw [h]
  exact ⟨rfl, rfl, rfl⟩

/-- A flush stopped anywhere is in the records, in the dictionary, or past both. -/
theorem flush_stopped {order : FlushOrder} {dir : TableDir} {t : Table} {perGroup : Nat}
    {pre : List TableStep} (h : pre <+: (flushLocked order dir t perGroup).1) :
    let saved := saveData order.toSaveOrder dir t.rebuildStaleIndexes perGroup
    pre <+: saved.1 ∨ ∃ t₁, saved.2 = some (.ok t₁) ∧
      ((∃ q, pre = saved.1 ++ q ∧ q <+: saveDict order t₁) ∨
        ∃ q r, pre = saved.1 ++ saveDict order t₁ ++ q ++ r ∧
          q <+: (saveIndexes order.toSaveOrder dir t₁.dataMeta.version perGroup
            t₁.indexes.toList).1 ∧ ∀ s ∈ r, IsBook s) := by
  intro saved
  unfold flushLocked at h
  split at h
  · rw [List.prefix_nil] at h
    subst h
    exact Or.inl List.nil_prefix
  dsimp only at h
  split at h
  · rename_i steps hsaved
    exact Or.inl (by simpa [saved, hsaved] using h)
  · rename_i steps e hsaved
    exact Or.inl (by simpa [saved, hsaved] using h)
  rename_i steps t₁ hsaved
  have hsteps : saved.1 = steps := by simp [saved, hsaved]
  have hout : saved.2 = some (.ok t₁) := by simp [saved, hsaved]
  rw [hsteps]
  -- the records and the dictionary, then the indexes, then the books
  have hcut : ∀ books : List TableStep, (∀ s ∈ books, IsBook s) →
      pre <+: steps ++ saveDict order t₁ ++ (saveIndexes order.toSaveOrder dir
        t₁.dataMeta.version perGroup t₁.indexes.toList).1 ++ books →
      pre <+: steps ∨ ∃ t₁', saved.2 = some (.ok t₁') ∧
        ((∃ q, pre = steps ++ q ∧ q <+: saveDict order t₁') ∨
          ∃ q r, pre = steps ++ saveDict order t₁' ++ q ++ r ∧
            q <+: (saveIndexes order.toSaveOrder dir t₁'.dataMeta.version perGroup
              t₁'.indexes.toList).1 ∧ ∀ s ∈ r, IsBook s) := by
    intro books hbooks hpre
    rcases prefix_append_cases hpre with hpre | ⟨r, rfl, hr⟩
    · rcases prefix_append_cases hpre with hpre | ⟨q, rfl, hq⟩
      · rcases prefix_append_cases hpre with hpre | ⟨q, rfl, hq⟩
        · exact Or.inl hpre
        · exact Or.inr ⟨t₁, hout, Or.inl ⟨q, rfl, hq⟩⟩
      · exact Or.inr ⟨t₁, hout, Or.inr ⟨q, [], by simp, hq, by simp⟩⟩
    · exact Or.inr ⟨t₁, hout, Or.inr ⟨_, r, rfl, List.prefix_rfl,
        fun s hs => hbooks s (hr.subset hs)⟩⟩
  split at h
  · rename_i later hlater
    exact hcut [] (by simp) (by simpa [hlater] using h)
  · rename_i later e hlater
    exact hcut [] (by simp) (by simpa [hlater] using h)
  · rename_i later idxs hlater
    refine hcut _ (saveBooks_isBook { t₁ with indexes := insertAll ∅ idxs }) ?_
    rw [hlater]
    exact h

/-- A flush that had something to write and returned. -/
structure Flushed (order : FlushOrder) (dir : TableDir) (t : Table) (perGroup : Nat)
    (steps : List TableStep) (t' t₁ : Table) (saved : List (String × FileIndex))
    (data later books : List TableStep) : Prop where
  data_eq : saveData order.toSaveOrder dir t.rebuildStaleIndexes perGroup = (data, some (.ok t₁))
  indexes_eq : saveIndexes order.toSaveOrder dir t₁.dataMeta.version perGroup t₁.indexes.toList =
    (later, some (.ok saved))
  steps_eq : steps = data ++ saveDict order t₁ ++ later ++ books
  books_isBook : ∀ s ∈ books, IsBook s
  table : ∃ queue autokey, t' = ({ t₁ with
    indexes := insertAll ∅ saved, queue := queue, autokey := autokey } : Table).clearDirty

theorem flushed_of_ok {order : FlushOrder} {dir : TableDir} {t t' : Table} {perGroup : Nat}
    {steps : List TableStep} (h : flushLocked order dir t perGroup = (steps, some (.ok t')))
    (hdirty : t.isDirty = true) :
    ∃ t₁ saved data later books, Flushed order dir t perGroup steps t' t₁ saved data later books := by
  unfold flushLocked at h
  rw [if_neg (not_not.mpr hdirty)] at h
  dsimp only at h
  split at h
  · cases h
  · cases h
  rename_i data t₁ hdata
  split at h
  · cases h
  · cases h
  rename_i later saved hindexes
  obtain ⟨queue, autokey, hbooks⟩ := saveBooks_eq { t₁ with indexes := insertAll ∅ saved }
  have hout := congrArg Prod.snd h
  have hsteps := congrArg Prod.fst h
  refine ⟨t₁, saved, data, later, (saveBooks { t₁ with indexes := insertAll ∅ saved }).1, hdata,
    hindexes, hsteps.symm, saveBooks_isBook _, queue, autokey, ?_⟩
  simp only [Option.some.injEq, Except.ok.injEq] at hout
  rw [← hout, hbooks]

/-! ## The indexes -/

theorem saveIndexes_other {order : SaveOrder} {dir : TableDir} {dataVersion perGroup : Nat}
    {field : String} (l : List (String × FileIndex)) (hl : ∀ e ∈ l, e.1 ≠ field) :
    ∀ s ∈ (saveIndexes order dir dataVersion perGroup l).1, OtherThan field s := by
  induction l with
  | nil => simp [saveIndexes]
  | cons e l ih =>
    have he := hl e List.mem_cons_self
    have hrest := ih fun e he => hl e (List.mem_cons_of_mem _ he)
    have hown : ∀ steps : List IndexStep, ∀ s ∈ steps.map (TableStep.index e.1),
        OtherThan field s := by
      intro steps s hs
      obtain ⟨i, -, rfl⟩ := List.mem_map.mp hs
      exact he
    intro s hs
    unfold saveIndexes at hs
    split at hs
    · exact hown _ s hs
    · exact hown _ s hs
    · split at hs
      all_goals
        rename_i hlater
        rw [hlater] at hrest
        rcases List.mem_append.mp hs with hs | hs
        · exact hown _ s hs
        · exact hrest s hs

/-- The steps of the first index, then those of the rest, unless the first one's end it. -/
theorem saveIndexes_cons (order : SaveOrder) (dir : TableDir) (dataVersion perGroup : Nat)
    (field : String) (idx : FileIndex) (l : List (String × FileIndex)) :
    let own := (idx.save order (dir.indexDir field) dataVersion perGroup).1.map
      (TableStep.index field)
    (saveIndexes order dir dataVersion perGroup ((field, idx) :: l)).1 = own ∨
      (saveIndexes order dir dataVersion perGroup ((field, idx) :: l)).1 =
        own ++ (saveIndexes order dir dataVersion perGroup l).1 := by
  intro own
  rw [saveIndexes]
  split
  · rename_i hsave; exact Or.inl (by simp [own, hsave])
  · rename_i hsave; exact Or.inl (by simp [own, hsave])
  · rename_i hsave
    right
    split
    all_goals
      rename_i hlater
      simp [own, hsave, hlater]

theorem saveIndexes_isIndex {order : SaveOrder} {dir : TableDir} {dataVersion perGroup : Nat}
    (l : List (String × FileIndex)) : ∀ s ∈ (saveIndexes order dir dataVersion perGroup l).1,
      ∃ f i, s = TableStep.index f i := by
  induction l with
  | nil => simp [saveIndexes]
  | cons e l ih =>
    have hown : ∀ steps : List IndexStep, ∀ s ∈ steps.map (TableStep.index e.1),
        ∃ f i, s = TableStep.index f i := by
      intro steps s hs
      obtain ⟨i, -, rfl⟩ := List.mem_map.mp hs
      exact ⟨e.1, i, rfl⟩
    intro s hs
    rcases saveIndexes_cons order dir dataVersion perGroup e.1 e.2 l with heq | heq
    · rw [heq] at hs
      exact hown _ s hs
    · rw [heq] at hs
      rcases List.mem_append.mp hs with hs | hs
      · exact hown _ s hs
      · exact ih s hs

/-- Stopped anywhere, each index has a prefix of its own save behind it, or nothing. -/
theorem saveIndexes_stopped {order : SaveOrder} {dir : TableDir} {dataVersion perGroup : Nat}
    (field : String) (l : List (String × FileIndex)) (hl : l.Pairwise fun a b => a.1 ≠ b.1) :
    ∀ pre, pre <+: (saveIndexes order dir dataVersion perGroup l).1 →
      indexSteps field pre = [] ∨ ∃ idx, (field, idx) ∈ l ∧
        indexSteps field pre <+: (idx.save order (dir.indexDir field) dataVersion perGroup).1 := by
  induction l with
  | nil =>
    intro pre hpre
    rw [saveIndexes, List.prefix_nil] at hpre
    subst hpre
    exact Or.inl rfl
  | cons e l ih =>
    obtain ⟨f, idx⟩ := e
    rw [List.pairwise_cons] at hl
    intro pre hpre
    have hown : ∀ q, q <+: (idx.save order (dir.indexDir f) dataVersion perGroup).1.map
        (TableStep.index f) → indexSteps field q = [] ∨ ∃ idx', (field, idx') ∈ (f, idx) :: l ∧
          indexSteps field q <+:
            (idx'.save order (dir.indexDir field) dataVersion perGroup).1 := by
      intro q hq
      obtain ⟨steps, hsteps, rfl⟩ := List.prefix_map_iff.mp hq
      by_cases hf : f = field
      · subst hf
        right
        refine ⟨idx, List.mem_cons_self, ?_⟩
        rw [indexSteps_map_index]
        exact hsteps
      · left
        apply indexSteps_of_other
        intro s hs
        obtain ⟨i, -, rfl⟩ := List.mem_map.mp hs
        exact hf
    rcases saveIndexes_cons order dir dataVersion perGroup f idx l with heq | heq
    · rw [heq] at hpre
      exact hown pre hpre
    · rw [heq] at hpre
      rcases prefix_append_cases hpre with hpre | ⟨q, rfl, hq⟩
      · exact hown pre hpre
      · rw [indexSteps_append]
        by_cases hf : f = field
        · subst hf
          have hnone : indexSteps f q = [] := by
            apply indexSteps_of_other
            intro s hs
            exact saveIndexes_other l (fun e he => (hl.1 e he).symm) s (hq.subset hs)
          right
          refine ⟨idx, List.mem_cons_self, ?_⟩
          rw [hnone, indexSteps_map_index, List.append_nil]
        · have hskip : indexSteps field ((idx.save order (dir.indexDir f) dataVersion
              perGroup).1.map (TableStep.index f)) = [] := by
            apply indexSteps_of_other
            intro s hs
            obtain ⟨i, -, rfl⟩ := List.mem_map.mp hs
            exact hf
          rw [hskip, List.nil_append]
          rcases ih hl.2 q hq with h | ⟨idx', hmem, h⟩
          · exact Or.inl h
          · exact Or.inr ⟨idx', List.mem_cons_of_mem _ hmem, h⟩

/-- Each index of a flush that returned has all of its own save behind it. -/
theorem saveIndexes_ok {order : SaveOrder} {dir : TableDir} {dataVersion perGroup : Nat}
    (l : List (String × FileIndex)) (hl : l.Pairwise fun a b => a.1 ≠ b.1) :
    ∀ {later : List TableStep} {saved : List (String × FileIndex)},
      saveIndexes order dir dataVersion perGroup l = (later, some (.ok saved)) →
      ∀ field idx', (field, idx') ∈ saved → ∃ idx, (field, idx) ∈ l ∧
        idx.save order (dir.indexDir field) dataVersion perGroup =
          (indexSteps field later, some (.ok idx')) := by
  induction l with
  | nil =>
    intro later saved h field idx' hmem
    cases h
    cases hmem
  | cons e l ih =>
    obtain ⟨f, idx⟩ := e
    rw [List.pairwise_cons] at hl
    intro later saved h field idx' hmem
    rw [saveIndexes] at h
    split at h
    · cases h
    · cases h
    rename_i steps saved₁ hown
    split at h
    · cases h
    · cases h
    rename_i rest saved₂ hrest
    cases h
    have hother : ∀ s ∈ rest, OtherThan f s := by
      have hall := @saveIndexes_other order dir dataVersion perGroup f l
        fun e he => (hl.1 e he).symm
      rw [hrest] at hall
      exact hall
    rcases List.mem_cons.mp hmem with heq | hmem
    · cases heq
      refine ⟨idx, List.mem_cons_self, ?_⟩
      rw [hown, indexSteps_append, indexSteps_map_index, indexSteps_of_other hother,
        List.append_nil]
    · obtain ⟨idx₀, hmem₀, hsave⟩ := ih hl.2 hrest field idx' hmem
      refine ⟨idx₀, List.mem_cons_of_mem _ hmem₀, ?_⟩
      have hne : f ≠ field := hl.1 _ hmem₀
      have hskip : indexSteps field (steps.map (TableStep.index f)) = [] := by
        apply indexSteps_of_other
        intro s hs
        obtain ⟨i, -, rfl⟩ := List.mem_map.mp hs
        exact hne
      rw [hsave, indexSteps_append, hskip, List.nil_append]

/-! ## The dictionary -/

theorem dict_performAll (steps : List TableStep) : ∀ dir : TableDir,
    (∀ s ∈ steps, ¬ IsDict s) → (dir.performAll steps).dict = dir.dict := by
  induction steps with
  | nil => intro dir _; rfl
  | cons s steps ih =>
    intro dir h
    rw [TableDir.performAll, List.foldl_cons]
    refine (ih (dir.perform s) fun s hs => h s (List.mem_cons_of_mem _ hs)).trans ?_
    have hs := h s List.mem_cons_self
    cases s <;> first | rfl | exact absurd trivial hs

theorem dict_append (pieces : List Bytes) : ∀ dir : TableDir, ∀ b, dir.dict = some b →
    (dir.performAll (pieces.map .appendDict)).dict = some (b ++ pieces.flatten) := by
  induction pieces with
  | nil => intro dir b h; simpa [TableDir.performAll] using h
  | cons piece pieces ih =>
    intro dir b h
    rw [List.map_cons, TableDir.performAll, List.foldl_cons]
    have hone : (dir.perform (.appendDict piece)).dict = some (b ++ piece) := by
      simp [TableDir.perform, h]
    have := ih _ _ hone
    simpa [TableDir.performAll] using this

/-- Stopped on the way, the dictionary file is as it was or the beginning of the new one. -/
theorem dict_stopped {order : FlushOrder} {t : Table} {q : List TableStep}
    (h : q <+: saveDict order t) (dir : TableDir) :
    (dir.performAll q).dict = dir.dict ∨ t.dictDirty = true ∧ ∃ b,
      (dir.performAll q).dict = some b ∧ b <+: sectionBytes t.dictionary := by
  unfold saveDict at h
  split at h
  · rename_i hdirty
    cases q with
    | nil => exact Or.inl rfl
    | cons s q =>
      rw [List.cons_prefix_cons] at h
      obtain ⟨rfl, h⟩ := h
      obtain ⟨ps, hps, rfl⟩ := List.prefix_map_iff.mp h
      right
      refine ⟨hdirty, ps.flatten, ?_, ?_⟩
      · rw [TableDir.performAll, List.foldl_cons]
        have := dict_append ps (dir.perform .truncateDict) [] rfl
        simpa [TableDir.performAll] using this
      · obtain ⟨later, hlater⟩ := hps
        refine ⟨later.flatten, ?_⟩
        rw [← List.flatten_append, hlater, order.pieces_join]
  · rw [List.prefix_nil] at h
    subst h
    exact Or.inl rfl

theorem dict_saved (order : FlushOrder) (t : Table) (dir : TableDir) :
    (dir.performAll (saveDict order t)).dict =
      if t.dictDirty then some (sectionBytes t.dictionary) else dir.dict := by
  unfold saveDict
  split
  · rw [TableDir.performAll, List.foldl_cons]
    have := dict_append (order.pieces (sectionBytes t.dictionary)) (dir.perform .truncateDict) [] rfl
    simpa [TableDir.performAll, order.pieces_join] using this
  · rfl

theorem saveDict_isDict (order : FlushOrder) (t : Table) : ∀ s ∈ saveDict order t, IsDict s := by
  unfold saveDict
  split
  · intro s hs
    rcases List.mem_cons.mp hs with rfl | hs
    · trivial
    · obtain ⟨b, -, rfl⟩ := List.mem_map.mp hs
      trivial
  · simp

/-- The beginning of a section file loads as some of its entries, if it loads. -/
theorem loadSection_torn {path : String} {M d : Entries} {b : Bytes} (hmem : InMemory M)
    (hb : b <+: sectionBytes M) (h : loadSection path (some b) = .ok d) (k : String) :
    d[k]? = none ∨ d[k]? = (storedForm M)[k]? := by
  unfold loadSection at h
  dsimp only at h
  split at h
  · cases h
  rename_i read hread
  cases h
  have haddr : ∀ e ∈ M.toList, Addressable e.1 e.2 := fun e he =>
    hmem.2 e.1 e.2 (Std.ExtTreeMap.mem_toList_iff_getElem?_eq_some.mp he)
  have hpre := readLoop_frames_torn M.toList haddr hb hread
  cases hk : (insertAll ∅ read)[k]? with
  | none => exact Or.inl rfl
  | some v =>
    right
    rcases of_getElem?_insertAll hk with hmem' | hnone
    · obtain ⟨⟨j, r⟩, hj, heq⟩ := List.mem_map.mp (hpre.subset hmem')
      cases heq
      rw [getElem?_storedForm, Std.ExtTreeMap.mem_toList_iff_getElem?_eq_some.mp hj]
      rfl
    · simp at hnone

/-- A whole section file loads as its entries, if it loads. -/
theorem loadSection_written {path : String} {M d : Entries} (hmem : InMemory M)
    (h : loadSection path (some (sectionBytes M)) = .ok d) : d = storedForm M := by
  unfold loadSection at h
  dsimp only at h
  have hle := length_le_length_frames M.toList
  have haddr : ∀ e ∈ M.toList, Addressable e.1 e.2 := fun e he =>
    hmem.2 e.1 e.2 (Std.ExtTreeMap.mem_toList_iff_getElem?_eq_some.mp he)
  by_cases hfit : ∀ e ∈ M.toList, Fits e.1 e.2
  · rw [sectionBytes, readLoop_frames path M.toList _ (by omega) hfit] at h
    cases h
    exact insertAll_map_toList _ _
  · push Not at hfit
    obtain ⟨err, herr⟩ := readLoop_frames_oversize path M.toList
      ((frames M.toList).length + 1) (by omega) haddr hfit
    rw [sectionBytes, herr] at h
    cases h

/-! ## The records -/

theorem dataSteps_of_after {steps : List TableStep} (h : ∀ s ∈ steps, AfterData s) :
    dataSteps steps = [] := by
  rw [dataSteps, List.filterMap_eq_nil_iff]
  intro s hs
  have := h s hs
  cases s <;> simp_all [AfterData]

theorem flat_performAll (steps : List TableStep) : ∀ dir : TableDir,
    (∀ s ∈ steps, s ≠ .removeFlat) → (dir.performAll steps).flat = dir.flat := by
  induction steps with
  | nil => intro dir _; rfl
  | cons s steps ih =>
    intro dir h
    rw [TableDir.performAll, List.foldl_cons]
    refine (ih (dir.perform s) fun s hs => h s (List.mem_cons_of_mem _ hs)).trans ?_
    have hs := h s List.mem_cons_self
    cases s <;> first | rfl | exact absurd rfl hs

/-- The records are loaded from their section and, before there is one, from the flat file. -/
theorem loadData_congr {dir dir' : TableDir} (hd : dir'.data = dir.data) (hf : dir'.flat = dir.flat)
    (hp : dir'.path = dir.path) : loadData dir' = loadData dir := by
  simp only [loadData, TableDir.dataPath, hd, hf, hp]

theorem saveData_same {order : SaveOrder} {dir : TableDir} {t t' : Table} {perGroup : Nat}
    (h : (saveData order dir t perGroup).2 = some (.ok t')) :
    t'.indexes = t.indexes ∧ t'.records = t.records ∧ t'.dictionary = t.dictionary ∧
      t'.dictDirty = t.dictDirty := by
  unfold saveData at h
  split at h
  · split at h
    · cases h
    · cases h
    · cases h
      exact ⟨rfl, rfl, rfl, rfl⟩
  · cases h
    exact ⟨rfl, rfl, rfl, rfl⟩

theorem saveData_isData (order : SaveOrder) (dir : TableDir) (t : Table) (perGroup : Nat) :
    ∀ s ∈ (saveData order dir t perGroup).1, IsData s := by
  have hmap : ∀ (steps : List FileStep), ∀ s ∈ steps.map TableStep.data, IsData s := by
    intro steps s hs
    obtain ⟨i, -, rfl⟩ := List.mem_map.mp hs
    trivial
  unfold saveData
  split
  · split
    · exact hmap _
    · exact hmap _
    · intro s hs
      rcases List.mem_append.mp hs with hs | hs
      · exact hmap _ s hs
      · split at hs
        · rw [List.mem_singleton] at hs
          subst hs
          trivial
        · cases hs
  · simp

namespace Flushed

variable {order : FlushOrder} {dir : TableDir} {t t' t₁ : Table} {perGroup : Nat}
  {steps data later books : List TableStep} {saved : List (String × FileIndex)}

theorem data_isData (h : Flushed order dir t perGroup steps t' t₁ saved data later books) :
    ∀ s ∈ data, IsData s := by
  have hall := saveData_isData order.toSaveOrder dir t.rebuildStaleIndexes perGroup
  rw [h.data_eq] at hall
  exact hall

theorem later_isIndex (h : Flushed order dir t perGroup steps t' t₁ saved data later books) :
    ∀ s ∈ later, ∃ f i, s = TableStep.index f i := by
  have hall := @saveIndexes_isIndex order.toSaveOrder dir t₁.dataMeta.version perGroup
    t₁.indexes.toList
  rw [h.indexes_eq] at hall
  exact hall

theorem dataSteps_eq (h : Flushed order dir t perGroup steps t' t₁ saved data later books) :
    dataSteps steps = dataSteps data := by
  have hdict : dataSteps (saveDict order t₁) = [] :=
    dataSteps_of_after fun s hs => (saveDict_isDict order t₁ s hs).afterData
  have hindex : dataSteps later = [] := by
    apply dataSteps_of_after
    intro s hs
    obtain ⟨f, i, rfl⟩ := h.later_isIndex s hs
    trivial
  have hbooks : dataSteps books = [] :=
    dataSteps_of_after fun s hs => (h.books_isBook s hs).afterData
  rw [h.steps_eq, dataSteps_append, dataSteps_append, dataSteps_append, hdict, hindex, hbooks,
    List.append_nil, List.append_nil, List.append_nil]

theorem indexSteps_eq (h : Flushed order dir t perGroup steps t' t₁ saved data later books)
    (field : String) : indexSteps field steps = indexSteps field later := by
  have hdata : indexSteps field data = [] :=
    indexSteps_of_other fun s hs => (h.data_isData s hs).otherThan field
  have hdict : indexSteps field (saveDict order t₁) = [] :=
    indexSteps_of_other fun s hs => (saveDict_isDict order t₁ s hs).otherThan field
  have hbooks : indexSteps field books = [] :=
    indexSteps_of_other fun s hs => (h.books_isBook s hs).otherThan field
  rw [h.steps_eq, indexSteps_append, indexSteps_append, indexSteps_append, hdata, hdict, hbooks,
    List.nil_append, List.nil_append, List.append_nil]

theorem dict_eq (h : Flushed order dir t perGroup steps t' t₁ saved data later books) :
    (dir.performAll steps).dict =
      if t.dictDirty then some (sectionBytes t.dictionary) else dir.dict := by
  obtain ⟨-, -, hdictionary, hdictDirty⟩ := saveData_same (congrArg Prod.snd h.data_eq)
  have hdata : ∀ s ∈ data, ¬ IsDict s := fun s hs => (h.data_isData s hs).not_isDict
  have hlater : ∀ s ∈ later, ¬ IsDict s := by
    intro s hs
    obtain ⟨f, i, rfl⟩ := h.later_isIndex s hs
    exact id
  have hbooks : ∀ s ∈ books, ¬ IsDict s := fun s hs => (h.books_isBook s hs).not_isDict
  rw [h.steps_eq, TableDir.performAll_append, TableDir.performAll_append,
    TableDir.performAll_append, dict_performAll _ _ hbooks, dict_performAll _ _ hlater,
    dict_saved, dict_performAll _ _ hdata, hdictionary, hdictDirty]
  rfl

end Flushed

/-- What loads once the records of `t` have been saved. -/
structure SavedData (t : Table) (data : LoadedData) : Prop where
  records : data.records = storedForm t.records
  version : data.dataMeta.version = (t.dataMeta.version + 1) % 2 ^ 64
  legacyData : data.legacyData = false

/-- What loads while they are being saved over `D`. -/
structure HalfSaved (t : Table) (D : Entries) (perGroup : Nat) (data : LoadedData) : Prop where
  dataMeta : data.dataMeta = t.dataMeta
  legacyData : data.legacyData = false
  records : ∃ m', planModulus t.dataMeta.modulus t.records.size perGroup = some m' ∧
    ∀ k : String, data.records[k]? = D[k]? ∨
      (data.records[k]? = t.records[k]?.map Record.stored ∧
        (t.dataMeta.modulus < m' → groupOf k m' = groupOf k t.dataMeta.modulus)) ∨
      data.records[k]? = none

section Records

variable {order : SaveOrder} {dir : TableDir} {t : Table} {perGroup : Nat} {D : Entries}

/-- The steps of a save of the records, when its plan returns. -/
theorem saveData_plan (order : SaveOrder) (hold : Holds dir.data t.dataMeta D)
    (hd : CoversChanges t.savedKeys D t.records) {m' : Nat} (hdirty : t.recordsDirty = true)
    (hplan : planModulus t.dataMeta.modulus t.records.size perGroup = some m') :
    ∃ visited removals steps,
      SavePlan dir.data t.dataMeta D t.records m'
        (nextMeta t.dataMeta t.records t.savedKeys m') visited removals steps ∧
      saveData order dir t perGroup =
        (steps.map .data ++ (if t.legacyData then [.removeFlat] else []),
          some (.ok { t with
            dataMeta := nextMeta t.dataMeta t.records t.savedKeys m'
            legacyData := false })) := by
  obtain ⟨visited, removals, hsp, hout⟩ := savePlan order hold hd hplan
  refine ⟨visited, removals, _, hsp, ?_⟩
  have heq : saveWithFsync order dir.data t.records t.dataMeta t.savedKeys perGroup =
      ((saveWithFsync order dir.data t.records t.dataMeta t.savedKeys perGroup).1,
        some (.ok (nextMeta t.dataMeta t.records t.savedKeys m'))) := by
    rw [← hout]
  unfold saveData
  rw [if_pos hdirty, heq]

theorem saveData_no_plan
    (hplan : planModulus t.dataMeta.modulus t.records.size perGroup = none)
    (hdirty : t.recordsDirty = true) : saveData order dir t perGroup = ([], none) := by
  simp [saveData, hdirty, saveWithFsync, hplan]

theorem saveData_clean (hdirty : t.recordsDirty = false) :
    saveData order dir t perGroup = ([], some (.ok t)) := by
  simp [saveData, hdirty]

/-- A directory whose record section is complete loads as what was saved. -/
theorem loadData_complete (hold : Holds dir.data t.dataMeta D) (hmem : InMemory t.records)
    {m' : Nat} (hplan : planModulus t.dataMeta.modulus t.records.size perGroup = some m')
    {visited removals : List Nat} {steps : List FileStep}
    (hsp : SavePlan dir.data t.dataMeta D t.records m'
      (nextMeta t.dataMeta t.records t.savedKeys m') visited removals steps)
    {dir' : TableDir} (hdata : dir'.data = dir.data.performAll steps) {data : LoadedData}
    (hload : loadData dir' = .ok data) : SavedData t data := by
  obtain ⟨-, hmeta, -⟩ := hsp.groups_after
  unfold loadData at hload
  rw [hdata, hmeta] at hload
  dsimp only at hload
  split at hload
  · cases hload
  · rename_i found map hfound
    cases hload
    obtain ⟨rfl, rfl⟩ := load_saved hold (planModulus_pow hold.modulus hplan) hsp hmem hfound
    exact ⟨rfl, rfl, rfl⟩

/-- Stopped among the steps of the records: nothing to be seen of it, half saved, or saved. -/
theorem loadData_stopped (hold : Holds dir.data t.dataMeta D)
    (hd : CoversChanges t.savedKeys D t.records) (hmem : InMemory t.records)
    {pre : List TableStep} (hpre : pre <+: (saveData order dir t perGroup).1) {data : LoadedData}
    (hload : loadData (dir.performAll pre) = .ok data) :
    loadData dir = .ok data ∨
      t.recordsDirty = true ∧ dir.data.metaFile ≠ none ∧ HalfSaved t D perGroup data ∨
      t.recordsDirty = true ∧ SavedData t data := by
  have hnil : (saveData order dir t perGroup).1 = [] → loadData dir = .ok data := by
    intro hnil
    rw [hnil, List.prefix_nil] at hpre
    subst hpre
    exact hload
  by_cases hdirty : t.recordsDirty = true
  swap
  · exact Or.inl (hnil (by simp [saveData, hdirty]))
  cases hplan : planModulus t.dataMeta.modulus t.records.size perGroup with
  | none => exact Or.inl (hnil (by rw [saveData_no_plan hplan hdirty]))
  | some m' =>
    obtain ⟨visited, removals, steps, hsp, hsave⟩ := saveData_plan order hold hd hdirty hplan
    rw [hsave] at hpre
    rcases prefix_append_cases hpre with hpre | ⟨r, rfl, hr⟩
    · obtain ⟨q, hq, rfl⟩ := List.prefix_map_iff.mp hpre
      have hdata : (dir.performAll (q.map .data)).data = dir.data.performAll q := by
        rw [data_performAll, dataSteps_map_data]
      rcases hsp.stopped hq with rfl | ⟨vs, rs, hint⟩
      · exact Or.inr (Or.inr ⟨hdirty, loadData_complete hold hmem hplan hsp hdata hload⟩)
      · cases hmeta : dir.data.metaFile with
        | none =>
          left
          have hflat : (dir.performAll (q.map .data)).flat = dir.flat := by
            apply flat_performAll
            intro s hs
            obtain ⟨i, -, rfl⟩ := List.mem_map.mp hs
            simp
          have hm := hint.metaFile
          rw [hmeta] at hm
          rw [← hload]
          simp only [loadData, hdata, hm, hmeta, hflat, TableDir.dataPath, path_performAll]
        | some bytes =>
          right
          left
          refine ⟨hdirty, by simp, ?_⟩
          have hm := hint.metaFile
          rw [hmeta] at hm
          unfold loadData at hload
          rw [hdata, hm] at hload
          dsimp only at hload
          split at hload
          · cases hload
          · rename_i found map hfound
            cases hload
            obtain ⟨rfl, hlook⟩ :=
              lookup_interrupted hold hint (planModulus_pow hold.modulus hplan) hsp hmem hfound
            refine ⟨rfl, rfl, m', hplan, fun k => ?_⟩
            rcases hlook k with h | h | h
            · exact Or.inl h
            · exact Or.inr (Or.inl h)
            · exact Or.inr (Or.inr h.1)
    · have hdata : (dir.performAll (steps.map .data ++ r)).data = dir.data.performAll steps := by
        have hnone : dataSteps r = [] := by
          rw [dataSteps, List.filterMap_eq_nil_iff]
          intro s hs
          have := hr.subset hs
          split at this
          · rw [List.mem_singleton] at this
            subst this
            rfl
          · cases this
        rw [data_performAll, dataSteps_append, dataSteps_map_data, hnone, List.append_nil]
      exact Or.inr (Or.inr ⟨hdirty, loadData_complete hold hmem hplan hsp hdata hload⟩)

/-- Past the steps of the records: saved, or never to be written. -/
theorem loadData_done (hold : Holds dir.data t.dataMeta D)
    (hd : CoversChanges t.savedKeys D t.records) (hmem : InMemory t.records) {t₁ : Table}
    (hok : (saveData order dir t perGroup).2 = some (.ok t₁)) {q : List TableStep}
    (hq : ∀ s ∈ q, AfterData s) {data : LoadedData}
    (hload : loadData (dir.performAll ((saveData order dir t perGroup).1 ++ q)) = .ok data) :
    (t.recordsDirty = true ∧ SavedData t data ∧
      t₁.dataMeta.version = (t.dataMeta.version + 1) % 2 ^ 64) ∨
      t.recordsDirty = false ∧ loadData dir = .ok data ∧ t₁ = t := by
  by_cases hdirty : t.recordsDirty = true
  swap
  · right
    have hclean : t.recordsDirty = false := by simpa using hdirty
    rw [saveData_clean hclean] at hok hload
    cases hok
    refine ⟨hclean, ?_, rfl⟩
    rw [← hload]
    symm
    refine loadData_congr ?_ ?_ (path_performAll _ _)
    · rw [data_performAll, List.nil_append, dataSteps_of_after hq]
      rfl
    · apply flat_performAll
      rintro s hs rfl
      exact hq _ hs
  left
  cases hplan : planModulus t.dataMeta.modulus t.records.size perGroup with
  | none =>
    rw [saveData_no_plan hplan hdirty] at hok
    cases hok
  | some m' =>
    obtain ⟨visited, removals, steps, hsp, hsave⟩ := saveData_plan order hold hd hdirty hplan
    rw [hsave] at hok hload
    cases hok
    refine ⟨hdirty, loadData_complete hold hmem hplan hsp ?_ hload, rfl⟩
    rw [data_performAll, dataSteps_append, dataSteps_append, dataSteps_map_data,
      dataSteps_of_after hq]
    split <;> simp [dataSteps]

end Records

end RustyPick
