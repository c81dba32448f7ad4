import RustyPick.Lib.Map

/-!
# Lib.HostDir

A directory of a host file system: names, and the files they stand for. A file that has lost its
name is still there for whoever holds it open, and a rename moves the name and not the content.

* `Sound`: one name to a file. Every operation keeps it.
-/

namespace Lib

structure HostDir where
  names : Map String Nat := ∅
  /-- What each file holds, by number. -/
  files : Nat → List UInt8 := fun _ => []
  /-- The number the next new file gets. -/
  next : Nat := 0

namespace HostDir

/-- The file a name is opened as for writing from the start. -/
def target (d : HostDir) (name : String) : Nat := d.names[name]?.getD d.next

/-- Opens a name for writing from the start. -/
def create (d : HostDir) (name : String) : HostDir where
  names := d.names.insert name (d.target name)
  files := Function.update d.files (d.target name) []
  next := max d.next (d.target name + 1)

/-- Writes through an open handle, which does not ask for a name. -/
def append (d : HostDir) (file : Nat) (chunk : List UInt8) : HostDir :=
  { d with files := Function.update d.files file (d.files file ++ chunk) }

def remove (d : HostDir) (name : String) : HostDir := { d with names := d.names.erase name }

/-- `none` where there is nothing under the old name. -/
def rename (d : HostDir) (old new : String) : Option HostDir :=
  d.names[old]?.map fun file => { d with names := (d.names.erase old).insert new file }

def read (d : HostDir) (name : String) : Option (List UInt8) := d.names[name]?.map d.files

/-- No file has two names, and every file with a name has been made. -/
structure Sound (d : HostDir) : Prop where
  single : ∀ {a b : String} {file : Nat}, d.names[a]? = some file → d.names[b]? = some file → a = b
  made : ∀ {a : String} {file : Nat}, d.names[a]? = some file → file < d.next

theorem sound_empty : Sound {} :=
  ⟨fun h => by simp at h, fun h => by simp at h⟩

variable {d : HostDir}

/-- The file a name is opened as has no other name. -/
theorem Sound.target (h : d.Sound) {name other : String} {file : Nat}
    (hother : d.names[other]? = some file) (hne : other ≠ name) : file ≠ d.target name := by
  unfold HostDir.target
  cases hname : d.names[name]? with
  | none => exact (h.made hother).ne
  | some f =>
    rintro rfl
    exact hne (h.single hother hname)

theorem Sound.create (h : d.Sound) (name : String) : (d.create name).Sound := by
  have hget : ∀ {a : String} {file : Nat}, (d.create name).names[a]? = some file →
      (a = name ∧ file = d.target name) ∨ (a ≠ name ∧ d.names[a]? = some file) := by
    intro a file ha
    unfold HostDir.create at ha
    rw [getElem?_insert_eq] at ha
    split at ha
    · rename_i heq
      exact Or.inl ⟨heq.symm, (Option.some.inj ha).symm⟩
    · rename_i hne
      exact Or.inr ⟨Ne.symm hne, ha⟩
  constructor
  · intro a b file ha hb
    rcases hget ha with ⟨rfl, rfl⟩ | ⟨hane, haold⟩ <;>
      rcases hget hb with ⟨rfl, hfile⟩ | ⟨hbne, hbold⟩
    · rfl
    · exact absurd rfl (h.target hbold hbne)
    · exact absurd hfile (h.target haold hane)
    · exact h.single haold hbold
  · intro a file ha
    rcases hget ha with ⟨-, rfl⟩ | ⟨-, ha⟩
    · exact lt_max_of_lt_right (Nat.lt_succ_self _)
    · exact lt_max_of_lt_left (h.made ha)

theorem Sound.append (h : d.Sound) (file : Nat) (chunk : List UInt8) :
    (d.append file chunk).Sound := ⟨h.single, h.made⟩

theorem getElem?_of_remove {name a : String} {file : Nat}
    (ha : (d.remove name).names[a]? = some file) : a ≠ name ∧ d.names[a]? = some file := by
  unfold remove at ha
  rw [getElem?_erase_eq] at ha
  split at ha
  · cases ha
  · rename_i hne
    exact ⟨Ne.symm hne, ha⟩

theorem Sound.remove (h : d.Sound) (name : String) : (d.remove name).Sound :=
  ⟨fun ha hb => h.single (getElem?_of_remove ha).2 (getElem?_of_remove hb).2,
    fun ha => h.made (getElem?_of_remove ha).2⟩

theorem rename_eq_some {old new : String} {d' : HostDir} (h : d.rename old new = some d') :
    ∃ file, d.names[old]? = some file ∧ d'.files = d.files ∧ d'.next = d.next ∧
      d'.names = (d.names.erase old).insert new file := by
  obtain ⟨file, hfile, rfl⟩ := Option.map_eq_some_iff.mp h
  exact ⟨file, hfile, rfl, rfl, rfl⟩

/-- A name after a rename: the new one, or one that was there before. -/
theorem getElem?_of_rename {old new a : String} {d' : HostDir} {file : Nat}
    (h : d.rename old new = some d') (ha : d'.names[a]? = some file) :
    (a = new ∧ d.names[old]? = some file) ∨
      (a ≠ new ∧ a ≠ old ∧ d.names[a]? = some file) := by
  obtain ⟨renamed, hrenamed, -, -, hnames⟩ := rename_eq_some h
  rw [hnames, getElem?_insert_eq, getElem?_erase_eq] at ha
  split at ha
  · rename_i heq
    exact Or.inl ⟨heq.symm, hrenamed.trans ha⟩
  · rename_i hnew
    split at ha
    · cases ha
    · rename_i hold
      exact Or.inr ⟨Ne.symm hnew, Ne.symm hold, ha⟩

theorem Sound.rename (h : d.Sound) {old new : String} {d' : HostDir}
    (hrename : d.rename old new = some d') : d'.Sound := by
  obtain ⟨renamed, hrenamed, -, hnext, -⟩ := rename_eq_some hrename
  constructor
  · intro a b file ha hb
    rcases getElem?_of_rename hrename ha with ⟨rfl, hamoved⟩ | ⟨-, hane, haold⟩ <;>
      rcases getElem?_of_rename hrename hb with ⟨rfl, hbmoved⟩ | ⟨-, hbne, hbold⟩
    · rfl
    · exact absurd (h.single hbold hamoved) hbne
    · exact absurd (h.single haold hbmoved) hane
    · exact h.single haold hbold
  · intro a file ha
    rw [hnext]
    rcases getElem?_of_rename hrename ha with ⟨-, ha⟩ | ⟨-, -, ha⟩ <;> exact h.made ha

end HostDir

end Lib
