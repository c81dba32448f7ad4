import RustyPick.Query
import RustyPick.Lib.Links
import RustyPick.Lib.SortBy

/-!
# RustyPick.Association

Association groups (`db/engine/mod.rs`) and what a `BY.EXP` clause resolves to (`db/query.rs`).

A dictionary entry names its controller in attribute 5. The group of a field is found by walking
from every entry of the dictionary to the head of its chain, at most `ASSOC_MAX_DEPTH` links away.
A walk that is not over by then has the field it started from for its head.

* `associationIn_perm`: the order the dictionary is listed in does not show.
* `association_eq_some`: what a group is, in terms of the links alone.
* `groups_well_defined_iff`: the groups partition the fields exactly where no group has the entry
  `ID` in it. `association` asks after `ID` itself, but not among the members.
-/

namespace RustyPick

open Lib

/-! ## Display -/

/-- The marks as the characters that are printed for them. -/
def toDisplayChars (b : Bytes) : String :=
  fromUtf8Lossy (b.map fun b =>
    if b = FM then 0x5E else if b = VM then 0x5D else if b = SVM then 0x5C else b)

/-- `Record::get_field_display_string`. -/
def Record.fieldDisplayString (r : Record) (fieldIdx : Nat) : String :=
  match r.fields[fieldIdx]? with
  | some field => toDisplayChars field.toBytes
  | none => ""

/-! ## Groups -/

def DICT_ASSOC_IDX : Nat := 4
def DICT_ASSOC_DEPTH_IDX : Nat := 5
def ASSOC_SUB_VALUE : String := "S"
def ASSOC_MAX_DEPTH : Nat := 16

inductive AssociationDepth where
  | value
  | subValue
  deriving DecidableEq, Repr

/-- `str::eq_ignore_ascii_case`. -/
def eqIgnoreAsciiCase (a b : String) : Bool := a.toList.map Char.toLower = b.toList.map Char.toLower

/-- Only `ASSOC_SUB_VALUE` asks for the second tier. -/
def AssociationDepth.fromAttribute (text : String) : AssociationDepth :=
  if eqIgnoreAsciiCase (trim text) ASSOC_SUB_VALUE then .subValue else .value

structure AssociationMember where
  name : String
  index : Nat
  depth : AssociationDepth
  deriving DecidableEq, Repr

structure Association where
  controller : String
  members : List AssociationMember
  deriving DecidableEq, Repr

namespace Table

/-- The controlling field an entry names in attribute 5, and the tier it pairs at. An entry naming
itself names nothing. -/
def controllerOf (t : Table) (fieldName : String) : Option (String × AssociationDepth) :=
  match t.dictionary[fieldName]? with
  | none => none
  | some entry =>
    let controller := trim (entry.fieldDisplayString DICT_ASSOC_IDX)
    if controller = "" ∨ controller = fieldName then none
    else some (controller,
      AssociationDepth.fromAttribute (entry.fieldDisplayString DICT_ASSOC_DEPTH_IDX))

/-- The loop of `association_root`: the walk so far is at `name` and pairs at `depth`. -/
def rootWalk (t : Table) (fieldName : String) :
    Nat → String → AssociationDepth → String × AssociationDepth
  | 0, _, _ => (fieldName, .value)
  | steps + 1, name, depth =>
    match t.controllerOf name with
    | some (controller, link) =>
      t.rootWalk fieldName steps controller (if link = .subValue then .subValue else depth)
    | none => (name, depth)

def associationRoot (t : Table) (fieldName : String) : String × AssociationDepth :=
  t.rootWalk fieldName ASSOC_MAX_DEPTH fieldName .value

/-- A name of the dictionary as a member of the group under `root`, if it is one. -/
def memberUnder (t : Table) (root name : String) : Option AssociationMember :=
  if (t.associationRoot name).1 ≠ root then none
  else (t.fieldIndex name).map fun index =>
    { name := name, index := index, depth := (t.associationRoot name).2 }

/-- Attribute order, and by name within an attribute. -/
def memberOrder (left right : AssociationMember) : Ordering :=
  (compare left.index right.index).then (compare left.name right.name)

/-- `Table::association`, over the names in the order the dictionary lists them. -/
def associationIn (t : Table) (names : List String) (fieldName : String) : Option Association :=
  if fieldName = "ID" ∨ fieldName ∉ t.dictionary then none
  else
    let root := (t.associationRoot fieldName).1
    let members := names.filterMap (t.memberUnder root)
    if members.length < 2 then none
    else some { controller := root, members := sortBy memberOrder members }

def association (t : Table) (fieldName : String) : Option Association :=
  t.associationIn t.dictionary.keys fieldName

end Table

inductive ExplodeTarget where
  | field (name : String) (index : Nat)
  | group (group : Association)
  deriving DecidableEq, Repr

structure ExplodeSpec where
  fieldName : String
  condition : Option QueryCondition := none
  deriving DecidableEq, Repr

def explodeTargetIn (t : Table) (fieldName : String) : Option ExplodeTarget :=
  match t.association fieldName with
  | some group => some (.group group)
  | none => (t.fieldIndex fieldName).map fun index => .field fieldName index

/-- The loop of `resolve_explode_in`: `resolved` is the first field that was known, and what it
resolved to. -/
def resolveFrom (t : Table) : Option (String × ExplodeTarget) → List ExplodeSpec →
    Except String (Option (String × ExplodeTarget))
  | resolved, [] => .ok resolved
  | resolved, spec :: specs =>
    match explodeTargetIn t spec.fieldName with
    | none => resolveFrom t resolved specs
    | some target =>
      match resolved with
      | none => resolveFrom t (some (spec.fieldName, target)) specs
      | some (first, existing) =>
        if existing = target then resolveFrom t resolved specs
        else .error ("BY.EXP fields must belong to one association: " ++ first ++ " and " ++
          spec.fieldName ++ " are not associated")

def resolveExplodeIn (t : Table) (specs : List ExplodeSpec) :
    Except String (Option ExplodeTarget) :=
  (resolveFrom t none specs).map fun resolved => resolved.map Prod.snd

/-! ## Groups by their links -/

namespace Table

/-- The link of a name: its controller. -/
def link (t : Table) (name : String) : Option String := (t.controllerOf name).map Prod.fst

theorem rootWalk_fst (t : Table) (fieldName : String) : ∀ (steps : Nat) (name : String)
    (depth : AssociationDepth),
    (t.rootWalk fieldName steps name depth).1 = (walk t.link steps name).getD fieldName := by
  intro steps
  induction steps with
  | zero => intro name depth; rfl
  | succ steps ih =>
    intro name depth
    simp only [rootWalk, walk, link]
    cases t.controllerOf name with
    | none => rfl
    | some found => exact ih found.1 _

theorem associationRoot_fst (t : Table) (fieldName : String) :
    (t.associationRoot fieldName).1 = headOf t.link ASSOC_MAX_DEPTH fieldName :=
  t.rootWalk_fst fieldName ASSOC_MAX_DEPTH fieldName .value

theorem memberUnder_eq_some {t : Table} {root name : String} {m : AssociationMember} :
    t.memberUnder root name = some m ↔
      m.name = name ∧ headOf t.link ASSOC_MAX_DEPTH name = root ∧
        t.fieldIndex name = some m.index ∧ m.depth = (t.associationRoot name).2 := by
  rw [memberUnder, associationRoot_fst]
  split
  · rename_i h
    constructor
    · intro hm
      cases hm
    · intro hm
      exact absurd hm.2.1 h
  · rename_i h
    rw [Option.map_eq_some_iff]
    constructor
    · rintro ⟨index, hindex, rfl⟩
      exact ⟨rfl, not_not.mp h, hindex, rfl⟩
    · rintro ⟨rfl, -, hindex, hdepth⟩
      exact ⟨m.index, hindex, by rw [← hdepth]⟩

theorem memberOrder_consistent (s : Set AssociationMember) : ConsistentOn memberOrder s := by
  have hindex : ConsistentOn (fun a b : AssociationMember => compare a.index b.index) s :=
    (ConsistentOn.of_transCmp (s := Set.univ)).comap (f := AssociationMember.index) (by simp)
  have hname : ConsistentOn (fun a b : AssociationMember => compare a.name b.name) s :=
    (ConsistentOn.of_transCmp (s := Set.univ)).comap (f := AssociationMember.name) (by simp)
  exact hindex.andThen hname

/-- Members found under one root have no ties: a name has one entry. -/
theorem memberOrder_tieFree (t : Table) (root : String) (names : List String) :
    TieFree memberOrder {m | m ∈ names.filterMap (t.memberUnder root)} := by
  rintro a ha b hb hab
  obtain ⟨x, -, hx⟩ := List.mem_filterMap.mp ha
  obtain ⟨y, -, hy⟩ := List.mem_filterMap.mp hb
  have hname : a.name = b.name := by
    have h := hab
    rw [memberOrder, Ordering.then_eq_eq] at h
    exact Std.LawfulEqCmp.eq_of_compare h.2
  rw [(memberUnder_eq_some.mp hx).1, (memberUnder_eq_some.mp hy).1] at hname
  subst hname
  rw [hx] at hy
  cases hy
  rfl

/-- The order the dictionary lists its names in does not show in a group. -/
theorem associationIn_perm {t : Table} {names names' : List String} (h : names'.Perm names)
    (fieldName : String) : t.associationIn names' fieldName = t.associationIn names fieldName := by
  have hmembers := h.filterMap (t.memberUnder (t.associationRoot fieldName).1)
  unfold associationIn
  dsimp only
  rw [hmembers.length_eq,
    sortBy_eq_of_perm (memberOrder_consistent _) (t.memberOrder_tieFree _ _) hmembers]

/-- The members of the group under a root. -/
def membersUnder (t : Table) (root : String) : List AssociationMember :=
  sortBy memberOrder (t.dictionary.keys.filterMap (t.memberUnder root))

theorem mem_membersUnder {t : Table} {root : String} {m : AssociationMember} :
    m ∈ t.membersUnder root ↔
      m.name ∈ t.dictionary ∧ headOf t.link ASSOC_MAX_DEPTH m.name = root ∧
        t.fieldIndex m.name = some m.index ∧ m.depth = (t.associationRoot m.name).2 := by
  rw [membersUnder, (sortBy_perm _ _).mem_iff, List.mem_filterMap]
  constructor
  · rintro ⟨name, hname, hm⟩
    obtain ⟨rfl, hm⟩ := memberUnder_eq_some.mp hm
    exact ⟨Std.ExtTreeMap.mem_keys.mp hname, hm⟩
  · rintro ⟨hname, hm⟩
    exact ⟨m.name, Std.ExtTreeMap.mem_keys.mpr hname, memberUnder_eq_some.mpr ⟨rfl, hm⟩⟩

/-- The group of a field is the group of its head. -/
theorem association_eq_some {t : Table} {f : String} {group : Association} :
    t.association f = some group ↔
      f ≠ "ID" ∧ f ∈ t.dictionary ∧ group.controller = headOf t.link ASSOC_MAX_DEPTH f ∧
        group.members = t.membersUnder group.controller ∧ 2 ≤ group.members.length := by
  unfold association associationIn
  rw [associationRoot_fst]
  split
  · rename_i h
    constructor
    · intro hg
      cases hg
    · rintro ⟨hid, hmem, -⟩
      exact absurd h (by simp [hid, hmem])
  · rename_i h
    rw [not_or, not_not] at h
    have hlen : (t.membersUnder (headOf t.link ASSOC_MAX_DEPTH f)).length =
        (t.dictionary.keys.filterMap (t.memberUnder (headOf t.link ASSOC_MAX_DEPTH f))).length :=
      (sortBy_perm _ _).length_eq
    dsimp only
    split
    · rename_i hshort
      constructor
      · intro hg
        cases hg
      · rintro ⟨-, -, hc, hm, hlong⟩
        rw [hm, hc, hlen] at hlong
        omega
    · rename_i hlong
      obtain ⟨controller, members⟩ := group
      simp only [Option.some.injEq, Association.mk.injEq]
      constructor
      · rintro ⟨rfl, rfl⟩
        refine ⟨h.1, h.2, rfl, rfl, ?_⟩
        change 2 ≤ (t.membersUnder _).length
        omega
      · rintro ⟨-, -, rfl, rfl, -⟩
        exact ⟨rfl, rfl⟩

theorem membersUnder_names (t : Table) (root : String) :
    (t.membersUnder root).Pairwise fun a b => a.name ≠ b.name := by
  have hnames : (t.dictionary.keys.filterMap (t.memberUnder root)).Pairwise
      fun a b => a.name ≠ b.name := by
    refine List.Pairwise.filterMap _ ?_ (Std.ExtTreeMap.nodup_keys (t := t.dictionary))
    intro x y hxy a ha b hb
    rw [(memberUnder_eq_some.mp ha).1, (memberUnder_eq_some.mp hb).1]
    exact hxy
  exact (sortBy_perm _ _).symm.pairwise hnames fun h => h.symm

/-- The members of a group share its head, and so have the same group, as far as they may ask. -/
theorem association_of_member {t : Table} {f : String} {group : Association}
    (h : t.association f = some group) {m : AssociationMember} (hm : m ∈ group.members)
    (hid : m.name ≠ "ID") : t.association m.name = some group := by
  obtain ⟨-, -, -, hmembers, hlen⟩ := association_eq_some.mp h
  rw [hmembers] at hm
  obtain ⟨hdict, hhead, -⟩ := mem_membersUnder.mp hm
  exact association_eq_some.mpr ⟨hid, hdict, hhead.symm, hmembers, hlen⟩

theorem association_of_names {t : Table} {f f' : String} {group group' : Association}
    (h : t.association f = some group) (h' : t.association f' = some group')
    {m m' : AssociationMember} (hm : m ∈ group.members) (hm' : m' ∈ group'.members)
    (hname : m.name = m'.name) : group = group' := by
  obtain ⟨-, -, -, hmembers, -⟩ := association_eq_some.mp h
  obtain ⟨-, -, -, hmembers', -⟩ := association_eq_some.mp h'
  rw [hmembers] at hm
  rw [hmembers'] at hm'
  have hc : group.controller = group'.controller := by
    rw [← (mem_membersUnder.mp hm).2.1, ← (mem_membersUnder.mp hm').2.1, hname]
  obtain ⟨controller, members⟩ := group
  obtain ⟨controller', members'⟩ := group'
  simp only at hmembers hmembers' hc
  rw [hmembers, hmembers', hc]

/-- Whose chain is never over is in no group: it would be in it alone. -/
theorem not_member_of_cycle {t : Table} {c : String} (hc : OnCycle t.link c) {f : String}
    {group : Association} (h : t.association f = some group) {m : AssociationMember}
    (hm : m ∈ group.members) : m.name ≠ c := by
  rintro rfl
  obtain ⟨-, -, -, hmembers, hlen⟩ := association_eq_some.mp h
  have hnames := t.membersUnder_names group.controller
  rw [← hmembers] at hnames
  have halone : ∀ m' ∈ group.members, m'.name = m.name := by
    intro m' hm'
    rw [hmembers] at hm hm'
    have hsame : headOf t.link ASSOC_MAX_DEPTH m'.name = headOf t.link ASSOC_MAX_DEPTH m.name :=
      (mem_membersUnder.mp hm').2.1.trans (mem_membersUnder.mp hm).2.1.symm
    rcases (headOf_eq_iff (by decide)).mp hsame with heq | ⟨r, -, hends⟩
    · exact heq
    · exact absurd hends (hc.not_ends _ r)
  match hl : group.members, hlen with
  | a :: b :: rest, _ =>
    rw [hl] at hnames halone
    have hab := (List.pairwise_cons.mp hnames).1 b (by simp)
    exact hab ((halone a (by simp)).trans (halone b (by simp)).symm)

end Table

/-! ## Accepting a clause -/

/-- A target disagrees with none that is known among the specs. -/
def AgreesWith (t : Table) (target : ExplodeTarget) (specs : List ExplodeSpec) : Prop :=
  ∀ spec ∈ specs, ∀ other, explodeTargetIn t spec.fieldName = some other → target = other

theorem resolveFrom_some {t : Table} {first : String} {target : ExplodeTarget}
    (specs : List ExplodeSpec) :
    (∃ r, resolveFrom t (some (first, target)) specs = .ok r) ↔ AgreesWith t target specs := by
  induction specs with
  | nil => simp [resolveFrom, AgreesWith]
  | cons spec specs ih =>
    simp only [resolveFrom, AgreesWith, List.forall_mem_cons]
    cases explodeTargetIn t spec.fieldName with
    | none => simpa [AgreesWith] using ih
    | some other =>
      dsimp only
      split
      · rename_i heq
        simpa [heq, AgreesWith] using ih
      · rename_i hne
        simp [hne]

def ExplodeAccepted (t : Table) (specs : List ExplodeSpec) : Prop :=
  ∃ target, resolveExplodeIn t specs = .ok target

/-- A clause is accepted when all its known fields resolve to one target. -/
theorem explodeAccepted_iff {t : Table} (specs : List ExplodeSpec) :
    ExplodeAccepted t specs ↔
      ∀ spec ∈ specs, ∀ target, explodeTargetIn t spec.fieldName = some target →
        AgreesWith t target specs := by
  have hmap : ExplodeAccepted t specs ↔ ∃ r, resolveFrom t none specs = .ok r := by
    unfold ExplodeAccepted resolveExplodeIn
    cases resolveFrom t none specs <;> simp [Except.map]
  rw [hmap]
  clear hmap
  induction specs with
  | nil => simp [resolveFrom]
  | cons spec specs ih =>
    rw [resolveFrom]
    cases hspec : explodeTargetIn t spec.fieldName with
    | none =>
      refine ih.trans ?_
      simp [AgreesWith, hspec]
    | some target =>
      dsimp only
      rw [resolveFrom_some]
      constructor
      · intro h spec' hspec' target' htarget'
        have heq : target = target' := by
          rcases List.mem_cons.mp hspec' with rfl | hin
          · rw [hspec] at htarget'
            exact Option.some.inj htarget'
          · exact h spec' hin target' htarget'
        subst heq
        intro other hother found hfound
        rcases List.mem_cons.mp hother with rfl | hin
        · rw [hspec] at hfound
          exact Option.some.inj hfound
        · exact h other hin found hfound
      · intro h other hother
        exact h spec (by simp) target hspec other (List.mem_cons_of_mem _ hother)

/-! ## Where the groups are well defined -/

/-- The dictionary gives the field an attribute. -/
def Known (t : Table) (fieldName : String) : Prop := t.fieldIndex fieldName ≠ none

structure GroupsWellDefined (t : Table) : Prop where
  agree : ∀ f group, t.association f = some group →
    ∀ m ∈ group.members, t.association m.name = some group
  disjoint : ∀ f f' group group', t.association f = some group → t.association f' = some group' →
    ∀ m ∈ group.members, ∀ m' ∈ group'.members, m.name = m'.name → group = group'
  acyclic : ∀ c, OnCycle t.link c → ∀ f group, t.association f = some group →
    ∀ m ∈ group.members, m.name ≠ c
  accepts : ∀ specs : List ExplodeSpec, (∀ spec ∈ specs, Known t spec.fieldName) →
    (ExplodeAccepted t specs ↔
      (∃ f, t.association f = none ∧ ∀ spec ∈ specs, spec.fieldName = f) ∨
      ∃ f group, t.association f = some group ∧
        ∀ spec ∈ specs, ∃ m ∈ group.members, m.name = spec.fieldName)
  unordered : ∀ specs specs' : List ExplodeSpec, specs'.Perm specs →
    (ExplodeAccepted t specs' ↔ ExplodeAccepted t specs)

/-- The dictionary has an entry `ID`, and another field's chain ends where that entry's does. -/
def IdGrouped (t : Table) : Prop :=
  "ID" ∈ t.dictionary ∧ ∃ g ∈ t.dictionary, g ≠ "ID" ∧ Known t g ∧
    ∃ r, EndsWithin t.link ASSOC_MAX_DEPTH "ID" r ∧ EndsWithin t.link ASSOC_MAX_DEPTH g r

/-- Without such a field the entry `ID` is in no group. -/
theorem not_id_of_member {t : Table} (hid : ¬ IdGrouped t) {f : String} {group : Association}
    (h : t.association f = some group) {m : AssociationMember} (hm : m ∈ group.members) :
    m.name ≠ "ID" := by
  intro hname
  obtain ⟨-, -, -, hmembers, hlen⟩ := Table.association_eq_some.mp h
  have hnames := t.membersUnder_names group.controller
  rw [← hmembers] at hnames
  obtain ⟨m', hm', hother⟩ : ∃ m' ∈ group.members, m'.name ≠ "ID" := by
    match hl : group.members, hlen with
    | a :: b :: rest, _ =>
      rw [hl] at hnames
      have hab := (List.pairwise_cons.mp hnames).1 b (by simp)
      by_cases ha : a.name = "ID"
      · exact ⟨b, by simp, fun hb => hab (ha.trans hb.symm)⟩
      · exact ⟨a, by simp, ha⟩
  rw [hmembers] at hm hm'
  obtain ⟨hdict, hhead, -⟩ := Table.mem_membersUnder.mp hm
  obtain ⟨hdict', hhead', hindex, -⟩ := Table.mem_membersUnder.mp hm'
  rw [hname] at hdict hhead
  rcases (headOf_eq_iff (by decide)).mp (hhead.trans hhead'.symm) with heq | hends
  · exact hother heq.symm
  · exact hid ⟨hdict, m'.name, hdict', hother, by simp [Known, hindex], hends⟩

/-- With one, the group it is in is not the group `ID` has. -/
theorem not_agree_of_id {t : Table} (hid : IdGrouped t) : ¬ ∀ f group,
    t.association f = some group → ∀ m ∈ group.members, t.association m.name = some group := by
  obtain ⟨hdict, g, hg, hne, hknown, r, hidEnds, hgEnds⟩ := hid
  obtain ⟨index, hindex⟩ := Option.ne_none_iff_exists'.mp hknown
  have hidIndex : t.fieldIndex "ID" = some 0 := by simp [Table.fieldIndex]
  have hidMember : ⟨"ID", 0, (t.associationRoot "ID").2⟩ ∈ t.membersUnder r :=
    Table.mem_membersUnder.mpr ⟨hdict, headOf_of_ends hidEnds, hidIndex, rfl⟩
  have hgMember : ⟨g, index, (t.associationRoot g).2⟩ ∈ t.membersUnder r :=
    Table.mem_membersUnder.mpr ⟨hg, headOf_of_ends hgEnds, hindex, rfl⟩
  have hlen : 2 ≤ (t.membersUnder r).length := by
    match hl : t.membersUnder r with
    | [] => simp [hl] at hidMember
    | [a] =>
      rw [hl, List.mem_singleton] at hidMember hgMember
      rw [← hidMember] at hgMember
      exact absurd (congrArg AssociationMember.name hgMember) hne
    | a :: b :: rest => simp
  intro hagree
  have hgroup : t.association g = some ⟨r, t.membersUnder r⟩ :=
    Table.association_eq_some.mpr ⟨hne, hg, (headOf_of_ends hgEnds).symm, rfl, hlen⟩
  have := hagree g _ hgroup _ hidMember
  exact (Table.association_eq_some.mp this).1 rfl

/-- A known field that is not alone is a member of its group. -/
theorem member_of_known {t : Table} {f : String} {group : Association}
    (h : t.association f = some group) (hknown : Known t f) : ∃ m ∈ group.members, m.name = f := by
  obtain ⟨-, hdict, hc, hmembers, -⟩ := Table.association_eq_some.mp h
  obtain ⟨index, hindex⟩ := Option.ne_none_iff_exists'.mp hknown
  refine ⟨⟨f, index, (t.associationRoot f).2⟩, ?_, rfl⟩
  rw [hmembers]
  exact Table.mem_membersUnder.mpr ⟨hdict, hc.symm, hindex, rfl⟩

theorem explodeTargetIn_known {t : Table} {f : String} (hknown : Known t f) :
    (∃ group, t.association f = some group ∧ explodeTargetIn t f = some (.group group)) ∨
      ∃ index, t.association f = none ∧ explodeTargetIn t f = some (.field f index) := by
  unfold explodeTargetIn
  cases h : t.association f with
  | some group => exact Or.inl ⟨group, rfl, rfl⟩
  | none =>
    obtain ⟨index, hindex⟩ := Option.ne_none_iff_exists'.mp hknown
    exact Or.inr ⟨index, rfl, by rw [hindex]; rfl⟩

/-- A clause of known fields is accepted when they are one field, or members of one group. -/
theorem accepted_known_iff {t : Table} (hid : ¬ IdGrouped t) {specs : List ExplodeSpec}
    (hknown : ∀ spec ∈ specs, Known t spec.fieldName) :
    ExplodeAccepted t specs ↔
      (∃ f, t.association f = none ∧ ∀ spec ∈ specs, spec.fieldName = f) ∨
      ∃ f group, t.association f = some group ∧
        ∀ spec ∈ specs, ∃ m ∈ group.members, m.name = spec.fieldName := by
  rw [explodeAccepted_iff]
  constructor
  · intro h
    cases specs with
    | nil => exact Or.inl ⟨"ID", by simp [Table.association, Table.associationIn], by simp⟩
    | cons spec specs =>
      rcases explodeTargetIn_known (hknown spec (by simp)) with
        ⟨group, hgroup, htarget⟩ | ⟨index, hgroup, htarget⟩
      · refine Or.inr ⟨spec.fieldName, group, hgroup, fun other hother => ?_⟩
        rcases explodeTargetIn_known (hknown other hother) with
          ⟨group', hgroup', htarget'⟩ | ⟨index, -, htarget'⟩
        · have heq := h spec (by simp) _ htarget other hother _ htarget'
          cases heq
          exact member_of_known hgroup' (hknown other hother)
        · have heq := h spec (by simp) _ htarget other hother _ htarget'
          cases heq
      · refine Or.inl ⟨spec.fieldName, hgroup, fun other hother => ?_⟩
        rcases explodeTargetIn_known (hknown other hother) with
          ⟨group', -, htarget'⟩ | ⟨index', -, htarget'⟩
        · have heq := h spec (by simp) _ htarget other hother _ htarget'
          cases heq
        · have heq := h spec (by simp) _ htarget other hother _ htarget'
          rw [ExplodeTarget.field.injEq] at heq
          exact heq.1.symm
  · rintro (⟨f, -, hall⟩ | ⟨f, group, hgroup, hall⟩)
    · intro spec hspec target htarget other hother target' htarget'
      rw [hall spec hspec] at htarget
      rw [hall other hother, htarget] at htarget'
      exact Option.some.inj htarget'
    · have htarget : ∀ spec ∈ specs, explodeTargetIn t spec.fieldName = some (.group group) := by
        intro spec hspec
        obtain ⟨m, hm, hname⟩ := hall spec hspec
        have hagree := Table.association_of_member hgroup hm (not_id_of_member hid hgroup hm)
        rw [explodeTargetIn, ← hname, hagree]
      intro spec hspec target htarget₁ other hother target' htarget₂
      rw [htarget spec hspec] at htarget₁
      rw [htarget other hother] at htarget₂
      cases htarget₁
      cases htarget₂
      rfl

theorem accepted_perm {t : Table} {specs specs' : List ExplodeSpec} (h : specs'.Perm specs) :
    ExplodeAccepted t specs' ↔ ExplodeAccepted t specs := by
  rw [explodeAccepted_iff, explodeAccepted_iff]
  simp only [AgreesWith, h.mem_iff]

/-- The groups of a dictionary are well defined exactly where no group has the entry `ID` in it. -/
theorem groups_well_defined_iff (t : Table) : GroupsWellDefined t ↔ ¬ IdGrouped t := by
  constructor
  · intro h hid
    exact not_agree_of_id hid h.agree
  · intro hid
    exact
      { agree := fun f group h m hm =>
          Table.association_of_member h hm (not_id_of_member hid h hm)
        disjoint := fun f f' group group' h h' m hm m' hm' hname =>
          Table.association_of_names h h' hm hm' hname
        acyclic := fun c hc f group h m hm => Table.not_member_of_cycle hc h hm
        accepts := fun specs hknown => accepted_known_iff hid hknown
        unordered := fun specs specs' hperm => accepted_perm hperm }

/-! ### An entry `ID` -/

/-- A dictionary entry for an attribute, associated with a controller. -/
def assocEntry (position controller : String) : Record :=
  Record.fromBytes ([FM].intercalate [utf8 position, [], [], [], utf8 controller])

/-- An entry `ID` beside a field `A`, both associated with `X`. -/
def idTable : Table :=
  { dictionary := (∅ : Map String Record).insert "ID" (assocEntry "2" "X")
      |>.insert "A" (assocEntry "1" "X") }

theorem idTable_not_well_defined : ¬ GroupsWellDefined idTable := by
  intro h
  have hlink : idTable.link "ID" = some "X" ∧ idTable.link "A" = some "X" ∧
      idTable.link "X" = none := by decide +kernel
  have hends : ∀ f, idTable.link f = some "X" → EndsWithin idTable.link ASSOC_MAX_DEPTH f "X" :=
    fun f hf => ⟨1, by decide, .step hf (.refl _), hlink.2.2⟩
  refine not_agree_of_id ⟨?_, "A", ?_, by simp, ?_, "X", hends _ hlink.1, hends _ hlink.2.1⟩
    h.agree
  · decide +kernel
  · decide +kernel
  · unfold Known
    decide +kernel

end RustyPick
