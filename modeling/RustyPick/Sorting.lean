import RustyPick.Explode

/-!
# RustyPick.Sorting

Sorting (`db/query.rs`). Two values compare as numbers when both are numbers, and otherwise as text,
case folded and then as it is. The rows of a result are sorted by the values of each spec in turn,
and by key in the end.

* `compare_consistent`, `noStrayLabel_of_consistent`: on decimal integers and texts that are no
  number the comparison is a total preorder exactly where no text stands, as text, between two
  numbers that are in the other order as numbers.
* `rowOrder_consistent`: then so is the order of whole rows, descending specs and all, and it has no
  ties between different keys.
* `sorts_well_iff`: so the three sorts return the one sorted permutation of their rows.
-/

namespace RustyPick

open Lib

/-! ## What the standard library decides -/

def decimalDigits (cs : List Char) : Option Nat :=
  if cs = [] ∨ ¬ cs.all Char.isDigit then none else some (Nat.ofDigitChars 10 cs 0)

/-- A decimal integer, with or without a sign. -/
def decimalInteger (s : String) : Option Int :=
  match s.toList with
  | '-' :: cs => (decimalDigits cs).map fun n => -(n : Int)
  | '+' :: cs => (decimalDigits cs).map Int.ofNat
  | cs => (decimalDigits cs).map Int.ofNat

/-- Which texts are an `f64` and how two of them compare, and the lower case of a character. Decimal
integers of magnitude below `2 ^ 53` are read exactly. -/
structure Collation where
  F : Type
  parse : String → Option F
  partialCmp : F → F → Option Ordering
  toLowercase : Char → List Char
  reads : ∀ s n, decimalInteger s = some n → n.natAbs < 2 ^ 53 → parse s ≠ none
  compares : ∀ s s' n n' x x', decimalInteger s = some n → decimalInteger s' = some n' →
    n.natAbs < 2 ^ 53 → n'.natAbs < 2 ^ 53 → parse s = some x → parse s' = some x' →
    partialCmp x x' = some (compare n n')

/-! ## Values -/

structure SortValue (F : Type) where
  text : String := ""
  number : Option F := none
  /-- The text lowercased, or `none` when that leaves it unchanged. -/
  lower : Option String := none

/-- `SortValue::default`. -/
def SortValue.default {F : Type} : SortValue F := {}

def SortValue.new (c : Collation) (raw : String) : SortValue c.F :=
  let text := trim raw
  let lower := String.ofList (text.toList.flatMap c.toLowercase)
  { text := text, number := c.parse text, lower := if lower = text then none else some lower }

namespace SortValue

variable {c : Collation}

/-- The form the case-insensitive comparison is made over. -/
def folded (v : SortValue c.F) : String := v.lower.getD v.text

def textCompare (l r : SortValue c.F) : Ordering :=
  (Ord.compare l.folded r.folded).then (Ord.compare l.text r.text)

def compare (l r : SortValue c.F) : Ordering :=
  match l.number, r.number with
  | some x, some y => (c.partialCmp x y).getD .eq
  | _, _ => l.textCompare r

end SortValue

/-! ## Rows -/

structure SortSpec where
  fieldName : String
  descending : Bool
  deriving DecidableEq, Repr

/-- What a spec reads of a record: its key, an attribute, or nothing where the field is unknown. -/
inductive SortColumn where
  | id
  | attr (index : Nat)
  | unknown
  deriving DecidableEq, Repr

def resolveSortFields (t : Table) (specs : List SortSpec) : List (SortColumn × Bool) :=
  specs.map fun spec =>
    if spec.fieldName = "ID" then (.id, spec.descending)
    else
      match t.fieldIndex spec.fieldName with
      | some index => (.attr index, spec.descending)
      | none => (.unknown, spec.descending)

/-- `Record::get_value_display_string`. -/
def Record.valueDisplayString (r : Record) (fieldIdx : Nat) (pos : Option ValuePosition) : String :=
  match pos with
  | none => r.fieldDisplayString fieldIdx
  | some pos =>
    match r.fields[fieldIdx]?.bind fun field => field.values[pos.value]? with
    | none => ""
    | some value =>
      match pos.subValue with
      | some s =>
        match value.subValues[s]? with
        | some sub => toDisplayChars sub
        | none => ""
      | none => toDisplayChars value.toBytes

/-- The text one spec reads of a row. -/
def sortTextAt (id : String) (record : Record) (position : Option ValuePosition)
    (narrowing : Narrowing) : SortColumn → Option String
  | .id => some id
  | .unknown => none
  | .attr index =>
    match narrowing with
    | .whole => some (record.fieldDisplayString index)
    | narrowing => some (record.valueDisplayString index (narrowing.apply position))

/-- The texts of a row, one for each spec. A spec past the end of `narrowings` reads the whole
field. -/
def sortTexts (id : String) (record : Record) (resolved : List (SortColumn × Bool))
    (narrowings : List Narrowing) (position : Option ValuePosition) : List (Option String) :=
  resolved.zipIdx.map fun (spec, n) =>
    sortTextAt id record position (narrowings[n]?.getD .whole) spec.1

def SortValue.ofText (c : Collation) : Option String → SortValue c.F
  | some raw => SortValue.new c raw
  | none => SortValue.default

def sortKeyAt (c : Collation) (id : String) (record : Record)
    (resolved : List (SortColumn × Bool)) (narrowings : List Narrowing)
    (position : Option ValuePosition) : List (SortValue c.F) :=
  (sortTexts id record resolved narrowings position).map (SortValue.ofText c)

def sortKeyFor (c : Collation) (id : String) (record : Record)
    (resolved : List (SortColumn × Bool)) : List (SortValue c.F) :=
  sortKeyAt c id record resolved [] none

/-- The values of two rows, spec by spec. An unknown field compares equal. -/
def keyOrder {c : Collation} :
    List (SortColumn × Bool) → List (SortValue c.F) → List (SortValue c.F) → Ordering
  | (column, descending) :: resolved, x :: xs, y :: ys =>
    if column = .unknown then keyOrder resolved xs ys
    else
      (if descending then (x.compare y).swap else x.compare y).then (keyOrder resolved xs ys)
  | _, _, _ => .eq

/-- The comparison `sorted_order` hands to the sort, of two indices. -/
def indexOrder {c : Collation} (sortKeys : List (List (SortValue c.F)))
    (resolved : List (SortColumn × Bool)) (idOf : Nat → String) (a b : Nat) : Ordering :=
  (keyOrder resolved (sortKeys[a]?.getD []) (sortKeys[b]?.getD [])).then
    (compare (idOf a) (idOf b))

/-- `sorted_order`. What the sort makes of a comparison that is no order is not said here. -/
def sortedOrder {c : Collation} (sortKeys : List (List (SortValue c.F)))
    (resolved : List (SortColumn × Bool)) (idOf : Nat → String) : List Nat :=
  sortBy (indexOrder sortKeys resolved idOf) (List.range sortKeys.length)

/-- The elements of a list in the order of the indices. -/
def takeInOrder {α : Type} (rows : List α) (order : List Nat) : List α :=
  order.filterMap fun i => rows[i]?

def sortResultsIn (c : Collation) (t : Table) (results : List (String × Record))
    (specs : List SortSpec) : List (String × Record) :=
  if specs = [] then results
  else
    let resolved := resolveSortFields t specs
    let sortKeys := results.map fun (id, record) => sortKeyFor c id record resolved
    takeInOrder results
      (sortedOrder sortKeys resolved fun i => (results[i]?.map Prod.fst).getD "")

/-- How much of a row's position each spec reads. -/
def sortNarrowings (resolved : List (SortColumn × Bool)) (explode : Option ExplodeTarget) :
    List Narrowing :=
  resolved.map fun spec =>
    match explode, spec.1 with
    | some target, .attr index => target.narrowingAt index
    | _, _ => .whole

def sortEntriesIn (c : Collation) (t : Table) (rows : List (SelectEntry × Record))
    (specs : List SortSpec) (explode : Option ExplodeTarget) : List (SelectEntry × Record) :=
  if specs = [] then rows
  else
    let resolved := resolveSortFields t specs
    let narrowings := sortNarrowings resolved explode
    let sortKeys := rows.map fun (entry, record) =>
      sortKeyAt c entry.key record resolved narrowings entry.position
    takeInOrder rows
      (sortedOrder sortKeys resolved fun i => (rows[i]?.map fun row => row.1.key).getD "")

def sortKeysIn (c : Collation) (t : Table) (isDict : Bool) (keys : List String)
    (specs : List SortSpec) : List String :=
  if specs = [] then keys
  else
    let resolved := resolveSortFields t specs
    let map := if isDict then t.dictionary else t.records
    let sortKeys := keys.map fun k =>
      match map[k]? with
      | some record => sortKeyFor c k record resolved
      | none => List.replicate resolved.length SortValue.default
    takeInOrder keys (sortedOrder sortKeys resolved fun i => keys[i]?.getD "")

/-! ## When values are in an order -/

/-- A decimal integer of magnitude below `2 ^ 53`. -/
def IsInteger (text : String) (n : Int) : Prop :=
  decimalInteger (trim text) = some n ∧ n.natAbs < 2 ^ 53

/-- What the sort promises to order: decimal integers, and texts that are no number at all. -/
def Sortable (c : Collation) (text : String) : Prop :=
  (∃ n, IsInteger text n) ∨ c.parse (trim text) = none

/-- No text stands, as text, between two numbers that are in the other order as numbers. -/
def NoStrayLabel (c : Collation) (texts : Set String) : Prop :=
  ∀ a ∈ texts, ∀ b ∈ texts, ∀ z ∈ texts, ∀ m n, IsInteger a m → IsInteger b n → m ≤ n →
    c.parse (trim z) = none →
    ¬ ((SortValue.new c b).textCompare (SortValue.new c z) = .lt ∧
      (SortValue.new c z).textCompare (SortValue.new c a) = .lt)

namespace SortValue

variable {c : Collation}

theorem textCompare_consistent (s : Set (SortValue c.F)) : ConsistentOn textCompare s := by
  have hfolded : ConsistentOn (fun l r : SortValue c.F => Ord.compare l.folded r.folded) s :=
    (ConsistentOn.of_transCmp (s := Set.univ)).comap (f := folded) (by simp)
  have htext : ConsistentOn (fun l r : SortValue c.F => Ord.compare l.text r.text) s :=
    (ConsistentOn.of_transCmp (s := Set.univ)).comap (f := SortValue.text) (by simp)
  exact hfolded.andThen htext

theorem textCompare_swap (l r : SortValue c.F) : r.textCompare l = (l.textCompare r).swap :=
  (textCompare_consistent Set.univ).swap l (by simp) r (by simp)

theorem textCompare_trans {x y z : SortValue c.F} (h : (x.textCompare y).isLE)
    (h' : (y.textCompare z).isLE) : (x.textCompare z).isLE :=
  (textCompare_consistent Set.univ).trans x (by simp) y (by simp) z (by simp) h h'

theorem text_of_textCompare {l r : SortValue c.F} (h : l.textCompare r = .eq) : l.text = r.text := by
  rw [textCompare, Ordering.then_eq_eq] at h
  exact Std.LawfulEqCmp.eq_of_compare h.2

theorem not_isLE_iff {l r : SortValue c.F} : ¬ (l.textCompare r).isLE ↔ r.textCompare l = .lt := by
  rw [textCompare_swap l r]
  cases l.textCompare r <;> simp

/-- A value that is an integer, and which. -/
def Numeric (v : SortValue c.F) (n : Int) : Prop :=
  ∃ text, v = new c text ∧ IsInteger text n

/-- A value that is no number. -/
def IsLabel (v : SortValue c.F) : Prop := v.number = none

theorem compare_numeric {v w : SortValue c.F} {m n : Int} (hv : v.Numeric m) (hw : w.Numeric n) :
    v.compare w = Ord.compare m n := by
  obtain ⟨s, rfl, hs, hm⟩ := hv
  obtain ⟨s', rfl, hs', hn⟩ := hw
  obtain ⟨x, hx⟩ := Option.ne_none_iff_exists'.mp (c.reads _ _ hs hm)
  obtain ⟨y, hy⟩ := Option.ne_none_iff_exists'.mp (c.reads _ _ hs' hn)
  simp only [compare, new, hx, hy, c.compares _ _ _ _ _ _ hs hs' hm hn hx hy, Option.getD_some]

theorem compare_label_left {v w : SortValue c.F} (hv : v.IsLabel) :
    v.compare w = v.textCompare w := by
  rw [IsLabel] at hv
  simp only [compare, hv]

theorem compare_label_right {v w : SortValue c.F} (hw : w.IsLabel) :
    v.compare w = v.textCompare w := by
  rw [IsLabel] at hw
  unfold compare
  rw [hw]
  cases v.number <;> rfl

/-- The values of a column: those of its texts, and the value of a missing record. -/
def Column (c : Collation) (texts : Set String) : Set (SortValue c.F) :=
  {v | v = SortValue.default ∨ ∃ text ∈ texts, v = new c text}

variable {texts : Set String}

theorem numeric_or_label (hsort : ∀ text ∈ texts, Sortable c text) {v : SortValue c.F}
    (hv : v ∈ Column c texts) : (∃ n, v.Numeric n) ∨ v.IsLabel := by
  rcases hv with rfl | ⟨text, htext, rfl⟩
  · exact Or.inr rfl
  · rcases hsort text htext with ⟨n, hn⟩ | hnone
    · exact Or.inl ⟨n, text, rfl, hn⟩
    · exact Or.inr hnone

theorem Numeric.mem {v : SortValue c.F} {n : Int} (h : v.Numeric n) (hv : v ∈ Column c texts) :
    ∃ text ∈ texts, v = new c text ∧ IsInteger text n := by
  obtain ⟨text, rfl, hn⟩ := h
  rcases hv with hdef | ⟨text', htext', heq⟩
  · have htrim : trim text = "" := congrArg SortValue.text hdef
    rw [IsInteger, htrim] at hn
    exact absurd hn.1 (by simp [decimalInteger, decimalDigits])
  · have htrim : trim text = trim text' := congrArg SortValue.text heq
    refine ⟨text', htext', heq, ?_⟩
    rw [IsInteger, ← htrim]
    exact hn

/-- Nothing is before the value of a missing record. -/
theorem not_lt_default (v : SortValue c.F) : v.textCompare SortValue.default ≠ .lt := by
  have hempty : ∀ s : String, Ord.compare s "" ≠ .lt := by
    intro s h
    have hlt : s.toList < [] := String.lt_iff.mp (compare_lt_iff_lt.mp h)
    exact List.not_lt_nil _ hlt
  intro h
  rw [textCompare, Ordering.then_eq_lt] at h
  rcases h with h | ⟨-, h⟩
  · exact hempty _ h
  · exact hempty _ h

/-- A label between two numbers of a column is between them in both orders. -/
theorem not_between (hstray : NoStrayLabel c texts) {x y z : SortValue c.F}
    (hx : x ∈ Column c texts) (hy : y ∈ Column c texts) (hz : z ∈ Column c texts) {m n : Int}
    (hxm : x.Numeric m) (hyn : y.Numeric n) (hmn : m ≤ n) (hlabel : z.IsLabel)
    (hyz : y.textCompare z = .lt) (hzx : z.textCompare x = .lt) : False := by
  rcases hz with rfl | ⟨text, htext, rfl⟩
  · exact not_lt_default _ hyz
  · obtain ⟨a, ha, rfl, ham⟩ := hxm.mem hx
    obtain ⟨b, hb, rfl, hbn⟩ := hyn.mem hy
    exact hstray a ha b hb text htext m n ham hbn hmn hlabel ⟨hyz, hzx⟩

/-- As text a number is equal to no label. -/
theorem textCompare_ne {v z : SortValue c.F} {n : Int} (hv : v ∈ Column c texts)
    (hz : z ∈ Column c texts) (hvn : v.Numeric n) (hlabel : z.IsLabel) :
    v.textCompare z ≠ .eq ∧ z.textCompare v ≠ .eq := by
  obtain ⟨text, -, rfl, hint, hn⟩ := hvn.mem hv
  have hne : (new c text).text ≠ z.text := by
    intro heq
    rcases hz with rfl | ⟨text', -, rfl⟩
    · have htrim : trim text = "" := heq
      rw [htrim] at hint
      exact absurd hint (by simp [decimalInteger, decimalDigits])
    · have htrim : trim text = trim text' := heq
      have hlabel : c.parse (trim text') = none := hlabel
      rw [← htrim] at hlabel
      exact c.reads _ _ hint hn hlabel
  exact ⟨fun h => hne (text_of_textCompare h), fun h => hne (text_of_textCompare h).symm⟩

theorem lt_of_isLE {v w : SortValue c.F} (h : (v.textCompare w).isLE) (hne : v.textCompare w ≠ .eq) :
    v.textCompare w = .lt := by
  cases hord : v.textCompare w with
  | lt => rfl
  | eq => exact absurd hord hne
  | gt => rw [hord] at h; cases h

theorem compare_isLE_numeric {v w : SortValue c.F} {m n : Int} (hv : v.Numeric m)
    (hw : w.Numeric n) : (v.compare w).isLE ↔ m ≤ n := by
  rw [compare_numeric hv hw]
  exact Std.isLE_compare

/-- Without a stray label the comparison is an order on a column. -/
theorem compare_consistent (hsort : ∀ text ∈ texts, Sortable c text)
    (hstray : NoStrayLabel c texts) : ConsistentOn compare (Column c texts) where
  swap a ha b hb := by
    rcases numeric_or_label hsort ha with ⟨m, hm⟩ | hla
    · rcases numeric_or_label hsort hb with ⟨n, hn⟩ | hlb
      · rw [compare_numeric hm hn, compare_numeric hn hm]
        exact Std.OrientedCmp.eq_swap
      · rw [compare_label_left hlb, compare_label_right hlb, textCompare_swap]
    · rw [compare_label_left hla, compare_label_right hla, textCompare_swap]
  trans a ha b hb z hz hab hbz := by
    -- by which of the three are numbers
    rcases numeric_or_label hsort ha with ⟨m, hm⟩ | hla <;>
      rcases numeric_or_label hsort hb with ⟨n, hn⟩ | hlb <;>
        rcases numeric_or_label hsort hz with ⟨k, hk⟩ | hlz
    · rw [compare_isLE_numeric hm hn] at hab
      rw [compare_isLE_numeric hn hk] at hbz
      exact (compare_isLE_numeric hm hk).mpr (hab.trans hbz)
    · rw [compare_isLE_numeric hm hn] at hab
      rw [compare_label_right hlz] at hbz ⊢
      by_contra hc
      exact not_between hstray ha hb hz hm hn hab hlz
        (lt_of_isLE hbz (textCompare_ne hb hz hn hlz).1) (not_isLE_iff.mp hc)
    · rw [compare_label_right hlb] at hab
      rw [compare_label_left hlb] at hbz
      rw [compare_isLE_numeric hm hk]
      by_contra hc
      exact not_between hstray hz ha hb hk hm (by omega) hlb
        (lt_of_isLE hab (textCompare_ne ha hb hm hlb).1)
        (lt_of_isLE hbz (textCompare_ne hz hb hk hlb).2)
    · rw [compare_label_right hlb] at hab
      rw [compare_label_left hlb] at hbz
      rw [compare_label_right hlz]
      exact textCompare_trans hab hbz
    · rw [compare_label_left hla] at hab ⊢
      rw [compare_isLE_numeric hn hk] at hbz
      by_contra hc
      exact not_between hstray hb hz ha hn hk hbz hla (not_isLE_iff.mp hc)
        (lt_of_isLE hab (textCompare_ne hb ha hn hla).2)
    · rw [compare_label_left hla] at hab ⊢
      rw [compare_label_right hlz] at hbz
      exact textCompare_trans hab hbz
    · rw [compare_label_left hla] at hab ⊢
      rw [compare_label_left hlb] at hbz
      exact textCompare_trans hab hbz
    · rw [compare_label_left hla] at hab ⊢
      rw [compare_label_left hlb] at hbz
      exact textCompare_trans hab hbz

/-- With one it is none. -/
theorem noStrayLabel_of_consistent
    (h : ConsistentOn compare {v | ∃ text ∈ texts, v = new c text}) : NoStrayLabel c texts := by
  rintro a ha b hb z hz m n hm hn hmn hlabel ⟨hbz, hza⟩
  have hlabel : (new c z).IsLabel := hlabel
  have hab : ((new c a).compare (new c b)).isLE :=
    (compare_isLE_numeric ⟨a, rfl, hm⟩ ⟨b, rfl, hn⟩).mpr hmn
  have hbz' : ((new c b).compare (new c z)).isLE := by
    rw [compare_label_right hlabel, hbz]
    rfl
  have haz := h.trans _ ⟨a, ha, rfl⟩ _ ⟨b, hb, rfl⟩ _ ⟨z, hz, rfl⟩ hab hbz'
  rw [compare_label_right hlabel, textCompare_swap, hza] at haz
  cases haz

end SortValue

/-! ## When rows are -/

section Rows

variable {c : Collation}

/-- A row as the sort sees it: its key, and its values spec by spec. -/
abbrev SortRow (c : Collation) := String × List (SortValue c.F)

/-- The order of two rows: the specs in turn, and the key in the end. -/
def rowOrder (resolved : List (SortColumn × Bool)) (a b : SortRow c) : Ordering :=
  (keyOrder resolved a.2 b.2).then (compare a.1 b.1)

/-- The rows whose values are of a set, one for each spec. -/
def RowsOver (resolved : List (SortColumn × Bool)) (values : Set (SortValue c.F)) :
    Set (SortRow c) :=
  {row | row.2.length = resolved.length ∧ ∀ v ∈ row.2, v ∈ values}

/-- Over values in an order the specs in turn are an order, spec by spec. -/
theorem keyOrder_consistent {values : Set (SortValue c.F)}
    (h : ConsistentOn SortValue.compare values) (resolved : List (SortColumn × Bool)) :
    ConsistentOn (keyOrder resolved) {vs | vs.length = resolved.length ∧ ∀ v ∈ vs, v ∈ values} := by
  induction resolved with
  | nil =>
    refine ⟨?_, ?_⟩ <;> intros <;> simp [keyOrder]
  | cons spec resolved ih =>
    obtain ⟨column, descending⟩ := spec
    have htail : ConsistentOn
        (fun xs ys : List (SortValue c.F) => keyOrder resolved xs.tail ys.tail)
        {vs | vs.length = resolved.length + 1 ∧ ∀ v ∈ vs, v ∈ values} := by
      refine ih.comap (f := List.tail) fun vs hvs => ⟨by simp [hvs.1], fun v hv => ?_⟩
      exact hvs.2 v (List.mem_of_mem_tail hv)
    have hcons : ∀ vs : List (SortValue c.F), vs.length = resolved.length + 1 →
        vs = vs.headD SortValue.default :: vs.tail := by
      intro vs hvs
      cases vs with
      | nil => simp at hvs
      | cons v vs => rfl
    by_cases hcol : column = .unknown
    · refine htail.congr fun xs hxs ys hys => ?_
      conv_lhs => rw [hcons xs hxs.1, hcons ys hys.1]
      simp [keyOrder, hcol]
    · have hhead : ConsistentOn (fun xs ys : List (SortValue c.F) =>
          (xs.headD SortValue.default).compare (ys.headD SortValue.default))
          {vs | vs.length = resolved.length + 1 ∧ ∀ v ∈ vs, v ∈ values} := by
        refine h.comap (f := fun vs : List (SortValue c.F) => vs.headD SortValue.default)
          fun vs hvs => ?_
        have hmem : vs.headD SortValue.default ∈ vs.headD SortValue.default :: vs.tail :=
          List.mem_cons_self
        rw [← hcons vs hvs.1] at hmem
        exact hvs.2 _ hmem
      cases descending with
      | false =>
        refine (hhead.andThen htail).congr fun xs hxs ys hys => ?_
        conv_lhs => rw [hcons xs hxs.1, hcons ys hys.1]
        simp [keyOrder, hcol]
      | true =>
        refine (hhead.reverse.andThen htail).congr fun xs hxs ys hys => ?_
        conv_lhs => rw [hcons xs hxs.1, hcons ys hys.1]
        simp [keyOrder, hcol]

theorem rowOrder_consistent {values : Set (SortValue c.F)}
    (h : ConsistentOn SortValue.compare values) (resolved : List (SortColumn × Bool)) :
    ConsistentOn (rowOrder resolved) (RowsOver resolved values) := by
  have hkeys : ConsistentOn (fun a b : SortRow c => keyOrder resolved a.2 b.2)
      (RowsOver resolved values) :=
    (keyOrder_consistent h resolved).comap (f := Prod.snd) fun row hrow => hrow
  have hids : ConsistentOn (fun a b : SortRow c => compare a.1 b.1) (RowsOver resolved values) :=
    (ConsistentOn.of_transCmp (s := Set.univ)).comap (f := Prod.fst) (by simp)
  exact hkeys.andThen hids

theorem key_of_rowOrder {resolved : List (SortColumn × Bool)} {a b : SortRow c}
    (h : rowOrder resolved a b = .eq) : a.1 = b.1 := by
  rw [rowOrder, Ordering.then_eq_eq] at h
  exact Std.LawfulEqCmp.eq_of_compare h.2

variable {α : Type}

/-- A list sorted through what the sort sees of its elements. -/
def sortRows (resolved : List (SortColumn × Bool)) (row : α → SortRow c) (rows : List α) :
    List α :=
  sortBy (fun a b => rowOrder resolved (row a) (row b)) rows

/-- Taking the elements in the order of the sorted indices sorts them. -/
theorem takeInOrder_sortedOrder (resolved : List (SortColumn × Bool)) (row : α → SortRow c)
    (rows : List α) (sortKeys : List (List (SortValue c.F))) (idOf : Nat → String)
    (hkeys : sortKeys = rows.map fun a => (row a).2)
    (hids : ∀ i a, rows[i]? = some a → idOf i = (row a).1) :
    takeInOrder rows (sortedOrder sortKeys resolved idOf) = sortRows resolved row rows := by
  rw [takeInOrder, sortedOrder, hkeys, List.length_map]
  refine sortBy_indices rows fun i j a b ha hb => ?_
  simp [indexOrder, rowOrder, ha, hb, hids i a ha, hids j b hb]

variable {resolved : List (SortColumn × Bool)} {row : α → SortRow c}

/-- What a sort owes its caller: the rows, in order, whatever order they came in. -/
structure SortedRows (resolved : List (SortColumn × Bool)) (row : α → SortRow c)
    (sort : List α → List α) (rows : List α) : Prop where
  perm : (sort rows).Perm rows
  sorted : (sort rows).Pairwise fun a b => (rowOrder resolved (row a) (row b)).isLE
  unordered : ∀ rows', rows'.Perm rows → sort rows' = sort rows
  consistent : ConsistentOn (fun a b => rowOrder resolved (row a) (row b)) {a | a ∈ rows}

theorem sortRows_sorted {values : Set (SortValue c.F)}
    (h : ConsistentOn SortValue.compare values) {rows : List α}
    (hrows : ∀ a ∈ rows, row a ∈ RowsOver resolved values)
    (hids : (rows.map fun a => (row a).1).Nodup) {sort : List α → List α}
    (hsort : ∀ rows, sort rows = sortRows resolved row rows) :
    SortedRows resolved row sort rows := by
  have hcons : ConsistentOn (fun a b => rowOrder resolved (row a) (row b)) {a | a ∈ rows} :=
    (rowOrder_consistent h resolved).comap hrows
  have hties : TieFree (fun a b => rowOrder resolved (row a) (row b)) {a | a ∈ rows} :=
    fun a ha b hb hab => List.inj_on_of_nodup_map hids ha hb (key_of_rowOrder hab)
  refine ⟨?_, ?_, ?_, hcons⟩
  · rw [hsort]
    exact sortBy_perm _ _
  · rw [hsort]
    exact sortBy_sorted hcons
  · intro rows' hperm
    rw [hsort, hsort]
    exact sortBy_eq_of_perm hcons hties hperm

end Rows

/-! ## The three sorts -/

section Sorts

variable {c : Collation} {t : Table} {specs : List SortSpec}

def resultRow (c : Collation) (t : Table) (specs : List SortSpec) (result : String × Record) :
    SortRow c :=
  (result.1, sortKeyFor c result.1 result.2 (resolveSortFields t specs))

theorem sortResultsIn_eq (hne : specs ≠ []) (rows : List (String × Record)) :
    sortResultsIn c t rows specs =
      sortRows (resolveSortFields t specs) (resultRow c t specs) rows := by
  rw [sortResultsIn, if_neg hne]
  refine takeInOrder_sortedOrder _ _ _ _ _ rfl fun i a ha => ?_
  simp [ha, resultRow]

def entryRow (c : Collation) (t : Table) (specs : List SortSpec) (explode : Option ExplodeTarget)
    (row : SelectEntry × Record) : SortRow c :=
  (row.1.key, sortKeyAt c row.1.key row.2 (resolveSortFields t specs)
    (sortNarrowings (resolveSortFields t specs) explode) row.1.position)

theorem sortEntriesIn_eq (hne : specs ≠ []) (explode : Option ExplodeTarget)
    (rows : List (SelectEntry × Record)) :
    sortEntriesIn c t rows specs explode =
      sortRows (resolveSortFields t specs) (entryRow c t specs explode) rows := by
  rw [sortEntriesIn, if_neg hne]
  refine takeInOrder_sortedOrder _ _ _ _ _ rfl fun i a ha => ?_
  simp [ha, entryRow]

def keyRow (c : Collation) (t : Table) (isDict : Bool) (specs : List SortSpec) (key : String) :
    SortRow c :=
  (key, match (if isDict then t.dictionary else t.records)[key]? with
    | some record => sortKeyFor c key record (resolveSortFields t specs)
    | none => List.replicate (resolveSortFields t specs).length SortValue.default)

theorem sortKeysIn_eq (hne : specs ≠ []) (isDict : Bool) (keys : List String) :
    sortKeysIn c t isDict keys specs =
      sortRows (resolveSortFields t specs) (keyRow c t isDict specs) keys := by
  rw [sortKeysIn, if_neg hne]
  refine takeInOrder_sortedOrder _ _ _ _ _ rfl fun i a ha => ?_
  simp [ha, keyRow]

/-- The texts the specs read of a row are of a set. -/
def ReadsOnly (texts : Set String) (read : List (Option String)) : Prop :=
  ∀ text, some text ∈ read → text ∈ texts

theorem sortKeyAt_over {texts : Set String} {id : String} {record : Record}
    {resolved : List (SortColumn × Bool)} {narrowings : List Narrowing}
    {position : Option ValuePosition}
    (h : ReadsOnly texts (sortTexts id record resolved narrowings position)) :
    (id, sortKeyAt c id record resolved narrowings position) ∈
      RowsOver resolved (SortValue.Column c texts) := by
  refine ⟨by simp [sortKeyAt, sortTexts], fun v hv => ?_⟩
  obtain ⟨read, hread, rfl⟩ := List.mem_map.mp hv
  cases read with
  | none => exact Or.inl rfl
  | some text => exact Or.inr ⟨text, h text hread, rfl⟩

/-- Everything a sort by the specs promises of rows that read their values out of `texts`. -/
structure SortsWell (c : Collation) (texts : Set String) (specs : List SortSpec) : Prop where
  consistent : ConsistentOn SortValue.compare {v | ∃ text ∈ texts, v = SortValue.new c text}
  results : ∀ t rows, (rows.map Prod.fst).Nodup →
    (∀ row ∈ rows, ReadsOnly texts (sortTexts row.1 row.2 (resolveSortFields t specs) [] none)) →
    SortedRows (resolveSortFields t specs) (resultRow c t specs)
      (fun rows => sortResultsIn c t rows specs) rows
  entries : ∀ t explode rows, (rows.map fun row => row.1.key).Nodup →
    (∀ row ∈ rows, ReadsOnly texts (sortTexts row.1.key row.2 (resolveSortFields t specs)
      (sortNarrowings (resolveSortFields t specs) explode) row.1.position)) →
    SortedRows (resolveSortFields t specs) (entryRow c t specs explode)
      (fun rows => sortEntriesIn c t rows specs explode) rows
  keys : ∀ t isDict keys, keys.Nodup →
    (∀ key ∈ keys, ∀ record, (if isDict then t.dictionary else t.records)[key]? = some record →
      ReadsOnly texts (sortTexts key record (resolveSortFields t specs) [] none)) →
    SortedRows (resolveSortFields t specs) (keyRow c t isDict specs)
      (fun keys => sortKeysIn c t isDict keys specs) keys

/-- Without a spec nothing is sorted, so rows stay as they came. -/
theorem not_sortsWell_nil (c : Collation) (texts : Set String) : ¬ SortsWell c texts [] := by
  intro h
  have hrows := h.results {} [("B", {}), ("A", {})] (by simp) (by
    intro row _ text htext
    simp [sortTexts, resolveSortFields] at htext)
  have hsorted := hrows.sorted
  simp only [sortResultsIn, if_true, List.pairwise_cons] at hsorted
  have := hsorted.1 ("A", {}) (by simp)
  revert this
  simp only [rowOrder, resultRow, resolveSortFields, List.map_nil, keyOrder]
  decide +kernel

/-- A sort by at least one spec is a sort exactly where no text stands between two numbers the wrong
way. -/
theorem sorts_well_iff {c : Collation} {texts : Set String}
    (hsort : ∀ text ∈ texts, Sortable c text) (specs : List SortSpec) :
    SortsWell c texts specs ↔ specs ≠ [] ∧ NoStrayLabel c texts := by
  constructor
  · intro h
    refine ⟨?_, SortValue.noStrayLabel_of_consistent h.consistent⟩
    rintro rfl
    exact not_sortsWell_nil c texts h
  · rintro ⟨hne, hstray⟩
    have hcolumn := SortValue.compare_consistent hsort hstray
    refine ⟨hcolumn.mono fun v hv => Or.inr hv, ?_, ?_, ?_⟩
    · intro t rows hids hrows
      exact sortRows_sorted hcolumn (fun row hrow => sortKeyAt_over (hrows row hrow)) hids
        (sortResultsIn_eq hne)
    · intro t explode rows hids hrows
      exact sortRows_sorted hcolumn (fun row hrow => sortKeyAt_over (hrows row hrow)) hids
        (sortEntriesIn_eq hne explode)
    · intro t isDict keys hids hkeys
      refine sortRows_sorted hcolumn (fun key hkey => ?_) (by simpa [keyRow] using hids)
        (sortKeysIn_eq hne isDict)
      unfold keyRow
      cases hrec : (if isDict then t.dictionary else t.records)[key]? with
      | some record => exact sortKeyAt_over (hkeys key hkey record hrec)
      | none =>
        refine ⟨by simp, fun v hv => ?_⟩
        exact Or.inl (List.eq_of_mem_replicate hv)

end Sorts

/-! ### A stray label -/

/-- Decimal integers as numbers, and the lower case of ASCII. -/
def integerCollation : Collation where
  F := Int
  parse := decimalInteger
  partialCmp m n := some (compare m n)
  toLowercase ch := [ch.toLower]
  reads s n h _ := by simp [h]
  compares s s' n n' x x' h h' _ _ hx hx' := by
    rw [h] at hx
    rw [h'] at hx'
    cases hx
    cases hx'
    rfl

/-- `2` is before `10`, `10` before `1a` and `1a` before `2`. -/
theorem stray_label :
    (∀ text ∈ ({"2", "10", "1a"} : Set String), Sortable integerCollation text) ∧
      ¬ SortsWell integerCollation {"2", "10", "1a"} [{ fieldName := "ID", descending := false }] := by
  constructor
  · have h2 : IsInteger "2" 2 := by unfold IsInteger; decide +kernel
    have h10 : IsInteger "10" 10 := by unfold IsInteger; decide +kernel
    have h1a : integerCollation.parse (trim "1a") = none := by
      change decimalInteger (trim "1a") = none
      decide +kernel
    rintro text (rfl | rfl | rfl)
    · exact Or.inl ⟨2, h2⟩
    · exact Or.inl ⟨10, h10⟩
    · exact Or.inr h1a
  · intro h
    have htrans := h.consistent.trans _ ⟨"2", by simp, rfl⟩ _ ⟨"10", by simp, rfl⟩ _
      ⟨"1a", by simp, rfl⟩
    revert htrans
    decide +kernel

theorem integerCollation_parse (text : String) :
    integerCollation.parse text = decimalInteger text := rfl

/-- A label past all numbers is no stray. -/
theorem sorts_well_label :
    SortsWell integerCollation {"2", "10", "a"} [{ fieldName := "ID", descending := true }] := by
  have h2 : IsInteger "2" 2 := by unfold IsInteger; decide +kernel
  have h10 : IsInteger "10" 10 := by unfold IsInteger; decide +kernel
  have hnone : decimalInteger (trim "a") = none := by decide +kernel
  have ha : integerCollation.parse (trim "a") = none := (integerCollation_parse _).trans hnone
  refine (sorts_well_iff ?_ _).mpr ⟨by simp, ?_⟩
  · rintro text (rfl | rfl | rfl)
    · exact Or.inl ⟨2, h2⟩
    · exact Or.inl ⟨10, h10⟩
    · exact Or.inr ha
  · rintro a hain b - z hzin m n - - - hz ⟨-, hza⟩
    -- the label is the one that is no number, and it is after each of the three
    have hnumber : ∀ {text : String} {n : Int}, IsInteger text n →
        integerCollation.parse (trim text) ≠ none := fun h hnot => by
      have heq := (integerCollation_parse _).symm.trans hnot
      rw [h.1] at heq
      cases heq
    rcases hzin with rfl | rfl | rfl
    · exact hnumber h2 hz
    · exact hnumber h10 hz
    · rcases hain with rfl | rfl | rfl <;> revert hza <;> decide +kernel

end RustyPick
