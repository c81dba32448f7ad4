import RustyPick.ModulusPlan
import RustyPick.Lib.Histogram

/-!
# RustyPick.GroupDistribution

How the records of a section are spread over its groups (`db/models.rs`), as a management view
draws it. The counts come from the trailers of the group files, which nothing vouches for.

Every operation on a `u64` or an index is checked, `none` standing for the panic or the wrapped
result. The mean, and the count of groups it is compared with, are floating point and left out.

`distribution_iff`: the figures come out, and are right, exactly when the sum of the counts and the
end of the last column are numbers of 64 bits.
-/

namespace RustyPick

open Lib

def DISTRIBUTION_BUCKETS : Nat := 16

/-- One group file, as a diagnostic sees it without reading a record. -/
structure GroupEntry where
  bytes : Nat
  /-- Records the group holds, from its trailer, or `none` where it has none to read. -/
  records : Option Nat
  deriving DecidableEq, Repr

/-- How many groups hold between `min` and `max` records, inclusive. -/
structure DistributionBucket where
  min : Nat
  max : Nat
  groups : Nat
  deriving DecidableEq, Repr

structure GroupDistribution where
  groups : Nat
  min : Nat := 0
  max : Nat := 0
  median : Nat := 0
  empty : Nat := 0
  unreadable : Nat
  buckets : List DistributionBucket := []
  deriving DecidableEq, Repr

def checkedAdd (a b : Nat) : Option Nat := if a + b < 2 ^ 64 then some (a + b) else none

def checkedSub (a b : Nat) : Option Nat := if b ≤ a then some (a - b) else none

/-- Most numbers of eight bytes a vector can hold. -/
def MAX_COUNTS : Nat := 2 ^ 60 - 1

namespace GroupDistribution

/-- Column `i`, holding no group yet. -/
def column (low high width i : Nat) : Option DistributionBucket := do
  let offset ← checkedMul i width
  let first ← checkedAdd low offset
  let past ← checkedAdd first width
  let last ← checkedSub past 1
  some { min := first, max := Nat.min last high, groups := 0 }

/-- One more group in the column at `index`, which has to be there. -/
def countIn (buckets : List DistributionBucket) (index : Nat) : Option (List DistributionBucket) :=
  buckets[index]?.map fun bucket =>
    buckets.set index { bucket with groups := bucket.groups + 1 }

/-- Counts one group into the column its records fall into. -/
def place (low width : Nat) (buckets : List DistributionBucket) (value : Nat) :
    Option (List DistributionBucket) := do
  let offset ← checkedSub value low
  let top ← checkedSub buckets.length 1
  countIn buckets (Nat.min (offset / width) top)

/-- The shape, as at most `DISTRIBUTION_BUCKETS` columns of one width over the record counts. -/
def bucket (sorted : List Nat) : Option (List DistributionBucket) := do
  let low ← sorted.head?
  let high ← sorted.getLast?
  let spread ← checkedSub high low
  let span ← checkedAdd spread 1
  let width := Nat.max (span ⌈/⌉ DISTRIBUTION_BUCKETS) 1
  let buckets ← (List.range (span ⌈/⌉ width)).mapM (column low high width)
  sorted.foldlM (place low width) buckets

/-- Summarises the group profile of a section. -/
def of (groups : List GroupEntry) (modulus : Nat) : Option GroupDistribution :=
  let counts := groups.filterMap GroupEntry.records
  let unreadable := groups.length - counts.length
  -- the groups the modulus has that no file exists for
  let absent := modulus - groups.length
  if counts = [] ∧ absent = 0 then
    some { groups := groups.length, unreadable := unreadable }
  else if counts.length + absent > MAX_COUNTS then none
  else do
    let sorted := (counts ++ List.replicate absent 0).insertionSort (· ≤ ·)
    let _total ← sorted.foldlM checkedAdd 0
    let low ← sorted.head?
    let high ← sorted.getLast?
    let median ← sorted[sorted.length / 2]?
    let buckets ← bucket sorted
    some
      { groups := sorted.length + unreadable
        min := low
        max := high
        median := median
        empty := (sorted.takeWhile fun count => count = 0).length
        unreadable := unreadable
        buckets := buckets }

/-! ## What the figures are to say -/

/-- The record counts the figures are over: the readable ones, and nothing for an absent group. -/
def population (groups : List GroupEntry) (modulus : Nat) : List Nat :=
  groups.filterMap GroupEntry.records ++ List.replicate (modulus - groups.length) 0

/-- Columns side by side over the range of the counts, each count in the one whose range holds
it. -/
structure Columns (d : GroupDistribution) (counts : List Nat) : Prop where
  least : IsLeast {v | v ∈ counts} d.min
  greatest : IsGreatest {v | v ∈ counts} d.max
  first : d.buckets.head?.map DistributionBucket.min = some d.min
  last : d.buckets.getLast?.map DistributionBucket.max = some d.max
  proper : ∀ b ∈ d.buckets, b.min ≤ b.max
  contiguous : d.buckets.IsChain fun a b => a.max + 1 = b.min
  disjoint : d.buckets.Pairwise fun a b => a.max < b.min
  total : (d.buckets.map DistributionBucket.groups).sum = counts.length
  counted : ∀ b ∈ d.buckets, b.groups = counts.countP fun v => b.min ≤ v ∧ v ≤ b.max

/-- No columns for a section without a count, and the right ones for any other. -/
def Describes (d : GroupDistribution) (counts : List Nat) : Prop :=
  if counts = [] then d.buckets = [] else Columns d counts

/-- The width of a column over a range. -/
def columnWidth (low high : Nat) : Nat := Nat.max ((high - low + 1) ⌈/⌉ DISTRIBUTION_BUCKETS) 1

/-- The first number past the last column. -/
def columnsEnd (low high : Nat) : Nat :=
  low + columnCount low high (columnWidth low high) * columnWidth low high

/-- The counts fit a vector, and their sum and the end of the last column fit a `u64`. -/
def Fits (counts : List Nat) : Prop :=
  counts = [] ∨ (counts.length ≤ MAX_COUNTS ∧ counts.sum < 2 ^ 64 ∧
    columnsEnd (counts.min?.getD 0) (counts.max?.getD 0) < 2 ^ 64)

/-! ## Checked arithmetic -/

theorem checkedAdd_of_lt {a b : Nat} (h : a + b < 2 ^ 64) : checkedAdd a b = some (a + b) :=
  if_pos h

theorem checkedAdd_of_not_lt {a b : Nat} (h : ¬ a + b < 2 ^ 64) : checkedAdd a b = none :=
  if_neg h

theorem checkedMul_of_not_lt {a b : Nat} (h : ¬ a * b < 2 ^ 64) : checkedMul a b = none :=
  if_neg h

theorem checkedSub_of_le {a b : Nat} (h : b ≤ a) : checkedSub a b = some (a - b) := if_pos h

theorem foldlM_checkedAdd (counts : List Nat) : ∀ start < 2 ^ 64, counts.foldlM checkedAdd start =
    if start + counts.sum < 2 ^ 64 then some (start + counts.sum) else none := by
  induction counts with
  | nil =>
    intro start hstart
    rw [List.sum_nil, Nat.add_zero, if_pos hstart]
    rfl
  | cons count counts ih =>
    intro start hstart
    rw [List.foldlM_cons, List.sum_cons, ← Nat.add_assoc]
    by_cases hadd : start + count < 2 ^ 64
    · rw [checkedAdd_of_lt hadd]
      exact ih _ hadd
    · rw [checkedAdd_of_not_lt hadd, if_neg (by omega)]
      rfl

/-- A list of fallible values is there when every one of them is. -/
theorem mapM_eq_ite {α β : Type} {f : α → Option β} {g : α → β} {p : α → Prop} [DecidablePred p]
    (hf : ∀ a, f a = if p a then some (g a) else none) (l : List α) :
    l.mapM f = if ∀ a ∈ l, p a then some (l.map g) else none := by
  induction l with
  | nil => simp
  | cons a l ih =>
    rw [List.mapM_cons, hf a, ih]
    simp only [List.forall_mem_cons]
    by_cases ha : p a
    · by_cases hl : ∀ b ∈ l, p b
      · rw [if_pos ha, if_pos hl, if_pos ⟨ha, hl⟩]
        rfl
      · rw [if_pos ha, if_neg hl, if_neg fun hc => hl hc.2]
        rfl
    · have hnot : ¬ (p a ∧ ∀ b ∈ l, p b) := fun hc => ha hc.1
      rw [if_neg ha, if_neg hnot]
      rfl

section

variable {low high width : Nat}

theorem column_eq (hwidth : 0 < width) (i : Nat) :
    column low high width i =
      if low + i * width + width < 2 ^ 64 then
        some ⟨columnMin low width i, columnMax low high width i, 0⟩
      else none := by
  rw [column]
  simp only [Option.bind_eq_bind]
  by_cases hpast : low + i * width + width < 2 ^ 64
  · rw [if_pos hpast, checkedMul_of_lt (by omega), Option.bind_some, checkedAdd_of_lt (by omega),
      Option.bind_some, checkedAdd_of_lt hpast, Option.bind_some, checkedSub_of_le (by omega),
      Option.bind_some]
    rfl
  rw [if_neg hpast]
  by_cases hmul : i * width < 2 ^ 64
  · rw [checkedMul_of_lt hmul, Option.bind_some]
    by_cases hadd : low + i * width < 2 ^ 64
    · rw [checkedAdd_of_lt hadd, Option.bind_some, checkedAdd_of_not_lt hpast]
      rfl
    · rw [checkedAdd_of_not_lt hadd]
      rfl
  · rw [checkedMul_of_not_lt hmul]
    rfl

/-- Every column can be computed when the last can. -/
theorem columns_eq (hwidth : 0 < width) {count : Nat} (hcount : 0 < count) :
    (List.range count).mapM (column low high width) =
      if low + count * width < 2 ^ 64 then
        some ((List.range count).map fun i =>
          ⟨columnMin low width i, columnMax low high width i, 0⟩)
      else none := by
  rw [mapM_eq_ite (column_eq hwidth)]
  have hiff : (∀ i ∈ List.range count, low + i * width + width < 2 ^ 64) ↔
      low + count * width < 2 ^ 64 := by
    constructor
    · intro hall
      have hlast := hall (count - 1) (List.mem_range.mpr (by omega))
      have hmul : count * width = (count - 1) * width + width := by
        rw [← Nat.succ_mul, Nat.succ_eq_add_one, Nat.sub_add_cancel hcount]
      omega
    · intro hend i hi
      have hmul : (i + 1) * width ≤ count * width :=
        Nat.mul_le_mul_right _ (List.mem_range.mp hi)
      rw [Nat.add_mul] at hmul
      omega
  simp only [hiff]

/-- Counting a list of groups adds to each column the groups that fall into it. -/
theorem foldlM_place {values : List Nat} {buckets : List DistributionBucket}
    (h : ∀ v ∈ values, low ≤ v ∧ columnOf low width v < buckets.length) :
    values.foldlM (place low width) buckets =
      some (buckets.mapIdx fun i b =>
        { b with groups := b.groups + values.countP fun v => columnOf low width v = i }) := by
  induction values generalizing buckets with
  | nil =>
    refine congrArg some (List.ext_getElem (by simp) fun i h1 h2 => ?_)
    simp
  | cons v values ih =>
    obtain ⟨hlow, hindex⟩ := h v List.mem_cons_self
    have hplace : place low width buckets v = some (buckets.set (columnOf low width v)
        { buckets[columnOf low width v] with
          groups := buckets[columnOf low width v].groups + 1 }) := by
      have htop : Nat.min ((v - low) / width) (buckets.length - 1) = columnOf low width v :=
        Nat.min_eq_left (Nat.le_sub_one_of_lt hindex)
      rw [place]
      simp only [Option.bind_eq_bind]
      rw [checkedSub_of_le hlow, Option.bind_some, checkedSub_of_le (by omega), Option.bind_some,
        htop, countIn, List.getElem?_eq_getElem hindex]
      rfl
    rw [List.foldlM_cons, hplace]
    have hstill : ∀ w ∈ values, low ≤ w ∧ columnOf low width w < (buckets.set (columnOf low width v)
        { buckets[columnOf low width v] with
          groups := buckets[columnOf low width v].groups + 1 }).length := fun w hw => by
      rw [List.length_set]
      exact h w (List.mem_cons_of_mem _ hw)
    refine (ih hstill).trans (congrArg some ?_)
    apply List.ext_getElem
    · simp
    · intro i h1 h2
      simp only [List.getElem_mapIdx, List.getElem_set, List.countP_cons]
      by_cases hi : columnOf low width v = i
      · subst hi
        simp
        omega
      · simp [hi]

end

/-! ## The columns -/

theorem columnWidth_pos (low high : Nat) : 0 < columnWidth low high := Nat.le_max_right _ 1

/-- The columns over sorted counts, when the end of the last one fits a `u64`. -/
theorem bucket_eq {sorted : List Nat} {low high : Nat} (hlow : sorted.head? = some low)
    (hhigh : sorted.getLast? = some high) (hwithin : ∀ v ∈ sorted, low ≤ v ∧ v ≤ high) :
    bucket sorted =
      if columnsEnd low high < 2 ^ 64 then
        some ((List.range (columnCount low high (columnWidth low high))).map fun i =>
          { min := columnMin low (columnWidth low high) i
            max := columnMax low high (columnWidth low high) i
            groups := sorted.countP fun v => columnOf low (columnWidth low high) v = i })
      else none := by
  have hle : low ≤ high := (hwithin high (List.mem_of_getLast? hhigh)).1
  have hwidth := columnWidth_pos low high
  have hend := high_lt_end hwidth hle
  rw [bucket, hlow, hhigh]
  simp only [Option.bind_eq_bind, Option.bind_some]
  rw [checkedSub_of_le hle, Option.bind_some]
  by_cases hspan : high - low + 1 < 2 ^ 64
  · rw [checkedAdd_of_lt hspan, Option.bind_some]
    rw [show Nat.max ((high - low + 1) ⌈/⌉ DISTRIBUTION_BUCKETS) 1 = columnWidth low high
      from rfl, show (high - low + 1) ⌈/⌉ columnWidth low high =
        columnCount low high (columnWidth low high) from rfl,
      columns_eq hwidth (columnCount_pos hwidth),
      show low + columnCount low high (columnWidth low high) * columnWidth low high =
        columnsEnd low high from rfl]
    by_cases hfit : columnsEnd low high < 2 ^ 64
    · rw [if_pos hfit, if_pos hfit, Option.bind_some, foldlM_place]
      · refine congrArg some (List.ext_getElem (by simp) fun i h1 h2 => ?_)
        simp
      · intro v hv
        rw [List.length_map, List.length_range]
        exact ⟨(hwithin v hv).1, columnOf_lt hwidth (hwithin v hv).1 (hwithin v hv).2⟩
    · rw [if_neg hfit, if_neg hfit]
      rfl
  · rw [checkedAdd_of_not_lt hspan, if_neg]
    · rfl
    · rw [columnsEnd]
      omega

/-- The columns of a list of counts are what they are to be. -/
theorem columns_right {d : GroupDistribution} {counts : List Nat}
    (hleast : IsLeast {v | v ∈ counts} d.min) (hgreatest : IsGreatest {v | v ∈ counts} d.max)
    {width : Nat} (hwidth : 0 < width)
    (hbuckets : d.buckets = (List.range (columnCount d.min d.max width)).map fun i =>
      { min := columnMin d.min width i
        max := columnMax d.min d.max width i
        groups := counts.countP fun v => columnOf d.min width v = i }) :
    Columns d counts := by
  have hle : d.min ≤ d.max := hleast.2 hgreatest.1
  have hpos : 0 < columnCount d.min d.max width := columnCount_pos hwidth
  obtain ⟨n, hn⟩ : ∃ n, columnCount d.min d.max width = n + 1 :=
    ⟨_, (Nat.sub_add_cancel hpos).symm⟩
  have hlast : columnMax d.min d.max width (columnCount d.min d.max width - 1) = d.max :=
    columnMax_last hwidth hle
  rw [hn, Nat.add_sub_cancel] at hlast
  refine ⟨hleast, hgreatest, ?_, ?_, ?_, ?_, ?_, ?_, ?_⟩
  · rw [hbuckets, hn, List.range_succ_eq_map]
    simp [columnMin]
  · rw [hbuckets, hn, List.range_succ, List.map_append, List.map_singleton, List.getLast?_concat,
      Option.map_some, hlast]
  · intro b hb
    rw [hbuckets] at hb
    obtain ⟨i, hi, rfl⟩ := List.mem_map.mp hb
    exact columnMin_le_columnMax hwidth hle (List.mem_range.mp hi)
  · rw [hbuckets, List.isChain_iff_getElem]
    intro i hi
    simp only [List.length_map, List.length_range] at hi
    simpa using columnMax_succ hwidth hle hi
  · rw [hbuckets, List.pairwise_map]
    refine List.pairwise_lt_range.imp fun {i j} hij => ?_
    have hmul : (i + 1) * width ≤ j * width := Nat.mul_le_mul_right _ hij
    rw [Nat.add_mul] at hmul
    simp only [columnMin, columnMax]
    omega
  · have htally : d.buckets.map DistributionBucket.groups =
        tally (columnCount d.min d.max width) (columnOf d.min width) counts := by
      rw [hbuckets, List.map_map]
      rfl
    rw [htally, sum_tally fun v hv => columnOf_lt hwidth (hleast.2 hv) (hgreatest.2 hv)]
  · intro b hb
    rw [hbuckets] at hb
    obtain ⟨i, hi, rfl⟩ := List.mem_map.mp hb
    refine List.countP_congr fun v hv => ?_
    simp only [decide_eq_true_eq]
    exact columnOf_eq_iff hwidth (hleast.2 hv) (hgreatest.2 hv)

/-! ## The figures -/

/-- The counts in order, from the least to the greatest. -/
theorem sorted_ends {counts : List Nat} (hne : counts ≠ []) :
    ∃ low high, (counts.insertionSort (· ≤ ·)).head? = some low ∧
      (counts.insertionSort (· ≤ ·)).getLast? = some high ∧
      IsLeast {v | v ∈ counts} low ∧ IsGreatest {v | v ∈ counts} high := by
  have hmem : ∀ v, v ∈ counts.insertionSort (· ≤ ·) ↔ v ∈ counts := fun v =>
    List.mem_insertionSort _
  have hsorted := List.pairwise_insertionSort (· ≤ ·) counts
  have hsome : counts.insertionSort (· ≤ ·) ≠ [] := by
    rw [← List.length_pos_iff, List.length_insertionSort]
    exact List.length_pos_iff.mpr hne
  obtain ⟨low, rest, hlow⟩ := List.exists_cons_of_ne_nil hsome
  obtain ⟨init, high, hhigh⟩ := (List.eq_nil_or_concat _).resolve_left hsome
  rw [List.concat_eq_append] at hhigh
  refine ⟨low, high, by rw [hlow]; rfl, by rw [hhigh, List.getLast?_concat], ⟨?_, ?_⟩, ⟨?_, ?_⟩⟩
  · exact (hmem low).mp (by rw [hlow]; exact List.mem_cons_self)
  · intro v hv
    have hin := (hmem v).mpr hv
    rw [hlow] at hin hsorted
    rcases List.mem_cons.mp hin with rfl | hin
    · exact le_refl v
    · exact (List.pairwise_cons.mp hsorted).1 v hin
  · exact (hmem high).mp (by rw [hhigh]; simp)
  · intro v hv
    have hin := (hmem v).mpr hv
    rw [hhigh] at hin hsorted
    rcases List.mem_append.mp hin with hin | hin
    · exact (List.pairwise_append.mp hsorted).2.2 v hin high (by simp)
    · exact le_of_eq (List.mem_singleton.mp hin)

theorem fits_iff {counts : List Nat} (hne : counts ≠ []) {low high : Nat}
    (hleast : IsLeast {v | v ∈ counts} low) (hgreatest : IsGreatest {v | v ∈ counts} high) :
    Fits counts ↔
      counts.length ≤ MAX_COUNTS ∧ counts.sum < 2 ^ 64 ∧ columnsEnd low high < 2 ^ 64 := by
  have hmin : counts.min? = some low := List.min?_eq_some_iff.mpr ⟨hleast.1, fun b hb => hleast.2 hb⟩
  have hmax : counts.max? = some high :=
    List.max?_eq_some_iff.mpr ⟨hgreatest.1, fun b hb => hgreatest.2 hb⟩
  rw [Fits, hmin, hmax, Option.getD_some, Option.getD_some]
  exact or_iff_right hne

/-- The figures come out when everything fits, and then they are right. -/
theorem of_spec {groups : List GroupEntry} {modulus : Nat} (hne : population groups modulus ≠ []) :
    (Fits (population groups modulus) →
      ∃ d, of groups modulus = some d ∧ Columns d (population groups modulus)) ∧
      (¬ Fits (population groups modulus) → of groups modulus = none) := by
  obtain ⟨low, high, hlow, hhigh, hleast, hgreatest⟩ := sorted_ends hne
  have hperm := List.perm_insertionSort (· ≤ ·) (population groups modulus)
  rw [fits_iff hne hleast hgreatest]
  have hcond : ¬ (groups.filterMap GroupEntry.records = [] ∧ modulus - groups.length = 0) := by
    rintro ⟨hc, ha⟩
    exact hne (by rw [population, hc, ha]; rfl)
  have hlen : (groups.filterMap GroupEntry.records).length + (modulus - groups.length) =
      (population groups modulus).length := by
    rw [population, List.length_append, List.length_replicate]
  have hwithin : ∀ v ∈ (population groups modulus).insertionSort (· ≤ ·), low ≤ v ∧ v ≤ high :=
    fun v hv => ⟨hleast.2 (hperm.mem_iff.mp hv), hgreatest.2 (hperm.mem_iff.mp hv)⟩
  have hmiddle : ((population groups modulus).insertionSort (· ≤ ·)).length / 2 <
      ((population groups modulus).insertionSort (· ≤ ·)).length := by
    have hpos := List.length_pos_iff.mpr hne
    rw [List.length_insertionSort]
    omega
  have hsum := foldlM_checkedAdd ((population groups modulus).insertionSort (· ≤ ·)) 0 (by omega)
  rw [Nat.zero_add, hperm.sum_eq] at hsum
  rw [of]
  dsimp only
  rw [if_neg hcond, hlen, show groups.filterMap GroupEntry.records ++
    List.replicate (modulus - groups.length) 0 = population groups modulus from rfl, hsum, hlow,
    hhigh, List.getElem?_eq_getElem hmiddle, bucket_eq hlow hhigh hwithin]
  simp only [Option.bind_eq_bind, Option.bind_some]
  constructor
  · rintro ⟨hmax, htotal, hend⟩
    rw [if_neg (Nat.not_lt.mpr hmax), if_pos htotal, if_pos hend, Option.bind_some,
      Option.bind_some]
    refine ⟨_, rfl, columns_right hleast hgreatest (columnWidth_pos low high) ?_⟩
    refine List.map_congr_left fun i _ => ?_
    rw [hperm.countP_eq]
  · intro hnot
    by_cases hmax : (population groups modulus).length > MAX_COUNTS
    · rw [if_pos hmax]
    rw [if_neg hmax]
    by_cases htotal : (population groups modulus).sum < 2 ^ 64
    · have hend : ¬ columnsEnd low high < 2 ^ 64 := fun hc =>
        hnot ⟨Nat.not_lt.mp hmax, htotal, hc⟩
      rw [if_pos htotal, if_neg hend, Option.bind_some]
      rfl
    · rw [if_neg htotal]
      rfl

/-- A section of which nothing is known has no columns. -/
theorem of_nil {groups : List GroupEntry} {modulus : Nat} (h : population groups modulus = []) :
    ∃ d, of groups modulus = some d ∧ d.buckets = [] := by
  have hcond : groups.filterMap GroupEntry.records = [] ∧ modulus - groups.length = 0 := by
    rw [population, List.append_eq_nil_iff, List.replicate_eq_nil_iff] at h
    exact h
  rw [of]
  dsimp only
  rw [if_pos hcond]
  exact ⟨_, rfl, rfl⟩

/-- The figures come out, and are right, exactly when the counts fit a vector and their sum and
the end of the last column fit a `u64`. -/
theorem distribution_iff (groups : List GroupEntry) (modulus : Nat) :
    (∃ d, of groups modulus = some d ∧ Describes d (population groups modulus)) ↔
      Fits (population groups modulus) := by
  unfold Describes
  by_cases hne : population groups modulus = []
  · obtain ⟨d, hd, hbuckets⟩ := of_nil hne
    simp only [hne, if_true]
    exact ⟨fun _ => Or.inl rfl, fun _ => ⟨d, hd, hbuckets⟩⟩
  · simp only [hne, if_false]
    obtain ⟨hfits, hnot⟩ := of_spec hne
    refine ⟨?_, hfits⟩
    rintro ⟨d, hd, -⟩
    by_contra hc
    rw [hnot hc] at hd
    cases hd

/-- An empty group and a damaged trailer that claims every record there could be. -/
theorem damagedTrailer_panics :
    ¬ ∀ (groups : List GroupEntry) (modulus : Nat),
      (∀ g ∈ groups, ∀ n, g.records = some n → n < 2 ^ 64) → modulus < 2 ^ 64 →
        ∃ d, of groups modulus = some d ∧ Describes d (population groups modulus) := by
  intro h
  obtain ⟨d, hd, -⟩ := h [⟨28, some 0⟩, ⟨28, some (2 ^ 64 - 1)⟩] 2 (by simp) (by simp)
  have hnone : of [⟨28, some 0⟩, ⟨28, some (2 ^ 64 - 1)⟩] 2 = none := by decide +kernel
  rw [hnone] at hd
  cases hd

end GroupDistribution

end RustyPick
