import RustyPick.Http

/-!
# RustyPick.HttpText

What the texts of a request say, told without the code that reads them (`web/http.rs`).

* `headerOf_iff`: a header line is a name, a colon and a value, with whitespace around either.
* `requestOf_reads`: so a request has the method, the path and the query its target says.
-/

namespace RustyPick

open Lib

namespace Http

def Blank (cs : List Char) : Prop := ∀ c ∈ cs, isWhitespace c = true

/-! ## Whitespace around a text -/

structure Trimmed (text inner : List Char) : Prop where
  around : ∃ before after, text = before ++ (inner ++ after) ∧ Blank before ∧ Blank after
  head : ∀ c, inner.head? = some c → isWhitespace c = false
  last : ∀ c, inner.getLast? = some c → isWhitespace c = false

theorem dropWhile_blank {before : List Char} (h : Blank before) (rest : List Char) :
    (before ++ rest).dropWhile isWhitespace = rest.dropWhile isWhitespace :=
  List.dropWhile_append_of_pos h

theorem dropWhile_of_blank {cs : List Char} (h : Blank cs) : cs.dropWhile isWhitespace = [] :=
  List.dropWhile_eq_nil_iff.mpr h

theorem blank_takeWhile (cs : List Char) : Blank (cs.takeWhile isWhitespace) :=
  fun _ hc => List.mem_takeWhile_imp hc

theorem trimEnd_append {inner after : List Char} (h : Blank after)
    (hlast : ∀ c, inner.getLast? = some c → isWhitespace c = false) :
    trimEnd (inner ++ after) = inner := by
  have hafter : Blank after.reverse := fun c hc => h c (List.mem_reverse.mp hc)
  have hinner : inner.reverse.dropWhile isWhitespace = inner.reverse :=
    dropWhile_of_head fun c hc => hlast c (by rwa [List.head?_reverse] at hc)
  rw [trimEnd, List.reverse_append, dropWhile_blank hafter, hinner, List.reverse_reverse]

theorem trimEnd_around (cs : List Char) : ∃ after, cs = trimEnd cs ++ after ∧ Blank after := by
  refine ⟨(cs.reverse.takeWhile isWhitespace).reverse, ?_, fun c hc => ?_⟩
  · rw [trimEnd, ← List.reverse_append, List.takeWhile_append_dropWhile, List.reverse_reverse]
  · exact blank_takeWhile _ c (List.mem_reverse.mp hc)

theorem trim_iff {s t : String} : trim s = t ↔ Trimmed s.toList t.toList := by
  constructor
  · rintro rfl
    refine ⟨?_, fun c => trim_head, fun c => trim_last⟩
    obtain ⟨after, hafter, hblank⟩ := trimEnd_around (s.toList.dropWhile isWhitespace)
    refine ⟨s.toList.takeWhile isWhitespace, after, ?_, blank_takeWhile _, hblank⟩
    rw [trim, String.toList_ofList, ← hafter, List.takeWhile_append_dropWhile]
  · rintro ⟨⟨before, after, htext, hbefore, hafter⟩, hhead, hlast⟩
    have hinner : trimEnd ((t.toList ++ after).dropWhile isWhitespace) = t.toList := by
      cases ht : t.toList with
      | nil => rw [List.nil_append, dropWhile_of_blank hafter]; rfl
      | cons c rest =>
        have hc : isWhitespace c = false := hhead c (by rw [ht]; rfl)
        rw [List.cons_append, List.dropWhile_cons_of_neg (by rw [hc]; exact Bool.false_ne_true),
          ← List.cons_append, ← ht]
        exact trimEnd_append hafter hlast
    rw [trim, htext, dropWhile_blank hbefore, hinner, String.ofList_toList]

/-! ## Headers -/

/-- A header is a name in any case, a colon and a value. -/
def IsHeader (line name value : String) : Prop :=
  ∃ before after own, line.toList = before ++ ':' :: after ∧ ':' ∉ before ∧ Trimmed before own ∧
    name.toList = own.map Char.toLower ∧ Trimmed after value.toList

theorem splitOnce_iff {c : Char} {cs before after : List Char} :
    splitOnce c cs = some (before, after) ↔ cs = before ++ c :: after ∧ c ∉ before := by
  constructor
  · intro h
    unfold splitOnce at h
    split at h
    · cases h
    · rename_i d rest hdrop
      cases h
      have hd : decide (d ≠ c) = false := head_dropWhile (by rw [hdrop]; rfl)
      obtain rfl : d = c := not_not.mp (of_decide_eq_false hd)
      refine ⟨?_, fun hmem => ?_⟩
      · rw [← hdrop, List.takeWhile_append_dropWhile]
      · have hne := List.mem_takeWhile_imp (p := fun x => decide (x ≠ d)) hmem
        exact of_decide_eq_true hne rfl
  · rintro ⟨rfl, hnot⟩
    exact splitOnce_append after fun x hx hxc => hnot (hxc ▸ hx)

theorem splitOnce_none {c : Char} {cs : List Char} : splitOnce c cs = none ↔ c ∉ cs := by
  unfold splitOnce
  cases hdrop : cs.dropWhile (· ≠ c) with
  | nil =>
    refine iff_of_true rfl fun hmem => ?_
    exact of_decide_eq_true (List.dropWhile_eq_nil_iff.mp hdrop c hmem) rfl
  | cons d rest =>
    have hd : decide (d ≠ c) = false := head_dropWhile (by rw [hdrop]; rfl)
    obtain rfl : d = c := not_not.mp (of_decide_eq_false hd)
    refine iff_of_false (Option.some_ne_none _) fun hnot => hnot ?_
    exact (List.dropWhile_suffix _).subset (hdrop ▸ List.mem_cons_self)

theorem headerOf_iff {line name value : String} :
    headerOf line = some (name, value) ↔ IsHeader line name value := by
  unfold headerOf
  rw [Option.map_eq_some_iff]
  constructor
  · rintro ⟨⟨before, after⟩, hsplit, hparts⟩
    obtain ⟨hline, hnot⟩ := splitOnce_iff.mp hsplit
    obtain ⟨rfl, rfl⟩ := Prod.mk.inj hparts
    have hname := trim_iff.mp (rfl : trim (String.ofList before) = _)
    have hvalue := trim_iff.mp (rfl : trim (String.ofList after) = _)
    rw [String.toList_ofList] at hname hvalue
    exact ⟨before, after, _, hline, hnot, hname, by rw [asciiLowercase, String.toList_ofList], hvalue⟩
  · rintro ⟨before, after, own, hline, hnot, hown, hname, hvalue⟩
    refine ⟨(before, after), splitOnce_iff.mpr ⟨hline, hnot⟩, ?_⟩
    have hbefore : trim (String.ofList before) = String.ofList own :=
      trim_iff.mpr (by rwa [String.toList_ofList, String.toList_ofList])
    have hafter : trim (String.ofList after) = value :=
      trim_iff.mpr (by rwa [String.toList_ofList])
    rw [hbefore, hafter, asciiLowercase, String.toList_ofList, ← hname, String.ofList_toList]

/-! ## Words -/

def IsWord (w : List Char) : Prop := w ≠ [] ∧ ∀ c ∈ w, isWhitespace c = false

/-- A line that begins with these two words. -/
structure TwoWords (line method target : List Char) : Prop where
  word : IsWord method
  second : IsWord target
  spaced : ∃ before between after, line = before ++ (method ++ (between ++ (target ++ after))) ∧
    Blank before ∧ Blank between ∧ between ≠ [] ∧
    ∀ c, after.head? = some c → isWhitespace c = true

theorem words_blank_append {cs : List Char} (h : Blank cs) (rest : List Char) :
    words isWhitespace (cs ++ rest) = words isWhitespace rest := by
  induction cs with
  | nil => rfl
  | cons c cs ih =>
    rw [List.cons_append, words_cons_sep (h c List.mem_cons_self),
      ih fun d hd => h d (List.mem_cons_of_mem c hd)]

theorem TwoWords.splitWhitespace {line method target : List Char} (h : TwoWords line method target) :
    ∃ version, splitWhitespace (String.ofList line) =
      String.ofList method :: String.ofList target :: version := by
  obtain ⟨before, between, after, rfl, hbefore, hbetween, hne, hafter⟩ := h.spaced
  have hgap : ∀ c, (between ++ (target ++ after)).head? = some c → isWhitespace c = true := by
    cases between with
    | nil => exact absurd rfl hne
    | cons d rest =>
      intro c hc
      cases hc
      exact hbetween _ List.mem_cons_self
  refine ⟨(words isWhitespace after).map String.ofList, ?_⟩
  rw [RustyPick.splitWhitespace, String.toList_ofList, words_blank_append hbefore,
    words_append h.word.1 h.word.2 hgap, words_blank_append hbetween,
    words_append h.second.1 h.second.2 hafter, List.map_cons, List.map_cons]

/-! ## Escapes -/

/-- What a part of a target stands for: an escape is replaced by the byte it names, and so is a `%`
before a sign and a digit, which is taken for one (see `percentDecode_exact_iff`). -/
inductive Unescaped (plusIsSpace : Bool) : Bytes → Bytes → Prop where
  | nil : Unescaped plusIsSpace [] []
  | escape {h l : UInt8} {hi lo : Nat} {rest out : Bytes} : hexDigit? h = some hi →
      hexDigit? l = some lo → Unescaped plusIsSpace rest out →
      Unescaped plusIsSpace (37 :: h :: l :: rest) (UInt8.ofNat (hi * 16 + lo) :: out)
  | signed {l : UInt8} {lo : Nat} {rest out : Bytes} : hexDigit? l = some lo →
      Unescaped plusIsSpace rest out →
      Unescaped plusIsSpace (37 :: 43 :: l :: rest) (UInt8.ofNat lo :: out)
  | plain {b : UInt8} {rest out : Bytes} :
      (b = 37 → ∀ h l more, rest = h :: l :: more → h = 43 ∨ (hexDigit? h).isSome →
        hexDigit? l = none) →
      Unescaped plusIsSpace rest out →
      Unescaped plusIsSpace (b :: rest) ((if b = 43 ∧ plusIsSpace then 32 else b) :: out)

def StandsFor (plusIsSpace : Bool) (text : List Char) (value : String) : Prop :=
  ∃ out, Unescaped plusIsSpace (utf8 (String.ofList text)) out ∧ value = fromUtf8Lossy out

theorem percentLoop_unescaped (plusIsSpace : Bool) (b : Bytes) :
    Unescaped plusIsSpace b (percentLoop plusIsSpace b) := by
  fun_induction percentLoop plusIsSpace b with
  | case1 b b1 b2 rest byte hbyte ih =>
    by_cases hpercent : b = 37
    · subst hpercent
      rw [if_pos rfl] at hbyte
      by_cases hsign : b1 = 43
      · subst hsign
        obtain ⟨lo, hlo, rfl⟩ := hexByte_signed hbyte
        exact .signed hlo ih
      · obtain ⟨hi, lo, hhi, hlo, rfl⟩ := hexByte_some hbyte hsign
        exact .escape hhi hlo ih
    · rw [if_neg hpercent] at hbyte
      cases hbyte
  | case2 b b1 b2 rest hnone ih =>
    refine .plain ?_ ih
    rintro rfl h1 l more heq hh
    cases heq
    rw [if_pos rfl] at hnone
    by_contra hl
    obtain ⟨lo, hlo⟩ := Option.ne_none_iff_exists'.mp hl
    rcases hh with rfl | hh
    · rw [hexByte_eq, u8FromHex_signed, hlo] at hnone
      cases hnone
    · obtain ⟨hi, hhi⟩ := Option.isSome_iff_exists.mp hh
      rw [hexByte_digits hhi hlo] at hnone
      cases hnone
  | case3 b rest hshort ih =>
    refine .plain ?_ ih
    rintro - h1 l more rfl -
    exact absurd rfl (hshort h1 l more)
  | case4 => exact .nil

theorem standsFor_decode (plusIsSpace : Bool) (text : List Char) :
    StandsFor plusIsSpace text (percentDecode (String.ofList text) plusIsSpace) :=
  ⟨_, percentLoop_unescaped plusIsSpace _, rfl⟩

/-- A text stands for one value. -/
theorem Unescaped.unique {plusIsSpace : Bool} {b out out' : Bytes}
    (h : Unescaped plusIsSpace b out) (h' : Unescaped plusIsSpace b out') : out = out' := by
  induction h generalizing out' with
  | nil => cases h'; rfl
  | escape hhi hlo _ ih =>
    cases h' with
    | escape hhi' hlo' hrest =>
      rw [hhi] at hhi'
      rw [hlo] at hlo'
      cases hhi'
      cases hlo'
      rw [ih hrest]
    | signed => cases hhi
    | plain hnot _ =>
      have hnone := hnot rfl _ _ _ rfl (.inr (Option.isSome_iff_exists.mpr ⟨_, hhi⟩))
      rw [hlo] at hnone
      cases hnone
  | signed hlo _ ih =>
    cases h' with
    | escape hhi' => cases hhi'
    | signed hlo' hrest =>
      rw [hlo] at hlo'
      cases hlo'
      rw [ih hrest]
    | plain hnot _ =>
      have hnone := hnot rfl _ _ _ rfl (.inl rfl)
      rw [hlo] at hnone
      cases hnone
  | plain hnot _ ih =>
    cases h' with
    | escape hhi hlo _ =>
      have hnone := hnot rfl _ _ _ rfl (.inr (Option.isSome_iff_exists.mpr ⟨_, hhi⟩))
      rw [hlo] at hnone
      cases hnone
    | signed hlo _ =>
      have hnone := hnot rfl _ _ _ rfl (.inl rfl)
      rw [hlo] at hnone
      cases hnone
    | plain _ hrest => rw [ih hrest]

theorem standsFor_iff {plusIsSpace : Bool} {text : List Char} {value : String} :
    StandsFor plusIsSpace text value ↔ value = percentDecode (String.ofList text) plusIsSpace := by
  constructor
  · rintro ⟨out, hout, rfl⟩
    rw [percentDecode, hout.unique (percentLoop_unescaped plusIsSpace _)]
  · rintro rfl
    exact standsFor_decode plusIsSpace text

/-! ## The target -/

/-- The path goes up to the first question mark, and the query starts after it. -/
structure TargetParts (target path query : List Char) : Prop where
  first : '?' ∉ path
  parts : (target = path ∧ query = []) ∨ target = path ++ '?' :: query

/-- A name and what it is to be, both escaped; without an equals sign, the name of nothing. -/
def IsPair (pair : List Char) (name value : String) : Prop :=
  (∃ key text, pair = key ++ '=' :: text ∧ '=' ∉ key ∧ StandsFor true key name ∧
    StandsFor true text value) ∨
  ('=' ∉ pair ∧ StandsFor true pair name ∧ value = "")

/-- Of the pairs that give a name, the last counts. -/
def QuerySays (query : List Char) (name value : String) : Prop :=
  ∃ pairs before pair after, query = List.intercalate ['&'] pairs ∧ (∀ p ∈ pairs, '&' ∉ p) ∧
    pairs = before ++ pair :: after ∧ pair ≠ [] ∧ IsPair pair name value ∧
    ∀ p ∈ after, p ≠ [] → ∀ other, ¬ IsPair p name other

theorem parsePair_iff {pair : List Char} {name value : String} :
    parsePair pair = (name, value) ↔ IsPair pair name value := by
  unfold parsePair IsPair
  simp only [standsFor_iff]
  cases hsplit : splitOnce '=' pair with
  | none =>
    have hnot := splitOnce_none.mp hsplit
    constructor
    · intro h
      obtain ⟨rfl, rfl⟩ := Prod.mk.inj h
      exact .inr ⟨hnot, rfl, rfl⟩
    · rintro (⟨key, text, rfl, -⟩ | ⟨-, rfl, rfl⟩)
      · exact absurd (List.mem_append_right key List.mem_cons_self) hnot
      · rfl
  | some parts =>
    obtain ⟨key, text⟩ := parts
    obtain ⟨rfl, hkey⟩ := splitOnce_iff.mp hsplit
    constructor
    · intro h
      obtain ⟨rfl, rfl⟩ := Prod.mk.inj h
      exact .inl ⟨key, text, rfl, hkey, rfl, rfl⟩
    · rintro (⟨key', text', heq, hkey', rfl, rfl⟩ | ⟨hnot, -⟩)
      · have hsame := splitOnce_iff.mpr ⟨heq, hkey'⟩
        rw [hsplit] at hsame
        cases hsame
        rfl
      · exact absurd (List.mem_append_right key List.mem_cons_self) hnot

def addPair (found : Map String String) (pair : List Char) : Map String String :=
  if pair ≠ [] then found.insert (parsePair pair).1 (parsePair pair).2 else found

/-- The last of the pairs, where one of them gives the name, and what there was otherwise. -/
theorem foldl_addPair {name value : String} : ∀ {pairs : List (List Char)}
    {found : Map String String}, (pairs.foldl addPair found)[name]? = some value ↔
      (∃ before pair after, pairs = before ++ pair :: after ∧ pair ≠ [] ∧
        IsPair pair name value ∧ ∀ p ∈ after, p ≠ [] → ∀ other, ¬ IsPair p name other) ∨
      (found[name]? = some value ∧ ∀ p ∈ pairs, p ≠ [] → ∀ other, ¬ IsPair p name other) := by
  intro pairs
  induction pairs with
  | nil => simp
  | cons first pairs ih =>
    intro found
    rw [List.foldl_cons, ih]
    constructor
    · rintro (⟨before, pair, after, rfl, hlast⟩ | ⟨hfound, hnone⟩)
      · exact .inl ⟨first :: before, pair, after, rfl, hlast⟩
      · unfold addPair at hfound
        split at hfound
        next hne =>
          rw [getElem?_insert_eq] at hfound
          split at hfound
          next hname =>
            have hpair : IsPair first name value :=
              parsePair_iff.mp (Prod.ext hname (Option.some.inj hfound))
            exact .inl ⟨[], first, pairs, rfl, hne, hpair, hnone⟩
          next hname =>
            refine .inr ⟨hfound, List.forall_mem_cons.mpr ⟨fun _ other hpair => ?_, hnone⟩⟩
            exact hname (congrArg Prod.fst (parsePair_iff.mpr hpair))
        next hempty =>
          exact .inr ⟨hfound, List.forall_mem_cons.mpr ⟨fun hne => absurd hne hempty, hnone⟩⟩
    · rintro (⟨before, pair, after, heq, hne, hpair, hnone⟩ | ⟨hfound, hnone⟩)
      · cases before with
        | nil =>
          cases heq
          refine .inr ⟨?_, hnone⟩
          have hparse := parsePair_iff.mpr hpair
          rw [addPair, if_pos hne, getElem?_insert_eq, hparse, if_pos rfl]
        | cons other before =>
          cases heq
          exact .inl ⟨before, pair, after, rfl, hne, hpair, hnone⟩
      · obtain ⟨hfirst, hrest⟩ := List.forall_mem_cons.mp hnone
        refine .inr ⟨?_, hrest⟩
        unfold addPair
        split
        next hne =>
          rw [getElem?_insert_ne, hfound]
          intro hname
          exact hfirst hne _ (parsePair_iff.mp (Prod.ext hname rfl))
        next => exact hfound

theorem not_mem_splitOn {c : Char} {cs w : List Char} (h : w ∈ cs.splitOn c) : c ∉ w := by
  intro hc
  have hne := of_mem_splitOnP (p := fun d => d == c) h c hc
  rw [beq_self_eq_true] at hne
  cases hne

theorem parseQuery_iff {query : List Char} {name value : String} :
    (parseQuery query)[name]? = some value ↔ QuerySays query name value := by
  have hfold : parseQuery query = (query.splitOn '&').foldl addPair ∅ := by
    rw [parseQuery, List.foldl_filter]
    simp only [decide_eq_true_eq]
    rfl
  rw [hfold, foldl_addPair]
  constructor
  · rintro (⟨before, pair, after, hpairs, hlast⟩ | ⟨hfound, -⟩)
    · exact ⟨_, before, pair, after, (List.intercalate_splitOn '&').symm,
        fun p hp => not_mem_splitOn hp, hpairs, hlast⟩
    · rw [Std.ExtTreeMap.getElem?_empty] at hfound
      cases hfound
  · rintro ⟨pairs, before, pair, after, hquery, hplain, hpairs, hlast⟩
    have hne : pairs ≠ [] := by
      rw [hpairs]
      exact List.append_ne_nil_of_right_ne_nil _ (List.cons_ne_nil _ _)
    rw [hquery, List.splitOn_intercalate '&' hplain hne]
    exact .inl ⟨before, pair, after, hpairs, hlast⟩

/-- The method in upper case, the path and the query unescaped. -/
structure Reads (method target : List Char) (request : Request) : Prop where
  method : request.method.toList = method.map Char.toUpper
  target : ∃ path query, TargetParts target path query ∧ StandsFor false path request.path ∧
    ∀ name value, request.query[name]? = some value ↔ QuerySays query name value

theorem requestOf_reads (method target : List Char) (version : String)
    (headers : Map String String) (body : Bytes) :
    Reads method target (requestOf (String.ofList method) (String.ofList target) version headers
      body) := by
  unfold requestOf
  rw [String.toList_ofList]
  refine ⟨by rw [asciiUppercase, String.toList_ofList, String.toList_ofList], ?_⟩
  cases hsplit : splitOnce '?' target with
  | none =>
    have hparts : TargetParts target target [] := ⟨splitOnce_none.mp hsplit, .inl ⟨rfl, rfl⟩⟩
    exact ⟨_, _, hparts, standsFor_decode false _, fun _ _ => parseQuery_iff⟩
  | some parts =>
    obtain ⟨htarget, hnot⟩ := splitOnce_iff.mp hsplit
    exact ⟨_, _, ⟨hnot, .inr htarget⟩, standsFor_decode false _, fun _ _ => parseQuery_iff⟩

end Http

end RustyPick
