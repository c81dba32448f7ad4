import Mathlib.Data.List.TakeWhile
import RustyPick.Lib.Words
import RustyPick.FileAttributes
import RustyPick.Protocol
import RustyPick.Selecting

/-!
# RustyPick.QueryString

A query string and the clause it is taken for (`resolve_clause` in `server/handler.rs` and the two
parsers of `db/query.rs`).

The string is cut at white space. One parser takes the ordering and the exploded fields out of the
tokens, the other reads criteria from the front of what is left and says how far it got.

* `Accounts`: what it is for a clause to account for every token of a string.
* `understood_iff`: that the clause does, exactly where no quoted text has white space in it and the
  criteria take up all that is left to them, or where there is no clause because too little is left.
* `quoted_and_leftover_dropped`: where it does not.
-/

namespace RustyPick

open Lib

/-! ## Tokens -/

/-- `split_whitespace`. -/
def splitWhitespace (s : String) : List String := (words isWhitespace s.toList).map String.ofList

/-- `str::to_uppercase`, as far as a word of a clause can tell: `ſ` and `ı` are the letters beyond
ASCII whose upper case is one of ASCII. -/
def upperClauseLetter (c : Char) : Char := if c = 'ı' then 'I' else upperLetter c

def upperToken (s : String) : String := String.ofList (s.toList.map upperClauseLetter)

/-- `unquote`: one layer of double quotes off, and then what is blank at the ends. -/
def unquote (raw : String) : String :=
  if 2 ≤ (utf8 raw).length ∧ startsWith '"' raw ∧ endsWith '"' raw then
    trim (String.ofList (raw.toList.drop 1).dropLast)
  else trim raw

/-! ## The parsers -/

def isComparisonOp (token : String) : Bool :=
  upperToken token ∈
    ["=", "EQ", "!=", "#", "<>", "NE", "<", "LT", ">", "GT", "<=", "LE", ">=", "GE"]

def conditionOf (fieldName op value : String) : QueryCondition :=
  { fieldName := fieldName, op := op, value := unquote value }

/-- `AND` and `OR`. -/
def logicalOp (token : String) : Option LogicalOp :=
  if upperToken token = "AND" then some .and
  else if upperToken token = "OR" then some .or
  else none

/-- The criteria after the first, and how many tokens have been taken with them. -/
def parseMore (node : QueryNode) (taken : Nat) : List String → QueryNode × Nat
  | word :: fieldName :: op :: value :: rest =>
    match logicalOp word with
    | none => (node, taken)
    | some logical =>
      parseMore (.logical logical node (.condition (conditionOf fieldName op value))) (taken + 4) rest
  | _ => (node, taken)

def isWith (token : String) : Bool := upperToken token = "WITH"

/-- `parse_query_consuming`: the criteria and the number of tokens they take. -/
def parseQueryConsuming (parts : List String) : Option QueryNode × Nat :=
  let skip := if (parts.head?.map isWith).getD false then 1 else 0
  match parts.drop skip with
  | fieldName :: op :: value :: rest =>
    let (node, taken) := parseMore (.condition (conditionOf fieldName op value)) (skip + 3) rest
    (some node, taken)
  | _ => (none, 0)

def parseQueryReadOnly (parts : List String) : Option QueryNode := (parseQueryConsuming parts).1

/-- `and_condition`. -/
def andCondition (node : Option QueryNode) (condition : Option QueryCondition) : Option QueryNode :=
  match condition with
  | none => node
  | some condition =>
    match node with
    | none => some (.condition condition)
    | some existing => some (.logical .and existing (.condition condition))

/-- What an ordering word says of the direction. -/
def sortOperator (token : String) : Option Bool :=
  if upperToken token = "BY" then some false
  else if upperToken token = "BY.DSND" then some true
  else none

def isExplodeOperator (token : String) : Bool := upperToken token = "BY.EXP"

/-- `parse_clause_specs`: the tokens left over, the ordering, and the exploded fields. -/
def parseClauseSpecs : List String → List String × List SortSpec × List ExplodeSpec
  | [] => ([], [], [])
  | [last] => ([last], [], [])
  | word :: fieldName :: rest =>
    match sortOperator word with
    | some descending =>
      let (remaining, specs, explodes) := parseClauseSpecs rest
      (remaining, { fieldName := fieldName, descending := descending } :: specs, explodes)
    | none =>
      if isExplodeOperator word then
        match rest with
        | op :: value :: more =>
          if isComparisonOp op then
            let (remaining, specs, explodes) := parseClauseSpecs more
            (remaining, specs,
              { fieldName := fieldName, condition := some (conditionOf fieldName op value) } ::
                explodes)
          else
            let (remaining, specs, explodes) := parseClauseSpecs (op :: value :: more)
            (remaining, specs, { fieldName := fieldName } :: explodes)
        | rest =>
          let (remaining, specs, explodes) := parseClauseSpecs rest
          (remaining, specs, { fieldName := fieldName } :: explodes)
      else
        let (remaining, specs, explodes) := parseClauseSpecs (fieldName :: rest)
        (word :: remaining, specs, explodes)

/-! ## The request -/

/-- The fields of a request that select. -/
structure ClauseRequest where
  queryString : Option String := none
  queryNode : Option QueryNode := none
  sortSpecs : Option (List SortSpec) := none
  explode : Option (List String) := none

/-- The criteria with those of the exploded fields. -/
def withExplodes (node : Option QueryNode) (explodes : List ExplodeSpec) : Option QueryNode :=
  explodes.foldl (fun node spec => andCondition node spec.condition) node

/-- `resolve_clause`. -/
def resolveClause {J : Type} (req : ClauseRequest) : Except (Response J) Clause :=
  let sortSpecs := req.sortSpecs.getD []
  let explode := (req.explode.getD []).map fun fieldName => { fieldName := fieldName }
  match req.queryNode, req.queryString with
  | none, some text =>
    let (clauseParts, parsedSorts, parsedExplodes) := parseClauseSpecs (splitWhitespace text)
    let sortSpecs := if sortSpecs = [] then parsedSorts else sortSpecs
    let query := parseQueryReadOnly clauseParts
    if query = none ∧ clauseParts ≠ [] then
      .error (refusal .invalidQuery
        ("Query is not understood: " ++ " ".intercalate clauseParts))
    else if explode = [] then
      .ok
        { query := withExplodes query parsedExplodes
          sortSpecs := sortSpecs
          explode := parsedExplodes }
    else .ok { query := query, sortSpecs := sortSpecs, explode := explode }
  | query, _ => .ok { query := query, sortSpecs := sortSpecs, explode := explode }

/-! ## What is to hold -/

/-- The text after an opening quote, up to a closing quote that ends a token, and what follows. -/
def closeQuote : List Char → Option (List Char × List Char)
  | [] => none
  | c :: cs =>
    if c = '"' ∧ cs.head?.all isWhitespace then some ([c], cs)
    else (closeQuote cs).map fun (text, rest) => (c :: text, rest)

/-- A quoted text at the front, with its quotes, and what follows. -/
def quotedFront : List Char → Option (List Char × List Char)
  | [] => none
  | c :: cs => if c = '"' then (closeQuote cs).map fun (text, rest) => (c :: text, rest) else none

/-- The tokens of a string where a quoted text is one, in `fuel` steps at most. -/
def quoteTokensFrom : Nat → List Char → List (List Char)
  | 0, _ => []
  | _, [] => []
  | fuel + 1, c :: cs =>
    if isWhitespace c then quoteTokensFrom fuel cs
    else
      match quotedFront (c :: cs) with
      | some (token, rest) => token :: quoteTokensFrom fuel rest
      | none =>
        (c :: cs).takeWhile (fun d => !isWhitespace d) ::
          quoteTokensFrom fuel ((c :: cs).dropWhile fun d => !isWhitespace d)

/-- The tokens that white space or quotes delimit. -/
def quoteTokens (s : String) : List String :=
  (quoteTokensFrom s.toList.length s.toList).map String.ofList

/-- What a token says as a value: the text between its quotes, or itself. -/
def valueOf (token : String) : String :=
  if 2 ≤ (utf8 token).length ∧ startsWith '"' token ∧ endsWith '"' token then
    String.ofList (token.toList.drop 1).dropLast
  else token

/-- Tokens that take part in ordering and exploding, and the rest in their order. -/
inductive Split : List String → List String → List SortSpec → List ExplodeSpec → Prop
  | nil : Split [] [] [] []
  | keep {parts remaining specs explodes} (token : String) :
      Split parts remaining specs explodes → Split (token :: parts) (token :: remaining) specs explodes
  | sort {parts remaining specs explodes} {word : String} {descending : Bool} (fieldName : String) :
      sortOperator word = some descending → Split parts remaining specs explodes →
      Split (word :: fieldName :: parts) remaining
        ({ fieldName := fieldName, descending := descending } :: specs) explodes
  | explode {parts remaining specs explodes} {word : String} (fieldName : String) :
      isExplodeOperator word = true → Split parts remaining specs explodes →
      Split (word :: fieldName :: parts) remaining specs ({ fieldName := fieldName } :: explodes)
  | explodeWhere {parts remaining specs explodes} {word : String} (fieldName op value : String) :
      isExplodeOperator word = true → Split parts remaining specs explodes →
      Split (word :: fieldName :: op :: value :: parts) remaining specs
        ({ fieldName := fieldName,
           condition := some { fieldName := fieldName, op := op, value := valueOf value } } ::
          explodes)

/-- Tokens that spell criteria. -/
inductive Spells : List String → QueryNode → Prop
  | condition (fieldName op value : String) :
      Spells [fieldName, op, value]
        (.condition { fieldName := fieldName, op := op, value := valueOf value })
  | logical {tokens : List String} {node : QueryNode} {word : String} {logical : LogicalOp}
      (fieldName op value : String) : Spells tokens node → logicalOp word = some logical →
      Spells (tokens ++ [word, fieldName, op, value])
        (.logical logical node
          (.condition { fieldName := fieldName, op := op, value := valueOf value }))

/-- Tokens that spell the criteria of a clause: none, or some after a `WITH` that may be left out. -/
inductive Criteria : List String → Option QueryNode → Prop
  | none : Criteria [] none
  | bare {tokens : List String} {node : QueryNode} : Spells tokens node → Criteria tokens (some node)
  | after {tokens : List String} {node : QueryNode} {word : String} :
      isWith word = true → Spells tokens node → Criteria (word :: tokens) (some node)

/-- Every token is a part of what the clause says: of its ordering, of an exploded field, or of its
criteria, where a quoted text is the value it quotes. -/
def Accounts (tokens : List String) (clause : Clause) : Prop :=
  ∃ remaining node, Split tokens remaining clause.sortSpecs clause.explode ∧
    Criteria remaining node ∧ clause.query = withExplodes node clause.explode

/-- Without white space. -/
def Unspaced (token : String) : Prop := ∀ c ∈ token.toList, isWhitespace c = false

instance (token : String) : Decidable (Unspaced token) :=
  List.decidableBAll (fun c => isWhitespace c = false) token.toList

/-- Groups of a logical word and a condition, to the end. -/
def wholeGroups : List String → Bool
  | [] => true
  | word :: _ :: _ :: _ :: rest => (logicalOp word).isSome && wholeGroups rest
  | _ => false

/-- The criteria after a `WITH`. -/
def afterWith (parts : List String) : List String :=
  if (parts.head?.map isWith).getD false then parts.drop 1 else parts

/-- The tokens that no ordering and no exploded field takes up. -/
def leftOver : List String → List String
  | [] => []
  | [last] => [last]
  | word :: fieldName :: rest =>
    if (sortOperator word).isSome then leftOver rest
    else if isExplodeOperator word then
      match rest with
      | op :: value :: more =>
        if isComparisonOp op then leftOver more else leftOver (op :: value :: more)
      | rest => leftOver rest
    else word :: leftOver (fieldName :: rest)

/-- When a query string is understood whole or refused: what ordering and exploding leave over is too
little for a condition, or no quoted text has white space and what is left over is a condition and
whole groups after it, or nothing. -/
def Understandable (s : String) : Prop :=
  (leftOver (splitWhitespace s) ≠ [] ∧ (afterWith (leftOver (splitWhitespace s))).length < 3) ∨
    ((∀ token ∈ quoteTokens s, Unspaced token) ∧
      (leftOver (splitWhitespace s) = [] ∨
        wholeGroups ((afterWith (leftOver (splitWhitespace s))).drop 3) = true))

instance (s : String) : Decidable (Understandable s) :=
  inferInstanceAs (Decidable (_ ∨ _))

/-! ## White space -/

theorem upperClauseLetter_of_whitespace {c : Char} (h : isWhitespace c = true) :
    upperClauseLetter c = c := by
  have hnot : ¬ (97 ≤ c.val ∧ c.val ≤ 122) := by
    rw [UInt32.le_iff_toNat_le, UInt32.le_iff_toNat_le]
    change ¬ (97 ≤ c.toNat ∧ c.toNat ≤ 122)
    simp only [isWhitespace, decide_eq_true_eq] at h
    omega
  have hupper : c.toUpper = c := dif_neg hnot
  unfold upperClauseLetter upperLetter
  split
  · rename_i hc
    rw [hc] at h
    exact absurd h (by decide)
  · split
    · rename_i hc
      rw [hc] at h
      exact absurd h (by decide)
    · exact hupper

/-- A token that reads as a word of the clause has no white space. -/
theorem unspaced_of_upperToken {token word : String} (h : upperToken token = word)
    (hword : Unspaced word) : Unspaced token := by
  intro c hc
  by_contra hspace
  rw [Bool.not_eq_false] at hspace
  have hin : c ∈ word.toList := by
    rw [← h, upperToken, String.toList_ofList]
    exact List.mem_map.mpr ⟨c, hc, upperClauseLetter_of_whitespace hspace⟩
  rw [hword c hin] at hspace
  cases hspace

theorem unspaced_of_sortOperator {token : String} {descending : Bool}
    (h : sortOperator token = some descending) : Unspaced token := by
  unfold sortOperator at h
  split at h
  · exact unspaced_of_upperToken ‹_› (by decide)
  · split at h
    · exact unspaced_of_upperToken ‹_› (by decide)
    · cases h

theorem unspaced_of_explode {token : String} (h : isExplodeOperator token = true) :
    Unspaced token := unspaced_of_upperToken (of_decide_eq_true h) (by decide)

theorem unspaced_of_with {token : String} (h : isWith token = true) : Unspaced token :=
  unspaced_of_upperToken (of_decide_eq_true h) (by decide)

theorem unspaced_of_logicalOp {token : String} {op : LogicalOp} (h : logicalOp token = some op) :
    Unspaced token := by
  unfold logicalOp at h
  split at h
  · exact unspaced_of_upperToken ‹_› (by decide)
  · split at h
    · exact unspaced_of_upperToken ‹_› (by decide)
    · cases h

theorem unspaced_splitWhitespace {s token : String} (h : token ∈ splitWhitespace s) :
    Unspaced token := by
  obtain ⟨w, hw, rfl⟩ := List.mem_map.mp h
  intro c hc
  rw [String.toList_ofList] at hc
  exact of_mem_words hw c hc

theorem trim_of_unspaced {cs : List Char} (h : ∀ c ∈ cs, isWhitespace c = false) :
    trim (String.ofList cs) = String.ofList cs :=
  trim_of_ends (fun c hc => h c (List.mem_of_mem_head? hc))
    fun c hc => h c (List.mem_of_mem_getLast? hc)

/-- On a token without white space `unquote` takes the quotes off and does nothing else. -/
theorem unquote_eq_valueOf {token : String} (h : Unspaced token) : unquote token = valueOf token := by
  unfold unquote valueOf
  split
  · exact trim_of_unspaced fun c hc => h c (List.mem_of_mem_drop (List.mem_of_mem_dropLast hc))
  · have htrim := trim_of_unspaced h
    rwa [String.ofList_toList] at htrim

/-- A token has white space exactly where what it says as a value has. -/
theorem unspaced_valueOf {token : String} : Unspaced (valueOf token) ↔ Unspaced token := by
  unfold valueOf
  split
  · rename_i hquoted
    constructor
    · intro h c hc
      obtain ⟨-, hstart, hend⟩ := hquoted
      obtain ⟨rest, hrest⟩ : ∃ rest, token.toList = '"' :: rest :=
        List.head?_eq_some_iff.mp (of_decide_eq_true hstart)
      have hlast : token.toList.getLast? = some '"' := of_decide_eq_true hend
      rw [hrest] at hc hlast
      rcases List.mem_cons.mp hc with rfl | hc
      · decide
      · by_cases hne : rest = []
        · rw [hne] at hc
          cases hc
        · rw [List.getLast?_cons_of_ne_nil hne, List.getLast?_eq_some_getLast hne] at hlast
          rw [← List.dropLast_append_getLast hne, Option.some.inj hlast] at hc
          rcases List.mem_append.mp hc with hc | hc
          · refine h c ?_
            rw [String.toList_ofList, hrest]
            exact hc
          · rw [List.mem_singleton.mp hc]
            decide
    · intro h c hc
      rw [String.toList_ofList] at hc
      exact h c (List.mem_of_mem_drop (List.mem_of_mem_dropLast hc))
  · exact Iff.rfl

/-! ### Quoted texts -/

theorem closeQuote_spec {cs text rest : List Char} (h : closeQuote cs = some (text, rest)) :
    cs = text ++ rest ∧ ∀ c, rest.head? = some c → isWhitespace c = true := by
  induction cs generalizing text with
  | nil => cases h
  | cons c cs ih =>
    unfold closeQuote at h
    split at h
    · rename_i hclose
      cases h
      refine ⟨rfl, fun d hd => ?_⟩
      have hall := hclose.2
      rw [hd] at hall
      exact hall
    · obtain ⟨⟨inner, left⟩, hinner, heq⟩ := Option.map_eq_some_iff.mp h
      cases heq
      obtain ⟨rfl, hhead⟩ := ih hinner
      exact ⟨rfl, hhead⟩

theorem quotedFront_spec {cs text rest : List Char} (h : quotedFront cs = some (text, rest)) :
    cs = text ++ rest ∧ text ≠ [] ∧ ∀ c, rest.head? = some c → isWhitespace c = true := by
  cases cs with
  | nil => cases h
  | cons c cs =>
    simp only [quotedFront] at h
    split at h
    · obtain ⟨⟨inner, left⟩, hinner, heq⟩ := Option.map_eq_some_iff.mp h
      cases heq
      obtain ⟨rfl, hhead⟩ := closeQuote_spec hinner
      exact ⟨rfl, List.cons_ne_nil _ _, hhead⟩
    · cases h

theorem quoteTokensFrom_eq {fuel : Nat} {cs : List Char} (hfuel : cs.length ≤ fuel)
    (h : ∀ token ∈ quoteTokensFrom fuel cs, ∀ c ∈ token, isWhitespace c = false) :
    quoteTokensFrom fuel cs = words isWhitespace cs := by
  induction fuel generalizing cs with
  | zero =>
    rw [List.length_eq_zero_iff.mp (Nat.le_zero.mp hfuel)]
    rfl
  | succ fuel ih =>
    cases cs with
    | nil => rfl
    | cons c cs =>
      rw [List.length_cons] at hfuel
      unfold quoteTokensFrom at h ⊢
      split
      · rename_i hspace
        rw [if_pos hspace] at h
        rw [words_cons_sep hspace]
        exact ih (Nat.le_of_succ_le_succ hfuel) h
      · rename_i hspace
        rw [if_neg hspace] at h
        cases hquoted : quotedFront (c :: cs) with
        | some found =>
          obtain ⟨text, rest⟩ := found
          obtain ⟨heq, hne, hhead⟩ := quotedFront_spec hquoted
          rw [hquoted] at h
          dsimp only at h ⊢
          have hlen := congrArg List.length heq
          rw [List.length_cons, List.length_append] at hlen
          have hpos := List.length_pos_iff.mpr hne
          rw [ih (by omega) fun token ht => h token (List.mem_cons_of_mem _ ht), heq,
            words_append hne (h text List.mem_cons_self) hhead]
        | none =>
          rw [hquoted] at h
          dsimp only at h ⊢
          have hne : (c :: cs).takeWhile (fun d => !isWhitespace d) ≠ [] := by
            rw [List.takeWhile_cons_of_pos (by simpa using hspace)]
            exact List.cons_ne_nil _ _
          have hword : ∀ d ∈ (c :: cs).takeWhile (fun d => !isWhitespace d),
              isWhitespace d = false := fun d hd => by
            simpa using List.mem_takeWhile_imp hd
          have hhead : ∀ d, ((c :: cs).dropWhile fun d => !isWhitespace d).head? = some d →
              isWhitespace d = true := fun d hd => by
            simpa using head_dropWhile hd
          have hlen := congrArg List.length
            (List.takeWhile_append_dropWhile (p := fun d => !isWhitespace d) (l := c :: cs))
          rw [List.length_append, List.length_cons] at hlen
          have hpos := List.length_pos_iff.mpr hne
          have hwords := words_append hne hword hhead
          rw [List.takeWhile_append_dropWhile] at hwords
          rw [ih (by omega) fun token ht => h token (List.mem_cons_of_mem _ ht), hwords]

/-- Where no quoted text has white space the tokens are the ones the code takes. -/
theorem quoteTokens_eq {s : String} (h : ∀ token ∈ quoteTokens s, Unspaced token) :
    quoteTokens s = splitWhitespace s := by
  unfold quoteTokens splitWhitespace
  rw [quoteTokensFrom_eq (le_refl _)]
  intro token htoken c hc
  refine h (String.ofList token) (List.mem_map.mpr ⟨token, htoken, rfl⟩) c ?_
  rwa [String.toList_ofList]

/-! ## Ordering and exploding -/

section

variable {word fieldName op value : String} {rest : List String}

theorem parseClauseSpecs_sort {descending : Bool} (h : sortOperator word = some descending) :
    parseClauseSpecs (word :: fieldName :: rest) =
      ((parseClauseSpecs rest).1,
        { fieldName := fieldName, descending := descending } :: (parseClauseSpecs rest).2.1,
        (parseClauseSpecs rest).2.2) := by
  rw [parseClauseSpecs.eq_def]
  simp [h]

theorem parseClauseSpecs_explodeWhere (hsort : sortOperator word = none)
    (h : isExplodeOperator word = true) (hop : isComparisonOp op = true) :
    parseClauseSpecs (word :: fieldName :: op :: value :: rest) =
      ((parseClauseSpecs rest).1, (parseClauseSpecs rest).2.1,
        { fieldName := fieldName, condition := some (conditionOf fieldName op value) } ::
          (parseClauseSpecs rest).2.2) := by
  simp [parseClauseSpecs, hsort, h, hop]

theorem parseClauseSpecs_explode (hsort : sortOperator word = none)
    (h : isExplodeOperator word = true)
    (hop : ∀ op value more, rest = op :: value :: more → isComparisonOp op = false) :
    parseClauseSpecs (word :: fieldName :: rest) =
      ((parseClauseSpecs rest).1, (parseClauseSpecs rest).2.1,
        { fieldName := fieldName } :: (parseClauseSpecs rest).2.2) := by
  match rest, hop with
  | [], _ => simp [parseClauseSpecs, hsort, h]
  | [last], _ => simp [parseClauseSpecs, hsort, h]
  | op :: value :: more, hop => simp [parseClauseSpecs, hsort, h, hop op value more rfl]

theorem parseClauseSpecs_keep (hsort : sortOperator word = none)
    (h : isExplodeOperator word = false) :
    parseClauseSpecs (word :: fieldName :: rest) =
      (word :: (parseClauseSpecs (fieldName :: rest)).1,
        (parseClauseSpecs (fieldName :: rest)).2) := by
  rw [parseClauseSpecs.eq_def]
  simp [hsort, h]

end

theorem parseClauseSpecs_fst (parts : List String) : (parseClauseSpecs parts).1 = leftOver parts := by
  fun_induction leftOver parts with
  | case1 => rfl
  | case2 last => rfl
  | case3 word fieldName rest hsort ih =>
    obtain ⟨descending, hdescending⟩ := Option.isSome_iff_exists.mp hsort
    rw [parseClauseSpecs_sort hdescending, ih]
  | case4 word fieldName hsort hexplode op value more hop ih =>
    rw [parseClauseSpecs_explodeWhere (Option.not_isSome_iff_eq_none.mp hsort) hexplode hop, ih]
  | case5 word fieldName hsort hexplode op value more hop ih =>
    rw [parseClauseSpecs_explode (Option.not_isSome_iff_eq_none.mp hsort) hexplode, ih]
    rintro _ _ _ ⟨⟩
    exact Bool.eq_false_iff.mpr hop
  | case6 word fieldName =>
    rename_i hrest ih
    have hsort : ¬(sortOperator word).isSome := by assumption
    have hexplode : isExplodeOperator word = true := by assumption
    rw [parseClauseSpecs_explode (Option.not_isSome_iff_eq_none.mp hsort) hexplode, ih]
    exact fun op value more heq => (hrest op value more heq).elim
  | case7 word fieldName rest hsort hexplode ih =>
    rw [parseClauseSpecs_keep (Option.not_isSome_iff_eq_none.mp hsort)
      (Bool.eq_false_iff.mpr hexplode), ih]

theorem conditionOf_eq {fieldName op value : String} (h : Unspaced value) :
    conditionOf fieldName op value =
      { fieldName := fieldName, op := op, value := valueOf value } := by
  rw [conditionOf, unquote_eq_valueOf h]

/-- What the code takes out of tokens without white space accounts for them. -/
theorem split_parseClauseSpecs {parts : List String} (h : ∀ token ∈ parts, Unspaced token) :
    Split parts (parseClauseSpecs parts).1 (parseClauseSpecs parts).2.1
      (parseClauseSpecs parts).2.2 := by
  fun_induction parseClauseSpecs parts with
  | case1 => exact .nil
  | case2 last => exact .keep last .nil
  | case3 word fieldName rest descending hsort remaining specs explodes heq ih =>
    rw [heq] at ih
    exact .sort fieldName hsort (ih fun token ht => h token (by simp [ht]))
  | case4 word fieldName hsort hexplode op value more hop remaining specs explodes heq ih =>
    rw [heq] at ih
    rw [conditionOf_eq (h value (by simp))]
    exact .explodeWhere fieldName op value hexplode (ih fun token ht => h token (by simp [ht]))
  | case5 word fieldName hsort hexplode op value more hop remaining specs explodes heq ih =>
    rw [heq] at ih
    exact .explode fieldName hexplode (ih fun token ht => h token (by simp_all))
  | case6 word fieldName =>
    rename_i heq ih
    have hexplode : isExplodeOperator word = true := by assumption
    rw [heq] at ih
    exact .explode fieldName hexplode (ih fun token ht => h token (by simp [ht]))
  | case7 word fieldName rest hsort hexplode remaining specs explodes heq ih =>
    rw [heq] at ih
    exact .keep word (ih fun token ht => h token (List.mem_cons_of_mem _ ht))

theorem sortOperator_of_explode {word : String} (h : isExplodeOperator word = true) :
    sortOperator word = none := by
  have hword : upperToken word = "BY.EXP" := of_decide_eq_true h
  rw [sortOperator, hword]
  rfl

theorem Split.length {parts remaining : List String} {specs : List SortSpec}
    {explodes : List ExplodeSpec} (h : Split parts remaining specs explodes) :
    parts.length = remaining.length + 2 * specs.length +
      (explodes.map fun spec => if spec.condition.isSome then 4 else 2).sum := by
  induction h with
  | nil => rfl
  | keep token _ ih => simp only [List.length_cons, ih]; omega
  | sort fieldName _ _ ih => simp only [List.length_cons, ih]; omega
  | explode fieldName _ _ ih =>
    simp only [List.length_cons, List.map_cons, List.sum_cons, ih, Option.isSome_none,
      Bool.false_eq_true, if_false]
    omega
  | explodeWhere fieldName op value _ _ ih =>
    simp only [List.length_cons, List.map_cons, List.sum_cons, ih, Option.isSome_some, if_true]
    omega

/-- How many tokens are left over does not depend on which. -/
theorem Split.length_remaining {parts remaining remaining' : List String} {specs : List SortSpec}
    {explodes : List ExplodeSpec} (h : Split parts remaining specs explodes)
    (h' : Split parts remaining' specs explodes) : remaining.length = remaining'.length := by
  have hlen := h.length
  have hlen' := h'.length
  omega

/-- Where the code comes to the same orderings and exploded fields, a `WITH` that can be left at the
front is left there. -/
theorem Split.head_with {parts remaining rest : List String} {word : String}
    {specs : List SortSpec} {explodes : List ExplodeSpec} (hword : isWith word = true)
    (h : Split parts (word :: rest) specs explodes)
    (hparse : parseClauseSpecs parts = (remaining, specs, explodes)) :
    remaining.head? = some word := by
  generalize hfront : word :: rest = front at h
  induction h generalizing remaining with
  | nil => cases hfront
  | @keep parts _ _ _ token hsplit _ =>
    cases hfront
    have hupper : upperToken word = "WITH" := of_decide_eq_true hword
    cases parts with
    | nil =>
      cases hparse
      rfl
    | cons fieldName parts =>
      rw [parseClauseSpecs_keep (by rw [sortOperator, hupper]; rfl)
        (by rw [isExplodeOperator, hupper]; rfl)] at hparse
      rw [← (Prod.mk.inj hparse).1]
      rfl
  | sort fieldName hsort hsplit ih =>
    rw [parseClauseSpecs_sort hsort] at hparse
    cases hparse
    exact ih rfl hfront
  | @explode parts _ _ _ _ fieldName hexplode hsplit ih =>
    have hsort := sortOperator_of_explode hexplode
    by_cases hop : ∀ op value more, parts = op :: value :: more → isComparisonOp op = false
    · rw [parseClauseSpecs_explode hsort hexplode hop] at hparse
      cases hparse
      exact ih rfl hfront
    · push Not at hop
      obtain ⟨op, value, more, rfl, hcmp⟩ := hop
      rw [parseClauseSpecs_explodeWhere hsort hexplode (Bool.not_eq_false _ ▸ hcmp)] at hparse
      cases hparse
  | explodeWhere fieldName op value hexplode hsplit ih =>
    have hsort := sortOperator_of_explode hexplode
    cases hop : isComparisonOp op with
    | true =>
      rw [parseClauseSpecs_explodeWhere hsort hexplode hop] at hparse
      simp only [Prod.mk.injEq, List.cons.injEq] at hparse
      obtain ⟨rfl, rfl, -, rfl⟩ := hparse
      exact ih rfl hfront
    | false =>
      rw [parseClauseSpecs_explode hsort hexplode (by rintro _ _ _ ⟨⟩; exact hop)] at hparse
      cases hparse

/-! ## Criteria -/

/-- How many tokens spell criteria. -/
def nodeTokens : QueryNode → Nat
  | .condition _ => 3
  | .logical _ left right => nodeTokens left + 1 + nodeTokens right

theorem Spells.length {tokens : List String} {node : QueryNode} (h : Spells tokens node) :
    tokens.length = nodeTokens node := by
  induction h with
  | condition fieldName op value => rfl
  | logical fieldName op value _ _ ih =>
    rw [List.length_append, ih]
    rfl

/-- The criteria parser takes whole groups, and stops short exactly where something else is left. -/
theorem parseMore_spec {node : QueryNode} {taken : Nat} {rest : List String}
    (h : ∀ token ∈ rest, Unspaced token) :
    ∃ used left, rest = used ++ left ∧ (left = [] ↔ wholeGroups rest = true) ∧
      ∀ tokens, Spells tokens node → Spells (tokens ++ used) (parseMore node taken rest).1 := by
  fun_induction parseMore node taken rest with
  | case1 node taken word fieldName op value rest hword =>
    refine ⟨[], _, rfl, ?_, fun tokens ht => by rwa [List.append_nil]⟩
    simp [wholeGroups, hword]
  | case2 node taken word fieldName op value rest logical hword ih =>
    obtain ⟨used, left, rfl, hleft, hspells⟩ := ih fun token ht => h token (by simp [ht])
    refine ⟨word :: fieldName :: op :: value :: used, left, rfl, ?_, fun tokens ht => ?_⟩
    · rw [hleft]
      simp [wholeGroups, hword]
    · have hone := Spells.logical fieldName op value ht hword
      rw [← conditionOf_eq (h value (by simp))] at hone
      simpa using hspells _ hone
  | case3 rest node taken hshort =>
    refine ⟨[], rest, rfl, ?_, fun tokens ht => by rwa [List.append_nil]⟩
    match rest, hshort with
    | [], _ => simp [wholeGroups]
    | [_], _ => simp [wholeGroups]
    | [_, _], _ => simp [wholeGroups]
    | [_, _, _], _ => simp [wholeGroups]
    | word :: fieldName :: op :: value :: more, hshort => exact (hshort _ _ _ _ _ rfl).elim

/-- The criteria parser on what follows a `WITH`. -/
theorem parseQueryReadOnly_eq (parts : List String) :
    parseQueryReadOnly parts =
      match afterWith parts with
      | fieldName :: op :: value :: rest =>
        some (parseMore (.condition (conditionOf fieldName op value))
          ((if (parts.head?.map isWith).getD false then 1 else 0) + 3) rest).1
      | _ => none := by
  have hdrop : parts.drop (if (parts.head?.map isWith).getD false then 1 else 0) =
      afterWith parts := by
    unfold afterWith
    split <;> rfl
  unfold parseQueryReadOnly parseQueryConsuming
  simp only [hdrop]
  split <;> rfl

theorem parseQueryReadOnly_eq_none {parts : List String} :
    parseQueryReadOnly parts = none ↔ (afterWith parts).length < 3 := by
  rw [parseQueryReadOnly_eq]
  match afterWith parts with
  | [] => simp
  | [_] => simp
  | [_, _] => simp
  | _ :: _ :: _ :: rest => simp

theorem of_mem_afterWith {parts : List String} (h : ∀ token ∈ parts, Unspaced token) :
    ∀ token ∈ afterWith parts, Unspaced token := by
  intro token ht
  unfold afterWith at ht
  split at ht
  · exact h token (List.mem_of_mem_drop ht)
  · exact h token ht

theorem parseQueryReadOnly_spec {parts : List String} {node : QueryNode}
    (h : ∀ token ∈ parts, Unspaced token) (hparse : parseQueryReadOnly parts = some node) :
    ∃ used left, afterWith parts = used ++ left ∧ Spells used node ∧
      (left = [] ↔ wholeGroups ((afterWith parts).drop 3) = true) := by
  have hafter := of_mem_afterWith h
  rw [parseQueryReadOnly_eq] at hparse
  split at hparse
  · rename_i fieldName op value rest heq
    rw [heq] at hafter ⊢
    have hrest : ∀ token ∈ rest, Unspaced token := fun token ht => hafter token (by simp [ht])
    obtain ⟨used, left, rfl, hleft, hspells⟩ := parseMore_spec hrest
    refine ⟨fieldName :: op :: value :: used, left, rfl, ?_, hleft⟩
    have hfirst := Spells.condition fieldName op value
    rw [← conditionOf_eq (hafter value (by simp))] at hfirst
    rw [← Option.some.inj hparse]
    exact hspells _ hfirst
  · cases hparse

/-! ## The texts of a clause -/

def nodeTexts : QueryNode → List String
  | .condition cond => [cond.fieldName, cond.op, cond.value]
  | .logical _ left right => nodeTexts left ++ nodeTexts right

def explodeTexts (spec : ExplodeSpec) : List String :=
  spec.fieldName :: (spec.condition.map fun cond => nodeTexts (.condition cond)).getD []

/-- Tokens have white space exactly where the criteria they spell have. -/
theorem Spells.unspaced {tokens : List String} {node : QueryNode} (h : Spells tokens node) :
    (∀ token ∈ tokens, Unspaced token) ↔ ∀ text ∈ nodeTexts node, Unspaced text := by
  induction h with
  | condition fieldName op value =>
    simp [nodeTexts, unspaced_valueOf]
  | logical fieldName op value _ hword ih =>
    rw [List.forall_mem_append, nodeTexts, List.forall_mem_append, ih]
    simp [nodeTexts, unspaced_valueOf, unspaced_of_logicalOp hword]

theorem Split.unspaced {parts remaining : List String} {specs : List SortSpec}
    {explodes : List ExplodeSpec} (h : Split parts remaining specs explodes) :
    (∀ token ∈ parts, Unspaced token) ↔
      (∀ token ∈ remaining, Unspaced token) ∧ (∀ spec ∈ specs, Unspaced spec.fieldName) ∧
        ∀ spec ∈ explodes, ∀ text ∈ explodeTexts spec, Unspaced text := by
  induction h with
  | nil => simp
  | keep token _ ih => rw [List.forall_mem_cons, List.forall_mem_cons, ih, and_assoc]
  | sort fieldName hsort _ ih =>
    simp only [List.forall_mem_cons, ih, unspaced_of_sortOperator hsort, true_and]
    tauto
  | explode fieldName hexplode _ ih =>
    simp only [List.forall_mem_cons, ih, unspaced_of_explode hexplode, explodeTexts, true_and]
    simp
    tauto
  | explodeWhere fieldName op value hexplode _ ih =>
    simp only [List.forall_mem_cons, ih, unspaced_of_explode hexplode, explodeTexts, true_and]
    simp [nodeTexts, unspaced_valueOf]
    tauto

/-- The criteria of the exploded fields tell the others apart. -/
theorem withExplodes_inj {explodes : List ExplodeSpec} {node node' : Option QueryNode}
    (h : withExplodes node explodes = withExplodes node' explodes) : node = node' := by
  induction explodes generalizing node node' with
  | nil => exact h
  | cons spec explodes ih =>
    have heq := ih h
    cases hcond : spec.condition <;> cases node <;> cases node' <;>
      simp_all [andCondition]

/-! ## Understood or refused -/

/-- A string with nothing beside it: the parsed clause, or a refusal where what is left over does not
parse. -/
theorem resolveClause_text {J : Type} (s : String) :
    resolveClause (J := J) { queryString := some s } =
      if parseQueryReadOnly (leftOver (splitWhitespace s)) = none ∧
          leftOver (splitWhitespace s) ≠ [] then
        .error (refusal .invalidQuery
          ("Query is not understood: " ++ " ".intercalate (leftOver (splitWhitespace s))))
      else
        .ok
          { query := withExplodes (parseQueryReadOnly (leftOver (splitWhitespace s)))
              (parseClauseSpecs (splitWhitespace s)).2.2
            sortSpecs := (parseClauseSpecs (splitWhitespace s)).2.1
            explode := (parseClauseSpecs (splitWhitespace s)).2.2 } := by
  rw [← parseClauseSpecs_fst]
  simp [resolveClause]

theorem afterWith_length_le (parts : List String) : (afterWith parts).length ≤ parts.length := by
  unfold afterWith
  split
  · exact (List.drop_sublist 1 parts).length_le
  · exact le_refl _

theorem afterWith_of_with {parts : List String} {word : String} (hhead : parts.head? = some word)
    (hword : isWith word = true) : afterWith parts = parts.drop 1 := by
  simp [afterWith, hhead, hword]

/-- Criteria that spell the same as what the code left over, and are as long, leave nothing. -/
theorem Criteria.whole {remaining parts : List String} {node : QueryNode}
    (h : Criteria remaining (some node)) (hlen : remaining.length = parts.length)
    (hhead : ∀ word rest, remaining = word :: rest → isWith word = true →
      parts.head? = some word)
    {used left : List String} (hparts : afterWith parts = used ++ left) (hused : Spells used node) :
    left = [] := by
  have hafter := congrArg List.length hparts
  rw [List.length_append, hused.length] at hafter
  apply List.length_eq_zero_iff.mp
  cases h with
  | bare hspells =>
    have hle := afterWith_length_le parts
    rw [← hlen, hspells.length] at hle
    omega
  | after hword hspells =>
    have heq := afterWith_of_with (hhead _ _ rfl hword) hword
    rw [List.length_cons, hspells.length] at hlen
    rw [heq, List.length_drop] at hafter
    omega

theorem Criteria.unspaced {remaining : List String} {node : Option QueryNode}
    (h : Criteria remaining node) :
    (∀ token ∈ remaining, Unspaced token) ↔
      ∀ text ∈ (node.map nodeTexts).getD [], Unspaced text := by
  cases h with
  | none => simp
  | bare hspells => exact hspells.unspaced
  | after hword hspells =>
    rw [List.forall_mem_cons, hspells.unspaced]
    simp [unspaced_of_with hword]

theorem criteria_texts {parts : List String} (h : ∀ token ∈ parts, Unspaced token) :
    ∀ text ∈ ((parseQueryReadOnly parts).map nodeTexts).getD [], Unspaced text := by
  cases hquery : parseQueryReadOnly parts with
  | none => simp
  | some node =>
    obtain ⟨used, left, heq, hspells, -⟩ := parseQueryReadOnly_spec h hquery
    refine hspells.unspaced.mp fun token ht => of_mem_afterWith h token ?_
    rw [heq]
    exact List.mem_append_left _ ht

/-- What the code takes for the criteria accounts for the tokens left over where they end in whole
groups. -/
theorem criteria_parseQuery {parts : List String} (h : ∀ token ∈ parts, Unspaced token)
    (hwhole : parts = [] ∨ wholeGroups ((afterWith parts).drop 3) = true)
    (hok : ¬ (parseQueryReadOnly parts = none ∧ parts ≠ [])) :
    Criteria parts (parseQueryReadOnly parts) := by
  cases hquery : parseQueryReadOnly parts with
  | none =>
    have hnil : parts = [] := by_contra fun hne => hok ⟨hquery, hne⟩
    rw [hnil]
    exact .none
  | some node =>
    obtain ⟨used, left, heq, hspells, hleft⟩ := parseQueryReadOnly_spec h hquery
    have hne : parts ≠ [] := by
      rintro rfl
      cases hquery
    rw [hleft.mpr (hwhole.resolve_left hne), List.append_nil] at heq
    obtain ⟨word, rest, rfl⟩ := List.exists_cons_of_ne_nil hne
    cases hword : isWith word with
    | true =>
      rw [afterWith_of_with rfl hword] at heq
      rw [show rest = used from heq]
      exact .after hword hspells
    | false =>
      simp only [afterWith, List.head?_cons, Option.map_some, hword, Option.getD_some,
        Bool.false_eq_true, if_false] at heq
      rw [heq]
      exact .bare hspells

theorem understandable_of_accounts {J : Type} {s : String}
    (hall : ∀ clause, resolveClause (J := J) { queryString := some s } = .ok clause →
      Accounts (quoteTokens s) clause) : Understandable s := by
  have hunspaced : ∀ token ∈ splitWhitespace s, Unspaced token :=
    fun token ht => unspaced_splitWhitespace ht
  have hsplit := split_parseClauseSpecs hunspaced
  have htexts := hsplit.unspaced.mp hunspaced
  rw [parseClauseSpecs_fst] at hsplit htexts
  rw [resolveClause_text] at hall
  by_cases hrefused : parseQueryReadOnly (leftOver (splitWhitespace s)) = none ∧
      leftOver (splitWhitespace s) ≠ []
  · exact .inl ⟨hrefused.2, parseQueryReadOnly_eq_none.mp hrefused.1⟩
  · rw [if_neg hrefused] at hall
    obtain ⟨remaining, node, hsplit', hcriteria, hquery⟩ := hall _ rfl
    rw [← withExplodes_inj hquery] at hcriteria
    have hcode := criteria_texts htexts.1
    have hquoted := hsplit'.unspaced.mpr ⟨hcriteria.unspaced.mpr hcode, htexts.2⟩
    refine .inr ⟨hquoted, ?_⟩
    rw [quoteTokens_eq hquoted] at hsplit'
    have hlen := hsplit'.length_remaining hsplit
    cases hnode : parseQueryReadOnly (leftOver (splitWhitespace s)) with
    | none => exact .inl (by_contra fun hne => hrefused ⟨hnode, hne⟩)
    | some found =>
      obtain ⟨used, left, heq, hspells, hleft⟩ := parseQueryReadOnly_spec htexts.1 hnode
      rw [hnode] at hcriteria
      refine .inr (hleft.mp (hcriteria.whole hlen ?_ heq hspells))
      rintro word rest rfl hword
      rw [← parseClauseSpecs_fst]
      exact hsplit'.head_with hword rfl

theorem accounts_of_understandable {J : Type} {s : String} (h : Understandable s) {clause : Clause}
    (hclause : resolveClause (J := J) { queryString := some s } = .ok clause) :
    Accounts (quoteTokens s) clause := by
  have hunspaced : ∀ token ∈ splitWhitespace s, Unspaced token :=
    fun token ht => unspaced_splitWhitespace ht
  have hsplit := split_parseClauseSpecs hunspaced
  have htexts := hsplit.unspaced.mp hunspaced
  rw [parseClauseSpecs_fst] at hsplit htexts
  rw [resolveClause_text] at hclause
  rcases h with ⟨hne, hshort⟩ | ⟨hquoted, hwhole⟩
  · rw [if_pos ⟨parseQueryReadOnly_eq_none.mpr hshort, hne⟩] at hclause
    cases hclause
  · split at hclause
    · cases hclause
    · rename_i hok
      cases hclause
      rw [quoteTokens_eq hquoted]
      exact ⟨_, _, hsplit, criteria_parseQuery htexts.1 hwhole hok, rfl⟩

/-- A query string is understood whole or refused exactly where it is `Understandable`. -/
theorem understood_iff {J : Type} (s : String) :
    (∀ clause, resolveClause (J := J) { queryString := some s } = .ok clause →
      Accounts (quoteTokens s) clause) ↔ Understandable s :=
  ⟨understandable_of_accounts, fun h _ => accounts_of_understandable h⟩

/-- A quoted value of two words keeps its opening quote and loses the second word, and a word after
whole criteria is dropped. -/
theorem quoted_and_leftover_dropped :
    (resolveClause (J := Unit) { queryString := some "WITH NAME = \"John Doe\"" } =
        .ok { query := some (.condition ⟨"NAME", "=", "\"John"⟩) } ∧
      ¬ Accounts (quoteTokens "WITH NAME = \"John Doe\"")
        { query := some (.condition ⟨"NAME", "=", "\"John"⟩) }) ∧
    (resolveClause (J := Unit) { queryString := some "WITH A = 1 B" } =
        .ok { query := some (.condition ⟨"A", "=", "1"⟩) } ∧
      ¬ Accounts (quoteTokens "WITH A = 1 B") { query := some (.condition ⟨"A", "=", "1"⟩) }) := by
  have hfail : ∀ {s : String} {clause : Clause},
      resolveClause (J := Unit) { queryString := some s } = .ok clause → ¬ Understandable s →
      ¬ Accounts (quoteTokens s) clause := by
    intro s clause hclause hnot haccounts
    refine hnot (understandable_of_accounts (J := Unit) fun clause' hclause' => ?_)
    rw [hclause] at hclause'
    cases hclause'
    exact haccounts
  have hquoted : resolveClause (J := Unit) { queryString := some "WITH NAME = \"John Doe\"" } =
      .ok { query := some (.condition ⟨"NAME", "=", "\"John"⟩) } := by decide +kernel
  have hleft : resolveClause (J := Unit) { queryString := some "WITH A = 1 B" } =
      .ok { query := some (.condition ⟨"A", "=", "1"⟩) } := by decide +kernel
  exact ⟨⟨hquoted, hfail hquoted (by decide +kernel)⟩, hleft, hfail hleft (by decide +kernel)⟩

end RustyPick
