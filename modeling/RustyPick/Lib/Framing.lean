import RustyPick.Lib.Feed

/-!
# Lib.Framing

A stream of frames: a head, which ends at a delimiter or where it reaches a limit, and then as much
of a body as the head announces.

* `readUntil_spec`: reads until a delimiter take the head off the front, however the stream arrives.
* `frame_unique`: the next frame of a stream is one frame.
* `framed_of_complete`: frames put one after the other are cut apart again.
-/

namespace Lib

variable {α ε : Type} [DecidableEq α]

/-- The front of a list up to a delimiter, and with it, but at most `limit` items. -/
def upTo (delim : α) : Nat → List α → List α
  | 0, _ => []
  | _ + 1, [] => []
  | limit + 1, a :: l => if a = delim then [a] else a :: upTo delim limit l

/-- Nothing is to be added to it: it has its delimiter, or it is as long as it may be. -/
def isHead (delim : α) (limit : Nat) (l : List α) : Bool :=
  l.getLast? = some delim ∨ l.length = limit

section Heads

variable {delim : α} {limit : Nat} {l : List α}

theorem upTo_front (delim : α) : ∀ (limit : Nat) (l : List α), upTo delim limit l <+: l := by
  intro limit
  induction limit with
  | zero => exact fun l => List.nil_prefix
  | succ limit ih =>
    intro l
    cases l with
    | nil => exact List.nil_prefix
    | cons a l =>
      unfold upTo
      split
      · exact List.prefix_append [a] l
      · exact List.cons_prefix_cons.mpr ⟨rfl, ih l⟩

/-- What comes after a head does not show. -/
theorem upTo_append_of_isHead : ∀ {limit : Nat} {l : List α} (rest : List α),
    isHead delim limit (upTo delim limit l) → upTo delim limit (l ++ rest) = upTo delim limit l := by
  intro limit
  induction limit with
  | zero => exact fun rest _ => rfl
  | succ limit ih =>
    intro l rest h
    cases l with
    | nil =>
      simp [isHead, upTo] at h
    | cons a l =>
      simp only [List.cons_append, upTo] at h ⊢
      split
      · rfl
      next hne =>
        rw [if_neg hne] at h
        refine congrArg (a :: ·) (ih rest ?_)
        have hcases := of_decide_eq_true h
        rw [List.getLast?_cons, List.length_cons, Nat.add_right_cancel_iff] at hcases
        refine decide_eq_true (hcases.imp_left fun hlast => ?_)
        cases hsome : (upTo delim limit l).getLast? with
        | none =>
          rw [hsome] at hlast
          exact absurd (Option.some.inj hlast) hne
        | some b =>
          rw [hsome] at hlast
          exact hlast

/-- What is no head yet is all there is, and goes on in what comes next. -/
theorem upTo_append_of_not_isHead : ∀ {limit : Nat} {l : List α} (rest : List α),
    isHead delim limit (upTo delim limit l) = false →
    upTo delim limit l = l ∧
      upTo delim limit (l ++ rest) = l ++ upTo delim (limit - l.length) rest := by
  intro limit
  induction limit with
  | zero =>
    intro l rest h
    simp [isHead, upTo] at h
  | succ limit ih =>
    intro l rest h
    cases l with
    | nil => exact ⟨rfl, rfl⟩
    | cons a l =>
      simp only [List.cons_append, upTo] at h ⊢
      split at h
      next heq => simp [isHead, heq] at h
      next hne =>
        have hrest : isHead delim limit (upTo delim limit l) = false := by
          have hnot := of_decide_eq_false h
          rw [not_or, List.getLast?_cons, List.length_cons, Nat.add_right_cancel_iff] at hnot
          refine decide_eq_false (not_or.mpr ⟨fun hlast => hnot.1 ?_, hnot.2⟩)
          rw [hlast]
          rfl
        obtain ⟨hall, hmore⟩ := ih rest hrest
        rw [if_neg hne, if_neg hne, hall, hmore, List.length_cons, Nat.add_sub_add_right]
        exact ⟨rfl, rfl⟩

/-- A line: the delimiter at its end and nowhere else. -/
theorem upTo_of_line {text : List α} (hnot : delim ∉ text) (hle : text.length < limit)
    (rest : List α) : upTo delim limit (text ++ delim :: rest) = text ++ [delim] := by
  induction text generalizing limit with
  | nil =>
    obtain ⟨limit, rfl⟩ := Nat.exists_eq_succ_of_ne_zero (Nat.pos_iff_ne_zero.mp hle)
    simp [upTo]
  | cons a text ih =>
    obtain ⟨limit, rfl⟩ := Nat.exists_eq_succ_of_ne_zero
      (Nat.pos_iff_ne_zero.mp (Nat.zero_lt_of_lt hle))
    obtain ⟨hne, hrest⟩ := not_or.mp (fun h => hnot (List.mem_cons.mpr h))
    simp only [List.cons_append, upTo, if_neg (Ne.symm hne)]
    rw [ih hrest (Nat.lt_of_succ_lt_succ hle)]

end Heads

namespace Feed

/-- Reads until the delimiter has come or there are `limit` items. -/
def untilPieces (delim : α) : Nat → List (List α) → List α × List (List α)
  | _, [] => ([], [])
  | limit, piece :: rest =>
    let part := upTo delim limit piece
    if isHead delim limit part then (part, piece.drop part.length :: rest)
    else
      let (more, rest) := untilPieces delim (limit - part.length) rest
      (part ++ more, rest)

/-- A head, or all there is at the end of the stream, or the failure there. -/
def readUntil (s : Feed α ε) (delim : α) (limit : Nat) : Except ε (List α) × Feed α ε :=
  let (got, rest) := untilPieces delim limit s.pieces
  let after := { s with pieces := rest }
  if isHead delim limit got then (.ok got, after)
  else
    match s.failure with
    | none => (.ok got, after)
    | some e => (.error e, after)

theorem untilPieces_spec (delim : α) (pieces : List (List α)) : ∀ limit,
    (untilPieces delim limit pieces).1 = upTo delim limit pieces.flatten ∧
      pieces.flatten =
        (untilPieces delim limit pieces).1 ++ (untilPieces delim limit pieces).2.flatten := by
  induction pieces with
  | nil =>
    intro limit
    cases limit with
    | zero => exact ⟨rfl, rfl⟩
    | succ limit => exact ⟨rfl, rfl⟩
  | cons piece rest ih =>
    intro limit
    unfold untilPieces
    dsimp only
    split
    next hhead =>
      refine ⟨(upTo_append_of_isHead rest.flatten hhead).symm, ?_⟩
      have hpiece : upTo delim limit piece ++ piece.drop (upTo delim limit piece).length = piece :=
        List.prefix_iff_eq_append.mp (upTo_front delim limit piece)
      rw [List.flatten_cons, List.flatten_cons, ← List.append_assoc, hpiece]
    next hnot =>
      obtain ⟨hall, hmore⟩ :=
        upTo_append_of_not_isHead rest.flatten (Bool.eq_false_iff.mpr hnot)
      obtain ⟨hgot, hflat⟩ := ih (limit - (upTo delim limit piece).length)
      rw [hall] at hgot hflat ⊢
      refine ⟨?_, ?_⟩
      · rw [List.flatten_cons, hmore]
        exact congrArg (piece ++ ·) hgot
      · rw [List.flatten_cons, List.append_assoc]
        exact congrArg (piece ++ ·) hflat

/-- The head is what the content begins with, and the rest stays. Only a stream that fails before
there is a head gives none. -/
theorem readUntil_spec (s : Feed α ε) (delim : α) (limit : Nat) :
    s.content = upTo delim limit s.content ++ (s.readUntil delim limit).2.content ∧
      (s.readUntil delim limit).2.failure = s.failure ∧
      ((s.readUntil delim limit).1 = .ok (upTo delim limit s.content) ∨
        ∃ e, (s.readUntil delim limit).1 = .error e ∧ s.failure = some e ∧
          isHead delim limit (upTo delim limit s.content) = false) := by
  obtain ⟨hgot, hflat⟩ := untilPieces_spec delim s.pieces limit
  unfold readUntil content
  rw [← hgot]
  dsimp only
  split
  · exact ⟨hflat, rfl, .inl rfl⟩
  next hnot =>
    split
    · exact ⟨hflat, rfl, .inl rfl⟩
    next e hfailure => exact ⟨hflat, rfl, .inr ⟨e, rfl, hfailure, Bool.eq_false_iff.mpr hnot⟩⟩

end Feed

/-! ## Frames -/

/-- How a stream is cut: where heads end, and how much of a body follows each. -/
structure Framing (α : Type) where
  delim : α
  limit : Nat
  announced : List α → Nat

structure Frame (α : Type) where
  head : List α
  body : List α

namespace Frame

def whole (f : Frame α) : List α := f.head ++ f.body

end Frame

namespace Framing

variable {g : Framing α}

def head (g : Framing α) (content : List α) : List α := upTo g.delim g.limit content

/-- A stream cut into frames, with what is left of it. -/
inductive Framed (g : Framing α) : List α → List (Frame α) → List α → Prop where
  | done (content : List α) : Framed g content [] content
  | frame {content rest left : List α} {f : Frame α} {fs : List (Frame α)}
    (hhead : f.head = g.head content) (hsome : f.head ≠ [])
    (hbody : f.body.length = g.announced f.head) (hcontent : content = f.whole ++ rest)
    (hrest : Framed g rest fs left) : Framed g content (f :: fs) left

/-- A head that ends in its delimiter, and all the body it announces. -/
structure Complete (g : Framing α) (f : Frame α) : Prop where
  line : ∃ text, f.head = text ++ [g.delim] ∧ g.delim ∉ text ∧ text.length < g.limit
  body : f.body.length = g.announced f.head

variable {content : List α} {fs : List (Frame α)}

/-- The next frame of a stream is one frame. -/
theorem frame_unique {f f' : Frame α} {rest rest' : List α} (hhead : f.head = g.head content)
    (hhead' : f'.head = g.head content) (hbody : f.body.length = g.announced f.head)
    (hbody' : f'.body.length = g.announced f'.head) (hcontent : content = f.whole ++ rest)
    (hcontent' : content = f'.whole ++ rest') : f = f' ∧ rest = rest' := by
  obtain ⟨head, body⟩ := f
  obtain ⟨head', body'⟩ := f'
  dsimp only at hhead hhead' hbody hbody'
  obtain rfl : head = head' := hhead.trans hhead'.symm
  have happend : head ++ (body ++ rest) = head ++ (body' ++ rest') := by
    rw [← List.append_assoc, ← List.append_assoc]
    exact hcontent.symm.trans hcontent'
  obtain ⟨rfl, rfl⟩ := List.append_inj (List.append_cancel_left happend) (hbody.trans hbody'.symm)
  exact ⟨rfl, rfl⟩

theorem Complete.head_whole {f : Frame α} (h : Complete g f) (rest : List α) :
    g.head (f.whole ++ rest) = f.head := by
  obtain ⟨text, htext, hnot, hlt⟩ := h.line
  rw [Frame.whole, htext, head]
  simp only [List.append_assoc, List.singleton_append]
  exact upTo_of_line hnot hlt _

omit [DecidableEq α] in
theorem Complete.head_ne_nil {f : Frame α} (h : Complete g f) : f.head ≠ [] := by
  obtain ⟨text, htext, -, -⟩ := h.line
  rw [htext]
  exact List.append_ne_nil_of_right_ne_nil _ (List.cons_ne_nil _ _)

theorem framed_of_complete (hall : ∀ f ∈ fs, Complete g f) (left : List α) :
    Framed g ((fs.map Frame.whole).flatten ++ left) fs left := by
  induction fs with
  | nil => exact .done left
  | cons f fs ih =>
    have hmine := hall f List.mem_cons_self
    have hrest := ih fun f hf => hall f (List.mem_cons_of_mem _ hf)
    have hcontent : ((f :: fs).map Frame.whole).flatten ++ left =
        f.whole ++ ((fs.map Frame.whole).flatten ++ left) := by
      rw [List.map_cons, List.flatten_cons, List.append_assoc]
    refine .frame ?_ hmine.head_ne_nil hmine.body hcontent hrest
    rw [hcontent, hmine.head_whole]

end Framing

end Lib
