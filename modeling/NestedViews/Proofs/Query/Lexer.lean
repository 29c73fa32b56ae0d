import NestedViews.Proofs.Success
import NestedViews.Query.Placeholder

namespace NestedViews.Query

open Segment

inductive Mode
  | text
  | quoted (quote : Char) (opened : Position)
  | lineComment
  | blockComment (opened : Position)

/-- Reads a query in a mode and notes every question mark that is met in text. What is left open at
the end is reported by where it was opened. -/
def lex : Mode → Position → List Char → Except Position (List Position)
  | .text, _, [] => .ok []
  | .text, p, '-' :: '-' :: cs => lex .lineComment ((p.next '-').next '-') cs
  | .text, p, '/' :: '*' :: cs => lex (.blockComment p) ((p.next '/').next '*') cs
  | .text, p, c :: cs =>
    if c = '\'' ∨ c = '"' then lex (.quoted c p) (p.next c) cs
    else if c = '?' then (p :: ·) <$> lex .text (p.next c) cs
    else lex .text (p.next c) cs
  | .quoted _ opened, _, [] => .error opened
  | .quoted quote opened, p, [c] =>
    if c = quote then lex .text (p.next c) [] else lex (.quoted quote opened) (p.next c) []
  | .quoted quote opened, p, c :: d :: cs =>
    if c ≠ quote then lex (.quoted quote opened) (p.next c) (d :: cs)
    else if d = quote then lex (.quoted quote opened) ((p.next c).next d) cs
    else lex .text (p.next c) (d :: cs)
  | .lineComment, _, [] => .ok []
  | .lineComment, p, c :: cs =>
    if c = '\r' ∨ c = '\n' then lex .text (p.next c) cs else lex .lineComment (p.next c) cs
  | .blockComment opened, _, [] => .error opened
  | .blockComment _, p, '*' :: '/' :: cs => lex .text ((p.next '*').next '/') cs
  | .blockComment opened, p, c :: cs => lex (.blockComment opened) (p.next c) cs

variable {p opened : Position} {c : Char} {cs : List Char}

theorem lex_text_of_not_opens (h : opens (c :: cs) = false) :
    lex .text p (c :: cs) = lex .text (p.next c) cs := by
  have hquote : ¬(c = '\'' ∨ c = '"') := by
    rintro (rfl | rfl) <;> simp [opens] at h
  have hmark : c ≠ '?' := by
    rintro rfl
    simp [opens] at h
  rw [lex, if_neg hquote, if_neg hmark]
  · rintro ds rfl rfl
    simp [opens] at h
  · rintro ds rfl rfl
    simp [opens] at h

theorem lex_text (p : Position) (cs : List Char) : lex .text p cs =
    lex .text (p.after (cs.take (textLength cs))) (cs.drop (textLength cs)) := by
  induction cs generalizing p with
  | nil => rfl
  | cons c cs ih =>
    cases hopens : opens (c :: cs) with
    | true =>
      rw [textLength, if_pos hopens]
      rfl
    | false =>
      rw [lex_text_of_not_opens hopens, textLength, if_neg (by simp [hopens]), ih]
      rfl

theorem lex_quoted (quote : Char) (p : Position) (cs : List Char) :
    lex (.quoted quote opened) p cs =
      match quotedLength? quote cs with
      | none => .error opened
      | some length => lex .text (p.after (cs.take length)) (cs.drop length) := by
  fun_induction quotedLength? quote cs generalizing p with
  | case1 => rfl
  | case2 => simp [lex, Position.after]
  | case3 c hne => simp [lex, hne]
  | case4 c d cs hne ih =>
    rw [lex, if_pos hne, ih]
    cases quotedLength? quote (d :: cs) <;> rfl
  | case5 c cs hc ih =>
    rw [lex, if_neg hc, if_pos rfl, ih]
    cases quotedLength? quote cs <;> rfl
  | case6 c d cs hc hd =>
    rw [lex, if_neg hc, if_neg hd]
    rfl

theorem lex_lineComment (p : Position) (cs : List Char) : lex .lineComment p cs =
    lex .text (p.after (cs.take (lineLength cs))) (cs.drop (lineLength cs)) := by
  induction cs generalizing p with
  | nil => rfl
  | cons c cs ih =>
    rw [lex]
    split
    · rename_i h
      -- The end of the line is no part of the comment, but text that opens nothing.
      have hopens : opens (c :: cs) = false := by
        rcases h with rfl | rfl <;> rfl
      have hlength : lineLength (c :: cs) = 0 := by
        rcases h with rfl | rfl <;> rfl
      rw [hlength]
      exact (lex_text_of_not_opens hopens).symm
    · rename_i h
      have hlength : lineLength (c :: cs) = lineLength cs + 1 := by
        simp [lineLength, not_or.mp h]
      rw [ih, hlength]
      rfl

theorem lex_blockComment (p : Position) (cs : List Char) :
    lex (.blockComment opened) p cs =
      match blockLength? cs with
      | none => .error opened
      | some length => lex .text (p.after (cs.take length)) (cs.drop length) := by
  fun_induction blockLength? cs generalizing p with
  | case1 => rfl
  | case2 c cs h ih =>
    rw [lex, ih]
    · cases blockLength? cs <;> rfl
    · exact h
  | case3 => rfl

/-- The lexer and the segments at the front of a text: a segment is passed over as a whole, and only
a placeholder is noted. -/
theorem lex_cons (p : Position) (c : Char) (cs : List Char) : lex .text p (c :: cs) =
    match front? c cs with
    | none => .error p
    | some (kind, length) =>
      let rest := lex .text (p.after (c :: cs.take length)) (cs.drop length)
      if kind = .placeholder then (p :: ·) <$> rest else rest := by
  fun_cases front? c cs with
  | case1 =>
    rw [lex, if_pos (.inl rfl), lex_quoted]
    · cases quotedLength? '\'' cs <;> rfl
    · simp
    · simp
  | case2 =>
    rw [lex, if_pos (.inr rfl), lex_quoted]
    · cases quotedLength? '"' cs <;> rfl
    · simp
    · simp
  | case3 cs =>
    rw [lex, lex_lineComment]
    rfl
  | case4 cs =>
    rw [lex, lex_blockComment]
    cases blockLength? cs <;> rfl
  | case5 =>
    rfl
  | case6 =>
    rw [lex_text_of_not_opens, lex_text]
    · rfl
    · rw [opens] <;> simpa

theorem lex_eq_cut (p : Position) (cs : List Char) : lex .text p cs =
    (fun segments => (segments.filter (·.kind = .placeholder)).map Segment.start) <$> cut p cs := by
  fun_induction cut p cs with
  | case1 => rfl
  | case2 p c cs hfront =>
    rw [lex_cons, hfront]
    rfl
  | case3 p c cs kind length hfront q hrest ih =>
    simp only [lex_cons, hfront, ih, hrest]
    cases kind <;> rfl
  | case4 p c cs kind length hfront rest hrest ih =>
    simp only [lex_cons, hfront, ih, hrest]
    cases kind <;> rfl

theorem placeholders_eq (query : String) : placeholders query =
    (lex .text .start query.toList).mapError fun p =>
      .malformedQuery p.line p.column (p.offset = 0) := by
  rw [placeholders, lex_eq_cut]
  cases cut .start query.toList <;> rfl

theorem placeholders_eq_ok {query : String} {found : List Position} :
    placeholders query = .ok found ↔ lex .text .start query.toList = .ok found := by
  rw [placeholders_eq]
  cases lex .text .start query.toList <;> simp [Except.mapError]

end NestedViews.Query
