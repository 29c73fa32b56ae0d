import NestedViews.Query.Position

namespace NestedViews.Query

inductive SegmentKind
  | literal
  | identifier
  | lineComment
  | blockComment
  | placeholder
  | text
  deriving DecidableEq, Repr

structure Segment where
  kind : SegmentKind
  start : Position
  chars : List Char
  deriving DecidableEq, Repr

namespace Segment

/-- How many characters a quoted segment has after its opening quote. A doubled quote stays
inside. -/
def quotedLength? (quote : Char) : List Char → Option Nat
  | [] => none
  | [c] => if c = quote then some 1 else none
  | c :: d :: cs =>
    if c ≠ quote then (quotedLength? quote (d :: cs)).map (· + 1)
    else if d = quote then (quotedLength? quote cs).map (· + 2)
    else some 1

def blockLength? : List Char → Option Nat
  | '*' :: '/' :: _ => some 2
  | _ :: cs => (blockLength? cs).map (· + 1)
  | [] => none

def lineLength (cs : List Char) : Nat :=
  (cs.takeWhile fun c => c ≠ '\r' && c ≠ '\n').length

def opens : List Char → Bool
  | '\'' :: _ | '"' :: _ | '?' :: _ => true
  | '-' :: '-' :: _ => true
  | '/' :: '*' :: _ => true
  | _ => false

def textLength : List Char → Nat
  | [] => 0
  | c :: cs => if opens (c :: cs) then 0 else textLength cs + 1

/-- The kind of the segment at the front of a text, and how many characters it has after the first
one. A literal, identifier or block comment that is never closed is no segment. -/
def front? : Char → List Char → Option (SegmentKind × Nat)
  | '\'', cs => (quotedLength? '\'' cs).map (.literal, ·)
  | '"', cs => (quotedLength? '"' cs).map (.identifier, ·)
  | '-', '-' :: cs => some (.lineComment, lineLength cs + 1)
  | '/', '*' :: cs => (blockLength? cs).map (.blockComment, · + 1)
  | '?', _ => some (.placeholder, 0)
  | _, cs => some (.text, textLength cs)

def cut (p : Position) : List Char → Except Position (List Segment)
  | [] => .ok []
  | c :: cs =>
    match front? c cs with
    | none => .error p
    | some (kind, length) =>
      match cut (p.after (c :: cs.take length)) (cs.drop length) with
      | .error q => .error q
      | .ok rest => .ok (⟨kind, p, c :: cs.take length⟩ :: rest)
  termination_by cs => cs.length
  decreasing_by simp only [List.length_cons, List.length_drop]; omega

theorem flatMap_chars_cut {p : Position} {cs : List Char} {segments : List Segment}
    (h : cut p cs = .ok segments) : segments.flatMap chars = cs := by
  fun_induction cut p cs generalizing segments with
  | case1 => cases h; rfl
  | case2 => cases h
  | case3 => cases h
  | case4 p c cs kind length hfront rest hrest ih =>
    cases h
    simp [ih hrest]

end Segment

end NestedViews.Query
