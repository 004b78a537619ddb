import StyleTree.Error
import StyleTree.Text.Blank

/-! Splitting a selector key at its top-level commas.

    The splitter takes one character at a time. A backslash makes the next character plain, also inside
    quotes; a quote makes everything plain up to the same quote; and inside brackets and parentheses a
    comma belongs to the text around it. -/

namespace StyleTree.Selector

/-- The splitter: the segments in front, the segment begun, the brackets still open, innermost first,
    and the quote it stands in. Segments and characters are held in reverse. -/
structure Splitter where
  segments : List (List Char) := []
  current : List Char := []
  opened : List Char := []
  quote : Option Char := none
  escaped : Bool := false
  deriving DecidableEq, Repr

namespace Splitter

def opening (c : Char) : Char := if c = ']' then '[' else '('

def keep (s : Splitter) (c : Char) : Splitter := { s with current := c :: s.current }

def cut (s : Splitter) : Splitter :=
  { s with segments := s.current.reverse :: s.segments, current := [] }

def bare (s : Splitter) (c : Char) : Except KeyFault Splitter :=
  if c = '"' ∨ c = '\'' then .ok { s.keep c with quote := some c }
  else if c = '[' ∨ c = '(' then .ok { s.keep c with opened := c :: s.opened }
  else if c = ']' ∨ c = ')' then
    match s.opened with
    | o :: rest => if o = opening c then .ok { s.keep c with opened := rest } else .error (.unbalanced c)
    | [] => .error (.unbalanced c)
  else if c = ',' ∧ s.opened = [] then .ok s.cut
  else .ok (s.keep c)

def step (s : Splitter) (c : Char) : Except KeyFault Splitter :=
  if s.escaped then .ok { s.keep c with escaped := false }
  else if c = '\\' then .ok { s.keep c with escaped := true }
  else
    match s.quote with
    | some q => .ok { s.keep c with quote := if c = q then none else some q }
    | none => s.bare c

/-- The segments at the end of the key, unless a quote or bracket is still open. -/
def finish (s : Splitter) : Except KeyFault (List (List Char)) :=
  match s.quote, s.opened with
  | some q, _ => .error (.unclosedQuote q)
  | none, o :: _ => .error (.unclosedBracket o)
  | none, [] => .ok s.cut.segments.reverse

end Splitter

/-- The segments of a key between its top-level commas. -/
def segments (key : List Char) : Except KeyFault (List (List Char)) := do
  (← key.foldlM Splitter.step {}).finish

/-- The alternatives of a key: its segments without blanks around them, blank ones left out. At least
    one has to remain. -/
def splitAlternatives (key : String) : Except KeyFault (List String) := do
  let parts := ((← segments key.toList).map Text.trimChars).filter (· ≠ [])
  if parts.isEmpty then .error .empty else .ok (parts.map String.ofList)

end StyleTree.Selector
