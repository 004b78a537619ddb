import StyleTree.Text.Blank

/-! What an authored key stands for: a selector, or one of three kinds of at-rule. -/

namespace StyleTree.Selector

/-- The kind of a key. The header of an at-rule is the key without blanks around it; a selector keeps
    its key as authored. -/
inductive KeyKind where
  /-- a condition such as `@media`: a bucket of its own, whose content keeps its selectors -/
  | conditional (header : String)
  /-- `@keyframes`: a bucket of its own, whose content starts without selectors -/
  | keyframes (header : String)
  /-- any other at-rule, such as `@font-face`: a rule of its own -/
  | standalone (header : String)
  | selector (key : String)
  deriving DecidableEq, Repr

def conditions : List String := ["media", "supports", "container", "layer", "document"]

/-- The name of an at-rule, up to the first blank or parenthesis. -/
def atRuleName? : List Char → Option (List Char)
  | '@' :: rest => some (rest.takeWhile fun c => !Text.isBlank c && c != '(')
  | _ => none

/-- Whether the name is `keyframes`, alone or behind a vendor mark such as `-webkit-`. -/
def isKeyframes (name : List Char) : Bool :=
  name == "keyframes".toList ||
    match name with
    | '-' :: rest => rest.dropWhile (· != '-') == "-keyframes".toList
    | _ => false

def keyKind (key : String) : KeyKind :=
  match atRuleName? (Text.trimChars key.toList) with
  | none => .selector key
  | some name =>
    if String.ofList name ∈ conditions then .conditional (Text.trim key)
    else if isKeyframes name then .keyframes (Text.trim key)
    else .standalone (Text.trim key)

end StyleTree.Selector
