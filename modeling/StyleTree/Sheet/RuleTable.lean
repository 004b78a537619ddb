import StyleTree.Assoc

/-! Rule tables: the declarations of each selector path, in the order in which paths and properties were
    first seen. A path enters the table with its first fact, so no rule is empty. Raw texts stand between
    the rules where they were met. -/

namespace StyleTree

/-- A property of a selector path and its value. -/
structure Fact where
  selector : String
  property : String
  value : String
  deriving DecidableEq, Repr

inductive Entry where
  | rule (selector : String) (declarations : List (String × String))
  | raw (text : String)
  deriving DecidableEq, Repr

namespace Entry

def selector? : Entry → Option String
  | .rule s _ => some s
  | .raw _ => none

def declarations? : Entry → Option (List (String × String))
  | .rule _ ds => some ds
  | .raw _ => none

def rule? : Entry → Option (String × List (String × String))
  | .rule s ds => some (s, ds)
  | .raw _ => none

end Entry

structure RuleTable where
  entries : List Entry := []
  deriving DecidableEq, Repr

namespace RuleTable

/-- The entries with one more fact: in the rule of its selector, or in a new rule at the end. A property
    already there keeps its place and takes the new value. -/
def applyTo (f : Fact) : List Entry → List Entry
  | [] => [.rule f.selector [(f.property, f.value)]]
  | .raw text :: rest => .raw text :: applyTo f rest
  | .rule s ds :: rest =>
    if s = f.selector then .rule s (Assoc.put ds f.property f.value) :: rest
    else .rule s ds :: applyTo f rest

def apply (t : RuleTable) (f : Fact) : RuleTable := ⟨applyTo f t.entries⟩

def pushRaw (t : RuleTable) (text : String) : RuleTable := ⟨t.entries ++ [.raw text]⟩

def isEmpty (t : RuleTable) : Bool := t.entries.isEmpty

/-- The rules without the raw texts. -/
def rules (t : RuleTable) : List (String × List (String × String)) := t.entries.filterMap Entry.rule?

/-- The place of the rule of a selector. -/
def indexOf? (t : RuleTable) (selector : String) : Option Nat :=
  t.entries.findIdx? fun e => e.selector? == some selector

def selectorAt? (t : RuleTable) (i : Nat) : Option String := t.entries[i]?.bind Entry.selector?

def declarationsAt? (t : RuleTable) (i : Nat) : Option (List (String × String)) :=
  t.entries[i]?.bind Entry.declarations?

def declarations? (t : RuleTable) (selector : String) : Option (List (String × String)) :=
  (t.indexOf? selector).bind t.declarationsAt?

def declarationCount (t : RuleTable) : Nat := t.rules.foldr (fun r n => r.2.length + n) 0

end RuleTable

end StyleTree
