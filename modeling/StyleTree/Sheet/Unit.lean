import StyleTree.Sheet.Stylesheet

/-! What a stylesheet is emitted from: units, each a rule for one or more selectors or a raw text. -/

namespace StyleTree

/-- Selectors and the declarations they share. -/
structure StyleRule where
  selectors : List String
  declarations : List (String × String) := []
  deriving DecidableEq, Repr

def StyleRule.push (r : StyleRule) (property value : String) : StyleRule :=
  { r with declarations := r.declarations ++ [(property, value)] }

def StyleRule.properties (r : StyleRule) : List String := r.declarations.map (·.1)

inductive SheetUnit where
  /-- declarations that several selectors share -/
  | group (rule : StyleRule)
  /-- what is left for a single selector -/
  | solo (rule : StyleRule)
  | raw (text : String)
  deriving DecidableEq, Repr

/-- The rule of a unit that is no raw text. -/
def SheetUnit.rule? : SheetUnit → Option StyleRule
  | .group r | .solo r => some r
  | .raw _ => none

structure AtRule where
  chain : Chain
  units : List SheetUnit
  deriving DecidableEq, Repr

/-- The header an at-rule is emitted under: that of the innermost condition. -/
def AtRule.header (a : AtRule) : String := a.chain.getLast?.getD ""

structure GroupedSheet where
  root : List SheetUnit := []
  atRules : List AtRule := []
  deriving DecidableEq, Repr

end StyleTree
