import StyleTree.Sheet.Unit

/-! The text of a stylesheet, in lines or compact. The units of the root come first, and then each chain
    of at-rules as a block of its own under its innermost header. -/

namespace StyleTree

/-- How a stylesheet is written. -/
structure CssStyle where
  selectorSeparator : String
  openRule : String
  indent : String
  endLine : String
  openAtRule : String
  deriving DecidableEq, Repr

namespace CssStyle

/-- One declaration a line. -/
def pretty : CssStyle := ⟨", ", " \x7b\n", "  ", "\n", " \x7b\n"⟩

def compact : CssStyle := ⟨",", "\x7b", "", "", " \x7b"⟩

def ofMinify (minify : Bool) : CssStyle := if minify then compact else pretty

end CssStyle

def cssDeclaration (s : CssStyle) (d : String × String) : String :=
  s.indent ++ d.1 ++ ": " ++ d.2 ++ ";" ++ s.endLine

def StyleRule.css (s : CssStyle) (r : StyleRule) : String :=
  Text.joinWith s.selectorSeparator r.selectors ++ s.openRule ++ String.join (r.declarations.map (cssDeclaration s)) ++
    "\x7d" ++ s.endLine

def SheetUnit.css (s : CssStyle) : SheetUnit → String
  | .group r | .solo r => r.css s
  | .raw text => text ++ s.endLine

/-- A block without units is left out. -/
def AtRule.css (s : CssStyle) (a : AtRule) : String :=
  if a.units.isEmpty then ""
  else a.header ++ s.openAtRule ++ String.join (a.units.map (SheetUnit.css s)) ++ "\x7d" ++ s.endLine

def GroupedSheet.css (g : GroupedSheet) (minify : Bool) : String :=
  let s := CssStyle.ofMinify minify
  String.join (g.root.map (SheetUnit.css s)) ++ String.join (g.atRules.map (AtRule.css s))

end StyleTree
