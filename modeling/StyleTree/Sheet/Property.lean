import StyleTree.Json.Printer

/-! Declarations as stylesheets write them: the spelling of a property, and the text of a value. -/

namespace StyleTree

/-- A capital as a hyphen and its small letter; any other character as it is. -/
def kebabChar (c : Char) : List Char := if c.isUpper then ['-', c.toLower] else [c]

/-- The spelling of an authored property name. Each ASCII capital becomes a hyphen and its small letter,
    unless names are kept as authored; custom properties, which begin with two hyphens, always are. -/
def propertyName (name : String) (keepCamelCase : Bool) : String :=
  if keepCamelCase || ['-', '-'].isPrefixOf name.toList then name
  else String.ofList (name.toList.flatMap kebabChar)

mutual

/-- The text of a value, if it has one: an empty text is written as two quotes, a list as the texts of
    its items; null, booleans, maps and lists without texts have none. -/
def Json.cssText? : Json → Option String
  | .str s => some (if s = "" then "\"\"" else s)
  | .num n => some n.text
  | .arr items =>
    match Json.cssTexts items with
    | [] => none
    | texts => some (Text.joinWith ", " texts)
  | .null | .bool _ | .obj _ => none

def Json.cssTexts : List Json → List String
  | [] => []
  | v :: rest => (Json.cssText? v).toList ++ Json.cssTexts rest

end

end StyleTree
