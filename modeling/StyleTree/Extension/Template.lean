import StyleTree.Extension.Registry
import StyleTree.Text.Replace

/-! Extensions given as data: a value with places where the argument goes in, and cases that choose
    another such value for particular arguments. -/

namespace StyleTree

/-- A value for each argument named in a case, up to the order of map keys, and one for all others. -/
structure Template where
  body : Json
  cases : List (Json × Json) := []

namespace Template

mutual

/-- A value inside a text: a text as it is, the items of a list behind commas, anything else as JSON. -/
def inlineText : Json → String
  | .str s => s
  | .arr items => Text.joinWith ", " (inlineTexts items)
  | .null => Json.text .null
  | .bool b => Json.text (.bool b)
  | .num n => Json.text (.num n)
  | .obj fields => Json.text (.obj fields)

def inlineTexts : List Json → List String
  | [] => []
  | v :: rest => inlineText v :: inlineTexts rest

end

def item (argument : Json) (i : Nat) : Json :=
  match argument with
  | .arr items => items[i]?.getD .null
  | _ => .null

/-- The digits that name an item. -/
def places : List (Nat × String) :=
  [(0, "0"), (1, "1"), (2, "2"), (3, "3"), (4, "4"), (5, "5"), (6, "6"), (7, "7"), (8, "8"), (9, "9")]

/-- The text with the marked places replaced, first those of the whole argument and then those of each
    item in turn. -/
def fillText (argument : Json) (s : String) : String :=
  places.foldl (fun s p => Text.replace s ("%\x7b" ++ p.2 ++ "\x7d") (inlineText (item argument p.1)))
    (Text.replace s "%\x7barg\x7d" (inlineText argument))

/-- A text that is one place alone becomes the value itself. -/
def fillString (argument : Json) (s : String) : Json :=
  if s = "%arg" then argument
  else
    match places.find? fun p => s = "%" ++ p.2 with
    | some p => item argument p.1
    | none => .str (fillText argument s)

mutual

/-- The value with the argument in its places. Keys have no places. -/
def fill (argument : Json) : Json → Json
  | .str s => fillString argument s
  | .arr items => .arr (fillItems argument items)
  | .obj fields => .obj (fillFields argument fields)
  | .null => .null
  | .bool b => .bool b
  | .num n => .num n

def fillItems (argument : Json) : List Json → List Json
  | [] => []
  | v :: rest => fill argument v :: fillItems argument rest

def fillFields (argument : Json) : List (String × Json) → List (String × Json)
  | [] => []
  | (k, v) :: rest => (k, fill argument v) :: fillFields argument rest

end

def extension (t : Template) : Extension := fun argument =>
  match t.cases.find? fun c => c.1.eqv argument with
  | some c => fill argument c.2
  | none => fill argument t.body

end Template

end StyleTree
