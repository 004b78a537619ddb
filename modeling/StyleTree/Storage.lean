import StyleTree.Error
import StyleTree.Extension.Registry

/-! Stored values and mixins, looked up by name. A name that is not stored is an error, unlike a key that
    is no extension. -/

namespace StyleTree

/-- A function from arguments to a value, which is ordinary input. -/
abbrev Mixin := List Json → Json

structure Storage where
  values : List (String × Json) := []
  mixins : List (String × Mixin) := []

namespace Storage

/-- The storage with a value under a name. -/
def set (s : Storage) (name : String) (v : Json) : Storage := { s with values := Assoc.put s.values name v }

def setMany (s : Storage) : Json → Except Error Storage
  | .obj fields => .ok { s with values := Assoc.putAll s.values fields }
  | _ => .error (.invalidFragment .notEntries)

def get (s : Storage) (name : String) : Except Error Json :=
  match Assoc.get? s.values name with
  | some v => .ok v
  | none => .error (.unknownStorage name)

def setMixin (s : Storage) (name : String) (f : Mixin) : Storage := { s with mixins := Assoc.put s.mixins name f }

/-- The value that a mixin makes of its arguments. -/
def apply (s : Storage) (name : String) (arguments : List Json) : Except Error Json :=
  match Assoc.get? s.mixins name with
  | some f => .ok (f arguments)
  | none => .error (.unknownStorage name)

/-! ### Substitution -/

def isNameChar (c : Char) : Bool := c.isAlphanum || c == '-' || c == '_'

/-- The name a text refers to: the text is a dollar sign and a name, and nothing else. -/
def referenceName? (s : String) : Option String :=
  match s.toList with
  | '$' :: name => if name ≠ [] ∧ name.all isNameChar then some (String.ofList name) else none
  | _ => none

mutual

/-- The value with every reference replaced by what is stored, which is not searched for references in
    turn. Keys are no references. The first unknown name, from left to right, is an error. -/
def substitute (s : Storage) : Json → Except Error Json
  | .str text =>
    match referenceName? text with
    | some name => s.get name
    | none => .ok (.str text)
  | .arr items => (s.substituteItems items).map .arr
  | .obj fields => (s.substituteFields fields).map .obj
  | .null => .ok .null
  | .bool b => .ok (.bool b)
  | .num n => .ok (.num n)

def substituteItems (s : Storage) : List Json → Except Error (List Json)
  | [] => .ok []
  | v :: rest => do return (← s.substitute v) :: (← s.substituteItems rest)

def substituteFields (s : Storage) : List (String × Json) → Except Error (List (String × Json))
  | [] => .ok []
  | (k, v) :: rest => do return (k, ← s.substitute v) :: (← s.substituteFields rest)

end

/-- The storage as a listing shows it: its values, and its mixins by their names. -/
def listing (s : Storage) : String :=
  "Storage \x7b values: \x7b" ++ Text.joinWith ", " (Json.fieldListings s.values) ++ "\x7d, mixins: " ++
    Registry.sortedListing (s.mixins.map (·.1)) ++ " \x7d"

end Storage

end StyleTree
