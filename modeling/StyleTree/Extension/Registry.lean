import StyleTree.Json.Printer

/-! Extensions by name. An extension turns its argument, which may be any value, into a fragment that is
    merged into the block where it is invoked. A key that is no registered name is an ordinary key. -/

namespace StyleTree

/-- A total function from an argument to a fragment. -/
abbrev Extension := Json → Json

structure Registry where
  entries : List (String × Extension) := []

namespace Registry

def get? (r : Registry) (name : String) : Option Extension := Assoc.get? r.entries name

def contains (r : Registry) (name : String) : Bool := (r.get? name).isSome

/-- The registry with an extension under a name, in the place of the old one. -/
def register (r : Registry) (name : String) (f : Extension) : Registry := ⟨Assoc.put r.entries name f⟩

def size (r : Registry) : Nat := r.entries.length

def isEmpty (r : Registry) : Bool := r.entries.isEmpty

def names (r : Registry) : List String := r.entries.map (·.1)

/-- The sorted names in quotes, as a list. -/
def sortedListing (names : List String) : String :=
  "[" ++ Text.joinWith ", " ((names.mergeSort fun a b => decide (a ≤ b)).map Text.quote) ++ "]"

/-- The registry as a listing shows it: by its names. -/
def listing (r : Registry) : String := "Registry \x7b extensions: " ++ sortedListing r.names ++ " \x7d"

theorem get?_register (r : Registry) (name name' : String) (f : Extension) :
    (r.register name f).get? name' = if name = name' then some f else r.get? name' :=
  Assoc.get?_put r.entries name name' f

end Registry

end StyleTree
