import StyleTree.Document.Merge

/-! Documents as arenas. All nodes of a document stand in one list and name each other by their numbers: a node
    has the numbers of its children, and the number of the node that it was opened under. A merge changes nodes
    where they stand and puts new ones at the end. A child that is detached keeps its number, but no node
    has it as a child any more.

    The block of a node is the tree below it. A number that is not taken is that of an empty node. -/

namespace StyleTree

namespace Arena

/-- A child of a node: the number of another node, or a raw text. -/
inductive Child where
  | node (id : Nat)
  | raw (text : String)
  deriving DecidableEq, Repr

def Child.id? : Child → Option Nat
  | .node id => some id
  | .raw _ => none

structure Node where
  key : String := ""
  parent : Option Nat := none
  declarations : List (String × Json) := []
  children : List Child := []
  deriving Repr

end Arena

structure Arena where
  nodes : List Arena.Node := [{}]
  deriving Repr

namespace Arena

/-- The number of the root, which is there from the start. -/
def root : Nat := 0

def size (a : Arena) : Nat := a.nodes.length

def node (a : Arena) (id : Nat) : Node := a.nodes.getD id {}

def modify (a : Arena) (id : Nat) (f : Node → Node) : Arena := ⟨a.nodes.modify id f⟩

def isEmpty (a : Arena) : Bool := (a.node root).declarations.isEmpty && (a.node root).children.isEmpty

def declared (a : Arena) (id : Nat) : List String := (a.node id).declarations.map (·.1)

def childIds (a : Arena) (id : Nat) : List Nat := (a.node id).children.filterMap Child.id?

def childKeys (a : Arena) (id : Nat) : List String := (a.childIds id).map fun c => (a.node c).key

/-! ### Links -/

/-- The first child of the node under a key. -/
def child? (a : Arena) (id : Nat) (key : String) : Option Nat :=
  (a.childIds id).find? fun c => (a.node c).key == key

/-- The node that the keys lead to, each looked up among the children of the node before. -/
def follow? (a : Arena) (id : Nat) : KeyPath → Option Nat
  | [] => some id
  | key :: rest => do a.follow? (← a.child? id key) rest

/-- The keys from the root down to a node, read off from the node upwards. A node is opened behind its parent,
    so every step upwards is one towards the front. -/
def keyPath (a : Arena) (id : Nat) : KeyPath :=
  match (a.node id).parent with
  | none => []
  | some p => (if _ : p < id then a.keyPath p else []) ++ [(a.node id).key]
termination_by id

/-- The map of a node: its declarations and the maps of its children. -/
def toValue (a : Arena) (id : Nat) : Json :=
  .obj ((a.childIds id).foldl (fun fields c =>
    Assoc.put fields (a.node c).key (if _ : id < c ∧ c < a.size then a.toValue c else .obj [])) (a.node id).declarations)
termination_by a.size - id

/-- The block of a node: its declarations and children, and what stands below them. -/
def block (a : Arena) (id : Nat) : Block :=
  ⟨(a.node id).declarations, (a.node id).children.map fun
    | .raw text => .raw text
    | .node c => .ofBlock (a.node c).key (if _ : id < c ∧ c < a.size then a.block c else {})⟩
termination_by a.size - id

/-! ### Changes -/

def clear (_ : Arena) : Arena := {}

/-- The arena without a child of a node. -/
def detach (a : Arena) (id child : Nat) : Arena :=
  a.modify id fun n => { n with children := n.children.filter fun c => c.id? ≠ some child }

def pushRaw (a : Arena) (text : String) : Arena :=
  a.modify root fun n => { n with children := n.children ++ [.raw text] }

/-- The arena with a declaration of a node taken out. -/
def erase (a : Arena) (id : Nat) (key : String) : Arena :=
  a.modify id fun n => { n with declarations := Assoc.erase n.declarations key }

/-- The arena with a new node at the end, and the node `id` with this as its last child. -/
def addChild (a : Arena) (id : Nat) (key : String) : Arena :=
  modify ⟨a.nodes ++ [{ key, parent := some id }]⟩ id fun n => { n with children := n.children ++ [.node a.size] }

/-- A slot behind the declaration of a name follows when this goes. -/
def slotWithout (declarations : List (String × Json)) (key : String) (slot : Option Nat) : Option Nat :=
  slot.map fun i =>
    match Assoc.indexOf? declarations key with
    | some j => if j < i then i - 1 else i
    | none => i

/-- The child of the node under a key, with the arena and the slot. Without such a child a new one comes last, and
    a declaration of that name goes. -/
def openChild (a : Arena) (id : Nat) (key : String) (slot : Option Nat) : Nat × Arena × Option Nat :=
  match a.child? id key with
  | some c => (c, a, slot)
  | none => (a.size, (a.erase id key).addChild id key, slotWithout (a.node id).declarations key slot)

/-- The arena without the child of the node under a key. -/
def closeChild (a : Arena) (id : Nat) (key : String) : Arena :=
  match a.child? id key with
  | some c => a.detach id c
  | none => a

/-- The arena in which the node has the declaration and no child of its name, and the slot. A name already declared
    keeps its place, and a new one goes into the slot. -/
def declare (a : Arena) (id : Nat) (key : String) (value : Json) (slot : Option Nat) : Arena × Option Nat :=
  let b := a.closeChild id key
  let declarations := (b.node id).declarations
  if Assoc.contains declarations key then
    (b.modify id fun n => { n with declarations := Assoc.put n.declarations key value }, slot)
  else
    match slot with
    | none => (b.modify id fun n => { n with declarations := n.declarations ++ [(key, value)] }, none)
    | some i =>
      let i := min i declarations.length
      (b.modify id fun n => { n with declarations := Assoc.insertAt n.declarations i key value }, some (i + 1))

/-! ### Merges -/

mutual

def mergeField (a : Arena) (id : Nat) (slot : Option Nat) (key : String) : Json → Arena × Option Nat
  | .obj fields =>
    let (c, a, slot) := a.openChild id key slot
    ((a.mergeFields c none fields).1, slot)
  | .arr items =>
    if Json.isSequence items then
      let (c, a, slot) := a.openChild id key slot
      ((a.mergeItems c none items).1, slot)
    else a.declare id key (.arr items) slot
  | .null => a.declare id key .null slot
  | .bool v => a.declare id key (.bool v) slot
  | .num v => a.declare id key (.num v) slot
  | .str v => a.declare id key (.str v) slot

/-- The arena with a map merged into a node, and the slot behind what went into it. -/
def mergeFields (a : Arena) (id : Nat) (slot : Option Nat) : List (String × Json) → Arena × Option Nat
  | [] => (a, slot)
  | (key, value) :: rest =>
    let (a, slot) := a.mergeField id slot key value
    a.mergeFields id slot rest

def mergeItems (a : Arena) (id : Nat) (slot : Option Nat) : List Json → Arena × Option Nat
  | [] => (a, slot)
  | .obj fields :: rest =>
    let (a, slot) := a.mergeFields id slot fields
    a.mergeItems id slot rest
  | .arr inner :: rest =>
    let (a, slot) := a.mergeItems id slot inner
    a.mergeItems id slot rest
  | _ :: rest => a.mergeItems id slot rest

end

/-- The document with one submission merged in. -/
def merge (a : Arena) (fragment : Json) : Except Error Arena :=
  match fragment with
  | .obj fields => .ok (a.mergeFields root none fields).1
  | .arr items =>
    if Json.isSequence items then .ok (a.mergeItems root none items).1
    else if items.isEmpty then .ok a
    else .error (.invalidFragment (.notRules fragment))
  | _ => .error (.invalidFragment (.notRules fragment))

end Arena

end StyleTree
