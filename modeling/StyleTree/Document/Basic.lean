import StyleTree.Error

/-! Documents: trees of keyed blocks. A block holds declarations, which are the values of the tree that
    stand for themselves, and below them children, each a block under its key or a raw text. The root of
    a document is a block without a key.

    This is what a document says. How it stands in one list of nodes, with links between them, is `Arena`. -/

namespace StyleTree

/-- A child of a block: a text that is emitted as it stands, or a block under its authored key. -/
inductive Node where
  | raw (text : String)
  | rule (key : String) (declarations : List (String × Json)) (children : List Node)
  deriving Repr

/-- Declarations in the order of first writing, and children in the order of first opening. -/
structure Block where
  declarations : List (String × Json) := []
  children : List Node := []
  deriving Repr

abbrev Document := Block

namespace Node

def ofBlock (key : String) (b : Block) : Node := .rule key b.declarations b.children

/-- The key of a block; a raw text has none. -/
def key? : Node → Option String
  | .raw _ => none
  | .rule key _ _ => some key

def hasKey (key : String) (n : Node) : Bool := n.key? == some key

def block? : Node → Option Block
  | .raw _ => none
  | .rule _ declarations children => some ⟨declarations, children⟩

@[simp] theorem key?_ofBlock (key : String) (b : Block) : (ofBlock key b).key? = some key := rfl

@[simp] theorem block?_ofBlock (key : String) (b : Block) : (ofBlock key b).block? = some b := rfl

end Node

namespace Block

def isEmpty (b : Block) : Bool := b.declarations.isEmpty && b.children.isEmpty

def declared (b : Block) : List String := b.declarations.map (·.1)

def childKeys (b : Block) : List String := b.children.filterMap Node.key?

def keys (b : Block) : List String := b.declared ++ b.childKeys

def hasChild (b : Block) (key : String) : Bool := b.children.any (Node.hasKey key)

def child? (b : Block) (key : String) : Option Block := (b.children.find? (Node.hasKey key)).bind Node.block?

def detach (b : Block) (key : String) : Block :=
  { b with children := b.children.filter fun n => !n.hasKey key }

/-- The block with a raw text as its last child. -/
def pushRaw (b : Block) (text : String) : Block := { b with children := b.children ++ [.raw text] }

/-! ### Places -/

def at? (b : Block) : KeyPath → Option Block
  | [] => some b
  | key :: rest => do (← b.child? key).at? rest

/-- The children with the first block under `key` changed by `f`. -/
def mapChild (key : String) (f : Block → Block) : List Node → List Node
  | [] => []
  | .raw text :: rest => .raw text :: mapChild key f rest
  | .rule k ds cs :: rest =>
    if k = key then .ofBlock key (f ⟨ds, cs⟩) :: rest else .rule k ds cs :: mapChild key f rest

/-- The document with the block that the keys lead to changed by `f`. -/
def modifyAt (f : Block → Block) : KeyPath → Block → Block
  | [], b => f b
  | key :: rest, b => { b with children := mapChild key (modifyAt f rest) b.children }

/-! ### Reading back -/

end Block

mutual

/-- The field a child stands for: the map of its block under its key. -/
def Node.field? : Node → Option (String × Json)
  | .raw _ => none
  | .rule key declarations children => some (key, .obj (declarations ++ Node.fields children))

def Node.fields : List Node → List (String × Json)
  | [] => []
  | n :: rest => (Node.field? n).toList ++ Node.fields rest

end

/-- The map of a block: its declarations and then its child blocks. Raw texts have no place in it. -/
def Block.toValue (b : Block) : Json := .obj (b.declarations ++ Node.fields b.children)

theorem Node.field?_ofBlock (key : String) (b : Block) : (Node.ofBlock key b).field? = some (key, b.toValue) := by
  rw [Node.ofBlock, Node.field?, Block.toValue]

end StyleTree
