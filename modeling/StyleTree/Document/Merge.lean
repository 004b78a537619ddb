import StyleTree.Document.Basic

/-! Merging a fragment into a block. A fragment is a map, or a sequence of maps that are merged one after
    the other. Maps merge key by key and at every depth; any other value is a declaration, and the last
    one written under a key wins. A map takes the place of a declaration of its name, and a declaration
    that of a child.

    A merge may have a slot: a place among the declarations where new ones go in, one behind the other.
    Without a slot they go to the end. -/

namespace StyleTree

/-! ### Fragments -/

namespace Json

/-- Whether the items are maps, or lists of such items. -/
def onlyMaps : List Json → Bool
  | [] => true
  | .obj _ :: rest => onlyMaps rest
  | .arr inner :: rest => onlyMaps inner && onlyMaps rest
  | _ :: _ => false

/-- Whether a map is among the items, or in a list among them. -/
def someMap : List Json → Bool
  | [] => false
  | .obj _ :: _ => true
  | .arr inner :: rest => someMap inner || someMap rest
  | _ :: rest => someMap rest

/-- Whether a list is a sequence of maps: it holds nothing else, and at least one. Any other list, the
    empty one too, is a value of its own. -/
def isSequence (items : List Json) : Bool := onlyMaps items && someMap items

def isFragment : Json → Bool
  | .obj _ => true
  | .arr items => isSequence items
  | _ => false

/-- The maps of a sequence, those of nested sequences in their place. -/
def maps : List Json → List (List (String × Json))
  | [] => []
  | .obj fields :: rest => fields :: maps rest
  | .arr inner :: rest => maps inner ++ maps rest
  | _ :: rest => maps rest

end Json

/-! ### Slots -/

/-- A block under a merge, and the slot where new declarations go in. -/
structure Splice where
  block : Block
  slot : Option Nat := none

namespace Splice

/-- The block with the child under `key` changed by `f`. Without such a child a new one comes last, from
    the empty block, and a declaration of that name goes; a slot behind it follows. -/
def openChild (s : Splice) (key : String) (f : Block → Block) : Splice :=
  if s.block.hasChild key then
    { s with block := { s.block with children := Block.mapChild key f s.block.children } }
  else
    { block := ⟨Assoc.erase s.block.declarations key, s.block.children ++ [.ofBlock key (f {})]⟩
      slot := s.slot.map fun i =>
        match Assoc.indexOf? s.block.declarations key with
        | some j => if j < i then i - 1 else i
        | none => i }

/-- The block with the declaration and without a child of its name. A name already declared keeps its
    place, and a new one goes into the slot. -/
def declare (s : Splice) (key : String) (value : Json) : Splice :=
  let b := s.block.detach key
  if Assoc.contains b.declarations key then
    { s with block := { b with declarations := Assoc.put b.declarations key value } }
  else
    match s.slot with
    | none => { s with block := { b with declarations := b.declarations ++ [(key, value)] } }
    | some i =>
      let i := min i b.declarations.length
      { block := { b with declarations := Assoc.insertAt b.declarations i key value }, slot := some (i + 1) }

mutual

def mergeField (s : Splice) (key : String) : Json → Splice
  | .obj fields => s.openChild key fun b => (mergeFields ⟨b, none⟩ fields).block
  | .arr items =>
    if Json.isSequence items then s.openChild key fun b => (mergeItems ⟨b, none⟩ items).block
    else s.declare key (.arr items)
  | .null => s.declare key .null
  | .bool v => s.declare key (.bool v)
  | .num v => s.declare key (.num v)
  | .str v => s.declare key (.str v)

def mergeFields (s : Splice) : List (String × Json) → Splice
  | [] => s
  | (key, value) :: rest => mergeFields (mergeField s key value) rest

def mergeItems (s : Splice) : List Json → Splice
  | [] => s
  | .obj fields :: rest => mergeItems (mergeFields s fields) rest
  | .arr inner :: rest => mergeItems (mergeItems s inner) rest
  | _ :: rest => mergeItems s rest

end

end Splice

/-! ### Merges -/

namespace Block

def mergeFields (b : Block) (fields : List (String × Json)) : Block := (Splice.mergeFields ⟨b, none⟩ fields).block

def mergeItems (b : Block) (items : List Json) : Block := (Splice.mergeItems ⟨b, none⟩ items).block

/-- The document with one submission merged in. The empty list is a sequence of no maps. -/
def merge (b : Document) (fragment : Json) : Except Error Document :=
  match fragment with
  | .obj fields => .ok (b.mergeFields fields)
  | .arr items =>
    if Json.isSequence items then .ok (b.mergeItems items)
    else if items.isEmpty then .ok b
    else .error (.invalidFragment (.notRules fragment))
  | _ => .error (.invalidFragment (.notRules fragment))

end Block

end StyleTree
