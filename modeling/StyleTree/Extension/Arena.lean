import StyleTree.Document.Arena
import StyleTree.Extension.Expand

/-! Resolution in an arena. It works on the nodes where they stand: an invocation is taken out of the node that is
    resolved, the result is merged into this node, and what it needs for that gets the next free numbers. When
    no invocation is left it goes on to the children that are there then.

    A run is stated step by step, so that nothing has to be known of an arena to speak of its runs. That they end, with
    one outcome, is shown where the links of the arena are sound. What is warned of is not part of a run; it is
    reported by `Registry.resolve`, which resolves trees. -/

namespace StyleTree.Arena

/-! ### Invocations -/

/-- The depths of the keys that expansions touched in one node, the latest first. -/
abbrev Depths := List (String × Nat)

namespace Depths

/-- A key that no expansion touched is as deep as its node. -/
def depthOf (depths : Depths) (base : Nat) (key : String) : Nat := (Assoc.get? depths key).getD base

def mark (depths : Depths) (fragment : Json) (depth : Nat) : Depths := fragment.fragmentKeys.map (·, depth) ++ depths

end Depths

/-- An invocation: the name, its extension, the argument, and the arena without it, with a slot in the place of a
    declaration. -/
structure Invocation where
  name : String
  extension : Extension
  argument : Json
  rest : Arena
  slot : Option Nat

def Invocation.fragment (inv : Invocation) : Json := inv.extension inv.argument

/-- The first of the nodes that has a registered key. -/
def firstInvoked? (a : Arena) (r : Registry) : List Nat → Option (Nat × Extension)
  | [] => none
  | c :: rest =>
    match r.get? (a.node c).key with
    | some f => some (c, f)
    | none => a.firstInvoked? r rest

/-- The next invocation in a node: the first among the declarations, or else the first among the children. -/
def invocation? (a : Arena) (r : Registry) (id : Nat) : Option Invocation :=
  match r.firstDeclared? 0 (a.node id).declarations with
  | some (i, name, value, f) => some ⟨name, f, value, a.erase id name, some i⟩
  | none =>
    match a.firstInvoked? r (a.childIds id) with
    | some (c, f) => some ⟨(a.node c).key, f, a.toValue c, a.detach id c, none⟩
    | none => none

/-- The arena with a result merged into the node. A result that is no fragment leaves no trace. -/
def mergeFragment (a : Arena) (id : Nat) (slot : Option Nat) : Json → Arena
  | .obj fields => (a.mergeFields id slot fields).1
  | .arr items => if Json.isSequence items then (a.mergeItems id slot items).1 else a
  | _ => a

/-! ### Runs -/

/-- A run of the expansions of one node, and its outcome. -/
inductive Expands (r : Registry) (base id : Nat) : Arena → Depths → Except Error (Arena × Depths) → Prop
  | done {a depths} : a.invocation? r id = none → Expands r base id a depths (.ok (a, depths))
  | step {a depths inv out} : a.invocation? r id = some inv → depths.depthOf base inv.name < maxDepth →
      Expands r base id (inv.rest.mergeFragment id inv.slot inv.fragment)
        (depths.mark inv.fragment (depths.depthOf base inv.name + 1)) out → Expands r base id a depths out
  | tooDeep {a depths inv} : a.invocation? r id = some inv → maxDepth ≤ depths.depthOf base inv.name →
      Expands r base id a depths (.error (.cyclicExtension inv.name (depths.depthOf base inv.name)))

/-- What there is to resolve: a node at a depth, or nodes one after the other, each at the depth of its key. -/
inductive Task where
  | node (base id : Nat)
  | each (depthOf : String → Nat) (ids : List Nat)

/-- A run of the resolution, and its outcome. It stops at the first failure. -/
inductive Runs (r : Registry) : Task → Arena → Except Error Arena → Prop
  | stuck {base id a fault} : Expands r base id a [] (.error fault) → Runs r (.node base id) a (.error fault)
  | expanded {base id a a' depths out} : Expands r base id a [] (.ok (a', depths)) →
      Runs r (.each (depths.depthOf base) (a'.childIds id)) a' out → Runs r (.node base id) a out
  | done {depthOf a} : Runs r (.each depthOf []) a (.ok a)
  | failed {depthOf c rest a fault} : Runs r (.node (depthOf (a.node c).key) c) a (.error fault) →
      Runs r (.each depthOf (c :: rest)) a (.error fault)
  | next {depthOf c rest a a' out} : Runs r (.node (depthOf (a.node c).key) c) a (.ok a') →
      Runs r (.each depthOf rest) a' out → Runs r (.each depthOf (c :: rest)) a out

/-- The resolution of a document, and its outcome. -/
inductive Resolves (r : Registry) (a : Arena) : Except Error Arena → Prop
  | unregistered : r.isEmpty = true → Resolves r a (.ok a)
  | run {out} : r.isEmpty = false → Runs r (.node 0 root) a out → Resolves r a out

end StyleTree.Arena
