import StyleTree.Document.Basic
import StyleTree.Options
import StyleTree.Selector.Combine
import StyleTree.Selector.Kind
import StyleTree.Selector.Split
import StyleTree.Sheet.Property
import StyleTree.Sheet.Stylesheet

/-! The walk over a document. It meets the nodes from the root down, a node's declarations before its
    children, and turns each into events: the facts it states, the buckets it opens, the raw texts, the
    declarations it drops and the keys it cannot read. A stylesheet is what the events build up. -/

namespace StyleTree

/-! ### Places -/

/-- A place in the walk: the selector paths in effect, the at-rules around it, and the keys that lead to
    it. -/
structure Place where
  paths : List String := []
  chain : Chain := []
  keys : KeyPath := []
  deriving DecidableEq, Repr

/-- The place below a key. A selector extends the paths; a condition extends the chain and leaves the
    paths as they are; `@keyframes` extends the chain and starts without paths; any other at-rule is a
    path of its own. -/
def Place.enter (p : Place) (key : String) : Except KeyFault Place :=
  let keys := p.keys ++ [key]
  match Selector.keyKind key with
  | .conditional header => .ok ⟨p.paths, p.chain ++ [header], keys⟩
  | .keyframes header => .ok ⟨[], p.chain ++ [header], keys⟩
  | .standalone header => .ok ⟨[header], p.chain, keys⟩
  | .selector text => (Selector.splitAlternatives text).map fun alternatives =>
    ⟨Selector.combine p.paths alternatives, p.chain, keys⟩

/-! ### Events -/

inductive Event where
  /-- the bucket of a chain, from here on part of the sheet -/
  | bucket (chain : Chain)
  | fact (chain : Chain) (fact : Fact)
  | raw (chain : Chain) (text : String)
  /-- a declaration that stands below no selector -/
  | dropped (property : String) (path : KeyPath)
  /-- a selector key that does not split -/
  | malformed (key : String) (path : KeyPath) (fault : KeyFault)
  deriving DecidableEq, Repr

/-- The events of a declaration: nothing for a value without a text, and otherwise one fact for each
    path, or a drop where there is no path. -/
def Place.declarationEvents (p : Place) (keepCamelCase : Bool) (name : String) (value : Json) : List Event :=
  match value.cssText? with
  | none => []
  | some text =>
    if p.paths = [] then [.dropped name p.keys]
    else p.paths.map fun path => .fact p.chain ⟨path, propertyName name keepCamelCase, text⟩

/-- The bucket that opens on the way from `p` to the place `q` below it. -/
def Place.bucketEvents (p q : Place) : List Event := if q.chain = p.chain then [] else [.bucket q.chain]

mutual

/-- The events of a child and of all below it. Nothing below a key that does not split is met. -/
def Node.events (keepCamelCase : Bool) (p : Place) : Node → List Event
  | .raw text => [.raw p.chain text]
  | .rule key declarations children =>
    match p.enter key with
    | .error fault => [.malformed key (p.keys ++ [key]) fault]
    | .ok q =>
      p.bucketEvents q ++ declarations.flatMap (fun d => q.declarationEvents keepCamelCase d.1 d.2) ++
        Node.listEvents keepCamelCase q children

def Node.listEvents (keepCamelCase : Bool) (p : Place) : List Node → List Event
  | [] => []
  | n :: rest => Node.events keepCamelCase p n ++ Node.listEvents keepCamelCase p rest

end

/-- The events of a block and of all below it. -/
def Block.events (b : Block) (keepCamelCase : Bool) (p : Place) : List Event :=
  b.declarations.flatMap (fun d => p.declarationEvents keepCamelCase d.1 d.2) ++
    Node.listEvents keepCamelCase p b.children

/-! ### Recording -/

/-- The sheet with one more event. A key that does not split ends the walk. -/
def Stylesheet.record (s : Stylesheet) : Event → Except Error Stylesheet
  | .bucket chain => .ok (s.update chain id)
  | .fact chain f => .ok (s.update chain (·.apply f))
  | .raw chain text => .ok (s.update chain (·.pushRaw text))
  | .dropped _ _ => .ok s
  | .malformed key path fault => .error (.malformedKey key path fault)

/-- The sheet with the events, one after the other. -/
def Stylesheet.recordAll (s : Stylesheet) (events : List Event) : Except Error Stylesheet :=
  events.foldlM Stylesheet.record s

def Event.isMalformed : Event → Bool
  | .malformed _ _ _ => true
  | _ => false

/-- The warning about an event. -/
def Event.warning? : Event → Option Warning
  | .dropped property path => some (.droppedDeclaration property path)
  | _ => none

/-- The stylesheet of a resolved document, and warnings about what the walk drops before it ends. -/
def Stylesheet.build (d : Document) (o : Options) : Report Stylesheet :=
  let events := d.events o.keepCamelCase {}
  { warnings := (events.takeWhile fun e => !e.isMalformed).filterMap Event.warning?
    result := Stylesheet.recordAll {} events }

end StyleTree
