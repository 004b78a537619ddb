import StyleTree.Options
import StyleTree.Sheet.Unit

/-! Grouping rules that share declarations.

    Two rules share a declaration if both hold the same property with the same value. The rules of a table
    are taken in order, and in each rule its declarations. A declaration that other rules share becomes a
    group with all the rules that can emit it now, and the group takes in every later declaration of the
    rule that exactly the same rules can emit. What nobody shares goes to a solo unit of the rule.

    Properties overlap where one is a shorthand of the other, as `margin` of `margin-top`. The order of
    overlapping declarations of a rule matters, so a rule can emit a declaration only if of those that
    overlap it the ones before it are out and the ones behind it are not. -/

namespace StyleTree.Grouping

/-! ### Overlap -/

/-- Whether `long` is `short` followed by a hyphen and more. -/
def isShorthandOf (short long : String) : Bool := (short.toList ++ ['-']).isPrefixOf long.toList

/-- Whether the properties are equal or one is a shorthand of the other. -/
def overlaps (a b : String) : Bool := a == b || isShorthandOf a b || isShorthandOf b a

/-! ### Carriers -/

/-- The declarations emitted so far: the place of the rule in the table, and the property. -/
abbrev Emitted := List (Nat × String)

def Emitted.mark (emitted : Emitted) (members : List Nat) (property : String) : Emitted :=
  members.map (·, property) ++ emitted

/-- Whether an entry shares the declaration: it holds it, and its selector and the property may be
    grouped. Rules of at-rules such as `@font-face` stand alone. -/
def carries (o : Options) (property value : String) : Entry → Bool
  | .raw _ => false
  | .rule selector declarations =>
    o.combineSelectors && selector.toList.head? != some '@' && !o.prevents property &&
      Assoc.get? declarations property == some value

/-- Whether emitting `property` now keeps the order of the declarations that overlap it. -/
def inOrder (isEmitted : String → Bool) (declarations : List (String × String)) (property : String) : Bool :=
  (declarations.takeWhile (·.1 ≠ property)).all (fun d => !overlaps d.1 property || isEmitted d.1) &&
    (declarations.dropWhile (·.1 ≠ property)).all fun d =>
      d.1 == property || !overlaps d.1 property || !isEmitted d.1

/-- Whether the entry at place `j` can emit the declaration now. -/
def canEmit (o : Options) (emitted : Emitted) (property value : String) (j : Nat) (e : Entry) : Bool :=
  carries o property value e && !emitted.contains (j, property) &&
    inOrder (fun p => emitted.contains (j, p)) (e.declarations?.getD []) property

/-- The places, from `i` on, of the rules that can emit the declaration now. -/
def eligible (o : Options) (t : RuleTable) (emitted : Emitted) (i : Nat) (property value : String) : List Nat :=
  t.entries.zipIdx.filterMap fun (e, j) => if i ≤ j && canEmit o emitted property value j e then some j else none

/-! ### Progress -/

/-- How far the grouping has come: the declarations emitted, the units that no longer change, and of the
    rule at hand its latest solo unit, which may still grow, and the groups behind it. -/
structure Progress where
  emitted : Emitted := []
  settled : List SheetUnit := []
  solo : Option StyleRule := none
  groups : List StyleRule := []
  deriving DecidableEq, Repr

namespace Progress

def units (p : Progress) : List SheetUnit :=
  p.settled ++ p.solo.toList.map SheetUnit.solo ++ p.groups.map SheetUnit.group

def settle (p : Progress) : Progress := { p with settled := p.units, solo := none, groups := [] }

def pushRaw (p : Progress) (text : String) : Progress := { p with settled := p.settled ++ [.raw text] }

/-- Whether the declaration needs a new solo unit: there is none, or a group behind it holds a property
    that overlaps. -/
def needsSolo (p : Progress) (property : String) : Bool :=
  p.solo.isNone || p.groups.any fun g => g.properties.any (overlaps · property)

/-- The declaration goes to the solo unit of the rule at place `i`. -/
def pushSolo (p : Progress) (i : Nat) (selector property value : String) : Progress :=
  let q := if p.needsSolo property then { p.settle with solo := some ⟨[selector], []⟩ } else p
  { q with solo := q.solo.map (·.push property value), emitted := q.emitted.mark [i] property }

/-- A new group comes last. -/
def pushGroup (p : Progress) (emitted : Emitted) (rule : StyleRule) : Progress :=
  { p with emitted := emitted, groups := p.groups ++ [rule] }

end Progress

/-! ### Steps -/

/-- A group takes in one more declaration of its first rule, if exactly its members can emit it. -/
def extendGroup (o : Options) (t : RuleTable) (i : Nat) (members : List Nat) (s : Emitted × StyleRule)
    (d : String × String) : Emitted × StyleRule :=
  if s.1.contains (i, d.1) || eligible o t s.1 i d.1 d.2 != members then s
  else (s.1.mark members d.1, s.2.push d.1 d.2)

/-- The group of a declaration and of all it takes in. -/
def makeGroup (o : Options) (t : RuleTable) (i : Nat) (declarations : List (String × String)) (emitted : Emitted)
    (members : List Nat) (property value : String) : Emitted × StyleRule :=
  declarations.foldl (extendGroup o t i members)
    (emitted.mark members property, ⟨members.filterMap t.selectorAt?, [(property, value)]⟩)

def emitDeclaration (o : Options) (t : RuleTable) (i : Nat) (selector : String)
    (declarations : List (String × String)) (p : Progress) (d : String × String) : Progress :=
  if p.emitted.contains (i, d.1) then p
  else
    let members := eligible o t p.emitted i d.1 d.2
    if members.length < 2 || members.head? != some i then p.pushSolo i selector d.1 d.2
    else
      let (emitted, rule) := makeGroup o t i declarations p.emitted members d.1 d.2
      p.pushGroup emitted rule

def emitEntry (o : Options) (t : RuleTable) (p : Progress) : Entry × Nat → Progress
  | (.raw text, _) => p.pushRaw text
  | (.rule selector declarations, i) => (declarations.foldl (emitDeclaration o t i selector declarations) p).settle

def units (t : RuleTable) (o : Options) : List SheetUnit :=
  (t.entries.zipIdx.foldl (emitEntry o t) {}).units

/-- The units of every table of a sheet. -/
def sheet (s : Stylesheet) (o : Options) : GroupedSheet where
  root := units s.root o
  atRules := s.buckets.map fun b => ⟨b.1, units b.2 o⟩

end StyleTree.Grouping
