import StyleTree.Json.Basic
import StyleTree.Sheet.RuleTable
import StyleTree.Text.Join

/-! Stylesheets before grouping: the rule table of the root, and one for each chain of at-rule
    conditions, in the order of first encounter. -/

namespace StyleTree

/-- The headers of the at-rules around a rule, outermost first. -/
abbrev Chain := List String

structure Stylesheet where
  root : RuleTable := {}
  buckets : List (Chain × RuleTable) := []
  deriving DecidableEq, Repr

namespace Stylesheet

/-- The buckets with the one of `chain` changed by `f`, at the end if it is new. -/
def updateBuckets (chain : Chain) (f : RuleTable → RuleTable) : List (Chain × RuleTable) → List (Chain × RuleTable)
  | [] => [(chain, f {})]
  | (c, t) :: rest => if c = chain then (c, f t) :: rest else (c, t) :: updateBuckets chain f rest

/-- The sheet with the table of a chain changed by `f`. The empty chain is that of the root. -/
def update (s : Stylesheet) (chain : Chain) (f : RuleTable → RuleTable) : Stylesheet :=
  if chain = [] then { s with root := f s.root }
  else { s with buckets := updateBuckets chain f s.buckets }

def bucket? (s : Stylesheet) (chain : Chain) : Option RuleTable := Assoc.get? s.buckets chain

/-- The table of a chain, empty if nothing is known of it. -/
def table (s : Stylesheet) (chain : Chain) : RuleTable :=
  if chain = [] then s.root else (s.bucket? chain).getD {}

end Stylesheet

/-! ### Snapshots -/

def RuleTable.toJson (t : RuleTable) : Json :=
  .obj (t.rules.map fun r => (r.1, .obj (r.2.map fun d => (d.1, .str d.2))))

namespace Stylesheet

/-- The key of the root in a snapshot. -/
def rootName : String := "mainstream"

/-- The tables by name: that of the root, and each bucket under the headers of its chain behind
    blanks. -/
def fields (s : Stylesheet) : List (String × Json) :=
  (rootName, s.root.toJson) :: s.buckets.map fun b => (Text.joinWith " " b.1, b.2.toJson)

/-- The tables as one JSON text, each under its name. -/
def toStream (s : Stylesheet) : Json := .obj s.fields

/-- The tables as a map. Of several under one name the last stands in the place of the first. -/
def snapshot (s : Stylesheet) : Json := .obj (Assoc.ofEntries s.fields)

end Stylesheet

end StyleTree
