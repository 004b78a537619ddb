import StyleTree.Error

/-! Compile options, and how they are read from a value. -/

namespace StyleTree

structure Options where
  /-- no line breaks and indentation -/
  minify : Bool := false
  /-- property names as authored -/
  keepCamelCase : Bool := false
  /-- rules that share declarations are grouped -/
  combineSelectors : Bool := true
  /-- properties that are never shared -/
  preventCombining : List String := []
  deriving DecidableEq, Repr

namespace Options

def minified (o : Options) : Options := { o with minify := true }

/-- Whether the property stays with its own selector. -/
def prevents (o : Options) (property : String) : Bool := o.preventCombining.contains property

/-! ### Reading -/

def readBool : Json → Except OptionFault Bool
  | .bool b => .ok b
  | v => .error (.wrongType v .boolean)

def readText : Json → Except OptionFault String
  | .str s => .ok s
  | v => .error (.wrongType v .text)

def readTexts : Json → Except OptionFault (List String)
  | .arr items => items.mapM readText
  | v => .error (.wrongType v .sequence)

def fieldNames : List String := ["minify", "keepCamelCase", "combineSelectors", "preventCombining"]

/-- The options with one of them read from a value. Other names are passed over. -/
def readField (o : Options) (name : String) (v : Json) : Except OptionFault Options :=
  match name with
  | "minify" => do return { o with minify := ← readBool v }
  | "keepCamelCase" => do return { o with keepCamelCase := ← readBool v }
  | "combineSelectors" => do return { o with combineSelectors := ← readBool v }
  | "preventCombining" => do return { o with preventCombining := ← readTexts v }
  | _ => .ok o

def readFields (o : Options) (fields : List (String × Json)) : Except OptionFault Options :=
  fields.foldlM (fun o e => o.readField e.1 e.2) o

/-- Options from a map by name, or from a list by place. What is missing keeps its default. -/
def read : Json → Except OptionFault Options
  | .obj fields => readFields {} fields
  | .arr items => do
    let o ← readFields {} (fieldNames.zip items)
    if items.length ≤ fieldNames.length then .ok o else .error (.tooLong items.length)
  | v => .error (.wrongType v .options)

def ofValue (v : Json) : Except Error Options := (read v).mapError .invalidOptions

end Options

end StyleTree
