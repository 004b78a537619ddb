import StyleTree.Document.Merge
import StyleTree.Extension.Resolve
import StyleTree.Sheet.Css
import StyleTree.Sheet.Grouping
import StyleTree.Sheet.Walk
import StyleTree.Storage

/-! A compiler: the document that submissions have built up, with the extensions, the stored values and
    the options it is compiled with. The document stays as it is through any number of compilations. -/

namespace StyleTree

structure Compiler where
  document : Document := {}
  registry : Registry := {}
  storage : Storage := {}
  options : Options := {}

namespace Compiler

def add (c : Compiler) (fragment : Json) : Except Error Compiler :=
  (c.document.merge fragment).map fun d => { c with document := d }

/-- The compiler with a text that is emitted as it stands at this point of the root. -/
def raw (c : Compiler) (text : String) : Compiler := { c with document := c.document.pushRaw text }

def plugin (c : Compiler) (name : String) (f : Extension) : Compiler :=
  { c with registry := c.registry.register name f }

def mixin (c : Compiler) (name : String) (f : Mixin) : Compiler := { c with storage := c.storage.setMixin name f }

def flush (c : Compiler) : Compiler := { c with document := {} }

/-- A new compiler with the extensions of this one. -/
def fork (c : Compiler) : Compiler := { registry := c.registry }

def resolved (c : Compiler) : Report Document := c.registry.resolve c.document

def rules (c : Compiler) (o : Options) : Report Stylesheet := do Stylesheet.build (← c.resolved) o

def grouped (c : Compiler) (o : Options) : Report GroupedSheet := do return Grouping.sheet (← c.rules o) o

def compile (c : Compiler) (o : Options) : Report String := do return (← c.grouped o).css o.minify

/-- The rule tables as a map, by the compiler's own options. -/
def snapshot (c : Compiler) : Report Json := do return (← c.rules c.options).snapshot

end Compiler

end StyleTree
