import StyleTree.Command.Arguments
import StyleTree.Compiler
import StyleTree.Files.Import

/-! Running the command line on a tree of files: the options are loaded first, then the stored values, then
    the inputs one by one, and the result is printed or written to a file. -/

namespace StyleTree.Command

/-- Why a build fails: a file that cannot be loaded or written, or anything later. -/
inductive Failure where
  | config (path : String) (cause : Error)
  | storage (path : String) (cause : Error)
  | input (path : String) (cause : Error)
  | output (path : String)
  | compile (cause : Error)
  deriving DecidableEq, Repr

def Failure.message : Failure → String
  | .config path _ => "failed to load options from " ++ path
  | .storage path _ => "failed to load storage from " ++ path
  | .input path _ => "failed to load " ++ path
  | .output path => "failed to write " ++ path
  | .compile cause => cause.message

namespace Build

/-- The options: those of the configuration file, if there is one, under the flags. -/
def options (b : Build) (t : FileTree) (cwd : Location) : Except Failure Options := do
  let o ← match b.config with
    | some path => (t.readOptions cwd path).mapError (.config path)
    | none => .ok {}
  return { o with
    minify := o.minify || b.minify
    keepCamelCase := o.keepCamelCase || b.keepCamelCase
    combineSelectors := o.combineSelectors && !b.noCombine }

def stored (b : Build) (t : FileTree) (cwd : Location) : Except Failure Storage :=
  match b.storage with
  | some path => (t.readStorage cwd path).mapError (.storage path)
  | none => .ok {}

/-- The compiler with a document in which the references are replaced. -/
def addDocument (s : Storage) (c : Compiler) (document : Json) : Except Failure Compiler :=
  (s.substitute document >>= c.add).mapError .compile

def addInputFile (t : FileTree) (cwd : Location) (s : Storage) (c : Compiler) (path : String) :
    Except Failure Compiler := do
  (← (Import.load t cwd path).mapError (.input path)).foldlM (addDocument s) c

def compiler (b : Build) (t : FileTree) (cwd : Location) : Except Failure Compiler := do
  let o ← b.options t cwd
  let s ← b.stored t cwd
  b.inputs.foldlM (addInputFile t cwd s) { options := o }

/-- The text that a build produces: the snapshot in lines, or the stylesheet. -/
def report (b : Build) (c : Compiler) : Report String :=
  if b.json then do return (← c.snapshot).prettyText ++ "\n" else c.compile c.options

def text (b : Build) (t : FileTree) (cwd : Location) : Except Failure String := do
  (b.report (← b.compiler t cwd)).result.mapError .compile

end Build

inductive Outcome where
  | usage (fault : UsageFault)
  | help
  | failed (failure : Failure)
  | printed (text : String)
  /-- the text is in the file at the path, in the tree given -/
  | written (path text : String) (tree : FileTree)

/-- Runs a request in the directory `cwd`. -/
def Request.run (t : FileTree) (cwd : Location) : Request → Outcome
  | .help => .help
  | .build b =>
    match b.text t cwd with
    | .error failure => .failed failure
    | .ok text =>
      match b.output with
      | none => .printed text
      | some path =>
        match t.write cwd path text with
        | .error _ => .failed (.output path)
        | .ok t => .written path text t

def run (t : FileTree) (cwd : Location) (arguments : List String) : Outcome :=
  match Request.parse arguments with
  | .error fault => .usage fault
  | .ok request => request.run t cwd

def Outcome.exitCode : Outcome → Nat
  | .usage _ => 2
  | .failed _ => 1
  | .help | .printed _ | .written _ _ _ => 0

end StyleTree.Command
