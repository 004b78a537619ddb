import StyleTree.Json.Basic

/-! The arguments of the command line. There is one command, `build`, with flags, with options that take a
    value, and with at least one input. The value of an option is attached to it or is the next
    argument. -/

namespace StyleTree.Command

/-- What a build is asked for. -/
structure Build where
  inputs : List String := []
  output : Option String := none
  config : Option String := none
  storage : Option String := none
  minify : Bool := false
  keepCamelCase : Bool := false
  noCombine : Bool := false
  json : Bool := false
  deriving DecidableEq, Repr

inductive Request where
  | help
  | build (b : Build)
  deriving DecidableEq, Repr

/-- Why arguments make no request. -/
inductive UsageFault where
  | noCommand
  | noInput
  | unknown (argument : String)
  | repeated (argument : String)
  | noValue (argument : String)
  deriving DecidableEq, Repr

def UsageFault.message : UsageFault → String
  | .noCommand => "a command is required: build"
  | .noInput => "at least one input is required"
  | .unknown a => "unexpected argument '" ++ a ++ "'"
  | .repeated a => "the argument '" ++ a ++ "' cannot be used multiple times"
  | .noValue a => "a value is required for '" ++ a ++ "'"

/-! ### Single arguments -/

inductive Flag where
  | minify
  | keepCamelCase
  | noCombine
  | json
  deriving DecidableEq, Repr

inductive ValueOption where
  | output
  | config
  | storage
  deriving DecidableEq, Repr

/-- An argument by itself. An option may have its value attached. -/
inductive Argument where
  | verbose
  | help
  | flag (f : Flag)
  | option (o : ValueOption) (attached : Option String)
  | word (s : String)
  /-- two hyphens alone: words only from here on -/
  | wordsOnly
  | unknown
  deriving DecidableEq, Repr

/-- A long name, with what stands behind an equals sign. -/
def Argument.ofLong (name : String) (attached : Option String) : Argument :=
  match name, attached with
  | "verbose", none => .verbose
  | "help", none => .help
  | "minify", none => .flag .minify
  | "keep-camel-case", none => .flag .keepCamelCase
  | "no-combine", none => .flag .noCombine
  | "json", none => .flag .json
  | "output", v => .option .output v
  | "config", v => .option .config v
  | "storage", v => .option .storage v
  | _, _ => .unknown

/-- Short names, one behind the other. The value of an option is all that follows it, behind an equals
    sign or not. -/
def Argument.ofShorts : List Char → Argument
  | [] => .verbose
  | 'v' :: rest => ofShorts rest
  | 'h' :: _ => .help
  | ['o'] => .option .output none
  | 'o' :: '=' :: value => .option .output (some (String.ofList value))
  | 'o' :: value => .option .output (some (String.ofList value))
  | _ => .unknown

def Argument.ofString (s : String) : Argument :=
  match s.toList with
  | ['-', '-'] => .wordsOnly
  | '-' :: '-' :: rest =>
    let name := String.ofList (rest.takeWhile (· ≠ '='))
    match rest.dropWhile (· ≠ '=') with
    | [] => .ofLong name none
    | _ :: value => .ofLong name (some (String.ofList value))
  | '-' :: c :: rest => .ofShorts (c :: rest)
  | _ => .word s

/-! ### Requests -/

namespace Build

def setFlag (b : Build) (name : String) : Flag → Except UsageFault Build
  | .minify => if b.minify then .error (.repeated name) else .ok { b with minify := true }
  | .keepCamelCase => if b.keepCamelCase then .error (.repeated name) else .ok { b with keepCamelCase := true }
  | .noCombine => if b.noCombine then .error (.repeated name) else .ok { b with noCombine := true }
  | .json => if b.json then .error (.repeated name) else .ok { b with json := true }

/-- The build with the value of an option, which is given once at most and is not empty. -/
def setOption (b : Build) (name value : String) (o : ValueOption) : Except UsageFault Build :=
  if value = "" then .error (.noValue name)
  else
    match o with
    | .output => if b.output.isSome then .error (.repeated name) else .ok { b with output := some value }
    | .config => if b.config.isSome then .error (.repeated name) else .ok { b with config := some value }
    | .storage => if b.storage.isSome then .error (.repeated name) else .ok { b with storage := some value }

def addInput (b : Build) (s : String) : Except UsageFault Build :=
  if s = "" then .error (.noValue s) else .ok { b with inputs := b.inputs ++ [s] }

def finish (b : Build) : Except UsageFault Request :=
  if b.inputs.isEmpty then .error .noInput else .ok (.build b)

/-- Takes in the arguments behind the command. -/
def parse (b : Build) : List String → Except UsageFault Request
  | [] => b.finish
  | s :: rest =>
    match Argument.ofString s with
    | .verbose => parse b rest
    | .help => .ok .help
    | .flag f => do parse (← b.setFlag s f) rest
    | .option o (some value) => do parse (← b.setOption s value o) rest
    | .option o none =>
      match rest with
      | [] => .error (.noValue s)
      | value :: rest =>
        match Argument.ofString value with
        | .word value => do parse (← b.setOption s value o) rest
        | _ => .error (.noValue s)
    | .word w => do parse (← b.addInput w) rest
    | .wordsOnly => do (← rest.foldlM addInput b).finish
    | .unknown => .error (.unknown s)

end Build

def Request.parse : List String → Except UsageFault Request
  | [] => .error .noCommand
  | s :: rest =>
    match Argument.ofString s with
    | .verbose => parse rest
    | .help => .ok .help
    | .word "build" => Build.parse {} rest
    | .word "help" => if rest = [] ∨ rest = ["build"] then .ok .help else .error (.unknown s)
    | _ => .error (.unknown s)

end StyleTree.Command
