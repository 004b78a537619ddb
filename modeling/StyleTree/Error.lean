import StyleTree.Json.Printer

/-! Everything that can go wrong, by cause, and everything a run warns of. The wording of a cause is in
    one place, `Error.message`. -/

namespace StyleTree

inductive KeyFault where
  /-- a closing bracket without its opening one -/
  | unbalanced (bracket : Char)
  | unclosedQuote (quote : Char)
  | unclosedBracket (bracket : Char)
  /-- nothing but blanks between the commas -/
  | empty
  deriving DecidableEq, Repr

def KeyFault.message : KeyFault → String
  | .unbalanced c => "unbalanced '" ++ c.toString ++ "'"
  | .unclosedQuote c => "unclosed quote " ++ c.toString
  | .unclosedBracket c => "unclosed '" ++ c.toString ++ "'"
  | .empty => "empty selector"

inductive FragmentFault where
  /-- neither a map nor a sequence of maps -/
  | notRules (found : Json)
  /-- stored entries that are no map -/
  | notEntries
  deriving DecidableEq, Repr

def FragmentFault.message : FragmentFault → String
  | .notRules found => "expected a map or a sequence of maps, found " ++ found.kind
  | .notEntries => "storage entries must be given as a map"

/-- What a part of the compile options has to be. -/
inductive OptionShape where
  | boolean
  | sequence
  | text
  | options
  deriving DecidableEq, Repr

def OptionShape.message : OptionShape → String
  | .boolean => "a boolean"
  | .sequence => "a sequence"
  | .text => "a string"
  | .options => "struct CompileOptions"

inductive OptionFault where
  | wrongType (found : Json) (expected : OptionShape)
  /-- a list with more items than there are options -/
  | tooLong (length : Nat)
  deriving DecidableEq, Repr

/-- How a message shows a value of the wrong type. -/
def Json.asFound : Json → String
  | .null => "null"
  | .bool true => "boolean `true`"
  | .bool false => "boolean `false`"
  | .num (.int n) => "integer `" ++ (Number.int n).text ++ "`"
  | .num (.float x) => "floating point `" ++ x.text ++ "`"
  | .str s => "string " ++ Text.quote s
  | .arr _ => "sequence"
  | .obj _ => "map"

def OptionFault.message : OptionFault → String
  | .wrongType found expected => "invalid type: " ++ found.asFound ++ ", expected " ++ expected.message
  | .tooLong n => "invalid length " ++ (Number.int n).text ++ ", expected fewer elements in array"

inductive FileFault where
  | missing
  | isDirectory
  | notDirectory
  | notText
  | nulInName
  deriving DecidableEq, Repr

def FileFault.message : FileFault → String
  | .missing => "No such file or directory (os error 2)"
  | .isDirectory => "Is a directory (os error 21)"
  | .notDirectory => "Not a directory (os error 20)"
  | .notText => "stream did not contain valid UTF-8"
  | .nulInName => "file name contained an unexpected NUL byte"

/-- The keys from the root of a document down to one of its nodes, outermost first. -/
abbrev KeyPath := List String

def KeyPath.text (path : KeyPath) : String :=
  if path.isEmpty then "<root>" else Text.joinWith " > " path

/-- Every way a compilation, or the loading of its input, can fail. -/
inductive Error where
  | malformedKey (key : String) (path : KeyPath) (fault : KeyFault)
  | cyclicExtension (name : String) (depth : Nat)
  | invalidFragment (fault : FragmentFault)
  | invalidOptions (fault : OptionFault)
  | unknownStorage (name : String)
  | unreadable (path : String) (fault : FileFault)
  | invalidJson (path : String)
  | recursiveImport (path : String)
  deriving DecidableEq, Repr

def Error.message : Error → String
  | .malformedKey key path fault =>
    "malformed key '" ++ key ++ "' at " ++ path.text ++ ": " ++ fault.message
  | .cyclicExtension name depth =>
    "extension '" ++ name ++ "' is still expanding at depth " ++ (Number.int depth).text ++
      "; it probably invokes itself"
  | .invalidFragment fault => "invalid fragment: " ++ fault.message
  | .invalidOptions fault => "invalid compile options: " ++ fault.message
  | .unknownStorage name => "unknown storage entry '" ++ name ++ "'"
  | .unreadable path fault => "failed to read " ++ path ++ ": " ++ fault.message
  | .invalidJson path => "invalid JSON in " ++ path
  | .recursiveImport path => "recursive import detected: " ++ path

/-- What a run goes on after. -/
inductive Warning where
  /-- a declaration that stands below no selector -/
  | droppedDeclaration (property : String) (path : KeyPath)
  /-- the result of an extension that is no fragment -/
  | ignoredResult (extension : String) (result : Json)
  deriving DecidableEq, Repr

def Warning.message : Warning → String
  | .droppedDeclaration _ _ => "declaration outside of any selector dropped"
  | .ignoredResult _ result => "extension returned " ++ result.kind ++ " instead of a map; ignoring it"

def Warning.details : Warning → List (String × String)
  | .droppedDeclaration property path => [("property", property), ("at", path.text)]
  | .ignoredResult name _ => [("extension", name)]

/-! ### Results with warnings -/

/-- A result together with the warnings on the way to it. A failure keeps the warnings before it. -/
structure Report (α : Type) where
  warnings : List Warning
  result : Except Error α

namespace Report

variable {α β : Type}

def ofResult (r : Except Error α) : Report α := ⟨[], r⟩

def fail (e : Error) : Report α := ofResult (.error e)

def warnAll (ws : List Warning) : Report Unit := ⟨ws, .ok ()⟩

/-- The second report goes on from the result of the first. -/
def bind (r : Report α) (f : α → Report β) : Report β :=
  match r.result with
  | .error e => ⟨r.warnings, .error e⟩
  | .ok a => ⟨r.warnings ++ (f a).warnings, (f a).result⟩

instance : Monad Report where
  pure a := ofResult (.ok a)
  bind := bind

@[simp] theorem result_pure (a : α) : (pure a : Report α).result = .ok a := rfl

@[simp] theorem warnings_pure (a : α) : (pure a : Report α).warnings = [] := rfl

@[simp] theorem result_bind (r : Report α) (f : α → Report β) :
    (r >>= f).result = r.result.bind fun a => (f a).result := by
  rcases r with ⟨ws, _ | a⟩ <;> rfl

theorem map_eq_ok_iff {x : Except Error α} {g : α → β} {b : β} : x.map g = .ok b ↔ ∃ a, x = .ok a ∧ g a = b := by
  cases x <;> simp [Except.map]

theorem map_eq_error_iff {x : Except Error α} {g : α → β} {e : Error} : x.map g = .error e ↔ x = .error e := by
  cases x <;> simp [Except.map]

theorem warnings_bind (r : Report α) (f : α → Report β) :
    (r >>= f).warnings = r.warnings ++ (match r.result with | .ok a => (f a).warnings | .error _ => []) := by
  rcases r with ⟨ws, e | a⟩
  · exact (List.append_nil ws).symm
  · rfl

instance : LawfulMonad Report := LawfulMonad.mk' Report
  (fun r => by rcases r with ⟨ws, _ | a⟩ <;> simp [Functor.map, bind, ofResult])
  (fun _ _ => rfl)
  (fun r f g => by
    rcases r with ⟨ws, e | a⟩
    · rfl
    · rcases h : f a with ⟨vs, e | b⟩ <;> simp [Bind.bind, bind, h])

end Report

end StyleTree
