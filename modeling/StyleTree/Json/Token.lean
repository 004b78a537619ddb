import StyleTree.Json.Basic

/-! The tokens of a JSON text. The scanner takes one character at a time, so that a text is a fold over
    its characters; what a character means depends only on the token it stands in. -/

namespace StyleTree.Json

/-- A token: a bracket or mark, a text, or a value without parts. -/
inductive Token where
  | beginList
  | endList
  | beginMap
  | endMap
  | comma
  | colon
  | text (s : String)
  | atom (v : Json)
  deriving Repr, DecidableEq

namespace Token

/-- Where the scanner stands. Characters and tokens already read are held in reverse. -/
inductive Mode where
  /-- between two tokens -/
  | between
  /-- inside a number or a name -/
  | word (read : List Char)
  /-- inside a text -/
  | text (read : List Char)
  /-- behind a backslash inside a text -/
  | escape (read : List Char)
  /-- inside the four hexadecimal digits of a code unit; `high` is the first unit of a pair -/
  | unit (read : List Char) (high : Option Nat) (value count : Nat)
  /-- behind the first unit of a pair, where a backslash and then a letter must follow -/
  | pair (read : List Char) (high : Nat) (backslash : Bool)

/-- The scanner: the tokens read so far, last one first, and where it stands. -/
structure Scan where
  tokens : List Token
  mode : Mode

def isSpace (c : Char) : Bool := c == ' ' || c == '\t' || c == '\n' || c == '\r'

def isWordChar (c : Char) : Bool := c.isAlphanum || c == '+' || c == '-' || c == '.'

def ofWord? (cs : List Char) : Option Token :=
  if cs = "null".toList then some (.atom .null)
  else if cs = "true".toList then some (.atom (.bool true))
  else if cs = "false".toList then some (.atom (.bool false))
  else (Number.read? cs).map fun n => .atom (.num n)

def ofMark? (c : Char) : Option Token :=
  match c with
  | '[' => some .beginList
  | ']' => some .endList
  | '\x7b' => some .beginMap
  | '\x7d' => some .endMap
  | ',' => some .comma
  | ':' => some .colon
  | _ => none

/-- The character a backslash and a letter stand for. -/
def unescape? (c : Char) : Option Char :=
  match c with
  | '"' => some '"'
  | '\\' => some '\\'
  | '/' => some '/'
  | 'b' => some '\x08'
  | 'f' => some '\x0c'
  | 'n' => some '\n'
  | 'r' => some '\r'
  | 't' => some '\t'
  | _ => none

def hexDigit? (c : Char) : Option Nat :=
  if '0' ≤ c ∧ c ≤ '9' then some (c.toNat - '0'.toNat)
  else if 'a' ≤ c ∧ c ≤ 'f' then some (c.toNat - 'a'.toNat + 10)
  else if 'A' ≤ c ∧ c ≤ 'F' then some (c.toNat - 'A'.toNat + 10)
  else none

def Scan.open? (tokens : List Token) (c : Char) : Option Scan :=
  if isSpace c then some ⟨tokens, .between⟩
  else if c = '"' then some ⟨tokens, .text []⟩
  else if isWordChar c then some ⟨tokens, .word [c]⟩
  else (ofMark? c).map fun t => ⟨t :: tokens, .between⟩

/-- A whole code unit. The first unit of a pair waits for the second, and neither stands alone. -/
def Scan.unit? (tokens : List Token) (read : List Char) (high : Option Nat) (value : Nat) : Option Scan :=
  match high with
  | none =>
    if 0xd800 ≤ value ∧ value < 0xdc00 then some ⟨tokens, .pair read value false⟩
    else if 0xdc00 ≤ value ∧ value < 0xe000 then none
    else some ⟨tokens, .text (Char.ofNat value :: read)⟩
  | some high =>
    if 0xdc00 ≤ value ∧ value < 0xe000 then
      some ⟨tokens, .text (Char.ofNat (0x10000 + (high - 0xd800) * 0x400 + (value - 0xdc00)) :: read)⟩
    else none

/-- One more character; `none` where no JSON text goes on like this. -/
def Scan.step? (s : Scan) (c : Char) : Option Scan :=
  match s.mode with
  | .between => Scan.open? s.tokens c
  | .word read =>
    if isWordChar c then some ⟨s.tokens, .word (c :: read)⟩
    else do Scan.open? ((← ofWord? read.reverse) :: s.tokens) c
  | .text read =>
    if c = '"' then some ⟨.text (String.ofList read.reverse) :: s.tokens, .between⟩
    else if c = '\\' then some ⟨s.tokens, .escape read⟩
    else if c.toNat < 32 then none
    else some ⟨s.tokens, .text (c :: read)⟩
  | .escape read =>
    if c = 'u' then some ⟨s.tokens, .unit read none 0 0⟩
    else (unescape? c).map fun d => ⟨s.tokens, .text (d :: read)⟩
  | .unit read high value count => do
    let value := value * 16 + (← hexDigit? c)
    if count = 3 then Scan.unit? s.tokens read high value
    else some ⟨s.tokens, .unit read high value (count + 1)⟩
  | .pair read high false => if c = '\\' then some ⟨s.tokens, .pair read high true⟩ else none
  | .pair read high true => if c = 'u' then some ⟨s.tokens, .unit read (some high) 0 0⟩ else none

/-- The tokens at the end of the text; `none` inside a text. -/
def Scan.finish? (s : Scan) : Option (List Token) :=
  match s.mode with
  | .between => some s.tokens.reverse
  | .word read => do return ((← ofWord? read.reverse) :: s.tokens).reverse
  | _ => none

def scan? (s : String) : Option (List Token) := do
  (← s.toList.foldlM Scan.step? ⟨[], .between⟩).finish?

end Token

end StyleTree.Json
