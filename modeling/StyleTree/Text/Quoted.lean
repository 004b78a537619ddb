import StyleTree.Text.Obscure

/-! Quoted texts: how a message or a listing shows a text so that every character of it can be read
    off. -/

namespace StyleTree.Text

def hexadecimal (n : Nat) : String :=
  String.ofList (Nat.toDigits 16 n)

/-- A character inside quotes: the short escapes where there is one, the code point where the
    character leaves no mark of its own, and the character itself otherwise. -/
def quoteChar (c : Char) : String :=
  if c = '\x00' then "\\0"
  else if c = '\t' then "\\t"
  else if c = '\r' then "\\r"
  else if c = '\n' then "\\n"
  else if c = '\\' then "\\\\"
  else if c = '"' then "\\\""
  else if isObscure c then "\\u\x7b" ++ hexadecimal c.toNat ++ "\x7d"
  else c.toString

/-- The text between double quotes, with its characters escaped. -/
def quote (s : String) : String :=
  "\"" ++ String.join (s.toList.map quoteChar) ++ "\""

end StyleTree.Text
