import ShellVM.Text.Invisible

/-!
# Quoted texts

How a text is written inside a collection and in a listing: between double quotes, with the
usual short escapes and every invisible character by its number.
-/

namespace ShellVM.Text

/-- Hexadecimal digits, in lower case and without leading zeros. -/
def hex (n : Nat) : String := String.ofList (Nat.toDigits 16 n)

def quoteChar (c : Char) : String :=
  if c == '\x00' then "\\0"
  else if c == '\t' then "\\t"
  else if c == '\n' then "\\n"
  else if c == '\x0d' then "\\r"
  else if c == '"' then "\\\""
  else if c == '\\' then "\\\\"
  else if isInvisible c then "\\u\x7b" ++ hex c.toNat ++ "\x7d"
  else c.toString

def quoted (s : String) : String :=
  "\"" ++ s.toList.foldl (fun out c => out ++ quoteChar c) "" ++ "\""

end ShellVM.Text
