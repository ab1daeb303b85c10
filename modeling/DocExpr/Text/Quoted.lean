/-!
# Quoted texts

`quote` writes a text between double quotes, on one line: the quote and the backslash take a
backslash, control characters are spelled, and everything else stands for itself.
-/

namespace DocExpr.Text

/-- The digits of a number in base sixteen, in small letters. -/
def hexDigits (n : Nat) : String := String.ofList (Nat.toDigits 16 n)

/-- How one character is spelled inside a quoted text. -/
def quoteChar (c : Char) : String :=
  if c = '\x22' then "\\\""
  else if c = '\\' then "\\\\"
  else if c = '\t' then "\\t"
  else if c = '\r' then "\\r"
  else if c = '\n' then "\\n"
  else if c.toNat = 0 then "\\0"
  else if c.toNat < 0x20 ∨ c.toNat = 0x7F then "\\u\x7b" ++ hexDigits c.toNat ++ "\x7d"
  else c.toString

/-- A text between double quotes. -/
def quote (text : String) : String :=
  "\"" ++ text.toList.foldl (fun written c => written ++ quoteChar c) "" ++ "\""

/-- Texts separated by a comma and a space. -/
def commaSeparated (texts : List String) : String := ", ".intercalate texts

end DocExpr.Text
