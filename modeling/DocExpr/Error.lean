import DocExpr.Token.Basic

/-!
# Parse errors

A `ParseError` is the cause for which a source is rejected. `code`, `message` and `origin` are what
a diagnostic shows of it. Codes that start with 0 are for faults of characters, those that start
with 1 for faults of structure.
-/

namespace DocExpr

/-- The code of an error. -/
inductive Code where
  /-- A string that its line does not close. -/
  | unclosedString
  /-- A single-quoted literal that its line does not close. -/
  | unclosedLiteral
  /-- A character that starts no token. -/
  | unrecognizedChar
  /-- A single-quoted literal of no known form. -/
  | unrecognizedLiteral
  /-- A token that cannot stand where it does. -/
  | unexpected
  /-- An index in square brackets. -/
  | unsupportedIndex
deriving DecidableEq

namespace Code

/-- How a code is written. -/
def text : Code → String
  | unclosedString => "E0001" | unclosedLiteral => "E0002" | unrecognizedChar => "E0003"
  | unrecognizedLiteral => "E0004" | unexpected => "E1001" | unsupportedIndex => "E1002"

/-- All codes. -/
def all : List Code :=
  [unclosedString, unclosedLiteral, unrecognizedChar, unrecognizedLiteral, unexpected,
    unsupportedIndex]

/-- The code that is written in a given way. -/
def ofText? (text : String) : Option Code := all.find? fun c => c.text == text

end Code

/-- The code of a fault. -/
def Fault.code : Fault → Code
  | .unclosedString => .unclosedString | .unclosedLiteral => .unclosedLiteral
  | .unrecognizedChar => .unrecognizedChar | .unrecognizedLiteral => .unrecognizedLiteral

/-- Why a source is rejected. -/
inductive ParseError where
  /-- One of some kinds was needed, and another token was found. -/
  | expected (kinds : List Kind) (found : Token)
  /-- A token that stands for a fault was reached. -/
  | lexical (code : Code) (token : Token)
  /-- A bracket, at the given place, that opens an index. -/
  | unsupportedIndex (origin : Origin)
  /-- An error with a wording of its own. -/
  | other (code : Code) (message : String) (origin : Origin)
deriving DecidableEq

namespace ParseError

/-- The code of an error. -/
def code : ParseError → Code
  | expected .. => .unexpected
  | lexical code _ => code
  | unsupportedIndex _ => .unsupportedIndex
  | other code .. => code

/-- Where an error stands in the source. -/
def origin : ParseError → Origin
  | expected _ found => found.origin
  | lexical _ token => token.origin
  | unsupportedIndex o => o
  | other _ _ o => o

/-- How a message describes a token: its kind, its text and its place. -/
def describe (t : Token) : String :=
  t.kind.text ++ " '" ++ t.text ++ "' at " ++ t.origin.display ++ "."

/-- The text of an error. -/
def message : ParseError → String
  | expected kinds found =>
    "Expected one of (" ++ ",".intercalate (kinds.map Kind.text) ++ "). Instead saw "
      ++ describe found
  | lexical _ token => "Lexical error: " ++ describe token
  | unsupportedIndex o => "Array index expressions are not supported at " ++ o.display ++ "."
  | other _ message _ => message

/-- An error with everything it holds, on one line. -/
def dump (e : ParseError) : String :=
  "ParseError \x7b code: " ++ e.code.text ++ ", message: " ++ Text.quote e.message
    ++ ", origin: " ++ e.origin.dump ++ " \x7d"

end ParseError

end DocExpr
