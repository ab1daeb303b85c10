import DocExpr.Token.Literal

/-!
# Lexemes

`Lexeme.read` recognises the lexeme at the start of a text: its kind, and how many characters
belong to it beyond the first one. Every first character starts a lexeme, of a fault kind if need
be. The lexemes are digit runs, back-ticked lines, comments, quoted literals, the longest marks,
and words.
-/

namespace DocExpr

/-- What is read from the start of a text. -/
structure Lexeme where
  kind : Kind
  /-- The number of its characters after the first one. -/
  more : Nat
deriving DecidableEq

namespace Lexeme

/-- What separates lexemes: space, tab, carriage return and line feed. -/
def isSpace (c : Char) : Bool := c == ' ' || c == '\t' || c == '\r' || c == '\n'

/-- What ends a line inside a lexeme: carriage return or line feed. -/
def endsLine (c : Char) : Bool := c == '\r' || c == '\n'

/-- What can start a word. -/
def startsWord (c : Char) : Bool := ('a' ≤ c && c ≤ 'z') || ('A' ≤ c && c ≤ 'Z') || c == '_'

/-- What can continue a word. -/
def continuesWord (c : Char) : Bool := startsWord c || Literal.isDigit c

/-- The number of characters up to the end of the line. -/
def lineLength (cs : List Char) : Nat := (cs.takeWhile fun c => !endsLine c).length

/-- Reads up to the closing quote: the number of characters read, and whether the quote was found
on the line. A backslash takes the next character with it, whatever it is. -/
def readQuoted (quote : Char) : List Char → Nat × Bool
  | [] => (0, false)
  | c :: cs =>
    if endsLine c then (0, false)
    else if c = quote then (1, true)
    else if c = '\\' then
      match cs with
      | [] => (1, false)
      | _ :: cs => let (n, closed) := readQuoted quote cs; (n + 2, closed)
    else let (n, closed) := readQuoted quote cs; (n + 1, closed)

/-- The number of characters that continue a word. A dash joins words, but ends none. -/
def wordLength : List Char → Nat
  | [] => 0
  | c :: cs =>
    if continuesWord c then wordLength cs + 1
    else if c = '-' && (cs.head?.any continuesWord) then wordLength cs + 1
    else 0

/-- The longest mark at the start of a text. -/
def mark? (cs : List Char) : Option Mark :=
  Mark.longestFirst.find? fun m => m.spelling.toList.isPrefixOf cs

/-- The kind of a word: its keyword, if it is one. -/
def wordKind (word : List Char) : Kind :=
  match Keyword.all.find? fun w => w.spelling.toList == word with
  | some w => .keyword w
  | none => .atom .identifier

/-- The lexeme at the start of the text `c :: cs`. -/
def read (c : Char) (cs : List Char) : Lexeme :=
  if Literal.isDigit c then ⟨.atom .integer, (cs.takeWhile Literal.isDigit).length⟩
  else if c = '\x60' then ⟨.tickedLine, lineLength cs⟩
  else if c = '\x22' then
    let (n, closed) := readQuoted c cs
    ⟨if closed then .atom .string else .fault .unclosedString, n⟩
  else if c = '\x27' then
    let (n, closed) := readQuoted c cs
    ⟨if closed then Literal.classify (c :: cs.take n) else .fault .unclosedLiteral, n⟩
  else if c = '/' && cs.head? == some '/' then ⟨.comment, lineLength cs⟩
  else
    match mark? (c :: cs) with
    | some m => ⟨.mark m, m.spelling.length - 1⟩
    | none =>
      if startsWord c then
        let n := wordLength cs
        ⟨wordKind (c :: cs.take n), n⟩
      else ⟨.fault .unrecognizedChar, 0⟩

end Lexeme

end DocExpr
