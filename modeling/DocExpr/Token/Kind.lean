/-!
# Kinds of tokens

A `Kind` says what a token is: the end of the input, a punctuation `Mark`, a `Keyword`, an `Atom`
(a name or a literal), a line of a comment or of a back-ticked string, a `Block` of such lines,
the operator that attaches documentation, or a `Fault` in the source. Every kind has a `name`, by
which dumps and logs refer to it, and a `text`: its spelling, or a description in square brackets.
-/

namespace DocExpr

/-- Punctuation marks. -/
inductive Mark where
  | ampersand | doubleAmpersand | asterisk | colon | comma | compare | compareReversed | dash
  | dot | doubleDot | equals | doubleEquals | tripleEquals | exclamation | greater
  | greaterOrEqual | leftBrace | leftBracket | leftParenthesis | less | lessOrEqual | matching
  | notMatching | plus | question | questionColon | rightArrow | rightBrace | rightBracket
  | rightParenthesis | semicolon | slash | bar
deriving DecidableEq

/-- Words that cannot be names. -/
inductive Keyword where
  | andWord | asWord | inWord | isWord | notWord | ofWord | orWord | toWord
deriving DecidableEq

/-- What is written as one word and stands for itself: a name or a literal. -/
inductive Atom where
  | char | date | dateTime | identifier | integer | string | uuid
deriving DecidableEq

/-- Internet addresses, by version. They are recognised, but stand for no expression. -/
inductive Address where
  | v4 | v6
deriving DecidableEq

/-- What is written as a block of lines. -/
inductive Block where
  /-- A comment above what it documents. -/
  | leading
  /-- A comment behind what it documents. -/
  | trailing
  /-- A string of several back-ticked lines. -/
  | multiline
deriving DecidableEq

/-- What can be wrong with the characters of a source. -/
inductive Fault where
  /-- A single-quoted literal that its line does not close. -/
  | unclosedLiteral
  /-- A double-quoted string that its line does not close. -/
  | unclosedString
  /-- A character that starts no token. -/
  | unrecognizedChar
  /-- A single-quoted literal of no known form. -/
  | unrecognizedLiteral
deriving DecidableEq

/-- What a token is. -/
inductive Kind where
  | eof
  | mark (m : Mark)
  | keyword (w : Keyword)
  | atom (a : Atom)
  | address (v : Address)
  /-- One line of a comment. -/
  | comment
  /-- One back-ticked line. -/
  | tickedLine
  | block (b : Block)
  /-- The operator between documentation and what it documents; no source text spells it. -/
  | document
  | fault (f : Fault)
deriving DecidableEq

namespace Mark

/-- How a mark is written. -/
def spelling : Mark → String
  | ampersand => "&" | doubleAmpersand => "&&" | asterisk => "*" | colon => ":" | comma => ","
  | compare => "<=>" | compareReversed => ">=<" | dash => "-" | dot => "." | doubleDot => ".."
  | equals => "=" | doubleEquals => "==" | tripleEquals => "===" | exclamation => "!"
  | greater => ">" | greaterOrEqual => ">=" | leftBrace => "\x7b" | leftBracket => "["
  | leftParenthesis => "(" | less => "<" | lessOrEqual => "<=" | matching => "=~"
  | notMatching => "!~" | plus => "+" | question => "?" | questionColon => "?:"
  | rightArrow => "->" | rightBrace => "\x7d" | rightBracket => "]" | rightParenthesis => ")"
  | semicolon => ";" | slash => "/" | bar => "|"

/-- The name of a mark in dumps and logs. -/
def name : Mark → String
  | ampersand => "Ampersand" | doubleAmpersand => "AmpersandAmpersand" | asterisk => "Asterisk"
  | colon => "Colon" | comma => "Comma" | compare => "Compare"
  | compareReversed => "CompareReversed" | dash => "Dash" | dot => "Dot" | doubleDot => "DotDot"
  | equals => "Equals" | doubleEquals => "EqualsEquals" | tripleEquals => "EqualsEqualsEquals"
  | exclamation => "Exclamation" | greater => "GreaterThan"
  | greaterOrEqual => "GreaterThanOrEquals" | leftBrace => "LeftBrace"
  | leftBracket => "LeftBracket" | leftParenthesis => "LeftParenthesis" | less => "LessThan"
  | lessOrEqual => "LessThanOrEquals" | matching => "Matches" | notMatching => "NotMatches"
  | plus => "Plus" | question => "QuestionMark" | questionColon => "QuestionMarkColon"
  | rightArrow => "RightArrow" | rightBrace => "RightBrace" | rightBracket => "RightBracket"
  | rightParenthesis => "RightParenthesis" | semicolon => "Semicolon" | slash => "Slash"
  | bar => "VerticalBar"

/-- All marks, the longer spellings before the shorter ones. -/
def longestFirst : List Mark :=
  [compare, compareReversed, tripleEquals,
    doubleAmpersand, doubleDot, doubleEquals, greaterOrEqual, lessOrEqual, matching, notMatching,
    questionColon, rightArrow,
    ampersand, asterisk, colon, comma, dash, dot, equals, exclamation, greater, leftBrace,
    leftBracket, leftParenthesis, less, plus, question, rightBrace, rightBracket,
    rightParenthesis, semicolon, slash, bar]

theorem mem_longestFirst (m : Mark) : m ∈ longestFirst := by cases m <;> decide

end Mark

namespace Keyword

/-- How a keyword is written. -/
def spelling : Keyword → String
  | andWord => "and" | asWord => "as" | inWord => "in" | isWord => "is" | notWord => "not"
  | ofWord => "of" | orWord => "or" | toWord => "to"

/-- The name of a keyword in dumps and logs. -/
def name : Keyword → String
  | andWord => "And" | asWord => "As" | inWord => "In" | isWord => "Is" | notWord => "Not"
  | ofWord => "Of" | orWord => "Or" | toWord => "To"

/-- All keywords. -/
def all : List Keyword := [andWord, asWord, inWord, isWord, notWord, ofWord, orWord, toWord]

theorem mem_all (w : Keyword) : w ∈ all := by cases w <;> decide

end Keyword

namespace Atom

/-- The name of a form of atom in dumps and logs. -/
def name : Atom → String
  | char => "CharLiteral" | date => "DateLiteral" | dateTime => "DateTimeLiteral"
  | identifier => "Identifier" | integer => "IntegerLiteral" | string => "StringLiteral"
  | uuid => "UuidLiteral"

/-- How diagnostics describe a form of atom. -/
def text : Atom → String
  | char => "[character literal]" | date => "[date literal]"
  | dateTime => "[date-time literal]" | identifier => "[identifier]"
  | integer => "[integer literal]" | string => "[string literal]" | uuid => "[UUID literal]"

/-- All forms of atoms. -/
def all : List Atom := [char, date, dateTime, identifier, integer, string, uuid]

end Atom

namespace Block

/-- The name of a form of block in dumps and logs. -/
def name : Block → String
  | leading => "LeadingDocumentation" | trailing => "TrailingDocumentation"
  | multiline => "MultilineString"

/-- How diagnostics describe a form of block. -/
def text : Block → String
  | leading => "[leading documentation]" | trailing => "[trailing documentation]"
  | multiline => "[multiline string]"

/-- All forms of blocks. -/
def all : List Block := [leading, trailing, multiline]

end Block

namespace Fault

/-- The name of a fault in dumps and logs. -/
def name : Fault → String
  | unclosedLiteral => "UnclosedLiteral" | unclosedString => "UnclosedString"
  | unrecognizedChar => "UnrecognizedChar" | unrecognizedLiteral => "UnrecognizedLiteral"

/-- How diagnostics describe a fault. -/
def text : Fault → String
  | unclosedLiteral => "[error - literal extends past end of line]"
  | unclosedString => "[error - string extends past end of line]"
  | unrecognizedChar => "[error - unrecognized character]"
  | unrecognizedLiteral => "[error - unrecognized literal]"

/-- All faults. -/
def all : List Fault := [unclosedLiteral, unclosedString, unrecognizedChar, unrecognizedLiteral]

end Fault

namespace Kind

/-- The name of a kind in dumps and logs. -/
def name : Kind → String
  | eof => "Eof"
  | mark m => m.name
  | keyword w => w.name
  | atom a => a.name
  | address .v4 => "IpAddressV4"
  | address .v6 => "IpAddressV6"
  | comment => "Documentation"
  | tickedLine => "BackTickedString"
  | block b => b.name
  | document => "SynthDocument"
  | fault f => f.name

/-- The spelling of a kind with only one, a description in brackets of any other. -/
def text : Kind → String
  | eof => "[end of file]"
  | mark m => m.spelling
  | keyword w => w.spelling
  | atom a => a.text
  | address .v4 => "[IP address v4 literal]"
  | address .v6 => "[IP address v6 literal]"
  | comment => "[documentation]"
  | tickedLine => "[back-ticked string]"
  | block b => b.text
  | document => "[synthetic documentation operator]"
  | fault f => f.text

/-- The fault that a kind stands for, if it stands for one. -/
def fault? : Kind → Option Fault
  | fault f => some f
  | _ => none

/-- Whether a kind stands for a fault in the source. -/
def isFault (k : Kind) : Bool := k.fault?.isSome

/-- All kinds. -/
def all : List Kind :=
  [eof, comment, tickedLine, document, address .v4, address .v6]
    ++ Mark.longestFirst.map mark ++ Keyword.all.map keyword ++ Atom.all.map atom
    ++ Block.all.map block ++ Fault.all.map fault

/-- The kind with a given name. -/
def ofName? (name : String) : Option Kind := all.find? fun k => k.name == name

theorem mem_all (k : Kind) : k ∈ all := by
  cases k with
  | mark m => simp [all, m.mem_longestFirst]
  | keyword w => simp [all, w.mem_all]
  | atom a => cases a <;> simp [all, Atom.all]
  | block b => cases b <;> simp [all, Block.all]
  | fault f => cases f <;> simp [all, Fault.all]
  | address v => cases v <;> simp [all]
  | _ => simp [all]

end Kind

end DocExpr
