import DocExpr.Stream.Basic
import DocExpr.Token.Lexeme

/-!
# Streams of source texts

`Stream.ofText` reads a source text lexeme by lexeme. The walk goes character by character and
keeps the position; `scan_skip` says that the characters inside a lexeme only move it.
-/

namespace DocExpr

/-- A place in a text, by line and column, both from one. -/
structure Position where
  line : UInt32
  column : UInt32
deriving DecidableEq

namespace Position

/-- The start of a text. -/
def start : Position := ⟨1, 1⟩

/-- The place behind a character. A line feed starts a line. -/
def next (p : Position) (c : Char) : Position :=
  if c = '\n' then ⟨p.line + 1, 1⟩ else ⟨p.line, p.column + 1⟩

/-- The place behind a text. -/
def behind (p : Position) (cs : List Char) : Position := cs.foldl next p

end Position

namespace Stream

/-- A number of characters in 32 bits; what does not fit becomes the greatest number. -/
def boundedLength (n : Nat) : UInt32 := UInt32.ofNat (min n 4294967295)

/-- The text of a token that is read from some characters. A mark has its spelling, and any other
token the characters themselves. -/
def tokenText (k : Kind) (cs : List Char) : String :=
  match k with
  | .mark m => m.spelling
  | _ => String.ofList cs

/-- The token that starts with `c`, with the rest `cs` of the text behind it. -/
def tokenAt (file : String) (p : Position) (c : Char) (cs : List Char) : Token :=
  let lexeme := Lexeme.read c cs
  { kind := lexeme.kind
    text := tokenText lexeme.kind (c :: cs.take lexeme.more)
    origin := ⟨file, p.line, p.column, boundedLength (1 + (cs.take lexeme.more).length)⟩ }

/-- The reading of a token of a text, with what is left of the text behind the token. -/
def readingOf (t : Token) (rest : List Char) : Reading :=
  ⟨t, [if t.kind.isFault then .faulty t else .scanned t], rest.all Lexeme.isSpace⟩

/-- The readings of a text whose first `skip` characters belong to a lexeme already read. -/
def scan (file : String) : Position → Nat → List Char → List Reading
  | _, _, [] => []
  | p, skip + 1, c :: cs => scan file (p.next c) skip cs
  | p, 0, c :: cs =>
    if Lexeme.isSpace c then scan file (p.next c) 0 cs
    else
      let more := (Lexeme.read c cs).more
      readingOf (tokenAt file p c cs) (cs.drop more) :: scan file (p.next c) more cs

/-- The stream of a source text. -/
def ofText (text file : String) : Stream :=
  let last := Position.start.behind text.toList
  { opened := []
    atEof := text.toList.all Lexeme.isSpace
    readings := scan file .start 0 text.toList
    finish := ⟨file, last.line, last.column, 0⟩ }

theorem scan_skip (file : String) (p : Position) (skip : Nat) (cs : List Char) :
    scan file p skip cs = scan file (p.behind (cs.take skip)) 0 (cs.drop skip) := by
  induction skip generalizing p cs with
  | zero => simp [Position.behind]
  | succ skip ih =>
    cases cs with
    | nil => simp [scan]
    | cons c cs => simp only [scan, ih, Position.behind, List.take_succ_cons, List.foldl_cons,
        List.drop_succ_cons]

end Stream

end DocExpr
