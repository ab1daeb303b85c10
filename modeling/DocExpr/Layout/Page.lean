import DocExpr.Layout.Spacing
import DocExpr.Text.Lines

/-!
# Pages

A `Page` is a text that is being written: the finished lines, the line under construction, the
documentation that is to follow it, and two stacks, of indentations and of spacings. A line is
finished when a line break is written; then blanks at its end go away and the staged documentation
is put behind it. `indented`, `aligned` and `spaced` change a stack while a part of the page is
written, and restore it afterwards.
-/

namespace DocExpr

/-- A text that is being written. -/
structure Page where
  /-- The number of blanks that one more level of indentation adds. -/
  width : Nat
  /-- The finished lines, the last one first. -/
  above : List (List Char)
  /-- The line under construction, with its indentation. -/
  line : List Char
  /-- Documentation that is to follow the line under construction. -/
  staged : List (List Char)
  /-- The numbers of blanks before new lines, the innermost first. -/
  indents : List Nat
  /-- The spacings of the groupings that are being written, the innermost first. -/
  modes : List Spacing

namespace Page

/-- The number of blanks of a level of indentation, unless another one is asked for. -/
def defaultWidth : Nat := 4

/-- A page on which nothing is written. -/
def empty (width : Nat) : Page := ⟨width, [], [], [], [0], [.inline]⟩

/-- A number of blanks. -/
def blanks (n : Nat) : List Char := List.replicate n ' '

/-- The number of blanks before a new line. -/
def indent (p : Page) : Nat := p.indents.headD 0

/-- The spacing of the innermost grouping. -/
def mode (p : Page) : Spacing := p.modes.headD .inline

/-- Writes behind the line under construction. Visible text that starts a line is indented. -/
def addToLine (p : Page) (fragment : List Char) : Page :=
  if p.line.isEmpty && !Text.allBlank fragment then
    { p with line := blanks p.indent ++ Text.trimStart fragment }
  else { p with line := p.line ++ fragment }

/-- The lines that a line of code becomes, the last one first: the first line of documentation
follows the code, and the others stand below it. -/
def documented (code : List Char) : List (List Char) → List (List Char)
  | [] => [code]
  | first :: others =>
    (others.map fun line => blanks code.length ++ Text.trimEnd line).reverse
      ++ [code ++ Text.trimEnd first]

/-- Finishes the line under construction. -/
def finishLine (p : Page) : Page :=
  { p with
    above := documented (Text.trimEnd p.line) p.staged ++ p.above
    line := []
    staged := [] }

/-- Writes pieces of text with line breaks between them. -/
def appendPieces : List (List Char) → Page → Page
  | [], p => p
  | [piece], p => p.addToLine piece
  | piece :: pieces, p => appendPieces pieces (p.addToLine piece).finishLine

/-- Writes a text, which may contain line breaks. -/
def append (p : Page) (text : String) : Page := appendPieces (Text.splitLines text.toList) p

/-- Breaks the line. -/
def newLine (p : Page) : Page := p.append "\n"

/-- Breaks the line unless nothing is written on it. -/
def startOnNewLine (p : Page) : Page := if p.line.isEmpty then p else p.newLine

/-- Breaks lines as the innermost grouping asks for before a part. -/
def verticalSpacing (p : Page) : Page :=
  match p.mode with
  | .inline => p
  | .lines => p.startOnNewLine
  | .blankLines => p.startOnNewLine.newLine

/-- Stages documentation for the line under construction, instead of what was staged before. -/
def stage (p : Page) (lines : List String) : Page := { p with staged := lines.map String.toList }

/-- Adds a level of indentation. -/
def indentMore (p : Page) : Page := { p with indents := (p.indent + p.width) :: p.indents }

/-- Indents new lines to the end of the line under construction. -/
def indentToColumn (p : Page) : Page :=
  { p with indents := (if p.line.isEmpty then p.indent else p.line.length) :: p.indents }

/-- Takes the innermost indentation away. -/
def popIndent (p : Page) : Page := { p with indents := p.indents.tail }

/-- Takes a level of indentation away, but never the last one, and empties a line that has nothing
visible on it. -/
def indentLess (p : Page) : Page :=
  { p with
    indents := if p.indents.length > 1 then p.indents.tail else p.indents
    line := if Text.allBlank p.line then [] else p.line }

/-- Begins a grouping with a spacing. -/
def pushMode (p : Page) (mode : Spacing) : Page := { p with modes := mode :: p.modes }

/-- Ends the innermost grouping. -/
def popMode (p : Page) : Page := { p with modes := p.modes.tail }

/-- Writes a part of the page one level deeper. -/
def indented (p : Page) (body : Page → Page) : Page := (body p.indentMore).indentLess

/-- Writes a part of the page one level deeper, if so asked. -/
def indentedIf (p : Page) (condition : Bool) (body : Page → Page) : Page :=
  if condition then p.indented body else body p

/-- Writes a part of the page one level deeper if the innermost grouping breaks lines. -/
def indentedIfSpaced (p : Page) (body : Page → Page) : Page :=
  p.indentedIf (p.mode != .inline) body

/-- Writes a part of the page with its lines below the end of the line under construction. -/
def aligned (p : Page) (body : Page → Page) : Page := (body p.indentToColumn).popIndent

/-- Writes a part of the page as a grouping. -/
def spaced (p : Page) (mode : Spacing) (body : Page → Page) : Page :=
  (body (p.pushMode mode)).popMode

/-- The page with its last line finished. -/
def finished (p : Page) : Page := if p.line.isEmpty && p.staged.isEmpty then p else p.finishLine

/-- The text of a page, without blanks at its end, and with one line break behind it. -/
def text (p : Page) : String :=
  String.ofList (Text.trimEnd (Text.joinLines p.finished.above.reverse) ++ ['\n'])

end Page

end DocExpr
