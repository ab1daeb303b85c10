import DocExpr.Layout.Page

/-!
# Writing expressions

`Expr.write` writes a tree on a page as source text. Where lines are broken depends on the spacing
of the groupings alone: groups, unions and the items of a file. `format` is the text of a whole
tree, as an expression or as the items of a file.
-/

namespace DocExpr

namespace Page

/-- Writes lines, each with a line break behind it. -/
def appendLines : List String → Page → Page
  | [], p => p
  | line :: lines, p => appendLines lines (p.append line).newLine

/-- Writes the items of a group in parentheses. -/
def parenthesized (p : Page) (spacing : Spacing) (items : Page → Page) : Page :=
  ((p.append "(").spaced spacing fun p => p.verticalSpacing.indentedIfSpaced items).append ")"

end Page

/-- What is written between the operands of a chain. Documentation brings its own line breaks. -/
def BinaryOp.separator : BinaryOp → String
  | .document => ""
  | op => op.text

namespace Expr

mutual

/-- Writes a tree on a page. -/
def write : Expr → Page → Page
  | atom _ text _, p => p.append text
  | block .leading lines _, p => p.appendLines lines
  | block .trailing lines _, p => p.stage (lines.map fun line => "  " ++ line)
  | block .multiline lines _, p => p.aligned fun p => p.appendLines lines
  | suffixed form item _, p => (write item p).append form.text
  | map item key _, p => (write key ((write item p).append "\x7b")).append "\x7d"
  | call callee (group items o) _, p =>
    (write callee p).parenthesized (group items o).spacing (writeItems items)
  | call callee arguments _, p =>
    (write callee p).parenthesized arguments.spacing fun p => (write arguments p).verticalSpacing
  | array elements _, p => (writeSeparated ", " elements (p.append "[")).append "]"
  | e@(group items _), p => p.parenthesized e.spacing (writeItems items)
  | e@(chain .union operands _), p => p.spaced e.spacing (writeUnion true operands)
  | chain op operands _, p => writeSeparated op.separator operands p
  | unary op operand _, p => write operand (p.append op.text)

/-- Writes trees with a text between each two. -/
def writeSeparated (separator : String) : List Expr → Page → Page
  | [], p => p
  | [e], p => write e p
  | e :: es, p => writeSeparated separator es ((write e p).append separator)

/-- Writes items with commas between them, and vertical spacing behind each. -/
def writeItems : List Expr → Page → Page
  | [], p => p.verticalSpacing
  | [e], p => (write e p).verticalSpacing
  | e :: es, p => writeItems es ((write e p).append ", ").verticalSpacing

/-- Writes the operands of a union, each with a bar before it but the first one. -/
def writeUnion (first : Bool) : List Expr → Page → Page
  | [], p => p
  | e :: es, p =>
    writeUnion false es
      (p.verticalSpacing.indentedIfSpaced fun p => write e (if first then p else p.append " | "))

end

/-- Writes the items of a file: those of a group without its parentheses, and any other tree as a
single item. -/
def writeFile (e : Expr) (p : Page) : Page := p.spaced e.spacing (writeItems e.items)

/-- The text of an expression. -/
def format (e : Expr) (width : Nat) : String := (e.write (.empty width)).text

/-- The text of the items of a file. -/
def formatItems (e : Expr) (width : Nat) : String := (e.writeFile (.empty width)).text

end Expr

end DocExpr
