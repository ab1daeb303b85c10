import DocExpr.Layout.Writer

/-!
# Layout scripts

A `Directive` is something that can be done with a page, and a list of them is a script.
`Directive.run` does it, and `Directive.modes` gives the spacing of the innermost grouping after
each directive, the ones inside others included.
-/

namespace DocExpr

/-- Something that can be done with a page. -/
inductive Directive where
  | append (text : String)
  | newLine
  | newLineIf (condition : Bool)
  | startOnNewLine
  | verticalSpacing
  | stage (lines : List String)
  | indented (body : List Directive)
  | indentedIf (condition : Bool) (body : List Directive)
  | indentedIfSpaced (body : List Directive)
  | aligned (body : List Directive)
  | spaced (mode : Spacing) (body : List Directive)
  /-- Writes an expression. -/
  | write (e : Expr)
  /-- Writes the items of a file. -/
  | writeFile (e : Expr)

namespace Directive

mutual

/-- Does what a directive says. -/
def run : Directive → Page → Page
  | append text, p => p.append text
  | newLine, p => p.newLine
  | newLineIf condition, p => if condition then p.newLine else p
  | startOnNewLine, p => p.startOnNewLine
  | verticalSpacing, p => p.verticalSpacing
  | stage lines, p => p.stage lines
  | indented body, p => p.indented (runAll body)
  | indentedIf condition body, p => p.indentedIf condition (runAll body)
  | indentedIfSpaced body, p => p.indentedIfSpaced (runAll body)
  | aligned body, p => p.aligned (runAll body)
  | spaced mode body, p => p.spaced mode (runAll body)
  | write e, p => e.write p
  | writeFile e, p => e.writeFile p

/-- Does what a script says. -/
def runAll : List Directive → Page → Page
  | [], p => p
  | d :: ds, p => runAll ds (run d p)

end

mutual

/-- The spacings after the directives inside a directive. -/
def innerModes : Directive → Page → List Spacing
  | indented body, p => modesAll body p.indentMore
  | indentedIf condition body, p => modesAll body (if condition then p.indentMore else p)
  | indentedIfSpaced body, p =>
    modesAll body (if p.mode != .inline then p.indentMore else p)
  | aligned body, p => modesAll body p.indentToColumn
  | spaced mode body, p => modesAll body (p.pushMode mode)
  | _, _ => []

/-- The spacings after the directives of a script, with those inside each before its own. -/
def modesAll : List Directive → Page → List Spacing
  | [], _ => []
  | d :: ds, p => innerModes d p ++ (d.run p).mode :: modesAll ds (d.run p)

end

/-- The texts of the pages after the first directives of a script, from none of them to all. -/
def outputs : List Directive → Page → List String
  | [], p => [p.text]
  | d :: ds, p => p.text :: outputs ds (d.run p)

end Directive

end DocExpr
