import DocExpr.Layout.Script
import DocExpr.Parse.Log

/-!
# Formatting sources

`Goal.format` writes a tree as what it was read as, and `reformat` reads a source text and writes
it again. `rounds` repeats that with its own result.
-/

namespace DocExpr

/-- The text of a tree that was read as an expression or as a file of items. -/
def Goal.format (goal : Goal) (e : Expr) (width : Nat) : String :=
  match goal with
  | .expression => e.format width
  | .items => e.formatItems width

/-- Reads a source text and writes it again. -/
def reformat (goal : Goal) (file : String) (width : Nat) (text : String) :
    Except ParseError String :=
  (parseAs goal text file).map fun e => goal.format e width

/-- Reads and writes a text so many times, each time what was written before. The first error
ends it. -/
def rounds (goal : Goal) (file : String) (width : Nat) :
    Nat → String → List (Except ParseError String)
  | 0, _ => []
  | n + 1, text =>
    match reformat goal file width text with
    | .ok text' => .ok text' :: rounds goal file width n text'
    | .error e => [.error e]

end DocExpr
