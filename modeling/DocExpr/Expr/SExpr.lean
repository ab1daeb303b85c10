import DocExpr.Expr.Basic

/-!
# S-expressions

`Expr.sexpr` writes a tree as an S-expression, without origins: the head names the form of a node
or its operator, and the text of an atom or the parts follow. Documentation and multi-line strings
are written without their lines.
-/

namespace DocExpr

/-- The head of the S-expression of an atom. -/
def Atom.symbol : Atom → String
  | .char => "charliteral" | .date => "dateliteral" | .dateTime => "datetimeliteral"
  | .identifier => "identifier" | .integer => "intliteral" | .string => "stringliteral"
  | .uuid => "uuidliteral"

/-- The head of the S-expression of a block. -/
def Block.symbol : Block → String
  | .leading => "leadingdoc" | .trailing => "trailingdoc" | .multiline => "multilinestring"

namespace Expr

/-- An S-expression with a head and what follows it. -/
def sexprOf (head body : String) : String := "(" ++ head ++ " " ++ body ++ ")"

mutual

/-- The S-expression of a tree. -/
def sexpr : Expr → String
  | atom form text _ => sexprOf form.symbol text
  | block form _ _ => "(" ++ form.symbol ++ ")"
  | suffixed form item _ => sexprOf form.symbol (sexpr item)
  | map item key _ => sexprOf "maptype" (sexpr item ++ " " ++ sexpr key)
  | call callee arguments _ => sexprOf "call" (sexpr callee ++ " " ++ sexpr arguments)
  | array elements _ => sexprOf "arrayliteral" (sexprAll elements)
  | group items _ => sexprOf "parenthesized" (sexprAll items)
  | chain op operands _ => sexprOf op.symbol (sexprAll operands)
  | unary op operand _ => sexprOf op.symbol (sexpr operand)

/-- The S-expressions of trees, with a blank between each two. -/
def sexprAll : List Expr → String
  | [] => ""
  | [e] => sexpr e
  | e :: es => sexpr e ++ " " ++ sexprAll es

end

end Expr

end DocExpr
