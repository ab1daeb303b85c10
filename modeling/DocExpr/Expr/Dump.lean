import DocExpr.Expr.Basic
import DocExpr.Text.Quoted

/-!
# Dumps of expressions

`Expr.dump` writes a tree on one line with everything it holds: the name of each node, its fields,
and its origin behind an at sign.
-/

namespace DocExpr.Expr

/-- Texts between square brackets, separated by commas. -/
def dumpList (texts : List String) : String := "[" ++ Text.commaSeparated texts ++ "]"

/-- Named fields between braces. -/
def dumpFields (fields : List (String × String)) : String :=
  " \x7b " ++ Text.commaSeparated (fields.map fun f => f.1 ++ ": " ++ f.2) ++ " \x7d"

/-- One unnamed field between parentheses. -/
def dumpField (text : String) : String := "(" ++ text ++ ")"

mutual

/-- A tree with everything it holds, on one line. -/
def dump : Expr → String
  | atom form text o => form.name ++ dumpField (Text.quote text) ++ " @ " ++ o.dump
  | block form lines o =>
    form.name ++ dumpField (dumpList (lines.map Text.quote)) ++ " @ " ++ o.dump
  | suffixed form item o => form.name ++ dumpField (dump item) ++ " @ " ++ o.dump
  | map item key o =>
    "MapType" ++ dumpFields [("item", dump item), ("key", dump key)] ++ " @ " ++ o.dump
  | call callee arguments o =>
    "FunctionCall" ++ dumpFields [("callee", dump callee), ("arguments", dump arguments)]
      ++ " @ " ++ o.dump
  | array elements o =>
    "ArrayLiteral" ++ dumpField (dumpList (dumpAll elements)) ++ " @ " ++ o.dump
  | group items o => "Parenthesized" ++ dumpField (dumpList (dumpAll items)) ++ " @ " ++ o.dump
  | chain op operands o =>
    "Infix" ++ dumpFields [("op", op.name), ("operands", dumpList (dumpAll operands))]
      ++ " @ " ++ o.dump
  | unary op operand o =>
    "Prefix" ++ dumpFields [("op", op.name), ("operand", dump operand)] ++ " @ " ++ o.dump

/-- The dumps of trees. -/
def dumpAll : List Expr → List String
  | [] => []
  | e :: es => dump e :: dumpAll es

end

end DocExpr.Expr
