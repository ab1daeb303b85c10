/-!
# Operators

The operators that stand between operands (`BinaryOp`) and before one (`UnaryOp`), with the text
that is written for them, the symbol that S-expressions give them, and their names in dumps and
logs. How tightly each binds is said in `DocExpr.Parse.Power`.
-/

namespace DocExpr

/-- Operators between operands. A chain of one operator is one expression with all its operands. -/
inductive BinaryOp where
  | qualify | assign | defaultValue | looseIntersect | union | intersect
  /-- Attaches documentation to what it documents. -/
  | document
  | logicOr | logicAnd
  | compare | compareReversed | equal | greater | greaterOrEqual | less | lessOrEqual
  | member | instanceOf | matching | notMatching
  | range | add | subtract | multiply | divide
  | arrow | field
deriving DecidableEq

/-- Operators before one operand. -/
inductive UnaryOp where
  | negate | logicNot
deriving DecidableEq

namespace BinaryOp

/-- What is written between two operands, blanks included. -/
def text : BinaryOp → String
  | qualify => ": " | assign => " = " | defaultValue => " ?: " | looseIntersect => " && "
  | union => " | " | intersect => " & " | document => " " | logicOr => " or "
  | logicAnd => " and " | compare => " <=> " | compareReversed => " >=< " | equal => " == "
  | greater => " > " | greaterOrEqual => " >= " | less => " < " | lessOrEqual => " <= "
  | member => " in " | instanceOf => " is " | matching => " =~ " | notMatching => " !~ "
  | range => ".." | add => " + " | subtract => " - " | multiply => " * " | divide => " / "
  | arrow => " -> " | field => "."

/-- The head of an S-expression. -/
def symbol : BinaryOp → String
  | qualify => ":" | assign => "=" | defaultValue => "?:" | looseIntersect => "&&"
  | union => "|" | intersect => "&" | document => "doc" | logicOr => "or" | logicAnd => "and"
  | compare => "<=>" | compareReversed => ">=<" | equal => "==" | greater => ">"
  | greaterOrEqual => ">=" | less => "<" | lessOrEqual => "<=" | member => "in"
  | instanceOf => "is" | matching => "=~" | notMatching => "!~" | range => ".." | add => "+"
  | subtract => "-" | multiply => "*" | divide => "/" | arrow => "->" | field => "."

/-- The name of an operator in dumps and logs. -/
def name : BinaryOp → String
  | qualify => "Qualify" | assign => "IntersectAssignValue"
  | defaultValue => "IntersectDefaultValue" | looseIntersect => "IntersectLowPrecedence"
  | union => "Union" | intersect => "Intersect" | document => "Document"
  | logicOr => "LogicOr" | logicAnd => "LogicAnd" | compare => "Compare"
  | compareReversed => "CompareReversed" | equal => "Equality" | greater => "GreaterThan"
  | greaterOrEqual => "GreaterThanOrEquals" | less => "LessThan"
  | lessOrEqual => "LessThanOrEquals" | member => "In" | instanceOf => "Is"
  | matching => "Match" | notMatching => "NotMatch" | range => "Range" | add => "Add"
  | subtract => "Subtract" | multiply => "Multiply" | divide => "Divide"
  | arrow => "FunctionArrow" | field => "FieldReference"

/-- All operators between operands. -/
def all : List BinaryOp :=
  [qualify, assign, defaultValue, looseIntersect, union, intersect, document, logicOr, logicAnd,
    compare, compareReversed, equal, greater, greaterOrEqual, less, lessOrEqual, member,
    instanceOf, matching, notMatching, range, add, subtract, multiply, divide, arrow, field]

/-- The operator with a given name. -/
def ofName? (name : String) : Option BinaryOp := all.find? fun op => op.name == name

theorem mem_all (op : BinaryOp) : op ∈ all := by cases op <;> decide

end BinaryOp

namespace UnaryOp

/-- What is written before the operand. A word carries the blank behind it. -/
def text : UnaryOp → String
  | negate => "-" | logicNot => "not "

/-- The head of an S-expression. -/
def symbol : UnaryOp → String
  | negate => "-" | logicNot => "not"

/-- The name of an operator in dumps and logs. -/
def name : UnaryOp → String
  | negate => "Negate" | logicNot => "Not"

/-- All operators before an operand. -/
def all : List UnaryOp := [negate, logicNot]

/-- The operator with a given name. -/
def ofName? (name : String) : Option UnaryOp := all.find? fun op => op.name == name

theorem mem_all (op : UnaryOp) : op ∈ all := by cases op <;> decide

end UnaryOp

end DocExpr
