import DocExpr.Expr.Basic
import DocExpr.Token.Kind

/-!
# Binding powers

How tightly the operators bind, as numbers: the operator with the greater power takes an operand
that two operators could take. An operator between operands has a power on either side, the right
one greater (`left_lt_right`), so that equal operators group to the left. What is written behind an
item binds tighter than every operator (`right_lt_postfixPower`).
-/

namespace DocExpr

/-- What can follow an item and take it as its first part. -/
inductive Postfixed where
  /-- A set type or a map type. -/
  | brace
  /-- An array type or a list type. -/
  | bracket
  /-- A call. -/
  | call
  /-- A type that allows for no value. -/
  | optional
deriving DecidableEq

/-- The power of what is written behind an item. -/
def postfixPower : Nat := 500

/-- The name of a form that follows an item. -/
def Postfixed.name : Postfixed → String
  | .brace => "Brace" | .bracket => "Bracket" | .call => "Call" | .optional => "Optional"

namespace BinaryOp

/-- The power of an operator over the operand before it. -/
def left : BinaryOp → Nat
  | qualify | assign | defaultValue => 10
  | looseIntersect => 30
  | union => 50
  | intersect => 70
  | document => 90
  | logicOr => 110
  | logicAnd => 130
  | compare | compareReversed => 170
  | equal | greater | greaterOrEqual | less | lessOrEqual => 190
  | member | instanceOf | matching | notMatching => 210
  | add | subtract => 230
  | range => 235
  | multiply | divide => 250
  | arrow => 290
  | field => 310

/-- The power of an operator over the operand behind it. -/
def right : BinaryOp → Nat
  | range => 236
  | op => op.left + 10

theorem left_lt_right (op : BinaryOp) : op.left < op.right := by cases op <;> decide

theorem right_lt_postfixPower (op : BinaryOp) : op.right < postfixPower := by cases op <;> decide

end BinaryOp

/-- The power of an operator over the operand behind it. -/
def UnaryOp.power : UnaryOp → Nat
  | .logicNot => 150
  | .negate => 270

namespace Kind

/-- The operator that a token stands for between operands. -/
def binary? : Kind → Option BinaryOp
  | mark .colon => some .qualify
  | mark .equals => some .assign
  | mark .questionColon => some .defaultValue
  | mark .doubleAmpersand => some .looseIntersect
  | mark .bar => some .union
  | mark .ampersand => some .intersect
  | document => some .document
  | keyword .orWord => some .logicOr
  | keyword .andWord => some .logicAnd
  | mark .compare => some .compare
  | mark .compareReversed => some .compareReversed
  | mark .doubleEquals => some .equal
  | mark .greater => some .greater
  | mark .greaterOrEqual => some .greaterOrEqual
  | mark .less => some .less
  | mark .lessOrEqual => some .lessOrEqual
  | keyword .inWord => some .member
  | keyword .isWord => some .instanceOf
  | mark .matching => some .matching
  | mark .notMatching => some .notMatching
  | mark .plus => some .add
  | mark .dash => some .subtract
  | mark .doubleDot => some .range
  | mark .asterisk => some .multiply
  | mark .slash => some .divide
  | mark .rightArrow => some .arrow
  | mark .dot => some .field
  | _ => none

/-- The operator that a token stands for before an operand. -/
def unary? : Kind → Option UnaryOp
  | keyword .notWord => some .logicNot
  | mark .dash => some .negate
  | _ => none

/-- What a token opens behind an item. -/
def postfixed? : Kind → Option Postfixed
  | mark .leftBrace => some .brace
  | mark .leftBracket => some .bracket
  | mark .leftParenthesis => some .call
  | mark .question => some .optional
  | _ => none

end Kind

end DocExpr
