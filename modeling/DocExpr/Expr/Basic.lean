import DocExpr.Operator
import DocExpr.Origin
import DocExpr.Token.Kind

/-!
# Expressions

`Expr` is the tree of an expression. Every node carries the origin of the token it was built from.
`Expr.children` gives the direct parts of a node in source order and `Expr.preorder` all nodes.
`Expr.erase` forgets the origins, and `Expr.alike` compares two trees without them
(`alike_iff_erase_eq`).
-/

namespace DocExpr

/-- What can be written behind an item and wraps it, without further operands. -/
inductive Suffix where
  /-- A type of arrays, `T[]`. -/
  | array
  /-- A type of lists, `T[;]`. -/
  | list
  /-- A type that allows for no value, `T?`. -/
  | optional
  /-- A type of sets, `T` with empty braces. -/
  | set
deriving DecidableEq

/-- An expression with its origin in the source. -/
inductive Expr where
  /-- A name or a literal, with its exact text. -/
  | atom (form : Atom) (text : String) (origin : Origin)
  /-- Documentation or a multi-line string. -/
  | block (form : Block) (lines : List String) (origin : Origin)
  /-- An item with a suffix. -/
  | suffixed (form : Suffix) (item : Expr) (origin : Origin)
  /-- A type of maps: the item, and the key in braces behind it. -/
  | map (item key : Expr) (origin : Origin)
  /-- A call. The arguments that are read from a source are a group. -/
  | call (callee arguments : Expr) (origin : Origin)
  /-- Elements in square brackets. -/
  | array (elements : List Expr) (origin : Origin)
  /-- Items in parentheses, or the items of a whole file. -/
  | group (items : List Expr) (origin : Origin)
  /-- Operands with one operator between each two. -/
  | chain (op : BinaryOp) (operands : List Expr) (origin : Origin)
  /-- An operator before its operand. -/
  | unary (op : UnaryOp) (operand : Expr) (origin : Origin)

namespace Suffix

/-- What is written for a suffix. -/
def text : Suffix → String
  | array => "[]" | list => "[;]" | optional => "?" | set => "\x7b\x7d"

/-- The head of an S-expression. -/
def symbol : Suffix → String
  | array => "arraytype" | list => "listtype" | optional => "optional" | set => "settype"

/-- The name of a suffixed expression in dumps. -/
def name : Suffix → String
  | array => "ArrayType" | list => "ListType" | optional => "Optional" | set => "SetType"

/-- All suffixes. -/
def all : List Suffix := [array, list, optional, set]

end Suffix

namespace Expr

/-- Where a node stands in the source. -/
def origin : Expr → Origin
  | atom _ _ o | block _ _ o | suffixed _ _ o | map _ _ o | call _ _ o | array _ o | group _ o
  | chain _ _ o | unary _ _ o => o

/-- The direct parts of a node, in source order. -/
def children : Expr → List Expr
  | atom .. | block .. => []
  | suffixed _ item _ => [item]
  | map item key _ => [item, key]
  | call callee arguments _ => [callee, arguments]
  | array elements _ => elements
  | group items _ => items
  | chain _ operands _ => operands
  | unary _ operand _ => [operand]

/-- The name of a form of node in dumps. -/
def name : Expr → String
  | atom form .. => form.name
  | block form .. => form.name
  | suffixed form .. => form.name
  | map .. => "MapType"
  | call .. => "FunctionCall"
  | array .. => "ArrayLiteral"
  | group .. => "Parenthesized"
  | chain .. => "Infix"
  | unary .. => "Prefix"

/-- Whether a node is documentation that stands above something. -/
def isLeading : Expr → Bool
  | block .leading .. => true
  | _ => false

/-- The items of a group, and any other expression as a single item. -/
def items : Expr → List Expr
  | group items _ => items
  | e => [e]

/-- Adds an operand behind an expression: to a chain of the same operator as its next operand,
otherwise as the second operand of a new chain, which stands where the operator does. -/
def join (lhs : Expr) (op : BinaryOp) (opOrigin : Origin) (rhs : Expr) : Expr :=
  match lhs with
  | chain op' operands o =>
    if op' = op then chain op (operands ++ [rhs]) o else chain op [lhs, rhs] opOrigin
  | _ => chain op [lhs, rhs] opOrigin

mutual

/-- All nodes of a tree, each before its parts. -/
def preorder : Expr → List Expr
  | e@(atom ..) => [e]
  | e@(block ..) => [e]
  | e@(suffixed _ item _) => e :: preorder item
  | e@(map item key _) => e :: (preorder item ++ preorder key)
  | e@(call callee arguments _) => e :: (preorder callee ++ preorder arguments)
  | e@(array elements _) => e :: preorderAll elements
  | e@(group items _) => e :: preorderAll items
  | e@(chain _ operands _) => e :: preorderAll operands
  | e@(unary _ operand _) => e :: preorder operand

/-- All nodes of the trees, one tree after the other. -/
def preorderAll : List Expr → List Expr
  | [] => []
  | e :: es => preorder e ++ preorderAll es

end

mutual

/-- The tree without its places in the source. -/
def erase : Expr → Expr
  | atom form text _ => atom form text .synthetic
  | block form lines _ => block form lines .synthetic
  | suffixed form item _ => suffixed form (erase item) .synthetic
  | map item key _ => map (erase item) (erase key) .synthetic
  | call callee arguments _ => call (erase callee) (erase arguments) .synthetic
  | array elements _ => array (eraseAll elements) .synthetic
  | group items _ => group (eraseAll items) .synthetic
  | chain op operands _ => chain op (eraseAll operands) .synthetic
  | unary op operand _ => unary op (erase operand) .synthetic

/-- The trees without their places in the source. -/
def eraseAll : List Expr → List Expr
  | [] => []
  | e :: es => erase e :: eraseAll es

end

mutual

/-- Whether two trees are the same up to their places in the source. -/
def alike : Expr → Expr → Bool
  | atom form text _, atom form' text' _ => form = form' && text = text'
  | block form lines _, block form' lines' _ => form = form' && lines = lines'
  | suffixed form item _, suffixed form' item' _ => form = form' && alike item item'
  | map item key _, map item' key' _ => alike item item' && alike key key'
  | call callee arguments _, call callee' arguments' _ =>
    alike callee callee' && alike arguments arguments'
  | array elements _, array elements' _ => alikeAll elements elements'
  | group items _, group items' _ => alikeAll items items'
  | chain op operands _, chain op' operands' _ => op = op' && alikeAll operands operands'
  | unary op operand _, unary op' operand' _ => op = op' && alike operand operand'
  | _, _ => false

/-- Whether two lists of trees are the same up to places in the source. -/
def alikeAll : List Expr → List Expr → Bool
  | [], [] => true
  | e :: es, e' :: es' => alike e e' && alikeAll es es'
  | _, _ => false

end

mutual

theorem alike_iff_erase_eq (a b : Expr) : alike a b = true ↔ erase a = erase b := by
  cases a <;> cases b <;>
    simp [alike, erase, alike_iff_erase_eq, alikeAll_iff_eraseAll_eq]

theorem alikeAll_iff_eraseAll_eq (as bs : List Expr) :
    alikeAll as bs = true ↔ eraseAll as = eraseAll bs := by
  cases as <;> cases bs <;>
    simp [alikeAll, eraseAll, alike_iff_erase_eq, alikeAll_iff_eraseAll_eq]

end

theorem eraseAll_eq_map (es : List Expr) : eraseAll es = es.map erase := by
  induction es with
  | nil => rfl
  | cons e es ih => simp [eraseAll, ih]

theorem preorderAll_eq_flatMap (es : List Expr) : preorderAll es = es.flatMap preorder := by
  induction es with
  | nil => rfl
  | cons e es ih => simp [preorderAll, ih]

/-- The root comes first and the nodes of its parts follow. -/
theorem preorder_eq (e : Expr) : e.preorder = e :: e.children.flatMap preorder := by
  cases e <;> simp [preorder, children, preorderAll_eq_flatMap]

end Expr

end DocExpr
