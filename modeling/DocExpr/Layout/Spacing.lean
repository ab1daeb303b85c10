import DocExpr.Expr.Basic

/-!
# Vertical spacing

How the parts of a grouping are set apart: on one line, each on a line of its own, or with blank
lines between. `Expr.spacing` decides it from the shape of the tree alone: documentation above
something anywhere in it asks for blank lines, any other documentation for lines, and so does a
node with more than two parts.
-/

namespace DocExpr

/-- How the parts of a grouping are set apart. -/
inductive Spacing where
  /-- No lines are broken. -/
  | inline
  /-- Each part starts a line. -/
  | lines
  /-- There is a blank line before each part. -/
  | blankLines
deriving DecidableEq

namespace Spacing

/-- The name of a spacing. -/
def name : Spacing → String
  | inline => "None" | lines => "MultipleLines" | blankLines => "Whitespace"

/-- All spacings, the narrowest first. -/
def all : List Spacing := [inline, lines, blankLines]

/-- The spacing with a given name. -/
def ofName? (name : String) : Option Spacing := all.find? fun s => s.name == name

/-- The wider of two spacings. -/
def wider : Spacing → Spacing → Spacing
  | blankLines, _ | _, blankLines => blankLines
  | lines, _ | _, lines => lines
  | inline, inline => inline

@[simp] theorem inline_wider (s : Spacing) : wider inline s = s := by cases s <;> rfl

@[simp] theorem wider_inline (s : Spacing) : wider s inline = s := by cases s <;> rfl

theorem wider_assoc (s t u : Spacing) : wider (wider s t) u = wider s (wider t u) := by
  cases s <;> cases t <;> cases u <;> rfl

theorem wider_eq_blankLines {s t : Spacing} :
    wider s t = blankLines ↔ s = blankLines ∨ t = blankLines := by
  cases s <;> cases t <;> decide

theorem wider_eq_inline {s t : Spacing} : wider s t = inline ↔ s = inline ∧ t = inline := by
  cases s <;> cases t <;> decide

end Spacing

namespace Expr

/-- The spacing that a node asks for by itself: documentation asks for blank lines if it stands
above something and for lines otherwise, and more than two parts ask for lines. -/
def ownSpacing (e : Expr) : Spacing :=
  match e with
  | chain .document operands _ =>
    if operands.head?.any isLeading then .blankLines else .lines
  | _ => if e.children.length > 2 then .lines else .inline

mutual

/-- The spacing of the groupings in a tree: the widest that one of its nodes asks for. -/
def spacing : Expr → Spacing
  | e@(atom ..) => e.ownSpacing
  | e@(block ..) => e.ownSpacing
  | e@(suffixed _ item _) => e.ownSpacing.wider (spacing item)
  | e@(map item key _) => e.ownSpacing.wider ((spacing item).wider (spacing key))
  | e@(call callee arguments _) =>
    e.ownSpacing.wider ((spacing callee).wider (spacing arguments))
  | e@(array elements _) => e.ownSpacing.wider (spacingAll elements)
  | e@(group items _) => e.ownSpacing.wider (spacingAll items)
  | e@(chain _ operands _) => e.ownSpacing.wider (spacingAll operands)
  | e@(unary _ operand _) => e.ownSpacing.wider (spacing operand)

/-- The widest spacing of some trees. -/
def spacingAll : List Expr → Spacing
  | [] => .inline
  | e :: es => (spacing e).wider (spacingAll es)

end

/-- The spacing of a tree is the widest of its own and those of its parts. -/
theorem spacing_eq (e : Expr) : e.spacing = e.ownSpacing.wider (spacingAll e.children) := by
  cases e <;> simp [spacing, children, spacingAll]

end Expr

end DocExpr
